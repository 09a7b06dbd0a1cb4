/-
# Guarantees.ClaimFence -- a superseded claim can do nothing

A claim is a queue row id with the epoch the claim left in the row.  A later claim of
the row, a reap, a release and a re-point all move the epoch on, and neither
`AppendOutbox` nor the compose stamp accepts a task whose epoch is not the row's.  So
a claim that was superseded once stays superseded, whatever runs next, and what is
issued under it changes nothing at all: no result, no resource column, no children.
-/
import Converge.Kernel.Lease

namespace Converge.Kernel

open Converge.Theory

set_option autoImplicit false

section Fence

variable [Postgres] {db db' : Db} {t : WorkTask} {q : WorkQueueRow}

/-! ## Epochs -/

theorem claimEpoch_mono {allow : Fence.Move → Prop} {q' : WorkQueueRow} (good : Leases db)
    (run : Fence.Run allow (lease db q.id) (lease db' q.id)) (before : q ∈ db.workQueue)
    (after : q' ∈ db'.workQueue) (same : q'.id = q.id) : q.claimEpoch ≤ q'.claimEpoch := by
  have here : (lease db' q.id).slot = some q'.slot := by
    rw [← same]
    exact lease_slot after
  exact Fence.epoch_mono run (good q.id) (lease_slot before) here

theorem task_epoch_le (good : Leases db) (granted : t ∈ db.tasks)
    (here : q ∈ db.workQueue) (same : q.id = t.id) : t.claimEpoch ≤ q.claimEpoch := by
  have behind := (good q.id).behind q.slot (lease_slot here) t.token
  rw [same] at behind
  exact (behind (lease_claims granted)).1

theorem task_leases (good : Leases db) (granted : t ∈ db.tasks)
    (here : q ∈ db.workQueue) (same : q.id = t.id) (current : t.claimEpoch = q.claimEpoch) :
    t.generation = q.generation ∧ q.brokerId ≠ none := by
  have lease := (good q.id).lease q.slot (lease_slot here) t.token
  rw [same] at lease
  obtain ⟨gen, held⟩ := lease (lease_claims granted) current
  exact ⟨gen, Option.isSome_iff_ne_none.mp held⟩

/-! ## New claims -/

theorem Effects.tasks_eq {allow : Label → Prop} (run : Effects allow db db')
    (noClaim : ¬ allow .claim) : db'.tasks = db.tasks := by
  refine Steps.keeps (I := fun s => s.tasks = db.tasks) ?_ run rfl
  intro l a b ok effect same
  rw [← same]
  cases effect with
  | aux same => exact same.tasks
  | claim scan batch => exact absurd ok noClaim
  | _ => rfl

theorem new_task {a : Action} (after : t ∈ (step db a).tasks) (new : t ∉ db.tasks) :
    ∃ q ∈ db.workQueue, q.id = t.id ∧ t.claimEpoch = q.claimEpoch + 1 ∧
      ∃ q' ∈ (step db a).workQueue, q'.id = t.id ∧ q'.claimEpoch = t.claimEpoch := by
  have claim : ∀ scan b, a = .workQueueTakeBatch scan b →
      ∃ q ∈ db.workQueue, q.id = t.id ∧ t.claimEpoch = q.claimEpoch + 1 ∧
        ∃ q' ∈ (step db a).workQueue, q'.id = t.id ∧ q'.claimEpoch = t.claimEpoch := by
    rintro scan b rfl
    rcases mem_tasks_claim.mp after with ⟨q, taken, rfl⟩ | old
    · have slot : (lease (workQueueTakeBatch db scan b) q.id).slot = some _ :=
        congrArg Fence.Cell.slot (lease_claimed taken)
      obtain ⟨q', here, same, eq⟩ := of_lease_slot slot
      exact ⟨q, (mem_takenRows taken).1, rfl, rfl, q', here, same, congrArg Fence.Slot.epoch eq⟩
    · exact absurd old new
  have other : ¬ a.allows db .claim → False := fun noClaim =>
    new ((step_effects db a).tasks_eq noClaim ▸ after)
  cases a with
  | workQueueTakeBatch scan b => exact claim scan b rfl
  | _ =>
    refine (other ?_).elim
    first
      | exact id
      | exact fun h => by cases h

/-! ## Superseded claims -/

/-- The step of `a` from `db` ends the claim of `t`: the row is claimed again, is freed
(reap, release), or is pointed to another generation. -/
def Supersedes (db : Db) (a : Action) (t : WorkTask) : Prop :=
  (∃ u ∈ (step db a).tasks, u ∉ db.tasks ∧ u.id = t.id) ∨
  ∃ q ∈ db.workQueue, ∃ q' ∈ (step db a).workQueue, q.id = t.id ∧ q'.id = t.id ∧
    ((q.brokerId ≠ none ∧ q'.brokerId = none) ∨ q'.generation ≠ q.generation)
deriving Decidable

theorem Supersedes.superseded {a : Action} (good : Leases db) (granted : t ∈ db.tasks)
    (ends : Supersedes db a t) : Fence.Superseded (lease (step db a) t.id) t.token := by
  have effects := step_effects db a
  have later : Leases (step db a) := effects.leases good
  have stays : t ∈ (step db a).tasks := effects.tasks_subset granted
  intro s slot
  obtain ⟨q', here', same', rfl⟩ := of_lease_slot slot
  show q'.claimEpoch ≠ t.claimEpoch
  intro current
  obtain ⟨gen', held'⟩ := task_leases later stays here' same' current.symm
  rcases ends with ⟨u, after, new, same⟩ | ⟨q, here, q₁, here₁, sameq, same₁, changed⟩
  · -- the new task's epoch is that of the row, which passed `t`'s
    obtain ⟨q, here, idq, next, q₁, here₁, idq₁, epoch⟩ := new_task after new
    have one : q₁ = q' :=
      Table.eq_of_pk workQueue_primary here₁ here' (idq₁.trans (same.trans same'.symm))
    have le := task_epoch_le good granted here (idq.trans same)
    rw [one] at epoch
    omega
  · have one : q₁ = q' := Table.eq_of_pk workQueue_primary here₁ here' (same₁.trans same'.symm)
    subst one
    rcases changed with ⟨-, freed⟩ | moved
    · exact held' freed
    · -- then `t` held the lease before too, at the generation it was handed out for
      have le := task_epoch_le good granted here sameq
      have mono := claimEpoch_mono good (effects.lease good q.id) here here₁ (same'.trans sameq.symm)
      have gen := (task_leases good granted here sameq (by omega)).1
      exact moved (gen'.symm.trans gen)

theorem tokenMatches_superseded {o : OutboxRow} (ended : Fence.Superseded (lease db o.task.id) o.task.token) :
    ¬ db.workQueue.rows.any (tokenMatches o) = true := by
  intro token
  obtain ⟨q, here, matched⟩ := List.any_eq_true.mp token
  simp only [tokenMatches, Bool.and_eq_true, decide_eq_true_eq] at matched
  obtain ⟨⟨⟨same, epoch⟩, -⟩, -⟩ := matched
  have slot : (lease db o.task.id).slot = some q.slot := by
    rw [← OutboxRow.workId, ← same]
    exact lease_slot here
  exact ended q.slot slot epoch

theorem appendOutbox_superseded {o : OutboxRow}
    (ended : Fence.Superseded (lease db o.task.id) o.task.token) : appendOutbox db o = db :=
  if_neg (tokenMatches_superseded ended)

theorem stampComposedGen_superseded
    (ended : Fence.Superseded (lease db t.id) t.token) : stampComposedGen db t = none := by
  unfold stampComposedGen
  split
  · rename_i held
    obtain ⟨-, held⟩ := Bool.and_eq_true_iff.mp held
    obtain ⟨q, here, matched⟩ := List.any_eq_true.mp held
    simp only [claimHeld, Bool.and_eq_true, decide_eq_true_eq] at matched
    obtain ⟨⟨⟨same, epoch⟩, -⟩, -⟩ := matched
    have slot : (lease db t.id).slot = some q.slot := by
      rw [← same]
      exact lease_slot here
    exact absurd epoch (ended q.slot slot)
  · rfl

/-- The body of a compose never makes its own claim current again, so the stamp still
fails and the whole transaction is rolled back. -/
theorem applyComposeResult_superseded {env : ComposeEnv} {out : ComposeOutput}
    {pol : ComposePolicy} (good : Leases db) (granted : t ∈ db.tasks)
    (ended : Fence.Superseded (lease db t.id) t.token) : applyComposeResult db env t out pol = none := by
  cases body : composeBody db env t out pol with
  | none => simp [applyComposeResult, body]
  | some result =>
    obtain ⟨mid, ids⟩ := result
    have run := (composeBody_effects (Composable.plain db) body).lease good t.id
    have still := Fence.superseded_stays run (good t.id) (lease_claims granted) ended
    simp [applyComposeResult, body, stampComposedGen_superseded still]

/-- What is issued under a superseded claim changes nothing. -/
theorem superseded_issues_nothing (good : Leases db) (granted : t ∈ db.tasks)
    (ended : Fence.Superseded (lease db t.id) t.token) :
    (∀ o : OutboxRow, o.task = t → step db (.appendOutbox o) = db) ∧
    ∀ env out pol, step db (.applyComposeResult env t out pol) = db := by
  constructor
  · rintro o rfl
    show submitResult db o = db
    simp [submitResult, appendOutbox_superseded ended]
  · intro env out pol
    show submitCompose db env t out pol = db
    simp [submitCompose, applyComposeResult_superseded good granted ended]

/-- **The claim fence.**  From every reachable state: along every run the epoch of a
queue row never decreases; every new claim of a row takes a larger epoch than the row
and all earlier tasks of it had; and once a step has superseded a claim, no run makes
a result or a compose issued under it change anything. -/
theorem claim_fence (reachable : Reachable db) :
    (∀ actions, ∀ q ∈ db.workQueue, ∀ q' ∈ (run db actions).workQueue, q'.id = q.id →
      q.claimEpoch ≤ q'.claimEpoch) ∧
    (∀ a, ∀ t ∈ (step db a).tasks, t ∉ db.tasks →
      (∃ q ∈ db.workQueue, q.id = t.id ∧ q.claimEpoch < t.claimEpoch) ∧
      (∃ q' ∈ (step db a).workQueue, q'.id = t.id ∧ q'.claimEpoch = t.claimEpoch) ∧
      ∀ u ∈ db.tasks, u.id = t.id → u.claimEpoch < t.claimEpoch) ∧
    (∀ a, ∀ t ∈ db.tasks, Supersedes db a t → ∀ actions, (∀ o : OutboxRow, o.task = t →
        step (run (step db a) actions) (.appendOutbox o) = run (step db a) actions) ∧
      ∀ env out pol, step (run (step db a) actions) (.applyComposeResult env t out pol) =
          run (step db a) actions) := by
  have good := reachable.leases
  refine ⟨?_, ?_, ?_⟩
  · intro actions q before q' after same
    exact claimEpoch_mono good (run_lease good actions q.id) before after same
  · intro a t after new
    obtain ⟨q, here, same, next, row⟩ := new_task after new
    refine ⟨⟨q, here, same, by omega⟩, row, ?_⟩
    intro u old sameu
    have le := task_epoch_le good old here (same.trans sameu.symm)
    omega
  · intro a t granted ends actions
    have ended := ends.superseded good granted
    have later := (reachable.step a).leases
    have granted' := (step_effects db a).tasks_subset granted
    have still := Fence.superseded_stays (run_lease later actions t.id) (later t.id)
      (lease_claims granted') ended
    exact superseded_issues_nothing ((reachable.step a).run actions).leases
      (run_tasks_subset _ actions granted') still

end Fence

/-- A broker shuts down and releases its claim; its worker's success comes after. -/
theorem claim_fence_late_success : letI := counting
    let db := run Db.empty [applyRoot "vm" "a", claimAll "b" "vm" .reconcile]
    let freed := step db (.workQueueReleaseBroker Scan.plain "b")
    (∃ t, t ∈ db.tasks) ∧ ∀ t ∈ db.tasks, step freed (.appendOutbox (success t)) = freed := by
  let _ := counting
  intro db freed
  have reachable : Reachable db := ⟨_, rfl⟩
  have fence := (claim_fence reachable).2.2 (.workQueueReleaseBroker Scan.plain "b")
  refine ⟨⟨_, List.mem_cons_self⟩, fun t granted => ?_⟩
  have ends : ∀ t ∈ db.tasks, Supersedes db (.workQueueReleaseBroker Scan.plain "b") t := by
    decide
  exact (fence t granted (ends t granted) []).1 (success t) rfl

end Converge.Kernel
