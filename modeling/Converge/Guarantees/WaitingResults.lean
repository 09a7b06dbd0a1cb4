/-
# Guarantees.WaitingResults -- results between the append and the drain

A result waits in the outbox under the id of its queue row.  Two things can go wrong
with it before the drainer comes, and both happen.

* The row is re-pointed to a newer generation while the result waits.  The id stays,
  so the result of the next claim meets the outbox key and `ON CONFLICT DO NOTHING`
  discards it (`append_swallowed`).  As long as no row with a waiting result changes
  its generation, nothing is discarded (`append_recorded`).
* A broker gives up its leases.  The reaper leaves rows with a waiting result alone;
  the two releases do not look, and the row is claimed and executed again
  (`finished_reclaimed`).  As long as no release frees such a row, no claim takes one
  (`finished_not_reclaimed`).
-/
import Converge.Guarantees.ClaimFence
import Converge.Kernel.Rows

namespace Converge.Kernel

open Converge.Theory Table

set_option autoImplicit false
set_option linter.unusedSectionVars false

section Appends

variable [Postgres] {db db' : Db} {o : OutboxRow}

/-! ## Discarded results -/

/-- The token of `o` matches its queue row: epoch, generation and manifest version. -/
def TokenCurrent (db : Db) (o : OutboxRow) : Prop :=
  ∃ q ∈ db.workQueue, tokenMatches o q = true ∧ q.generation = o.observedGeneration

/-- An undrained result of the row of `o`, for the generation of `o`. -/
def Recorded (db : Db) (o : OutboxRow) : Prop :=
  ∃ u ∈ db.workOutbox, u.workId = o.workId ∧ u.observedGeneration = o.observedGeneration

/-- The step changes the generation of no queue row whose result is waiting. -/
def LeavesFinished (db : Db) (a : Action) : Prop :=
  ∀ o ∈ db.workOutbox, ∀ q ∈ db.workQueue, ∀ q' ∈ (step db a).workQueue,
    q.id = o.workId → q'.id = o.workId → q'.generation = q.generation
deriving Decidable

/-- Waiting results are for the generation of their row. -/
def Fresh (db : Db) : Prop :=
  ∀ o ∈ db.workOutbox, ∀ q ∈ db.workQueue, q.id = o.workId → o.observedGeneration = q.generation

/-- A matching append is recorded unless the outbox holds another generation's result
of the row. -/
theorem recorded_iff (token : TokenCurrent db o) : Recorded (appendOutbox db o) o ↔
      ∀ u ∈ db.workOutbox, u.workId = o.workId → u.observedGeneration = o.observedGeneration := by
  obtain ⟨q, here, matched, -⟩ := token
  have appended : (appendOutbox db o).workOutbox = db.workOutbox.insertNew o := by
    unfold appendOutbox
    rw [if_pos (List.any_eq_true.mpr ⟨q, here, matched⟩)]
  unfold Recorded
  rw [appended]
  constructor
  · rintro ⟨u, after, same, gen⟩ v waiting samev
    rcases mem_insertNew.mp after with old | ⟨rfl, free⟩
    · rwa [eq_of_pk workOutbox_primary waiting old (samev.trans same.symm)]
    · exact absurd ⟨v, waiting, samev⟩ free
  · intro agree
    by_cases taken : db.workOutbox.Occupied o
    · obtain ⟨u, waiting, same⟩ := taken
      exact ⟨u, mem_insertNew.mpr (.inl waiting), same, agree u waiting same⟩
    · exact ⟨o, mem_insertNew.mpr (.inr ⟨rfl, taken⟩), rfl, rfl⟩

theorem row_of_waiting {allow : Label → Prop} (good : Leases db) (run : Effects allow db db')
    (waiting : o ∈ db.workOutbox) {q' : WorkQueueRow}
    (after : q' ∈ db'.workQueue) (same : q'.id = o.workId) : ∃ q ∈ db.workQueue, q.id = o.workId := by
  have born : (lease db o.workId).born := by
    by_contra new
    have none := ((good o.workId).unborn new).2.1
    rw [lease_waiting waiting] at none
    cases none
  have slot : (lease db' o.workId).slot = some q'.slot := by
    rw [← same]
    exact lease_slot after
  obtain ⟨s, here, -⟩ := (run.lease good o.workId).later.2 q'.slot slot born
  obtain ⟨q, hq, id, -⟩ := of_lease_slot here
  exact ⟨q, hq, id⟩

theorem mem_outbox_append {u : OutboxRow} (after : u ∈ (submitResult db o).workOutbox) : u ∈ db.workOutbox ∨
      (u = o ∧ o.task ∈ db.tasks ∧ ∃ q ∈ db.workQueue, tokenMatches o q = true) := by
  unfold submitResult appendOutbox at after
  split at after
  · rename_i claimed
    split at after
    · rename_i token
      obtain ⟨q, here, matched⟩ := List.any_eq_true.mp token
      rcases mem_insertNew.mp after with old | ⟨new, -⟩
      · exact Or.inl old
      · exact Or.inr ⟨new, claimed, q, here, matched⟩
    · exact Or.inl after
  · exact Or.inl after

theorem append_queue (o : OutboxRow) : (submitResult db o).workQueue = db.workQueue := by
  unfold submitResult appendOutbox
  split
  · split <;> rfl
  · rfl

/-- A step that leaves finished rows at their generation keeps waiting results fresh. -/
theorem step_fresh (good : Leases db) (a : Action) (leaves : LeavesFinished db a)
    (fresh : Fresh db) : Fresh (step db a) := by
  have old : ∀ o ∈ db.workOutbox, ∀ q' ∈ (step db a).workQueue, q'.id = o.workId →
      o.observedGeneration = q'.generation := by
    intro o waiting q' after same
    obtain ⟨q, here, id⟩ := row_of_waiting good (step_effects db a) waiting after same
    rw [fresh o waiting q here id, leaves o waiting q here q' after id same]
  have other : ¬ a.allows db .append → Fresh (step db a) := fun noAppend o waiting =>
    old o ((step_effects db a).outbox_subset noAppend o waiting)
  cases a with
  | appendOutbox o =>
    intro u waiting q' after same
    rcases mem_outbox_append waiting with before | ⟨rfl, claimed, q, here, matched⟩
    · exact old u before q' after same
    · -- the row carries the task's epoch, so the task holds its lease
      have here' : q' ∈ db.workQueue := append_queue u ▸ after
      simp only [tokenMatches, Bool.and_eq_true, decide_eq_true_eq] at matched
      have one : q' = q :=
        eq_of_pk workQueue_primary here' here (same.trans matched.1.1.1.symm)
      rw [one]
      exact (task_leases good claimed here matched.1.1.1 matched.1.1.2.symm).1
  | workQueueTakeBatch _ _ | workQueueReleaseBroker _ _ | workQueueReleaseTasks _ _ _ _
  | reapStaleWork _ _ _ _ | deleteUnclaimedWork _ _ _ _ | recountInflight _ =>
    exact other fun h => by cases h
  | _ => exact other fun h => h

/-- **When an append is recorded.**  In any state an append whose token matches leaves an
undrained result of its generation exactly when the outbox holds none of another
generation under the id; and in every run whose steps never change the generation of a
row with a waiting result, every matching append does. -/
theorem append_recorded : (∀ (db : Db) (o : OutboxRow), TokenCurrent db o → (Recorded (appendOutbox db o) o ↔
        ∀ u ∈ db.workOutbox, u.workId = o.workId → u.observedGeneration = o.observedGeneration)) ∧
    ∀ actions, Along LeavesFinished Db.empty actions → ∀ o, TokenCurrent (run Db.empty actions) o →
        Recorded (appendOutbox (run Db.empty actions) o) o := by
  refine ⟨fun db o token => recorded_iff token, fun actions along o token => ?_⟩
  have fresh : Fresh (run Db.empty actions) := by
    refine Along.keeps (fun db a reachable => step_fresh reachable.leases a) .empty along ?_
    exact fun o waiting => absurd waiting (notMem_empty o)
  refine (recorded_iff token).mpr fun u waiting same => ?_
  obtain ⟨q, here, matched, gen⟩ := token
  simp only [tokenMatches, Bool.and_eq_true, decide_eq_true_eq] at matched
  rw [fresh u waiting q here (matched.1.1.1.trans same.symm), gen]

end Appends

/-- One claim, one result: the condition holds along the run and the append counts. -/
theorem append_recorded_once : letI := counting
    let actions := [applyRoot "vm" "a", claimAll "b" "vm" .reconcile]
    let db := run Db.empty actions
    (∃ t, t ∈ db.tasks) ∧ ∀ t ∈ db.tasks, Recorded (appendOutbox db (success t)) (success t) := by
  let _ := counting
  intro actions db
  refine ⟨⟨_, List.mem_cons_self⟩, fun t granted => ?_⟩
  have token : ∀ t ∈ db.tasks, ∃ q ∈ db.workQueue.rows,
      tokenMatches (success t) q = true ∧ q.generation = (success t).observedGeneration := by decide
  exact append_recorded.2 actions (by decide) (success t) (token t granted)

/-- A success waits for generation 1; a reconcile request re-points its row to
generation 2; the next claim succeeds, its token matches, and its result is discarded. -/
theorem append_swallowed : letI := counting
    let first := [applyRoot "vm" "a", claimAll "b" "vm" .reconcile]
    let waiting := (run Db.empty first).tasks.map fun t => Action.appendOutbox (success t)
    let db := run Db.empty
      (first ++ waiting ++ [.reconcile 0, claimAll "c" "vm" .reconcile])
    ∃ t ∈ db.tasks, TokenCurrent db (success t) ∧ ¬ Recorded (appendOutbox db (success t)) (success t) := by
  let _ := counting
  intro first waiting db
  have swallowed : ∃ t ∈ db.tasks, (∃ q ∈ db.workQueue.rows,
        tokenMatches (success t) q = true ∧ q.generation = (success t).observedGeneration) ∧
      ¬ ∃ u ∈ (appendOutbox db (success t)).workOutbox.rows, u.workId = (success t).workId ∧
          u.observedGeneration = (success t).observedGeneration := by decide
  exact swallowed

section Releases

variable [Postgres] {db db' : Db}

/-! ## Finished work claimed again -/

/-- The rows a release frees. -/
def Action.releases : Action → WorkQueueRow → Bool
  | .workQueueReleaseBroker scan broker, q => releasesBroker scan broker q
  | .workQueueReleaseTasks scan broker ids range, q => releasesTasks scan broker ids range q
  | _, _ => false

/-- A result for the generation of `q` is waiting. -/
def Finished (db : Db) (q : WorkQueueRow) : Prop :=
  ∃ o ∈ db.workOutbox, o.workId = q.id ∧ o.observedGeneration = q.generation
deriving Decidable

/-- The step releases no finished row. -/
def ReleasesUnfinished (db : Db) (a : Action) : Prop :=
  ∀ q ∈ db.workQueue, a.releases q = true → ¬ Finished db q
deriving Decidable

/-- Finished rows are leased. -/
def FinishedLeased (db : Db) : Prop := ∀ q ∈ db.workQueue, Finished db q → q.brokerId ≠ none

theorem finishedLeased_iff : FinishedLeased db ↔ ∀ id, Fence.Leased (lease db id) := by
  constructor
  · intro leased id s t slot waiting same
    obtain ⟨q, here, rfl, rfl⟩ := of_lease_slot slot
    obtain ⟨o, ho, id, rfl⟩ := of_lease_waiting waiting
    exact Option.isSome_iff_ne_none.mpr (leased q here ⟨o, ho, id, same⟩)
  · rintro leased q here ⟨o, ho, id, same⟩
    have waiting : (lease db q.id).waiting = some o.task.token := by
      rw [← id]
      exact lease_waiting ho
    exact Option.isSome_iff_ne_none.mp (leased q.id _ _ (lease_slot here) waiting same)

theorem freeWhere_finishedLeased {p : WorkQueueRow → Bool}
    (unfinished : ∀ q ∈ db.workQueue, p q = true → ¬ Finished db q)
    (leased : FinishedLeased db) : FinishedLeased (freeWhere db p) := by
  intro q' after finished
  unfold freeWhere at after
  simp only [mem_updateWhere] at after
  obtain ⟨q, here, rfl⟩ := after
  split at finished
  · rename_i freed
    exact absurd finished (unfinished q here freed)
  · rename_i kept
    rw [if_neg kept]
    exact leased q here finished

theorem step_finishedLeased (good : Leases db) (a : Action) (ok : ReleasesUnfinished db a)
    (leased : FinishedLeased db) : FinishedLeased (step db a) := by
  have other : ¬ a.allows db .release → FinishedLeased (step db a) := by
    intro noRelease
    refine finishedLeased_iff.mpr fun id => ?_
    refine ((step_effects db a).lease good id).leased (good id) ?_ (finishedLeased_iff.mp leased id)
    rintro ⟨l, allowed, moves⟩
    cases l with
    | release => exact noRelease allowed
    | enqueue _ | pop _ => rcases moves with h | h <;> cases h
    | _ => first | exact moves | cases moves
  cases a with
  | workQueueReleaseBroker scan broker | workQueueReleaseTasks scan broker ids range =>
    exact freeWhere_finishedLeased ok leased
  | workQueueTakeBatch _ _ | appendOutbox _ | reapStaleWork _ _ _ _
  | deleteUnclaimedWork _ _ _ _ | recountInflight _ => exact other fun h => by cases h
  | _ => exact other fun h => h

/-- **When finished work stays claimed.**  In every run whose releases free no row with
a waiting result of its generation, no claim takes such a row, in any state reached. -/
theorem finished_not_reclaimed {actions : List Action} (along : Along ReleasesUnfinished Db.empty actions) :
    ∀ scan batch, ∀ q ∈ takenRows (run Db.empty actions) scan batch, ¬ Finished (run Db.empty actions) q := by
  have leased : FinishedLeased (run Db.empty actions) := by
    refine Along.keeps (fun db a reachable => step_finishedLeased reachable.leases a) .empty along ?_
    exact fun q here => absurd here (notMem_empty q)
  intro scan batch q taken finished
  obtain ⟨here, free⟩ := mem_takenRows taken
  exact leased q here finished free

end Releases

/-- A broker releases a row before its worker is done; the next claim takes unfinished
work, and the run meets the condition. -/
theorem finished_not_reclaimed_release : letI := counting
    let actions := [applyRoot "vm" "a", claimAll "b" "vm" .reconcile,
      .workQueueReleaseBroker Scan.plain "b"]
    let batch : TakeBatch := ⟨"c", "vm", 1, .reconcile, ShardRange.full, 10⟩
    (takenRows (run Db.empty actions) Scan.plain batch).length = 1 ∧
      ∀ q ∈ takenRows (run Db.empty actions) Scan.plain batch, ¬ Finished (run Db.empty actions) q := by
  let _ := counting
  intro actions batch
  exact ⟨by decide, finished_not_reclaimed (by decide) Scan.plain batch⟩

/-- A task succeeds, its broker shuts down before the drainer comes, and another
broker's claim takes the finished row. -/
theorem finished_reclaimed : letI := counting
    let first := [applyRoot "vm" "a", claimAll "b" "vm" .reconcile]
    let waiting := (run Db.empty first).tasks.map fun t => Action.appendOutbox (success t)
    let db := run Db.empty (first ++ waiting ++ [.workQueueReleaseBroker Scan.plain "b"])
    ∃ q ∈ takenRows db Scan.plain ⟨"c", "vm", 1, .reconcile, ShardRange.full, 10⟩, Finished db q := by
  decide

end Converge.Kernel
