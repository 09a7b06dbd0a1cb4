/-
# Guarantees.Quarantine -- a quarantined resource and its reconcile

`quarantine_resource` freezes a row for good and takes its unclaimed reconcile off the
queue.  Nothing queues a reconcile of a frozen or a marked row, and nothing but
`unquarantine_resource` lifts the freeze, so until then the only reconcile of the resource
is the one a broker held when the quarantine came.  The freeze does not follow that one.
Given back by its broker, or freed by the reaper, it is an unclaimed row like any other and
the next claim takes it (`quarantined_claimed`).

`quarantine_parks`: this is the only way.  No reconcile of the resource waits for a claim,
in any state up to its deletion, exactly if no step frees the row that was claimed.
-/
import Converge.Guarantees.OrphanSweep

namespace Converge.Kernel

open Converge.Theory List Table

set_option autoImplicit false

section Quarantine

variable [Postgres] {db db' : Db} {id : Uuid} {allow : Label → Prop}

/-- What `quarantine_resource` returns: the row is there, not being deleted, and not
quarantined already. -/
def quarantineReturns (db : Db) (id : Uuid) : Bool :=
  db.resources.rows.any fun r => r.id = id && !r.marked && r.frozenUntil ≠ some .infinity

/-- Marked for deletion, or frozen for good. -/
def Resource.SetAside (r : Resource) : Prop :=
  r.marked = true ∨ r.frozenUntil = some .infinity

/-- The resource of the id, which has been drawn, is set aside, and unless it is being
deleted none of its reconciles is there for a claim. -/
structure Parked (id : Uuid) (db : Db) : Prop where
  known : db.Drawn id
  aside : ∀ r ∈ db.resources, r.id = id → r.SetAside
  idle : ∀ q ∈ db.workQueue, q.resourceId = id → q.taskType = .reconcile → q.brokerId = none → Marked db id

/-- The step frees no claimed reconcile of the resource, or the resource is being deleted. -/
def LeavesClaimed (id : Uuid) (db : Db) (a : Action) : Prop :=
  ∀ q ∈ db.workQueue.rows, q.resourceId = id → q.taskType = .reconcile → q.brokerId ≠ none →
    ∀ q' ∈ (step db a).workQueue.rows, q'.id = q.id → q'.brokerId = none → Marked (step db a) id
deriving Decidable

/-! ## The freeze -/

theorem allows_thaw {a : Action} (other : a ≠ .unquarantineResource id) : ¬ a.allows db (.row (.thaw id)) := by
  intro ok
  cases a with
  | unquarantineResource id' =>
    have same : id = id' := ok
    exact other (same ▸ rfl)
  | _ => first | exact ok | cases ok

theorem RowStep.setAside {k : RowKind} {r r' : Resource} (step : RowStep db r r' k)
    (frozen : k ≠ .thaw r.id) (before : r.SetAside) : r'.SetAside := by
  rcases before with marked | infinite
  · exact .inl (step.marked marked)
  · cases k with
    | quiet => exact .inr (Quiet.quarantine step infinite)
    | write => exact .inr ((Written.frozenUntil step).trans infinite)
    | mark =>
      -- a mark lifts the freeze
      obtain ⟨-, rfl⟩ := step
      exact .inl rfl
    | thaw id =>
      obtain ⟨rfl, -⟩ := step
      exact absurd rfl frozen
    | stamp | result results =>
      obtain ⟨_, -, -, rfl⟩ := step
      exact .inr infinite
    | strip results =>
      obtain ⟨o, -, f, -, rfl⟩ := step
      exact .inr infinite

theorem respects_setAside (frozen : ¬ allow (.row (.thaw id))) :
    Respects allow fun r r' => r'.id = r.id ∧ (r.id = id → r.SetAside → r'.SetAside) where
  refl _ := ⟨rfl, fun _ h => h⟩
  trans ab bc := ⟨bc.1.trans ab.1, fun same h => bc.2 (ab.1.trans same) (ab.2 same h)⟩
  quiet q := by
    refine ⟨q.id, fun _ before => ?_⟩
    rw [Resource.SetAside, Resource.marked, q.deletionRequestedAt]
    exact before.imp (fun marked => marked) q.quarantine
  row ok _ step := by
    refine ⟨step.same.id, fun same => step.setAside ?_⟩
    rintro rfl
    exact frozen (same ▸ ok)

theorem Effects.setAside (run : Effects allow db db') (frozen : ¬ allow (.row (.thaw id))) (known : db.Drawn id)
    (aside : ∀ r ∈ db.resources, r.id = id → r.SetAside) : ∀ r ∈ db'.resources, r.id = id → r.SetAside := by
  intro r' after same'
  obtain ⟨r, here, same, -, keeps⟩ :=
    run.tracks (respects_setAside frozen) after (same'.symm ▸ known)
  exact keeps (same.trans same') (aside r here (same.trans same'))

/-! ## The queue -/

/-- While a resource is set aside no reconcile of it is queued: each that is there after
some effects was there before them, and a mark stays as long as it is. -/
theorem Effects.parked_queue (run : Effects allow db db')
    (frozen : ¬ allow (.row (.thaw id))) (known : db.Drawn id)
    (aside : ∀ r ∈ db.resources, r.id = id → r.SetAside) :
    ∀ q' ∈ db'.workQueue, q'.resourceId = id → q'.taskType = .reconcile →
      (∃ q ∈ db.workQueue, q.job = q'.job) ∧ (Marked db id → Marked db' id) := by
  induction run with
  | refl => exact fun q here _ _ => ⟨⟨q, here, rfl⟩, fun h => h⟩
  | tail before last ih =>
    obtain ⟨l, ok, effect⟩ := last
    intro q' after resource type
    rcases effect.queue after with ⟨cause, -, new, -⟩ | ⟨q, here, key⟩
    · -- a reconcile is queued of a row that is neither marked nor frozen
      obtain ⟨r, here, snap, unmarked, unfrozen⟩ := new.reconcile type
      rcases Effects.setAside before frozen known aside r here
        (snap.resourceId.symm.trans resource) with marked | infinite
      · rw [marked] at unmarked
        cases unmarked
      · rw [Resource.frozen, infinite] at unfrozen
        cases unfrozen
    · obtain ⟨-, sameResource, sameType⟩ := queue_key key
      obtain ⟨⟨p, there, key'⟩, marks⟩ :=
        ih q here (sameResource.trans resource) (sameType.trans type)
      refine ⟨⟨p, there, key'.trans key⟩, fun marked => ?_⟩
      by_cases deletes : l = .delete
      · -- the queue rows of removed resources go with them
        subst deletes
        cases effect with
        | delete ids =>
          have out := of_decide_eq_false (mem_deleteWhere.mp after).2
          exact marked_deleteResources.mpr ⟨marks marked, resource ▸ out⟩
      · exact effect.marked_stays deletes (marks marked)

/-- One step leaves parked what was parked exactly if it frees no claimed reconcile. -/
theorem Parked.step_iff (parked : Parked id db) (named : QueueNamed db) {a : Action}
    (other : a ≠ .unquarantineResource id) : Parked id (step db a) ↔ LeavesClaimed id db a := by
  constructor
  · intro next q here resource type _ q' after same free
    -- the row of that id is the row there was
    obtain ⟨p, there, key⟩ := (step_effects db a).queue_tracks after (same ▸ named q here)
    obtain ⟨sameId, sameResource, sameType⟩ := queue_key key
    obtain rfl := eq_of_pk workQueue_primary there here (sameId.trans same)
    exact next.idle q' after (sameResource.symm.trans resource) (sameType.symm.trans type) free
  · intro leaves
    have run := step_effects db a
    refine ⟨parked.known.mono run.drawn_le, run.setAside (allows_thaw other) parked.known parked.aside, ?_⟩
    intro q' after resource type free
    obtain ⟨⟨q, here, key⟩, marks⟩ :=
      run.parked_queue (allows_thaw other) parked.known parked.aside q' after resource type
    obtain ⟨same, sameResource, sameType⟩ := queue_key key
    by_cases claimed : q.brokerId = none
    · exact marks (parked.idle q here (sameResource.trans resource) (sameType.trans type) claimed)
    · exact leaves q here (sameResource.trans resource) (sameType.trans type) claimed q' after
        same.symm free

theorem quarantineResource_parked (named : Named db) (returned : quarantineReturns db id = true) :
    Parked id (quarantineResource db id) := by
  have known : db.Drawn id := by
    obtain ⟨r, here, taken⟩ := any_eq_true.mp returned
    simp only [Bool.and_eq_true, decide_eq_true_eq] at taken
    exact taken.1.1 ▸ named r here
  have drawn := known.mono (quarantineResource_effects db id).drawn_le
  have found : (db.resources.rows.any fun r =>
      r.id = id && !r.marked && r.frozenUntil ≠ some .infinity) = true := returned
  unfold quarantineResource at drawn ⊢
  rw [if_pos found] at drawn ⊢
  refine ⟨drawn, ?_, ?_⟩
  · intro r' after same
    rw [(updateResources_only _ _ _ _).resources, mem_updateWhere] at after
    obtain ⟨r, here, rfl⟩ := after
    split
    · exact .inr rfl
    · rename_i left
      rw [if_neg left] at same
      simp only [same, decide_true, Bool.true_and, Bool.and_eq_true, Bool.not_eq_true',
        decide_eq_true_eq, not_and, not_not] at left
      by_cases marked : r.marked = true
      · exact .inl marked
      · exact .inr (left (Bool.eq_false_iff.mpr marked))
  · intro q after resource type free
    have kept := (mem_deleteWhere.mp after).2
    simp [resource, type, free] at kept

/-- **A quarantined resource is parked.**  From a quarantine that returns true, along any
run that does not lift it: no reconcile of the resource is there for a claim in any state,
up to its deletion, exactly if no step frees a claimed one; and then no batch takes a
reconcile of the resource unless it is marked for deletion. -/
theorem quarantine_parks (reachable : Reachable db) (returned : quarantineReturns db id = true)
    (actions : List Action) (kept : ∀ a ∈ actions, a ≠ .unquarantineResource id) :
    let start := step db (.quarantineResource id)
    (Along (fun s a => Parked id (step s a)) start actions ↔ Along (LeavesClaimed id) start actions) ∧
    (Along (LeavesClaimed id) start actions → ∀ scan batch,
      ∀ q ∈ takenRows (run start actions) scan batch, q.resourceId = id →
        q.taskType = .reconcile → Marked (run start actions) id) := by
  intro start
  have from_ : Reachable start := reachable.step _
  have parked : Parked id start := quarantineResource_parked reachable.named returned
  have exact_ : Along (fun s a => Parked id (step s a)) start actions ↔
      Along (LeavesClaimed id) start actions :=
    Along.iff_keeps (fun s a listed there before => before.step_iff there.queueNamed (kept a listed))
      from_ parked
  refine ⟨exact_, fun along scan batch q taken resource type => ?_⟩
  have last : Parked id (run start actions) :=
    Along.keeps (fun _ _ _ next _ => next) from_ (exact_.mpr along) parked
  obtain ⟨here, free⟩ := mem_takenRows taken
  exact last.idle q here resource type free

end Quarantine

/-- A root is quarantined while a broker holds its reconcile; the worker reports, the
result is drained, the spec changes and the root is due for a resync. -/
theorem quarantine_parks_finished : letI := counting
    let db := run Db.empty [applyRoot "vm" "a", claimAll "b" "vm" .reconcile]
    let start := step db (.quarantineResource 0)
    let actions := (db.tasks.map fun t => Action.appendOutbox (success t)) ++
      [drainAll, .applySpec ⟨"vm", 1, "a", .str "big", .obj [], ""⟩, .tick 60,
        .requeueForResync "vm" 30 10 [0] false]
    db.tasks.length = 1 ∧ ∀ scan batch, ∀ q ∈ takenRows (run start actions) scan batch,
      q.resourceId = 0 → q.taskType = .reconcile → Marked (run start actions) 0 := by
  intro db start actions
  have reachable : @Reachable counting db := ⟨_, rfl⟩
  have facts : letI := counting
      db.tasks.length = 1 ∧ quarantineReturns db 0 = true ∧ Along (LeavesClaimed 0) start actions := by
    decide +kernel
  have kept : ∀ a ∈ actions, a ≠ .unquarantineResource 0 := by
    intro a listed
    rcases mem_append.mp listed with reported | fixed
    · obtain ⟨t, -, rfl⟩ := mem_map.mp reported
      exact nofun
    · simp only [mem_cons, not_mem_nil, or_false] at fixed
      rcases fixed with rfl | rfl | rfl | rfl <;> exact nofun
  obtain ⟨one, returned, leaves⟩ := facts
  exact ⟨one, (@quarantine_parks counting db 0 reachable returned actions kept).2 leaves⟩

/-- The same root, but its broker shuts down, or is silent for a minute, and another broker
comes: it is handed the reconcile of the quarantined root, which is not being deleted. -/
theorem quarantined_claimed : letI := counting
    let db := run Db.empty [applyRoot "vm" "a", claimAll "b" "vm" .reconcile]
    quarantineReturns db 0 = true ∧
    ∀ freed ∈ [[Action.workQueueReleaseBroker Scan.plain "b"],
        [Action.tick 60, .reapStaleWork Scan.plain 30 10 ShardRange.full]],
      let last := run (step db (.quarantineResource 0)) freed
      ∃ q ∈ takenRows last Scan.plain ⟨"c", "vm", 1, .reconcile, ShardRange.full, 10⟩,
        q.resourceId = 0 ∧ q.taskType = .reconcile ∧ ∃ r ∈ last.resources.rows, r.id = 0 ∧ r.marked = false ∧
            r.frozenUntil = some .infinity := by
  decide +kernel

end Converge.Kernel
