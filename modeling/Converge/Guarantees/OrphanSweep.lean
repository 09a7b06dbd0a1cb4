/-
# Guarantees.OrphanSweep -- what the orphan sweep may tear down

`sweep_expired_orphans` takes every unlocked orphan past its deadline: it queues a
teardown for those whose kind has a finalizer and deletes the others outright.  It asks
neither what the orphan owns nor what depends on it, so it keeps the order of a
requested teardown exactly when the orphans it picks happen to be clear
(`orphan_sweep_ordered_iff`).  An orphan that still owns a row breaks it: the row goes
by cascade, and the finalizer of its kind never runs (`orphan_sweep_cascades`).
-/
import Converge.Guarantees.TeardownOrder

namespace Converge.Kernel

open Converge.Theory List Table

set_option autoImplicit false

/-- The row's kind has a finalizer that has not run: a marked row still carries it, an
unmarked one has yet to be seeded with it. -/
def finalizerPending (db : Db) (r : Resource) : Bool :=
  if r.marked then !r.finalizers.isEmpty else (db.kindFinalizer r).isSome

section Sweep

variable [Postgres] {db db' : Db}

/-- No row disappears before its finalizer has run. -/
def Spares (db db' : Db) : Prop :=
  ∀ r ∈ db.resources, ¬ Stored db' r.id → finalizerPending db r = false

/-! ## Queued teardowns are of marked rows -/

theorem RowStep.marked {k : RowKind} {r r' : Resource} (h : RowStep db r r' k)
    (marked : r.marked = true) : r'.marked = true := by
  cases k with
  | write => rwa [Resource.marked, Written.deletionRequestedAt h]
  | result results =>
    obtain ⟨o, -, -, rfl⟩ := h
    exact marked
  | _ => exact (h.sameAxes trivial).marked marked

theorem Effect.marked_stays {l : Label} (kept : l ≠ .delete) (effect : Effect l db db') {id : Uuid}
    (marked : Marked db id) : Marked db' id := by
  obtain ⟨r, here, rfl, mark⟩ := marked
  rcases effect.keeps_row kept here with same | ⟨_, -, r', after, step⟩
  · exact ⟨r, same, rfl, mark⟩
  · exact ⟨r', after, step.same.id, step.marked mark⟩

/-- A queued teardown is of a marked row. -/
def QueuedMarked (db : Db) : Prop :=
  ∀ q ∈ db.workQueue, q.taskType = .delete → Marked db q.resourceId

theorem Effect.queuedMarked {l : Label} (effect : Effect l db db') (good : QueuedMarked db) :
    QueuedMarked db' := by
  intro q' after type
  have before : Marked db q'.resourceId := by
    rcases effect.queue after with ⟨cause, -, new, -⟩ | ⟨q, here, key⟩
    · obtain ⟨r, here, snap, takes⟩ := new.snapshot
      obtain rfl := Cause.eq_teardown (new.taskType.symm.trans type)
      exact ⟨r, here, snap.resourceId.symm, takes⟩
    · obtain ⟨-, resource, sameType⟩ := queue_key key
      exact resource ▸ good q here (sameType.trans type)
  by_cases deletes : l = .delete
  · -- the queue rows of removed resources went with them
    subst deletes
    cases effect with
    | delete ids =>
      exact marked_deleteResources.mpr ⟨before, of_decide_eq_false (mem_deleteWhere.mp after).2⟩
  · exact effect.marked_stays deletes before

theorem Reachable.queuedMarked (reachable : Reachable db) : QueuedMarked db := by
  refine reachable.induction (fun q here => absurd here (notMem_empty q)) fun db a good => ?_
  exact Steps.keeps (fun _ effect => effect.queuedMarked) (step_effects db a) good

/-! ## The sweep in three parts -/

/-- The picked orphans of a kind with a finalizer. -/
def softOrphans (db : Db) (scan : Scan Uuid) (n : Nat) (range : ShardRange) : List Resource :=
  (orphansPicked db scan n range).filter fun r => (db.kindFinalizer r).isSome

/-- The picked orphans of a kind without. -/
def hardOrphans (db : Db) (scan : Scan Uuid) (n : Nat) (range : ShardRange) : List Resource :=
  (orphansPicked db scan n range).filter fun r => !(db.kindFinalizer r).isSome

/-- The state once the soft ones are marked. -/
def orphansMarked (db : Db) (scan : Scan Uuid) (n : Nat) (range : ShardRange) : Db :=
  updateResources db (fun r => r.id ∈ (softOrphans db scan n range).map (·.id)) (markRow db) (markRow_key db)

/-- The state once their teardowns are queued. -/
def orphansQueued (db : Db) (scan : Scan Uuid) (n : Nat) (range : ShardRange) : Db :=
  (softOrphans db scan n range).foldl (enqueueNew .delete) (orphansMarked db scan n range)

theorem sweepExpiredOrphans_eq (db : Db) (scan : Scan Uuid) (n : Nat) (range : ShardRange) :
    sweepExpiredOrphans db scan n range = deleteResources (orphansQueued db scan n range)
      ((hardOrphans db scan n range).map (·.id)) :=
  rfl

section Parts

variable {scan : Scan Uuid} {n : Nat} {range : ShardRange} {r : Resource}

theorem picked_orphan (picked : r ∈ orphansPicked db scan n range) : r ∈ db.resources ∧ r.marked = false := by
  obtain ⟨here, expired⟩ := mem_filter.mp (Scan.mem_of_mem_pick picked)
  simp only [expiredOrphan, Bool.and_eq_true, Bool.not_eq_true'] at expired
  exact ⟨here, expired.1.2⟩

theorem soft_or_hard (picked : r ∈ orphansPicked db scan n range) :
    r ∈ softOrphans db scan n range ∨ r ∈ hardOrphans db scan n range := by
  simp only [softOrphans, hardOrphans, mem_filter, picked, true_and]
  cases (db.kindFinalizer r).isSome
  · exact .inr rfl
  · exact .inl rfl

theorem orphansQueued_rows (db : Db) (scan : Scan Uuid) (n : Nat) (range : ShardRange) :
    (orphansQueued db scan n range).resources = db.resources.updateWhere
      (fun r => r.id ∈ (softOrphans db scan n range).map (·.id)) (markRow db) (markRow_key db) :=
  (enqueueAll_only _ _ _).resources.trans (updateResources_only _ _ _ _).resources

theorem orphansQueued_deps (db : Db) (scan : Scan Uuid) (n : Nat) (range : ShardRange) :
    (orphansQueued db scan n range).deps = db.deps :=
  (enqueueAll_only _ _ _).deps.trans (updateResources_only _ _ _ _).deps

theorem orphansQueued_stored {id : Uuid} : Stored (orphansQueued db scan n range) id ↔ Stored db id :=
  stored_update (markRow_key db) (orphansQueued_rows db scan n range) (markRow_place db)

theorem orphansMarked_queue {q : WorkQueueRow}
    (after : q ∈ (orphansMarked db scan n range).workQueue) (type : q.taskType = .delete) :
    ∃ p ∈ db.workQueue, p.id = q.id ∧ p.resourceId = q.resourceId ∧ p.taskType = .delete := by
  let rows := db.resources.updateWhere
    (fun r => r.id ∈ (softOrphans db scan n range).map (·.id)) (markRow db) (markRow_key db)
  have schedules : Effects Label.Calm { db with resources := rows } (orphansMarked db scan n range) :=
    triggered_effects (fun _ h => h) fun r _ _ stirs => absurd stirs (markRow_not_stirs db r)
  exact schedules.delete_queued (fun calm => calm) after type

theorem orphansMarked_effects (db : Db) (scan : Scan Uuid) (n : Nat) (range : ShardRange) :
    Effects Label.Plain db (orphansMarked db scan n range) := by
  refine still_effects (k := .mark) (fun _ => Label.Calm.plain) trivial trivial ?_
  intro r here picked
  obtain ⟨s, soft, same⟩ := mem_map.mp (of_decide_eq_true picked)
  obtain ⟨there, unmarked⟩ := picked_orphan (mem_filter.mp soft).1
  obtain rfl := eq_of_pk resource_primary there here same
  exact ⟨unmarked, rfl⟩

theorem orphansQueued_queue {q : WorkQueueRow}
    (after : q ∈ (orphansQueued db scan n range).workQueue) (type : q.taskType = .delete) :
    (∃ p ∈ db.workQueue, p.id = q.id ∧ p.resourceId = q.resourceId ∧ p.taskType = .delete) ∨
      ∃ r ∈ softOrphans db scan n range, q.resourceId = r.id ∧ ¬ db.Drawn q.id := by
  rcases mem_enqueueAll after with old | ⟨r, soft, -, same, new⟩
  · exact .inl (orphansMarked_queue old type)
  · refine .inr ⟨r, soft, same, fun drawn => new ?_⟩
    exact drawn.mono (Effects.drawn_le (orphansMarked_effects db scan n range))

end Parts

/-! ## The exact condition -/

/-- Clear orphans are torn down in order. -/
theorem orphan_sweep_ordered {scan : Scan Uuid} {n : Nat} {range : ShardRange}
    (clear : ∀ r ∈ orphansPicked db scan n range, Clear db r.id) :
    Ordered db (sweepExpiredOrphans db scan n range) ∧ Spares db (sweepExpiredOrphans db scan n range) := by
  -- a row that goes is a picked one, for none of these takes another along
  have hard : ∀ r ∈ db.resources, ¬ Stored (sweepExpiredOrphans db scan n range) r.id →
      r ∈ hardOrphans db scan n range := by
    intro r here gone
    rw [sweepExpiredOrphans_eq, stored_deleteResources, not_and, not_not] at gone
    have named := cascaded_childless (fun id named b => ?_) (gone (orphansQueued_stored.mpr ⟨r, here, rfl⟩))
    · obtain ⟨s, picked, same⟩ := mem_map.mp named
      obtain ⟨there, -⟩ := picked_orphan (mem_filter.mp picked).1
      rwa [← eq_of_pk resource_primary there here same]
    · obtain ⟨s, picked, rfl⟩ := mem_map.mp named
      exact ((clear_update (markRow_key db) (orphansQueued_rows db scan n range) (markRow_place db)
        (orphansQueued_deps db scan n range)).mpr (clear s (mem_filter.mp picked).1) b).1
  refine ⟨.of_removed (fun q listed type new => ?_) fun r here gone => ?_, fun r here gone => ?_⟩
  · rcases orphansQueued_queue (mem_deleteWhere.mp listed).1 type with
      ⟨p, there, same, -⟩ | ⟨r, soft, same, -⟩
    · exact absurd same (new p there)
    · exact same ▸ clear r (mem_filter.mp soft).1
  · exact clear r (mem_filter.mp (hard r here gone)).1
  · obtain ⟨picked, none⟩ := mem_filter.mp (hard r here gone)
    rw [finalizerPending, (picked_orphan picked).2]
    simpa using none

/-- **When the orphan sweep keeps the order.**  In every reachable state a sweep queues
teardowns for and removes only rows that own nothing and that nothing depends on, and
removes no row before its finalizer has run, exactly if every orphan it picks is such a
row. -/
theorem orphan_sweep_ordered_iff (reachable : Reachable db) (scan : Scan Uuid) (n : Nat) (range : ShardRange) :
    (Ordered db (sweepExpiredOrphans db scan n range) ∧ Spares db (sweepExpiredOrphans db scan n range)) ↔
      ∀ r ∈ orphansPicked db scan n range, Clear db r.id := by
  refine ⟨?_, orphan_sweep_ordered⟩
  rintro ⟨ordered, -⟩ r picked
  obtain ⟨here, unmarked⟩ := picked_orphan picked
  by_cases gone : ¬ Stored (sweepExpiredOrphans db scan n range) r.id
  · exact ordered.removed r here gone
  rw [not_not, sweepExpiredOrphans_eq, stored_deleteResources] at gone
  have soft : r ∈ softOrphans db scan n range := by
    refine (soft_or_hard picked).resolve_right fun hard => gone.2 (mem_cascaded.mpr ?_)
    exact ⟨r.id, mem_map_of_mem hard, gone.1, .refl⟩
  have named : QueueNamed (orphansMarked db scan n range) :=
    Steps.keeps (fun _ effect => effect.queueNamed) (orphansMarked_effects db scan n range)
      reachable.queueNamed
  obtain ⟨q, queued, same, type⟩ : Queued _ r.id .delete := enqueueAll_queued named soft
  have kept : q ∈ (sweepExpiredOrphans db scan n range).workQueue := by
    refine mem_deleteWhere.mpr ⟨queued, decide_eq_false ?_⟩
    rw [same]
    exact gone.2
  -- its teardown is new: no unmarked row has one queued
  rw [← same]
  refine ordered.queued q kept type fun p there sameId => ?_
  rcases orphansQueued_queue queued type with ⟨p', there', -, resource, type'⟩ | ⟨s, -, -, new⟩
  · have marked := reachable.queuedMarked p' there' type'
    rw [resource, same, marked_of_mem here, unmarked] at marked
    cases marked
  · exact new (sameId ▸ reachable.queueNamed p there)

end Sweep

/-- Kinds `group` and `vm` keep dropped children for a minute; a machine is torn down by
its finalizer, a group by nothing. -/
def minuteGrace (_ : String) : Nat := 60

def machineFinalizer (kind : String) : String := if kind = "vm" then "vm/destroy" else ""

/-- A root composes one child, drops it in its next generation, and the grace passes;
`between` is what happens while the child is still emitted. -/
def dropChild (c : ChildSpec) (between : List Action → List Action) : List Action :=
  composing "app" minuteGrace machineFinalizer ⟨[], [], []⟩
    (between (composing "app" minuteGrace machineFinalizer ⟨[c], [], []⟩
      [seedKind "vm" (some "vm/destroy"), applyRoot "app" "a", claimAll "b" "app" .reconcile]) ++
      [.reconcile 0, claimAll "b" "app" .reconcile]) ++ [.tick 61]

/-- An orphaned machine owns nothing: its teardown is queued, in order. -/
theorem orphan_sweep_ordered_machine : letI := counting
    let db := run Db.empty (dropChild (child "vm" "v") id)
    let swept := sweepExpiredOrphans db Scan.plain 10 ShardRange.full
    deleteQueued swept 2 = true ∧ Ordered db swept ∧ Spares db swept := by
  let _ := counting
  intro db swept
  have reachable : Reachable db := ⟨_, rfl⟩
  refine ⟨by decide +kernel, ?_⟩
  refine (orphan_sweep_ordered_iff reachable Scan.plain 10 ShardRange.full).mpr fun r picked => ?_
  have rows : ∀ r ∈ orphansPicked db Scan.plain 10 ShardRange.full,
      (∀ c ∈ db.resources.rows, c.ownerId ≠ some r.id) ∧ ∀ d ∈ db.deps.rows, d.dependencyId ≠ r.id := by
    decide +kernel
  refine fun b => ⟨?_, ?_⟩
  · rintro ⟨c, here, -, owned⟩
    exact (rows r picked).1 c here owned
  · rintro ⟨-, d, here, same, -⟩
    exact (rows r picked).2 d here same

/-- An orphaned group that composed a machine: the sweep deletes the group while it owns
the machine, and the machine goes by cascade with its finalizer still to run. -/
theorem orphan_sweep_cascades : letI := counting
    let db := run Db.empty (dropChild (child "group" "g") fun actions =>
      composing "group" minuteGrace machineFinalizer ⟨[child "vm" "v"], [], []⟩
        (actions ++ [.drainScheduleRechecks Scan.plain 10 ShardRange.full, claimAll "b" "group" .reconcile]))
    let swept := sweepExpiredOrphans db Scan.plain 10 ShardRange.full
    ∃ g ∈ orphansPicked db Scan.plain 10 ShardRange.full, ∃ v ∈ db.resources.rows,
      v.ownerId = some g.id ∧ finalizerPending db v = true ∧
        ∀ r ∈ swept.resources.rows, r.id ≠ g.id ∧ r.id ≠ v.id := by
  decide +kernel

end Converge.Kernel
