/-
# Guarantees.TaskExclusion -- reconciles and teardowns of one resource

The queue holds at most one row per resource and task type, so a resource may have a
reconcile row and a delete row.  No statement queues a reconcile of a marked resource,
and none queues a teardown of an unmarked one: what keeps the two apart is the mark
alone.  But a mark leaves the reconcile row that is already there, and claims, reaps and
releases do not look at marks.

`tasks_exclusive` is the resulting line.  Where every mark finds no reconcile row, no
state has both tasks claimed and no claim takes a reconcile of a marked resource; where
a marked resource has a reconcile row, some continuation claims it.
-/
import Converge.Guarantees.ComposeEmitted

namespace Converge.Kernel

open Converge.Theory Table

set_option autoImplicit false
set_option linter.unusedSectionVars false

section Exclusion

variable [Postgres] {db db' : Db}

/-- No resource has both its reconcile and its teardown claimed. -/
def Exclusive (db : Db) : Prop :=
  ∀ q ∈ db.workQueue, ∀ d ∈ db.workQueue, q.taskType = .reconcile → d.taskType = .delete →
    q.resourceId = d.resourceId → ¬ (q.brokerId.isSome ∧ d.brokerId.isSome)

/-- No claim takes a reconcile of a marked resource. -/
def ClaimsUnmarked (db : Db) : Prop :=
  ∀ scan b, ∀ q ∈ takenRows db scan b, q.taskType = .reconcile → ¬ Marked db q.resourceId

/-- A marked resource has no reconcile row. -/
def Parted (db : Db) : Prop :=
  ∀ q ∈ db.workQueue, q.taskType = .reconcile → ¬ Marked db q.resourceId

theorem Parted.claimsUnmarked (parted : Parted db) : ClaimsUnmarked db :=
  fun _ _ q taken type => parted q (mem_takenRows taken).1 type

/-- A teardown is of a marked resource, so a reconcile beside it is not claimed. -/
theorem Parted.exclusive (parted : Parted db) (queued : QueuedMarked db) : Exclusive db := by
  rintro q here d there reconcile delete same -
  refine parted q here reconcile ?_
  rw [same]
  exact queued d there delete

/-! ## What a step needs -/

/-- No reconcile row of `id` is queued. -/
def Unqueued (db : Db) (id : Uuid) : Prop :=
  ∀ q ∈ db.workQueue.rows, q.resourceId = id → q.taskType ≠ .reconcile
deriving Decidable

theorem Effects.unqueued {allow : Label → Prop} (run : Effects allow db db') {id : Uuid}
    (drawn : db.Drawn id) (dead : ¬ Live db id) (none : Unqueued db id) : Unqueued db' id := by
  refine (Steps.keeps (I := fun s => (s.Drawn id ∧ ¬ Live s id) ∧ Unqueued s id) ?_ run ⟨⟨drawn, dead⟩, none⟩).2
  rintro l a b ok effect ⟨⟨drawn, dead⟩, none⟩
  have one : Effects allow a b := Steps.one ok effect
  refine ⟨⟨drawn.mono one.drawn_le, fun live => dead (one.live_back drawn live)⟩, ?_⟩
  intro q' after same type
  rcases effect.queue after with ⟨cause, -, new, -⟩ | ⟨q, here, key⟩
  · -- a reconcile is queued of a live row only
    obtain ⟨r, here, snap, unmarked, -⟩ := new.reconcile type
    refine dead ?_
    rw [← same, snap.resourceId]
    exact (live_of_mem here).mpr unmarked
  · obtain ⟨-, resource, sameType⟩ := queue_key key
    exact none q here (resource.trans same) (sameType.trans type)

/-- A step that marks a resource leaves no reconcile row of it. -/
def MarksIdle (db : Db) (a : Action) : Prop :=
  ∀ r ∈ (step db a).resources.rows, r.marked = true → ¬ Marked db r.id → Unqueued (step db a) r.id
deriving Decidable

theorem Parted.step (parted : Parted db) (reachable : Reachable db) {a : Action}
    (idle : MarksIdle db a) : Parted (step db a) := by
  intro q' after type marked
  by_cases before : Marked db q'.resourceId
  · have drawn : db.Drawn q'.resourceId := by
      obtain ⟨r, here, same, -⟩ := before
      exact same ▸ reachable.named r here
    have unqueued : Unqueued db q'.resourceId := by
      intro q here same sameType
      exact parted q here sameType (same ▸ before)
    exact (step_effects db a).unqueued drawn (fun live => live.2 before) unqueued q' after rfl type
  · obtain ⟨r, here, same, mark⟩ := marked
    rw [← same] at before
    exact idle r here mark before q' after same.symm type

/-! ## A row that is left gets claimed -/

def uncapped (kind : String) (version : Nat) : KindConfig where
  kind := kind
  kindVersion := version
  maxInflight := 0
  taskDeadlineSecs := 0
  resyncIntervalSecs := 0
  resyncRecomposes := false
  orphanGraceSecs := 0
  finalizerName := none
  maxTransientAttempts := 0
  retired := false
  manifestVersion := 0

theorem inflightCap_uncapped (db : Db) (kind : String) (version : Nat) :
    inflightCap (upsertKindConfig db (uncapped kind version)) kind version = none := by
  unfold inflightCap
  cases found : (upsertKindConfig db (uncapped kind version)).kindConfig? kind version with
  | none => rfl
  | some c =>
    have zero : c.maxInflight = 0 := by
      obtain ⟨here, key⟩ := mem_of_lookup found
      simp only [Prod.mk.injEq] at key
      rcases mem_insertNew.mp here with old | ⟨rfl, -⟩
      · rw [mem_updateWhere] at old
        obtain ⟨k, -, rfl⟩ := old
        split at key
        · rw [if_pos (by assumption)]
          rfl
        · rename_i other
          exact absurd (by simp [uncapped, key]) other
      · rfl
    simp [zero]

/-- What a release of its broker leaves of a queue row: the row, free. -/
theorem released_row {q : WorkQueueRow} (here : q ∈ db.workQueue) :
    ∃ q' ∈ (workQueueReleaseBroker db Scan.plain (q.brokerId.getD "")).workQueue,
      q'.id = q.id ∧ q'.resourceId = q.resourceId ∧ q'.kind = q.kind ∧
        q'.kindVersion = q.kindVersion ∧ q'.taskType = q.taskType ∧ q'.brokerId = none := by
  let broker := q.brokerId.getD ""
  refine ⟨if releasesBroker Scan.plain broker q then freeRow db.now q else q, ?_, ?_⟩
  · unfold workQueueReleaseBroker freeWhere
    rw [mem_updateWhere]
    exact ⟨q, here, rfl⟩
  · by_cases held : q.brokerId = none
    · have free : releasesBroker Scan.plain broker q = false := by
        simp [releasesBroker, held]
      rw [free]
      exact ⟨rfl, rfl, rfl, rfl, rfl, held⟩
    · obtain ⟨name, held⟩ := Option.ne_none_iff_exists'.mp held
      have freed : releasesBroker Scan.plain broker q = true := by
        simp [releasesBroker, broker, held, Scan.plain]
      rw [freed]
      exact ⟨rfl, rfl, rfl, rfl, rfl, rfl⟩

/-- The continuation: the kind's ceiling is lifted and the row's broker gone. -/
def vacate (q : WorkQueueRow) : List Action :=
  [.upsertKindConfig (uncapped q.kind q.kindVersion), .workQueueReleaseBroker Scan.plain (q.brokerId.getD "")]

theorem vacate_claims {q : WorkQueueRow} (here : q ∈ db.workQueue) :
    ∃ b, ∃ q' ∈ takenRows (run db (vacate q)) Scan.plain b,
      q'.resourceId = q.resourceId ∧ q'.taskType = q.taskType := by
  let lifted := upsertKindConfig db (uncapped q.kind q.kindVersion)
  have there : q ∈ lifted.workQueue := here
  obtain ⟨q', free, -, resource, kind, version, type, idle⟩ := released_row there
  let b : TakeBatch := ⟨"next", q.kind, q.kindVersion, q.taskType, ShardRange.full,
    (run db (vacate q)).workQueue.rows.length⟩
  have uncapped : takeLimit (run db (vacate q)) b = b.lim := by
    have cap : inflightCap (run db (vacate q)) b.kind b.kindVersion = none :=
      inflightCap_uncapped db q.kind q.kindVersion
    rw [takeLimit, cap]
  refine ⟨b, q', ?_, resource, type⟩
  refine Scan.mem_pick_of_room ?_ (List.mem_filter.mpr ⟨free, ?_⟩) rfl
  · rw [uncapped]
    exact List.length_filter_le _ _
  · simp only [claimable, b, kind, version, type, idle, ShardRange.full_covers, Option.isNone_none,
      decide_true, Bool.and_self]

/-- **Reconciles and teardowns exclude each other where marks find no reconcile row.**  In
every run in which no step marks a resource and leaves a reconcile row of it, no state
reached has both tasks of a resource claimed, and no claim takes a reconcile of a marked
resource.  Nothing weaker will do for the latter: from any state in which a marked resource
has a reconcile row, some continuation claims a reconcile of it. -/
theorem tasks_exclusive : (∀ actions, Along MarksIdle Db.empty actions →
      Exclusive (run Db.empty actions) ∧ ClaimsUnmarked (run Db.empty actions)) ∧
    ∀ db, ∀ q ∈ db.workQueue, q.taskType = .reconcile → Marked db q.resourceId →
      ∃ actions b, ∃ q' ∈ takenRows (run db actions) Scan.plain b,
        q'.taskType = .reconcile ∧ q'.resourceId = q.resourceId ∧ Marked (run db actions) q'.resourceId := by
  constructor
  · intro actions along
    have reachable : Reachable (run Db.empty actions) := ⟨actions, rfl⟩
    have parted : Parted (run Db.empty actions) :=
      along.keeps (fun _ _ reachable idle parted => parted.step reachable idle) .empty
        fun q here => absurd here (notMem_empty q)
    exact ⟨parted.exclusive reachable.queuedMarked, parted.claimsUnmarked⟩
  · intro db q here type marked
    obtain ⟨b, q', taken, resource, sameType⟩ := vacate_claims here
    refine ⟨vacate q, b, q', taken, sameType.trans type, resource, ?_⟩
    rw [resource]
    exact marked

end Exclusion

/-- A root that was reconciled to its generation and has no task left. -/
def settledRoot : List Action :=
  letI := counting
  let claimed := [seedKind "app" (some "app/destroy"), applyRoot "app" "a",
    claimAll "b" "app" .reconcile]
  claimed ++ ((run Db.empty claimed).tasks.map fun t => .appendOutbox (success t)) ++ [drainAll]

def deleteRoot : List Action :=
  [.requestResourceDeletion (fun _ => Scan.plain) 0, claimAll "b" "app" .delete]

/-- Deleting it hands out its teardown, and no reconcile beside it. -/
theorem tasks_exclusive_settled : letI := counting
    let db := run Db.empty (settledRoot ++ deleteRoot)
    (∃ q ∈ db.workQueue.rows, q.taskType = .delete ∧ q.brokerId.isSome) ∧ Exclusive db ∧ ClaimsUnmarked db := by
  exact ⟨by decide +kernel, (@tasks_exclusive counting).1 _ (by decide +kernel)⟩

/-- The root is deleted while its reconcile is running.  Its teardown is queued and claimed
beside it; and once the broker of the reconcile has gone silent, another claims the
reconcile of the marked root anew. -/
theorem tasks_overlap : letI := counting
    (let db := run Db.empty ([seedKind "app" (some "app/destroy"), applyRoot "app" "a",
        claimAll "b" "app" .reconcile] ++ deleteRoot)
      ∃ q ∈ db.workQueue.rows, ∃ d ∈ db.workQueue.rows, q.taskType = .reconcile ∧
        d.taskType = .delete ∧ q.resourceId = d.resourceId ∧ q.brokerId.isSome ∧ d.brokerId.isSome) ∧
    (let db := run Db.empty ([seedKind "app" (some "app/destroy"), applyRoot "app" "a",
        claimAll "b" "app" .reconcile] ++ deleteRoot ++
        [.tick 60, .reapStaleWork Scan.plain 30 10 ShardRange.full])
      ∃ q ∈ takenRows db Scan.plain ⟨"c", "app", 1, .reconcile, ShardRange.full, 10⟩,
        q.taskType = .reconcile ∧ ∃ r ∈ db.resources.rows, r.id = q.resourceId ∧ r.marked = true) := by
  decide +kernel

end Converge.Kernel
