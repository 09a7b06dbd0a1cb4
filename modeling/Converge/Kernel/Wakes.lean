/-
# Kernel.Wakes -- which enqueues are certain, and which cannot happen

`Effects` says what a function may queue.  This module adds what a function certainly
queues: a `DO NOTHING` enqueue leaves its slot taken, whoever took it, because the id it
draws is new.

It also narrows what may be queued.  In a sound state no failure is ahead of its row's
generation, hence only a drained result can turn the trigger to a root: outside drains no
root is re-pended (`step_unprompted`).
-/
import Converge.Kernel.Teardown
import Converge.Kernel.Versions

namespace Converge.Kernel

open Converge.Theory List Table

set_option autoImplicit false
set_option linter.unusedSectionVars false

variable [Postgres] {db db' : Db}
variable {l : Label} {ids : List Uuid} {r : Resource} {p : Resource → Bool} {taskType : TaskType}
    {id : Uuid} {q w : WorkQueueRow}

/-! ## Queued tasks -/

def Queued (db : Db) (id : Uuid) (taskType : TaskType) : Prop :=
  ∃ q ∈ db.workQueue, q.resourceId = id ∧ q.taskType = taskType

theorem reconcileQueued_iff : reconcileQueued db id = true ↔ Queued db id .reconcile := by
  simp only [reconcileQueued, Queued, any_eq_true, Bool.and_eq_true, decide_eq_true_eq, mem_rows]

theorem deleteQueued_iff : deleteQueued db id = true ↔ Queued db id .delete := by
  simp only [deleteQueued, Queued, any_eq_true, Bool.and_eq_true, decide_eq_true_eq, mem_rows]

theorem Queued.congr (same : db'.workQueue = db.workQueue)
    (h : Queued db id taskType) : Queued db' id taskType := by
  rw [Queued, same]
  exact h

theorem QueueNamed.effects {allow : Label → Prop} (named : QueueNamed db)
    (run : Effects allow db db') : QueueNamed db' :=
  Steps.keeps (fun _ effect => effect.queueNamed) run named

/-- A new id collides with none, so after an insert the slot is taken: by the new row, or
by the one that held it. -/
theorem queued_insertNew {t : Table WorkQueueRow} (fresh : ∀ q ∈ t, q.id ≠ w.id) :
    ∃ q ∈ t.insertNew w, q.resourceId = w.resourceId ∧ q.taskType = w.taskType := by
  by_cases taken : t.Occupied w
  · obtain ⟨q, here, clash⟩ := taken
    rcases clash with sameId | slot
    · exact absurd sameId (fresh q here)
    · refine ⟨q, mem_insertNew.mpr (.inl here), ?_⟩
      exact Prod.mk.injEq .. ▸ slot
  · exact ⟨w, mem_insertNew.mpr (.inr ⟨rfl, taken⟩), rfl, rfl⟩

theorem QueueNamed.fresh (named : QueueNamed db) (here : q ∈ db.workQueue) :
    q.id ≠ Postgres.randomUuid db.drawn := by
  intro same
  have drawn := named q here
  rw [same] at drawn
  exact not_drawn_next db drawn

section EnqueueNew

variable {id : Uuid} {taskType : TaskType}

theorem Queued.enqueueNew (h : Queued db id taskType) (other : TaskType) (r : Resource) :
    Queued (enqueueNew other db r) id taskType := by
  obtain ⟨q, here, rest⟩ := h
  exact ⟨q, mem_insertNew.mpr (.inl here), rest⟩

theorem QueueNamed.enqueueNew (named : QueueNamed db) (taskType : TaskType) (r : Resource) :
    QueueNamed (enqueueNew taskType db r) := by
  intro q listed
  rcases mem_insertNew.mp listed with old | ⟨rfl, -⟩
  · exact (named q old).mono (Nat.le_succ _)
  · exact ⟨db.drawn, Nat.lt_succ_self _, rfl⟩

theorem enqueueNew_queued (named : QueueNamed db) (r : Resource) :
    Queued (enqueueNew taskType db r) r.id taskType :=
  queued_insertNew fun _ here => named.fresh here

theorem Queued.enqueueEligible (h : Queued db id taskType) (r : Resource) :
    Queued (enqueueEligible db r) id taskType := by
  obtain ⟨q, here, same⟩ := h
  let w := workFor db .reconcile r
  have kept : (if outdatedBy w q = true then repoint w q else q) ∈
      db.workQueue.updateWhere (outdatedBy w) (repoint w) (fun _ => rfl) :=
    mem_updateWhere.mpr ⟨q, here, rfl⟩
  refine ⟨_, mem_insertNew.mpr (.inl kept), ?_⟩
  split <;> exact same

theorem QueueNamed.enqueueEligible (named : QueueNamed db) (r : Resource) :
    QueueNamed (enqueueEligible db r) := by
  intro q listed
  rcases mem_insertNew.mp listed with old | ⟨rfl, -⟩
  · obtain ⟨p, here, same⟩ : ∃ p ∈ db.workQueue, p.id = q.id :=
      column_of_mem_updateWhere (repoint_key _) old fun _ => rfl
    exact same ▸ (named p here).mono (Nat.le_succ _)
  · exact ⟨db.drawn, Nat.lt_succ_self _, rfl⟩

theorem enqueueEligible_queued (named : QueueNamed db) (r : Resource) :
    Queued (enqueueEligible db r) r.id .reconcile := by
  refine queued_insertNew fun q old => ?_
  obtain ⟨p, here, same⟩ : ∃ p ∈ db.workQueue, p.id = q.id :=
    column_of_mem_updateWhere (repoint_key _) old fun _ => rfl
  exact same ▸ named.fresh here

theorem foldl_queued {enqueue : Db → Resource → Db}
    (keeps : ∀ {db id} (r : Resource), Queued db id taskType → Queued (enqueue db r) id taskType)
    (stays : ∀ {db} (r : Resource), QueueNamed db → QueueNamed (enqueue db r))
    (makes : ∀ {db} (r : Resource), QueueNamed db → Queued (enqueue db r) r.id taskType)
    (rows : List Resource) :
    ∀ {db : Db}, (∀ {id}, Queued db id taskType → Queued (rows.foldl enqueue db) id taskType) ∧
      (QueueNamed db → ∀ r ∈ rows, Queued (rows.foldl enqueue db) r.id taskType) := by
  have holds : ∀ (rows : List Resource) {db : Db} {id : Uuid}, Queued db id taskType →
      Queued (rows.foldl enqueue db) id taskType := by
    intro rows
    induction rows with
    | nil => exact fun h => h
    | cons r rest ih => exact fun h => ih (keeps r h)
  intro db
  refine ⟨holds rows, ?_⟩
  induction rows generalizing db with
  | nil => exact fun _ r listed => nomatch listed
  | cons s rest ih =>
    intro named r listed
    rcases mem_cons.mp listed with rfl | later
    · exact holds rest (makes r named)
    · exact ih (stays s named) r later

theorem Queued.enqueueAll (h : Queued db id taskType) (rows : List Resource) :
    Queued (rows.foldl (Kernel.enqueueNew taskType) db) id taskType :=
  (foldl_queued (fun r h => h.enqueueNew _ r) (fun r h => h.enqueueNew _ r)
    (fun r h => enqueueNew_queued h r) rows).1 h

theorem enqueueAll_queued (named : QueueNamed db) {rows : List Resource}
    (listed : r ∈ rows) : Queued (rows.foldl (enqueueNew taskType) db) r.id taskType :=
  (foldl_queued (fun r h => h.enqueueNew _ r) (fun r h => h.enqueueNew _ r)
    (fun r h => enqueueNew_queued h r) rows).2 named r listed

theorem Queued.scheduleEligible (h : Queued db id .reconcile) (ids : List Uuid) :
    Queued (scheduleEligible db ids) id .reconcile :=
  (foldl_queued (fun r h => h.enqueueEligible r) (fun r h => h.enqueueEligible r)
    (fun r h => enqueueEligible_queued h r) _).1 h

theorem Queued.repend (h : Queued db id .reconcile) (ids : List Uuid) (p : Resource → Bool) :
    Queued (repend db ids p) id .reconcile :=
  h.enqueueAll _

end EnqueueNew

theorem mem_enqueueAll_of_mem (here : q ∈ db.workQueue)
    (rows : List Resource) : q ∈ (rows.foldl (enqueueNew taskType) db).workQueue := by
  induction rows generalizing db with
  | nil => exact here
  | cons r rest ih => exact ih (mem_insertNew.mpr (.inl here))

theorem enqueueAll_free {rows : List Resource} (after : q ∈ (rows.foldl (enqueueNew taskType) db).workQueue)
    (new : q ∉ db.workQueue) : ¬ Queued db q.resourceId q.taskType := by
  rintro ⟨p, here, resource, type⟩
  have kept : p ∈ (rows.foldl (enqueueNew taskType) db).workQueue := mem_enqueueAll_of_mem here rows
  have one := eq_of_clashes kept after (.inr (Prod.ext resource type))
  exact new (one ▸ here)

theorem mem_repend (after : q ∈ (repend db ids p).workQueue) :
    q ∈ db.workQueue ∨ ¬ Queued db q.resourceId .reconcile ∧
      ∃ r ∈ db.resources, r.id ∈ ids ∧ p r = true ∧ q.resourceId = r.id := by
  by_cases old : q ∈ db.workQueue
  · exact .inl old
  obtain ⟨r, listed, type, same, -⟩ := (mem_enqueueAll after).resolve_left old
  have free := enqueueAll_free after old
  rw [type] at free
  obtain ⟨here, picked⟩ := mem_filter.mp (mem_byId.mp listed)
  simp only [Bool.and_eq_true, decide_eq_true_eq] at picked
  exact .inr ⟨free, r, here, picked.1, picked.2, same⟩

theorem enqueueEligible_mem
    (after : w ∈ (enqueueEligible db r).workQueue) : w ∈ db.workQueue ∨ Snapshots w r := by
  rcases mem_insertNew.mp after with old | ⟨rfl, -⟩
  · obtain ⟨q, here, rfl⟩ : ∃ q ∈ db.workQueue, (if outdatedBy (workFor db .reconcile r) q then
        repoint (workFor db .reconcile r) q else q) = w := mem_updateWhere.mp old
    split
    · rename_i outdated
      simp only [outdatedBy, Bool.and_eq_true, decide_eq_true_eq] at outdated
      exact .inr ⟨outdated.1.1, rfl, rfl, rfl⟩
    · exact .inl here
  · exact .inr (.workFor db .reconcile r)

theorem scheduleEligible_mem (after : w ∈ (scheduleEligible db ids).workQueue) :
    w ∈ db.workQueue ∨ ∃ r ∈ db.resources, r.id ∈ ids ∧ eligible db r = true ∧ Snapshots w r := by
  have loop (rows : List Resource) (s : Db) (after : w ∈ (rows.foldl enqueueEligible s).workQueue) :
      w ∈ s.workQueue ∨ ∃ r ∈ rows, Snapshots w r := by
    induction rows generalizing s with
    | nil => exact .inl after
    | cons r rest ih =>
      rcases ih _ after with before | ⟨r', listed, snap⟩
      · rcases enqueueEligible_mem before with old | snap
        · exact .inl old
        · exact .inr ⟨r, .head _, snap⟩
      · exact .inr ⟨r', mem_cons_of_mem r listed, snap⟩
  rcases loop _ db after with old | ⟨r, listed, snap⟩
  · exact .inl old
  · obtain ⟨here, picked⟩ := mem_filter.mp (mem_byId.mp listed)
    simp only [Bool.and_eq_true, decide_eq_true_eq] at picked
    exact .inr ⟨r, here, picked.1, picked.2, snap⟩

/-! ## The trigger -/

section Trigger

variable {updated : List Updated} {u : Updated} {r : Resource}

/-- The trigger on `updated` turns to root `r`: some row of it is demoted, or becomes synced
while the root is settled. -/
def Rouses (updated : List Updated) (r : Resource) : Prop :=
  r.marked = false ∧ r.frozen = false ∧ ∃ u ∈ updated, u.new.rootId = some r.id ∧
    (u.demoted = true ∨ u.upgraded = true ∧ r.ownerId = none ∧ r.generation ≤ r.syncedGen)

theorem emitAll_workQueue {f : Resource → Transition} (rows : List Resource) (db : Db) :
    (rows.foldl (fun db r => emit (f r) db r) db).workQueue = db.workQueue := by
  induction rows generalizing db with
  | nil => rfl
  | cons r rest ih => exact ih (emit (f r) db r)

theorem mem_onUpgraded (after : q ∈ (onUpgraded db ((updated.filter (·.upgraded)).map (·.new))).workQueue) :
    (∃ ids, q ∈ (scheduleEligible db ids).workQueue) ∨ ¬ Queued db q.resourceId .reconcile ∧
        ∃ r ∈ db.resources, q.resourceId = r.id ∧ Rouses updated r := by
  rw [onUpgraded, emitAll_workQueue] at after
  rcases mem_repend after with old | ⟨free, r, here, listed, picked, same⟩
  · exact .inl ⟨_, old⟩
  · refine .inr ⟨fun queued => free (queued.scheduleEligible _), r, ?_, same, ?_⟩
    · rwa [(armRollupRecheck_only _ _).resources, (scheduleEligible_only _ _).resources] at here
    · simp only [mem_filterMap, mem_map, mem_filter] at listed
      obtain ⟨-, ⟨u, ⟨one, upgraded⟩, rfl⟩, rooted⟩ := listed
      simp only [Bool.and_eq_true, Bool.not_eq_true', decide_eq_true_eq, Option.isNone_iff_eq_none]
        at picked
      exact ⟨picked.1.2, picked.2, u, one, rooted, .inr ⟨upgraded, picked.1.1⟩⟩

/-- Apart from what `schedule_eligible` queues, the trigger queues reconciles of unqueued
roots that it turns to. -/
theorem mem_cascade (after : q ∈ (cascadeOnReadyChange db updated).workQueue) :
    (∃ ids, q ∈ (scheduleEligible db ids).workQueue) ∨ ¬ Queued db q.resourceId .reconcile ∧
        ∃ r ∈ db.resources, q.resourceId = r.id ∧ Rouses updated r := by
  unfold cascadeOnReadyChange onDemoted at after
  simp only at after
  split at after
  · exact mem_onUpgraded after
  · rw [emitAll_workQueue] at after
    rcases mem_repend after with old | ⟨free, r, here, listed, picked, same⟩
    · exact mem_onUpgraded old
    · refine .inr ⟨fun queued => free ?_, r, ?_, same, ?_⟩
      · refine Queued.congr (emitAll_workQueue _ _) (Queued.repend ?_ _ _)
        exact queued.scheduleEligible _
      · rwa [(onUpgraded_only _ _).resources] at here
      · simp only [mem_filterMap, mem_map, mem_filter] at listed
        obtain ⟨-, ⟨u, ⟨one, demoted⟩, rfl⟩, rooted⟩ := listed
        simp only [Bool.and_eq_true, Bool.not_eq_true'] at picked
        exact ⟨picked.1, picked.2, u, one, rooted, .inl demoted⟩

theorem updateResources_still {f : Resource → Resource} {keeps : ∀ r, Keyed.key (f r) = Keyed.key r}
    (still : ∀ r, (f r).generation = r.generation ∧ (f r).syncedGen = r.syncedGen ∧
      (f r).failureGen = r.failureGen ∧ (f r).healthOk = r.healthOk) :
    updateResources db p f keeps = { db with resources := db.resources.updateWhere p f keeps } := by
  have upgraded : (((db.resources.rows.filter p).map fun r => (⟨r, f r⟩ : Updated)).filter
      (·.upgraded)).map (·.new) = [] := by
    simp only [map_eq_nil_iff, filter_eq_nil_iff, mem_map]
    rintro u ⟨r, -, rfl⟩ up
    obtain ⟨generation, synced, -⟩ := still r
    simp only [Updated.upgraded, generation, synced, Bool.and_eq_true, decide_eq_true_eq] at up
    omega
  have demoted : (((db.resources.rows.filter p).map fun r => (⟨r, f r⟩ : Updated)).filter
      (·.demoted)).map (·.new) = [] := by
    simp only [map_eq_nil_iff, filter_eq_nil_iff, mem_map]
    rintro u ⟨r, -, rfl⟩ down
    obtain ⟨generation, -, failure, health⟩ := still r
    simp only [Updated.demoted, Updated.newlyFailed, generation, failure, health, Bool.or_eq_true,
      Bool.not_and_self, Bool.and_eq_true, decide_eq_true_eq, Bool.false_eq_true, false_or] at down
    exact down.2 down.1
  rw [updateResources, cascadeOnReadyChange, upgraded, demoted]
  simp [onDemoted, onUpgraded, repend, scheduleEligible, armRollupRecheck, byId]

end Trigger

/-! ## What an effect does to one queue row -/

/-- A queue row was just enqueued, or re-pointed at an eligible row, or the row of that job
and generation was there. -/
theorem Effect.queue_current (effect : Effect l db db') {q' : WorkQueueRow} (after : q' ∈ db'.workQueue) :
    (∃ cause, l = .enqueue cause ∧ Enqueued db cause q') ∨
      (∃ r ∈ db.resources, eligible db r = true ∧ q'.resourceId = r.id ∧ q'.generation = r.generation) ∨
      ∃ q ∈ db.workQueue, q.job = q'.job ∧ q.generation = q'.generation := by
  rcases effect.queue_step after with ⟨cause, label, new, -⟩ | ⟨q, here, step⟩
  · exact .inl ⟨cause, label, new⟩
  · cases step with
    | repoint stored ready older =>
      simp only [outdatedBy, Bool.and_eq_true, decide_eq_true_eq] at older
      exact .inr (.inl ⟨_, stored, ready, older.1.1, rfl⟩)
    | touch same =>
      refine .inr (.inr ⟨q, here, ?_, same.generation.symm⟩)
      rw [WorkQueueRow.job, WorkQueueRow.job, same.id, same.resourceId, same.taskType, same.opId]
    | _ => exact .inr (.inr ⟨_, here, rfl, rfl⟩)

/-! ## Tasks are of stored rows -/

theorem Effect.keeps_row (kept : l ≠ .delete) (effect : Effect l db db') (here : r ∈ db.resources) :
    r ∈ db'.resources ∨ ∃ k, l = .row k ∧ ∃ r' ∈ db'.resources, RowStep db r r' k := by
  cases effect with
  | aux core => exact .inl (core.resources ▸ here)
  | insert s born free => exact .inl ((mem_push free).mpr (.inr here))
  | row k p f keeps rows =>
    have after : (if p r = true then f r else r) ∈ db.resources.updateWhere p f keeps := by
      rw [mem_updateWhere]
      exact ⟨r, here, rfl⟩
    split at after
    · exact .inr ⟨k, rfl, f r, after, rows r here (by assumption)⟩
    · exact .inl after
  | delete ids => exact absurd rfl kept
  | _ => exact .inl here

theorem Effect.stored (kept : l ≠ .delete) (effect : Effect l db db')
    (stored : Stored db id) : Stored db' id := by
  obtain ⟨r, here, rfl⟩ := stored
  rcases effect.keeps_row kept here with same | ⟨_, -, r', after, step⟩
  · exact ⟨r, same, rfl⟩
  · exact ⟨r', after, step.same.id⟩

/-- The foreign key of the queue. -/
def QueueStored (db : Db) : Prop := ∀ q ∈ db.workQueue, Stored db q.resourceId

theorem Effect.queueStored (effect : Effect l db db') (good : QueueStored db) : QueueStored db' := by
  intro q' after
  have before : Stored db q'.resourceId := by
    rcases effect.queue after with ⟨cause, -, new, -⟩ | ⟨q, here, key⟩
    · obtain ⟨r, here, snap, -⟩ := new.snapshot
      exact ⟨r, here, snap.resourceId.symm⟩
    · exact (queue_key key).2.1 ▸ good q here
  by_cases deletes : l = .delete
  · subst deletes
    cases effect with
    | delete ids =>
      exact stored_deleteResources.mpr ⟨before, of_decide_eq_false (mem_deleteWhere.mp after).2⟩
  · exact effect.stored deletes before

theorem Reachable.queueStored (reachable : Reachable db) : QueueStored db := by
  refine reachable.induction (fun q here => absurd here (notMem_empty q)) fun db a good => ?_
  exact Steps.keeps (fun _ effect => effect.queueStored) (step_effects db a) good

theorem Versioned.queue_behind (good : Versioned db) (here : q ∈ db.workQueue)
    (stored : r ∈ db.resources) (same : r.id = q.resourceId) :
    q.generation ≤ r.generation := by
  obtain ⟨H, agrees⟩ := good.sound q.resourceId
  exact agrees.behind r.object (same ▸ versions_object stored) q.snapshot (.inl ⟨q, here, rfl, rfl⟩)

/-! ## Nothing but a result turns the trigger to a root -/

theorem Versioned.bounded (good : Versioned db) : db.Bounded :=
  fun r here => ((good.sound r.id).bounds (versions_object here)).failed

/-- No result is applied, and reconciles are queued of eligible rows only. -/
def Label.Unprompted : Label → Prop
  | .row (.result _) | .enqueue (.rolled _) | .enqueue .resynced => False
  | _ => True

theorem Label.Sweeps.unprompted (h : l.Sweeps) : l.Unprompted := by
  cases l with
  | row k => cases k <;> first | exact trivial | exact h
  | enqueue cause => cases cause <;> first | exact trivial | exact h
  | _ => trivial

theorem Label.Calm.unprompted (h : l.Calm) : l.Unprompted := h.sweeps.unprompted

theorem Versioned.unprompted (good : Versioned db) : Writable Label.Unprompted db :=
  ⟨fun _ => Label.Calm.unprompted, trivial, fun _ run => .inl (run.versioned good).bounded⟩

/-- Neither a drain nor a resync. -/
def Action.Unprompted : Action → Prop
  | .drainOutboxBatch _ _ _ _ _ | .requeueForResync _ _ _ _ _ => False
  | _ => True

theorem step_unprompted (good : Versioned db) {a : Action} (unprompted : a.Unprompted) :
    Effects Label.Unprompted db (step db a) := by
  cases a with
  | applySpec a => exact getD_cases .refl fun _ => applySpec_effects good.unprompted
  | reconcile id => exact reconcile_effects good.unprompted id
  | flipResourceKindVersion id o n s => exact getD_cases .refl fun _ => flip_effects good.unprompted
  | rollbackToSpec id gen => exact rollbackToSpec_effects good.unprompted id gen
  | applyValueFlowsForDependents order ids =>
    exact getD_cases .refl fun _ => applyValueFlows_effects good.unprompted
  | applyComposeResult env t out pol =>
    exact submitCompose_run
      ⟨good.unprompted, fun _ => Label.Sweeps.unprompted, fun _ => trivial, trivial⟩ env t out pol
  | drainOutboxBatch _ _ _ _ _ | requeueForResync _ _ _ _ _ => exact unprompted.elim
  | _ =>
    refine (step_effects db _).mono fun l ok => ?_
    cases l with
    | row k => cases k <;> first | exact trivial | exact ok | cases ok
    | enqueue cause => cases cause <;> first | exact trivial | exact ok | cases ok
    | _ => trivial

theorem drain_unprompted {scan rowScan : Scan Uuid} {order : Nat → Nat} {n : Nat}
    {range : ShardRange} (good : Versioned db) {mid : Db}
    (patched : substitute (drainTeardowns db rowScan (popped db scan n range)) order
      (popped db scan n range) = some mid) : Effects Label.Unprompted db mid := by
  have ok : Drainable Label.Unprompted (popped db scan n range) db :=
    ⟨good.unprompted, fun _ => Label.Sweeps.unprompted, trivial, trivial, trivial⟩
  have torn := drainTeardowns_effects ok rowScan popped_waiting popped_nodup
  exact torn.trans (patchSpecs_effects (ok.toWritable.after torn) patched)

end Converge.Kernel
