/-
# Kernel.Schedule -- who is queued when a resource changes

`schedule_eligible` is the only statement that turns a lagging resource into a
queued reconcile, and the only one that re-points a queue row: a row already
queued for an older generation is given the new generation's snapshot, loses its
lease and moves to the next claim epoch.  Every other enqueue is
`ON CONFLICT DO NOTHING` and leaves an existing row alone.

`cascade_on_ready_change` is the statement trigger on `resources`.  Every UPDATE
of that table in this model goes through `updateResources`, which runs it on the
rows the statement touched, old and new.
-/
import Converge.Kernel.Schema
import Converge.Theory.Scan

namespace Converge.Kernel

open Converge.Theory

set_option autoImplicit false
set_option linter.unusedSectionVars false

variable [Postgres]

/-! ## Queue rows -/

/-- The row an enqueue inserts for `r`: its current snapshot, unclaimed. -/
def workFor (db : Db) (taskType : TaskType) (r : Resource) : WorkQueueRow where
  id := Postgres.randomUuid db.drawn
  resourceId := r.id
  taskType := taskType
  opId := none
  kind := r.kind
  kindVersion := r.kindVersion
  generation := r.generation
  spec := some r.spec
  providerConfig := (db.configOf r).map (·.spec)
  providerBundle := (db.configOf r).map (·.data)
  attempts := 1
  brokerId := none
  workerId := none
  heartbeatAt := db.now
  createdAt := db.now
  manifestVersion := r.manifestVersion
  claimEpoch := 1

/-- `INSERT INTO work_queue ... ON CONFLICT (resource_id, task_type) DO NOTHING`. -/
def enqueueNew (taskType : TaskType) (db : Db) (r : Resource) : Db :=
  { db with
    workQueue := db.workQueue.insertNew (workFor db taskType r)
    drawn := db.drawn + 1 }

/-- The `DO UPDATE` of `schedule_eligible`: the row of an older generation takes
the new snapshot, is freed, and its epoch moves on. -/
def repoint (w q : WorkQueueRow) : WorkQueueRow :=
  { q with
    kind := w.kind
    kindVersion := w.kindVersion
    generation := w.generation
    spec := w.spec
    providerConfig := w.providerConfig
    providerBundle := w.providerBundle
    manifestVersion := w.manifestVersion
    claimEpoch := q.claimEpoch + 1
    brokerId := none
    workerId := none
    heartbeatAt := w.heartbeatAt
    createdAt := w.createdAt }

theorem repoint_key (w q : WorkQueueRow) : Keyed.key (repoint w q) = Keyed.key q := rfl

/-- `q` holds the slot of `w` for an older generation. -/
def outdatedBy (w q : WorkQueueRow) : Bool :=
  q.resourceId = w.resourceId && q.taskType = w.taskType && q.generation < w.generation

/-- The insert of `schedule_eligible` for one eligible row. -/
def enqueueEligible (db : Db) (r : Resource) : Db :=
  let w := workFor db .reconcile r
  { db with
    workQueue :=
      (db.workQueue.updateWhere (outdatedBy w) (repoint w) (fun _ => rfl)).insertNew w
    drawn := db.drawn + 1 }

/-- Rows `ORDER BY id`. -/
def byId (rows : List Resource) : List Resource := rows.insertionSort fun a b => a.id ≤ b.id

/-! ## Eligibility -/

/-- Some dependency of `r` is behind its own generation. -/
def upstreamLagging (db : Db) (r : Resource) : Bool :=
  db.deps.rows.any fun d =>
    d.dependentId = r.id && (db.resource? d.dependencyId).any fun p => p.syncedGen < p.generation

/-- `d` holds back the rollup of the root it descends from: lagging, and neither
failed, nor being deleted, nor frozen. -/
def unsettled (d : Resource) : Bool :=
  d.syncedGen < d.generation && d.failureGen ≠ d.generation && !d.marked && !d.frozen

/-- `r` is a root with an unsettled descendant. -/
def rollupBlocked (db : Db) (r : Resource) : Bool :=
  r.ownerId.isNone && db.resources.rows.any fun d => d.rootId = some r.id && unsettled d

/-- The `WHERE` of `schedule_eligible`, the candidate list apart. -/
def eligible (db : Db) (r : Resource) : Bool :=
  r.syncedGen < r.generation && !r.marked && !r.frozen && !r.deadLettered
    && !upstreamLagging db r && !rollupBlocked db r

def scheduleEligible (db : Db) (candidates : List Uuid) : Db :=
  (byId (db.resources.rows.filter fun r => r.id ∈ candidates && eligible db r)).foldl
    enqueueEligible db

/-! ## The trigger on resources -/

structure Updated where
  old : Resource
  new : Resource

namespace Updated

def upgraded (u : Updated) : Bool :=
  u.new.generation ≤ u.new.syncedGen && u.old.syncedGen < u.old.generation

def newlyFailed (u : Updated) : Bool :=
  u.new.failureGen = u.new.generation && u.old.failureGen ≠ u.old.generation

/-- The row turned unhealthy or newly failed. -/
def demoted (u : Updated) : Bool := (!u.new.healthOk && u.old.healthOk) || u.newlyFailed

end Updated

/-- `SELECT ... FROM resources WHERE id = ANY(ids) AND p`, enqueued for reconcile
unless already queued. -/
def repend (db : Db) (ids : List Uuid) (p : Resource → Bool) : Db :=
  (byId (db.resources.rows.filter fun r => r.id ∈ ids && p r)).foldl (enqueueNew .reconcile) db

/-- A reconcile row of `id` is queued. -/
def reconcileQueued (db : Db) (id : Uuid) : Bool :=
  db.workQueue.rows.any fun q => q.resourceId = id && q.taskType = .reconcile

/-- Lagging roots of upgraded rows that `schedule_eligible` did not queue are left
to the deferred recheck. -/
def armRollupRecheck (db : Db) (roots : List Uuid) : Db :=
  let armed := db.resources.rows.filter fun r =>
    r.id ∈ roots && r.ownerId.isNone && r.syncedGen < r.generation && !r.marked && !r.frozen
      && !reconcileQueued db r.id
  { db with
    rollupRecheck := (byId armed).foldl (fun t r => t.insertNew ⟨r.id⟩) db.rollupRecheck }

/-- The binding watches `r` on `transition`. -/
def ReactorBinding.watches (b : ReactorBinding) (transition : Transition) (r : Resource) : Bool :=
  b.enabled && b.transition = transition && b.watchKind = r.kind
    && b.watchKindVersion.all (· = r.kindVersion)
    && (b.labelMatch = Json.empty || r.labels.containsFields b.labelMatch)

/-- One delivery per binding that watches `r`. -/
def emit (transition : Transition) (db : Db) (r : Resource) : Db :=
  { db with
    lifecycleOutbox := (db.reactorBindings.rows.filter (·.watches transition r)).foldl
      (fun t b => t.insertNew ⟨r.id, r.kind, transition, r.generation, b.name⟩)
      db.lifecycleOutbox }

/-- The part of the trigger that follows rows becoming synced. -/
def onUpgraded (db : Db) (upgraded : List Resource) : Db :=
  let ids := upgraded.map (·.id)
  let roots := upgraded.filterMap (·.rootId)
  let dependents := (db.deps.rows.filter fun d => d.dependencyId ∈ ids).map (·.dependentId)
  let db := scheduleEligible db (dependents ++ roots)
  let db := armRollupRecheck db roots
  let db := repend db roots fun r =>
    r.ownerId.isNone && r.generation ≤ r.syncedGen && !r.marked && !r.frozen
  upgraded.foldl (emit .synced) db

/-- `CASE WHEN failure_gen = generation THEN 'failed' ELSE 'degraded' END`. -/
def demotion (r : Resource) : Transition := if r.failureGen = r.generation then .failed else .degraded

/-- The part that follows descendants turning unhealthy or failing: their roots are
queued.  Deliveries go out only when some demoted row has a root. -/
def onDemoted (db : Db) (demoted : List Resource) : Db :=
  let roots := demoted.filterMap (·.rootId)
  if roots = [] then db
  else
    let db := repend db roots fun r => !r.marked && !r.frozen
    demoted.foldl (fun db r => emit (demotion r) db r) db

/-- `cascade_on_ready_change`, on the rows of one UPDATE. -/
def cascadeOnReadyChange (db : Db) (updated : List Updated) : Db :=
  onDemoted (onUpgraded db ((updated.filter (·.upgraded)).map (·.new)))
    ((updated.filter (·.demoted)).map (·.new))

/-- `UPDATE resources SET f WHERE p`, with its trigger. -/
def updateResources (db : Db) (p : Resource → Bool) (f : Resource → Resource)
    (keeps : ∀ r, Keyed.key (f r) = Keyed.key r) : Db :=
  cascadeOnReadyChange { db with resources := db.resources.updateWhere p f keeps }
    ((db.resources.rows.filter p).map fun r => ⟨r, f r⟩)

/-! ## What scheduling leaves alone -/

/-- `db'` is `db` up to queue rows, rollup rechecks, deliveries and ids drawn. -/
structure OnlySchedules (db db' : Db) : Prop where
  resources : db'.resources = db.resources
  deps : db'.deps = db.deps
  workOutbox : db'.workOutbox = db.workOutbox
  providerconfigs : db'.providerconfigs = db.providerconfigs
  specVersions : db'.specVersions = db.specVersions
  kindConfig : db'.kindConfig = db.kindConfig
  kindManifest : db'.kindManifest = db.kindManifest
  kindInflight : db'.kindInflight = db.kindInflight
  scheduleRecheck : db'.scheduleRecheck = db.scheduleRecheck
  operations : db'.operations = db.operations
  conditions : db'.conditions = db.conditions
  reactorBindings : db'.reactorBindings = db.reactorBindings
  now : db'.now = db.now
  tasks : db'.tasks = db.tasks
  drained : db'.drained = db.drained

namespace OnlySchedules

theorem refl (db : Db) : OnlySchedules db db := by
  constructor <;> rfl

theorem trans {a b c : Db} (h : OnlySchedules a b) (k : OnlySchedules b c) : OnlySchedules a c where
  resources := k.resources.trans h.resources
  deps := k.deps.trans h.deps
  workOutbox := k.workOutbox.trans h.workOutbox
  providerconfigs := k.providerconfigs.trans h.providerconfigs
  specVersions := k.specVersions.trans h.specVersions
  kindConfig := k.kindConfig.trans h.kindConfig
  kindManifest := k.kindManifest.trans h.kindManifest
  kindInflight := k.kindInflight.trans h.kindInflight
  scheduleRecheck := k.scheduleRecheck.trans h.scheduleRecheck
  operations := k.operations.trans h.operations
  conditions := k.conditions.trans h.conditions
  reactorBindings := k.reactorBindings.trans h.reactorBindings
  now := k.now.trans h.now
  tasks := k.tasks.trans h.tasks
  drained := k.drained.trans h.drained

theorem foldl {α : Type} {f : Db → α → Db} (each : ∀ db a, OnlySchedules db (f db a))
    (xs : List α) (db : Db) : OnlySchedules db (xs.foldl f db) := by
  induction xs generalizing db with
  | nil => exact refl db
  | cons x xs ih => exact (each db x).trans (ih (f db x))

end OnlySchedules

theorem enqueueNew_only (taskType : TaskType) (db : Db) (r : Resource) :
    OnlySchedules db (enqueueNew taskType db r) := by
  constructor <;> rfl

theorem enqueueEligible_only (db : Db) (r : Resource) : OnlySchedules db (enqueueEligible db r) := by
  constructor <;> rfl

theorem scheduleEligible_only (db : Db) (ids : List Uuid) : OnlySchedules db (scheduleEligible db ids) :=
  OnlySchedules.foldl enqueueEligible_only _ _

theorem repend_only (db : Db) (ids : List Uuid) (p : Resource → Bool) : OnlySchedules db (repend db ids p) :=
  OnlySchedules.foldl (enqueueNew_only .reconcile) _ _

theorem armRollupRecheck_only (db : Db) (roots : List Uuid) : OnlySchedules db (armRollupRecheck db roots) := by
  constructor <;> rfl

theorem emit_only (transition : Transition) (db : Db) (r : Resource) :
    OnlySchedules db (emit transition db r) := by
  constructor <;> rfl

theorem onUpgraded_only (db : Db) (upgraded : List Resource) : OnlySchedules db (onUpgraded db upgraded) :=
  (((scheduleEligible_only _ _).trans (armRollupRecheck_only _ _)).trans (repend_only _ _ _)).trans
    (OnlySchedules.foldl (emit_only .synced) _ _)

theorem onDemoted_only (db : Db) (demoted : List Resource) : OnlySchedules db (onDemoted db demoted) := by
  unfold onDemoted
  simp only
  split
  · exact .refl db
  · exact (repend_only _ _ _).trans (OnlySchedules.foldl (fun db r => emit_only _ db r) _ _)

theorem cascadeOnReadyChange_only (db : Db) (updated : List Updated) :
    OnlySchedules db (cascadeOnReadyChange db updated) :=
  (onUpgraded_only _ _).trans (onDemoted_only _ _)

theorem updateResources_only (db : Db) (p : Resource → Bool) (f : Resource → Resource)
    (keeps : ∀ r, Keyed.key (f r) = Keyed.key r) :
    OnlySchedules { db with resources := db.resources.updateWhere p f keeps } (updateResources db p f keeps) :=
  cascadeOnReadyChange_only _ _

theorem mem_updateResources {db : Db} {p : Resource → Bool} {f : Resource → Resource}
    {keeps : ∀ r, Keyed.key (f r) = Keyed.key r} {r' : Resource} :
    r' ∈ (updateResources db p f keeps).resources ↔ ∃ r ∈ db.resources, (if p r then f r else r) = r' := by
  rw [(updateResources_only db p f keeps).resources, Table.mem_updateWhere]

/-! ## Value flows -/

/-- A patch for one dependent. -/
structure FlowPatch where
  dependentId : Uuid
  patch : Patch

/-- The patch one flow yields from a source document: none when the source field is
absent or `null`. -/
def flowPatch (dependentId : Uuid) (source : Json) (flow : ValueFlow) : Option FlowPatch :=
  ((source.get? (pointerToPath flow.srcField)).filter (· ≠ .null)).map fun value =>
    ⟨dependentId, ⟨pointerToPath flow.depField, value⟩⟩

/-- The patch would change its dependent, which is not frozen. -/
def FlowPatch.applicable (db : Db) (p : FlowPatch) : Bool :=
  (db.resource? p.dependentId).any fun r =>
    r.spec.get? p.patch.path ≠ some p.patch.value && !r.frozen

/-- The patches of one dependent, in aggregation order. -/
def patchesFor (patches : List FlowPatch) (id : Uuid) : List Patch :=
  (patches.filter (·.dependentId = id)).map (·.patch)

/-- `SET spec = jsonb_set_many(spec, patches), generation = generation + 1` on every
row that has patches; `none` when a patch raises an error. -/
def patchSpecs (db : Db) (patches : List FlowPatch) : Option Db :=
  let patched := fun r : Resource => !(patchesFor patches r.id).isEmpty
  if db.resources.rows.all fun r => (jsonbSetMany r.spec (patchesFor patches r.id)).isSome then
    some (updateResources db patched (fun r => { r with
        spec := (jsonbSetMany r.spec (patchesFor patches r.id)).getD r.spec
        generation := r.generation + 1
        updatedAt := db.now })
      (fun _ => rfl))
  else none

theorem patchSpecs_only {db db' : Db} {patches : List FlowPatch} (done : patchSpecs db patches = some db') :
    ∃ t, OnlySchedules { db with resources := t } db' := by
  unfold patchSpecs at done
  split at done
  · cases done
    exact ⟨_, updateResources_only _ _ _ _⟩
  · cases done

/-- `apply_value_flows_for_dependents`; `order` is the order of the aggregate. -/
def applyValueFlowsForDependents (db : Db) (order : Nat → Nat) (depIds : List Uuid) : Option Db :=
  let candidates := (db.deps.rows.filter fun d => d.dependentId ∈ depIds).flatMap fun d =>
    match db.resource? d.dependencyId with
    | some u =>
      if u.generation ≤ u.syncedGen then
        u.status.elim [] fun status => d.valueFlows.filterMap (flowPatch d.dependentId status)
      else []
    | none => []
  patchSpecs db (shuffle order (candidates.filter (·.applicable db)))

end Converge.Kernel
