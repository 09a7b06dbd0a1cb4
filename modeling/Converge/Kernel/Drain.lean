/-
# Kernel.Drain -- applying results from the outbox

`drain_outbox_batch` is one transaction of many statements over the popped rows:

1. the rows leave the outbox, and their queue rows leave the queue, a reconcile row
   only while it is still at the generation the result observed;
2. operations are finalized;
3. teardowns strip their finalizer, rows left without one are removed, failed
   teardowns are queued again;
4. changed statuses flow into dependents' specs;
5. reconcile results are applied to their rows, at most one per row;
6. conditions are upserted, and stale `False` ones cleared on success.

An error in any of them undoes the call: `none`.
-/
import Converge.Kernel.Deletion

namespace Converge.Kernel

open Converge.Theory

set_option autoImplicit false

variable [Postgres]

/-- The rows a drain takes, `ORDER BY shard_id`. -/
def popped (db : Db) (scan : Scan Uuid) (maxRows : Nat) (range : ShardRange) : List OutboxRow :=
  scan.pick (·.workId) (fun o => (shardOf o.resourceId, 0)) maxRows
    (db.workOutbox.rows.filter fun o => range.covers o.resourceId)

/-- The result `o` retires queue row `q`. -/
def retires (o : OutboxRow) (q : WorkQueueRow) : Bool :=
  o.workId = q.id && (o.taskType ≠ .reconcile || q.generation = o.observedGeneration)

/-- Step 1. -/
def takeResults (db : Db) (results : List OutboxRow) : Db :=
  { db with
    workOutbox := db.workOutbox.deleteWhere fun o => o.workId ∈ results.map (·.workId)
    workQueue := db.workQueue.deleteWhere fun q => results.any (retires · q)
    drained := results ++ db.drained }

/-- The result that finalizes operation `op`. -/
def operationResult (results : List OutboxRow) (op : ResourceOperation) : Option OutboxRow :=
  results.find? fun o => o.taskType = .operate && o.opId = some op.id && op.state = .running

/-- Step 2. -/
def finalizeOperations (db : Db) (results : List OutboxRow) : Db :=
  { db with
    operations := db.operations.updateWhere (fun op => (operationResult results op).isSome)
      (fun op => { op with
        state := (operationResult results op).elim op.state
          fun o => if o.succeeded then .succeeded else .failed
        output := (operationResult results op).elim op.output (·.payload)
        errorMessage := (operationResult results op).elim op.errorMessage (·.errorMessage)
        completedAt := some db.now })
      (fun _ => rfl) }

/-! ## Teardown results -/

/-- The finalizer a successful teardown in `results` strips from `r`. -/
def strippedFinalizer (results : List OutboxRow) (r : Resource) : Option String :=
  (results.find? fun o => o.taskType = .delete && o.succeeded && o.resourceId = r.id
    && o.finalizerName.isSome).bind (·.finalizerName)

def stripFinalizers (db : Db) (results : List OutboxRow) : Db :=
  updateResources db (fun r => (strippedFinalizer results r).isSome) (fun r => { r with
      finalizers := r.finalizers.filter fun f => strippedFinalizer results r ≠ some f
      updatedAt := db.now })
    (fun _ => rfl)

/-- A teardown of `r` is among the results. -/
def tornDown (results : List OutboxRow) (r : Resource) : Bool :=
  results.any fun o => o.taskType = .delete && o.resourceId = r.id

/-- The torn-down rows the drainer removes, under the gate of the sweep. -/
def removePicked (db : Db) (rowScan : Scan Uuid) (results : List OutboxRow) : List Resource :=
  db.resources.rows.filter fun r =>
    tornDown results r && unblocked db r && r.finalizers.isEmpty && !rowScan.locked r.id

def removeTornDown (db : Db) (rowScan : Scan Uuid) (results : List OutboxRow) : Db :=
  deleteResources db ((removePicked db rowScan results).map (·.id))

/-- Failed teardowns of rows that still have a finalizer are queued again. -/
def requeueTeardowns (db : Db) (results : List OutboxRow) : Db :=
  (byId (db.resources.rows.filter fun r =>
    (results.any fun o => o.taskType = .delete && o.failed && o.resourceId = r.id)
      && r.marked && !r.finalizers.isEmpty)).foldl (enqueueNew .delete) db

/-! ## Reconcile results -/

/-- The changed status documents that some edge reads. -/
def flowSources (db : Db) (results : List OutboxRow) : List (Uuid × Json) :=
  (results.filterMap fun o =>
    o.payload.bind fun payload =>
      if o.taskType = .reconcile && o.succeeded
          && ((db.resource? o.resourceId).any fun r => r.status ≠ some payload)
          && (db.deps.rows.any fun d => d.dependencyId = o.resourceId && !d.valueFlows.isEmpty)
      then some (o.resourceId, payload) else none).dedup

/-- Step 4; `order` is the order of the aggregate. -/
def substitute (db : Db) (order : Nat → Nat) (results : List OutboxRow) : Option Db :=
  let patches := (flowSources db results).flatMap fun src =>
    (db.deps.rows.filter fun d => d.dependencyId = src.1).flatMap fun d =>
      d.valueFlows.filterMap (flowPatch d.dependentId src.2)
  patchSpecs db (shuffle order (patches.filter (·.applicable db)))

/-- The result would change `r`. -/
def changesRow (o : OutboxRow) (r : Resource) : Bool :=
  (o.succeeded && o.advanceSyncedGen && r.syncedGen < o.observedGeneration)
    || (o.succeeded && o.payload.isSome && r.status ≠ o.payload)
    || (o.succeeded && o.healthOk.any (· ≠ r.healthOk))
    || (o.failed && r.failureGen ≠ o.observedGeneration)
    || (o.failed && o.terminal ≠ r.failureTerminal)
    || (o.succeeded && o.advanceSyncedGen && r.failureGen ≠ 0)
    || (o.failed && !o.terminal && !r.deadLettered)

/-- The result a row is updated from: any one of those that match. -/
def resultFor (results : List OutboxRow) (r : Resource) : Option OutboxRow :=
  results.find? fun o => o.taskType = .reconcile && o.resourceId = r.id && changesRow o r

/-- The attempt count after a transient failure observed at the result's generation. -/
def countedAttempts (o : OutboxRow) (r : Resource) : Nat :=
  if r.failureGen = o.observedGeneration then r.failureAttempts + 1 else 1

/-- `max_transient_attempts` of the row's kind; 0 is unbounded. -/
def attemptCap (db : Db) (r : Resource) : Nat :=
  ((db.kindConfig? r.kind r.kindVersion).map (·.maxTransientAttempts)).getD 0

/-- The columns a reconcile result writes. -/
def applyResult (db : Db) (o : OutboxRow) (r : Resource) : Resource :=
  { r with
    status := if o.succeeded && o.payload.isSome then o.payload else r.status
    syncedGen :=
      if o.succeeded && o.advanceSyncedGen then max r.syncedGen o.observedGeneration
      else r.syncedGen
    healthOk := if o.succeeded then o.healthOk.getD r.healthOk else r.healthOk
    failureGen :=
      if o.failed then o.observedGeneration
      else if o.succeeded && o.advanceSyncedGen then 0
      else r.failureGen
    failureAttempts :=
      if o.failed && !o.terminal then countedAttempts o r
      else if o.succeeded && o.advanceSyncedGen then 0
      else r.failureAttempts
    failureTerminal :=
      if o.failed && o.terminal then true
      else if o.failed && !o.terminal then
        0 < attemptCap db r && attemptCap db r ≤ countedAttempts o r
      else if o.succeeded && o.advanceSyncedGen then false
      else r.failureTerminal
    updatedAt := db.now }

/-- Step 5. -/
def applyResults (db : Db) (results : List OutboxRow) : Db :=
  updateResources db (fun r => (resultFor results r).isSome)
    (fun r => (resultFor results r).elim r (applyResult db · r))
    (fun r => by cases resultFor results r <;> rfl)

/-! ## Conditions -/

/-- The condition rows a batch proposes. -/
def proposedConditions (db : Db) (results : List OutboxRow) : List ResourceCondition :=
  (results.filter fun o => o.taskType = .reconcile).flatMap fun o =>
    (o.conditions.getD []).map fun c =>
      ⟨o.resourceId, c.type, c.status, c.reason, c.message, o.observedGeneration, db.now⟩

/-- The upsert's `SET`: the transition time moves only when the status does. -/
def overwriteCondition (c rc : ResourceCondition) : ResourceCondition :=
  { rc with
    status := c.status
    reason := c.reason
    message := c.message
    observedGeneration := c.observedGeneration
    lastTransitionAt := if rc.status = c.status then rc.lastTransitionAt else c.lastTransitionAt }

/-- The conditions table in the middle of the upsert, with the keys it has written. -/
structure ConditionUpsert where
  table : Table ResourceCondition
  written : List (Uuid × String)

/-- One proposed row.  The resource must exist, and a row already written by this
statement may not be written again. -/
def upsertCondition (db : Db) (s : ConditionUpsert) (c : ResourceCondition) : Option ConditionUpsert :=
  let key := (c.resourceId, c.type)
  if (db.resource? c.resourceId).isNone then none
  else if key ∈ s.written then none
  else
    match s.table.lookup (fun rc => (rc.resourceId, rc.type)) key with
    | none => some ⟨s.table.insertNew c, key :: s.written⟩
    | some rc =>
      if rc.status = c.status && rc.reason = c.reason && rc.message = c.message
          && rc.observedGeneration = c.observedGeneration then some s
      else
        some ⟨s.table.updateWhere (fun rc => (rc.resourceId, rc.type) = key)
          (overwriteCondition c) (fun _ => rfl), key :: s.written⟩

/-- A stale `False` condition: its resource has an advancing success in the batch
that does not report the type. -/
def recovered (results : List OutboxRow) (rc : ResourceCondition) : Bool :=
  rc.status = "False" && results.any fun o =>
    o.taskType = .reconcile && o.succeeded && o.advanceSyncedGen && o.resourceId = rc.resourceId
      && !(o.conditions.getD []).any fun c => c.type = rc.type

/-- Step 6. -/
def recordConditions (db : Db) (results : List OutboxRow) : Option Db :=
  ((proposedConditions db results).foldlM (upsertCondition db) ⟨db.conditions, []⟩).map fun s =>
    { db with conditions := s.table.deleteWhere (recovered results) }

/-! ## The call -/

/-- Steps 1 to 3. -/
def drainTeardowns (db : Db) (rowScan : Scan Uuid) (results : List OutboxRow) : Db :=
  let db := finalizeOperations (takeResults db results) results
  let db := removeTornDown (stripFinalizers db results) rowScan results
  requeueTeardowns db results

def drainOutboxBatch (db : Db) (scan rowScan : Scan Uuid) (order : Nat → Nat) (maxRows : Nat)
    (range : ShardRange) : Option Db :=
  let results := popped db scan maxRows range
  if results = [] then some db
  else
    (substitute (drainTeardowns db rowScan results) order results).bind fun db =>
      recordConditions (applyResults db results) results

end Converge.Kernel
