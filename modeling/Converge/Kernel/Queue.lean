/-
# Kernel.Queue -- leases on queued work and the results they return

A claim leases unleased rows to a broker and moves their `claim_epoch` on; the
epoch it leaves in the row is the token of the tasks it hands out.  Freeing a row
(reap, release) moves the epoch on again.  `appendOutbox` writes a result only
while the row still carries the task's epoch, and, for a reconcile, the task's
generation.

`reapStaleWork` frees no row whose result is waiting in the outbox.  The two
releases do not look at the outbox.
-/
import Converge.Kernel.Schedule
import Mathlib.Algebra.Order.Ring.Nat

namespace Converge.Kernel

open Converge.Theory

set_option autoImplicit false
set_option linter.unusedSectionVars false

variable [Postgres]

/-! ## Claiming -/

/-- The caller's arguments of `WorkQueueTakeBatch`. -/
structure TakeBatch where
  brokerId : String
  kind : String
  kindVersion : Nat
  taskType : TaskType
  range : ShardRange
  lim : Nat

/-- A capped kind's configured ceiling. -/
def inflightCap (db : Db) (kind : String) (version : Nat) : Option Nat :=
  ((db.kindConfig? kind version).map (·.maxInflight)).filter (0 < ·)

def inflightTotal (db : Db) (kind : String) (version : Nat) : Nat :=
  ((db.kindInflight.rows.filter fun i => i.kind = kind && i.kindVersion = version).map (·.inFlight)).sum

/-- `GREATEST(LEAST(lim, COALESCE(headroom, lim)), 0)`. -/
def takeLimit (db : Db) (b : TakeBatch) : Nat :=
  match inflightCap db b.kind b.kindVersion with
  | some cap => min b.lim (cap - inflightTotal db b.kind b.kindVersion)
  | none => b.lim

/-- A row a batch may take. -/
def claimable (b : TakeBatch) (q : WorkQueueRow) : Bool :=
  q.kind = b.kind && q.kindVersion = b.kindVersion && q.taskType = b.taskType
    && q.brokerId.isNone && b.range.covers q.resourceId

def claimRow (brokerId : String) (now : Time) (q : WorkQueueRow) : WorkQueueRow :=
  { q with
    brokerId := some brokerId
    workerId := none
    heartbeatAt := now
    claimEpoch := q.claimEpoch + 1 }

theorem claimRow_key (brokerId : String) (now : Time) (q : WorkQueueRow) :
    Keyed.key (claimRow brokerId now q) = Keyed.key q := rfl

/-- The task a claimed row is handed out as. -/
def taskOf (q : WorkQueueRow) : WorkTask where
  id := q.id
  resourceId := q.resourceId
  kind := q.kind
  kindVersion := q.kindVersion
  taskType := q.taskType
  opId := q.opId
  generation := q.generation
  spec := q.spec
  providerConfig := q.providerConfig
  providerBundle := q.providerBundle
  manifestVersion := q.manifestVersion
  claimEpoch := q.claimEpoch

/-- Add `n` to one partial. -/
def bumpInflight (db : Db) (kind : String) (version lo n : Nat) : Table KindInflight :=
  (db.kindInflight.updateWhere (fun i => i.kind = kind && i.kindVersion = version && i.rangeLo = lo)
    (fun i => { i with inFlight := i.inFlight + n, refreshedAt := db.now })
    (fun _ => rfl)).insertNew ⟨kind, version, lo, n, db.now⟩

def takenRows (db : Db) (scan : Scan Uuid) (b : TakeBatch) : List WorkQueueRow :=
  scan.pick (·.id) Scan.unordered (takeLimit db b) (db.workQueue.rows.filter (claimable b))

def workQueueTakeBatch (db : Db) (scan : Scan Uuid) (b : TakeBatch) : Db :=
  let claimed := (takenRows db scan b).map (claimRow b.brokerId db.now)
  let ids := (takenRows db scan b).map (·.id)
  { db with
    workQueue := db.workQueue.updateWhere (fun q => q.id ∈ ids) (claimRow b.brokerId db.now)
      (claimRow_key b.brokerId db.now)
    kindInflight :=
      if (inflightCap db b.kind b.kindVersion).isSome && !claimed.isEmpty then
        bumpInflight db b.kind b.kindVersion b.range.lo claimed.length
      else db.kindInflight
    tasks := claimed.map taskOf ++ db.tasks }

/-! ## Freeing -/

def freeRow (now : Time) (q : WorkQueueRow) : WorkQueueRow :=
  { q with
    brokerId := none
    workerId := none
    heartbeatAt := now
    claimEpoch := q.claimEpoch + 1 }

theorem freeRow_key (now : Time) (q : WorkQueueRow) : Keyed.key (freeRow now q) = Keyed.key q := rfl

def freeWhere (db : Db) (p : WorkQueueRow → Bool) : Db :=
  { db with workQueue := db.workQueue.updateWhere p (freeRow db.now) (freeRow_key db.now) }

/-- The rows `WorkQueueReleaseBroker` frees: every row the broker holds. -/
def releasesBroker (scan : Scan Uuid) (brokerId : String) (q : WorkQueueRow) : Bool :=
  q.brokerId = some brokerId && !scan.locked q.id

def workQueueReleaseBroker (db : Db) (scan : Scan Uuid) (brokerId : String) : Db :=
  freeWhere db (releasesBroker scan brokerId)

/-- The rows `WorkQueueReleaseTasks` frees: the listed ones the broker holds. -/
def releasesTasks (scan : Scan Uuid) (brokerId : String) (ids : List Uuid) (range : ShardRange)
    (q : WorkQueueRow) : Bool :=
  q.id ∈ ids && q.brokerId = some brokerId && range.covers q.resourceId && !scan.locked q.id

def workQueueReleaseTasks (db : Db) (scan : Scan Uuid) (brokerId : String) (ids : List Uuid)
    (range : ShardRange) : Db :=
  freeWhere db (releasesTasks scan brokerId ids range)

/-- A result for the row is waiting to be drained. -/
def resultWaiting (db : Db) (workId : Uuid) : Bool :=
  db.workOutbox.rows.any fun o => o.workId = workId

/-- Leased, silent for longer than the window, and without a result. -/
def stale (db : Db) (staleSeconds : Nat) (range : ShardRange) (q : WorkQueueRow) : Bool :=
  q.brokerId.isSome && q.heartbeatAt + staleSeconds < db.now && range.covers q.resourceId
    && !resultWaiting db q.id

def reapStaleWork (db : Db) (scan : Scan Uuid) (staleSeconds maxRows : Nat) (range : ShardRange) : Db :=
  let picked := scan.pick (·.id) (fun q => (q.heartbeatAt, 0)) maxRows
    (db.workQueue.rows.filter (stale db staleSeconds range))
  freeWhere db fun q => q.id ∈ picked.map (·.id)

/-! ## Columns no fence reads -/

def workQueueHeartbeat (db : Db) (scan : Scan Uuid) (tokens : List (Uuid × Nat)) (range : ShardRange) : Db :=
  { db with
    workQueue := db.workQueue.updateWhere
      (fun q => (q.id, q.claimEpoch) ∈ tokens && range.covers q.resourceId && !scan.locked q.id)
      (fun q => { q with heartbeatAt := db.now }) (fun _ => rfl) }

def workQueueIncrementAttempts (db : Db) (id : Uuid) : Db :=
  { db with
    workQueue := db.workQueue.updateWhere (fun q => q.id = id)
      (fun q => { q with attempts := q.attempts + 1 }) (fun _ => rfl) }

/-- `workers` pairs each row with the worker that runs it. -/
def workQueueMarkWorkerBatch (db : Db) (scan : Scan Uuid) (brokerId : String)
    (workers : List (Uuid × String)) : Db :=
  let worker := fun q : WorkQueueRow => (workers.find? fun w => w.1 = q.id).map Prod.snd
  { db with
    workQueue := db.workQueue.updateWhere
      (fun q => q.brokerId = some brokerId && (worker q).isSome && !scan.locked q.id)
      (fun q => { q with workerId := worker q }) (fun _ => rfl) }

/-! ## Removing -/

def deleteUnclaimedWork (db : Db) (scan : Scan Uuid) (deleteSeconds maxRows : Nat) (range : ShardRange) : Db :=
  let picked := scan.pick (·.id) (fun q => (q.createdAt, 0)) maxRows
    (db.workQueue.rows.filter fun q =>
      q.brokerId.isNone && q.createdAt + deleteSeconds < db.now && range.covers q.resourceId)
  { db with workQueue := db.workQueue.deleteWhere fun q => q.id ∈ picked.map (·.id) }

/-- `recount_inflight`: one fresh partial per capped kind, and stale ones dropped. -/
def recountInflight (db : Db) (range : ShardRange) : Db :=
  let leased := fun c : KindConfig => (db.workQueue.rows.filter fun q =>
    q.brokerId.isSome && range.covers q.resourceId && q.kind = c.kind
      && q.kindVersion = c.kindVersion).length
  let kept := db.kindInflight.deleteWhere fun i => range.lo ≤ i.rangeLo && i.rangeLo ≤ range.hi
  let counted := (db.kindConfig.rows.filter fun c => 0 < c.maxInflight).foldl
    (fun t c => t.insertNew ⟨c.kind, c.kindVersion, range.lo, leased c, db.now⟩) kept
  { db with kindInflight := counted.deleteWhere fun i => i.refreshedAt + 300 < db.now }

/-! ## Results -/

/-- The queue row still carries the token of `o`: the epoch of the claim, the
generation for a reconcile, and the manifest version unless one side has none. -/
def tokenMatches (o : OutboxRow) (q : WorkQueueRow) : Bool :=
  q.id = o.workId && q.claimEpoch = o.task.claimEpoch
    && (o.taskType ≠ .reconcile || q.generation = o.observedGeneration)
    && (o.manifestVersion = 0 || q.manifestVersion = 0 || q.manifestVersion = o.manifestVersion)

/-- `AppendOutbox`: fenced by the queue row, `ON CONFLICT (work_id) DO NOTHING`. -/
def appendOutbox (db : Db) (o : OutboxRow) : Db :=
  if db.workQueue.rows.any (tokenMatches o) then
    { db with workOutbox := db.workOutbox.insertNew o }
  else db

/-! ## Deferred scheduling -/

/-- The ids a recheck drain takes, `ORDER BY resource_id`. -/
def recheckPicked (t : Table Recheck) (scan : Scan Uuid) (maxRows : Nat) (range : ShardRange) : List Uuid :=
  (scan.pick (·.resourceId) (fun c => (c.resourceId, 0)) maxRows
    (t.rows.filter fun c => range.covers c.resourceId)).map (·.resourceId)

/-- `drain_rollup_rechecks`: rows whose root got queued leave the table. -/
def drainRollupRechecks (db : Db) (scan : Scan Uuid) (maxRows : Nat) (range : ShardRange) : Db :=
  let ids := recheckPicked db.rollupRecheck scan maxRows range
  let db := scheduleEligible db ids
  { db with
    rollupRecheck := db.rollupRecheck.deleteWhere fun c =>
      c.resourceId ∈ ids && reconcileQueued db c.resourceId }

/-- `drain_schedule_rechecks`: every row taken leaves the table. -/
def drainScheduleRechecks (db : Db) (scan : Scan Uuid) (maxRows : Nat) (range : ShardRange) : Db :=
  let ids := recheckPicked db.scheduleRecheck scan maxRows range
  let db := scheduleEligible db ids
  { db with scheduleRecheck := db.scheduleRecheck.deleteWhere fun c => c.resourceId ∈ ids }

/-- The rows the reaper retries: eligible, silent for the window, and not queued. -/
def retriable (db : Db) (retrySeconds : Nat) (shards : List Nat) (r : Resource) : Bool :=
  shardOf r.id ∈ shards && eligible db r && r.updatedAt + retrySeconds < db.now
    && !reconcileQueued db r.id

def requeueFailedAndPending (db : Db) (retrySeconds maxRows : Nat) (shards : List Nat) : Db :=
  scheduleEligible db
    (((byId (db.resources.rows.filter (retriable db retrySeconds shards))).take maxRows).map (·.id))

/-- A settled row whose last look is older than the interval. -/
def resyncDue (db : Db) (kind : String) (resyncSeconds : Nat) (shards : List Nat) (r : Resource) : Bool :=
  r.kind = kind && shardOf r.id ∈ shards && !r.marked && !r.frozen
    && r.generation ≤ r.syncedGen
    && r.lastReconciledAt.getD r.updatedAt + resyncSeconds < db.now
    && !reconcileQueued db r.id

/-- `requeue_for_resync`.  The stamp changes no column the trigger looks at. -/
def requeueForResync (db : Db) (kind : String) (resyncSeconds maxRows : Nat) (shards : List Nat)
    (recompose : Bool) : Db :=
  -- ORDER BY last_reconciled_at NULLS FIRST, id
  let due := Scan.plain.pick (·.id) (fun r : Resource => (r.lastReconciledAt.elim 0 (· + 1), r.id))
    maxRows (db.resources.rows.filter (resyncDue db kind resyncSeconds shards))
  let db := updateResources db (fun r => r.id ∈ due.map (·.id))
    (fun r => { r with
      lastReconciledAt := some db.now
      composedGen := if recompose then 0 else r.composedGen })
    (fun _ => rfl)
  (byId due).foldl (enqueueNew .reconcile) db

end Converge.Kernel
