/-
# Kernel.Deletion -- marking, tearing down and removing resources

Removal has one primitive, `deleteResources`: the rows named, everything they own
through `ON DELETE CASCADE`, and what the foreign keys and the delete trigger take
with them (edges, queue rows, spec history, operations, conditions, owned configs).

A deletion request marks the target with everything it owns and everything that
depends on it, each row seeded with its kind's finalizer, and then sweeps.  A sweep
round first queues teardown tasks for marked rows that still have a finalizer, then
removes marked rows that have none; both only when the row owns nothing and no
marked row depends on it.  `sweepExpiredOrphans` is the other teardown path: it
takes orphans past their deadline, whatever they own.
-/
import Converge.Kernel.Schedule

namespace Converge.Kernel

open Converge.Theory

set_option autoImplicit false

variable [Postgres]

/-! ## Removing rows -/

def ownedBy (db : Db) (id : Uuid) : List Uuid :=
  (db.resources.rows.filter fun r => r.ownerId = some id).map (·.id)

/-- The rows a DELETE of `ids` removes: the existing ones and all they own. -/
def cascaded (db : Db) (ids : List Uuid) : List Uuid :=
  reachFrom (ownedBy db) db.resources.rows.length ((db.resources.rows.map (·.id)).filter (· ∈ ids))

/-- `DELETE FROM resources WHERE id = ANY(ids)`, its cascades and its trigger. -/
def deleteResources (db : Db) (ids : List Uuid) : Db :=
  let gone := cascaded db ids
  let configs := (db.providerconfigs.rows.filter fun c => c.ownerId.any (· ∈ gone)).map (·.id)
  { db with
    resources := (db.resources.deleteWhere fun r => r.id ∈ gone).updateWhere
      -- providerconfigs of a removed owner go; references to them become NULL
      (fun r => r.providerConfigId.any (· ∈ configs))
      (fun r => { r with providerConfigId := none }) (fun _ => rfl)
    deps := db.deps.deleteWhere fun d => d.dependentId ∈ gone || d.dependencyId ∈ gone
    workQueue := db.workQueue.deleteWhere fun q => q.resourceId ∈ gone
    specVersions := db.specVersions.deleteWhere fun v => v.resourceId ∈ gone
    operations := db.operations.deleteWhere fun o => o.resourceId ∈ gone
    conditions := db.conditions.deleteWhere fun c => c.resourceId ∈ gone
    providerconfigs := db.providerconfigs.deleteWhere fun c => c.ownerId.any (· ∈ gone) }

/-! ## Marking -/

def dependentsOf (db : Db) (id : Uuid) : List Uuid :=
  (db.deps.rows.filter fun d => d.dependencyId = id).map (·.dependentId)

/-- What a mark spreads to from `id`. -/
def spreadsTo (db : Db) (id : Uuid) : List Uuid := ownedBy db id ++ dependentsOf db id

/-- The recursive `tree` of `cascade_mark_for_deletion`. -/
def markTree (db : Db) (id : Uuid) : List Uuid :=
  reachFrom (spreadsTo db) (1 + db.resources.rows.length + db.deps.rows.length) [id]

/-- The columns a mark writes; the finalizer is that of the row's kind, if it has one. -/
def markRow (db : Db) (r : Resource) : Resource :=
  { r with
    deletionRequestedAt := some db.now
    frozenUntil := none
    finalizers := (db.kindFinalizer r).elim r.finalizers ([·])
    updatedAt := db.now }

def cascadeMarkForDeletion (db : Db) (id : Uuid) : Db :=
  updateResources db (fun r => r.id ∈ markTree db id && !r.marked) (markRow db) (fun _ => rfl)

/-! ## Sweeping marked rows -/

def hasChild (db : Db) (id : Uuid) : Bool := db.resources.rows.any fun c => c.ownerId = some id

/-- Some marked row depends on `id`. -/
def hasMarkedDependent (db : Db) (id : Uuid) : Bool :=
  db.deps.rows.any fun d => d.dependencyId = id && (db.resource? d.dependentId).any (·.marked)

/-- The gate both statements of a sweep share, and the drainer's delete. -/
def unblocked (db : Db) (r : Resource) : Bool :=
  r.marked && !hasChild db r.id && !hasMarkedDependent db r.id

def deleteQueued (db : Db) (id : Uuid) : Bool :=
  db.workQueue.rows.any fun q => q.resourceId = id && q.taskType = .delete

/-- A row whose teardown the sweep may queue. -/
def teardownReady (db : Db) (range : ShardRange) (r : Resource) : Bool :=
  unblocked db r && !r.finalizers.isEmpty && range.covers r.id && !deleteQueued db r.id

/-- The first statement of a round. -/
def sweepEnqueue (db : Db) (scan : Scan Uuid) (maxRows : Nat) (range : ShardRange) : Db :=
  (scan.lockless.pick (·.id) Scan.unordered maxRows
    (db.resources.rows.filter (teardownReady db range))).foldl (enqueueNew .delete) db

/-- A row the sweep may remove. -/
def removable (db : Db) (range : ShardRange) (r : Resource) : Bool :=
  unblocked db r && r.finalizers.isEmpty && range.covers r.id

/-- The rows the second statement of a round names. -/
def sweepPicked (db : Db) (scan : Scan Uuid) (maxRows : Nat) (range : ShardRange) : List Resource :=
  scan.pick (·.id) Scan.unordered maxRows (db.resources.rows.filter (removable db range))

/-- The second statement of a round. -/
def sweepDelete (db : Db) (scan : Scan Uuid) (maxRows : Nat) (range : ShardRange) : Db :=
  deleteResources db ((sweepPicked db scan maxRows range).map (·.id))

/-- The loop of `sweep_deletable`, one scan per round, `total` rows removed so far. -/
def sweepRounds (maxRows : Nat) (range : ShardRange) : Nat → (Nat → Scan Uuid) → Nat → Db → Db
  | 0, _, _, db => db
  | fuel + 1, scans, total, db =>
    let queued := sweepEnqueue db (scans fuel) maxRows range
    let removed := (sweepPicked queued (scans fuel) maxRows range).length
    let swept := sweepDelete queued (scans fuel) maxRows range
    if (removed = 0 ∧ queued.workQueue.rows.length = db.workQueue.rows.length)
        ∨ maxRows ≤ total + removed then swept
    else sweepRounds maxRows range fuel scans (total + removed) swept

/-- `sweep_deletable`.  A round that continues queued or removed a row, and each row
is queued at most once and removed at most once. -/
def sweepDeletable (db : Db) (scans : Nat → Scan Uuid) (maxRows : Nat) (range : ShardRange) : Db :=
  sweepRounds maxRows range (2 * db.resources.rows.length + 1) scans 0 db

def requestResourceDeletion (db : Db) (scans : Nat → Scan Uuid) (id : Uuid) : Db :=
  if (db.resource? id).isSome then
    sweepDeletable (cascadeMarkForDeletion db id) scans 100000 ShardRange.full
  else db

/-! ## Sweeping orphans -/

/-- An orphan whose grace has elapsed; a quarantined row never matches. -/
def expiredOrphan (db : Db) (range : ShardRange) (r : Resource) : Bool :=
  (match r.frozenUntil with
    | some (.until deadline) => deadline < db.now
    | _ => false) && !r.marked && range.covers r.id

/-- The deadline an orphan scan is ordered by. -/
def orphanOrder (r : Resource) : Nat × Nat :=
  match r.frozenUntil with
  | some (.until deadline) => (deadline, 0)
  | _ => (0, 0)

def orphansPicked (db : Db) (scan : Scan Uuid) (maxRows : Nat) (range : ShardRange) : List Resource :=
  scan.pick (·.id) orphanOrder maxRows (db.resources.rows.filter (expiredOrphan db range))

/-- `sweep_expired_orphans`: one statement, every branch of it on one snapshot.  Orphans
of a kind with a finalizer are marked and queued, the others removed. -/
def sweepExpiredOrphans (db : Db) (scan : Scan Uuid) (maxRows : Nat) (range : ShardRange) : Db :=
  let picked := orphansPicked db scan maxRows range
  let soft := picked.filter fun r => (db.kindFinalizer r).isSome
  let hard := picked.filter fun r => !(db.kindFinalizer r).isSome
  let marked := updateResources db (fun r => r.id ∈ soft.map (·.id)) (markRow db) (fun _ => rfl)
  deleteResources (soft.foldl (enqueueNew .delete) marked) (hard.map (·.id))

end Converge.Kernel
