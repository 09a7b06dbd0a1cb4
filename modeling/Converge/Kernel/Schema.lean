/-
# Kernel.Schema -- the tables of the control plane

One structure per table of the schema, one `Keyed` instance per primary key and
unique index, and `Db`, the whole database.  `resource_meta` is one row per resource
under the same id, so its `name` and `labels` stand in `Resource`.

`shard_id` is not stored: it is `shardOf` of the resource id wherever it occurs.
The generated column `is_ready` is left out.

`Postgres` is what the database server brings: the hash behind the shard map and
the stream of random ids.  An id is never drawn twice; the counter `drawn` of
`Db` is the position in the stream.

Two fields of `Db` are history and no statement reads them: `tasks`, every task a
claim handed out, and `drained`, every result the drainer took from the outbox.
-/
import Converge.Theory.Table
import Converge.Kernel.Json

namespace Converge.Kernel

open Converge.Theory

set_option autoImplicit false

abbrev Uuid := Nat

abbrev Time := Nat

abbrev Bytes := List UInt8

/-- What the database server provides. -/
class Postgres where
  hashtext : Uuid → Int
  randomUuid : Nat → Uuid
  randomUuid_injective : ∀ {a b : Nat}, randomUuid a = randomUuid b → a = b

/-- `shard_of`: `abs(mod(hashtext(id::text), 256))`. -/
def shardOf [Postgres] (id : Uuid) : Nat := (Int.tmod (Postgres.hashtext id) 256).natAbs

/-- `shard_id BETWEEN shard_lo AND shard_hi`. -/
structure ShardRange where
  lo : Nat
  hi : Nat
  deriving DecidableEq

def ShardRange.covers [Postgres] (range : ShardRange) (id : Uuid) : Bool :=
  range.lo ≤ shardOf id && shardOf id ≤ range.hi

/-- The range of a caller that sweeps every shard. -/
def ShardRange.full : ShardRange := ⟨0, 255⟩

theorem ShardRange.full_covers [Postgres] (id : Uuid) : ShardRange.full.covers id = true := by
  have bound : (Postgres.hashtext id).natAbs % 256 ≤ 255 :=
    Nat.le_of_lt_succ (Nat.mod_lt _ (by decide))
  simpa [ShardRange.covers, ShardRange.full, shardOf] using bound

inductive TaskType where
  | reconcile
  | delete
  | operate
  deriving DecidableEq, Repr

/-! ## Resources and edges -/

/-- A `frozen_until` that is not `NULL`: the grace deadline of an orphan, or the
`infinity` of a quarantined row. -/
inductive Freeze where
  | until (deadline : Time)
  | infinity
  deriving DecidableEq

structure Resource where
  id : Uuid
  kind : String
  kindVersion : Nat
  ownerId : Option Uuid
  rootId : Option Uuid
  name : String
  labels : Json
  spec : Json
  status : Option Json
  providerConfigId : Option Uuid
  generation : Nat
  syncedGen : Nat
  healthOk : Bool
  composedGen : Nat
  manifestVersion : Int
  failureGen : Nat
  failureTerminal : Bool
  failureAttempts : Nat
  finalizers : List String
  deletionRequestedAt : Option Time
  frozenUntil : Option Freeze
  lastReconciledAt : Option Time
  updatedAt : Time
  deriving DecidableEq

namespace Resource

/-- `deletion_requested_at IS NOT NULL`. -/
def marked (r : Resource) : Bool := r.deletionRequestedAt.isSome

/-- `frozen_until IS NOT NULL`: orphaned or quarantined. -/
def frozen (r : Resource) : Bool := r.frozenUntil.isSome

/-- `failure_terminal AND failure_gen = generation`: dead-lettered at this generation. -/
def deadLettered (r : Resource) : Bool := r.failureTerminal && r.failureGen == r.generation

end Resource

instance : Keyed Resource where
  Key := Uuid × String × String
  key r := (r.id, r.kind, r.name)
  Clash a b := a.1 = b.1 ∨ a.2 = b.2
  clash_symm h := h.imp Eq.symm Eq.symm
  decidableClash _ _ := inferInstance

/-- One entry of `resource_deps.value_flows`. -/
structure ValueFlow where
  depField : String
  srcField : String
  deriving DecidableEq

structure ResourceDep where
  dependentId : Uuid
  dependencyId : Uuid
  valueFlows : List ValueFlow
  srcKindVersion : Nat
  deriving DecidableEq

instance : Keyed ResourceDep where
  Key := Uuid × Uuid
  key d := (d.dependentId, d.dependencyId)
  Clash a b := a = b
  clash_symm h := h.symm
  decidableClash _ _ := inferInstance

structure SpecVersion where
  resourceId : Uuid
  generation : Nat
  spec : Json
  deriving DecidableEq

instance : Keyed SpecVersion where
  Key := Uuid × Nat
  key v := (v.resourceId, v.generation)
  Clash a b := a = b
  clash_symm h := h.symm
  decidableClash _ _ := inferInstance

structure ProviderConfig where
  id : Uuid
  name : String
  kind : String
  kindVersion : Nat
  isDefault : Bool
  spec : Json
  data : Bytes
  ownerId : Option Uuid
  deriving DecidableEq

/-- `uq_providerconfigs_default_per_kind` is partial: only defaults clash on it. -/
instance : Keyed ProviderConfig where
  Key := Uuid × String × Bool × String × Nat
  key c := (c.id, c.name, c.isDefault, c.kind, c.kindVersion)
  Clash a b := a.1 = b.1 ∨ a.2.1 = b.2.1 ∨ (a.2.2.1 = true ∧ b.2.2.1 = true ∧ a.2.2.2 = b.2.2.2)
  clash_symm := by
    rintro a b (h | h | ⟨ha, hb, h⟩)
    · exact .inl h.symm
    · exact .inr (.inl h.symm)
    · exact .inr (.inr ⟨hb, ha, h.symm⟩)
  decidableClash _ _ := inferInstance

/-! ## Kinds -/

structure KindConfig where
  kind : String
  kindVersion : Nat
  maxInflight : Nat
  taskDeadlineSecs : Nat
  resyncIntervalSecs : Nat
  resyncRecomposes : Bool
  orphanGraceSecs : Nat
  finalizerName : Option String
  maxTransientAttempts : Nat
  retired : Bool
  manifestVersion : Int
  deriving DecidableEq

instance : Keyed KindConfig where
  Key := String × Nat
  key c := (c.kind, c.kindVersion)
  Clash a b := a = b
  clash_symm h := h.symm
  decidableClash _ _ := inferInstance

/-- The columns of `kind_manifest` that reach `kind_config`. -/
structure KindManifest where
  kind : String
  kindVersion : Nat
  finalizerName : Option String
  maxInflight : Nat
  taskDeadlineSecs : Nat
  resyncIntervalSecs : Nat
  resyncRecomposes : Bool
  orphanGraceSecs : Nat
  maxTransientAttempts : Nat
  retired : Bool
  manifestVersion : Int
  deriving DecidableEq

instance : Keyed KindManifest where
  Key := String × Nat
  key c := (c.kind, c.kindVersion)
  Clash a b := a = b
  clash_symm h := h.symm
  decidableClash _ _ := inferInstance

/-- One range's partial of the count of leased tasks of a capped kind. -/
structure KindInflight where
  kind : String
  kindVersion : Nat
  rangeLo : Nat
  inFlight : Nat
  refreshedAt : Time
  deriving DecidableEq

instance : Keyed KindInflight where
  Key := String × Nat × Nat
  key c := (c.kind, c.kindVersion, c.rangeLo)
  Clash a b := a = b
  clash_symm h := h.symm
  decidableClash _ _ := inferInstance

/-! ## Work -/

structure WorkQueueRow where
  id : Uuid
  resourceId : Uuid
  taskType : TaskType
  opId : Option Uuid
  kind : String
  kindVersion : Nat
  generation : Nat
  spec : Option Json
  providerConfig : Option Json
  providerBundle : Option Bytes
  attempts : Nat
  brokerId : Option String
  workerId : Option String
  heartbeatAt : Time
  createdAt : Time
  manifestVersion : Int
  claimEpoch : Nat
  deriving DecidableEq

/-- `PRIMARY KEY (id)` and `UNIQUE (resource_id, task_type)`. -/
instance : Keyed WorkQueueRow where
  Key := Uuid × Uuid × TaskType
  key q := (q.id, q.resourceId, q.taskType)
  Clash a b := a.1 = b.1 ∨ a.2 = b.2
  clash_symm h := h.imp Eq.symm Eq.symm
  decidableClash _ _ := inferInstance

/-- `store.WorkTask`: what a claim hands to the runtime, the queue row's columns as
of the claim. -/
structure WorkTask where
  id : Uuid
  resourceId : Uuid
  kind : String
  kindVersion : Nat
  taskType : TaskType
  opId : Option Uuid
  generation : Nat
  spec : Option Json
  providerConfig : Option Json
  providerBundle : Option Bytes
  manifestVersion : Int
  claimEpoch : Nat
  deriving DecidableEq

/-- One element of `work_outbox.conditions`. -/
structure ConditionEntry where
  type : String
  status : String
  reason : String
  message : String
  deriving DecidableEq

/-- A row of `work_outbox`.  Every caller of `AppendOutbox` fills `work_id`,
`resource_id`, `op_id`, `task_type` and `observed_generation` from the task it ran,
so the row holds that task; the rest of the task is history. -/
structure OutboxRow where
  task : WorkTask
  succeeded : Bool
  payload : Option Json
  errorMessage : Option String
  advanceSyncedGen : Bool
  healthOk : Option Bool
  conditions : Option (List ConditionEntry)
  failed : Bool
  terminal : Bool
  finalizerName : Option String
  manifestVersion : Int
  deriving DecidableEq

namespace OutboxRow

def workId (o : OutboxRow) : Uuid := o.task.id
def resourceId (o : OutboxRow) : Uuid := o.task.resourceId
def opId (o : OutboxRow) : Option Uuid := o.task.opId
def taskType (o : OutboxRow) : TaskType := o.task.taskType
def observedGeneration (o : OutboxRow) : Nat := o.task.generation

end OutboxRow

instance : Keyed OutboxRow where
  Key := Uuid
  key o := o.workId
  Clash a b := a = b
  clash_symm h := h.symm
  decidableClash _ _ := inferInstance

/-- A row of `rollup_recheck` or `schedule_recheck`. -/
structure Recheck where
  resourceId : Uuid
  deriving DecidableEq

instance : Keyed Recheck where
  Key := Uuid
  key c := c.resourceId
  Clash a b := a = b
  clash_symm h := h.symm
  decidableClash _ _ := inferInstance

/-! ## Operations, conditions, reactors -/

inductive OperationState where
  | pending
  | running
  | succeeded
  | failed
  deriving DecidableEq

structure ResourceOperation where
  id : Uuid
  resourceId : Uuid
  verb : String
  input : Json
  output : Option Json
  state : OperationState
  errorMessage : Option String
  completedAt : Option Time
  deriving DecidableEq

instance : Keyed ResourceOperation where
  Key := Uuid
  key o := o.id
  Clash a b := a = b
  clash_symm h := h.symm
  decidableClash _ _ := inferInstance

structure ResourceCondition where
  resourceId : Uuid
  type : String
  status : String
  reason : String
  message : String
  observedGeneration : Nat
  lastTransitionAt : Time
  deriving DecidableEq

instance : Keyed ResourceCondition where
  Key := Uuid × String
  key c := (c.resourceId, c.type)
  Clash a b := a = b
  clash_symm h := h.symm
  decidableClash _ _ := inferInstance

inductive Transition where
  | created
  | synced
  | degraded
  | failed
  | deleted
  deriving DecidableEq

structure ReactorBinding where
  name : String
  watchKind : String
  watchKindVersion : Option Nat
  transition : Transition
  labelMatch : Json
  reactor : String
  reactorVersion : Option Nat
  enabled : Bool
  deriving DecidableEq

instance : Keyed ReactorBinding where
  Key := String
  key b := b.name
  Clash a b := a = b
  clash_symm h := h.symm
  decidableClash _ _ := inferInstance

/-- A row of `lifecycle_outbox`, as emitted; its lease columns, which only the
dispatcher's statements read, are added by `LifecycleRow`. -/
structure LifecycleDelivery where
  resourceId : Uuid
  kind : String
  transition : Transition
  generation : Nat
  bindingName : String
  deriving DecidableEq

instance : Keyed LifecycleDelivery where
  Key := Uuid × Transition × Nat × String
  key d := (d.resourceId, d.transition, d.generation, d.bindingName)
  Clash a b := a = b
  clash_symm h := h.symm
  decidableClash _ _ := inferInstance

/-! ## The database -/

structure Db where
  resources : Table Resource
  deps : Table ResourceDep
  workQueue : Table WorkQueueRow
  workOutbox : Table OutboxRow
  providerconfigs : Table ProviderConfig
  specVersions : Table SpecVersion
  kindConfig : Table KindConfig
  kindManifest : Table KindManifest
  kindInflight : Table KindInflight
  rollupRecheck : Table Recheck
  scheduleRecheck : Table Recheck
  operations : Table ResourceOperation
  conditions : Table ResourceCondition
  reactorBindings : Table ReactorBinding
  lifecycleOutbox : Table LifecycleDelivery
  now : Time
  drawn : Nat
  /-- Every task a claim handed out, newest first. -/
  tasks : List WorkTask
  /-- Every result the drainer took, newest first. -/
  drained : List OutboxRow

namespace Db

def empty : Db where
  resources := ∅
  deps := ∅
  workQueue := ∅
  workOutbox := ∅
  providerconfigs := ∅
  specVersions := ∅
  kindConfig := ∅
  kindManifest := ∅
  kindInflight := ∅
  rollupRecheck := ∅
  scheduleRecheck := ∅
  operations := ∅
  conditions := ∅
  reactorBindings := ∅
  lifecycleOutbox := ∅
  now := 0
  drawn := 0
  tasks := []
  drained := []

def resource? (db : Db) (id : Uuid) : Option Resource := db.resources.lookup Resource.id id

def kindConfig? (db : Db) (kind : String) (version : Nat) : Option KindConfig :=
  db.kindConfig.lookup (fun c => (c.kind, c.kindVersion)) (kind, version)

/-- The finalizer a row of this kind is seeded with; `none` when the kind has
none or an empty name. -/
def kindFinalizer (db : Db) (r : Resource) : Option String :=
  ((db.kindConfig? r.kind r.kindVersion).bind (·.finalizerName)).filter (· ≠ "")

/-- `LEFT JOIN providerconfigs pc ON pc.id = r.provider_config_id`. -/
def configOf (db : Db) (r : Resource) : Option ProviderConfig :=
  r.providerConfigId.bind (db.providerconfigs.lookup ProviderConfig.id)

end Db

theorem resource_primary : Table.Primary Resource.id := fun _ _ h => Or.inl h

theorem resource_natural : Table.Primary fun r : Resource => (r.kind, r.name) :=
  fun _ _ h => Or.inr h

theorem specVersion_primary : Table.Primary fun v : SpecVersion => (v.resourceId, v.generation) :=
  fun _ _ h => h

theorem workQueue_primary : Table.Primary WorkQueueRow.id := fun _ _ h => Or.inl h

theorem workOutbox_primary : Table.Primary OutboxRow.workId := fun _ _ h => h

theorem operations_primary : Table.Primary ResourceOperation.id := fun _ _ h => h

end Converge.Kernel
