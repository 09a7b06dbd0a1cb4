/-
# Kernel.System -- the control plane as a transition system

`Action` lists every statement and transaction that brokers, workers, drainers,
reapers, the API and operators issue against the store, with the environment's
choices as arguments.  `step` executes one; a transaction that fails changes nothing.
Interleavings of clients are sequences of actions: `run`.

A result or a compose is issued under a task that some claim handed out; that is the
only thing a client must have to issue it, however old the claim is.
-/
import Converge.Kernel.Drain
import Converge.Kernel.Compose

namespace Converge.Kernel

open Converge.Theory

set_option autoImplicit false

inductive Action where
  -- API and operators
  | applySpec (args : ApplySpec)
  | reconcile (id : Uuid)
  | flipResourceKindVersion (id : Uuid) (oldVersion newVersion : Nat) (newSpec : Json)
  | rollbackToSpec (id : Uuid) (targetGen : Nat)
  | quarantineResource (id : Uuid)
  | unquarantineResource (id : Uuid)
  | requestResourceDeletion (scans : Nat → Scan Uuid) (id : Uuid)
  | createOperation (resourceId : Uuid) (verb : String) (input : Json)
  | setOperationRunning (id : Uuid)
  | upsertProviderConfig (config : ProviderConfig)
  | deleteProviderConfig (name : String)
  | upsertKindManifest (manifest : KindManifest)
  | deleteKindManifest (kind : String) (version : Nat)
  | seedKindConfig (config : KindConfig)
  | upsertKindConfig (config : KindConfig)
  | upsertReactorBinding (binding : ReactorBinding)
  | deleteReactorBinding (name : String)
  -- leases
  | workQueueTakeBatch (scan : Scan Uuid) (batch : TakeBatch)
  | workQueueReleaseBroker (scan : Scan Uuid) (brokerId : String)
  | workQueueReleaseTasks (scan : Scan Uuid) (brokerId : String) (ids : List Uuid) (range : ShardRange)
  | workQueueHeartbeat (scan : Scan Uuid) (tokens : List (Uuid × Nat)) (range : ShardRange)
  | workQueueIncrementAttempts (id : Uuid)
  | workQueueMarkWorkerBatch (scan : Scan Uuid) (brokerId : String) (workers : List (Uuid × String))
  -- results
  | appendOutbox (result : OutboxRow)
  | applyComposeResult (env : ComposeEnv) (task : WorkTask) (out : ComposeOutput) (policy : ComposePolicy)
  | applyValueFlowsForDependents (order : Nat → Nat) (ids : List Uuid)
  -- drainers
  | drainOutboxBatch (scan rowScan : Scan Uuid) (order : Nat → Nat) (maxRows : Nat) (range : ShardRange)
  | drainRollupRechecks (scan : Scan Uuid) (maxRows : Nat) (range : ShardRange)
  | drainScheduleRechecks (scan : Scan Uuid) (maxRows : Nat) (range : ShardRange)
  -- reapers
  | reapStaleWork (scan : Scan Uuid) (staleSeconds maxRows : Nat) (range : ShardRange)
  | deleteUnclaimedWork (scan : Scan Uuid) (deleteSeconds maxRows : Nat) (range : ShardRange)
  | recountInflight (range : ShardRange)
  | requeueFailedAndPending (retrySeconds maxRows : Nat) (shards : List Nat)
  | requeueForResync (kind : String) (resyncSeconds maxRows : Nat) (shards : List Nat) (recompose : Bool)
  | gcSpecHistory (scan : Scan (Uuid × Nat)) (keepN maxRows : Nat) (shards : List Nat)
  | sweepDeletable (scans : Nat → Scan Uuid) (maxRows : Nat) (range : ShardRange)
  | sweepExpiredOrphans (scan : Scan Uuid) (maxRows : Nat) (range : ShardRange)
  -- time
  | tick (seconds : Nat)

section Steps

variable [Postgres] {actions : List Action} {db : Db} {ok : Db → Action → Prop} {I : Db → Prop}

/-- A result is accepted from whoever holds a task some claim handed out. -/
def submitResult (db : Db) (o : OutboxRow) : Db :=
  if o.task ∈ db.tasks then appendOutbox db o else db

/-- So is a compose, which only a reconcile runs. -/
def submitCompose (db : Db) (env : ComposeEnv) (t : WorkTask) (out : ComposeOutput)
    (pol : ComposePolicy) : Db :=
  if t ∈ db.tasks ∧ t.taskType = .reconcile then (applyComposeResult db env t out pol).getD db
  else db

def step (db : Db) : Action → Db
  | .applySpec a => (applySpec db a).getD db
  | .reconcile id => reconcile db id
  | .flipResourceKindVersion id o n s => (flipResourceKindVersion db id o n s).getD db
  | .rollbackToSpec id gen => rollbackToSpec db id gen
  | .quarantineResource id => quarantineResource db id
  | .unquarantineResource id => unquarantineResource db id
  | .requestResourceDeletion scans id => requestResourceDeletion db scans id
  | .createOperation id verb input => (createOperation db id verb input).getD db
  | .setOperationRunning id => setOperationRunning db id
  | .upsertProviderConfig c => (upsertProviderConfig db c).getD db
  | .deleteProviderConfig name => deleteProviderConfig db name
  | .upsertKindManifest m => (upsertKindManifest db m).getD db
  | .deleteKindManifest kind version => (deleteKindManifest db kind version).getD db
  | .seedKindConfig c => seedKindConfig db c
  | .upsertKindConfig c => upsertKindConfig db c
  | .upsertReactorBinding b => upsertReactorBinding db b
  | .deleteReactorBinding name => deleteReactorBinding db name
  | .workQueueTakeBatch scan b => workQueueTakeBatch db scan b
  | .workQueueReleaseBroker scan broker => workQueueReleaseBroker db scan broker
  | .workQueueReleaseTasks scan broker ids range => workQueueReleaseTasks db scan broker ids range
  | .workQueueHeartbeat scan tokens range => workQueueHeartbeat db scan tokens range
  | .workQueueIncrementAttempts id => workQueueIncrementAttempts db id
  | .workQueueMarkWorkerBatch scan broker workers => workQueueMarkWorkerBatch db scan broker workers
  | .appendOutbox o => submitResult db o
  | .applyComposeResult env t out pol => submitCompose db env t out pol
  | .applyValueFlowsForDependents order ids => (applyValueFlowsForDependents db order ids).getD db
  | .drainOutboxBatch scan rowScan order n range =>
    (drainOutboxBatch db scan rowScan order n range).getD db
  | .drainRollupRechecks scan n range => drainRollupRechecks db scan n range
  | .drainScheduleRechecks scan n range => drainScheduleRechecks db scan n range
  | .reapStaleWork scan secs n range => reapStaleWork db scan secs n range
  | .deleteUnclaimedWork scan secs n range => deleteUnclaimedWork db scan secs n range
  | .recountInflight range => recountInflight db range
  | .requeueFailedAndPending secs n shards => requeueFailedAndPending db secs n shards
  | .requeueForResync kind secs n shards recompose =>
    requeueForResync db kind secs n shards recompose
  | .gcSpecHistory scan keep n shards => gcSpecHistory db scan keep n shards
  | .sweepDeletable scans n range => sweepDeletable db scans n range
  | .sweepExpiredOrphans scan n range => sweepExpiredOrphans db scan n range
  | .tick seconds => { db with now := db.now + seconds }

def run (db : Db) (actions : List Action) : Db := actions.foldl step db

/-- A state some interleaving reaches from the empty database. -/
def Reachable (db : Db) : Prop := ∃ actions, run Db.empty actions = db

theorem Reachable.empty : Reachable Db.empty := ⟨[], rfl⟩

theorem run_append (db : Db) (first second : List Action) :
    run db (first ++ second) = run (run db first) second :=
  List.foldl_append

theorem Reachable.run (h : Reachable db) (actions : List Action) : Reachable (run db actions) := by
  obtain ⟨before, rfl⟩ := h
  exact ⟨before ++ actions, run_append _ _ _⟩

theorem Reachable.step (h : Reachable db) (a : Action) : Reachable (step db a) :=
  h.run [a]

/-- An invariant of the empty database and of every step holds in every reachable
state. -/
theorem Reachable.induction (init : I Db.empty)
    (next : ∀ db a, I db → I (Kernel.step db a)) (h : Reachable db) : I db := by
  obtain ⟨actions, rfl⟩ := h
  suffices ∀ db, I db → I (Kernel.run db actions) from this _ init
  induction actions with
  | nil => exact fun _ h => h
  | cons a rest ih => exact fun db h => ih _ (next db a h)

/-- Nothing is left to do: no queue, outbox or recheck row, and no row the reaper would
retry however old it is. -/
@[mk_iff]
structure Idle (db : Db) : Prop where
  queue : db.workQueue.rows = []
  outbox : db.workOutbox.rows = []
  rollups : db.rollupRecheck.rows = []
  schedules : db.scheduleRecheck.rows = []
  retries : ∀ r ∈ db.resources.rows, eligible db r = false

instance (db : Db) : Decidable (Idle db) := decidable_of_iff' _ (idle_iff db)

/-- With an empty queue, the reaper finds nothing at any time exactly if no row is
eligible. -/
theorem unretried_iff (queue : db.workQueue.rows = []) : (∀ now retrySeconds shards, ∀ r ∈ db.resources.rows,
      retriable { db with now := now } retrySeconds shards r = false) ↔
      ∀ r ∈ db.resources.rows, eligible db r = false := by
  have unqueued (now : Nat) (r : Resource) : reconcileQueued { db with now := now } r.id = false := by
    rw [reconcileQueued, queue]
    rfl
  constructor
  · intro none r here
    have late := none (r.updatedAt + 1) 0 [shardOf r.id] r here
    have same : eligible { db with now := r.updatedAt + 1 } r = eligible db r := rfl
    simpa [retriable, unqueued, same] using late
  · intro none now retrySeconds shards r here
    have same : eligible { db with now := now } r = false := none r here
    simp only [retriable, same, Bool.and_false, Bool.false_and]

/-- A property of the result of a call, if it has one. -/
instance decidableOfResult {result : Option Db} {P : Db → Prop} [∀ db', Decidable (P db')] :
    Decidable (∀ db', result = some db' → P db') :=
  match result with
  | none => isTrue fun _ h => nomatch h
  | some db' => decidable_of_iff (P db') ⟨fun h _ same => Option.some.inj same ▸ h, fun h => h db' rfl⟩

/-- Every step of the run from `db` meets `ok` in the state it is taken in. -/
def Along (ok : Db → Action → Prop) : Db → List Action → Prop
  | _, [] => True
  | db, a :: rest => ok db a ∧ Along ok (Kernel.step db a) rest

instance Along.decidable {ok : Db → Action → Prop} [∀ db a, Decidable (ok db a)] :
    (db : Db) → (actions : List Action) → Decidable (Along ok db actions)
  | _, [] => isTrue trivial
  | db, a :: rest =>
    have : Decidable (Along ok (Kernel.step db a) rest) := Along.decidable (Kernel.step db a) rest
    inferInstanceAs (Decidable (ok db a ∧ Along ok (Kernel.step db a) rest))

/-- What every step that meets the condition keeps holds at the end. -/
theorem Along.keeps (each : ∀ db a, Reachable db → ok db a → I db → I (Kernel.step db a)) (from_ : Reachable db)
    (along : Along ok db actions) (start : I db) : I (Kernel.run db actions) := by
  induction actions generalizing db with
  | nil => exact start
  | cons a rest ih => exact ih (from_.step a) along.2 (each db a from_ along.1 start)

theorem Along.of_forall (each : ∀ a ∈ actions, ∀ s, ok s a) : Along ok db actions := by
  induction actions generalizing db with
  | nil => trivial
  | cons a rest ih =>
    exact ⟨each a (.head _) db, ih fun b h => each b (.tail _ h)⟩

theorem Along.mono {ok' : Db → Action → Prop} (wider : ∀ {db a}, ok db a → ok' db a)
    (along : Along ok db actions) : Along ok' db actions := by
  induction actions generalizing db with
  | nil => trivial
  | cons a rest ih => exact ⟨wider along.1, ih along.2⟩

theorem Along.and {ok' : Db → Action → Prop} (first : Along ok db actions) (second : Along ok' db actions) :
    Along (fun db a => ok db a ∧ ok' db a) db actions := by
  induction actions generalizing db with
  | nil => trivial
  | cons a rest ih => exact ⟨⟨first.1, second.1⟩, ih first.2 second.2⟩

/-- Where a condition is what one step needs to keep an invariant, a run keeps it in every
state exactly if all its steps meet the condition. -/
theorem Along.iff_keeps (each : ∀ db, ∀ a ∈ actions, Reachable db → I db → (I (Kernel.step db a) ↔ ok db a))
    (from_ : Reachable db) (start : I db) :
    Along (fun db a => I (Kernel.step db a)) db actions ↔ Along ok db actions := by
  induction actions generalizing db with
  | nil => exact Iff.rfl
  | cons a rest ih =>
    have head := each db a (.head _) from_ start
    have tail (here : I (Kernel.step db a)) := ih (fun s b listed => each s b (.tail _ listed)) (from_.step a) here
    constructor
    · rintro ⟨here, later⟩
      exact ⟨head.mp here, (tail here).mp later⟩
    · rintro ⟨here, later⟩
      exact ⟨head.mpr here, (tail (head.mpr here)).mpr later⟩

/-- Where steps that meet the condition keep an invariant, and then do what `post` says, all
steps of a run that meets it do. -/
theorem Along.meets {post : Db → Action → Prop}
    (each : ∀ db a, Reachable db → I db → ok db a → I (Kernel.step db a) ∧ post db a) (from_ : Reachable db)
    (start : I db) (along : Along ok db actions) : Along post db actions := by
  induction actions generalizing db with
  | nil => trivial
  | cons a rest ih =>
    obtain ⟨next, here⟩ := each db a from_ start along.1
    exact ⟨here, ih (from_.step a) next along.2⟩

end Steps

/-! ## Concrete runs

The witnesses and counterexamples of the guarantees are runs of a server that numbers
its ids and keeps one shard. -/

@[reducible] def counting : Postgres where
  hashtext _ := 0
  randomUuid n := n
  randomUuid_injective h := h

/-- Apply a root `name` of `kind` at version 1 with an empty spec. -/
def applyRoot (kind name : String) : Action := .applySpec ⟨kind, 1, name, .obj [], .obj [], ""⟩

/-- Claim all work of one type of `kind`. -/
def claimAll (broker kind : String) (taskType : TaskType) : Action :=
  .workQueueTakeBatch Scan.plain ⟨broker, kind, 1, taskType, ShardRange.full, 10⟩

/-- What a worker returns for a task that went well. -/
def success (t : WorkTask) : OutboxRow where
  task := t
  succeeded := true
  payload := none
  errorMessage := none
  advanceSyncedGen := true
  healthOk := none
  conditions := none
  failed := false
  terminal := false
  finalizerName := none
  manifestVersion := t.manifestVersion

/-- What is recorded for a task that overran its deadline: a transient failure. -/
def timeout (t : WorkTask) : OutboxRow :=
  { success t with
    succeeded := false
    errorMessage := some "deadline exceeded"
    advanceSyncedGen := false
    failed := true }

/-- A failure no retry would help. -/
def rejected (t : WorkTask) : OutboxRow :=
  { timeout t with errorMessage := some "rejected", terminal := true }

/-- A reconcile whose kind rolls up and whose descendants are not settled yet. -/
def partly (t : WorkTask) : OutboxRow := { success t with advanceSyncedGen := false }

/-- Register `kind` with the finalizer that tears it down, if any. -/
def seedKind (kind : String) (finalizer : Option String) : Action :=
  .seedKindConfig ⟨kind, 1, 0, 0, 0, false, 0, finalizer, 0, false, 0⟩

/-- A child of `kind` at version 1 with an empty spec. -/
def child (kind name : String) : ChildSpec := ⟨kind, 1, name, .obj [], .obj []⟩

/-- Apply a composer's output under task `t`; a kind has its grace in seconds and its
finalizer. -/
def composed (grace : String → Nat) (finalizer : String → String) (out : ComposeOutput)
    (t : WorkTask) : Action :=
  .applyComposeResult ⟨id, id, fun _ _ => Scan.plain⟩ t out
    ⟨fun kind _ => grace kind, fun kind _ => finalizer kind⟩

/-- No kind keeps dropped children; networks and machines are torn down by a finalizer. -/
def noGrace (_ : String) : Nat := 0

def leafFinalizer (kind : String) : String :=
  if kind = "net" ∨ kind = "vm" then kind ++ "/destroy" else ""

/-- After `actions`, every task of `kind` handed out so far composes `out`. -/
def composing (kind : String) (grace : String → Nat) (finalizer : String → String)
    (out : ComposeOutput) (actions : List Action) : List Action :=
  letI := counting
  actions ++ ((run Db.empty actions).tasks.filter (·.kind = kind)).map (composed grace finalizer out)

def drainAll : Action := .drainOutboxBatch Scan.plain Scan.plain id 100 ShardRange.full

/-- Drain the deferred schedules and rollups of every shard. -/
def drainRechecks : List Action :=
  [.drainScheduleRechecks Scan.plain 100 ShardRange.full, .drainRollupRechecks Scan.plain 100 ShardRange.full]

/-- What a worker returns when all goes well: a teardown strips the finalizer of its kind. -/
def finished (t : WorkTask) : OutboxRow :=
  { success t with finalizerName := if t.taskType = .delete then some (t.kind ++ "/destroy") else none }

/-- A script: what clients do next depends on the state they find. -/
abbrev Script := List (Db → List Action)

def Script.play [Postgres] (db : Db) : Script → List Action
  | [] => []
  | next :: rest => next db ++ Script.play (run db (next db)) rest

/-- Every task of `kind` handed out so far composes `out`. -/
def composes (kind : String) (grace : String → Nat) (finalizer : String → String)
    (out : ComposeOutput) (db : Db) : List Action :=
  (db.tasks.filter (·.kind = kind)).map (composed grace finalizer out)

/-- Every task of `kind` handed out so far returns its result, and the results are drained. -/
def returns (kind : String) (result : WorkTask → OutboxRow) (db : Db) : List Action :=
  ((db.tasks.filter (·.kind = kind)).map fun t => .appendOutbox (result t)) ++ [drainAll]

end Converge.Kernel
