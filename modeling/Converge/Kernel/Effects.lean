/-
# Kernel.Effects -- what a statement can do to the database

Every function of the model is a sequence of a few primitive effects: rows of
`resources` are inserted, updated in one of seven ways, or deleted with their cascade;
queue rows are enqueued with a snapshot of their resource, repointed, claimed, freed,
touched or removed; results are appended and popped; operations are recorded and
finalized; the leased rows of a range are counted again; everything else is `aux`.

`Effect` says this once, guards included: an enqueue names its cause, and what the row
must be for that cause.  The lemmas below confine each function to the effects it has.
Invariants are then proved effect by effect and hold of every function, `step_effects`
giving the last word for a whole action.
-/
import Converge.Theory.Transition
import Converge.Kernel.System

namespace Converge.Kernel

open Converge.Theory List

set_option autoImplicit false
set_option linter.unusedSectionVars false

variable [Postgres] {r r' : Resource}

/-! ## Updates of a resource row -/

/-- The columns only an INSERT writes. -/
structure SameRow (r r' : Resource) : Prop where
  id : r'.id = r.id
  kind : r'.kind = r.kind
  name : r'.name = r.name
  ownerId : r'.ownerId = r.ownerId
  rootId : r'.rootId = r.rootId

/-- An update of bookkeeping columns: labels, freeze, manifest version, config
reference, timestamps, and at most a reset of `composed_gen`.  It lifts no quarantine. -/
structure Quiet (r r' : Resource) : Prop extends SameRow r r' where
  spec : r'.spec = r.spec
  kindVersion : r'.kindVersion = r.kindVersion
  status : r'.status = r.status
  generation : r'.generation = r.generation
  syncedGen : r'.syncedGen = r.syncedGen
  healthOk : r'.healthOk = r.healthOk
  failureGen : r'.failureGen = r.failureGen
  failureTerminal : r'.failureTerminal = r.failureTerminal
  failureAttempts : r'.failureAttempts = r.failureAttempts
  finalizers : r'.finalizers = r.finalizers
  deletionRequestedAt : r'.deletionRequestedAt = r.deletionRequestedAt
  composedGen : r'.composedGen = r.composedGen ∨ r'.composedGen = 0
  quarantine : r.frozenUntil = some .infinity → r'.frozenUntil = some .infinity

/-- A write of spec, kind version or config reference: the next generation. -/
structure Written (r r' : Resource) : Prop extends SameRow r r' where
  generation : r'.generation = r.generation + 1
  status : r'.status = r.status
  syncedGen : r'.syncedGen = r.syncedGen
  healthOk : r'.healthOk = r.healthOk
  composedGen : r'.composedGen = r.composedGen
  failureGen : r'.failureGen = r.failureGen
  failureTerminal : r'.failureTerminal = r.failureTerminal
  failureAttempts : r'.failureAttempts = r.failureAttempts
  finalizers : r'.finalizers = r.finalizers
  deletionRequestedAt : r'.deletionRequestedAt = r.deletionRequestedAt
  frozenUntil : r'.frozenUntil = r.frozenUntil

/-- The ways an UPDATE changes a row. -/
inductive RowKind where
  | quiet
  | write
  | mark
  | thaw (id : Uuid)
  | stamp
  | strip (results : List OutboxRow)
  | result (results : List OutboxRow)

/-- `o` is a drained teardown that strips finalizer `f` from `r`. -/
structure Strips (db : Db) (o : OutboxRow) (r : Resource) (f : String) : Prop where
  drained : o ∈ db.drained
  taskType : o.taskType = .delete
  succeeded : o.succeeded = true
  resourceId : o.resourceId = r.id
  finalizerName : o.finalizerName = some f

/-- `o` is a drained reconcile result of `r`. -/
structure ResultOf (db : Db) (o : OutboxRow) (r : Resource) : Prop where
  drained : o ∈ db.drained
  taskType : o.taskType = .reconcile
  resourceId : o.resourceId = r.id

/-- `o` is a success that advances the row of `id` to the generation it observed. -/
structure Advances (id : Uuid) (o : OutboxRow) : Prop where
  taskType : o.taskType = .reconcile
  succeeded : o.succeeded = true
  advances : o.advanceSyncedGen = true
  resourceId : o.resourceId = id

def RowStep (db : Db) (r r' : Resource) : RowKind → Prop
  | .quiet => Quiet r r'
  | .write => Written r r'
  | .mark => r.marked = false ∧ r' = markRow db r
  | .thaw id => r.id = id ∧ r' = { r with frozenUntil := none, updatedAt := db.now }
  | .stamp => ∃ t ∈ db.tasks, t.resourceId = r.id ∧ r' = { r with composedGen := t.generation }
  | .strip results => ∃ o ∈ results, ∃ f, Strips db o r f ∧
      r' = { r with finalizers := r.finalizers.filter (· ≠ f), updatedAt := db.now }
  | .result results => ∃ o ∈ results, ResultOf db o r ∧ r' = applyResult db o r

theorem RowStep.same {db : Db} {k : RowKind} (h : RowStep db r r' k) : SameRow r r' := by
  cases k with
  | quiet => exact Quiet.toSameRow h
  | write => exact Written.toSameRow h
  | mark | thaw id =>
    obtain ⟨-, rfl⟩ := h
    constructor <;> rfl
  | stamp | result results =>
    obtain ⟨_, -, -, rfl⟩ := h
    constructor <;> rfl
  | strip results =>
    obtain ⟨o, -, f, -, rfl⟩ := h
    constructor <;> rfl

/-! ## Causes -/

/-- Why a task is queued: the row is eligible; an UPDATE `u` of a descendant re-pends its
root; a settled row is due for a resync; an operation was accepted; a marked row has a
finalizer. -/
inductive Cause where
  | scheduled
  | rolled (u : Updated)
  | resynced
  | operation
  | teardown

def Cause.taskType : Cause → TaskType
  | .scheduled | .rolled _ | .resynced => .reconcile
  | .operation => .operate
  | .teardown => .delete

theorem Cause.eq_teardown {cause : Cause} (type : cause.taskType = .delete) : cause = .teardown := by
  cases cause <;> first | rfl | cases type

/-- The trigger of the update turns to the root of the row. -/
def Updated.Stirs (u : Updated) : Prop := u.demoted = true ∨ u.upgraded = true

/-- An update stirs nothing that leaves health and counters alone, and makes no old failure one of the
current generation. -/
theorem not_stirs (generation : r.generation ≤ r'.generation)
    (syncedGen : r'.syncedGen = r.syncedGen) (healthOk : r'.healthOk = r.healthOk)
    (failureGen : r'.failureGen = r'.generation → r.failureGen = r.generation) : ¬ Updated.Stirs ⟨r, r'⟩ := by
  rintro (demoted | upgraded)
  · simp only [Updated.demoted, Updated.newlyFailed, healthOk, Bool.or_eq_true, Bool.and_eq_true,
      Bool.not_eq_true', decide_eq_true_eq] at demoted
    rcases demoted with ⟨sick, well⟩ | ⟨now, before⟩
    · rw [sick] at well
      cases well
    · exact before (failureGen now)
  · simp only [Updated.upgraded, syncedGen, Bool.and_eq_true, decide_eq_true_eq] at upgraded
    omega

/-- Nor does a new generation, unless a failure was ahead of the old one. -/
theorem Written.not_stirs (h : Written r r') (bound : r.failureGen ≤ r.generation) :
    ¬ Updated.Stirs ⟨r, r'⟩ := by
  have next := h.generation
  refine Kernel.not_stirs (by omega) h.syncedGen h.healthOk fun now => ?_
  rw [h.failureGen] at now
  omega

/-- The update is that of a result. -/
def Updated.Reported (results : List OutboxRow) (u : Updated) : Prop :=
  ∃ o ∈ results, o.taskType = .reconcile ∧ o.resourceId = u.old.id ∧ ∃ db : Db, u.new = applyResult db o u.old

/-- Neither a new generation nor a result. -/
def RowKind.Still : RowKind → Prop
  | .write | .result _ => False
  | _ => True

/-- What such an update keeps: the spec, the counters and a mark. -/
structure SameAxes (r r' : Resource) : Prop where
  spec : r'.spec = r.spec
  kindVersion : r'.kindVersion = r.kindVersion
  status : r'.status = r.status
  generation : r'.generation = r.generation
  syncedGen : r'.syncedGen = r.syncedGen
  healthOk : r'.healthOk = r.healthOk
  failureGen : r'.failureGen = r.failureGen
  failureTerminal : r'.failureTerminal = r.failureTerminal
  failureAttempts : r'.failureAttempts = r.failureAttempts
  marked : r.marked = true → r'.marked = true

theorem Quiet.sameAxes (q : Quiet r r') : SameAxes r r' := by
  refine ⟨q.spec, q.kindVersion, q.status, q.generation, q.syncedGen, q.healthOk, q.failureGen,
    q.failureTerminal, q.failureAttempts, fun marked => ?_⟩
  rwa [Resource.marked, q.deletionRequestedAt]

theorem RowStep.sameAxes {db : Db} {k : RowKind} (h : RowStep db r r' k) (still : k.Still) : SameAxes r r' := by
  cases k with
  | quiet => exact Quiet.sameAxes h
  | mark =>
    obtain ⟨-, rfl⟩ := h
    exact ⟨rfl, rfl, rfl, rfl, rfl, rfl, rfl, rfl, rfl, fun _ => rfl⟩
  | thaw id =>
    obtain ⟨-, rfl⟩ := h
    exact ⟨rfl, rfl, rfl, rfl, rfl, rfl, rfl, rfl, rfl, fun h => h⟩
  | stamp =>
    obtain ⟨t, -, -, rfl⟩ := h
    exact ⟨rfl, rfl, rfl, rfl, rfl, rfl, rfl, rfl, rfl, fun h => h⟩
  | strip results =>
    obtain ⟨o, -, f, -, rfl⟩ := h
    exact ⟨rfl, rfl, rfl, rfl, rfl, rfl, rfl, rfl, rfl, fun h => h⟩
  | write | result _ => exact still.elim

theorem SameAxes.not_stirs (same : SameAxes r r') : ¬ Updated.Stirs ⟨r, r'⟩ := by
  refine Kernel.not_stirs same.generation.ge same.syncedGen same.healthOk fun now => ?_
  rwa [same.failureGen, same.generation] at now

/-! ## Effects -/

inductive Label where
  | aux
  | ops
  | insert (owner : Option Uuid)
  | row (kind : RowKind)
  | delete
  | relabel
  | rewire
  | enqueue (cause : Cause)
  | repoint
  | claim
  | reap
  | release
  | touch
  | remove (only : Option TaskType)
  | append
  | pop (results : List OutboxRow)
  | finalize (results : List OutboxRow)
  | recount

/-- An operation that has an outcome. -/
def ResourceOperation.final (op : ResourceOperation) : Prop :=
  op.state = .succeeded ∨ op.state = .failed

/-- `v` logs the current generation of its row. -/
def SpecVersion.Current (db : Db) (v : SpecVersion) : Prop :=
  ∃ r ∈ db.resources, r.id = v.resourceId ∧ r.generation = v.generation

/-- `db'` differs from `db` in no table the guarantees are about, up to log entries of
current generations. -/
structure SameCore (db db' : Db) : Prop where
  resources : db'.resources = db.resources
  deps : db'.deps = db.deps
  workQueue : db'.workQueue = db.workQueue
  workOutbox : db'.workOutbox = db.workOutbox
  tasks : db'.tasks = db.tasks
  drained : db'.drained = db.drained
  drawn : db.drawn ≤ db'.drawn
  operations : db'.operations = db.operations
  kindInflight : db'.kindInflight = db.kindInflight
  log : ∀ v ∈ db'.specVersions, v ∈ db.specVersions ∨ v.Current db

/-- A row as an INSERT leaves it: first generation, no history, its owner present, in
the tree of its owner. -/
structure Born (db : Db) (r : Resource) : Prop where
  id : r.id = Postgres.randomUuid db.drawn
  generation : r.generation = 1
  syncedGen : r.syncedGen = 0
  failureGen : r.failureGen = 0
  failureTerminal : r.failureTerminal = false
  failureAttempts : r.failureAttempts = 0
  composedGen : r.composedGen = 0
  finalizers : r.finalizers = []
  deletionRequestedAt : r.deletionRequestedAt = none
  frozenUntil : r.frozenUntil = none
  owner : ∀ id, r.ownerId = some id → ∃ p ∈ db.resources, p.id = id ∧ r.rootId = some (p.rootId.getD p.id)
  root : r.ownerId = none → r.rootId = none

/-- `w` copies generation, spec and kind version of `r`. -/
structure Snapshots (w : WorkQueueRow) (r : Resource) : Prop where
  resourceId : w.resourceId = r.id
  generation : w.generation = r.generation
  spec : w.spec = some r.spec
  kindVersion : w.kindVersion = r.kindVersion

/-- What a row must be for a task of it to be queued. -/
def Resource.Takes (db : Db) (r : Resource) : Cause → Prop
  | .scheduled => eligible db r = true
  | .rolled u => u.new ∈ db.resources ∧ u.new.rootId = some r.id ∧ r.marked = false ∧
      r.frozen = false ∧ (u.demoted = true ∨ u.upgraded = true ∧ r.ownerId = none ∧ r.generation ≤ r.syncedGen)
  | .resynced => r.marked = false ∧ r.frozen = false ∧ r.generation ≤ r.syncedGen
  | .operation => r.frozen = false
  | .teardown => r.marked = true

/-- A new queue row: unclaimed, with the current snapshot of a resource that takes it; only
the task of an operation names one. -/
structure Enqueued (db : Db) (cause : Cause) (w : WorkQueueRow) : Prop where
  id : w.id = Postgres.randomUuid db.drawn
  free : w.brokerId = none
  taskType : w.taskType = cause.taskType
  opId : cause ≠ .operation → w.opId = none
  snapshot : ∃ r ∈ db.resources, Snapshots w r ∧ r.Takes db cause

/-- An update of queue columns no fence reads. -/
structure Touched (q q' : WorkQueueRow) : Prop where
  id : q'.id = q.id
  resourceId : q'.resourceId = q.resourceId
  taskType : q'.taskType = q.taskType
  opId : q'.opId = q.opId
  kind : q'.kind = q.kind
  kindVersion : q'.kindVersion = q.kindVersion
  generation : q'.generation = q.generation
  spec : q'.spec = q.spec
  brokerId : q'.brokerId = q.brokerId
  manifestVersion : q'.manifestVersion = q.manifestVersion
  claimEpoch : q'.claimEpoch = q.claimEpoch

/-- Two versions of one edge: its ends and flows. -/
structure SameEnds (d e : ResourceDep) : Prop where
  dependentId : d.dependentId = e.dependentId
  dependencyId : d.dependencyId = e.dependencyId
  valueFlows : d.valueFlows = e.valueFlows

theorem SameEnds.refl (d : ResourceDep) : SameEnds d d := ⟨rfl, rfl, rfl⟩

theorem SameEnds.trans {d e f : ResourceDep} (first : SameEnds d e) (second : SameEnds e f) : SameEnds d f :=
  ⟨first.dependentId.trans second.dependentId, first.dependencyId.trans second.dependencyId,
    first.valueFlows.trans second.valueFlows⟩

inductive Effect : Label → Db → Db → Prop
  | aux {db db' : Db} (same : SameCore db db') : Effect .aux db db'
  | ops {db : Db} (t : Table ResourceOperation) (n : Nat) (grows : db.drawn ≤ n)
      (unsettled : ∀ op ∈ t, op.final → op ∈ db.operations) :
      Effect .ops db { db with operations := t, drawn := n }
  | insert {db : Db} (r : Resource) (born : Born db r) (free : ¬ db.resources.Occupied r) :
      Effect (.insert r.ownerId) db { db with resources := db.resources.push r free, drawn := db.drawn + 1 }
  | row {db : Db} (k : RowKind) (p : Resource → Bool) (f : Resource → Resource)
      (keeps : ∀ r, Keyed.key (f r) = Keyed.key r)
      (rows : ∀ r ∈ db.resources, p r = true → RowStep db r (f r) k) :
      Effect (.row k) db { db with resources := db.resources.updateWhere p f keeps }
  | delete {db : Db} (ids : List Uuid) : Effect .delete db (deleteResources db ids)
  | relabel {db : Db} (t : Table ResourceDep) (same : ∀ d ∈ t, ∃ e ∈ db.deps, SameEnds d e) :
      Effect .relabel db { db with deps := t }
  | rewire {db : Db} (t : Table ResourceDep) : Effect .rewire db { db with deps := t }
  | enqueue {db : Db} (cause : Cause) (w : WorkQueueRow) (new : Enqueued db cause w)
      (free : ¬ db.workQueue.Occupied w) :
      Effect (.enqueue cause) db { db with workQueue := db.workQueue.push w free, drawn := db.drawn + 1 }
  | repoint {db : Db} (r : Resource) (here : r ∈ db.resources) (ready : eligible db r = true) :
      Effect .repoint db { db with
        workQueue := db.workQueue.updateWhere (outdatedBy (workFor db .reconcile r))
          (repoint (workFor db .reconcile r)) (fun _ => rfl) }
  | claim {db : Db} (scan : Scan Uuid) (b : TakeBatch) : Effect .claim db (workQueueTakeBatch db scan b)
  | reap {db : Db} (p : WorkQueueRow → Bool)
      (unfinished : ∀ q ∈ db.workQueue, p q = true → ∀ o ∈ db.workOutbox, o.workId ≠ q.id) :
      Effect .reap db (freeWhere db p)
  | release {db : Db} (p : WorkQueueRow → Bool) : Effect .release db (freeWhere db p)
  | touch {db : Db} (p : WorkQueueRow → Bool) (f : WorkQueueRow → WorkQueueRow)
      (keeps : ∀ q, Keyed.key (f q) = Keyed.key q) (rows : ∀ q, Touched q (f q)) :
      Effect .touch db { db with workQueue := db.workQueue.updateWhere p f keeps }
  | remove {db : Db} (only : Option TaskType) (p : WorkQueueRow → Bool)
      (unclaimed : ∀ q ∈ db.workQueue, p q = true → q.brokerId = none)
      (typed : ∀ q ∈ db.workQueue, p q = true → ∀ taskType, only = some taskType → q.taskType = taskType) :
      Effect (.remove only) db { db with workQueue := db.workQueue.deleteWhere p }
  | append {db : Db} (o : OutboxRow) (claimed : o.task ∈ db.tasks)
      (token : ∃ q ∈ db.workQueue, tokenMatches o q = true) (free : ¬ db.workOutbox.Occupied o) :
      Effect .append db { db with workOutbox := db.workOutbox.push o free }
  | pop {db : Db} (results : List OutboxRow) (waiting : ∀ o ∈ results, o ∈ db.workOutbox)
      (distinct : results.Nodup) : Effect (.pop results) db (takeResults db results)
  | finalize {db : Db} (results : List OutboxRow) (drained : ∀ o ∈ results, o ∈ db.drained) :
      Effect (.finalize results) db (finalizeOperations db results)
  | recount {db : Db} (range : ShardRange) : Effect .recount db (recountInflight db range)

abbrev Effects (allow : Label → Prop) : Db → Db → Prop := Steps Effect allow

/-- What a function may do that leaves the tree of resources, its edges, its marks, its
quarantines and its generations alone and queues eligible rows only; a new root is no change
to the tree. -/
def Label.Calm : Label → Prop
  | .aux | .relabel | .repoint | .touch | .row .quiet | .row .stamp | .enqueue .scheduled => True
  | .insert owner => owner = none
  | .remove only => only = some .reconcile
  | _ => False

/-- What a function may do that also writes specs. -/
def Label.Wrote : Label → Prop
  | .row .write => True
  | .enqueue (.rolled u) => Written u.old u.new
  | l => l.Calm

/-- What a teardown may do: a calm function that also marks and removes rows and queues
their teardowns. -/
def Label.Sweeps : Label → Prop
  | .delete | .row .mark | .enqueue .teardown => True
  | l => l.Calm

/-- What a compose may do: it writes, tears down and also adds children and edges. -/
def Label.Plain : Label → Prop
  | .insert _ | .rewire | .delete | .row .mark | .enqueue .teardown => True
  | l => l.Wrote

/-- What every function may do but a compose: neither a child nor an edge is added. -/
def Label.Rooted : Label → Prop
  | .insert owner => owner = none
  | .rewire => False
  | _ => True

/-- What a drain of `results` may do. -/
def Label.Drains (results : List OutboxRow) : Label → Prop
  | .pop rs | .finalize rs | .row (.strip rs) | .row (.result rs) => rs = results
  | .row .write => True
  | .enqueue (.rolled u) => Written u.old u.new ∨ u.Reported results
  | l => l.Sweeps

/-- What the steps of a drain before the reconcile results may do. -/
def Label.Tears (results : List OutboxRow) (l : Label) : Prop :=
  l.Drains results ∧ ∀ rs, l ≠ .row (.result rs)

variable {db db' : Db} {allow : Label → Prop} {f : Resource → Resource} {p : Resource → Bool} {l : Label}
    {rows : List Resource} {taskType : TaskType} {k : RowKind} {cause : Cause} {results : List OutboxRow}

theorem Label.Calm.wrote (h : l.Calm) : l.Wrote := by
  cases l with
  | row k => cases k <;> first | exact h | exact trivial
  | enqueue cause => cases cause <;> first | exact h | exact h.elim
  | _ => exact h

theorem Label.Calm.sweeps (h : l.Calm) : l.Sweeps := by
  cases l with
  | row k => cases k <;> first | exact h | exact trivial
  | enqueue cause => cases cause <;> first | exact h | exact trivial
  | delete => exact trivial
  | _ => exact h

theorem Label.Wrote.plain (h : l.Wrote) : l.Plain := by
  cases l with
  | insert _ | rewire | delete => exact trivial
  | row k => cases k <;> first | exact h | exact trivial
  | enqueue cause => cases cause <;> first | exact h | exact trivial
  | _ => exact h

theorem Label.Sweeps.plain (h : l.Sweeps) : l.Plain := by
  cases l with
  | insert _ | rewire | delete => exact trivial
  | row k => cases k <;> first | exact h | exact trivial
  | enqueue cause => cases cause <;> first | exact h | exact h.elim
  | _ => exact h

theorem Label.Calm.plain (h : l.Calm) : l.Plain := h.sweeps.plain

theorem Label.Sweeps.rooted (h : l.Sweeps) : l.Rooted := by
  cases l with
  | insert owner => exact h
  | rewire => exact h.elim
  | _ => trivial

theorem Label.Sweeps.drains (h : l.Sweeps) : l.Drains results := by
  cases l with
  | row k => cases k <;> first | exact h | exact h.elim
  | enqueue cause => cases cause <;> first | exact h | exact h.elim
  | pop _ | finalize _ => exact h.elim
  | _ => exact h

theorem Label.Sweeps.tears (h : l.Sweeps) : l.Tears results := by
  refine ⟨h.drains, ?_⟩
  rintro rs rfl
  exact h

theorem Label.Drains.rooted (h : l.Drains results) : l.Rooted := by
  cases l with
  | insert owner => exact h
  | rewire => exact h.elim
  | _ => trivial

theorem Effect.tasks_subset (effect : Effect l db db') : db.tasks ⊆ db'.tasks := by
  cases effect with
  | aux same => exact fun t h => same.tasks ▸ h
  | claim scan b => exact subset_append_right _ _
  | _ => exact fun _ h => h

theorem Effects.tasks_subset (run : Effects allow db db') : db.tasks ⊆ db'.tasks :=
  Steps.relates (I := fun _ => True) (R := fun a b => a.tasks ⊆ b.tasks)
    (fun _ => List.Subset.refl _) List.Subset.trans (fun _ _ => id)
    (fun _ effect _ => effect.tasks_subset) run trivial

theorem effects_aux (same : SameCore db db') : Effects Label.Calm db db' :=
  Steps.one (l := .aux) trivial (.aux same)

/-! ## Scheduling -/

theorem Snapshots.workFor (db : Db) (taskType : TaskType) (r : Resource) :
    Snapshots (workFor db taskType r) r := by
  constructor <;> rfl

theorem eligible_congr (resources : db'.resources = db.resources)
    (deps : db'.deps = db.deps) : eligible db' r = eligible db r := by
  simp only [eligible, upstreamLagging, rollupBlocked, Db.resource?, resources, deps]

theorem Resource.Takes.congr (resources : db'.resources = db.resources)
    (deps : db'.deps = db.deps) (takes : r.Takes db cause) : r.Takes db' cause := by
  cases cause with
  | scheduled => exact (eligible_congr resources deps).trans takes
  | rolled u => exact ⟨resources ▸ takes.1, takes.2⟩
  | _ => exact takes

/-- `r`, or what it has become, is stored with the columns a snapshot copies and takes a
task that may be queued. -/
def Current (allow : Label → Prop) (db : Db) (taskType : TaskType) (r : Resource) : Prop :=
  ∃ cause, allow (.enqueue cause) ∧ cause.taskType = taskType ∧
    ∃ r' ∈ db.resources, Snapshots (workFor db taskType r) r' ∧ r'.Takes db cause

theorem Current.of_mem {c : Cause} (ok : allow (.enqueue c))
    (here : r ∈ db.resources) (takes : r.Takes db c) : Current allow db c.taskType r :=
  ⟨c, ok, rfl, r, here, .workFor db c.taskType r, takes⟩

theorem effects_insertNew {c : Cause} {w : WorkQueueRow} (aux : allow .aux)
    (ok : allow (.enqueue c)) (new : Enqueued db c w) : Effects allow db
      { db with workQueue := db.workQueue.insertNew w, drawn := db.drawn + 1 } := by
  by_cases free : ¬ db.workQueue.Occupied w
  · have push : db.workQueue.insertNew w = db.workQueue.push w free := by
      simp [Table.insertNew, free]
    rw [push]
    exact Steps.one ok (.enqueue c w new free)
  · have same : db.workQueue.insertNew w = db.workQueue := by
      simp only [Table.insertNew, dif_neg free]
    rw [same]
    exact Steps.one aux (.aux ⟨rfl, rfl, rfl, rfl, rfl, rfl, Nat.le_succ _, rfl, rfl, fun _ => .inl⟩)

theorem enqueueNew_effects (aux : allow .aux)
    (here : Current allow db taskType r) : Effects allow db (enqueueNew taskType db r) := by
  obtain ⟨cause, ok, type, snapshot⟩ := here
  exact effects_insertNew aux ok ⟨rfl, rfl, type.symm, fun _ => rfl, snapshot⟩

theorem enqueueEligible_effects (here : r ∈ db.resources)
    (ready : eligible db r = true) : Effects Label.Calm db (enqueueEligible db r) := by
  refine Steps.trans (Steps.one (l := .repoint) trivial (.repoint r here ready)) ?_
  exact effects_insertNew (c := .scheduled) trivial trivial
    ⟨rfl, rfl, rfl, fun _ => rfl, r, here, .workFor db .reconcile r, ready⟩

@[simp] theorem mem_byId : r ∈ byId rows ↔ r ∈ rows := by
  simp [byId]

theorem eligible_unmarked (h : eligible db r = true) : r.marked = false := by
  simp only [eligible, Bool.and_eq_true, Bool.not_eq_true'] at h
  exact h.1.1.1.1.2

theorem eligible_unfrozen (h : eligible db r = true) : r.frozen = false := by
  simp only [eligible, Bool.and_eq_true, Bool.not_eq_true'] at h
  exact h.1.1.1.2

theorem Enqueued.reconcile {w : WorkQueueRow} (new : Enqueued db cause w) (type : w.taskType = .reconcile) :
    ∃ r ∈ db.resources, Snapshots w r ∧ r.marked = false ∧ r.frozen = false := by
  obtain ⟨r, here, snap, takes⟩ := new.snapshot
  refine ⟨r, here, snap, ?_⟩
  cases cause with
  | scheduled => exact ⟨eligible_unmarked takes, eligible_unfrozen takes⟩
  | rolled u => exact ⟨takes.2.2.1, takes.2.2.2.1⟩
  | resynced => exact ⟨takes.1, takes.2.1⟩
  | operation | teardown => exact absurd (new.taskType.symm.trans type) nofun

theorem scheduleEligible_effects (db : Db) (ids : List Uuid) :
    Effects Label.Calm db (scheduleEligible db ids) := by
  refine (Steps.foldl (P := fun s => s.resources = db.resources ∧ s.deps = db.deps) ?_ ⟨rfl, rfl⟩).1
  intro s r same listed
  obtain ⟨here, picked⟩ := mem_filter.mp (mem_byId.mp listed)
  rw [Bool.and_eq_true] at picked
  refine ⟨enqueueEligible_effects (same.1 ▸ here) ?_, same⟩
  rw [eligible_congr same.1 same.2]
  exact picked.2

/-- A loop of `DO NOTHING` enqueues of rows that stay current. -/
theorem enqueueAll_effects (aux : allow .aux) (here : ∀ r ∈ rows, Current allow db taskType r) :
    Effects allow db (rows.foldl (enqueueNew taskType) db) := by
  refine (Steps.foldl (P := fun s => s.resources = db.resources ∧ s.deps = db.deps) ?_ ⟨rfl, rfl⟩).1
  intro s r same listed
  refine ⟨enqueueNew_effects aux ?_, same⟩
  obtain ⟨cause, ok, type, r', mem, snap, takes⟩ := here r listed
  exact ⟨cause, ok, type, r', same.1 ▸ mem,
    ⟨snap.resourceId, snap.generation, snap.spec, snap.kindVersion⟩, takes.congr same.1 same.2⟩

theorem effects_of_only (only : OnlySchedules db db') (queue : db'.workQueue = db.workQueue)
    (drawn : db.drawn ≤ db'.drawn) : Effects Label.Calm db db' :=
  effects_aux ⟨only.resources, only.deps, queue, only.workOutbox, only.tasks, only.drained, drawn,
    only.operations, only.kindInflight, fun _ here => .inl (only.specVersions ▸ here)⟩

theorem emit_effects (transition : Transition) (db : Db) (r : Resource) :
    Effects Label.Calm db (emit transition db r) :=
  effects_of_only (emit_only _ _ _) rfl (Nat.le_refl _)

theorem emitAll_effects {f : Db → Resource → Db} (each : ∀ db r, Effects Label.Calm db (f db r))
    (rows : List Resource) (db : Db) : Effects Label.Calm db (rows.foldl f db) :=
  (Steps.foldl (P := fun _ => True) (fun _ _ => ⟨each _ _, trivial⟩) trivial).1

/-! ## The trigger -/

section Trigger

variable {updated : List Updated}

variable (calm : ∀ l, l.Calm → allow l) (rolled : ∀ u ∈ updated, u.Stirs → allow (.enqueue (.rolled u)))
    (stored : ∀ u ∈ updated, u.new ∈ db.resources)

include calm rolled stored

theorem repend_effects {q : Updated → Bool} {p : Resource → Bool}
    (ready : ∀ r, p r = true → r.marked = false ∧ r.frozen = false ∧ ∀ u, q u = true → u.demoted = true ∨
        u.upgraded = true ∧ r.ownerId = none ∧ r.generation ≤ r.syncedGen) :
    Effects allow db (repend db (((updated.filter q).map (·.new)).filterMap (·.rootId)) p) := by
  refine enqueueAll_effects (calm _ trivial) ?_
  intro r listed
  obtain ⟨here, picked⟩ := mem_filter.mp (mem_byId.mp listed)
  simp only [Bool.and_eq_true, decide_eq_true_eq, mem_filterMap, mem_map, mem_filter] at picked
  obtain ⟨⟨-, ⟨u, ⟨one, chosen⟩, rfl⟩, rooted⟩, live⟩ := picked
  obtain ⟨unmarked, unfrozen, why⟩ := ready r live
  have cause := why u chosen
  exact Current.of_mem (rolled u one (cause.imp_right And.left)) here
    ⟨stored u one, rooted, unmarked, unfrozen, cause⟩

theorem onUpgraded_effects :
    Effects allow db (onUpgraded db ((updated.filter (·.upgraded)).map (·.new))) := by
  refine Steps.trans ?_ ((emitAll_effects (emit_effects .synced) _ _).mono calm)
  refine Steps.trans ?_ (repend_effects calm rolled ?_ ?_)
  · refine Steps.mono calm (Steps.trans ?_ (effects_of_only (armRollupRecheck_only _ _) rfl (Nat.le_refl _)))
    exact scheduleEligible_effects _ _
  · intro u one
    rw [(armRollupRecheck_only _ _).resources, (scheduleEligible_only _ _).resources]
    exact stored u one
  · intro r settled
    simp only [Bool.and_eq_true, Bool.not_eq_true', decide_eq_true_eq, Option.isNone_iff_eq_none]
      at settled
    exact ⟨settled.1.2, settled.2, fun u upgraded => .inr ⟨upgraded, settled.1.1⟩⟩

theorem onDemoted_effects :
    Effects allow db (onDemoted db ((updated.filter (·.demoted)).map (·.new))) := by
  unfold onDemoted
  simp only
  split
  · exact .refl
  · refine Steps.trans (repend_effects calm rolled stored ?_)
      ((emitAll_effects (fun db r => emit_effects (demotion r) db r) _ _).mono calm)
    intro r live
    simp only [Bool.and_eq_true, Bool.not_eq_true'] at live
    exact ⟨live.1, live.2, fun u demoted => .inl demoted⟩

theorem cascadeOnReadyChange_effects : Effects allow db (cascadeOnReadyChange db updated) := by
  refine (onUpgraded_effects calm rolled stored).trans (onDemoted_effects calm rolled ?_)
  intro u one
  rw [(onUpgraded_only _ _).resources]
  exact stored u one

end Trigger

/-- What the trigger of an UPDATE does once its rows are written. -/
theorem triggered_effects {keeps : ∀ r, Keyed.key (f r) = Keyed.key r} (calm : ∀ l, l.Calm → allow l)
    (rolled : ∀ r ∈ db.resources, p r = true → Updated.Stirs ⟨r, f r⟩ → allow (.enqueue (.rolled ⟨r, f r⟩))) :
    Effects allow { db with resources := db.resources.updateWhere p f keeps }
      (updateResources db p f keeps) := by
  refine cascadeOnReadyChange_effects calm ?_ ?_
  · intro u one
    obtain ⟨r, picked, rfl⟩ := mem_map.mp one
    obtain ⟨here, hit⟩ := mem_filter.mp picked
    exact rolled r here hit
  · intro u one
    obtain ⟨r, picked, rfl⟩ := mem_map.mp one
    obtain ⟨here, hit⟩ := mem_filter.mp picked
    rw [Table.mem_updateWhere]
    exact ⟨r, here, if_pos hit⟩

/-- An UPDATE of resources is its row effect, then scheduling. -/
theorem updateResources_effects {keeps : ∀ r, Keyed.key (f r) = Keyed.key r} (calm : ∀ l, l.Calm → allow l)
    (ok : allow (.row k))
    (rolled : ∀ r ∈ db.resources, p r = true → Updated.Stirs ⟨r, f r⟩ → allow (.enqueue (.rolled ⟨r, f r⟩)))
    (rows : ∀ r ∈ db.resources, p r = true → RowStep db r (f r) k) :
    Effects allow db (updateResources db p f keeps) :=
  (Steps.one ok (.row k p f keeps rows)).trans (triggered_effects calm rolled)

theorem still_effects
    {keeps : ∀ r, Keyed.key (f r) = Keyed.key r} (calm : ∀ l, l.Calm → allow l) (ok : allow (.row k))
    (still : k.Still) (rows : ∀ r ∈ db.resources, p r = true → RowStep db r (f r) k) :
    Effects allow db (updateResources db p f keeps) := by
  refine updateResources_effects calm ok ?_ rows
  intro r here picked stirs
  exact absurd stirs ((rows r here picked).sameAxes still).not_stirs

theorem update_effects {keeps : ∀ r, Keyed.key (f r) = Keyed.key r} (ok : (Label.row k).Calm)
    (rows : ∀ r ∈ db.resources, p r = true → RowStep db r (f r) k) :
    Effects Label.Calm db (updateResources db p f keeps) := by
  refine still_effects (fun _ h => h) ok ?_ rows
  cases k <;> first | exact trivial | exact ok

/-! ## Writing specs -/

/-- No failure is ahead of the generation of its row. -/
def Db.Bounded (db : Db) : Prop := ∀ r ∈ db.resources, r.failureGen ≤ r.generation

/-- What a function that writes specs may do.  The trigger of a write stirs a root only if
a failure was ahead of its row's generation: from a state where none can be, in whatever way
it goes on, nothing need be allowed. -/
structure Writable (allow : Label → Prop) (db : Db) : Prop where
  calm : ∀ l, l.Calm → allow l
  write : allow (.row .write)
  rolled : ∀ s, Effects (fun _ => True) db s →
    s.Bounded ∨ ∀ u : Updated, Written u.old u.new → allow (.enqueue (.rolled u))

theorem Writable.of_all (calm : ∀ l, l.Calm → allow l) (write : allow (.row .write))
    (rolled : ∀ u : Updated, Written u.old u.new → allow (.enqueue (.rolled u))) : Writable allow db :=
  ⟨calm, write, fun _ _ => .inr rolled⟩

theorem Writable.wrote (db : Db) : Writable Label.Wrote db :=
  .of_all (fun _ => Label.Calm.wrote) trivial fun _ h => h

theorem Writable.after {allow' : Label → Prop} (ok : Writable allow db)
    (run : Effects allow' db db') : Writable allow db' :=
  ⟨ok.calm, ok.write, fun s rest => ok.rolled s ((run.mono fun _ _ => trivial).trans rest)⟩

theorem write_effects {keeps : ∀ r, Keyed.key (f r) = Keyed.key r} (ok : Writable allow db)
    (rows : ∀ r ∈ db.resources, p r = true → Written r (f r)) :
    Effects allow db (updateResources db p f keeps) := by
  refine updateResources_effects ok.calm ok.write ?_ rows
  intro r here picked stirs
  rcases ok.rolled db .refl with bounded | allowed
  · exact absurd stirs ((rows r here picked).not_stirs (bounded r here))
  · exact allowed ⟨r, f r⟩ (rows r here picked)

theorem patchSpecs_effects {patches : List FlowPatch} (ok : Writable allow db)
    (done : patchSpecs db patches = some db') : Effects allow db db' := by
  unfold patchSpecs at done
  split at done
  · cases done
    refine write_effects ok ?_
    intro r _ _
    constructor <;> first | rfl | (constructor <;> rfl)
  · cases done

theorem applyValueFlows_effects {order : Nat → Nat} {ids : List Uuid}
    (ok : Writable allow db) (done : applyValueFlowsForDependents db order ids = some db') :
    Effects allow db db' :=
  patchSpecs_effects ok done

end Converge.Kernel
