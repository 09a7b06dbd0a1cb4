/-
# Kernel.Reactions -- the reaction engine, from a claimed task to its outbox row

A broker runs a claimed reconcile as up to three reactions: the composer while
`composed_gen` is behind, the worker, and the rollup once the descendants are settled.
Each is dispatched to a remote worker, whose answer comes back over the wire: a failure
as its text and whether it is terminal, a success as the parts its stage carries.  The
engine gathers status and conditions, applies the compose output in a transaction of its
own, and appends one row to the outbox.  Any error on the way is recorded as a failure
instead, by one of three helpers:

* `recordFailed` records it as transient whatever the error is;
* `recordFailedErr` asks the error;
* `recordFailedTerminal` is told, by the size limit alone.

The answers of store, workers and context are an argument (`ReactionEnv`).  The engine
is a `Journal` of its calls; the descendants it reads are those of `root_id`.
-/
import Converge.Kernel.Manifest
import Converge.Kernel.Compose
import Converge.Theory.Journal

namespace Converge.Kernel

open Converge.Theory List

set_option autoImplicit false

/-! ## Errors -/

/-- Errors the store exports, compared by identity. -/
inductive Sentinel where
  | composeClaimLost
  | invalidSpec
  deriving DecidableEq

def Sentinel.text : Sentinel → String
  | .composeClaimLost => "compose claim lost mid-flight"
  | .invalidSpec => "spec failed schema validation"

/-- An error chain: `fmt.Errorf` wraps one error or two, `model.Terminal` marks one. -/
inductive GoError where
  | sentinel (which : Sentinel)
  | new (text : String)
  | wrap (text : String) (inner : GoError)
  | join (text : String) (left right : GoError)
  | terminal (inner : GoError)
  deriving DecidableEq

namespace GoError

/-- `Error()`; a wrapper holds the text as formatted. -/
def message : GoError → String
  | sentinel which => which.text
  | new text | wrap text _ | join text _ _ => text
  | terminal inner => inner.message

/-- `IsTerminal`: `errors.As` goes down every branch. -/
def isTerminal : GoError → Bool
  | sentinel _ | new _ => false
  | wrap _ inner => inner.isTerminal
  | join _ left right => left.isTerminal || right.isTerminal
  | terminal _ => true

/-- `errors.Is`. -/
def is (target : Sentinel) : GoError → Bool
  | sentinel which => which = target
  | new _ => false
  | wrap _ inner | terminal inner => inner.is target
  | join _ left right => left.is target || right.is target

/-- `fmt.Errorf("<what>: %w", inner)`. -/
def errorf (what : String) (inner : GoError) : GoError := wrap (what ++ ": " ++ inner.message) inner

/-- `Terminal` was applied somewhere in the chain. -/
inductive Marked : GoError → Prop
  | here (inner : GoError) : Marked (terminal inner)
  | wrap {inner : GoError} (text : String) (deep : Marked inner) : Marked (wrap text inner)
  | left {l : GoError} (text : String) (r : GoError) (deep : Marked l) : Marked (join text l r)
  | right {r : GoError} (text : String) (l : GoError) (deep : Marked r) : Marked (join text l r)

theorem isTerminal_iff {e : GoError} : e.isTerminal = true ↔ Marked e := by
  constructor
  · intro found
    induction e with
    | sentinel which => cases found
    | new text => cases found
    | wrap text inner ih => exact .wrap text (ih found)
    | join text left right ihl ihr =>
      rcases Bool.or_eq_true_iff.mp found with l | r
      · exact .left text right (ihl l)
      · exact .right text left (ihr r)
    | terminal inner => exact .here inner
  · intro marked
    induction marked with
    | here inner => rfl
    | wrap text _ ih => exact ih
    | left text r _ ih => exact Bool.or_eq_true_iff.mpr (.inl ih)
    | right text l _ ih => exact Bool.or_eq_true_iff.mpr (.inr ih)

instance (e : GoError) : Decidable (Marked e) := decidable_of_iff _ isTerminal_iff

end GoError

/-! ## Requests and outcomes -/

/-- A `json.RawMessage` that is not empty: the document and the length of its text. -/
structure RawMessage where
  document : Json
  bytes : Nat
  deriving DecidableEq

/-- The columns of the subject that a request carries. -/
structure Subject where
  id : Uuid
  kind : String
  spec : Option Json
  generation : Nat
  deriving DecidableEq

def taskToResource (t : WorkTask) : Subject := ⟨t.resourceId, t.kind, t.spec, t.generation⟩

/-- The handler's view of an operation. -/
structure OperationView where
  resourceId : Uuid
  verb : String
  input : Json
  deriving DecidableEq

/-- `ReactionRequest`; the last two fields are the override of `newEnv`. -/
structure ReactionRequest where
  reaction : String
  trigger : Trigger
  resource : Subject
  status : Option RawMessage
  descendants : List Resource
  operation : Option OperationView
  generation : Nat
  providerConfig : Option Json
  providerBundle : Option Bytes
  deriving DecidableEq

/-- The request for `rx` under task `t`, before status, descendants or operation. -/
def ReactionDecl.request (rx : ReactionDecl) (t : WorkTask) (trigger : Trigger) : ReactionRequest where
  reaction := rx.name
  trigger := trigger
  resource := taskToResource t
  status := none
  descendants := []
  operation := none
  generation := t.generation
  providerConfig := t.providerConfig
  providerBundle := t.providerBundle

/-- `Outcome`, but for the flag of a side effect that nothing reads. -/
structure Outcome where
  status : Option RawMessage
  conditions : List ConditionEntry
  children : List ChildSpec
  edges : List DepEdge
  configs : List ProviderConfigSpec
  operationOutput : Option RawMessage
  deriving DecidableEq

def Outcome.empty : Outcome := ⟨none, [], [], [], [], none⟩

/-- What the compose transaction takes of an outcome. -/
def Outcome.compose (out : Outcome) : ComposeOutput := ⟨out.children, out.edges, out.configs⟩

/-! ## Which reactions run -/

def ManifestDoc.composerReaction (m : ManifestDoc) : Option ReactionDecl :=
  m.reactions.find? fun rx => rx.trigger = .specChange && rx.hasChildren

def ManifestDoc.workerReaction (m : ManifestDoc) : Option ReactionDecl :=
  m.reactions.find? fun rx => rx.trigger = .specChange && !rx.hasChildren && rx.hasStatus

def ManifestDoc.rollupReaction (m : ManifestDoc) : Option ReactionDecl :=
  m.reactions.find? fun rx => rx.trigger = .childrenSettled && rx.hasStatus

def ManifestDoc.operationReaction (m : ManifestDoc) (verb : String) : Option ReactionDecl :=
  m.reactions.find? fun rx => rx.trigger = .operation && rx.verb = verb

/-! ## Over the wire -/

inductive Stage where
  | compose
  | rollup
  | delete
  | operate
  | react
  | work
  deriving DecidableEq

/-- The stage `DispatchStage` chooses; the cases are tried in this order. -/
def ReactionDecl.stage (rx : ReactionDecl) : Stage :=
  if .children ∈ rx.emits then .compose
  else if rx.trigger = .childrenSettled then .rollup
  else if .finalizer ∈ rx.emits then .delete
  else if .operationOutput ∈ rx.emits then .operate
  else if rx.trigger = .reactor then .react
  else .work

structure ComposeResult where
  desired : List ChildSpec
  edges : List DepEdge
  configs : List ProviderConfigSpec
  status : Option RawMessage
  conditions : List ConditionEntry
  deriving DecidableEq

/-- `workerpb.StageComplete`, but for the echo of the lease. -/
structure StageComplete where
  errorMessage : String
  terminal : Bool
  status : Option RawMessage
  conditions : List ConditionEntry
  compose : Option ComposeResult
  output : Option RawMessage
  deriving DecidableEq

def failComplete (message : String) (terminal : Bool) : StageComplete :=
  ⟨message, terminal, none, [], none, none⟩

/-- The parts of the outcome that the stage carries. -/
def completeFromOutcome (stage : Stage) (out : Outcome) : StageComplete :=
  match stage with
  | .work | .rollup | .react => ⟨"", false, out.status, out.conditions, none, none⟩
  | .compose =>
    ⟨"", false, none, [], some ⟨out.children, out.edges, out.configs, out.status, out.conditions⟩, none⟩
  | .operate => ⟨"", false, none, [], none, out.operationOutput⟩
  | .delete => ⟨"", false, none, [], none, none⟩

/-- `computeComplete`, once the handler has run. -/
def computeComplete (stage : Stage) : Except GoError Outcome → StageComplete
  | .error e => failComplete e.message e.isTerminal
  | .ok out => completeFromOutcome stage out

/-- How a parked stage ends: the worker ran the handler, the broker gave the stage up
with a completion of its own, or the context ended. -/
inductive StageAnswer where
  | ran (result : Except GoError Outcome)
  | abandoned (reason : String)
  | cancelled (error : GoError)
  deriving DecidableEq

/-- The error of an answer, where it arose. -/
def StageAnswer.raised : StageAnswer → Option GoError
  | .ran (.ok _) => none
  | .ran (.error e) => some e
  | .abandoned reason => some (.new reason)
  | .cancelled e => some e

/-- `fanoutExecutor.dispatchStage`. -/
def fanoutDispatch (stage : Stage) : StageAnswer → Except GoError StageComplete
  | .ran result => .ok (computeComplete stage result)
  | .abandoned reason => .ok (failComplete reason false)
  | .cancelled e => .error e

def stageErr (message : String) (terminal : Bool) : GoError :=
  if terminal then .terminal (.new message) else .new message

/-- `fanoutExecutor.run`: a completion without an error text is a clean run. -/
def fanoutRun (stage : Stage) (answer : StageAnswer) : Except GoError StageComplete :=
  (fanoutDispatch stage answer).bind fun sc =>
    if sc.errorMessage = "" then .ok sc else .error (stageErr sc.errorMessage sc.terminal)

/-- What `DispatchStage` reads of a clean run. -/
def Stage.decode (stage : Stage) (sc : StageComplete) : Outcome :=
  match stage with
  | .compose =>
    match sc.compose with
    | none => Outcome.empty
    | some r => ⟨r.status, r.conditions, r.desired, r.edges, r.configs, none⟩
  | .rollup | .react | .work => { Outcome.empty with
      status := sc.status
      conditions := sc.conditions }
  | .delete => Outcome.empty
  | .operate => { Outcome.empty with operationOutput := sc.output }

/-- `fanoutExecutor.DispatchStage`. -/
def dispatchStage (rx : ReactionDecl) (answer : StageAnswer) : Except GoError Outcome :=
  (fanoutRun rx.stage answer).map rx.stage.decode

/-! ## Conditions of a result -/

/-- `marshalConditions`; an empty list is stored as `NULL`. -/
def marshalConditions (conds : List ConditionEntry) : Option (List ConditionEntry) :=
  if conds = [] then none else some conds

def deriveHealthAndConditions (conds : List ConditionEntry) (advance : Bool) :
    Option Bool × Option (List ConditionEntry) :=
  match conds.find? (·.type = "Ready") with
  | some ready => (some (ready.status ≠ "False"), marshalConditions conds)
  | none =>
    if conds = [] && advance then (none, none)
    else if advance then (some true, marshalConditions conds)
    else (none, marshalConditions conds)

theorem derive_conditions (conds : List ConditionEntry) (advance : Bool) :
    (deriveHealthAndConditions conds advance).2 = marshalConditions conds := by
  unfold deriveHealthAndConditions
  split
  · rfl
  · cases conds <;> cases advance <;> rfl

/-- A result that advances and reports nothing against its health says nothing about it when
it reports nothing at all, and asserts it otherwise. -/
theorem derive_health {conds : List ConditionEntry}
    (sound : ∀ c ∈ conds, c.type = "Ready" → c.status ≠ "False") :
    (deriveHealthAndConditions conds true).1 = if conds = [] then none else some true := by
  unfold deriveHealthAndConditions
  split
  · rename_i ready found
    have listed := mem_of_find?_eq_some found
    have healthy := sound ready listed (by simpa using find?_some found)
    rw [if_neg (ne_nil_of_mem listed), decide_eq_true healthy]
  · cases conds <;> rfl

/-! ## The engine -/

/-- The places where a task can fail. -/
inductive Step where
  | select
  | readComposedGen
  | composeReaction
  | beginTx
  | applyCompose
  | armSchedule
  | commitTx
  | workReaction
  | settledCheck
  | listDescendants
  | rollupReaction
  | sizeLimit
  | loadOperation
  | operateReaction
  | deleteReaction
  | finish
  | append
  deriving DecidableEq

/-- What one task meets: the answers of the store and of the workers, and whether the
context has ended when what a step led to is about to be written. -/
structure ReactionEnv where
  composedGen : Except GoError Nat
  worker : ReactionDecl → ReactionRequest → StageAnswer
  beginTx : Except GoError Unit
  /-- `ApplyComposeResult`, with the candidates it returns. -/
  apply : ComposeOutput → Except GoError (List Uuid)
  arm : Except GoError Unit
  commit : Except GoError Unit
  settled : Except GoError Bool
  descendants : Except GoError (List Resource)
  operation : Uuid → Except GoError ResourceOperation
  append : OutboxRow → Except GoError Unit
  cancelled : Step → Bool

/-- A call the engine made, with the error it raised. -/
inductive Event where
  | called (step : Step) (raised : Option GoError)
  | reacted (step : Step) (rx : ReactionDecl) (req : ReactionRequest) (raised : Option GoError)
  | composed (out : ComposeOutput) (raised : Option GoError)

def Event.step : Event → Step
  | .called step _ | .reacted step _ _ _ => step
  | .composed _ _ => .applyCompose

def Event.raised : Event → Option GoError
  | .called _ raised | .reacted _ _ _ raised | .composed _ raised => raised

/-- Why a task ended without its own result: a failure to record, or nothing to. -/
inductive Stop where
  | failed (step : Step) (msg : String) (terminal : Bool)
  | dropped
  deriving DecidableEq

abbrev Engine := Journal Event Stop

/-- A call whose error is recorded by `recordFailed`. -/
def call {α : Type} (step : Step) (what : String) : Except GoError α → Engine α
  | .ok a => .entry (.called step none) a
  | .error e => .halt (.called step (some e)) (.failed step (what ++ ": " ++ e.message) false)

/-- A dispatched reaction; its error is recorded by `recordFailedErr`. -/
def react (env : ReactionEnv) (step : Step) (what : String) (rx : ReactionDecl)
    (req : ReactionRequest) : Engine Outcome :=
  let answer := env.worker rx req
  match dispatchStage rx answer with
  | .ok out => .entry (.reacted step rx req answer.raised) out
  | .error e =>
    .halt (.reacted step rx req answer.raised)
      (.failed step (what ++ " reaction " ++ rx.name.quote ++ ": " ++ e.message) e.isTerminal)

/-- The compose transaction up to its commit; a lost claim is nobody's failure. -/
def applyCompose (env : ReactionEnv) (out : ComposeOutput) : Engine (List Uuid) :=
  match env.apply out with
  | .ok candidates => .entry (.composed out none) candidates
  | .error e =>
    .halt (.composed out (some e)) (if e.is .composeClaimLost then .dropped
       else .failed .applyCompose ("apply compose result: " ++ e.message) false)

def armSchedule (env : ReactionEnv) (candidates : List Uuid) : Engine Unit :=
  if candidates = [] then pure () else call .armSchedule "arm schedule recheck" env.arm

/-- Status and conditions so far. -/
structure Gathered where
  status : Option RawMessage
  conditions : List ConditionEntry
  deriving DecidableEq

/-- The last status wins, conditions accumulate. -/
def Gathered.add (g : Gathered) (out : Outcome) : Gathered :=
  ⟨out.status.or g.status, g.conditions ++ out.conditions⟩

/-- The composer runs while `composed_gen` is behind the task. -/
def composeStage (m : ManifestDoc) (t : WorkTask) (env : ReactionEnv) : Engine Gathered :=
  match m.composerReaction with
  | none => pure ⟨none, []⟩
  | some composer => do
      let composedGen ← call .readComposedGen "read composed_gen" env.composedGen
      if composedGen < t.generation then do
        let out ← react env .composeReaction "compose" composer (composer.request t .specChange)
        call .beginTx "begin compose tx" env.beginTx
        let candidates ← applyCompose env out.compose
        armSchedule env candidates
        call .commitTx "commit compose tx" env.commit
        return (Gathered.add ⟨none, []⟩ out)
      else return ⟨none, []⟩

def workStage (m : ManifestDoc) (t : WorkTask) (env : ReactionEnv) (g : Gathered) : Engine Gathered :=
  match m.workerReaction with
  | none => pure g
  | some worker => do
      let out ← react env .workReaction "work" worker
        { worker.request t .specChange with status := g.status }
      return g.add out

/-- The rollup waits for the descendants; until then the result does not advance. -/
def rollupStage (m : ManifestDoc) (t : WorkTask) (env : ReactionEnv) (g : Gathered) :
    Engine (Gathered × Bool) :=
  match m.rollupReaction with
  | none => pure (g, true)
  | some rollup => do
      let settled ← call .settledCheck "descendants-settled check" env.settled
      if settled then do
        let rows ← call .listDescendants "list descendants" env.descendants
        let out ← react env .rollupReaction "rollup" rollup
          { rollup.request t .childrenSettled with status := g.status, descendants := rows }
        return (g.add out, true)
      else return (g, false)

def maxStatusBytes : Nat := 50 * 1024 * 1024

/-- An oversized document is a terminal failure. -/
def checkSize (what : String) (raw : Option RawMessage) : Engine Unit :=
  match raw with
  | none => pure ()
  | some raw =>
    if maxStatusBytes < raw.bytes then
      let msg := what ++ " exceeds the 50 MiB limit (" ++ toString raw.bytes ++ " bytes)"
      .halt (.called .sizeLimit (some (.terminal (.new msg)))) (.failed .sizeLimit msg true)
    else pure ()

/-- The row a finished reconcile appends. -/
def reconcileRow (t : WorkTask) (g : Gathered) (advance : Bool) : OutboxRow where
  task := t
  succeeded := true
  payload := g.status.map (·.document)
  errorMessage := none
  advanceSyncedGen := advance
  healthOk := (deriveHealthAndConditions g.conditions advance).1
  conditions := (deriveHealthAndConditions g.conditions advance).2
  failed := false
  terminal := false
  finalizerName := none
  manifestVersion := t.manifestVersion

/-- The append of a success, skipped once the context has ended. -/
def appendRow (env : ReactionEnv) (what : String) (row : OutboxRow) : Engine OutboxRow :=
  if env.cancelled .finish then .stop .dropped
  else do
    call .append what (env.append row)
    return row

def unserved (msg : String) : Engine OutboxRow :=
  .halt (.called .select (some (.new msg))) (.failed .select msg false)

def reactReconcile (m : ManifestDoc) (t : WorkTask) (env : ReactionEnv) : Engine OutboxRow :=
  if m.composerReaction = none ∧ m.workerReaction = none then
    unserved ("kind " ++ t.kind.quote ++ " manifest declares no specChange reaction (compose/work)")
  else do
    let g ← composeStage m t env
    let g ← workStage m t env g
    let (g, advance) ← rollupStage m t env g
    checkSize "status" g.status
    appendRow env "append reconcile outbox" (reconcileRow t g advance)

def operateRow (t : WorkTask) (output : Option RawMessage) : OutboxRow where
  task := t
  succeeded := true
  payload := output.map (·.document)
  errorMessage := none
  advanceSyncedGen := false
  healthOk := none
  conditions := none
  failed := false
  terminal := false
  finalizerName := none
  manifestVersion := t.manifestVersion

def reactOperate (m : ManifestDoc) (t : WorkTask) (env : ReactionEnv) : Engine OutboxRow :=
  match t.opId with
  | none => unserved "operate task missing op_id"
  | some id => do
      let op ← call .loadOperation "load operation" (env.operation id)
      match m.operationReaction op.verb with
      | none =>
        unserved ("kind " ++ t.kind.quote ++
          " manifest declares no operation reaction for verb " ++ op.verb.quote)
      | some rx => do
          let out ← react env .operateReaction "operate" rx
            { rx.request t .operation with operation := some ⟨op.resourceId, op.verb, op.input⟩ }
          if env.cancelled .finish then .stop .dropped
          else do
            checkSize "operation output" out.operationOutput
            appendRow env "append operate outbox" (operateRow t out.operationOutput)

def deleteRow (m : ManifestDoc) (t : WorkTask) (del : ReactionDecl) : OutboxRow where
  task := t
  succeeded := true
  payload := none
  errorMessage := none
  advanceSyncedGen := false
  healthOk := none
  conditions := none
  failed := false
  terminal := false
  finalizerName := nilIfEmpty (m.strips del)
  manifestVersion := t.manifestVersion

/-- `reactDelete` with its calls; of the outcome nothing is read. -/
def runDelete (m : ManifestDoc) (t : WorkTask) (env : ReactionEnv) : Engine OutboxRow :=
  match m.deleteReaction with
  | none => unserved ("kind " ++ t.kind.quote ++ " manifest declares no deleteRequested reaction")
  | some del => do
      let _ ← react env .deleteReaction "delete" del (del.request t .deleteRequested)
      appendRow env "append delete outbox" (deleteRow m t del)

def runReaction (m : ManifestDoc) (t : WorkTask) (env : ReactionEnv) : Engine OutboxRow :=
  match t.taskType with
  | .reconcile => reactReconcile m t env
  | .delete => runDelete m t env
  | .operate => reactOperate m t env

/-- The row that reaches the outbox: the task's own, or that of its failure.  Nothing is
written once the context has ended. -/
def recorded (m : ManifestDoc) (t : WorkTask) (env : ReactionEnv) (j : Engine OutboxRow) : Option OutboxRow :=
  match j.result with
  | .ok row => some row
  | .error .dropped => none
  | .error (.failed step msg terminal) =>
    if env.cancelled step then none else some (recordFailedTerminal m t msg terminal)

/-! ## Reading the descendants -/

section Store

variable [Postgres] (db : Db)

def descendantsSettled (id : Uuid) : Bool :=
  !db.resources.rows.any fun d => d.rootId = some id && unsettled d

def listDescendants (id : Uuid) : List Resource :=
  db.resources.rows.filter fun d => d.rootId = some id

end Store

/-! ## What a run leaves -/

section Runs

variable {m : ManifestDoc} {t : WorkTask} {env : ReactionEnv} {what : String} {step : Step} {row : OutboxRow}

/-- With its calls answered and its context alive, the teardown appends the row of
`reactDelete`. -/
theorem runDelete_row {del : ReactionDecl} (declares : m.deleteReaction = some del)
    (alive : ∀ step, env.cancelled step = false) (appends : ∀ row, env.append row = .ok ()) :
    recorded m t env (runDelete m t env) = some (reactDelete m t
      (match dispatchStage del (env.worker del (del.request t .deleteRequested)) with
        | .ok _ => .ok ()
        | .error e => .error (e.message, e.isTerminal))) := by
  simp only [runDelete, reactDelete, declares, react]
  cases dispatchStage del (env.worker del (del.request t .deleteRequested)) with
  | ok out =>
    simp [recorded, appendRow, alive, appends, call]
    rfl
  | error e =>
    rw [Journal.bind_of_error rfl]
    simp [recorded, alive]

theorem call_ok {α : Type} {answer : Except GoError α} {a : α} :
    (call step what answer).result = .ok a ↔ answer = .ok a := by
  cases answer with
  | ok b =>
    constructor
    · intro done
      cases done
      rfl
    · intro same
      cases same
      rfl
  | error e =>
    constructor
    · intro done
      cases done
    · intro same
      cases same

theorem appendRow_ok {row' : OutboxRow} (done : (appendRow env what row).result = .ok row') : row' = row := by
  unfold appendRow at done
  split at done
  · cases done
  · obtain ⟨-, -, last⟩ := Journal.bind_eq_ok.mp done
    cases last
    rfl

/-- The calls to the store that `recordFailed` answers for. -/
def storeSteps : List Step :=
  [.readComposedGen, .beginTx, .armSchedule, .commitTx, .settledCheck, .listDescendants, .append]

def reactionSteps : List Step := [.composeReaction, .workReaction, .rollupReaction]

/-- What a reconcile logs at each call, and the stop the call leads to. -/
inductive Logged (env : ReactionEnv) : Event → Option Stop → Prop
  | called (step : Step) : Logged env (.called step none) none
  | refused {step : Step} (what : String) (e : GoError) (store : step ∈ storeSteps) :
      Logged env (.called step (some e)) (some (.failed step (what ++ ": " ++ e.message) false))
  | reacted {step : Step} {rx : ReactionDecl} {req : ReactionRequest} {out : Outcome}
      (reaction : step ∈ reactionSteps)
      (listed : step = .rollupReaction → env.descendants = .ok req.descendants)
      (answer : dispatchStage rx (env.worker rx req) = .ok out) :
      Logged env (.reacted step rx req (env.worker rx req).raised) none
  | reactFailed {step : Step} (what : String) {rx : ReactionDecl} {req : ReactionRequest}
      {e : GoError} (reaction : step ∈ reactionSteps)
      (listed : step = .rollupReaction → env.descendants = .ok req.descendants)
      (answer : dispatchStage rx (env.worker rx req) = .error e) :
      Logged env (.reacted step rx req (env.worker rx req).raised) (some (.failed step
        (what ++ " reaction " ++ rx.name.quote ++ ": " ++ e.message) e.isTerminal))
  | applied (out : ComposeOutput) : Logged env (.composed out none) none
  | claimLost (out : ComposeOutput) {e : GoError} (lost : e.is .composeClaimLost = true) :
      Logged env (.composed out (some e)) (some .dropped)
  | applyFailed (out : ComposeOutput) {e : GoError} (held : e.is .composeClaimLost = false) :
      Logged env (.composed out (some e))
        (some (.failed .applyCompose ("apply compose result: " ++ e.message) false))
  | oversized (msg : String) :
      Logged env (.called .sizeLimit (some (.terminal (.new msg)))) (some (.failed .sizeLimit msg true))
  | unserved (msg : String) : Logged env (.called .select (some (.new msg))) (some (.failed .select msg false))

theorem call_logs {α : Type} {answer : Except GoError α}
    (store : step ∈ storeSteps) : (call step what answer).Logs (Logged env) := by
  cases answer with
  | ok a => exact .entry (.called step) a
  | error e => exact .halt (.refused what e store)

theorem react_logs {rx : ReactionDecl} {req : ReactionRequest} (reaction : step ∈ reactionSteps)
    (listed : step = .rollupReaction → env.descendants = .ok req.descendants) :
    (react env step what rx req).Logs (Logged env) := by
  simp only [react]
  split
  · rename_i out answer
    exact .entry (.reacted reaction listed answer) out
  · rename_i e answer
    exact .halt (.reactFailed what reaction listed answer)

theorem applyCompose_logs (out : ComposeOutput) : (applyCompose env out).Logs (Logged env) := by
  unfold applyCompose
  cases env.apply out with
  | ok candidates => exact .entry (.applied out) candidates
  | error e =>
    simp only
    split
    · rename_i lost
      exact .halt (.claimLost out lost)
    · rename_i held
      exact .halt (.applyFailed out (Bool.eq_false_iff.mpr held))

theorem composeStage_logs : (composeStage m t env).Logs (Logged env) := by
  unfold composeStage
  cases m.composerReaction with
  | none => exact .pure _
  | some rx =>
    refine (call_logs (by decide)).bind fun composedGen _ => ?_
    split
    · refine (react_logs (by decide) (by nofun)).bind fun out _ => ?_
      refine (call_logs (by decide)).bind fun _ _ => ?_
      refine (applyCompose_logs out.compose).bind fun candidates _ => ?_
      have armed : (armSchedule env candidates).Logs (Logged env) := by
        unfold armSchedule
        split
        · exact .pure _
        · exact call_logs (by decide)
      exact armed.bind fun _ _ => (call_logs (by decide)).bind fun _ _ => .pure _
    · exact .pure _

theorem workStage_logs (g : Gathered) : (workStage m t env g).Logs (Logged env) := by
  unfold workStage
  cases m.workerReaction with
  | none => exact .pure _
  | some rx => exact (react_logs (by decide) (by nofun)).bind fun _ _ => .pure _

theorem rollupStage_logs (g : Gathered) : (rollupStage m t env g).Logs (Logged env) := by
  unfold rollupStage
  cases m.rollupReaction with
  | none => exact .pure _
  | some rx =>
    refine (call_logs (by decide)).bind fun settled _ => ?_
    cases settled with
    | false => exact .pure _
    | true =>
      refine (call_logs (by decide)).bind fun rows read => ?_
      exact (react_logs (by decide) fun _ => call_ok.mp read).bind fun _ _ => .pure _

theorem checkSize_logs (what : String) (raw : Option RawMessage) : (checkSize what raw).Logs (Logged env) := by
  unfold checkSize
  cases raw with
  | none => exact .pure _
  | some raw =>
    simp only
    split
    · exact .halt (.oversized _)
    · exact .pure _

theorem appendRow_logs (what : String) (row : OutboxRow) : (appendRow env what row).Logs (Logged env) := by
  unfold appendRow
  split
  · exact .stop _
  · exact (call_logs (by decide)).bind fun _ _ => .pure _

/-- **All a reconcile does, call by call.** -/
theorem reactReconcile_logs : (reactReconcile m t env).Logs (Logged env) := by
  unfold reactReconcile
  split
  · exact .halt (.unserved _)
  · refine composeStage_logs.bind fun g _ => (workStage_logs g).bind fun g _ => ?_
    refine (rollupStage_logs g).bind fun (g, advance) _ => ?_
    exact (checkSize_logs _ _).bind fun _ _ => appendRow_logs _ _

/-- A reconcile that ends well appends a row of what its stages gathered. -/
theorem reactReconcile_ok (done : (reactReconcile m t env).result = .ok row) :
    ∃ g₀ g₁ g advance, (composeStage m t env).result = .ok g₀ ∧ (workStage m t env g₀).result = .ok g₁ ∧
      (rollupStage m t env g₁).result = .ok (g, advance) ∧ row = reconcileRow t g advance := by
  unfold reactReconcile at done
  split at done
  · cases done
  · obtain ⟨g₀, composed, done⟩ := Journal.bind_eq_ok.mp done
    obtain ⟨g₁, worked, done⟩ := Journal.bind_eq_ok.mp done
    obtain ⟨⟨g, advance⟩, rolled, done⟩ := Journal.bind_eq_ok.mp done
    obtain ⟨-, -, done⟩ := Journal.bind_eq_ok.mp done
    exact ⟨g₀, g₁, g, advance, composed, worked, rolled, appendRow_ok done⟩

/-! The log of a stage that is reached is part of the log. -/

section Reached

variable (serves : ¬ (m.composerReaction = none ∧ m.workerReaction = none)) {ev : Event} {g g' : Gathered}

include serves

theorem mem_of_composeStage (listed : ev ∈ (composeStage m t env).log) : ev ∈ (reactReconcile m t env).log := by
  rw [reactReconcile, if_neg serves]
  exact Journal.mem_bind.mpr (.inl listed)

theorem mem_of_workStage (composed : (composeStage m t env).result = .ok g)
    (listed : ev ∈ (workStage m t env g).log) : ev ∈ (reactReconcile m t env).log := by
  rw [reactReconcile, if_neg serves]
  exact Journal.mem_bind.mpr (.inr ⟨g, composed, Journal.mem_bind.mpr (.inl listed)⟩)

theorem mem_of_rollupStage (composed : (composeStage m t env).result = .ok g)
    (worked : (workStage m t env g).result = .ok g') (listed : ev ∈ (rollupStage m t env g').log) :
    ev ∈ (reactReconcile m t env).log := by
  rw [reactReconcile, if_neg serves]
  refine Journal.mem_bind.mpr (.inr ⟨g, composed, Journal.mem_bind.mpr (.inr ⟨g', worked, ?_⟩)⟩)
  exact Journal.mem_bind.mpr (.inl listed)

end Reached

theorem mem_react (step : Step) (what : String) (rx : ReactionDecl) (req : ReactionRequest) :
    .reacted step rx req (env.worker rx req).raised ∈ (react env step what rx req).log := by
  simp only [react]
  split <;> exact mem_singleton_self _

/-! The workers matter through what the engine reads of their answers. -/

/-- The compose output an entry hands to the store. -/
def Event.output : Event → Option ComposeOutput
  | .composed out _ => some out
  | _ => none

/-- The parts of an outcome that a step looks at. -/
def Step.reads : Step → Outcome → Outcome
  | .composeReaction, out => { out with operationOutput := none }
  | .workReaction, out | .rollupReaction, out =>
    { Outcome.empty with status := out.status, conditions := out.conditions }
  | .operateReaction, out => { Outcome.empty with operationOutput := out.operationOutput }
  | _, _ => Outcome.empty

/-- Two answers to `rx` are the same to `step`. -/
def Alike (step : Step) (rx : ReactionDecl) (a b : StageAnswer) : Prop :=
  (dispatchStage rx a).map step.reads = (dispatchStage rx b).map step.reads

section Agree

variable {worker : ReactionDecl → ReactionRequest → StageAnswer}

theorem react_agree {α : Type} {step : Step} {what : String} {rx : ReactionDecl} {req : ReactionRequest}
    {f : Outcome → Engine α} (alike : Alike step rx (env.worker rx req) (worker rx req))
    (reads : ∀ out, f out = f (step.reads out)) : Journal.Agree Event.output (react env step what rx req >>= f)
      (react { env with worker := worker } step what rx req >>= f) := by
  unfold Alike at alike
  simp only [react]
  cases first : dispatchStage rx (env.worker rx req) with
  | error e =>
    cases second : dispatchStage rx (worker rx req) with
    | error e' =>
      rw [first, second] at alike
      cases alike
      exact ⟨rfl, rfl⟩
    | ok out' =>
      rw [first, second] at alike
      cases alike
  | ok out =>
    cases second : dispatchStage rx (worker rx req) with
    | error e' =>
      rw [first, second] at alike
      cases alike
    | ok out' =>
      rw [first, second] at alike
      have same : f out = f out' := by
        rw [reads out, reads out', Except.ok.inj alike]
      rw [Journal.bind_of_ok rfl, same]
      exact ⟨rfl, rfl⟩

/-- **Two workers whose answers are alike to the steps that ask them make the same result
and the same compose.** -/
theorem reactReconcile_agree (composer : ∀ rx, m.composerReaction = some rx → ∀ req,
      Alike .composeReaction rx (env.worker rx req) (worker rx req))
    (works : ∀ rx, m.workerReaction = some rx → ∀ req,
      Alike .workReaction rx (env.worker rx req) (worker rx req))
    (rollup : ∀ rx, m.rollupReaction = some rx → ∀ req,
      Alike .rollupReaction rx (env.worker rx req) (worker rx req)) :
    Journal.Agree Event.output (reactReconcile m t env) (reactReconcile m t { env with worker := worker }) := by
  unfold reactReconcile
  split
  · exact .refl _
  · have composed : Journal.Agree Event.output (composeStage m t env)
        (composeStage m t { env with worker := worker }) := by
      unfold composeStage
      cases declared : m.composerReaction with
      | none => exact .refl _
      | some rx =>
        refine (Journal.Agree.refl _).bind fun composedGen => ?_
        split
        · exact react_agree (composer rx declared _) fun _ => rfl
        · exact .refl _
    have worked (g : Gathered) : Journal.Agree Event.output (workStage m t env g)
        (workStage m t { env with worker := worker } g) := by
      unfold workStage
      cases declared : m.workerReaction with
      | none => exact .refl _
      | some rx => exact react_agree (works rx declared _) fun _ => rfl
    have rolled (g : Gathered) : Journal.Agree Event.output (rollupStage m t env g)
        (rollupStage m t { env with worker := worker } g) := by
      unfold rollupStage
      cases declared : m.rollupReaction with
      | none => exact .refl _
      | some rx =>
        refine (Journal.Agree.refl _).bind fun settled => ?_
        split
        · exact (Journal.Agree.refl _).bind fun rows =>
            react_agree (rollup rx declared _) fun _ => rfl
        · exact .refl _
    exact composed.bind fun g => (worked g).bind fun g => (rolled g).bind fun _ => .refl _

theorem reactOperate_agree (operation : ∀ verb rx, m.operationReaction verb = some rx → ∀ req,
      Alike .operateReaction rx (env.worker rx req) (worker rx req)) :
    Journal.Agree Event.output (reactOperate m t env) (reactOperate m t { env with worker := worker }) := by
  unfold reactOperate
  cases t.opId with
  | none => exact .refl _
  | some id =>
    refine (Journal.Agree.refl _).bind fun op => ?_
    cases declared : m.operationReaction op.verb with
    | none => exact .refl _
    | some rx => exact react_agree (operation op.verb rx declared _) fun _ => rfl

theorem runDelete_agree (teardown : ∀ rx, m.deleteReaction = some rx → ∀ req,
      Alike .deleteReaction rx (env.worker rx req) (worker rx req)) :
    Journal.Agree Event.output (runDelete m t env) (runDelete m t { env with worker := worker }) := by
  unfold runDelete
  cases declared : m.deleteReaction with
  | none => exact .refl _
  | some rx => exact react_agree (teardown rx declared _) fun _ => rfl

end Agree

theorem recorded_success {j : Engine OutboxRow} (found : recorded m t env j = some row)
    (succeeded : row.succeeded = true) : j.result = .ok row := by
  unfold recorded at found
  split at found
  · rename_i done
    rw [done, Option.some.inj found]
  · cases found
  · split at found
    · cases found
    · rw [← Option.some.inj found] at succeeded
      cases succeeded

/-- With a rollup declared, a result that advances was gathered after the gate. -/
theorem rollupStage_settled {rollup : ReactionDecl} (declares : m.rollupReaction = some rollup)
    {g g' : Gathered} (done : (rollupStage m t env g).result = .ok (g', true)) : env.settled = .ok true := by
  simp only [rollupStage, declares] at done
  obtain ⟨settled, gate, done⟩ := Journal.bind_eq_ok.mp done
  cases settled with
  | true => exact call_ok.mp gate
  | false => cases done

end Runs

/-- A kind with all three reactions. -/
def fullManifest : ManifestDoc :=
  ⟨"app", 1, [⟨"compose", .specChange, [.children, .edges, .configs, .status, .conditions], "", ""⟩,
    ⟨"work", .specChange, [.status, .conditions], "", ""⟩,
    ⟨"roll", .childrenSettled, [.status, .conditions], "", ""⟩], "", 0, 0, 0, false, 0, 0, false⟩

/-- Everything goes well and no reaction has anything to report. -/
def smooth (composedGen : Nat) (settled : Bool) (rows : List Resource) : ReactionEnv where
  composedGen := .ok composedGen
  worker _ _ := .ran (.ok Outcome.empty)
  beginTx := .ok ()
  apply _ := .ok []
  arm := .ok ()
  commit := .ok ()
  settled := .ok settled
  descendants := .ok rows
  operation _ := .error (.new "no rows in result set")
  append _ := .ok ()
  cancelled _ := false

end Converge.Kernel
