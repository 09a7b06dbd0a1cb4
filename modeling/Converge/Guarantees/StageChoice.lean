/-
# Guarantees.StageChoice -- the stage that a selected reaction is sent as

The engine selects reactions by trigger and mask.  `DispatchStage` then tries masks and triggers in
an order of its own, and both validators leave most of the mask free.  So a leaf worker whose mask
has the finalizer bit is accepted, and sent as a teardown (`worker_sent_as_delete`).

`stage_of_trigger` is exact: which masks are sent as the stage of their trigger.
-/
import Converge.Kernel.Reactions

namespace Converge.Kernel

set_option autoImplicit false

/-- `ReactionRequest` with what a delivery adds to it. -/
structure DispatchRequest extends ReactionRequest where
  transition : Option Transition
  dedupToken : String

/-- The one request body a `StageTask` has. -/
inductive StageRequest where
  | composeReq (root : Subject)
  | rollupReq (root : Subject) (descendants : List Resource) (status : Option RawMessage)
  | deleteReq (resource : Subject)
  | operateReq (resource : Subject) (operation : Option OperationView)
  | reactReq (resource : Subject) (transition : Option Transition) (dedupToken : String)
  | workReq (resource : Subject) (status : Option RawMessage)

def Stage.request (req : DispatchRequest) : Stage → StageRequest
  | .compose => .composeReq req.resource
  | .rollup => .rollupReq req.resource req.descendants req.status
  | .delete => .deleteReq req.resource
  | .operate => .operateReq req.resource req.operation
  | .react => .reactReq req.resource req.transition req.dedupToken
  | .work => .workReq req.resource req.status

/-- What `DispatchStage` sends. -/
def ReactionDecl.stageTask (rx : ReactionDecl) (req : DispatchRequest) : Stage × StageRequest :=
  (rx.stage, rx.stage.request req)

/-- What the engine and the reactor dispatcher select a reaction for. -/
inductive Role where
  | composer
  | worker
  | rollup
  | teardown
  | verb (name : String)
  | reactor

namespace Role

/-- The declaration dispatched; a reactor's is made up from its name (`buildReactorRequest`). -/
def reaction (m : ManifestDoc) : Role → Option ReactionDecl
  | composer => m.composerReaction
  | worker => m.workerReaction
  | rollup => m.rollupReaction
  | teardown => m.deleteReaction
  | verb name => m.operationReaction name
  | reactor => (m.reactions.find? (·.trigger = .reactor)).map fun rx => ⟨rx.name, .reactor, [], "", ""⟩

def stage : Role → Stage
  | composer => .compose
  | worker => .work
  | rollup => .rollup
  | teardown => .delete
  | verb _ => .operate
  | reactor => .react

/-- The masks that are sent as the stage of the role. -/
def Fits (emits : List OutcomeBit) : Role → Prop
  | composer | reactor => True
  | worker => .finalizer ∉ emits ∧ .operationOutput ∉ emits
  | rollup => .children ∉ emits
  | teardown => .children ∉ emits ∧ .finalizer ∈ emits
  | verb _ => .children ∉ emits ∧ .finalizer ∉ emits ∧ .operationOutput ∈ emits

end Role

/-- **A reaction is sent as the stage of its trigger, with the body of that stage, exactly if** its
mask fits. -/
theorem stage_of_trigger (m : ManifestDoc) (role : Role) (rx : ReactionDecl) (req : DispatchRequest)
    (selected : role.reaction m = some rx) :
    rx.stageTask req = (role.stage, role.stage.request req) ↔ role.Fits rx.emits := by
  have same : rx.stageTask req = (role.stage, role.stage.request req) ↔ rx.stage = role.stage :=
    ⟨fun sent => (Prod.mk.inj sent).1, fun stage => by rw [ReactionDecl.stageTask, stage]⟩
  rw [same, ReactionDecl.stage]
  cases role with
  | reactor =>
    obtain ⟨rx', -, rfl⟩ := Option.map_eq_some_iff.mp selected
    simp [Role.stage, Role.Fits]
  | composer | worker | rollup | teardown | verb name =>
    have picked := List.find?_some selected
    simp only [Bool.and_eq_true, Bool.not_eq_true', decide_eq_true_eq, ReactionDecl.hasChildren,
      decide_eq_false_iff_not] at picked
    by_cases children : .children ∈ rx.emits <;> by_cases finalizer : .finalizer ∈ rx.emits <;>
      by_cases output : .operationOutput ∈ rx.emits <;>
      simp_all [Role.stage, Role.Fits]

def leafKind (emits : List OutcomeBit) : ManifestDoc :=
  ⟨"vm", 1, [⟨"work", .specChange, emits, "", ""⟩], "", 1, 0, 0, false, 0, 0, false⟩

def leafRequest : DispatchRequest :=
  ⟨⟨"work", .specChange, ⟨1, "vm", none, 1⟩, none, [], none, 1, none, none⟩, none, ""⟩

theorem stage_of_trigger_status :
    (⟨"work", .specChange, [.status], "", ""⟩ : ReactionDecl).stageTask leafRequest =
      (.work, .workReq ⟨1, "vm", none, 1⟩ none) :=
  (stage_of_trigger (leafKind [.status]) .worker _ leafRequest rfl).mpr (by simp [Role.Fits])

/-- The manifest is accepted, and its worker's reconcile is sent as a teardown. -/
theorem worker_sent_as_delete : (leafKind [.status, .finalizer]).accepted = true ∧
    ((leafKind [.status, .finalizer]).workerReaction.map fun rx => (rx.stageTask leafRequest).1) =
    some .delete := by
  decide +kernel

end Converge.Kernel
