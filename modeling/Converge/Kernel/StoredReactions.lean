/-
# Kernel.StoredReactions -- the reactions as the database reads them

`UpsertKindManifest` marshals the reactions of a manifest and stores them as one jsonb column;
the trigger on the table walks it with `->`, `->>` and `?` (`validateStored`).  A trigger and an
emitted bit are texts on both sides, an empty verb or finalizer is left out of the document, and
a reaction without an emits list is stored with a `null`.

`validateStored_marshal` says what the walk comes to: `validateKindManifest` of the reactions the
texts stand for, error for error.
-/
import Converge.Kernel.Manifest

namespace Converge.Kernel

open List

set_option autoImplicit false

/-! ## Texts -/

def Trigger.ofText : String → Trigger
  | "specChange" => .specChange
  | "childrenSettled" => .childrenSettled
  | "deleteRequested" => .deleteRequested
  | "operation" => .operation
  | "reactor" => .reactor
  | "resync" => .resync
  | text => .other text

def OutcomeBit.ofText : String → OutcomeBit
  | "children" => .children
  | "edges" => .edges
  | "configs" => .configs
  | "status" => .status
  | "conditions" => .conditions
  | "finalizer" => .finalizer
  | "operationOutput" => .operationOutput
  | "sideEffect" => .sideEffect
  | text => .other text

/-- `model.ReactionDecl` in its texts; `emits` is `none` for a nil slice. -/
structure ReactionText where
  name : String
  trigger : String
  emits : Option (List String)
  verb : String
  finalizer : String
  deriving DecidableEq

def ReactionText.decl (rx : ReactionText) : ReactionDecl where
  name := rx.name
  trigger := .ofText rx.trigger
  emits := (rx.emits.getD []).map .ofText
  verb := rx.verb
  finalizer := rx.finalizer

def omitEmpty (key text : String) : List (String × Json) := if text = "" then [] else [(key, .str text)]

/-- `json.Marshal` of a reaction, its keys in order. -/
def ReactionText.marshal (rx : ReactionText) : Json :=
  .obj ([("emits", rx.emits.elim .null fun bits => .arr (bits.map .str))] ++ omitEmpty "finalizer" rx.finalizer ++
    [("name", .str rx.name), ("trigger", .str rx.trigger)] ++ omitEmpty "verb" rx.verb)

/-- The column; nil reactions are stored as `[]`. -/
def marshalReactions (reactions : List ReactionText) : Json := .arr (reactions.map ReactionText.marshal)

/-! ## The operators of jsonb -/

namespace Json

/-- `doc -> key`. -/
def arrow (key : String) : Json → Option Json
  | .obj fields => field? key fields
  | _ => none

/-- `doc ->> key`; `render` prints what is not a string. -/
def arrowText (render : Json → String) (key : String) (doc : Json) : Option String :=
  (doc.arrow key).bind fun
    | .null => none
    | .str text => some text
    | other => some (render other)

/-- `doc ? key`: a key of an object, an item of an array, or the string itself. -/
def hasKey (key : String) : Json → Bool
  | .obj fields => (field? key fields).isSome
  | .arr items => .str key ∈ items
  | .str text => text = key
  | _ => false

/-- `jsonb_typeof`. -/
def typeof : Json → String
  | .null => "null"
  | .bool _ => "boolean"
  | .num _ => "number"
  | .str _ => "string"
  | .arr _ => "array"
  | .obj _ => "object"

end Json

/-! ## The walk -/

section Walk

variable (render : Json → String)

/-- One round of the loop of `validate_kind_manifest`; `RAISE` prints a missing name as `<NULL>`. -/
def checkStored (n : Tally) (rx : Json) : Except String Tally :=
  let reaction := "reaction " ++ (rx.arrowText render "name").getD "<NULL>"
  let emits := (rx.arrow "emits").getD (.arr [])
  match rx.arrowText render "trigger" with
  | none => .error (reaction ++ " missing trigger")
  | some trig =>
    let hasChildren := emits.hasKey "children"
    let hasStatus := emits.hasKey "status" || emits.hasKey "conditions"
    let hasSide := emits.hasKey "sideEffect"
    if trig ∉ ["specChange", "childrenSettled", "deleteRequested", "operation", "reactor", "resync"] then
      .error (reaction ++ " has unknown trigger " ++ trig)
    else if trig = "specChange" && hasChildren && !hasStatus then
      .error (reaction ++ ": a specChange reaction emitting children must also emit status/conditions")
    else if trig = "specChange" && hasChildren && hasSide then
      .error (reaction ++ ": a children-emitting reaction may not also emit sideEffect")
    else if trig = "deleteRequested" && (rx.arrowText render "finalizer").getD "" = "" then
      .error (reaction ++ ": deleteRequested requires a finalizer")
    else if trig = "operation" && (rx.arrowText render "verb").getD "" = "" then
      .error (reaction ++ ": operation requires a verb")
    else if trig = "reactor" && !hasSide then
      .error (reaction ++ ": a reactor reaction must emit sideEffect")
    else if trig = "reactor" && (hasChildren || hasStatus) then
      .error (reaction ++ ": a reactor reaction may only emit sideEffect")
    else
      .ok {
        children := n.children + if trig = "specChange" && hasChildren then 1 else 0
        rollup := n.rollup + if trig = "childrenSettled" && hasStatus then 1 else 0
        reactor := n.reactor + if trig = "reactor" then 1 else 0 }

/-- `validate_kind_manifest`. -/
def validateStored : Json → Except String Unit
  | .arr reactions =>
    (reactions.foldlM (checkStored render) ⟨0, 0, 0⟩).bind fun n =>
      (oneReactor n).bind fun _ => (oneChildren n).bind fun _ => oneRollup n
  | other => .error ("kind_manifest.reactions must be a JSON array, got " ++ other.typeof)

/-! ## What is stored -/

theorem ofText_mem {bits : List String} {bit : OutcomeBit} {text : String}
    (same : ∀ t, OutcomeBit.ofText t = bit ↔ t = text) : bit ∈ bits.map OutcomeBit.ofText ↔ text ∈ bits := by
  rw [mem_map]
  constructor
  · rintro ⟨t, listed, hit⟩
    exact (same t).mp hit ▸ listed
  · exact fun listed => ⟨text, listed, (same text).mpr rfl⟩

variable {render} {rx : ReactionText}

theorem hasKey_emits {bit : OutcomeBit} {text : String} (same : ∀ t, OutcomeBit.ofText t = bit ↔ t = text) :
    ((rx.marshal.arrow "emits").getD (.arr [])).hasKey text = decide (bit ∈ rx.decl.emits) := by
  have stored : rx.marshal.arrow "emits" = some (rx.emits.elim .null fun bits => .arr (bits.map .str)) := rfl
  rw [stored, ReactionText.decl]
  cases rx.emits with
  | none => rfl
  | some bits =>
    show decide (Json.str text ∈ bits.map Json.str) = decide (bit ∈ bits.map OutcomeBit.ofText)
    rw [decide_eq_decide, ofText_mem same, mem_map]
    exact ⟨fun ⟨t, listed, hit⟩ => Json.str.inj hit ▸ listed, fun listed => ⟨text, listed, rfl⟩⟩

theorem arrowText_marshal (render : Json → String) (rx : ReactionText) :
    rx.marshal.arrowText render "name" = some rx.name ∧ rx.marshal.arrowText render "trigger" = some rx.trigger ∧
      (rx.marshal.arrowText render "finalizer").getD "" = rx.finalizer ∧
      (rx.marshal.arrowText render "verb").getD "" = rx.verb := by
  unfold Json.arrowText Json.arrow ReactionText.marshal omitEmpty Json.field?
  by_cases finalizer : rx.finalizer = "" <;> by_cases verb : rx.verb = "" <;> simp [finalizer, verb]

theorem hasChildren_stored : ((rx.marshal.arrow "emits").getD (.arr [])).hasKey "children" = rx.decl.hasChildren :=
  hasKey_emits fun t => by
    unfold OutcomeBit.ofText
    split <;> simp_all

theorem hasSide_stored : ((rx.marshal.arrow "emits").getD (.arr [])).hasKey "sideEffect" = rx.decl.hasSide :=
  hasKey_emits fun t => by
    unfold OutcomeBit.ofText
    split <;> simp_all

theorem hasStatus_stored : (((rx.marshal.arrow "emits").getD (.arr [])).hasKey "status" ||
    ((rx.marshal.arrow "emits").getD (.arr [])).hasKey "conditions") = rx.decl.hasStatus := by
  have status : ((rx.marshal.arrow "emits").getD (.arr [])).hasKey "status" = decide (.status ∈ rx.decl.emits) :=
    hasKey_emits fun t => by
      unfold OutcomeBit.ofText
      split <;> simp_all
  have conditions : ((rx.marshal.arrow "emits").getD (.arr [])).hasKey "conditions" =
      decide (.conditions ∈ rx.decl.emits) :=
    hasKey_emits fun t => by
      unfold OutcomeBit.ofText
      split <;> simp_all
  rw [status, conditions]
  rfl

theorem checkStored_marshal (n : Tally) : checkStored render n rx.marshal = checkStoredReaction n rx.decl := by
  obtain ⟨name, trigger, finalizer, verb⟩ := arrowText_marshal render rx
  unfold checkStored checkStoredReaction
  simp only [name, trigger, finalizer, verb, hasChildren_stored, hasSide_stored, hasStatus_stored,
    Option.getD_some]
  have declared : rx.decl.trigger = .ofText rx.trigger := rfl
  by_cases known :
      rx.trigger ∈ ["specChange", "childrenSettled", "deleteRequested", "operation", "reactor", "resync"]
  · have texts := known
    simp only [mem_cons, not_mem_nil, or_false] at texts
    rcases texts with text | text | text | text | text | text <;>
      simp [text, Trigger.ofText, Tally.count, ReactionText.decl]
  · have other : Trigger.ofText rx.trigger = .other rx.trigger := by
      unfold Trigger.ofText
      split <;> simp_all
    rw [if_pos known, declared, other]
    rfl

/-- **The walk over the stored column is the check of the reactions.** -/
theorem validateStored_marshal (reactions : List ReactionText) :
    validateStored render (marshalReactions reactions) =
      validateKindManifest (reactions.map ReactionText.decl) := by
  have rounds : (reactions.map ReactionText.marshal).foldlM (checkStored render) ⟨0, 0, 0⟩ =
      (reactions.map ReactionText.decl).foldlM checkStoredReaction ⟨0, 0, 0⟩ := by
    rw [foldlM_map, foldlM_map]
    congr
    funext n rx
    exact checkStored_marshal n
  unfold validateStored marshalReactions validateKindManifest
  rw [← rounds]

end Walk

end Converge.Kernel
