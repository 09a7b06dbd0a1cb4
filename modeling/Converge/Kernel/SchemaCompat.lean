/-
# Kernel.SchemaCompat -- the linter of schema edits

A manifest that is published again under its `(kind, kindVersion)` may carry other schemas.  The
linter compares the old ones with the new ones, axis by axis, and lists the edits that are
breaking; an edit with no reason against it is written in place.  A spec or a config is an input:
documents written for the old schema are read under the new one.  A status is an output: documents
written under the new schema are read by who knows the old one.

`Schema` is what the linter reads of a node: `type` as it stands, and the other keywords through
the decode helpers, which skip what has another shape.  Subschemas are visited through
`properties` alone.

`Unflagged` says what an edit without a reason is, keyword by keyword (`compatNode_nil`).
-/
import Converge.Kernel.StoredReactions
import Mathlib.Data.List.Dedup
import Mathlib.Data.List.Sort

namespace Converge.Kernel

open List

set_option autoImplicit false

/-! ## What is read of a schema -/

/-- The keywords of `boundKeywords`. -/
inductive Bound where
  | minimum | exclusiveMinimum | minLength | minItems | minProperties
  | maximum | exclusiveMaximum | maxLength | maxItems | maxProperties
  deriving DecidableEq

def Bound.name : Bound → String
  | minimum => "minimum"
  | exclusiveMinimum => "exclusiveMinimum"
  | minLength => "minLength"
  | minItems => "minItems"
  | minProperties => "minProperties"
  | maximum => "maximum"
  | exclusiveMaximum => "exclusiveMaximum"
  | maxLength => "maxLength"
  | maxItems => "maxItems"
  | maxProperties => "maxProperties"

/-- Whether the bound tightens as it increases. -/
def Bound.minFamily : Bound → Bool
  | minimum | exclusiveMinimum | minLength | minItems | minProperties => true
  | maximum | exclusiveMaximum | maxLength | maxItems | maxProperties => false

def boundKeywords : List Bound :=
  [.minimum, .exclusiveMinimum, .minLength, .minItems, .minProperties,
   .maximum, .exclusiveMaximum, .maxLength, .maxItems, .maxProperties]

theorem mem_boundKeywords (kw : Bound) : kw ∈ boundKeywords := by cases kw <;> decide

/-- One node of a schema, as the linter reads it. -/
inductive Schema where
  | node (type : Option Json) (required : List String) (properties : List (String × Schema))
      (enum : Option (List Json)) (bounds : Bound → Option Rat)

namespace Schema

def type : Schema → Option Json
  | node type .. => type

def required : Schema → List String
  | node _ required .. => required

def properties : Schema → List (String × Schema)
  | node _ _ properties .. => properties

def enum : Schema → Option (List Json)
  | node _ _ _ enum _ => enum

def bounds : Schema → Bound → Option Rat
  | node _ _ _ _ bounds => bounds

def property? (s : Schema) (name : String) : Option Schema :=
  (s.properties.find? fun p => p.1 = name).map Prod.snd

theorem property?_mem {s : Schema} {name : String} {child : Schema} (found : s.property? name = some child) :
    (name, child) ∈ s.properties := by
  obtain ⟨⟨key, _⟩, at_, rfl⟩ := Option.map_eq_some_iff.mp found
  have same : key = name := by simpa using find?_some at_
  exact same ▸ mem_of_find?_eq_some at_

end Schema

/-- A nullable union counts as its base type; `""` is absent. -/
def normalizeType : Option Json → String
  | some (.str t) => t
  | some (.arr items) =>
    (items.findSome? fun
      | .str t => if t ≠ "null" then some t else none
      | _ => none).getD ""
  | _ => ""

def stringSet : Option Json → List String
  | some (.arr items) => (items.filterMap fun | .str text => some text | _ => none).dedup
  | _ => []

/-- The values as a set, and whether the keyword was there at all.  Two values have one canonical
text exactly if they are equal. -/
def enumSet : Option Json → Option (List Json)
  | some (.arr items) => some items.dedup
  | _ => none

def floatOf : Option Json → Option Rat
  | some (.num q) => some q
  | _ => none

/-- The assertion `.(map[string]any)`. -/
def Json.isObj : Json → Bool
  | .obj _ => true
  | _ => false

mutual

def Schema.read : Json → Schema
  | .obj fields =>
    .node (Json.field? "type" fields) (stringSet (Json.field? "required" fields)) (propsMap fields)
      (enumSet (Json.field? "enum" fields)) fun kw => floatOf (Json.field? kw.name fields)
  | _ => .node none [] [] none fun _ => none

/-- The subschemas under `properties`, of a node with these fields. -/
def propsMap : List (String × Json) → List (String × Schema)
  | [] => []
  | (key, value) :: rest => if key = "properties" then propsOf value else propsMap rest

def propsOf : Json → List (String × Schema)
  | .obj fields => propsOfFields fields
  | _ => []

def propsOfFields : List (String × Json) → List (String × Schema)
  | [] => []
  | (name, child) :: rest =>
    if child.isObj then (name, Schema.read child) :: propsOfFields rest else propsOfFields rest

end

/-! ## The linter -/

/-- A breaking edit.  `path` is the position in the schema, from its axis down. -/
inductive Reason where
  | schemaAdded (axis : String)
  | schemaRemoved (axis : String)
  | typeChanged (path old new : String)
  | notGuaranteed (path field : String)
  | becameRequired (path field : String)
  | propertyRemoved (path : String) (output : Bool)
  | enumRemoved (path : String) (value : Json) (output : Bool)
  | enumConstraint (path : String) (added : Bool)
  | boundMoved (path : String) (kw : Bound) (old new : Rat) (tighter : Bool)
  | boundPresence (path : String) (kw : Bound) (added : Bool)

/-- The message; `marshal` prints a value and `float` a `float64`. -/
def Reason.text (marshal : Json → String) (float : Rat → String) : Reason → String
  | schemaAdded axis =>
    axis ++ ": adding a schema to a previously-untyped axis rejects documents that were valid when unconstrained"
  | schemaRemoved axis =>
    axis ++ ": removing the status schema breaks downstreams that relied on its shape"
  | typeChanged path old new => path ++ ": type changed " ++ old.quote ++ "→" ++ new.quote
  | notGuaranteed path field => path ++ ": status no longer guarantees required field " ++ field.quote
  | becameRequired path field =>
    path ++ ": field " ++ field.quote ++ " became required (rejects documents that omitted it)"
  | propertyRemoved path true => path ++ ": status property removed (readers may depend on it)"
  | propertyRemoved path false => path ++ ": property removed (documents that set it may be rejected)"
  | enumRemoved path value true => path ++ ": status enum value " ++ (marshal value).quote ++ " removed"
  | enumRemoved path value false =>
    path ++ ": enum value " ++ (marshal value).quote ++ " removed (rejects a previously-valid value)"
  | enumConstraint path added =>
    path ++ ": enum constraint " ++
      if added then "added (narrows accepted values)" else "removed (drops a guaranteed value set)"
  | boundMoved path kw old new tighter =>
    path ++ ": " ++ kw.name ++ " " ++ float old ++ "→" ++ float new ++ " " ++
      if tighter then "(tighter)" else "(looser)"
  | boundPresence path kw added =>
    path ++ ": " ++ kw.name ++ " " ++ if added then "added (tighter)" else "removed (looser)"

def requiredReasons (output : Bool) (path : String) (oldReq newReq : List String) : List Reason :=
  if output then (oldReq.filter (· ∉ newReq)).map (.notGuaranteed path)
  else (newReq.filter (· ∉ oldReq)).map (.becameRequired path)

def enumReasons (output : Bool) (path : String) : Option (List Json) → Option (List Json) → List Reason
  | some oldEnum, some newEnum => (oldEnum.filter (· ∉ newEnum)).map (.enumRemoved path · output)
  | none, none => []
  | oldEnum, newEnum =>
    let added := newEnum.isSome && !oldEnum.isSome
    if added != output then [.enumConstraint path added] else []

def boundReasons (output : Bool) (path : String) (kw : Bound) : Option Rat → Option Rat → List Reason
  | some ov, some nv =>
    if ov = nv then []
    else
      -- min tightens up, max tightens down
      let tighter := kw.minFamily == decide (nv > ov)
      if tighter != output then [.boundMoved path kw ov nv tighter] else []
  | none, none => []
  | ov, nv =>
    let added := nv.isSome && !ov.isSome
    if added != output then [.boundPresence path kw added] else []

def constraintReasons (output : Bool) (path : String) (oldN newN : Schema) : List Reason :=
  enumReasons output path oldN.enum newN.enum ++
    boundKeywords.flatMap fun kw => boundReasons output path kw (oldN.bounds kw) (newN.bounds kw)

mutual

def compatNode (output : Bool) (path : String) : Schema → Schema → List Reason
  | .node oldType oldReq oldProps oldEnum oldBounds, newN =>
    let ot := normalizeType oldType
    let nt := normalizeType newN.type
    -- a type change subsumes any deeper diff
    if ot ≠ "" ∧ nt ≠ "" ∧ ot ≠ nt then [.typeChanged path ot nt]
    else
      requiredReasons output path oldReq newN.required ++ compatProps output path newN oldProps ++
        constraintReasons output path (.node oldType oldReq oldProps oldEnum oldBounds) newN

def compatProps (output : Bool) (path : String) (newN : Schema) : List (String × Schema) → List Reason
  | [] => []
  | (name, oldChild) :: rest =>
    let child := path ++ "." ++ name
    (match newN.property? name with
      | none => [.propertyRemoved child output]
      | some newChild => compatNode output child oldChild newChild) ++
    compatProps output path newN rest

end

/-- An absent schema, `null`, and a document that does not decode to an object are all untyped. -/
def decodeCompat (raw : Option Json) : Option Json :=
  (raw.bind Json.decoded?).filter Json.isObj

def axisCompat (axis : String) (oldRaw newRaw : Option Json) (output : Bool) : List Reason :=
  match decodeCompat oldRaw, decodeCompat newRaw with
  | none, none => []
  | none, some _ => if output then [] else [.schemaAdded axis]
  | some _, none => if output then [.schemaRemoved axis] else []
  | some oldS, some newS => compatNode output axis (Schema.read oldS) (Schema.read newS)

inductive Axis where
  | spec | config | status
  deriving DecidableEq

def Axis.name : Axis → String
  | spec => "spec"
  | config => "config"
  | status => "status"

/-- The status is what the provider writes. -/
def Axis.output : Axis → Bool
  | spec | config => false
  | status => true

/-- The schemas of a manifest: `SpecSchema`, `ConfigSchema` and `StatusSchema`. -/
abbrev ManifestSchemas := Axis → Option Json

structure SchemaCompat where
  compatible : Bool
  reasons : List String
  deriving DecidableEq

def sortedReasons (reasons : List String) : List String := reasons.insertionSort (· ≤ ·)

def manifestSchemaCompat (marshal : Json → String) (float : Rat → String) (oldM newM : ManifestSchemas) :
    SchemaCompat :=
  let reasons := [Axis.spec, .config, .status].flatMap fun axis =>
    axisCompat axis.name (oldM axis) (newM axis) axis.output
  { compatible := reasons.isEmpty
    reasons := sortedReasons (reasons.map (Reason.text marshal float)) }

/-! ## What passes -/

/-- Under which schema a document is written. -/
def Schema.writer (output : Bool) (oldN newN : Schema) : Schema := if output then newN else oldN

/-- Under which schema it is read. -/
def Schema.reader (output : Bool) (oldN newN : Schema) : Schema := if output then oldN else newN

/-- The second bound asks no more than the first. -/
def Bound.Looser (kw : Bound) (a b : Rat) : Prop := if kw.minFamily then b ≤ a else a ≤ b

/-- The edits of a node and of what is under its properties that no reason is given against. -/
inductive Unflagged (output : Bool) : Schema → Schema → Prop
  | node {oldN newN : Schema} (type : normalizeType oldN.type = "" ∨ normalizeType newN.type = "" ∨
        normalizeType oldN.type = normalizeType newN.type)
      (required : (Schema.reader output oldN newN).required ⊆ (Schema.writer output oldN newN).required)
      (kept : ∀ name child, (name, child) ∈ oldN.properties → (newN.property? name).isSome)
      (children : ∀ name oldChild newChild, (name, oldChild) ∈ oldN.properties →
        newN.property? name = some newChild → Unflagged output oldChild newChild)
      -- also for an output it is the old values that are looked up among the new ones
      (enumKept : ∀ olds news, oldN.enum = some olds → newN.enum = some news → olds ⊆ news)
      (enum : (Schema.reader output oldN newN).enum.isSome → (Schema.writer output oldN newN).enum.isSome)
      (bounds : ∀ kw limit, (Schema.reader output oldN newN).bounds kw = some limit →
        ∃ written, (Schema.writer output oldN newN).bounds kw = some written ∧ kw.Looser written limit) :
      Unflagged output oldN newN

theorem requiredReasons_nil (output : Bool) (path : String) (oldN newN : Schema) :
    requiredReasons output path oldN.required newN.required = [] ↔
      (Schema.reader output oldN newN).required ⊆ (Schema.writer output oldN newN).required := by
  cases output <;>
    simp [requiredReasons, Schema.reader, Schema.writer, filter_eq_nil_iff, subset_def]

theorem enumReasons_nil (output : Bool) (path : String) (oldN newN : Schema) :
    enumReasons output path oldN.enum newN.enum = [] ↔
      (∀ olds news, oldN.enum = some olds → newN.enum = some news → olds ⊆ news) ∧
      ((Schema.reader output oldN newN).enum.isSome → (Schema.writer output oldN newN).enum.isSome) := by
  cases oldEnum : oldN.enum <;> cases newEnum : newN.enum <;> cases output <;>
    simp [enumReasons, Schema.reader, Schema.writer, oldEnum, newEnum, filter_eq_nil_iff, subset_def]

theorem boundReasons_nil (output : Bool) (path : String) (kw : Bound) (oldN newN : Schema) :
    boundReasons output path kw (oldN.bounds kw) (newN.bounds kw) = [] ↔
      ∀ limit, (Schema.reader output oldN newN).bounds kw = some limit →
        ∃ written, (Schema.writer output oldN newN).bounds kw = some written ∧ kw.Looser written limit := by
  cases oldBound : oldN.bounds kw <;> cases newBound : newN.bounds kw <;> cases output <;>
    simp [boundReasons, Schema.reader, Schema.writer, oldBound, newBound, Bound.Looser]
  all_goals
    cases kw.minFamily <;> simp <;> grind

theorem constraintReasons_nil (output : Bool) (path : String) (oldN newN : Schema) :
    constraintReasons output path oldN newN = [] ↔ enumReasons output path oldN.enum newN.enum = [] ∧
        ∀ kw, boundReasons output path kw (oldN.bounds kw) (newN.bounds kw) = [] := by
  simp [constraintReasons, mem_boundKeywords]

mutual

theorem compatNode_nil (output : Bool) : ∀ (path : String) (oldN newN : Schema),
    compatNode output path oldN newN = [] ↔ Unflagged output oldN newN
  | path, .node oldType oldReq oldProps oldEnum oldBounds, newN => by
    have required := requiredReasons_nil output path (.node oldType oldReq oldProps oldEnum oldBounds) newN
    have props := compatProps_nil output path newN oldProps
    have enum := enumReasons_nil output path (.node oldType oldReq oldProps oldEnum oldBounds) newN
    have bounds := fun kw => boundReasons_nil output path kw (.node oldType oldReq oldProps oldEnum oldBounds) newN
    simp only [compatNode]
    split
    · rename_i changed
      refine ⟨nofun, fun ⟨type, _, _, _, _, _, _⟩ => ?_⟩
      obtain ⟨old, new, ne⟩ := changed
      rcases type with h | h | h <;> contradiction
    · simp only [append_eq_nil_iff, constraintReasons_nil, props, enum, bounds]
      rw [show requiredReasons output path oldReq newN.required = [] ↔ _ from required]
      constructor
      · rintro ⟨⟨required, props⟩, ⟨enumKept, enum⟩, bounds⟩
        refine ⟨?_, required, ?_, ?_, enumKept, enum, bounds⟩
        · tauto
        · intro name child mem
          obtain ⟨newChild, found, _⟩ := props name child mem
          simp [found]
        · intro name oldChild newChild mem found
          obtain ⟨other, found', unflagged⟩ := props name oldChild mem
          cases found.symm.trans found'
          exact unflagged
      · rintro ⟨_, required, kept, children, enumKept, enum, bounds⟩
        refine ⟨⟨required, fun name child mem => ?_⟩, ⟨enumKept, enum⟩, bounds⟩
        obtain ⟨newChild, found⟩ := Option.isSome_iff_exists.mp (kept name child mem)
        exact ⟨newChild, found, children name child newChild mem found⟩

theorem compatProps_nil (output : Bool) (path : String) (newN : Schema) : ∀ oldProps : List (String × Schema),
    compatProps output path newN oldProps = [] ↔ ∀ name child, (name, child) ∈ oldProps →
      ∃ newChild, newN.property? name = some newChild ∧ Unflagged output child newChild
  | [] => by simp [compatProps]
  | (name, child) :: rest => by
    simp only [compatProps, append_eq_nil_iff, compatProps_nil output path newN rest]
    cases found : newN.property? name with
    | none =>
      refine ⟨fun h => absurd h.1 (by simp), fun all => ?_⟩
      obtain ⟨newChild, found', _⟩ := all name child mem_cons_self
      cases found.symm.trans found'
    | some newChild =>
      simp only [compatNode_nil output (path ++ "." ++ name) child newChild]
      constructor
      · rintro ⟨unflagged, all⟩ key old mem
        rcases mem_cons.mp mem with same | mem
        · cases same
          exact ⟨newChild, found, unflagged⟩
        · exact all key old mem
      · intro all
        refine ⟨?_, fun key old mem => all key old (.tail _ mem)⟩
        obtain ⟨other, found', unflagged⟩ := all name child mem_cons_self
        cases found.symm.trans found'
        exact unflagged

end

/-- An axis whose edit no reason is given against. -/
def AxisUnflagged (output : Bool) (oldRaw newRaw : Option Json) : Prop :=
  match decodeCompat oldRaw, decodeCompat newRaw with
  | none, none => True
  | none, some _ => output = true
  | some _, none => output = false
  | some oldS, some newS => Unflagged output (Schema.read oldS) (Schema.read newS)

theorem axisCompat_nil (axis : String) (oldRaw newRaw : Option Json) (output : Bool) :
    axisCompat axis oldRaw newRaw output = [] ↔ AxisUnflagged output oldRaw newRaw := by
  unfold axisCompat AxisUnflagged
  cases decodeCompat oldRaw <;> cases decodeCompat newRaw <;> cases output <;> simp [compatNode_nil]

/-- The linter passes an edit exactly if nothing it looks for is on any axis. -/
theorem compatible_iff (marshal : Json → String) (float : Rat → String) (oldM newM : ManifestSchemas) :
    (manifestSchemaCompat marshal float oldM newM).compatible = true ↔
      ∀ axis : Axis, AxisUnflagged axis.output (oldM axis) (newM axis) := by
  have each : ∀ axis : Axis, axis ∈ [Axis.spec, .config, .status] := fun axis => by cases axis <;> decide
  simp only [manifestSchemaCompat, List.isEmpty_iff, List.flatMap_eq_nil_iff, axisCompat_nil]
  exact ⟨fun all axis => all axis (each axis), fun all axis _ => all axis⟩

example :
    let only (schema : Json) : ManifestSchemas := fun axis => if axis = .spec then some schema else none
    let zone := only (.obj [("properties", .obj [("zone", .obj [("type", .str "string")])])])
    (manifestSchemaCompat (fun _ => "") (fun _ => "") zone (only (.obj []))).reasons =
      ["spec.zone: property removed (documents that set it may be rejected)"] := by
  decide +kernel

end Converge.Kernel
