/-
# Guarantees.SchemaEdits -- what an edit the linter passes may do to documents

The linter is meant to be sound: an edit it calls compatible keeps every document that was written
readable.  Over the keywords it reads, it is so but for what it does not look at:

* `normalizeType` takes a nullable union for its base type, and a node without a type is compared
  with nothing, so a type may lose its `null`, or be asked for where any value was let in;
* a property that only the new schema has is not looked at, and an open object may have a value
  there already;
* an output's enum is compared the way of an input: values that were added are not noticed.

`Unharmed` says of one document that none of these touches it, and `reads_iff_unharmed` that a
document of an edit that passes is readable exactly if it is unharmed.  Keywords outside the ones the
linter reads are not compared at all (`unrecognized_edit_flagged`).
-/
import Converge.Kernel.SchemaCompat

namespace Converge.Kernel

open List Option

set_option autoImplicit false

/-! ## Documents of a schema -/

/-- Whether a value has the type of this name. -/
def Json.isType (name : String) : Json → Bool
  | .null => name = "null"
  | .bool _ => name = "boolean"
  | .num q => name = "number" || (name = "integer" && q.den = 1)
  | .str _ => name = "string"
  | .arr _ => name = "array"
  | .obj _ => name = "object"

def typeAdmits : Option Json → Json → Bool
  | some (.str t), doc => doc.isType t
  | some (.arr items), doc => items.any fun | .str t => doc.isType t | _ => false
  | _, _ => true

def enumAdmits : Option (List Json) → Json → Bool
  | some values, doc => values.contains doc
  | none, _ => true

/-- A bound is about values of one type, and lets in the others. -/
def Bound.admits : Bound → Rat → Json → Bool
  | minimum, limit, .num q => limit ≤ q
  | exclusiveMinimum, limit, .num q => limit < q
  | maximum, limit, .num q => q ≤ limit
  | exclusiveMaximum, limit, .num q => q < limit
  | minLength, limit, .str text => limit ≤ text.length
  | maxLength, limit, .str text => text.length ≤ limit
  | minItems, limit, .arr items => limit ≤ items.length
  | maxItems, limit, .arr items => items.length ≤ limit
  | minProperties, limit, .obj fields => limit ≤ fields.length
  | maxProperties, limit, .obj fields => fields.length ≤ limit
  | _, _, _ => true

theorem Bound.Looser.admits {kw : Bound} {a b : Rat} {doc : Json} (looser : kw.Looser a b)
    (ok : kw.admits a doc = true) : kw.admits b doc = true := by
  cases kw <;> cases doc <;> simp_all [Bound.admits, Bound.Looser, Bound.minFamily] <;> grind

/-- The required fields are there, in an object. -/
def hasRequired (required : List String) : Json → Bool
  | .obj fields => required.all fun name => (Json.field? name fields).isSome
  | _ => true

theorem hasRequired_subset {a b : List String} {doc : Json} (sub : b ⊆ a) (ok : hasRequired a doc = true) :
    hasRequired b doc = true := by
  cases doc <;> simp_all [hasRequired]
  exact fun name mem => ok name (sub mem)

mutual

/-- A document is valid under a schema; objects are open. -/
def Schema.valid : Schema → Json → Bool
  | .node type required properties enum bounds, doc =>
    typeAdmits type doc && enumAdmits enum doc &&
      boundKeywords.all (fun kw => (bounds kw).all fun limit => kw.admits limit doc) &&
      hasRequired required doc && validProperties properties doc

def validProperties : List (String × Schema) → Json → Bool
  | [], _ => true
  | (name, child) :: rest, doc =>
    (match doc.arrow name with
      | some value => child.valid value
      | none => true) &&
    validProperties rest doc

end

theorem validProperties_iff (doc : Json) (props : List (String × Schema)) :
    validProperties props doc = true ↔ ∀ name child value, (name, child) ∈ props →
      doc.arrow name = some value → child.valid value = true := by
  induction props with
  | nil => simp [validProperties]
  | cons prop rest ih =>
    obtain ⟨name, child⟩ := prop
    simp only [validProperties, Bool.and_eq_true, ih]
    constructor
    · rintro ⟨first, others⟩ key c value mem there
      rcases mem_cons.mp mem with same | mem
      · cases same
        simpa [there] using first
      · exact others key c value mem there
    · intro all
      refine ⟨?_, fun key c value mem there => all key c value (.tail _ mem) there⟩
      cases there : doc.arrow name with
      | none => rfl
      | some value => exact all name child value mem_cons_self there

/-- Validity, keyword by keyword. -/
structure Schema.Validates (s : Schema) (doc : Json) : Prop where
  type : typeAdmits s.type doc = true
  enum : enumAdmits s.enum doc = true
  bounds : ∀ kw limit, s.bounds kw = some limit → kw.admits limit doc = true
  required : hasRequired s.required doc = true
  properties : ∀ name child value, (name, child) ∈ s.properties → doc.arrow name = some value →
    child.valid value = true

theorem Schema.valid_iff (s : Schema) (doc : Json) : s.valid doc = true ↔ s.Validates doc := by
  cases s with
  | node type required properties enum bounds =>
    simp only [Schema.valid, Bool.and_eq_true, validProperties_iff, List.all_eq_true, mem_boundKeywords,
      Option.all_eq_true, forall_const]
    exact ⟨fun ⟨⟨⟨⟨t, e⟩, b⟩, r⟩, p⟩ => ⟨t, e, fun kw limit found => b kw limit found, r, p⟩,
      fun ⟨t, e, b, r, p⟩ => ⟨⟨⟨⟨t, e⟩, fun kw limit found => b kw limit found⟩, r⟩, p⟩⟩

/-! ## The schemas that are read whole -/

def typeNames : List String := ["null", "boolean", "integer", "number", "string", "array", "object"]

/-- A type, or one that may be `null` besides. -/
inductive TypeWord : Json → Prop
  | plain {name : String} (known : name ∈ typeNames) : TypeWord (.str name)
  | nullable {name : String} (known : name ∈ typeNames) (other : name ≠ "null") :
      TypeWord (.arr [.str name, .str "null"])
  | nullFirst {name : String} (known : name ∈ typeNames) (other : name ≠ "null") :
      TypeWord (.arr [.str "null", .str name])

def recognizedKeywords : List String :=
  ["type", "properties", "required", "enum"] ++ boundKeywords.map Bound.name

/-- A schema document built from the recognized keywords alone. -/
inductive Recognized : Json → Prop
  | node {fields : List (String × Json)} (keys : ∀ f ∈ fields, f.1 ∈ recognizedKeywords)
      (type : ∀ t, Json.field? "type" fields = some t → TypeWord t)
      (required : ∀ v, Json.field? "required" fields = some v → ∃ names : List String, v = .arr (names.map .str))
      (enum : ∀ v, Json.field? "enum" fields = some v → ∃ items, v = .arr items)
      (bounds : ∀ (kw : Bound) v, Json.field? kw.name fields = some v → ∃ q, v = .num q)
      (properties : ∀ v, Json.field? "properties" fields = some v →
        ∃ props, v = .obj props ∧ (props.map Prod.fst).Nodup)
      (children : ∀ props name child, Json.field? "properties" fields = some (.obj props) →
        (name, child) ∈ props → Recognized child) :
      Recognized (.obj fields)

/-- What a recognized document is read as. -/
inductive Schema.Plain : Schema → Prop
  | node {s : Schema} (type : ∀ t, s.type = some t → TypeWord t) (distinct : (s.properties.map Prod.fst).Nodup)
      (children : ∀ name child, (name, child) ∈ s.properties → child.Plain) : s.Plain

theorem Schema.Plain.type {s : Schema} : s.Plain → ∀ t, s.type = some t → TypeWord t
  | .node type _ _ => type

theorem Schema.Plain.child {s : Schema} : s.Plain → ∀ {name child}, (name, child) ∈ s.properties → child.Plain
  | .node _ _ children => fun mem => children _ _ mem

theorem Schema.Plain.property? {s : Schema} {name : String} {child : Schema} :
    s.Plain → (name, child) ∈ s.properties → s.property? name = some child
  | .node _ distinct _, mem => by
    unfold Schema.property?
    generalize s.properties = props at distinct mem
    induction props with
    | nil => cases mem
    | cons p rest ih =>
      rw [map_cons, nodup_cons] at distinct
      rcases mem_cons.mp mem with rfl | mem
      · simp
      · have ne : p.1 ≠ name := fun same => distinct.1 (same ▸ mem_map_of_mem mem)
        simpa [find?_cons, ne] using ih distinct.2 mem

theorem propsMap_eq : ∀ fields : List (String × Json),
    propsMap fields = ((Json.field? "properties" fields).map propsOf).getD []
  | [] => by simp [propsMap, Json.field?]
  | (key, value) :: rest => by
    by_cases same : key = "properties"
    · simp [propsMap, Json.field?, same]
    · simpa [propsMap, Json.field?, same] using propsMap_eq rest

theorem propsOfFields_mem {name : String} {s : Schema} : ∀ {props : List (String × Json)},
    (name, s) ∈ propsOfFields props → ∃ child, (name, child) ∈ props ∧ s = Schema.read child
  | (key, child) :: rest, mem => by
    rw [propsOfFields] at mem
    split at mem
    · rcases mem_cons.mp mem with same | mem
      · cases same
        exact ⟨child, mem_cons_self, rfl⟩
      · obtain ⟨c, there, eq⟩ := propsOfFields_mem mem
        exact ⟨c, .tail _ there, eq⟩
    · obtain ⟨c, there, eq⟩ := propsOfFields_mem mem
      exact ⟨c, .tail _ there, eq⟩

theorem propsOfFields_names : ∀ props : List (String × Json),
    ((propsOfFields props).map Prod.fst).Sublist (props.map Prod.fst)
  | [] => by simp [propsOfFields]
  | (key, child) :: rest => by
    rw [propsOfFields]
    split
    · exact (propsOfFields_names rest).cons_cons key
    · exact (propsOfFields_names rest).cons key

theorem Recognized.plain {raw : Json} (recognized : Recognized raw) : (Schema.read raw).Plain := by
  induction recognized with
  | @node fields keys type required enum bounds properties children ih =>
    have props : (Schema.read (.obj fields)).properties = propsMap fields := by
      rw [Schema.read]
      rfl
    rw [propsMap_eq] at props
    cases there : Json.field? "properties" fields with
    | none =>
      rw [there] at props
      refine .node (by rw [Schema.read]; exact type) ?_ ?_ <;> simp [props]
    | some v =>
      obtain ⟨list, rfl, distinct⟩ := properties v there
      rw [there] at props
      simp only [map_some, getD_some, propsOf] at props
      refine .node (by rw [Schema.read]; exact type) ?_ ?_
      · rw [props]
        exact distinct.sublist (propsOfFields_names list)
      · intro name child mem
        rw [props] at mem
        obtain ⟨c, inList, rfl⟩ := propsOfFields_mem mem
        exact ih list name c there inList

/-! ## What the linter does not look at -/

/-- A document is unharmed by the changes that are not looked at, at every position both schemas
have. -/
inductive Unharmed (output : Bool) : Schema → Schema → Json → Prop
  | node {oldN newN : Schema} {doc : Json} (type : (Schema.writer output oldN newN).type = none ∨ doc = .null →
        typeAdmits (Schema.reader output oldN newN).type doc = true)
      (enum : output = true → enumAdmits oldN.enum doc = true)
      (added : output = false → ∀ name child value, (name, child) ∈ newN.properties →
        oldN.property? name = none → doc.arrow name = some value → child.valid value = true)
      (common : ∀ name oldChild newChild value, oldN.property? name = some oldChild →
        newN.property? name = some newChild → doc.arrow name = some value →
        Unharmed output oldChild newChild value) :
      Unharmed output oldN newN doc

theorem TypeWord.base {t : Json} (word : TypeWord t) : ∃ name, name ≠ "" ∧ normalizeType (some t) = name ∧
      ∀ doc, doc ≠ .null → typeAdmits (some t) doc = doc.isType name := by
  cases word with
  | @plain name known => exact ⟨name, by rintro rfl; revert known; decide, rfl, fun _ _ => rfl⟩
  | @nullable name known other | @nullFirst name known other =>
    refine ⟨name, by rintro rfl; revert known; decide, by simp [normalizeType, other], fun doc some => ?_⟩
    cases doc <;> simp_all [typeAdmits, Json.isType]

/-- Types the linter compares and finds equal let in the same values, but for `null`. -/
theorem typeAdmits_of_same {a b : Option Json} {doc : Json} (wordA : ∀ t, a = some t → TypeWord t)
    (wordB : ∀ t, b = some t → TypeWord t)
    (same : normalizeType a = "" ∨ normalizeType b = "" ∨ normalizeType a = normalizeType b)
    (unharmed : a = none ∨ doc = .null → typeAdmits b doc = true) (ok : typeAdmits a doc = true) :
    typeAdmits b doc = true := by
  by_cases unseen : a = none ∨ doc = .null
  · exact unharmed unseen
  · obtain ⟨typed, some⟩ := not_or.mp unseen
    obtain ⟨t, rfl⟩ := ne_none_iff_exists'.mp typed
    cases b with
    | none => rfl
    | some u =>
      obtain ⟨nameA, known, eqA, admitsA⟩ := (wordA t rfl).base
      obtain ⟨nameB, known', eqB, admitsB⟩ := (wordB u rfl).base
      rw [eqA, eqB] at same
      obtain rfl : nameA = nameB := by tauto
      rwa [admitsB doc some, ← admitsA doc some]

theorem enumAdmits_subset {olds news : Option (List Json)} {doc : Json}
    (kept : ∀ a b, olds = some a → news = some b → a ⊆ b) (there : news.isSome → olds.isSome)
    (ok : enumAdmits olds doc = true) : enumAdmits news doc = true := by
  cases news with
  | none => rfl
  | some b =>
    obtain ⟨a, rfl⟩ := isSome_iff_exists.mp (there rfl)
    simp only [enumAdmits, contains_iff_mem] at ok ⊢
    exact kept a b rfl rfl ok

/-- The rule of the linter: an edit it passes keeps a document readable exactly if what it does not
look at leaves the document alone. -/
theorem reads_iff_unharmed {output : Bool} {oldN newN : Schema} (unflagged : Unflagged output oldN newN)
    (plainOld : oldN.Plain) (plainNew : newN.Plain) {doc : Json}
    (written : (Schema.writer output oldN newN).valid doc = true) :
    (Schema.reader output oldN newN).valid doc = true ↔ Unharmed output oldN newN doc := by
  induction unflagged generalizing doc with
  | @node oldN newN type required kept children enumKept enum bounds ih =>
    rw [Schema.valid_iff] at written ⊢
    have child : ∀ name oldChild newChild value, oldN.property? name = some oldChild →
        newN.property? name = some newChild → doc.arrow name = some value →
        ((Schema.reader output oldChild newChild).valid value = true ↔
          Unharmed output oldChild newChild value) := by
      intro name oldChild newChild value inOld inNew there
      have memOld := Schema.property?_mem inOld
      have memNew := Schema.property?_mem inNew
      refine ih name oldChild newChild memOld inNew (plainOld.child memOld) (plainNew.child memNew) ?_
      cases output
      · exact written.properties name oldChild value memOld there
      · exact written.properties name newChild value memNew there
    constructor
    · intro read
      refine .node (fun _ => read.type) ?_ ?_ ?_
      · rintro rfl
        exact read.enum
      · rintro rfl name c value mem _ there
        exact read.properties name c value mem there
      · intro name oldChild newChild value inOld inNew there
        rw [← child name oldChild newChild value inOld inNew there]
        cases output
        · exact read.properties name newChild value (Schema.property?_mem inNew) there
        · exact read.properties name oldChild value (Schema.property?_mem inOld) there
    · rintro ⟨unseenType, unseenEnum, added, common⟩
      have rest : ∀ name oldChild newChild value, oldN.property? name = some oldChild →
          newN.property? name = some newChild → doc.arrow name = some value →
          (Schema.reader output oldChild newChild).valid value = true :=
        fun name oldChild newChild value inOld inNew there =>
          (child name oldChild newChild value inOld inNew there).mpr
            (common name oldChild newChild value inOld inNew there)
      refine ⟨?_, ?_, ?_, hasRequired_subset required written.required, ?_⟩
      · cases output
        · exact typeAdmits_of_same plainOld.type plainNew.type type unseenType written.type
        · exact typeAdmits_of_same plainNew.type plainOld.type (by tauto) unseenType written.type
      · cases output
        · exact enumAdmits_subset enumKept enum written.enum
        · exact unseenEnum rfl
      · intro kw limit found
        obtain ⟨own, there, looser⟩ := bounds kw limit found
        exact looser.admits (written.bounds kw own there)
      · intro name c value mem there
        cases output
        · cases inOld : oldN.property? name with
          | none => exact added rfl name c value mem inOld there
          | some oldChild => exact rest name oldChild c value inOld (plainNew.property? mem) there
        · obtain ⟨newChild, inNew⟩ := isSome_iff_exists.mp (kept name c mem)
          exact rest name c newChild value (plainOld.property? mem) inNew there

/-! ## The axes -/

/-- Whether a document may be written for an axis: any document, where it has no schema. -/
def axisAccepts (raw : Option Json) (doc : Json) : Bool :=
  (decodeCompat raw).all fun s => (Schema.read s).valid doc

/-- The axis has no schema, or one built from the recognized keywords. -/
def AxisRecognized (raw : Option Json) : Prop := ∀ s, decodeCompat raw = some s → Recognized s

def AxisUnharmed (output : Bool) (oldRaw newRaw : Option Json) (doc : Json) : Prop :=
  match decodeCompat oldRaw, decodeCompat newRaw with
  | some oldS, some newS => Unharmed output (Schema.read oldS) (Schema.read newS) doc
  | _, _ => True

theorem axis_reads_iff {output : Bool} {oldRaw newRaw : Option Json}
    (unflagged : AxisUnflagged output oldRaw newRaw)
    (old : AxisRecognized oldRaw) (new : AxisRecognized newRaw) {doc : Json}
    (written : axisAccepts (if output then newRaw else oldRaw) doc = true) :
    axisAccepts (if output then oldRaw else newRaw) doc = true ↔ AxisUnharmed output oldRaw newRaw doc := by
  unfold AxisUnflagged at unflagged
  unfold AxisUnharmed
  cases decodedOld : decodeCompat oldRaw <;> cases decodedNew : decodeCompat newRaw <;>
    simp only [decodedOld, decodedNew] at unflagged
  case some.some oldS newS =>
      have there : (Schema.writer output (Schema.read oldS) (Schema.read newS)).valid doc = true := by
        cases output <;> simpa [axisAccepts, Schema.writer, decodedOld, decodedNew] using written
      simp only [← reads_iff_unharmed unflagged (old oldS decodedOld).plain (new newS decodedNew).plain there]
      cases output <;> simp [axisAccepts, Schema.reader, decodedOld, decodedNew]
  all_goals cases output <;> simp_all [axisAccepts]

/-- An edit the linter passes keeps the documents of a spec or a config valid exactly if none of
them has a `null` or an untyped value that the new type refuses, or a value that the schema of a
new property refuses. -/
theorem input_edits_sound (marshal : Json → String) (float : Rat → String) (oldM newM : ManifestSchemas)
    (axis : Axis) (input : axis.output = false) (old : AxisRecognized (oldM axis))
    (new : AxisRecognized (newM axis)) : ((manifestSchemaCompat marshal float oldM newM).compatible = true →
      ∀ doc, axisAccepts (oldM axis) doc = true → axisAccepts (newM axis) doc = true) ↔
    ((∀ a : Axis, AxisUnflagged a.output (oldM a) (newM a)) →
      ∀ doc, axisAccepts (oldM axis) doc = true → AxisUnharmed false (oldM axis) (newM axis) doc) := by
  rw [compatible_iff]
  refine forall_congr' fun unflagged => forall_congr' fun doc => forall_congr' fun written => ?_
  exact @axis_reads_iff false _ _ (input ▸ unflagged axis) old new doc written

def withSchema (axis : Axis) (schema : Json) : ManifestSchemas := fun a => if a = axis then some schema else none

/-- The schema of an object with one required field. -/
def requiringZone (names : List String) : Json :=
  .obj [("required", .arr (names.map .str)), ("type", .str "object")]

theorem requiringZone_recognized (names : List String) : Recognized (requiringZone names) := by
  refine .node (by simp [recognizedKeywords]) ?_ ?_ (by simp [Json.field?]) ?_ (by simp [Json.field?])
    (by simp [Json.field?])
  · rintro t found
    obtain rfl : Json.str "object" = t := by simpa [Json.field?] using found
    exact .plain (by decide)
  · rintro v found
    exact ⟨names, by simpa [Json.field?, eq_comm] using found⟩
  · intro kw v found
    cases kw <;> simp [Json.field?, Bound.name] at found

/-- A requirement that is dropped: every document stays valid. -/
theorem input_edits_sound_unrequired :
    let old := withSchema .spec (requiringZone ["zone"])
    let new := withSchema .spec (requiringZone [])
    ∀ doc, axisAccepts (old .spec) doc = true → axisAccepts (new .spec) doc = true := by
  intro old new
  have decoded : ∀ axis : Axis, ∀ names ∈ [["zone"], []],
      decodeCompat (withSchema .spec (requiringZone names) axis) =
        if axis = .spec then some (requiringZone names) else none := by
    intro axis
    cases axis <;> decide +kernel
  have recognized : ∀ names ∈ [["zone"], []], AxisRecognized (withSchema .spec (requiringZone names) .spec) := by
    intro names among s found
    rw [decoded .spec names among] at found
    cases found
    exact requiringZone_recognized names
  have passes : (manifestSchemaCompat (fun _ => "") (fun _ => "") old new).compatible = true := by decide +kernel
  refine (input_edits_sound (fun _ => "") (fun _ => "") old new .spec rfl (recognized _ (by decide))
    (recognized _ (by decide))).mpr (fun _ doc written => ?_) passes
  simp only [AxisUnharmed, old, new, decoded .spec ["zone"] (by decide), decoded .spec [] (by decide), if_true]
  refine .node ?_ nofun ?_ ?_
  · rintro (untyped | rfl)
    · cases untyped
    · exact absurd written (by decide +kernel)
  · intro _ name child value mem
    cases mem
  · intro name oldChild newChild value found
    cases found

/-- A field that could be `null` is a string from now on: the edit passes, and the documents with a
`null` there are refused. -/
theorem nullability_dropped :
    let zone (type : Json) := withSchema .spec
      (.obj [("properties", .obj [("zone", .obj [("type", type)])]), ("type", .str "object")])
    let old := zone (.arr [.str "string", .str "null"])
    let new := zone (.str "string")
    let doc := Json.obj [("zone", .null)]
    (manifestSchemaCompat (fun _ => "") (fun _ => "") old new).compatible = true ∧
      axisAccepts (old .spec) doc = true ∧ axisAccepts (new .spec) doc = false := by
  decide +kernel

/-- An edit the linter passes keeps what a provider may write readable under the old status schema
exactly if no document of the new one has a `null` or an untyped value that the old type refuses,
or a value that is not in the old enum. -/
theorem output_edits_sound (marshal : Json → String) (float : Rat → String) (oldM newM : ManifestSchemas)
    (old : AxisRecognized (oldM .status)) (new : AxisRecognized (newM .status)) :
    ((manifestSchemaCompat marshal float oldM newM).compatible = true →
      ∀ doc, axisAccepts (newM .status) doc = true → axisAccepts (oldM .status) doc = true) ↔
    ((∀ a : Axis, AxisUnflagged a.output (oldM a) (newM a)) →
      ∀ doc, axisAccepts (newM .status) doc = true → AxisUnharmed true (oldM .status) (newM .status) doc) := by
  rw [compatible_iff]
  refine forall_congr' fun unflagged => forall_congr' fun doc => forall_congr' fun written => ?_
  exact @axis_reads_iff true _ _ (unflagged .status) old new doc written

/-- The schema of a health status. -/
def healthOf (values : List String) : Json :=
  .obj [("enum", .arr (values.map .str)), ("type", .str "string")]

theorem healthOf_recognized (values : List String) : Recognized (healthOf values) := by
  refine .node (by simp [recognizedKeywords]) ?_ (by simp [Json.field?]) ?_ ?_ (by simp [Json.field?])
    (by simp [Json.field?])
  · rintro t found
    obtain rfl : Json.str "string" = t := by simpa [Json.field?] using found
    exact .plain (by decide)
  · rintro v found
    exact ⟨values.map .str, by simpa [Json.field?, eq_comm] using found⟩
  · intro kw v found
    cases kw <;> simp [Json.field?, Bound.name] at found

/-- An enum on a status that had none: every document of the new schema is one of the old. -/
theorem output_edits_sound_narrowed :
    let old := withSchema .status (.obj [("type", .str "string")])
    let new := withSchema .status (healthOf ["up", "down"])
    ∀ doc, axisAccepts (new .status) doc = true → axisAccepts (old .status) doc = true := by
  intro old new
  have decodedOld : decodeCompat (old .status) = some (.obj [("type", .str "string")]) := by decide +kernel
  have decodedNew : decodeCompat (new .status) = some (healthOf ["up", "down"]) := by decide +kernel
  have recognizedOld : AxisRecognized (old .status) := by
    intro s found
    cases decodedOld.symm.trans found
    refine .node (by simp [recognizedKeywords]) ?_ (by simp [Json.field?]) (by simp [Json.field?]) ?_
      (by simp [Json.field?]) (by simp [Json.field?])
    · rintro t found
      obtain rfl : Json.str "string" = t := by simpa [Json.field?] using found
      exact .plain (by decide)
    · intro kw v found
      cases kw <;> simp [Json.field?, Bound.name] at found
  have recognizedNew : AxisRecognized (new .status) := by
    intro s found
    cases decodedNew.symm.trans found
    exact healthOf_recognized _
  have passes : (manifestSchemaCompat (fun _ => "") (fun _ => "") old new).compatible = true := by decide +kernel
  refine (output_edits_sound (fun _ => "") (fun _ => "") old new recognizedOld recognizedNew).mpr
    (fun _ doc written => ?_) passes
  simp only [AxisUnharmed, decodedOld, decodedNew]
  refine .node ?_ (fun _ => rfl) nofun ?_
  · rintro (untyped | rfl)
    · cases untyped
    · exact absurd written (by decide +kernel)
  · intro name oldChild newChild value found
    cases found

/-- A value is added to the enum of a status: the edit passes, and who knows the old values meets
one that is not among them. -/
theorem status_value_added :
    let old := withSchema .status (healthOf ["up"])
    let new := withSchema .status (healthOf ["up", "degraded"])
    let doc := Json.str "degraded"
    (manifestSchemaCompat (fun _ => "") (fun _ => "") old new).compatible = true ∧
      axisAccepts (new .status) doc = true ∧ axisAccepts (old .status) doc = false := by
  decide +kernel

/-! ## Keywords that are not read -/

/-- The schemas differ in a keyword that is not read, at a position both have. -/
inductive DiffersOutside : Json → Json → Prop
  | here {oldN newN : List (String × Json)} (keyword : String) (outside : keyword ∉ recognizedKeywords)
      (differs : Json.field? keyword oldN ≠ Json.field? keyword newN) :
      DiffersOutside (.obj oldN) (.obj newN)
  | under {oldN newN oldProps newProps : List (String × Json)} (name : String) (oldChild newChild : Json)
      (inOld : Json.field? "properties" oldN = some (.obj oldProps))
      (inNew : Json.field? "properties" newN = some (.obj newProps))
      (oldThere : Json.field? name oldProps = some oldChild)
      (newThere : Json.field? name newProps = some newChild)
      (differs : DiffersOutside oldChild newChild) :
      DiffersOutside (.obj oldN) (.obj newN)

/-- The schemas of an axis, both there, differ in a keyword that is not read. -/
def AxisDiffersOutside (oldRaw newRaw : Option Json) : Prop :=
  ∃ oldS newS, decodeCompat oldRaw = some oldS ∧ decodeCompat newRaw = some newS ∧ DiffersOutside oldS newS

/-- An edit that changes a keyword the linter does not read is called breaking exactly if it makes,
besides, one of the changes that the linter looks for. -/
theorem unrecognized_edit_flagged (marshal : Json → String) (float : Rat → String) (oldM newM : ManifestSchemas) :
    ((∃ axis : Axis, AxisDiffersOutside (oldM axis) (newM axis)) →
      (manifestSchemaCompat marshal float oldM newM).compatible = false) ↔
    ((∃ axis : Axis, AxisDiffersOutside (oldM axis) (newM axis)) →
      ∃ axis : Axis, ¬ AxisUnflagged axis.output (oldM axis) (newM axis)) := by
  rw [← not_forall, ← compatible_iff marshal float, Bool.not_eq_true]

/-- The items of an array get another type, and the edit passes. -/
theorem items_retyped :
    let old := withSchema .spec (.obj [("items", .obj [("type", .str "string")]), ("type", .str "array")])
    let new := withSchema .spec (.obj [("items", .obj [("type", .str "integer")]), ("type", .str "array")])
    AxisDiffersOutside (old .spec) (new .spec) ∧
      (manifestSchemaCompat (fun _ => "") (fun _ => "") old new).compatible = true := by
  refine ⟨⟨_, _, rfl, rfl, ?_⟩, by decide +kernel⟩
  exact .here "items" (by decide) (by decide +kernel)

end Converge.Kernel
