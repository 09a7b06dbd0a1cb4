/-
# Kernel.JsonPath -- reading, writing and clearing a field of a document

A value flow is written by `jsonb_set` and forgotten by `deleteAtPath`, and the two walk
a document differently: the first goes through arrays too.  Where a path meets no array
they agree on the field it names (`deleteAtPath_setPath`), and clearing fields commutes
(`deleteAtPath_comm`), so that a document with values written at flowed paths is equal to
the one without once the paths are cleared (`specsMatch_of_filledIn`).
-/
import Converge.Kernel.Json

namespace Converge.Kernel

open List Option

set_option autoImplicit false

variable {doc doc' : Json} {paths : List (List String)} {p path : List String} {f : String × Json}

namespace Json

variable {key other next : String} {value : Json} {fields : List (String × Json)}

/-! ## One field -/

theorem field?_cons : field? key (f :: fields) = if f.1 = key then some f.2 else field? key fields := by
  unfold field?
  by_cases same : f.1 = key
  · rw [find?_cons_of_pos (by simpa using same), if_pos same]
    rfl
  · rw [find?_cons_of_neg (by simpa using same), if_neg same]

theorem mem_of_field? {found : Json} (h : field? key fields = some found) : (key, found) ∈ fields := by
  obtain ⟨f, first, rfl⟩ := map_eq_some_iff.mp h
  have same : f.1 = key := by simpa using find?_some first
  exact same ▸ mem_of_find?_eq_some first

@[simp] theorem field?_insertField_self : field? key (insertField key value fields) = some value := by
  induction fields with
  | nil => simp [insertField, field?_cons]
  | cons f fs ih =>
    unfold insertField
    split
    · simp [field?_cons]
    · split
      · simp [field?_cons]
      · rename_i ne _
        rw [field?_cons, if_neg (Ne.symm ne)]
        exact ih

theorem insertField_insertField_self {value' : Json} :
    insertField key value (insertField key value' fields) = insertField key value fields := by
  induction fields with
  | nil => simp [insertField]
  | cons f fs ih =>
    by_cases same : key = f.1
    · simp [insertField, same]
    · by_cases before : key < f.1
      · simp [insertField, same, before]
      · simp [insertField, same, before, ih]

theorem filter_insertField_self :
    (insertField key value fields).filter (fun f => f.1 ≠ key) = fields.filter fun f => f.1 ≠ key := by
  induction fields with
  | nil => simp [insertField]
  | cons f fs ih =>
    unfold insertField
    split
    · rename_i same
      simp [same]
    · split
      · simp
      · rw [filter_cons, filter_cons, ih]

/-! ## Documents in normal form -/

def Ascending (fields : List (String × Json)) : Prop := fields.Pairwise fun f g => f.1 < g.1

/-- Every object below has its keys in ascending order, as jsonb stores them. -/
inductive Normal : Json → Prop
  | null : Normal .null
  | bool (value : Bool) : Normal (.bool value)
  | num (value : Rat) : Normal (.num value)
  | str (value : String) : Normal (.str value)
  | arr (items : List Json) (each : ∀ x ∈ items, Normal x) : Normal (.arr items)
  | obj (fields : List (String × Json)) (ascending : Ascending fields)
      (each : ∀ f ∈ fields, Normal f.2) : Normal (.obj fields)

theorem Ascending.head_ne {g : String × Json} (ascending : Ascending (f :: fields))
    (later : g ∈ fields) : g.1 ≠ f.1 := by
  have lt := (pairwise_cons.mp ascending).1 g later
  intro same
  rw [same] at lt
  exact String.lt_irrefl _ lt

theorem Ascending.absent (ascending : Ascending (f :: fields)) : field? f.1 fields = none := by
  cases found : field? f.1 fields with
  | none => rfl
  | some inner => exact absurd rfl (ascending.head_ne (g := (f.1, inner)) (mem_of_field? found))

def alterField (key : String) (g : Json → Option Json) (fields : List (String × Json)) : List (String × Json) :=
  fields.filterMap fun f => if f.1 = key then (g f.2).map (key, ·) else some f

section Alter

variable {g h : Json → Option Json}

theorem alterField_cons : alterField key g (f :: fields) =
    if f.1 = key then ((g f.2).map (key, ·)).toList ++ alterField key g fields
    else f :: alterField key g fields := by
  unfold alterField
  by_cases same : f.1 = key
  · rw [filterMap_cons, if_pos same, if_pos same]
    cases g f.2 <;> rfl
  · rw [filterMap_cons, if_neg same, if_neg same]

theorem alterField_absent (absent : field? key fields = none) : alterField key g fields = fields := by
  induction fields with
  | nil => rfl
  | cons f fs ih =>
    rw [field?_cons] at absent
    split at absent
    · cases absent
    · rename_i ne
      rw [alterField_cons, if_neg ne, ih absent]

theorem insertField_eq_alter {inner : Json} (ascending : Ascending fields)
    (found : field? key fields = some inner) (new : g inner = some value) :
    insertField key value fields = alterField key g fields := by
  induction fields with
  | nil => cases found
  | cons f fs ih =>
    have rest := pairwise_cons.mp ascending
    rw [field?_cons] at found
    rw [insertField, alterField_cons]
    by_cases same : f.1 = key
    · rw [if_pos same] at found
      cases found
      rw [if_pos same.symm, if_pos same, new, alterField_absent (same ▸ ascending.absent)]
      rfl
    · rw [if_neg same] at found
      rw [if_neg (Ne.symm same), if_neg same, if_neg, ih rest.2 found]
      -- the key is behind one that would be larger
      exact fun before => String.lt_irrefl _ (String.lt_trans before (rest.1 _ (mem_of_field? found)))

theorem alterField_comm (commute : key = other → ∀ f ∈ fields, (g f.2).bind h = (h f.2).bind g) :
    alterField key g (alterField other h fields) = alterField other h (alterField key g fields) := by
  have twice (a b : Json → Option Json) (x : Json) :
      ((a x).map (key, ·)).bind (fun f => if f.1 = key then (b f.2).map (key, ·) else some f) =
        ((a x).bind b).map (key, ·) := by
    cases a x <;> simp
  unfold alterField
  rw [filterMap_filterMap, filterMap_filterMap]
  refine filterMap_congr fun f here => ?_
  by_cases k : f.1 = key
  · by_cases o : f.1 = other
    · obtain rfl : key = other := k.symm.trans o
      simp only [if_pos k, twice, commute rfl f here]
    · have apart : key ≠ other := fun same => o (k.trans same)
      simp only [if_pos k, if_neg o, bind_some]
      cases g f.2 <;> simp [apart]
  · by_cases o : f.1 = other
    · have apart : other ≠ key := fun same => k (o.trans same)
      simp only [if_neg k, if_pos o, bind_some]
      cases h f.2 <;> simp [apart]
    · simp only [if_neg k, if_neg o, bind_some]

end Alter

/-- What clearing a path does to the value under its first key. -/
def cleared (rest : List String) (inner : Json) : Option Json :=
  if rest = [] then none else some (inner.deleteAtPath rest)

theorem deleteAtPath_obj (ascending : Ascending fields) (rest : List String) :
    (Json.obj fields).deleteAtPath (key :: rest) = .obj (alterField key (cleared rest) fields) := by
  cases rest with
  | nil =>
    rw [deleteAtPath]
    congr 1
    unfold alterField cleared
    rw [← filterMap_eq_filter]
    refine filterMap_congr fun f _ => ?_
    by_cases same : f.1 = key <;> simp [same, Option.guard]
  | cons next rest =>
    rw [deleteAtPath]
    · cases found : field? key fields with
      | none => rw [alterField_absent found]
      | some inner => exact congrArg Json.obj (insertField_eq_alter ascending found rfl)
    · simp

theorem alterField_mem {g : Json → Option Json} (listed : f ∈ alterField key g fields) :
    f ∈ fields ∨ ∃ inner, (key, inner) ∈ fields ∧ f.1 = key ∧ g inner = some f.2 := by
  obtain ⟨f₀, here, eq⟩ := mem_filterMap.mp listed
  split at eq
  · rename_i same
    obtain ⟨new, made, rfl⟩ := map_eq_some_iff.mp eq
    exact .inr ⟨f₀.2, same ▸ here, rfl, made⟩
  · cases eq
    exact .inl here

theorem Ascending.alter (ascending : Ascending fields) (g : Json → Option Json) :
    Ascending (alterField key g fields) := by
  induction fields with
  | nil => exact ascending
  | cons f fs ih =>
    have rest := pairwise_cons.mp ascending
    have tail := ih rest.2
    have ahead {k : String} (same : k = f.1) : ∀ x ∈ alterField key g fs, k < x.1 := by
      intro x listed
      rcases alterField_mem listed with old | ⟨inner, old, keyed, -⟩
      · exact same ▸ rest.1 x old
      · rw [same, keyed]
        exact rest.1 _ old
    rw [alterField_cons]
    split
    · rename_i same
      cases g f.2 with
      | none => exact tail
      | some new => exact pairwise_cons.mpr ⟨ahead same.symm, tail⟩
    · exact pairwise_cons.mpr ⟨ahead rfl, tail⟩

/-! ## Clearing paths -/

theorem deleteAtPath_of_not_obj (path : List String)
    (scalar : ∀ fields, doc ≠ .obj fields) : doc.deleteAtPath path = doc := by
  cases doc with
  | obj fields => exact absurd rfl (scalar fields)
  | _ => rcases path with _ | ⟨_, _ | _⟩ <;> rfl

@[simp] theorem deleteAtPath_nil (doc : Json) : doc.deleteAtPath [] = doc := by
  cases doc <;> rfl

theorem Normal.delete (normal : doc.Normal) (path : List String) : (doc.deleteAtPath path).Normal := by
  induction path generalizing doc with
  | nil => rwa [deleteAtPath_nil]
  | cons key rest ih =>
    cases normal with
    | obj fields ascending each =>
      rw [deleteAtPath_obj ascending]
      refine .obj _ (ascending.alter _) fun f listed => ?_
      rcases alterField_mem listed with old | ⟨inner, old, -, made⟩
      · exact each f old
      · unfold cleared at made
        split at made
        · cases made
        · rw [← some.inj made]
          exact ih (each _ old)
    | arr items each =>
      rw [deleteAtPath_of_not_obj _ (by simp)]
      exact .arr items each
    | null | bool _ | num _ | str _ =>
      rw [deleteAtPath_of_not_obj _ (by simp)]
      constructor

/-- **Clearing paths commutes.** -/
theorem deleteAtPath_comm (normal : doc.Normal) (p q : List String) :
    (doc.deleteAtPath q).deleteAtPath p = (doc.deleteAtPath p).deleteAtPath q := by
  induction p generalizing doc q with
  | nil => rw [deleteAtPath_nil, deleteAtPath_nil]
  | cons key rest ih =>
    cases q with
    | nil => rw [deleteAtPath_nil, deleteAtPath_nil]
    | cons other later =>
      cases normal with
      | obj fields ascending each =>
        rw [deleteAtPath_obj ascending, deleteAtPath_obj ascending,
          deleteAtPath_obj (ascending.alter _), deleteAtPath_obj (ascending.alter _)]
        congr 1
        refine alterField_comm fun _ f here => ?_
        unfold cleared
        by_cases r : rest = [] <;> by_cases l : later = []
        · simp [r, l]
        · simp [r, l]
        · simp [r, l]
        · simp only [if_neg r, if_neg l, bind_some]
          rw [ih (each f here)]
      | _ => simp [deleteAtPath_of_not_obj]

theorem deleteAtPath_nested (rest : List String) :
    (Json.obj fields).deleteAtPath (key :: next :: rest) = (field? key fields).elim (.obj fields)
      fun inner => .obj (insertField key (inner.deleteAtPath (next :: rest)) fields) := by
  rw [deleteAtPath]
  · cases field? key fields <;> rfl
  · simp

theorem deleteAtPath_idem (doc : Json) (path : List String) :
    (doc.deleteAtPath path).deleteAtPath path = doc.deleteAtPath path := by
  induction path generalizing doc with
  | nil => rw [deleteAtPath_nil, deleteAtPath_nil]
  | cons key rest ih =>
    cases doc with
    | obj fields =>
      cases rest with
      | nil => simp [deleteAtPath]
      | cons next rest =>
        rw [deleteAtPath_nested]
        cases found : field? key fields with
        | none => rw [elim_none, deleteAtPath_nested, found, elim_none]
        | some inner =>
          rw [elim_some, deleteAtPath_nested, field?_insertField_self, elim_some,
            ih, insertField_insertField_self]
    | _ => simp [deleteAtPath_of_not_obj]

/-- The document with all the paths cleared. -/
def clearPaths (paths : List (List String)) (doc : Json) : Json :=
  paths.foldl (fun doc path => doc.deleteAtPath path) doc

theorem clearPaths_absorb (normal : doc.Normal) (listed : path ∈ paths) :
    clearPaths paths (doc.deleteAtPath path) = clearPaths paths doc := by
  induction paths generalizing doc with
  | nil => cases listed
  | cons p rest ih =>
    show clearPaths rest ((doc.deleteAtPath path).deleteAtPath p) = clearPaths rest (doc.deleteAtPath p)
    rcases mem_cons.mp listed with rfl | later
    · rw [deleteAtPath_idem]
    · rw [deleteAtPath_comm normal, ih (normal.delete p) later]

/-! ## Writing and clearing -/

/-- The path meets no array. -/
def avoidsArrays : List String → Json → Bool
  | key :: rest, .obj fields => (field? key fields).all (avoidsArrays rest)
  | _ :: _, .arr _ => false
  | _, _ => true

/-- A write below an object: in the field it names, as a new last field, or nowhere. -/
theorem setPath_obj {rest : List String} (set : setPath value (key :: rest) (.obj fields) = some doc') :
    (∃ old new, field? key fields = some old ∧ setPath value rest old = some new ∧
        doc' = .obj (insertField key new fields)) ∨
      field? key fields = none ∧ doc' = .obj (if rest = [] then insertField key value fields else fields) := by
  rw [setPath] at set
  cases found : field? key fields with
  | none =>
    rw [found] at set
    exact .inr ⟨rfl, (some.inj set).symm⟩
  | some old =>
    rw [found] at set
    obtain ⟨new, inner, rfl⟩ := map_eq_some_iff.mp set
    exact .inl ⟨old, new, rfl, inner, rfl⟩

/-- **Writing a field is forgotten by clearing it.** -/
theorem deleteAtPath_setPath (some_ : path ≠ []) (avoids : avoidsArrays path doc = true)
    (set : setPath value path doc = some doc') : doc'.deleteAtPath path = doc.deleteAtPath path := by
  induction path generalizing doc doc' with
  | nil => exact absurd rfl some_
  | cons key rest ih =>
    cases doc with
    | obj fields =>
      rcases setPath_obj set with ⟨old, new, found, inner, rfl⟩ | ⟨-, rfl⟩
      · cases rest with
        | nil =>
          simp only [deleteAtPath]
          rw [filter_insertField_self]
        | cons next rest =>
          rw [avoidsArrays, found] at avoids
          rw [deleteAtPath_nested, field?_insertField_self, deleteAtPath_nested, found,
            elim_some, elim_some, ih (by simp) avoids inner,
            insertField_insertField_self]
      · cases rest with
        | nil =>
          simp only [if_true, deleteAtPath]
          rw [filter_insertField_self]
        | cons next rest => rw [if_neg (by simp)]
    | arr items => cases avoids
    | _ =>
      simp only [setPath, some.injEq] at set
      rw [← set]

/-! ## Normal form is kept -/

theorem insertField_mem (listed : f ∈ insertField key value fields) : f = (key, value) ∨ f ∈ fields := by
  induction fields with
  | nil => exact .inl (mem_singleton.mp listed)
  | cons g gs ih =>
    unfold insertField at listed
    split at listed
    · exact (mem_cons.mp listed).imp id (mem_cons_of_mem g)
    · split at listed
      · exact mem_cons.mp listed
      · rcases mem_cons.mp listed with rfl | later
        · exact .inr (.head _)
        · exact (ih later).imp id (mem_cons_of_mem g)

theorem Ascending.insert (ascending : Ascending fields) : Ascending (insertField key value fields) := by
  induction fields with
  | nil => exact pairwise_singleton _ _
  | cons f fs ih =>
    have rest := pairwise_cons.mp ascending
    unfold insertField
    split
    · rename_i same
      exact pairwise_cons.mpr ⟨fun g later => same ▸ rest.1 g later, rest.2⟩
    · rename_i ne
      split
      · rename_i before
        refine pairwise_cons.mpr ⟨fun g later => ?_, ascending⟩
        rcases mem_cons.mp later with rfl | later
        · exact before
        · exact String.lt_trans before (rest.1 g later)
      · rename_i behind
        refine pairwise_cons.mpr ⟨fun g later => ?_, ih rest.2⟩
        rcases insertField_mem later with rfl | later
        · exact Std.lt_of_le_of_ne (String.not_lt.mp behind) (Ne.symm ne)
        · exact rest.1 g later

theorem Normal.insert (ascending : Ascending fields) (each : ∀ f ∈ fields, f.2.Normal)
    (normal : value.Normal) : (Json.obj (insertField key value fields)).Normal := by
  refine .obj _ ascending.insert fun f listed => ?_
  rcases insertField_mem listed with rfl | old
  · exact normal
  · exact each f old

theorem Normal.setPath (normal : doc.Normal) (written : value.Normal) (avoids : avoidsArrays path doc = true)
    (set : setPath value path doc = some doc') : doc'.Normal := by
  induction path generalizing doc doc' with
  | nil =>
    cases set
    exact written
  | cons key rest ih =>
    cases normal with
    | obj fields ascending each =>
      rcases setPath_obj set with ⟨old, new, found, inner, rfl⟩ | ⟨-, rfl⟩
      · rw [avoidsArrays, found] at avoids
        exact .insert ascending each (ih (each _ (mem_of_field? found)) avoids inner)
      · split
        · exact .insert ascending each written
        · exact .obj fields ascending each
    | arr items each => cases avoids
    | null | bool _ | num _ | str _ =>
      simp only [Json.setPath, some.injEq] at set
      rw [← set]
      constructor

/-! ## Decoding -/

section Decode

variable {fields' all : List (String × Json)} {doc doc' d w : Json}

theorem decodedFields?_cons : decodedFields? (f :: fields) = some all ↔
      ∃ y ys, decoded? f.2 = some y ∧ decodedFields? fields = some ys ∧ all = (f.1, y) :: ys := by
  rw [decodedFields?]
  simp only [bind_eq_some_iff, map_eq_some_iff]
  constructor
  · rintro ⟨y, first, ys, rest, rfl⟩
    exact ⟨y, ys, first, rest, rfl⟩
  · rintro ⟨y, ys, first, rest, rfl⟩
    exact ⟨y, first, ys, rest, rfl⟩

theorem field?_decoded (key : String) (decoded : decodedFields? fields = some fields') :
    (field? key fields').map some = (field? key fields).map decoded? := by
  induction fields generalizing fields' with
  | nil =>
    cases decoded
    rfl
  | cons f fs ih =>
    obtain ⟨y, ys, first, rest, rfl⟩ := decodedFields?_cons.mp decoded
    rw [field?_cons, field?_cons]
    split
    · exact congrArg some first.symm
    · exact ih rest

theorem insertField_decoded (decoded : decodedFields? fields = some fields') (new : decoded? value = some w) :
    decodedFields? (insertField key value fields) = some (insertField key w fields') := by
  induction fields generalizing fields' with
  | nil =>
    cases decoded
    exact decodedFields?_cons.mpr ⟨w, [], new, rfl, rfl⟩
  | cons f fs ih =>
    obtain ⟨y, ys, first, rest, rfl⟩ := decodedFields?_cons.mp decoded
    unfold insertField
    split
    · exact decodedFields?_cons.mpr ⟨w, ys, new, rest, rfl⟩
    · split
      · exact decodedFields?_cons.mpr ⟨w, _, new, decoded, rfl⟩
      · exact decodedFields?_cons.mpr ⟨y, _, first, ih rest, rfl⟩

/-- A write of a decoded value into the decoded document. -/
theorem decoded?_setPath (avoids : avoidsArrays path doc = true) (decoded : doc.decoded? = some d)
    (new : value.decoded? = some w) (set : setPath value path doc = some doc') :
    avoidsArrays path d = true ∧ ∃ d', doc'.decoded? = some d' ∧ setPath w path d = some d' := by
  induction path generalizing doc doc' d with
  | nil =>
    cases set
    exact ⟨by cases d <;> rfl, w, new, rfl⟩
  | cons key rest ih =>
    cases doc with
    | obj fields =>
      obtain ⟨fields', decodedFields, rfl⟩ := map_eq_some_iff.mp decoded
      have at_ := field?_decoded key decodedFields
      rw [avoidsArrays] at avoids ⊢
      rw [setPath] at set ⊢
      cases found : field? key fields with
      | none =>
        rw [found] at set at_
        simp only [some.injEq] at set
        rw [map_eq_none_iff.mp at_, ← set]
        refine ⟨rfl, _, ?_, rfl⟩
        rw [decoded?]
        split
        · rw [insertField_decoded decodedFields new]
          rfl
        · rw [decodedFields]
          rfl
      | some old =>
        rw [found] at set avoids at_
        obtain ⟨o, there, decodedOld⟩ := map_eq_some_iff.mp at_
        obtain ⟨inner, written, rfl⟩ := map_eq_some_iff.mp set
        obtain ⟨avoids', inner', decodedInner, written'⟩ := ih avoids decodedOld.symm written
        rw [there]
        refine ⟨avoids', .obj (insertField key inner' fields'), ?_, ?_⟩
        · rw [decoded?, insertField_decoded decodedFields decodedInner]
          rfl
        · show (setPath w rest o).map _ = _
          rw [written']
          rfl
    | arr items => cases avoids
    | num q =>
      obtain ⟨r, rounded, rfl⟩ := map_eq_some_iff.mp decoded
      cases set
      refine ⟨rfl, .num r, ?_, rfl⟩
      rw [decoded?, rounded]
      rfl
    | _ =>
      cases decoded
      cases set
      exact ⟨rfl, _, rfl, rfl⟩

theorem decodedFields?_mem (decoded : decodedFields? fields = some fields')
    (listed : f ∈ fields') : ∃ g ∈ fields, g.1 = f.1 ∧ decoded? g.2 = some f.2 := by
  induction fields generalizing fields' with
  | nil =>
    cases decoded
    cases listed
  | cons g gs ih =>
    obtain ⟨y, ys, first, rest, rfl⟩ := decodedFields?_cons.mp decoded
    rcases mem_cons.mp listed with rfl | later
    · exact ⟨g, .head _, rfl, first⟩
    · obtain ⟨g', here, rest⟩ := ih rest later
      exact ⟨g', mem_cons_of_mem g here, rest⟩

theorem Ascending.decoded (ascending : Ascending fields)
    (decoded : decodedFields? fields = some fields') : Ascending fields' := by
  induction fields generalizing fields' with
  | nil =>
    cases decoded
    exact .nil
  | cons f fs ih =>
    obtain ⟨y, ys, first, rest, rfl⟩ := decodedFields?_cons.mp decoded
    obtain ⟨ahead, tail⟩ := pairwise_cons.mp ascending
    refine pairwise_cons.mpr ⟨fun g later => ?_, ih tail rest⟩
    obtain ⟨g', here, same, -⟩ := decodedFields?_mem rest later
    exact same ▸ ahead g' here

theorem decodedItems?_mem {items items' : List Json} (decoded : decodedItems? items = some items')
    {x : Json} (listed : x ∈ items') : ∃ y ∈ items, decoded? y = some x := by
  induction items generalizing items' with
  | nil =>
    cases decoded
    cases listed
  | cons y ys ih =>
    obtain ⟨z, first, rest⟩ := bind_eq_some_iff.mp decoded
    obtain ⟨zs, others, rfl⟩ := map_eq_some_iff.mp rest
    rcases mem_cons.mp listed with rfl | later
    · exact ⟨y, .head _, first⟩
    · obtain ⟨y', here, rest⟩ := ih others later
      exact ⟨y', mem_cons_of_mem y here, rest⟩

theorem Normal.decoded (normal : doc.Normal) (decoded : doc.decoded? = some d) : d.Normal := by
  induction normal generalizing d with
  | obj fields ascending each ih =>
    obtain ⟨fields', decodedFields, rfl⟩ := map_eq_some_iff.mp decoded
    refine .obj fields' (ascending.decoded decodedFields) fun f listed => ?_
    obtain ⟨g, here, -, made⟩ := decodedFields?_mem decodedFields listed
    exact ih g here made
  | arr items each ih =>
    obtain ⟨items', decodedItems, rfl⟩ := map_eq_some_iff.mp decoded
    refine .arr items' fun x listed => ?_
    obtain ⟨y, here, made⟩ := decodedItems?_mem decodedItems listed
    exact ih y here made
  | num q =>
    obtain ⟨r, rounded, rfl⟩ := map_eq_some_iff.mp decoded
    exact .num r
  | _ =>
    cases decoded
    constructor

end Decode

/-! ## Reading back -/

theorem field?_insertField_ne (ne : other ≠ key) :
    field? other (insertField key value fields) = field? other fields := by
  induction fields with
  | nil => simp [insertField, field?_cons, Ne.symm ne]
  | cons f fs ih =>
    unfold insertField
    split
    · rename_i same
      simp [field?_cons, ← same, Ne.symm ne]
    · split
      · simp [field?_cons, Ne.symm ne]
      · rw [field?_cons, field?_cons, ih]

/-- Neither path leads through the other. -/
def apart : List String → List String → Bool
  | k :: p, l :: q => k ≠ l || apart p q
  | _, _ => false

/-- All but the last field of the path are there, as objects. -/
def opens : List String → Json → Bool
  | [_], .obj _ => true
  | key :: rest, .obj fields => (field? key fields).any (opens rest)
  | _, _ => false

theorem opens_nested (rest : List String) :
    opens (key :: next :: rest) (.obj fields) = (field? key fields).any (opens (next :: rest)) := by
  rw [opens]
  simp

/-- A write at an open path is read back. -/
theorem get?_setPath (open_ : opens p doc = true)
    (set : setPath value p doc = some doc') : get? doc' p = some value := by
  induction p generalizing doc doc' with
  | nil => cases open_
  | cons key rest ih =>
    cases doc with
    | obj fields =>
      rcases setPath_obj set with ⟨old, new, found, inner, rfl⟩ | ⟨absent, rfl⟩
      · rw [get?, field?_insertField_self]
        cases rest with
        | nil =>
          cases inner
          rfl
        | cons next rest =>
          rw [opens_nested, found] at open_
          exact ih open_ inner
      · cases rest with
        | nil => simp [get?]
        | cons next rest =>
          rw [opens_nested, absent] at open_
          cases open_
    | _ => cases rest <;> cases open_

/-- A write apart from an open path is not seen there. -/
theorem get?_setPath_apart {q : List String} (open_ : opens p doc = true)
    (away : apart q p = true) (set : setPath value q doc = some doc') : get? doc' p = get? doc p := by
  induction p generalizing doc doc' q with
  | nil => cases q <;> cases away
  | cons key rest ih =>
    rcases q with _ | ⟨first, later⟩
    · cases away
    cases doc with
    | obj fields =>
      by_cases same : key = first
      · subst same
        -- both descend: the last field of neither is reached yet
        have below : apart later rest = true := by simpa [apart] using away
        rcases rest with _ | ⟨next, rest⟩
        · cases later <;> cases below
        rw [opens_nested] at open_
        rcases setPath_obj set with ⟨old, new, found, inner, rfl⟩ | ⟨absent, -⟩
        · rw [found] at open_
          rw [get?, get?, field?_insertField_self, found]
          exact ih open_ below inner
        · rw [absent] at open_
          cases open_
      · rcases setPath_obj set with ⟨old, new, -, -, rfl⟩ | ⟨-, rfl⟩
        · rw [get?, get?, field?_insertField_ne same]
        · split
          · rw [get?, get?, field?_insertField_ne same]
          · rfl
    | _ => cases rest <;> cases open_

/-- A write at a path or apart from it leaves open what was open. -/
theorem opens_setPath {q : List String} (near : q = p ∨ apart q p = true)
    (set : setPath value q doc = some doc') : opens p doc' = opens p doc := by
  induction p generalizing doc doc' q with
  | nil =>
    have closed (x : Json) : opens [] x = false := by cases x <;> rfl
    rw [closed, closed]
  | cons key rest ih =>
    rcases q with _ | ⟨first, later⟩
    · rcases near with absurd_ | absurd_ <;> cases absurd_
    cases doc with
    | obj fields =>
      rcases rest with _ | ⟨next, rest⟩
      · rcases setPath_obj set with ⟨old, new, -, -, rfl⟩ | ⟨-, rfl⟩ <;> rfl
      by_cases same : key = first
      · subst same
        have below : later = next :: rest ∨ apart later (next :: rest) = true := by
          rcases near with eq | away
          · exact .inl (List.cons.inj eq).2
          · exact .inr (by simpa [apart] using away)
        rcases setPath_obj set with ⟨old, new, found, inner, rfl⟩ | ⟨absent, rfl⟩
        · rw [opens_nested, opens_nested, field?_insertField_self, found]
          exact ih below inner
        · have more : later ≠ [] := by
            rintro rfl
            rcases below with absurd_ | absurd_ <;> cases absurd_
          rw [if_neg more]
      · rcases setPath_obj set with ⟨old, new, -, -, rfl⟩ | ⟨-, rfl⟩
        · rw [opens_nested, opens_nested, field?_insertField_ne same]
        · split
          · rw [opens_nested, opens_nested, field?_insertField_ne same]
          · rfl
    | arr items =>
      have closed (xs : List Json) : opens (key :: rest) (.arr xs) = false := by cases rest <;> rfl
      rw [setPath] at set
      rw [closed]
      repeat' split at set
      all_goals first
        | cases set; done
        | (obtain rfl := some.inj set; exact closed _)
        | (obtain ⟨new, -, rfl⟩ := map_eq_some_iff.mp set; exact closed _)
    | _ =>
      cases set
      rfl

/-! ## A document and what flowed into it -/

/-- The last document is the first with values written, each at one of the paths, where
the path meets no array.  The values are what jsonb stores and Go decodes. -/
inductive FilledIn (paths : List (List String)) : Json → Json → Prop
  | nothing (doc : Json) : FilledIn paths doc doc
  | write {doc mid last : Json} (path : List String) (value : Json) (listed : path ∈ paths)
      (avoids : avoidsArrays path doc = true) (normal : value.Normal)
      (decodes : value.decoded?.isSome = true) (set : doc.set? path value = some mid)
      (rest : FilledIn paths mid last) : FilledIn paths doc last

/-- `jsonb_set` writes at a path, and nothing at the root. -/
theorem set?_eq {mid : Json} (set : doc.set? path value = some mid) :
    path = [] ∧ mid = doc ∨ path ≠ [] ∧ setPath value path doc = some mid := by
  unfold set? at set
  by_cases root : path = []
  · rw [if_pos root] at set
    split at set
    · exact .inl ⟨root, (some.inj set).symm⟩
    · exact .inl ⟨root, (some.inj set).symm⟩
    · cases set
  · rw [if_neg root] at set
    split at set
    · exact .inr ⟨root, set⟩
    · exact .inr ⟨root, set⟩
    · cases set

/-- **Filled fields do not show once the paths are cleared.** -/
theorem FilledIn.clear {last d : Json} (filled : FilledIn paths doc last)
    (normal : doc.Normal) (decoded : doc.decoded? = some d) :
    ∃ e, last.decoded? = some e ∧ clearPaths paths e = clearPaths paths d := by
  induction filled generalizing d with
  | nothing doc => exact ⟨d, decoded, rfl⟩
  | @write doc mid last path value listed avoids written decodes set rest ih =>
    rcases set?_eq set with ⟨-, rfl⟩ | ⟨some_, wrote⟩
    · exact ih normal decoded
    · obtain ⟨w, new⟩ := isSome_iff_exists.mp decodes
      obtain ⟨avoids', m, decodedMid, wrote'⟩ := decoded?_setPath avoids decoded new wrote
      have mid_normal := normal.setPath written avoids wrote
      obtain ⟨e, decodedLast, same⟩ := ih mid_normal decodedMid
      refine ⟨e, decodedLast, ?_⟩
      calc clearPaths paths e = clearPaths paths m := same
        _ = clearPaths paths (m.deleteAtPath path) :=
            (clearPaths_absorb (mid_normal.decoded decodedMid) listed).symm
        _ = clearPaths paths (d.deleteAtPath path) := by
            rw [deleteAtPath_setPath some_ avoids' wrote']
        _ = clearPaths paths d := clearPaths_absorb (normal.decoded decoded) listed

end Json

/-- **The diff of the composer sees no flowed field.** -/
theorem specsMatch_of_filledIn {proposed existing : Json} (filled : Json.FilledIn paths proposed existing)
    (normal : proposed.Normal) (decodes : proposed.decoded?.isSome = true) :
    specsMatchIgnoringFlowed existing proposed paths = true := by
  obtain ⟨d, decoded⟩ := isSome_iff_exists.mp decodes
  obtain ⟨e, decodedLast, same⟩ := filled.clear normal decoded
  unfold specsMatchIgnoringFlowed
  rw [decoded, decodedLast]
  exact decide_eq_true same

/-! ## A batch of patches -/

section Many

variable {doc doc' : Json} {patches : List Patch} {path : List String}

theorem jsonbSetMany_cons {p : Patch} (done : jsonbSetMany doc (p :: patches) = some doc') :
    ∃ mid, doc.set? p.path p.value = some mid ∧ jsonbSetMany mid patches = some doc' := by
  unfold jsonbSetMany at done
  exact bind_eq_some_iff.mp done

theorem opens_jsonbSetMany (near : ∀ p ∈ patches, p.path = path ∨ Json.apart p.path path = true)
    (done : jsonbSetMany doc patches = some doc') : doc'.opens path = doc.opens path := by
  induction patches generalizing doc with
  | nil =>
    cases done
    rfl
  | cons p rest ih =>
    obtain ⟨mid, first, later⟩ := jsonbSetMany_cons done
    rw [ih (fun q h => near q (mem_cons_of_mem p h)) later]
    rcases Json.set?_eq first with ⟨-, rfl⟩ | ⟨-, set⟩
    · rfl
    · exact Json.opens_setPath (near p (.head _)) set

/-- **A batch leaves the value it writes at an open path**, if its other writes are apart
from it; a value that is there already stays. -/
theorem get?_jsonbSetMany {value : Json} (open_ : doc.opens path = true)
    (near : ∀ p ∈ patches, p = ⟨path, value⟩ ∨ Json.apart p.path path = true)
    (there : ⟨path, value⟩ ∈ patches ∨ doc.get? path = some value)
    (done : jsonbSetMany doc patches = some doc') : doc'.get? path = some value := by
  induction patches generalizing doc with
  | nil =>
    cases done
    exact there.resolve_left (not_mem_nil)
  | cons p rest ih =>
    obtain ⟨mid, first, later⟩ := jsonbSetMany_cons done
    have nearby : p.path = path ∨ Json.apart p.path path = true :=
      (near p (.head _)).imp (fun h => by rw [h]) id
    have rooted : p.path ≠ [] := by
      intro root
      rw [root] at nearby
      rcases nearby with rfl | away
      · cases doc <;> cases open_
      · cases path <;> cases away
    have set := (Json.set?_eq first).resolve_left fun h => rooted h.1
    refine ih ?_ (fun q h => near q (mem_cons_of_mem p h)) ?_ later
    · rw [Json.opens_setPath nearby set.2]
      exact open_
    · rcases near p (.head _) with rfl | away
      · exact .inr (Json.get?_setPath open_ set.2)
      · rcases there with listed | here
        · rcases mem_cons.mp listed with rfl | listed
          · exact .inr (Json.get?_setPath open_ set.2)
          · exact .inl listed
        · right
          rw [Json.get?_setPath_apart open_ away set.2]
          exact here

end Many

end Converge.Kernel
