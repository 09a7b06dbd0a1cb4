/-
# Theory.Table -- relations whose unique constraints cannot be violated

A `Table` is a finite list of rows together with the proof that no two of them
clash on a unique constraint.  What clashes is declared once per row type by
`Keyed`: a row type may carry several constraints (a primary key and a unique
index), and `Clash` is their disjunction.

Every operation keeps the proof by construction:

* `insertNew` is `INSERT ... ON CONFLICT DO NOTHING`;
* `insert?` is a plain `INSERT`, `none` on a unique violation;
* `updateWhere` is `UPDATE ... WHERE`, for updates that leave the key columns alone;
* `tryUpdateWhere` is an `UPDATE` that may write key columns and is checked;
* `deleteWhere` is `DELETE ... WHERE`;
* `updateDelete` is one statement with an `UPDATE` and a `DELETE` branch.

`lookup` reads one row by a primary key.  Because rows cannot clash, `lookup` is
characterised by membership alone (`lookup_eq_some`), and each operation has a
`lookup` equation, so that nothing above this module reasons about row order.
-/
import Mathlib.Data.List.Basic
import Mathlib.Data.List.Pairwise
import Mathlib.Tactic.Common

namespace Converge.Theory

open List Option

set_option autoImplicit false
set_option linter.unusedSectionVars false

/-- The unique constraints of a row type. -/
class Keyed (α : Type) where
  Key : Type
  key : α → Key
  Clash : Key → Key → Prop
  clash_symm : ∀ {a b : Key}, Clash a b → Clash b a
  decidableClash : ∀ a b : Key, Decidable (Clash a b)

/-- Rows `a` and `b` cannot be stored together. -/
def Clashes {α : Type} [Keyed α] (a b : α) : Prop := Keyed.Clash (Keyed.key a) (Keyed.key b)

instance {α : Type} [Keyed α] (a b : α) : Decidable (Clashes a b) :=
  Keyed.decidableClash (Keyed.key a) (Keyed.key b)

theorem Clashes.symm {α : Type} [Keyed α] {a b : α} (h : Clashes a b) : Clashes b a :=
  Keyed.clash_symm h

/-- A list of rows no two of which clash. -/
structure Table (α : Type) [Keyed α] where
  rows : List α
  unique : rows.Pairwise fun a b => ¬ Clashes a b

namespace Table

variable {α : Type} [Keyed α] {t : Table α} {p : α → Bool} {f : α → α} {a b : α}

instance : Membership α (Table α) := ⟨fun t a => a ∈ t.rows⟩

theorem mem_rows : a ∈ t.rows ↔ a ∈ t := Iff.rfl

instance : EmptyCollection (Table α) := ⟨⟨[], List.Pairwise.nil⟩⟩

@[simp] theorem notMem_empty (a : α) : a ∉ (∅ : Table α) := by
  intro h
  simp [← mem_rows, EmptyCollection.emptyCollection] at h

theorem eq_of_clashes (ha : a ∈ t) (hb : b ∈ t) (h : Clashes a b) : a = b := by
  by_contra ne
  have symm : Std.Symm fun a b : α => ¬ Clashes a b := ⟨fun _ _ hab hba => hab hba.symm⟩
  exact t.unique.forall ha hb ne h

/-! ## Inserting -/

/-- Some stored row clashes with `a`. -/
def Occupied (t : Table α) (a : α) : Prop := ∃ b ∈ t.rows, Clashes b a
deriving Decidable

/-- Store a row nothing clashes with. -/
def push (t : Table α) (a : α) (free : ¬ t.Occupied a) : Table α where
  rows := a :: t.rows
  unique := by
    refine pairwise_cons.mpr ⟨fun b hb clash => free ⟨b, hb, clash.symm⟩, t.unique⟩

/-- `INSERT ... ON CONFLICT DO NOTHING`. -/
def insertNew (t : Table α) (a : α) : Table α :=
  if free : ¬ t.Occupied a then t.push a free else t

/-- A plain `INSERT`: `none` is a unique violation. -/
def insert? (t : Table α) (a : α) : Option (Table α) :=
  if free : ¬ t.Occupied a then some (t.push a free) else none

@[simp] theorem mem_push (free : ¬ t.Occupied a) : b ∈ t.push a free ↔ b = a ∨ b ∈ t := by
  simp [push, ← mem_rows]

theorem mem_insertNew : b ∈ t.insertNew a ↔ b ∈ t ∨ (b = a ∧ ¬ t.Occupied a) := by
  unfold insertNew
  split
  · rename_i free
    simp only [mem_push, free, and_true, not_false_eq_true]
    exact or_comm
  · rename_i taken
    simp [taken]

theorem push_of_insert? {t' : Table α} (h : t.insert? a = some t') :
    ∃ free : ¬ t.Occupied a, t' = t.push a free := by
  unfold insert? at h
  split at h
  · rename_i free
    cases h
    exact ⟨free, rfl⟩
  · cases h

/-! ## Updating and deleting -/

/-- `UPDATE ... SET f WHERE p`, for an `f` that leaves the key columns alone. -/
def updateWhere (t : Table α) (p : α → Bool) (f : α → α)
    (keeps : ∀ a, Keyed.key (f a) = Keyed.key a) : Table α where
  rows := t.rows.map fun a => if p a then f a else a
  unique := by
    refine pairwise_map.mpr (t.unique.imp ?_)
    intro a b ne
    have same : ∀ c, Keyed.key (if p c then f c else c) = Keyed.key c := by
      intro c
      split
      · exact keeps c
      · rfl
    simpa only [Clashes, same] using ne

/-- An `UPDATE` that may write key columns: `none` is a unique violation. -/
def tryUpdateWhere (t : Table α) (p : α → Bool) (f : α → α) : Option (Table α) :=
  let rows := t.rows.map fun a => if p a then f a else a
  if unique : rows.Pairwise fun a b => ¬ Clashes a b then some ⟨rows, unique⟩ else none

/-- `DELETE ... WHERE p`. -/
def deleteWhere (t : Table α) (p : α → Bool) : Table α where
  rows := t.rows.filter fun a => !p a
  unique := t.unique.filter _

/-- One statement with the branches `UPDATE ... SET f WHERE p` and `DELETE ... WHERE q`.  Both
see the rows as they were, and a statement changes a row once: what the first branch updates
the second does not delete. -/
def updateDelete (t : Table α) (p : α → Bool) (f : α → α)
    (keeps : ∀ a, Keyed.key (f a) = Keyed.key a) (q : α → Bool) : Table α :=
  (t.deleteWhere fun a => q a && !p a).updateWhere p f keeps

@[simp] theorem mem_updateWhere {keeps : ∀ a, Keyed.key (f a) = Keyed.key a} :
    b ∈ t.updateWhere p f keeps ↔ ∃ a ∈ t, (if p a then f a else a) = b := by
  simp [updateWhere, ← mem_rows]

theorem updateWhere_of_none
    {keeps : ∀ a, Keyed.key (f a) = Keyed.key a} (none : ∀ a ∈ t, ¬ p a = true) : t.updateWhere p f keeps = t := by
  have same : (t.rows.map fun a => if p a then f a else a) = t.rows :=
    (map_congr_left fun a here => if_neg (none a here)).trans (map_id _)
  cases t
  simpa [updateWhere] using same

theorem column_of_mem_updateWhere {β : Type} {column : α → β}
    (keeps : ∀ a, Keyed.key (f a) = Keyed.key a) (h : b ∈ t.updateWhere p f keeps)
    (same : ∀ a, column (f a) = column a) : ∃ a ∈ t, column a = column b := by
  rw [mem_updateWhere] at h
  obtain ⟨a, here, rfl⟩ := h
  refine ⟨a, here, ?_⟩
  split
  · exact (same a).symm
  · rfl

theorem exists_column_updateWhere {β : Type} {column : α → β}
    (keeps : ∀ a, Keyed.key (f a) = Keyed.key a) (same : ∀ a, column (f a) = column a)
    (here : a ∈ t) : ∃ b ∈ t.updateWhere p f keeps, column b = column a := by
  refine ⟨if p a then f a else a, mem_updateWhere.mpr ⟨a, here, rfl⟩, ?_⟩
  split
  · exact same a
  · rfl

theorem mem_of_tryUpdateWhere {t' : Table α}
    (h : t.tryUpdateWhere p f = some t') : b ∈ t' ↔ ∃ a ∈ t, (if p a then f a else a) = b := by
  unfold tryUpdateWhere at h
  simp only at h
  split at h
  · cases h
    simp [← mem_rows]
  · cases h

@[simp] theorem mem_deleteWhere : a ∈ t.deleteWhere p ↔ a ∈ t ∧ p a = false := by
  simp [deleteWhere, ← mem_rows]

theorem mem_updateDelete {keeps : ∀ a, Keyed.key (f a) = Keyed.key a}
    {q : α → Bool} : b ∈ t.updateDelete p f keeps q ↔
      ∃ a ∈ t, (if p a then f a else a) = b ∧ (p a = true ∨ q a = false) := by
  rw [updateDelete, mem_updateWhere]
  constructor
  · rintro ⟨a, here, same⟩
    obtain ⟨here, kept⟩ := mem_deleteWhere.mp here
    refine ⟨a, here, same, ?_⟩
    cases picked : p a with
    | true => exact .inl rfl
    | false =>
      rw [picked, Bool.not_false, Bool.and_true] at kept
      exact .inr kept
  · rintro ⟨a, here, same, why⟩
    refine ⟨a, mem_deleteWhere.mpr ⟨here, ?_⟩, same⟩
    rcases why with picked | kept
    · rw [picked, Bool.not_true, Bool.and_false]
    · rw [kept, Bool.false_and]

/-! ## Reading by primary key -/

section Lookup

variable {κ : Type} [DecidableEq κ]

/-- The row whose primary key is `k`. -/
def lookup (t : Table α) (pk : α → κ) (k : κ) : Option α := t.rows.find? fun a => pk a = k

variable {pk : α → κ} {t : Table α} {a : α} {p : α → Bool} {k : κ}

/-- `pk` is one of the unique constraints of `α`. -/
def Primary (pk : α → κ) : Prop := ∀ a b : α, pk a = pk b → Clashes a b

theorem mem_of_lookup (h : t.lookup pk k = some a) : a ∈ t ∧ pk a = k := by
  exact ⟨mem_of_find?_eq_some h, by simpa using find?_some h⟩

theorem lookup_of_mem (primary : Primary pk) (ha : a ∈ t) : t.lookup pk (pk a) = some a := by
  cases found : t.lookup pk (pk a) with
  | none =>
    have := find?_eq_none.mp found a ha
    simp at this
  | some b =>
    obtain ⟨hb, same⟩ := mem_of_lookup found
    rw [eq_of_clashes hb ha (primary b a same)]

theorem lookup_eq_some (primary : Primary pk) : t.lookup pk k = some a ↔ a ∈ t ∧ pk a = k := by
  constructor
  · exact mem_of_lookup
  · rintro ⟨ha, rfl⟩
    exact lookup_of_mem primary ha

theorem lookup_eq_none : t.lookup pk k = none ↔ ∀ a ∈ t, pk a ≠ k := by
  simp [lookup, ← mem_rows]

theorem eq_of_pk (primary : Primary pk) {b : α} (ha : a ∈ t) (hb : b ∈ t) (h : pk a = pk b) : a = b :=
  eq_of_clashes ha hb (primary a b h)

theorem lookup_push (free : ¬ t.Occupied a) (k : κ) :
    (t.push a free).lookup pk k = if pk a = k then some a else t.lookup pk k := by
  simp only [lookup, push, find?_cons]
  by_cases h : pk a = k <;> simp [h]

theorem lookup_insertNew (exact_ : ∀ a b : α, Clashes a b ↔ pk a = pk b) :
    (t.insertNew a).lookup pk k = (t.lookup pk k).or (if pk a = k then some a else none) := by
  unfold insertNew
  split
  · rename_i free
    rw [lookup_push free]
    by_cases this : pk a = k
    · have none : t.lookup pk k = none :=
        lookup_eq_none.mpr fun b hb same => free ⟨b, hb, (exact_ b a).mpr (same.trans this.symm)⟩
      rw [if_pos this, if_pos this, none, none_or]
    · rw [if_neg this, if_neg this, or_none]
  · rename_i taken
    obtain ⟨b, hb, clash⟩ := not_not.mp taken
    by_cases this : pk a = k
    · have primary : Primary pk := fun _ _ same => (exact_ _ _).mpr same
      rw [(lookup_eq_some primary).mpr ⟨hb, ((exact_ b a).mp clash).trans this⟩, some_or]
    · rw [if_neg this, or_none]

theorem lookup_updateWhere {f : α → α}
    (keeps : ∀ a, Keyed.key (f a) = Keyed.key a) (pk_keeps : ∀ a, pk (f a) = pk a) (k : κ) :
    (t.updateWhere p f keeps).lookup pk k = (t.lookup pk k).map fun a => if p a then f a else a := by
  simp only [lookup, updateWhere, find?_map]
  congr 2
  funext a
  simp only [Function.comp]
  split <;> simp [pk_keeps]

theorem lookup_tryUpdateWhere (pk : α → κ) {t' : Table α} {f : α → α} (h : t.tryUpdateWhere p f = some t')
    (pk_keeps : ∀ a, pk (f a) = pk a) (k : κ) :
    t'.lookup pk k = (t.lookup pk k).map fun a => if p a then f a else a := by
  unfold tryUpdateWhere at h
  simp only at h
  split at h
  · cases h
    simp only [lookup, find?_map]
    congr 2
    funext a
    simp only [Function.comp]
    split <;> simp [pk_keeps]
  · cases h

theorem lookup_deleteWhere (primary : Primary pk) (k : κ) :
    (t.deleteWhere p).lookup pk k = (t.lookup pk k).filter fun a => !p a := by
  cases found : t.lookup pk k with
  | none =>
    rw [filter_none]
    rw [lookup_eq_none] at found ⊢
    exact fun a ha => found a (mem_deleteWhere.mp ha).1
  | some a =>
    obtain ⟨ha, rfl⟩ := mem_of_lookup found
    cases hp : p a with
    | false =>
      have kept : a ∈ t.deleteWhere p := mem_deleteWhere.mpr ⟨ha, hp⟩
      simp [lookup_of_mem primary kept, Option.filter, hp]
    | true =>
      simp only [Option.filter, hp, Bool.not_true, Bool.false_eq_true, if_false]
      rw [lookup_eq_none]
      intro b hb same
      obtain ⟨hb, kept⟩ := mem_deleteWhere.mp hb
      rw [eq_of_pk primary hb ha same, hp] at kept
      cases kept

end Lookup

end Table

end Converge.Theory
