/-
# Theory.Scan -- which rows a LIMIT takes, and what a recursive UNION reaches

`Scan.pick` is `SELECT ... ORDER BY order LIMIT n FOR UPDATE SKIP LOCKED`.  The
order in which a scan meets rows that `ORDER BY` does not separate, and the set
of rows other sessions hold locked, belong to the environment: a `Scan` carries
both, and every statement takes one as an argument.  Results quantify over it.

`reachFrom` is `WITH RECURSIVE t AS (seeds UNION next)`: the working table of
one round is the set of ids the round added, and the recursion stops at a round
that adds none.  `mem_reachFrom` says the answer is exactly reachability, given
one round of fuel for every id there is.
-/
import Mathlib.Data.List.Sort
import Mathlib.Data.List.Dedup
import Mathlib.Data.List.Perm.Subperm
import Mathlib.Logic.Relation

namespace Converge.Theory

open List

set_option autoImplicit false
set_option linter.unusedSectionVars false

/-- The order a scan happens to meet its rows in, and the rows it finds locked. -/
structure Scan (κ : Type) where
  rank : κ → Nat
  locked : κ → Bool

namespace Scan

variable {κ α : Type}

/-- `a` is met no later than `b` under `ORDER BY order`, ties broken by the scan. -/
def Before (s : Scan κ) (ident : α → κ) (order : α → Nat × Nat) (a b : α) : Prop :=
  (order a).1 < (order b).1 ∨ (order a).1 = (order b).1 ∧
    ((order a).2 < (order b).2 ∨ (order a).2 = (order b).2 ∧ s.rank (ident a) ≤ s.rank (ident b))

instance (s : Scan κ) (ident : α → κ) (order : α → Nat × Nat) :
    DecidableRel (s.Before ident order) := fun a b =>
  inferInstanceAs (Decidable ((order a).1 < (order b).1 ∨ (order a).1 = (order b).1 ∧
    ((order a).2 < (order b).2 ∨ (order a).2 = (order b).2 ∧ s.rank (ident a) ≤ s.rank (ident b))))

/-- The unlocked rows in scan order. -/
def sorted (s : Scan κ) (ident : α → κ) (order : α → Nat × Nat) (rows : List α) : List α :=
  (rows.filter fun a => !s.locked (ident a)).insertionSort (s.Before ident order)

/-- `ORDER BY order LIMIT n FOR UPDATE SKIP LOCKED`. -/
def pick (s : Scan κ) (ident : α → κ) (order : α → Nat × Nat) (n : Nat) (rows : List α) : List α :=
  (s.sorted ident order rows).take n

/-- The order of a scan without `ORDER BY`. -/
def unordered (_ : α) : Nat × Nat := (0, 0)

/-- The same scan without a locking clause. -/
def lockless (s : Scan κ) : Scan κ := { s with locked := fun _ => false }

/-- A query without a locking clause whose `ORDER BY` is total. -/
def plain : Scan κ := ⟨fun _ => 0, fun _ => false⟩

variable {s : Scan κ} {ident : α → κ} {order : α → Nat × Nat} {n : Nat} {rows : List α} {a : α}

@[simp] theorem mem_sorted : a ∈ s.sorted ident order rows ↔ a ∈ rows ∧ s.locked (ident a) = false := by
  simp [sorted]

theorem mem_of_mem_pick (h : a ∈ s.pick ident order n rows) : a ∈ rows :=
  (mem_sorted.mp (mem_of_mem_take h)).1

theorem pick_ne_nil (room : 0 < n) (ha : a ∈ rows) (free : s.locked (ident a) = false) :
    s.pick ident order n rows ≠ [] := by
  intro empty
  have listed : a ∈ s.sorted ident order rows := mem_sorted.mpr ⟨ha, free⟩
  rw [pick, take_eq_nil_iff] at empty
  rcases empty with none | nothing
  · omega
  · rw [nothing] at listed
    cases listed

theorem mem_pick_of_room (room : rows.length ≤ n) (ha : a ∈ rows)
    (free : s.locked (ident a) = false) : a ∈ s.pick ident order n rows := by
  have fits : (s.sorted ident order rows).length ≤ n := by
    rw [sorted, length_insertionSort]
    exact (length_filter_le _ _).trans room
  rw [pick, take_of_length_le fits]
  exact mem_sorted.mpr ⟨ha, free⟩

theorem nodup_pick (h : rows.Nodup) : (s.pick ident order n rows).Nodup := by
  refine List.Sublist.nodup (take_sublist _ _) ?_
  exact (perm_insertionSort _ _).nodup_iff.mpr (h.filter _)

end Scan

/-- A list in an order of the environment's choosing: `rank` sorts its positions. -/
def shuffle {α : Type} (rank : Nat → Nat) (l : List α) : List α :=
  (l.zipIdx.insertionSort fun a b => rank a.2 ≤ rank b.2).map Prod.fst

@[simp] theorem mem_shuffle {α : Type} {rank : Nat → Nat} {l : List α} {a : α} :
    a ∈ shuffle rank l ↔ a ∈ l := by
  simp only [shuffle, mem_map, mem_insertionSort]
  constructor
  · rintro ⟨⟨b, i⟩, listed, rfl⟩
    exact (mem_zipIdx' listed).2 ▸ getElem_mem _
  · intro h
    obtain ⟨i, hi, rfl⟩ := mem_iff_getElem.mp h
    exact ⟨(l[i], i), mk_mem_zipIdx_iff_getElem?.mpr (getElem?_eq_getElem hi), rfl⟩

theorem shuffle_perm {α : Type} (rank : Nat → Nat) (l : List α) : (shuffle rank l).Perm l := by
  have sorted := (perm_insertionSort (fun a b : α × Nat => rank a.2 ≤ rank b.2) l.zipIdx).map Prod.fst
  rwa [zipIdx_map_fst] at sorted

/-! ## Recursive union -/

section Closure

variable {α : Type} [DecidableEq α]

/-- The ids one round adds to `seen` from the working table `frontier`. -/
def freshFrom (next : α → List α) (seen frontier : List α) : List α :=
  ((frontier.flatMap next).filter fun a => a ∉ seen).dedup

/-- Rounds of a recursive union, each working on what the last one added. -/
def closure (next : α → List α) : Nat → List α → List α → List α
  | 0, seen, _ => seen
  | fuel + 1, seen, frontier =>
    if freshFrom next seen frontier = [] then seen
    else closure next fuel (seen ++ freshFrom next seen frontier) (freshFrom next seen frontier)

/-- `WITH RECURSIVE t AS (seeds UNION SELECT next FROM t)`. -/
def reachFrom (next : α → List α) (fuel : Nat) (seeds : List α) : List α :=
  closure next fuel seeds.dedup seeds.dedup

variable {next : α → List α} {seen frontier seeds univ : List α} {fuel : Nat}

theorem mem_freshFrom {b : α} : b ∈ freshFrom next seen frontier ↔ (∃ a ∈ frontier, b ∈ next a) ∧ b ∉ seen := by
  simp [freshFrom]

/-- `b` is reached from `a` by following `next`. -/
def Reaches (next : α → List α) : α → α → Prop := Relation.ReflTransGen fun a b => b ∈ next a

theorem subset_closure : seen ⊆ closure next fuel seen frontier := by
  induction fuel generalizing seen frontier with
  | zero => exact fun _ h => h
  | succ fuel ih =>
    simp only [closure]
    split
    · exact fun _ h => h
    · exact fun a ha => ih (mem_append_left _ ha)

theorem closure_reaches (inside : frontier ⊆ seen) (sound : ∀ a ∈ seen, ∃ s ∈ seeds, Reaches next s a) :
    ∀ a ∈ closure next fuel seen frontier, ∃ s ∈ seeds, Reaches next s a := by
  induction fuel generalizing seen frontier with
  | zero => exact sound
  | succ fuel ih =>
    simp only [closure]
    split
    · exact sound
    · refine ih (subset_append_right _ _) ?_
      intro b hb
      rcases mem_append.mp hb with old | new
      · exact sound b old
      · obtain ⟨⟨a, ha, step⟩, -⟩ := mem_freshFrom.mp new
        obtain ⟨s, hs, path⟩ := sound a (inside ha)
        exact ⟨s, hs, path.tail step⟩

/-- What is expanded stays inside, until a round adds nothing: then everything is. -/
theorem closure_closed (stays : ∀ a ∈ univ, next a ⊆ univ) (nodup : seen.Nodup) (inside : seen ⊆ univ)
    (working : frontier ⊆ seen) (expanded : ∀ a ∈ seen, a ∉ frontier → next a ⊆ seen)
    (enough : univ.length ≤ seen.length + fuel) :
    ∀ a ∈ closure next fuel seen frontier, next a ⊆ closure next fuel seen frontier := by
  induction fuel generalizing seen frontier with
  | zero =>
    intro a ha b hb
    have all := (nodup.subperm inside).perm_of_length_le (by omega)
    exact all.symm.subset (stays a (inside ha) hb)
  | succ fuel ih =>
    simp only [closure]
    split
    · rename_i done
      intro a ha b hb
      by_cases hf : a ∈ frontier
      · by_contra out
        have : b ∈ freshFrom next seen frontier := mem_freshFrom.mpr ⟨⟨a, hf, hb⟩, out⟩
        rw [done] at this
        cases this
      · exact expanded a ha hf hb
    · rename_i more
      refine ih ?_ ?_ (subset_append_right _ _) ?_ ?_
      · refine nodup_append'.mpr ⟨nodup, nodup_dedup _, ?_⟩
        intro a old new
        exact (mem_freshFrom.mp new).2 old
      · intro a ha
        rcases mem_append.mp ha with old | new
        · exact inside old
        · obtain ⟨⟨b, hb, step⟩, -⟩ := mem_freshFrom.mp new
          exact stays b (inside (working hb)) step
      · intro a ha hnew b hb
        rcases mem_append.mp ha with old | new
        · by_cases hf : a ∈ frontier
          · by_cases hs : b ∈ seen
            · exact mem_append_left _ hs
            · exact mem_append_right _ (mem_freshFrom.mpr ⟨⟨a, hf, hb⟩, hs⟩)
          · exact mem_append_left _ (expanded a old hf hb)
        · exact absurd new hnew
      · have := length_pos_iff.mpr more
        simp only [length_append]
        omega

theorem mem_of_reaches {t : List α} (closed : ∀ a ∈ t, next a ⊆ t) {a b : α} (ha : a ∈ t)
    (path : Reaches next a b) : b ∈ t := by
  induction path with
  | refl => exact ha
  | tail _ step ih => exact closed _ ih step

/-- With a round of fuel per id, a recursive union is reachability. -/
theorem mem_reachFrom (stays : ∀ a ∈ univ, next a ⊆ univ) (inside : seeds ⊆ univ)
    (enough : univ.length ≤ fuel) {a : α} : a ∈ reachFrom next fuel seeds ↔ ∃ s ∈ seeds, Reaches next s a := by
  have seeded : ∀ b, b ∈ seeds.dedup ↔ b ∈ seeds := fun _ => mem_dedup
  constructor
  · refine closure_reaches (fun _ h => h) ?_ a
    exact fun b hb => ⟨b, (seeded b).mp hb, .refl⟩
  · rintro ⟨s, hs, path⟩
    refine mem_of_reaches ?_ (subset_closure ((seeded s).mpr hs)) path
    refine closure_closed stays (nodup_dedup _) ?_ (fun _ h => h) ?_ (by omega)
    · exact fun b hb => inside ((seeded b).mp hb)
    · exact fun b hb hn => absurd hb hn

end Closure

end Converge.Theory
