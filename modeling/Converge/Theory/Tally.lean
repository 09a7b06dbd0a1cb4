/-
# Theory.Tally -- counting rows, by parts

A count of rows can be kept as partials: one number for each part of the domain.  The partials
add up to the count when the parts tile the domain, each element in exactly one of them
(`sum_by_tiles`, and `length_by_tiles` where every element weighs the same).

The other lemmas say how a count moves with the statements that change a table: an UPDATE that
makes no new match and a DELETE do not raise it, an INSERT of a row that does not match leaves
it, and an UPDATE of rows named by key raises it by no more than the keys.
-/
import Converge.Theory.Table
import Mathlib.Algebra.Order.BigOperators.Group.List
import Mathlib.Algebra.Order.Ring.Nat
import Mathlib.Data.List.Perm.Subperm

namespace Converge.Theory

open List

set_option autoImplicit false

/-! ## Tilings -/

section Tiles

variable {ι α : Type} {covers : ι → α → Bool} {tiles : List ι} {xs : List α}

theorem sum_covering (x : α) (n : Nat) :
    (tiles.map fun t => if covers t x then n else 0).sum = tiles.countP (covers · x) * n := by
  induction tiles with
  | nil => simp
  | cons t rest ih =>
    rw [map_cons, sum_cons, ih, countP_cons]
    split <;> simp [Nat.add_mul, Nat.add_comm]

theorem sum_by_tiles (once : ∀ x ∈ xs, tiles.countP (covers · x) = 1) (weight : α → Nat) :
    (tiles.map fun t => ((xs.filter (covers t)).map weight).sum).sum = (xs.map weight).sum := by
  induction xs with
  | nil => simp
  | cons x rest ih =>
    have head (t : ι) : (((x :: rest).filter (covers t)).map weight).sum =
        (if covers t x then weight x else 0) + ((rest.filter (covers t)).map weight).sum := by
      rw [filter_cons]
      split <;> simp
    simp only [head]
    rw [sum_map_add, sum_covering, once x (.head _), Nat.one_mul,
      ih fun y later => once y (.tail _ later), map_cons, sum_cons]

theorem length_by_tiles (once : ∀ x ∈ xs, tiles.countP (covers · x) = 1) :
    (tiles.map fun t => (xs.filter (covers t)).length).sum = xs.length := by
  have ones (l : List α) : (l.map fun _ => 1).sum = l.length := by simp
  simp only [← ones]
  exact sum_by_tiles once fun _ => 1

end Tiles

/-- A sum of weights that grow, one of them by `n`. -/
theorem sum_map_add_le {α : Type} {v w : α → Nat} {n : Nat} {a : α} {l : List α} (here : a ∈ l)
    (more : v a + n ≤ w a) (grows : ∀ b, v b ≤ w b) : (l.map v).sum + n ≤ (l.map w).sum := by
  induction l with
  | nil => cases here
  | cons b rest ih =>
    rw [map_cons, sum_cons, map_cons, sum_cons]
    rcases mem_cons.mp here with rfl | later
    · have others : (rest.map v).sum ≤ (rest.map w).sum :=
        sum_le_sum fun b _ => grows b
      omega
    · have head := grows b
      have tail := ih later
      omega

/-- A count after one element, the only one of its key, has changed. -/
theorem length_filter_update {α κ : Type} [DecidableEq κ] {key : α → κ} {l : List α} (distinct : (l.map key).Nodup)
    {a : α} (here : a ∈ l) (p : α → Bool) (g : α → α) :
    ((l.map fun b => if key b = key a then g b else b).filter p).length + (if p a then 1 else 0) =
      (l.filter p).length + (if p (g a) then 1 else 0) := by
  induction l with
  | nil => cases here
  | cons b rest ih =>
    rw [map_cons, nodup_cons] at distinct
    rcases mem_cons.mp here with rfl | later
    · have others : (rest.map fun b => if key b = key a then g b else b) = rest := by
        refine (map_congr_left fun b mem => ?_).trans (map_id' rest)
        exact if_neg fun same => distinct.1 (mem_map.mpr ⟨b, mem, same⟩)
      simp only [map_cons, if_true, others, filter_cons]
      split <;> split <;> simp +arith
    · have other : key b ≠ key a := fun same => distinct.1 (same ▸ mem_map_of_mem later)
      have tail := ih distinct.2 later
      simp only [map_cons, if_neg other, filter_cons]
      split
      · simp only [length_cons]
        omega
      · exact tail

/-! ## Counts of a table -/

namespace Table

variable {α κ : Type} [Keyed α] {t : Table α} {P p : α → Bool} {f : α → α}

theorem count_updateWhere_le (keeps : ∀ a, Keyed.key (f a) = Keyed.key a)
    (less : ∀ a ∈ t, p a = true → P (f a) = true → P a = true) :
    ((t.updateWhere p f keeps).rows.filter P).length ≤ (t.rows.filter P).length := by
  simp only [updateWhere, ← countP_eq_length_filter, countP_map]
  refine countP_mono_left ?_
  intro a here matches_
  simp only [Function.comp_apply] at matches_
  split at matches_
  · exact less a here ‹_› matches_
  · exact matches_

theorem count_deleteWhere_le : ((t.deleteWhere p).rows.filter P).length ≤ (t.rows.filter P).length :=
  (filter_sublist.filter P).length_le

theorem count_push {a : α} (free : ¬ t.Occupied a) (other : P a = false) :
    ((t.push a free).rows.filter P).length = (t.rows.filter P).length := by
  show ((a :: t.rows).filter P).length = _
  rw [filter_cons, other]
  rfl

theorem nodup_pk {pk : α → κ} (primary : Primary pk) (t : Table α) : (t.rows.map pk).Nodup :=
  pairwise_map.mpr (t.unique.imp fun apart same => apart (primary _ _ same))

theorem filter_eq_singleton {a : α} (here : a ∈ t) (chosen : P a = true)
    (only : ∀ b ∈ t, P b = true → Clashes b a) : t.rows.filter P = [a] := by
  have all : ∀ b ∈ t.rows.filter P, b = a := by
    intro b listed
    obtain ⟨stored, picked⟩ := mem_filter.mp listed
    exact eq_of_clashes stored here (only b stored picked)
  have some_ : a ∈ t.rows.filter P := mem_filter.mpr ⟨here, chosen⟩
  have apart := t.unique.filter P
  cases found : t.rows.filter P with
  | nil =>
    rw [found] at some_
    cases some_
  | cons b rest =>
    rw [found] at all apart
    obtain rfl := all b (.head _)
    cases rest with
    | nil => rfl
    | cons c rest =>
      obtain rfl := all c (.tail _ (.head _))
      have twice := (pairwise_cons.mp apart).1 c (.head _)
      exact absurd (only c here chosen) twice

theorem rows_insertAll {β : Type} {row : β → α} {xs : List β} (free : ∀ x ∈ xs, ¬ t.Occupied (row x))
    (apart : xs.Pairwise fun x y => ¬ Clashes (row x) (row y)) :
    (xs.foldl (fun t x => t.insertNew (row x)) t).rows = (xs.map row).reverse ++ t.rows := by
  induction xs generalizing t with
  | nil => rfl
  | cons x rest ih =>
    have open_ := free x (.head _)
    obtain ⟨first, others⟩ := pairwise_cons.mp apart
    have pushed : t.insertNew (row x) = t.push (row x) open_ := dif_pos open_
    rw [foldl_cons, pushed, ih ?_ others, map_cons, reverse_cons, append_assoc]
    · rfl
    · rintro y later ⟨b, stored, clash⟩
      rcases (mem_push open_).mp stored with rfl | old
      · exact first y later clash
      · exact free y (.tail _ later) ⟨b, old, clash⟩

theorem count_updateKeys_le [DecidableEq κ] {pk : α → κ} (primary : Primary pk) {ids : List κ}
    (keeps : ∀ a, Keyed.key (f a) = Keyed.key a) :
    ((t.updateWhere (fun a => pk a ∈ ids) f keeps).rows.filter P).length ≤
      (t.rows.filter P).length + ids.length := by
  have named : (t.rows.filter fun a => pk a ∈ ids).length ≤ ids.length := by
    have distinct := (filter_sublist (p := fun a => decide (pk a ∈ ids))).map pk |>.nodup (nodup_pk primary t)
    rw [← length_map]
    refine (distinct.subperm ?_).length_le
    intro k listed
    obtain ⟨a, here, rfl⟩ := mem_map.mp listed
    exact of_decide_eq_true (mem_filter.mp here).2
  refine Nat.le_trans ?_ (Nat.add_le_add_left named _)
  simp only [updateWhere, ← countP_eq_length_filter, countP_map]
  generalize t.rows = rows
  induction rows with
  | nil => simp
  | cons a rest ih =>
    simp only [countP_cons, Function.comp_apply]
    by_cases hit : pk a ∈ ids
    · split <;> split <;> omega
    · simp only [hit, decide_false, Bool.false_eq_true, if_false]
      split <;> omega

end Table

end Converge.Theory
