/-
# Theory.Blocking -- a forest with ordered siblings never blocks itself

A node waits for the nodes it owns and for the nodes that depend on it.  With
dependencies only between siblings the union of the two is acyclic
(`acyclic_waits`): a path that goes down once can return only by going up, and no
step does.

So in any finite set some node waits for no other of the set (`exists_free`).

A list in which every node comes before its successors is a certificate that no path
leads back (`PostOrder.acyclic`).
-/
import Mathlib.Logic.Relation
import Mathlib.Order.WellFoundedSet

namespace Converge.Theory.Blocking

set_option autoImplicit false

open Relation

variable {α : Type} {owns depends r : α → α → Prop}

/-- `a` waits for `b`: it owns it, or `b` depends on it (`depends a b`). -/
def Waits (owns depends : α → α → Prop) (a b : α) : Prop := owns a b ∨ depends a b

/-- No path leads back to its start. -/
def Acyclic (r : α → α → Prop) : Prop := ∀ a, ¬ TransGen r a a

theorem Acyclic.of_le {s : α → α → Prop} (acyclic : Acyclic s) (le : ∀ a b, r a b → s a b) : Acyclic r :=
  fun a path => acyclic a (TransGen.lift id le a a path)

/-- Along a path of two kinds of steps, where none of the second kind follows one of the first,
those of the second kind come first. -/
theorem path_union {s : α → α → Prop} (apart : ∀ a b c, r a b → ¬ s b c) {a b : α}
    (path : TransGen (fun x y => r x y ∨ s x y) a b) :
    TransGen s a b ∨ ∃ c, ReflTransGen s a c ∧ TransGen r c b := by
  induction path with
  | single step =>
    rcases step with first | second
    · exact .inr ⟨a, .refl, .single first⟩
    · exact .inl (.single second)
  | @tail b c _ step ih =>
    rcases ih with only | ⟨m, before, after⟩
    · rcases step with first | second
      · exact .inr ⟨b, only.to_reflTransGen, .single first⟩
      · exact .inl (only.tail second)
    · rcases step with first | second
      · exact .inr ⟨m, before, after.tail first⟩
      · obtain ⟨x, -, last⟩ := TransGen.tail'_iff.mp after
        exact absurd second (apart x b c last)

theorem Acyclic.union {s : α → α → Prop} (first : Acyclic r) (second : Acyclic s)
    (apart : ∀ a b c, r a b → ¬ s b c) : Acyclic fun a b => r a b ∨ s a b := by
  intro a path
  rcases path_union apart path with only | ⟨c, before, after⟩
  · exact second a only
  · rcases ReflTransGen.cases_head before with rfl | ⟨b, step, -⟩
    · exact first a after
    · obtain ⟨x, -, last⟩ := TransGen.tail'_iff.mp after
      exact apart x a b last step

theorem acyclic_of_rank (rank : α → Nat) (raises : ∀ a b, r a b → rank a < rank b) : Acyclic r := by
  intro a path
  have up : ∀ b, TransGen r a b → rank a < rank b := by
    intro b path
    induction path with
    | single step => exact raises _ _ step
    | tail _ step ih => exact ih.trans (raises _ _ step)
  exact Nat.lt_irrefl _ (up a path)

/-- Siblings have the same owners. -/
def Siblings (owns depends : α → α → Prop) : Prop :=
  ∀ a b, depends a b → ∀ p, owns p a ↔ owns p b

theorem siblings_path (siblings : Siblings owns depends) {a b : α} (path : TransGen depends a b) :
    ∀ p, owns p a ↔ owns p b := by
  induction path with
  | single step => exact siblings _ _ step
  | tail _ step ih => exact fun p => (ih p).trans (siblings _ _ step p)

/-- A path of waits is a path among siblings, or it leads strictly below a sibling of
its start. -/
theorem waits_path (siblings : Siblings owns depends) {a b : α} (path : TransGen (Waits owns depends) a b) :
    TransGen depends a b ∨ ∃ c, (∀ p, owns p a ↔ owns p c) ∧ TransGen owns c b := by
  induction path with
  | single step =>
    rcases step with child | dependent
    · exact .inr ⟨a, fun _ => Iff.rfl, .single child⟩
    · exact .inl (.single dependent)
  | @tail b d _ step ih =>
    rcases ih with along | ⟨c, same, down⟩
    · rcases step with child | dependent
      · exact .inr ⟨b, siblings_path siblings along, .single child⟩
      · exact .inl (along.tail dependent)
    · rcases step with child | dependent
      · exact .inr ⟨c, same, down.tail child⟩
      · -- the last edge goes down to `b`, hence also to its sibling `d`
        obtain ⟨p, above, last⟩ := TransGen.tail'_iff.mp down
        exact .inr ⟨c, same, TransGen.tail'_iff.mpr ⟨p, above, (siblings b d dependent p).mp last⟩⟩

theorem acyclic_waits (forest : Acyclic owns) (order : Acyclic depends)
    (siblings : Siblings owns depends) : Acyclic (Waits owns depends) := by
  intro a path
  rcases waits_path siblings path with along | ⟨c, same, down⟩
  · exact order a along
  · -- the owner of `a` owns its sibling `c`, above `a`: it is above itself
    obtain ⟨p, above, last⟩ := TransGen.tail'_iff.mp down
    exact forest p (TransGen.head'_iff.mpr ⟨c, (same p).mp last, above⟩)

theorem exists_free (acyclic : Acyclic r) {s : Set α} (finite : s.Finite)
    (some_ : s.Nonempty) : ∃ a ∈ s, ∀ b ∈ s, ¬ r a b := by
  have strict : IsStrictOrder α fun a b => TransGen r b a :=
    { irrefl := acyclic, trans := fun _ _ _ ab bc => bc.trans ab }
  obtain ⟨x, hx⟩ := some_
  have wf : s.WellFoundedOn fun a b => TransGen r b a := finite.wellFoundedOn
  obtain ⟨a, -, least⟩ := WellFounded.has_min wf Set.univ ⟨⟨x, hx⟩, trivial⟩
  exact ⟨a, a.2, fun b hb step => least ⟨b, hb⟩ trivial (.single step)⟩

/-- Every node of the list has its successors after it. -/
def PostOrder (next : α → List α) : List α → Prop
  | [] => True
  | a :: rest => (∀ b ∈ next a, b ∈ rest) ∧ PostOrder next rest

namespace PostOrder

variable {next : α → List α} {l : List α}

theorem closed (order : PostOrder next l) {a b : α} (here : a ∈ l) (step : b ∈ next a) : b ∈ l := by
  induction l with
  | nil => cases here
  | cons c rest ih =>
    rcases List.mem_cons.mp here with rfl | later
    · exact .tail _ (order.1 b step)
    · exact .tail _ (ih order.2 later)

theorem closed_path (order : PostOrder next l) {a b : α} (here : a ∈ l)
    (path : ReflTransGen (fun a b => b ∈ next a) a b) : b ∈ l := by
  induction path with
  | refl => exact here
  | tail _ step ih => exact order.closed ih step

theorem acyclic (order : PostOrder next l) {a : α} (here : a ∈ l) : ¬ TransGen (fun a b => b ∈ next a) a a := by
  induction l with
  | nil => cases here
  | cons c rest ih =>
    intro path
    by_cases later : a ∈ rest
    · exact ih order.2 later path
    · -- from the first node on, a path stays in the rest
      obtain rfl := (List.mem_cons.mp here).resolve_right later
      obtain ⟨b, first, back⟩ := TransGen.head'_iff.mp path
      exact later (order.2.closed_path (order.1 b first) back)

end PostOrder

end Converge.Theory.Blocking
