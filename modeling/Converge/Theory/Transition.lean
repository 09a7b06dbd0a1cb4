/-
# Theory.Transition -- runs of labelled steps

`Steps step allow s s'` is a run from `s` to `s'` all of whose labels satisfy
`allow`.

The rules are the usual ones: an invariant of every step is an
invariant of every run (`Steps.keeps`); a preorder every step respects relates the
ends of every run (`Steps.relates`); a step-wise simulation maps runs to runs
(`Steps.maps`); and loops over lists are runs (`Steps.foldl`, `Steps.foldlM`).

Where every state on the way matters and not only the ends, a run is the list of its
states: `chain_keeps` is the invariant rule for that form.  Where the steps are a function
of the state, `Throughout` says something of every step of a run; `Throughout.iff_keeps`
turns what one step needs to keep an invariant into what a whole run needs.
-/
import Mathlib.Logic.Relation
import Mathlib.Data.List.Chain
import Mathlib.Data.List.Forall2
import Mathlib.Tactic.Common

namespace Converge.Theory

open List

set_option autoImplicit false

/-- A run of steps whose labels are all allowed. -/
def Steps {σ L : Type} (step : L → σ → σ → Prop) (allow : L → Prop) : σ → σ → Prop :=
  Relation.ReflTransGen fun s s' => ∃ l, allow l ∧ step l s s'

namespace Steps

variable {σ τ L M : Type} {step : L → σ → σ → Prop} {allow : L → Prop}
  {step' : M → τ → τ → Prop} {allow' : M → Prop} {s s' s'' : σ}

theorem refl : Steps step allow s s := Relation.ReflTransGen.refl

theorem one {l : L} (ok : allow l) (h : step l s s') : Steps step allow s s' :=
  Relation.ReflTransGen.single ⟨l, ok, h⟩

theorem trans (first : Steps step allow s s') (second : Steps step allow s' s'') : Steps step allow s s'' :=
  Relation.ReflTransGen.trans first second

theorem mono {wider : L → Prop} (sub : ∀ l, allow l → wider l) (run : Steps step allow s s') :
    Steps step wider s s' := by
  induction run with
  | refl => exact refl
  | tail _ last ih =>
    obtain ⟨l, ok, h⟩ := last
    exact ih.trans (one (sub l ok) h)

theorem keeps {I : σ → Prop} (each : ∀ {l : L} {a b : σ}, allow l → step l a b → I a → I b)
    (run : Steps step allow s s') (start : I s) : I s' := by
  induction run with
  | refl => exact start
  | tail _ last ih =>
    obtain ⟨l, ok, h⟩ := last
    exact each ok h ih

/-- A preorder that every step from an invariant state respects relates the ends of
every run. -/
theorem relates {I : σ → Prop} {R : σ → σ → Prop} (rrefl : ∀ a, R a a)
    (rtrans : ∀ {a b c : σ}, R a b → R b c → R a c)
    (stays : ∀ {l : L} {a b : σ}, allow l → step l a b → I a → I b)
    (each : ∀ {l : L} {a b : σ}, allow l → step l a b → I a → R a b)
    (run : Steps step allow s s') (start : I s) : R s s' := by
  induction run with
  | refl => exact rrefl _
  | tail before last ih =>
    obtain ⟨l, ok, h⟩ := last
    exact rtrans ih (each ok h (keeps stays before start))

/-- A simulation of every step from an invariant state simulates every run. -/
theorem maps {I : σ → Prop} {abs : σ → τ} (stays : ∀ {l : L} {a b : σ}, allow l → step l a b → I a → I b)
    (each : ∀ {l : L} {a b : σ}, allow l → step l a b → I a → Steps step' allow' (abs a) (abs b))
    (run : Steps step allow s s') (start : I s) : Steps step' allow' (abs s) (abs s') := by
  induction run with
  | refl => exact refl
  | tail before last ih =>
    obtain ⟨l, ok, h⟩ := last
    exact ih.trans (each ok h (keeps stays before start))

section Loops

variable {α : Type} {P : σ → Prop}

/-- A loop whose body is a run is a run; `P` is what the body relies on and keeps. -/
theorem foldl {f : σ → α → σ} {xs : List α}
    (body : ∀ {a : σ} {x : α}, P a → x ∈ xs → Steps step allow a (f a x) ∧ P (f a x))
    (start : P s) : Steps step allow s (xs.foldl f s) ∧ P (xs.foldl f s) := by
  induction xs generalizing s with
  | nil => exact ⟨refl, start⟩
  | cons x xs ih =>
    obtain ⟨first, kept⟩ := body start (.head _)
    obtain ⟨rest, last⟩ := ih (fun pa hx => body pa (.tail _ hx)) kept
    exact ⟨first.trans rest, last⟩

/-- The same for a loop that may fail. -/
theorem foldlM {f : σ → α → Option σ} {xs : List α}
    (body : ∀ {a b : σ} {x : α}, P a → x ∈ xs → f a x = some b → Steps step allow a b ∧ P b)
    (start : P s) (done : xs.foldlM f s = some s') : Steps step allow s s' ∧ P s' := by
  induction xs generalizing s with
  | nil =>
    cases done
    exact ⟨refl, start⟩
  | cons x xs ih =>
    obtain ⟨b, hb, rest⟩ := Option.bind_eq_some_iff.mp done
    obtain ⟨first, kept⟩ := body start (.head _) hb
    obtain ⟨tail, last⟩ := ih (fun pa hx => body pa (.tail _ hx)) kept rest
    exact ⟨first.trans tail, last⟩

end Loops

end Steps

section Rowwise

variable {α β γ : Type} {R : α → β → Prop} {S : β → γ → Prop} {l : List α} {m : List β}

theorem forall₂_right (each : List.Forall₂ R l m) {b : β} (listed : b ∈ m) : ∃ a ∈ l, R a b := by
  induction each with
  | nil => cases listed
  | @cons a _ _ _ first _ ih =>
    rcases mem_cons.mp listed with rfl | later
    · exact ⟨a, .head _, first⟩
    · obtain ⟨a', mem, related⟩ := ih later
      exact ⟨a', .tail _ mem, related⟩

theorem forall₂_left (each : List.Forall₂ R l m) {a : α} (listed : a ∈ l) : ∃ b ∈ m, R a b :=
  forall₂_right each.flip listed

theorem forall₂_comp {T : α → γ → Prop} (comp : ∀ a b c, R a b → S b c → T a c) {n : List γ}
    (first : List.Forall₂ R l m) (second : List.Forall₂ S m n) : List.Forall₂ T l n := by
  induction first generalizing n with
  | nil =>
    cases second
    exact .nil
  | cons head _ ih =>
    cases second with
    | cons head' tail' => exact .cons (comp _ _ _ head head') (ih tail')

theorem forall₂_map_eq {f : α → γ} {g : β → γ} (same : ∀ a b, R a b → g b = f a)
    (each : List.Forall₂ R l m) : m.map g = l.map f := by
  induction each with
  | nil => rfl
  | cons head _ ih => rw [map_cons, map_cons, same _ _ head, ih]

/-- What a list has, one with the same images has under another name. -/
theorem exists_of_map_eq {f : α → γ} {l m : List α} (same : l.map f = m.map f) {a : α} (here : a ∈ l) :
    ∃ b ∈ m, f b = f a :=
  mem_map.mp (same ▸ mem_map_of_mem here)

end Rowwise

theorem getLastD_append {σ : Type} (l m : List σ) (s : σ) :
    (l ++ m).getLastD s = m.getLastD (l.getLastD s) := by
  simp only [getLastD_eq_getLast?, getLast?_append, Option.getD_or]

theorem chain_append {σ : Type} {R : σ → σ → Prop} {s : σ} {l m : List σ} :
    (s :: (l ++ m)).IsChain R ↔ (s :: l).IsChain R ∧ (l.getLastD s :: m).IsChain R := by
  induction l generalizing s with
  | nil => exact ⟨fun h => ⟨.singleton s, h⟩, fun h => h.2⟩
  | cons b l ih =>
    rw [getLastD_cons, cons_append, isChain_cons_cons, isChain_cons_cons, ih, and_assoc]

/-- Along a chain of steps an invariant holds to its end, and what it makes of each
step holds of each step. -/
theorem chain_keeps {σ : Type} {R S : σ → σ → Prop} {I : σ → Prop} {s : σ} {l : List σ}
    (each : ∀ a b, R a b → I a → I b ∧ S a b) (chain : (s :: l).IsChain R) (start : I s) :
    (s :: l).IsChain S ∧ I (l.getLastD s) := by
  induction l generalizing s with
  | nil => exact ⟨.singleton s, start⟩
  | cons b l ih =>
    obtain ⟨first, rest⟩ := isChain_cons_cons.mp chain
    obtain ⟨next, kept⟩ := each s b first start
    obtain ⟨tail, last⟩ := ih rest next
    refine ⟨isChain_cons_cons.mpr ⟨kept, tail⟩, ?_⟩
    rwa [getLastD_cons]

section Throughout

variable {σ α : Type} {step : σ → α → σ} {ok : σ → α → Prop} {s : σ} {actions : List α}

/-- Every step of the run from `s` meets `ok` in the state it is taken in. -/
def Throughout (step : σ → α → σ) (ok : σ → α → Prop) : σ → List α → Prop
  | _, [] => True
  | s, a :: rest => ok s a ∧ Throughout step ok (step s a) rest

instance Throughout.decidable [∀ s a, Decidable (ok s a)] :
    (s : σ) → (actions : List α) → Decidable (Throughout step ok s actions)
  | _, [] => isTrue trivial
  | s, a :: rest =>
    have : Decidable (Throughout step ok (step s a) rest) := Throughout.decidable (step s a) rest
    inferInstanceAs (Decidable (ok s a ∧ Throughout step ok (step s a) rest))

/-- Where, in the states of a background invariant `J`, a condition is what one step needs to
keep `I`, a run keeps `I` in every state exactly if all its steps meet the condition. -/
theorem Throughout.iff_keeps {I J : σ → Prop} (each : ∀ s a, J s → I s → (I (step s a) ↔ ok s a))
    (stays : ∀ s a, J s → J (step s a)) (base : J s) (start : I s) :
    Throughout step (fun s a => I (step s a)) s actions ↔ Throughout step ok s actions := by
  induction actions generalizing s with
  | nil => exact Iff.rfl
  | cons a rest ih =>
    have head := each s a base start
    constructor
    · rintro ⟨here, later⟩
      exact ⟨head.mp here, (ih (stays s a base) here).mp later⟩
    · rintro ⟨here, later⟩
      exact ⟨head.mpr here, (ih (stays s a base) (head.mpr here)).mpr later⟩

/-- Where steps that meet the condition keep an invariant `I`, and then do what `post` says, all
steps of a run that meets it do. -/
theorem Throughout.keeps {I : σ → Prop} {post : σ → α → Prop}
    (each : ∀ s a, I s → ok s a → I (step s a) ∧ post s a) (start : I s)
    (all : Throughout step ok s actions) : Throughout step post s actions := by
  induction actions generalizing s with
  | nil => trivial
  | cons a rest ih =>
    obtain ⟨next, here⟩ := each s a start all.1
    exact ⟨here, ih next all.2⟩

end Throughout

theorem getD_cases {σ : Type} {P : σ → Prop} {result : Option σ} {s : σ} (idle : P s)
    (done : ∀ s', result = some s' → P s') : P (result.getD s) := by
  cases h : result with
  | none => exact idle
  | some s' => exact done s' h

theorem getD_bind_cases {σ α : Type} {P : σ → Prop} {found : Option α} {move : α → Option σ} {s : σ}
    (idle : P s) (moves : ∀ a s', found = some a → move a = some s' → P s') :
    P ((found.bind move).getD s) := by
  cases found with
  | none => exact idle
  | some a =>
    cases moved : move a with
    | none => simpa [moved] using idle
    | some s' => simpa [moved] using moves a s' rfl moved

/-! ## One of many moves

Processes stand at the positions of a list; `f` is what each of them has. -/

section Positions

variable {α β : Type} {l : List α} {x y : α} {i : Nat} {f : α → List β} {b : β}

theorem mem_set_or (here : x ∈ l) : x ∈ l.set i y ∨ l[i]? = some x := by
  obtain ⟨j, at_⟩ := mem_iff_getElem?.mp here
  by_cases same : i = j
  · exact .inr (same ▸ at_)
  · refine .inl (mem_iff_getElem?.mpr ⟨j, ?_⟩)
    rw [getElem?_set_ne same]
    exact at_

theorem mem_set_self (at_ : l[i]? = some x) : y ∈ l.set i y :=
  List.mem_set (List.getElem?_eq_some_iff.mp at_).1 y

theorem mem_flatMap_set_or (at_ : l[i]? = some x) (here : b ∈ l.flatMap f) :
    b ∈ (l.set i y).flatMap f ∨ b ∈ f x := by
  obtain ⟨z, mem, has⟩ := mem_flatMap.mp here
  rcases mem_set_or mem with stays | there
  · exact .inl (mem_flatMap.mpr ⟨z, stays, has⟩)
  · exact .inr (Option.some.inj (there.symm.trans at_) ▸ has)

theorem mem_of_flatMap_set (after : b ∈ (l.set i y).flatMap f) : b ∈ f y ∨ b ∈ l.flatMap f := by
  obtain ⟨z, mem, has⟩ := mem_flatMap.mp after
  rcases mem_or_eq_of_mem_set mem with before | rfl
  · exact .inr (mem_flatMap.mpr ⟨z, before, has⟩)
  · exact .inl has

theorem mem_flatMap_set_self (at_ : l[i]? = some x) (has : b ∈ f y) : b ∈ (l.set i y).flatMap f :=
  mem_flatMap.mpr ⟨y, mem_set_self at_, has⟩

end Positions
end Converge.Theory
