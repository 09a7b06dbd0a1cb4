/-
# Theory.Journal -- computations that log their calls and may stop

A `Journal` is what a sequence of calls to an environment leaves behind: the entries
logged, in order, and a result, unless some call stopped it.  Nothing after a stop is
logged.

`Logs` says of a whole journal what is known of each call: an entry let the computation
go on, or the computation stopped at it.  `Agree` compares two journals up to a view of
their entries.  Each is carried through a sequence by one rule.
-/
import Mathlib.Tactic.Common

namespace Converge.Theory

open List

set_option autoImplicit false

structure Journal (ω ε α : Type) where
  log : List ω
  result : Except ε α

namespace Journal

variable {ω ε α β : Type} {f : α → Journal ω ε β} {j : Journal ω ε α}

/-- Log `w` and go on with `a`. -/
def entry (w : ω) (a : α) : Journal ω ε α := ⟨[w], .ok a⟩

/-- Log `w` and stop. -/
def halt (w : ω) (e : ε) : Journal ω ε α := ⟨[w], .error e⟩

/-- Stop without an entry. -/
def stop (e : ε) : Journal ω ε α := ⟨[], .error e⟩

instance : Monad (Journal ω ε) where
  pure a := ⟨[], .ok a⟩
  bind j f :=
    match j.result with
    | .error e => ⟨j.log, .error e⟩
    | .ok a => ⟨j.log ++ (f a).log, (f a).result⟩

theorem bind_of_ok {a : α} (ok : j.result = .ok a) : j >>= f = ⟨j.log ++ (f a).log, (f a).result⟩ := by
  change (match j.result with
    | .error e => (⟨j.log, .error e⟩ : Journal ω ε β)
    | .ok a => ⟨j.log ++ (f a).log, (f a).result⟩) = _
  rw [ok]

theorem bind_of_error {e : ε} (error : j.result = .error e) : j >>= f = ⟨j.log, .error e⟩ := by
  change (match j.result with
    | .error e => (⟨j.log, .error e⟩ : Journal ω ε β)
    | .ok a => ⟨j.log ++ (f a).log, (f a).result⟩) = _
  rw [error]

theorem bind_eq_ok {b : β} : (j >>= f).result = .ok b ↔ ∃ a, j.result = .ok a ∧ (f a).result = .ok b := by
  cases h : j.result with
  | error e =>
    rw [bind_of_error h]
    constructor
    · intro done
      cases done
    · rintro ⟨a, found, -⟩
      cases found
  | ok a =>
    rw [bind_of_ok h]
    constructor
    · exact fun done => ⟨a, rfl, done⟩
    · rintro ⟨a', same, done⟩
      cases same
      exact done

theorem mem_bind {w : ω} : w ∈ (j >>= f).log ↔ w ∈ j.log ∨ ∃ a, j.result = .ok a ∧ w ∈ (f a).log := by
  cases h : j.result with
  | error e =>
    rw [bind_of_error h]
    constructor
    · exact .inl
    · rintro (here | ⟨a, found, -⟩)
      · exact here
      · cases found
  | ok a =>
    rw [bind_of_ok h, mem_append]
    constructor
    · exact Or.imp_right fun later => ⟨a, rfl, later⟩
    · rintro (here | ⟨a', same, later⟩)
      · exact .inl here
      · cases same
        exact .inr later

/-! ## What the entries say -/

/-- Each entry let the computation go on, or is the one it stopped at: `R` relates entries
to the stop they lead to, if any. -/
def Logs (R : ω → Option ε → Prop) (j : Journal ω ε α) : Prop :=
  ∀ w ∈ j.log, R w none ∨ ∃ e, j.result = .error e ∧ R w (some e)

namespace Logs

variable {R : ω → Option ε → Prop}

theorem pure (a : α) : Logs R (Pure.pure a : Journal ω ε α) := fun _ listed => nomatch listed

theorem stop (e : ε) : Logs R (Journal.stop e : Journal ω ε α) := fun _ listed => nomatch listed

theorem entry {w : ω} (passes : R w none) (a : α) : Logs R (Journal.entry w a : Journal ω ε α) := by
  intro w' listed
  rw [mem_singleton.mp listed]
  exact .inl passes

theorem halt {w : ω} {e : ε} (stops : R w (some e)) : Logs R (Journal.halt w e : Journal ω ε α) := by
  intro w' listed
  rw [mem_singleton.mp listed]
  exact .inr ⟨e, rfl, stops⟩

theorem bind {j : Journal ω ε α} {f : α → Journal ω ε β} (first : Logs R j)
    (next : ∀ a, j.result = .ok a → Logs R (f a)) : Logs R (j >>= f) := by
  intro w listed
  rcases mem_bind.mp listed with here | ⟨a, found, later⟩
  · rcases first w here with passes | ⟨e, stopped, stops⟩
    · exact .inl passes
    · exact .inr ⟨e, by rw [bind_of_error stopped], stops⟩
  · rw [bind_of_ok found]
    exact next a found w later

end Logs

/-! ## Journals that agree -/

/-- The same result, and the same entries as far as `view` shows them. -/
structure Agree {ν : Type} (view : ω → Option ν) (j j' : Journal ω ε α) : Prop where
  result : j.result = j'.result
  shown : j.log.filterMap view = j'.log.filterMap view

namespace Agree

variable {ν : Type} {view : ω → Option ν}

theorem refl (j : Journal ω ε α) : Agree view j j := ⟨rfl, rfl⟩

theorem bind {j j' : Journal ω ε α} {f f' : α → Journal ω ε β} (first : Agree view j j')
    (next : ∀ a, Agree view (f a) (f' a)) : Agree view (j >>= f) (j' >>= f') := by
  cases found : j.result with
  | error e =>
    rw [bind_of_error found, bind_of_error (first.result.symm.trans found)]
    exact ⟨rfl, first.shown⟩
  | ok a =>
    rw [bind_of_ok found, bind_of_ok (first.result.symm.trans found)]
    refine ⟨(next a).result, ?_⟩
    rw [filterMap_append, filterMap_append, first.shown, (next a).shown]

end Agree

end Journal

end Converge.Theory
