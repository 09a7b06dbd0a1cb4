/-
# Theory.Fence -- one leased slot, its tokens and its results

A slot holds a piece of work at some version.  It is leased by a claim, freed by its
owner (`release`) or by a reaper, pointed to a newer version (`repoint`), and removed
when its result is taken.  Every change of hands moves the slot's epoch on, and a
claim's token is the epoch it left together with the version it saw.  A result may
be returned under a token only while the slot still carries the token's epoch and no
result is waiting.

`Cell` is the slot with its whole history, `Step` the moves.  `Cell.Sound` is the
inductive invariant; from it

* epochs of a slot never decrease, and a token that was superseded stays superseded
  (`epoch_mono`, `superseded_stays`);
* each token's result is taken at most once (`Sound.once`);
* a waiting result of the current version keeps the slot leased, as long as nothing
  releases it (`Run.leased`).
-/
import Mathlib.Data.Set.Insert
import Converge.Theory.Transition

namespace Converge.Theory.Fence

open Option

set_option autoImplicit false

/-- The slot while it exists. -/
structure Slot where
  epoch : Nat
  version : Nat
  held : Bool

/-- What a claim hands out. -/
structure Token where
  epoch : Nat
  version : Nat

/-- A slot and its history.  `born` is set once the slot's name has been used. -/
@[ext] structure Cell where
  born : Prop
  slot : Option Slot
  waiting : Option Token
  claims : Set Token
  taken : List Token

inductive Move where
  | draw
  | insert
  | claim
  | reap
  | release
  | repoint
  | remove
  | append
  | take
  deriving DecidableEq

inductive Step : Move → Cell → Cell → Prop
  | draw {c : Cell} (empty : c.slot = none) : Step .draw c { c with born := True }
  | insert {c : Cell} (e v : Nat) (new : ¬ c.born) :
      Step .insert c { c with born := True, slot := some ⟨e, v, false⟩ }
  | claim {c : Cell} (e v : Nat) (free : c.slot = some ⟨e, v, false⟩) : Step .claim c
        { c with slot := some ⟨e + 1, v, true⟩, claims := insert ⟨e + 1, v⟩ c.claims }
  | reap {c : Cell} (e v : Nat) (held : Bool) (here : c.slot = some ⟨e, v, held⟩)
      (unfinished : c.waiting = none) :
      Step .reap c { c with slot := some ⟨e + 1, v, false⟩ }
  | release {c : Cell} (e v : Nat) (held : Bool) (here : c.slot = some ⟨e, v, held⟩) :
      Step .release c { c with slot := some ⟨e + 1, v, false⟩ }
  | repoint {c : Cell} (e v w : Nat) (held : Bool) (here : c.slot = some ⟨e, v, held⟩)
      (newer : v < w) : Step .repoint c { c with slot := some ⟨e + 1, w, false⟩ }
  | remove {c : Cell} : Step .remove c { c with slot := none }
  | append {c : Cell} (s : Slot) (t : Token) (here : c.slot = some s) (granted : t ∈ c.claims)
      (current : s.epoch = t.epoch) (room : c.waiting = none) :
      Step .append c { c with waiting := some t }
  | take {c : Cell} (t : Token) (here : c.waiting = some t) : Step .take c { c with
        waiting := none
        taken := t :: c.taken
        slot := c.slot.filter fun s => s.version ≠ t.version }

/-- Runs of the protocol confined to some moves. -/
abbrev Run (allow : Move → Prop) : Cell → Cell → Prop := Steps Step allow

structure Cell.Sound (c : Cell) : Prop where
  /-- An unused name has no history. -/
  unborn : ¬ c.born → c.slot = none ∧ c.waiting = none ∧ c.claims = ∅ ∧ c.taken = []
  /-- No token is ahead of the slot, in epoch or version. -/
  behind : ∀ s, c.slot = some s → ∀ t ∈ c.claims, t.epoch ≤ s.epoch ∧ t.version ≤ s.version
  /-- A token with the slot's epoch is the current lease. -/
  lease : ∀ s, c.slot = some s → ∀ t ∈ c.claims, t.epoch = s.epoch → t.version = s.version ∧ s.held = true
  granted : ∀ t, c.waiting = some t → t ∈ c.claims
  /-- Taken results are of superseded tokens. -/
  past : ∀ s, c.slot = some s → ∀ t ∈ c.taken, t.epoch < s.epoch
  /-- The waiting result's token has none taken. -/
  untaken : ∀ t, c.waiting = some t → ∀ u ∈ c.taken, u.epoch ≠ t.epoch
  /-- Each token's result is taken at most once. -/
  once : c.taken.Pairwise fun t u => t.epoch ≠ u.epoch

def Cell.unused : Cell := ⟨False, none, none, ∅, []⟩

theorem Cell.unused_sound : Cell.unused.Sound where
  unborn _ := ⟨rfl, rfl, rfl, rfl⟩
  behind _ h := by cases h
  lease _ h := by cases h
  granted _ h := by cases h
  past _ h := by cases h
  untaken _ h := by cases h
  once := List.Pairwise.nil

variable {c c' : Cell} {m : Move}
variable {allow : Move → Prop} {s : Slot} {t : Token}

/-! ## The invariant, move by move -/

section

variable (good : c.Sound)

include good

theorem Cell.Sound.draw (empty : c.slot = none) : Cell.Sound { c with born := True } where
  unborn h := absurd trivial h
  behind s hs := by simp [empty] at hs
  lease s hs := by simp [empty] at hs
  granted := good.granted
  past s hs := by simp [empty] at hs
  untaken := good.untaken
  once := good.once

theorem Cell.Sound.insert (new : ¬ c.born) (s : Slot) :
    Cell.Sound { c with born := True, slot := some s } where
  unborn h := absurd trivial h
  behind _ _ t ht := by simp [(good.unborn new).2.2.1] at ht
  lease _ _ t ht := by simp [(good.unborn new).2.2.1] at ht
  granted := good.granted
  past _ _ t ht := by simp [(good.unborn new).2.2.2] at ht
  untaken := good.untaken
  once := good.once

theorem Cell.Sound.born_of_slot (here : c.slot = some s) : c.born := by
  by_contra new
  rw [(good.unborn new).1] at here
  cases here

/-- A slot whose epoch moved on and whose version did not go back keeps every token
behind it; no token is its lease. -/
theorem Cell.Sound.freed (here : c.slot = some s) (v : Nat)
    (le : s.version ≤ v) : Cell.Sound { c with slot := some ⟨s.epoch + 1, v, false⟩ } where
  unborn new := absurd (good.born_of_slot here) new
  behind _ h t ht := by
    cases h
    have := good.behind s here t ht
    show t.epoch ≤ s.epoch + 1 ∧ t.version ≤ v
    omega
  lease _ h t ht same := by
    cases h
    have : t.epoch ≤ s.epoch := (good.behind s here t ht).1
    have : t.epoch = s.epoch + 1 := same
    omega
  granted := good.granted
  past _ h t ht := by
    cases h
    have := good.past s here t ht
    show t.epoch < s.epoch + 1
    omega
  untaken := good.untaken
  once := good.once

theorem Cell.Sound.claim {e v : Nat} (free : c.slot = some ⟨e, v, false⟩) : Cell.Sound
      { c with slot := some ⟨e + 1, v, true⟩, claims := Insert.insert ⟨e + 1, v⟩ c.claims } where
  unborn new := absurd (good.born_of_slot free) new
  behind _ h t ht := by
    cases h
    rcases ht with rfl | old
    · exact ⟨le_refl _, le_refl _⟩
    · have : t.epoch ≤ e ∧ t.version ≤ v := good.behind _ free t old
      show t.epoch ≤ e + 1 ∧ t.version ≤ v
      omega
  lease _ h t ht same := by
    cases h
    rcases ht with rfl | old
    · exact ⟨rfl, rfl⟩
    · have : t.epoch ≤ e := (good.behind _ free t old).1
      have : t.epoch = e + 1 := same
      omega
  granted t ht := Or.inr (good.granted t ht)
  past _ h t ht := by
    cases h
    have : t.epoch < e := good.past _ free t ht
    show t.epoch < e + 1
    omega
  untaken := good.untaken
  once := good.once

theorem Cell.Sound.remove : Cell.Sound { c with slot := none } where
  unborn new := ⟨rfl, (good.unborn new).2⟩
  behind _ h := by cases h
  lease _ h := by cases h
  granted := good.granted
  past _ h := by cases h
  untaken := good.untaken
  once := good.once

theorem Cell.Sound.append (here : c.slot = some s) (granted : t ∈ c.claims)
    (current : s.epoch = t.epoch) : Cell.Sound { c with waiting := some t } where
  unborn new := absurd (good.born_of_slot here) new
  behind := good.behind
  lease := good.lease
  granted u h := by
    cases h
    exact granted
  past := good.past
  untaken u h w hw := by
    cases h
    have := good.past s here w hw
    omega
  once := good.once

theorem Cell.Sound.take (here : c.waiting = some t) : Cell.Sound { c with
      waiting := none
      taken := t :: c.taken
      slot := c.slot.filter fun s => s.version ≠ t.version } where
  unborn new := by
    rw [(good.unborn new).2.1] at here
    cases here
  behind s h := good.behind s (eq_some_of_filter_eq_some h)
  lease s h := good.lease s (eq_some_of_filter_eq_some h)
  granted _ h := by cases h
  past s h u hu := by
    have kept := eq_some_of_filter_eq_some h
    rcases List.mem_cons.mp hu with rfl | old
    · -- the slot survived, so it is at another version, so the token is not its lease
      have other : s.version ≠ u.version := by
        have := (filter_eq_some_iff.mp h).2
        simpa using this
      have le := (good.behind s kept u (good.granted u here)).1
      have ne : u.epoch ≠ s.epoch := fun same =>
        other (good.lease s kept u (good.granted u here) same).1.symm
      omega
    · exact good.past s kept u old
  untaken _ h := by cases h
  once := List.pairwise_cons.mpr ⟨fun u hu => (good.untaken t here u hu).symm, good.once⟩

end

theorem Step.sound (step : Step m c c') (good : c.Sound) : c'.Sound := by
  cases step with
  | draw empty => exact good.draw empty
  | insert e v new => exact good.insert new _
  | claim e v free => exact good.claim free
  | reap e v held here _ | release e v held here => exact good.freed here v (le_refl _)
  | repoint e v w held here newer => exact good.freed here w (le_of_lt newer)
  | remove => exact good.remove
  | append s t here granted current _ => exact good.append here granted current
  | take t here => exact good.take here

theorem Run.sound (run : Run allow c c') (good : c.Sound) : c'.Sound :=
  Steps.keeps (fun _ step => step.sound) run good

/-! ## Epochs -/

/-- The slot of `c'`, if any, is no older than that of `c`; a name once used has no
slot again after losing it. -/
def Later (c c' : Cell) : Prop :=
  (c.born → c'.born) ∧ ∀ s', c'.slot = some s' → c.born → ∃ s, c.slot = some s ∧ s.epoch ≤ s'.epoch

theorem Later.refl (c : Cell) : Later c c := ⟨id, fun s hs _ => ⟨s, hs, le_refl _⟩⟩

theorem Later.trans {a b d : Cell} (first : Later a b) (second : Later b d) : Later a d := by
  refine ⟨fun born => second.1 (first.1 born), ?_⟩
  intro s hs born
  obtain ⟨s', hs', le'⟩ := second.2 s hs (first.1 born)
  obtain ⟨s'', hs'', le''⟩ := first.2 s' hs' born
  exact ⟨s'', hs'', le''.trans le'⟩

theorem Step.later (step : Step m c c') : Later c c' := by
  cases step with
  | draw empty => exact ⟨fun _ => trivial, fun s hs _ => ⟨s, hs, le_refl _⟩⟩
  | insert e v new => exact ⟨fun _ => trivial, fun _ _ born => absurd born new⟩
  | claim e v free =>
    refine ⟨id, fun s hs _ => ⟨_, free, ?_⟩⟩
    cases hs
    exact Nat.le_succ e
  | reap e v held here _ | release e v held here | repoint e v w held here newer =>
    refine ⟨id, fun s hs _ => ⟨_, here, ?_⟩⟩
    cases hs
    exact Nat.le_succ e
  | remove => exact ⟨id, fun _ hs => by cases hs⟩
  | append s t here granted current room => exact Later.refl _
  | take t here =>
    exact ⟨id, fun s hs _ => ⟨s, eq_some_of_filter_eq_some hs, le_refl _⟩⟩

theorem Run.later (run : Run allow c c') : Later c c' :=
  Steps.relates (I := fun _ => True) Later.refl Later.trans (fun _ _ => id)
    (fun _ step _ => step.later) run trivial

theorem epoch_mono (run : Run allow c c') (good : c.Sound) {s' : Slot}
    (before : c.slot = some s) (after : c'.slot = some s') : s.epoch ≤ s'.epoch := by
  obtain ⟨s₀, hs₀, le⟩ := run.later.2 s' after (good.born_of_slot before)
  rw [before] at hs₀
  cases hs₀
  exact le

/-- The slot no longer carries the epoch of `t`. -/
def Superseded (c : Cell) (t : Token) : Prop := ∀ s, c.slot = some s → s.epoch ≠ t.epoch

theorem superseded_stays (run : Run allow c c') (good : c.Sound)
    (granted : t ∈ c.claims) (ended : Superseded c t) : Superseded c' t := by
  intro s' hs'
  have born : c.born := by
    by_contra new
    rw [(good.unborn new).2.2.1] at granted
    exact granted
  obtain ⟨s, hs, le⟩ := run.later.2 s' hs' born
  have behind := (good.behind s hs t granted).1
  have ne := ended s hs
  omega

/-! ## Waiting results -/

/-- A waiting result of the slot's version keeps the slot leased. -/
def Leased (c : Cell) : Prop :=
  ∀ s t, c.slot = some s → c.waiting = some t → t.version = s.version → s.held = true

theorem Step.leased (step : Step m c c') (good : c.Sound) (kept : m ≠ .release) : Leased c' := by
  intro s' t' hs' ht' same
  cases step with
  | draw empty => simp [empty] at hs'
  | insert e v new =>
    rw [(good.unborn new).2.1] at ht'
    cases ht'
  | claim e v free =>
    cases hs'
    rfl
  | reap e v held here unfinished =>
    rw [unfinished] at ht'
    cases ht'
  | release e v held here => exact absurd rfl kept
  | repoint e v w held here newer =>
    -- results are of versions the slot has had
    cases hs'
    have : t'.version ≤ v := (good.behind _ here t' (good.granted t' ht')).2
    have : t'.version = w := same
    omega
  | remove => cases hs'
  | append s t here granted current room =>
    cases ht'
    rw [here] at hs'
    cases hs'
    exact (good.lease s' here t' granted current.symm).2
  | take t here => cases ht'

/-- A run without releases keeps a slot with a current result leased. -/
theorem Run.leased (run : Run allow c c') (good : c.Sound)
    (kept : ¬ allow .release) (leased : Leased c) : Leased c' := by
  have both : c'.Sound ∧ Leased c' := by
    refine Steps.keeps (I := fun c => c.Sound ∧ Leased c) ?_ run ⟨good, leased⟩
    intro m a b ok step before
    refine ⟨step.sound before.1, step.leased before.1 ?_⟩
    rintro rfl
    exact kept ok
  exact both.2

end Converge.Theory.Fence
