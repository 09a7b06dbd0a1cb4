/-
# Theory.Generation -- one object, its generations and its acknowledgements

An object carries a content and a generation.  Every write of the content moves the
generation on.  Workers act on snapshots, pairs of a generation and the content read
with it; a snapshot may be acknowledged much later, when the object has moved on, and
the object's synced generation is raised to that of an acknowledged snapshot.

`Cell` is the object with every snapshot ever taken and every acknowledgement ever
given.  `Cell.Sound` says that generations name contents: there is a history `H` from
generations to contents which the object, the snapshots and the acknowledgements all
agree with.  So an object synced at its current generation was acknowledged for its
current content (`Sound.synced_content`), counters captured from snapshots never pass
the generation (`Sound.bounds`), and generation and synced generation only grow
(`Run.grows`).
-/
import Mathlib.Data.Set.Insert
import Converge.Theory.Transition

namespace Converge.Theory.Generation

set_option autoImplicit false

variable {κ : Type}

/-- The object while it exists.  `failed` and `stamped` are counters set from
snapshots. -/
structure Object (κ : Type) where
  generation : Nat
  content : κ
  synced : Nat
  failed : Nat
  stamped : Nat

structure Snapshot (κ : Type) where
  generation : Nat
  content : κ

/-- An object, the snapshots taken of it and the snapshots acknowledged. -/
@[ext] structure Cell (κ : Type) where
  born : Prop
  object : Option (Object κ)
  snaps : Set (Snapshot κ)
  acks : Set (Snapshot κ)

def Object.snapshot (o : Object κ) : Snapshot κ := ⟨o.generation, o.content⟩

inductive Step : Cell κ → Cell κ → Prop
  | draw {c : Cell κ} (empty : c.object = none) : Step c { c with born := True }
  | create {c : Cell κ} (content : κ) (new : ¬ c.born) :
      Step c { c with born := True, object := some ⟨1, content, 0, 0, 0⟩ }
  | write {c : Cell κ} (o : Object κ) (content : κ) (here : c.object = some o) :
      Step c { c with object := some { o with generation := o.generation + 1, content := content } }
  | snap {c : Cell κ} (o : Object κ) (here : c.object = some o) :
      Step c { c with snaps := insert o.snapshot c.snaps }
  | forget {c : Cell κ} (kept : Set (Snapshot κ)) (sub : kept ⊆ c.snaps) : Step c { c with snaps := kept }
  | ack {c : Cell κ} (given : Set (Snapshot κ)) (taken : given ⊆ c.snaps) :
      Step c { c with acks := given ∪ c.acks }
  | sync {c : Cell κ} (o : Object κ) (s : Snapshot κ) (here : c.object = some o) (acked : s ∈ c.acks) :
      Step c { c with object := some { o with synced := max o.synced s.generation } }
  | fail {c : Cell κ} (o : Object κ) (g : Nat) (here : c.object = some o)
      (seen : g = 0 ∨ ∃ s ∈ c.snaps, s.generation = g) :
      Step c { c with object := some { o with failed := g } }
  | stamp {c : Cell κ} (o : Object κ) (g : Nat) (here : c.object = some o)
      (seen : g = 0 ∨ ∃ s ∈ c.snaps, s.generation = g) :
      Step c { c with object := some { o with stamped := g } }
  | remove {c : Cell κ} : Step c { c with object := none }

abbrev Run : Cell κ → Cell κ → Prop := Steps (fun _ : Unit => Step) fun _ => True

theorem Step.run {c c' : Cell κ} (step : Step c c') : Run c c' := Steps.one (l := ()) trivial step

/-- A counter of an object never passes its generation. -/
structure Object.Bounded (o : Object κ) : Prop where
  positive : 1 ≤ o.generation
  synced : o.synced ≤ o.generation
  failed : o.failed ≤ o.generation
  stamped : o.stamped ≤ o.generation

/-- The inductive invariant, with the history of contents as a witness. -/
structure Cell.Agrees (c : Cell κ) (H : Nat → κ) : Prop where
  unborn : ¬ c.born → c.object = none ∧ c.snaps = ∅ ∧ c.acks = ∅
  current : ∀ o, c.object = some o → H o.generation = o.content
  bounded : ∀ o, c.object = some o → o.Bounded
  snap : ∀ s ∈ c.snaps, H s.generation = s.content
  behind : ∀ o, c.object = some o → ∀ s ∈ c.snaps, s.generation ≤ o.generation
  ack : ∀ s ∈ c.acks, H s.generation = s.content
  acked : ∀ o, c.object = some o → ∀ s ∈ c.acks, s.generation ≤ o.generation
  /-- The synced generation is that of an acknowledgement. -/
  synced : ∀ o, c.object = some o → o.synced = 0 ∨ ∃ s ∈ c.acks, s.generation = o.synced

/-- Generations name contents. -/
def Cell.Sound (c : Cell κ) : Prop := ∃ H : Nat → κ, c.Agrees H

def Cell.unused : Cell κ := ⟨False, none, ∅, ∅⟩

theorem Cell.unused_sound [Inhabited κ] : (Cell.unused : Cell κ).Sound := by
  refine ⟨fun _ => default, fun _ => ⟨rfl, rfl, rfl⟩, ?_, ?_, ?_, ?_, ?_, ?_, ?_⟩
  · intro o h
    cases h
  · intro o h
    cases h
  · intro s h
    cases h
  · intro o h
    cases h
  · intro s h
    cases h
  · intro o h
    cases h
  · intro o h
    cases h

variable {c c' : Cell κ} {H : Nat → κ} {o : Object κ}

section

variable (good : c.Agrees H)

include good

theorem Cell.Agrees.born (here : c.object = some o) : c.born := by
  by_contra new
  rw [(good.unborn new).1] at here
  cases here

/-! ## The invariant, move by move -/

/-- Replacing the object by one of the same generation and content, whose counters are
in bounds, keeps the invariant. -/
theorem Cell.Agrees.recount (here : c.object = some o)
    (p : Object κ) (same : p.generation = o.generation) (body : p.content = o.content)
    (bounded : p.Bounded) (synced : p.synced = 0 ∨ ∃ s ∈ c.acks, s.generation = p.synced) :
    Cell.Agrees { c with object := some p } H where
  unborn new := absurd (good.born here) new
  current q h := by
    cases h
    rw [same, body]
    exact good.current o here
  bounded q h := by
    cases h
    exact bounded
  snap := good.snap
  behind q h s hs := by
    cases h
    rw [same]
    exact good.behind o here s hs
  ack := good.ack
  acked q h s hs := by
    cases h
    rw [same]
    exact good.acked o here s hs
  synced q h := by
    cases h
    exact synced

/-- A write extends the history at the new generation, which nothing has seen. -/
theorem Cell.Agrees.write (here : c.object = some o) (content : κ) : Cell.Sound
      { c with object := some { o with generation := o.generation + 1, content := content } } := by
  have old : ∀ g, g ≤ o.generation → Function.update H (o.generation + 1) content g = H g := by
    intro g le
    rw [Function.update_of_ne (by omega)]
  have b := good.bounded o here
  refine ⟨Function.update H (o.generation + 1) content, ?_, ?_, ?_, ?_, ?_, ?_, ?_, ?_⟩
  · exact fun new => absurd (good.born here) new
  · intro p h
    cases h
    exact Function.update_self ..
  · intro p h
    cases h
    exact ⟨by simp, Nat.le_succ_of_le b.synced, Nat.le_succ_of_le b.failed, Nat.le_succ_of_le b.stamped⟩
  · intro s hs
    rw [old _ (good.behind o here s hs)]
    exact good.snap s hs
  · intro p h s hs
    cases h
    exact Nat.le_succ_of_le (good.behind o here s hs)
  · intro s hs
    rw [old _ (good.acked o here s hs)]
    exact good.ack s hs
  · intro p h s hs
    cases h
    exact Nat.le_succ_of_le (good.acked o here s hs)
  · intro p h
    cases h
    exact good.synced o here

theorem Cell.Agrees.create (new : ¬ c.born) (content : κ) :
    Cell.Sound { c with born := True, object := some ⟨1, content, 0, 0, 0⟩ } := by
  obtain ⟨-, snaps, acks⟩ := good.unborn new
  refine ⟨fun _ => content, fun h => absurd trivial h, ?_, ?_, ?_, ?_, ?_, ?_, ?_⟩
  · intro o h
    cases h
    rfl
  · intro o h
    cases h
    exact ⟨le_refl _, Nat.zero_le _, Nat.zero_le _, Nat.zero_le _⟩
  · simp [snaps]
  · simp [snaps]
  · simp [acks]
  · simp [acks]
  · intro o h
    cases h
    exact Or.inl rfl

theorem Cell.Agrees.withSnaps (snaps : Set (Snapshot κ)) (born : c.born)
    (seen : ∀ s ∈ snaps, s ∈ c.snaps ∨ ∃ o, c.object = some o ∧ s = o.snapshot) :
    Cell.Agrees { c with snaps := snaps } H where
  unborn new := absurd born new
  current := good.current
  bounded := good.bounded
  snap s hs := by
    rcases seen s hs with old | ⟨o, here, rfl⟩
    · exact good.snap s old
    · exact good.current o here
  behind o h s hs := by
    rcases seen s hs with old | ⟨p, here, rfl⟩
    · exact good.behind o h s old
    · rw [h] at here
      cases here
      exact le_refl _
  ack := good.ack
  acked := good.acked
  synced := good.synced

theorem Cell.Agrees.ackAll {given : Set (Snapshot κ)}
    (taken : given ⊆ c.snaps) : Cell.Agrees { c with acks := given ∪ c.acks } H where
  unborn new := by
    obtain ⟨empty, snaps, acks⟩ := good.unborn new
    refine ⟨empty, snaps, ?_⟩
    rw [snaps, Set.subset_empty_iff] at taken
    show given ∪ c.acks = ∅
    rw [taken, acks, Set.union_empty]
  current := good.current
  bounded := good.bounded
  snap := good.snap
  behind := good.behind
  ack u hu := by
    rcases hu with new | old
    · exact good.snap u (taken new)
    · exact good.ack u old
  acked o h u hu := by
    rcases hu with new | old
    · exact good.behind o h u (taken new)
    · exact good.acked o h u old
  synced o h := (good.synced o h).imp id fun ⟨u, hu, eq⟩ => ⟨u, Or.inr hu, eq⟩

theorem Cell.Agrees.seen_le (here : c.object = some o) {g : Nat}
    (seen : g = 0 ∨ ∃ s ∈ c.snaps, s.generation = g) : g ≤ o.generation := by
  rcases seen with rfl | ⟨s, hs, rfl⟩
  · exact Nat.zero_le _
  · exact good.behind o here s hs

end

theorem Step.sound (step : Step c c') (good : c.Sound) : c'.Sound := by
  obtain ⟨H, agrees⟩ := good
  cases step with
  | draw empty =>
    exact ⟨H, fun h => absurd trivial h, agrees.current, agrees.bounded, agrees.snap, agrees.behind,
      agrees.ack, agrees.acked, agrees.synced⟩
  | create content new => exact agrees.create new content
  | write o content here => exact agrees.write here content
  | snap o here =>
    refine ⟨H, agrees.withSnaps _ (agrees.born here) ?_⟩
    rintro s (rfl | old)
    · exact Or.inr ⟨o, here, rfl⟩
    · exact Or.inl old
  | forget kept sub =>
    by_cases born : c.born
    · exact ⟨H, agrees.withSnaps _ born fun s hs => Or.inl (sub hs)⟩
    · obtain ⟨none, snaps, acks⟩ := agrees.unborn born
      rw [snaps, Set.subset_empty_iff] at sub
      subst sub
      have same : { c with snaps := ∅ } = c := by
        cases c
        simp_all
      rw [same]
      exact ⟨H, agrees⟩
  | ack given taken => exact ⟨H, agrees.ackAll taken⟩
  | sync o s here acked =>
    have b := agrees.bounded o here
    refine ⟨H, agrees.recount here _ rfl rfl
      ⟨b.positive, max_le b.synced (agrees.acked o here s acked), b.failed, b.stamped⟩ ?_⟩
    rcases le_total s.generation o.synced with le | le
    · simpa [max_eq_left le] using agrees.synced o here
    · exact Or.inr ⟨s, acked, (max_eq_right le).symm⟩
  | fail o g here seen =>
    have b := agrees.bounded o here
    exact ⟨H, agrees.recount here _ rfl rfl
      ⟨b.positive, b.synced, agrees.seen_le here seen, b.stamped⟩ (agrees.synced o here)⟩
  | stamp o g here seen =>
    have b := agrees.bounded o here
    exact ⟨H, agrees.recount here _ rfl rfl
      ⟨b.positive, b.synced, b.failed, agrees.seen_le here seen⟩ (agrees.synced o here)⟩
  | remove =>
    refine ⟨H, fun new => ⟨rfl, (agrees.unborn new).2⟩, ?_, ?_, agrees.snap, ?_, agrees.ack, ?_, ?_⟩
    all_goals
      intro o h
      cases h

theorem Run.sound (run : Run c c') (good : c.Sound) : c'.Sound :=
  Steps.keeps (fun _ step => step.sound) run good

/-! ## Generations start at 1 -/

structure Cell.Positive (c : Cell κ) : Prop where
  object : ∀ o, c.object = some o → 1 ≤ o.generation
  snaps : ∀ s ∈ c.snaps, 1 ≤ s.generation

theorem Step.positive (step : Step c c') (h : c.Positive) : c'.Positive := by
  cases step with
  | draw empty | ack given taken => exact ⟨h.object, h.snaps⟩
  | create content new => exact ⟨fun o made => by cases made; exact Nat.le_refl 1, h.snaps⟩
  | write o content here => exact ⟨fun p made => by cases made; exact Nat.le_add_left 1 _, h.snaps⟩
  | snap o here =>
    refine ⟨h.object, ?_⟩
    rintro s (rfl | old)
    · exact h.object o here
    · exact h.snaps s old
  | forget kept sub => exact ⟨h.object, fun s mem => h.snaps s (sub mem)⟩
  | sync o s here | fail o g here | stamp o g here =>
    exact ⟨fun p made => by cases made; exact h.object o here, h.snaps⟩
  | remove => exact ⟨fun p made => (nomatch made), h.snaps⟩

theorem Run.positive (run : Run c c') (h : c.Positive) : c'.Positive :=
  Steps.keeps (fun _ step => step.positive) run h

/-! ## What soundness gives -/

/-- **Synced means acknowledged for this content.** -/
theorem Cell.Sound.synced_content (good : c.Sound) (here : c.object = some o)
    (synced : o.synced = o.generation) : o.snapshot ∈ c.acks := by
  obtain ⟨H, agrees⟩ := good
  have pos := (agrees.bounded o here).positive
  rcases agrees.synced o here with zero | ⟨s, hs, eq⟩
  · omega
  · have gen : s.generation = o.generation := eq.trans synced
    have body : s.content = o.content := by
      rw [← agrees.ack s hs, gen, agrees.current o here]
    have same : s = o.snapshot := by
      cases s
      simp_all [Object.snapshot]
    exact same ▸ hs

theorem Cell.Sound.bounds (good : c.Sound) (here : c.object = some o) : o.Bounded :=
  good.elim fun _ agrees => agrees.bounded o here

/-- The object of `c'`, if any, is a later one than that of `c`; a name once used has
no object again after losing it. -/
def Later (c c' : Cell κ) : Prop :=
  (c.born → c'.born) ∧ ∀ o', c'.object = some o' → c.born →
    ∃ o, c.object = some o ∧ o.generation ≤ o'.generation ∧ o.synced ≤ o'.synced

theorem Later.refl (c : Cell κ) : Later c c :=
  ⟨id, fun o ho _ => ⟨o, ho, le_refl _, le_refl _⟩⟩

theorem Later.trans {a b d : Cell κ} (first : Later a b) (second : Later b d) : Later a d := by
  refine ⟨fun born => second.1 (first.1 born), ?_⟩
  intro o ho born
  obtain ⟨p, hp, gen, syn⟩ := second.2 o ho (first.1 born)
  obtain ⟨q, hq, gen', syn'⟩ := first.2 p hp born
  exact ⟨q, hq, gen'.trans gen, syn'.trans syn⟩

theorem Step.later (step : Step c c') : Later c c' := by
  cases step with
  | draw empty => exact ⟨fun _ => trivial, fun o ho _ => ⟨o, ho, le_refl _, le_refl _⟩⟩
  | create content new => exact ⟨fun _ => trivial, fun _ _ born => absurd born new⟩
  | write o content here =>
    refine ⟨id, fun p hp _ => ⟨o, here, ?_⟩⟩
    cases hp
    exact ⟨Nat.le_succ _, le_refl _⟩
  | sync o s here acked =>
    refine ⟨id, fun p hp _ => ⟨o, here, ?_⟩⟩
    cases hp
    exact ⟨le_refl _, le_max_left _ _⟩
  | fail o g here seen | stamp o g here seen =>
    refine ⟨id, fun p hp _ => ⟨o, here, ?_⟩⟩
    cases hp
    exact ⟨le_refl _, le_refl _⟩
  | snap o here | forget kept sub | ack given taken => exact Later.refl _
  | remove => exact ⟨id, fun _ ho => by cases ho⟩

theorem Run.grows (run : Run c c') : Later c c' :=
  Steps.relates (I := fun _ => True) Later.refl Later.trans (fun _ _ => id)
    (fun _ step _ => step.later) run trivial

end Converge.Theory.Generation
