/-
# Guarantees.ManifestLattice -- the two validators of a manifest

A manifest is checked by the server before the write and by the database on it.  Both walk the
reactions and refuse the first that is not legal, then count the reactions of which a kind may
have one.  `Lattice` says what they agree on.  They differ in where a teardown may have its
finalizer: on the reaction, or also on the manifest.

So they agree on a manifest exactly if it has no finalizer, or every teardown has its own, or
something else is wrong with it (`validators_agree`).
-/
import Converge.Kernel.StoredReactions

namespace Converge.Kernel

open List

set_option autoImplicit false

/-! ## The lattice -/

/-- What both ask of one reaction. -/
structure ReactionDecl.Legal (rx : ReactionDecl) : Prop where
  known : ∀ text, rx.trigger ≠ .other text
  composer : rx.trigger = .specChange → rx.hasChildren = true → rx.hasStatus = true ∧ rx.hasSide = false
  operation : rx.trigger = .operation → rx.verb ≠ ""
  reactor : rx.trigger = .reactor → rx.hasSide = true ∧ rx.hasChildren = false ∧ rx.hasStatus = false

/-- What both ask of the reactions of a kind. -/
structure Lattice (reactions : List ReactionDecl) : Prop where
  legal : ∀ rx ∈ reactions, rx.Legal
  oneComposer : reactions.countP (fun rx => rx.trigger = .specChange && rx.hasChildren) ≤ 1
  oneRollup : reactions.countP (fun rx => rx.trigger = .childrenSettled && rx.hasStatus) ≤ 1
  oneReactor : reactions.countP (fun rx => rx.trigger = .reactor) ≤ 1

/-- The finalizer of a teardown, on the reaction or, where that counts, on the manifest. -/
def ReactionDecl.Finalized (finalizerName : String) (rx : ReactionDecl) : Prop :=
  rx.trigger = .deleteRequested → rx.finalizer ≠ "" ∨ finalizerName ≠ ""

/-! ## One round -/

/-- A round accepts the reactions that meet `p`, and counts them. -/
structure Checks (round : Tally → ReactionDecl → Except String Tally) (p : ReactionDecl → Prop) : Prop where
  accepts : ∀ n rx, p rx → round n rx = .ok (n.count rx)
  rejects : ∀ n rx, ¬ p rx → ∃ e, round n rx = .error e

theorem checkReaction_checks (finalizerName : String) :
    Checks (checkReaction finalizerName) fun rx => rx.Legal ∧ rx.Finalized finalizerName where
  accepts := by
    rintro n rx ⟨legal, finalized⟩
    unfold checkReaction
    cases trigger : rx.trigger with
    | other text => exact absurd trigger (legal.known text)
    | specChange =>
      cases children : rx.hasChildren with
      | false => rfl
      | true =>
        obtain ⟨status, side⟩ := legal.composer trigger children
        simp [status, side]
    | deleteRequested => rcases finalized trigger with own | named <;> simp [*]
    | operation => simp [legal.operation trigger]
    | reactor =>
      obtain ⟨side, children, status⟩ := legal.reactor trigger
      simp [side, children, status]
    | childrenSettled | resync => rfl
  rejects := by
    intro n rx refused
    -- a reaction that no check stops is legal
    unfold checkReaction
    cases trigger : rx.trigger with
    | other text =>
      simp only
      split <;> exact ⟨_, rfl⟩
    | specChange =>
      simp only
      split
      · exact ⟨_, rfl⟩
      split
      · exact ⟨_, rfl⟩
      next reports separate =>
        refine absurd ⟨⟨by simp [trigger], fun _ children => ?_, by simp [trigger], by simp [trigger]⟩,
          by simp [ReactionDecl.Finalized, trigger]⟩ refused
        simpa [children] using And.intro reports separate
    | deleteRequested =>
      simp only
      split
      · exact ⟨_, rfl⟩
      next named =>
        refine absurd ⟨⟨by simp [trigger], by simp [trigger], by simp [trigger], by simp [trigger]⟩, fun _ => ?_⟩
          refused
        rw [← not_and_or]
        simpa using named
    | operation =>
      simp only
      split
      · exact ⟨_, rfl⟩
      next verb =>
        exact absurd ⟨⟨by simp [trigger], by simp [trigger], fun _ => verb, by simp [trigger]⟩,
          by simp [ReactionDecl.Finalized, trigger]⟩ refused
    | reactor =>
      simp only
      split
      · exact ⟨_, rfl⟩
      split
      · exact ⟨_, rfl⟩
      next acts only =>
        refine absurd ⟨⟨by simp [trigger], by simp [trigger], by simp [trigger], fun _ => ?_⟩,
          by simp [ReactionDecl.Finalized, trigger]⟩ refused
        simpa using And.intro acts only
    | childrenSettled | resync =>
      exact absurd ⟨⟨by simp [trigger], by simp [trigger], by simp [trigger], by simp [trigger]⟩,
        by simp [ReactionDecl.Finalized, trigger]⟩ refused

/-- The database checks what the server does where the manifest has no finalizer, in other words. -/
theorem checkStoredReaction_checks : Checks checkStoredReaction fun rx => rx.Legal ∧ rx.Finalized "" := by
  have same (n : Tally) (rx : ReactionDecl) :
      (checkStoredReaction n rx).toOption = (checkReaction "" n rx).toOption := by
    unfold checkStoredReaction checkReaction
    cases rx.trigger <;> simp only [decide_true, Bool.and_true, decide_eq_true_eq] <;>
      repeat (first | rfl | split)
  have server := checkReaction_checks ""
  constructor
  · intro n rx ok
    have same := same n rx
    rw [server.accepts n rx ok] at same
    cases found : checkStoredReaction n rx with
    | ok n' =>
      rw [found] at same
      exact congrArg _ (Option.some.inj same)
    | error e =>
      rw [found] at same
      cases same
  · intro n rx refused
    obtain ⟨e, rejected⟩ := server.rejects n rx refused
    have same := same n rx
    rw [rejected] at same
    cases found : checkStoredReaction n rx with
    | ok n' =>
      rw [found] at same
      cases same
    | error e' => exact ⟨e', rfl⟩

/-! ## The rounds -/

section Rounds

variable {round : Tally → ReactionDecl → Except String Tally} {p q : ReactionDecl → Prop}
    {reactions : List ReactionDecl}

theorem Checks.rounds (checks : Checks round p) (all : ∀ rx ∈ reactions, p rx)
    (n : Tally) : reactions.foldlM round n = .ok (reactions.foldl Tally.count n) := by
  induction reactions generalizing n with
  | nil => rfl
  | cons rx rest ih =>
    rw [foldlM_cons, checks.accepts n rx (all rx mem_cons_self)]
    exact ih (fun rx' listed => all rx' (.tail _ listed)) _

theorem Checks.stops (checks : Checks round p) (bad : ¬ ∀ rx ∈ reactions, p rx)
    (n : Tally) : ∃ e, reactions.foldlM round n = .error e := by
  induction reactions generalizing n with
  | nil => exact absurd (fun _ h => nomatch h) bad
  | cons rx rest ih =>
    rw [foldlM_cons]
    by_cases first : p rx
    · rw [checks.accepts n rx first]
      refine ih (fun all => bad ?_) _
      exact forall_mem_cons.mpr ⟨first, all⟩
    · obtain ⟨e, rejected⟩ := checks.rejects n rx first
      rw [rejected]
      exact ⟨e, rfl⟩

theorem foldl_count (reactions : List ReactionDecl) (n : Tally) : (reactions.foldl Tally.count n).children =
        n.children + reactions.countP (fun rx => rx.trigger = .specChange && rx.hasChildren) ∧
      (reactions.foldl Tally.count n).rollup =
        n.rollup + reactions.countP (fun rx => rx.trigger = .childrenSettled && rx.hasStatus) ∧
      (reactions.foldl Tally.count n).reactor =
        n.reactor + reactions.countP (fun rx => rx.trigger = .reactor) := by
  induction reactions generalizing n with
  | nil => exact ⟨rfl, rfl, rfl⟩
  | cons rx rest ih =>
    obtain ⟨children, rollup, reactor⟩ := ih (n.count rx)
    rw [foldl_cons, children, rollup, reactor, countP_cons, countP_cons, countP_cons]
    simp only [Tally.count, decide_eq_true_eq]
    omega

theorem atMostOne_ok (what : String) (got : Nat) : atMostOne what got = .ok () ↔ got ≤ 1 := by
  unfold atMostOne
  split
  next more => exact ⟨nofun, fun one => absurd more (Nat.not_lt.mpr one)⟩
  next one => exact ⟨fun _ => Nat.not_lt.mp one, fun _ => rfl⟩

theorem bind_ok {first second : Except String Unit} :
    (first.bind fun _ => second) = .ok () ↔ first = .ok () ∧ second = .ok () := by
  cases first with
  | ok => exact ⟨fun h => ⟨rfl, h⟩, And.right⟩
  | error e => exact ⟨nofun, fun h => nomatch h.1⟩

/-- A validator that walks the reactions and then counts: which it accepts. -/
theorem Checks.accepts_iff (checks : Checks round fun rx => rx.Legal ∧ q rx)
    (reactions : List ReactionDecl) {last : Tally → Except String Unit}
    (counts : ∀ n, last n = .ok () ↔ n.children ≤ 1 ∧ n.rollup ≤ 1 ∧ n.reactor ≤ 1) :
    ((reactions.foldlM round ⟨0, 0, 0⟩).bind last).isOk = true ↔ Lattice reactions ∧ ∀ rx ∈ reactions, q rx := by
  by_cases all : ∀ rx ∈ reactions, rx.Legal ∧ q rx
  · obtain ⟨children, rollup, reactor⟩ := foldl_count reactions ⟨0, 0, 0⟩
    have last_ok : (last (reactions.foldl Tally.count ⟨0, 0, 0⟩)).isOk = true ↔
        last (reactions.foldl Tally.count ⟨0, 0, 0⟩) = .ok () := by
      cases last (reactions.foldl Tally.count ⟨0, 0, 0⟩) with
      | ok => exact ⟨fun _ => rfl, fun _ => rfl⟩
      | error e => exact ⟨nofun, nofun⟩
    rw [checks.rounds all]
    show (last _).isOk = true ↔ _
    rw [last_ok, counts, children, rollup, reactor]
    simp only [Nat.zero_add]
    constructor
    · rintro ⟨composer, rollup, reactor⟩
      exact ⟨⟨fun rx listed => (all rx listed).1, composer, rollup, reactor⟩, fun rx listed => (all rx listed).2⟩
    · rintro ⟨lattice, -⟩
      exact ⟨lattice.oneComposer, lattice.oneRollup, lattice.oneReactor⟩
  · obtain ⟨e, stopped⟩ := checks.stops all ⟨0, 0, 0⟩
    rw [stopped]
    refine ⟨nofun, fun ok => absurd (fun rx listed => ?_) all⟩
    exact ⟨ok.1.legal rx listed, ok.2 rx listed⟩

end Rounds

/-! ## Both validators -/

theorem validateManifest_iff {m : ManifestDoc} (named : m.kind ≠ "") (version : 1 ≤ m.kindVersion) :
    (validateManifest m).isOk = true ↔
      Lattice m.reactions ∧ ∀ rx ∈ m.reactions, rx.Finalized m.finalizerName := by
  unfold validateManifest
  rw [if_neg named, if_neg (Int.not_lt.mpr version)]
  refine (checkReaction_checks m.finalizerName).accepts_iff m.reactions fun n => ?_
  rw [bind_ok, bind_ok, oneChildren, oneRollup, oneReactor, atMostOne_ok, atMostOne_ok, atMostOne_ok]

theorem validateKindManifest_iff (reactions : List ReactionDecl) :
    (validateKindManifest reactions).isOk = true ↔ Lattice reactions ∧ ∀ rx ∈ reactions, rx.Finalized "" := by
  refine checkStoredReaction_checks.accepts_iff reactions fun n => ?_
  rw [bind_ok, bind_ok, oneChildren, oneRollup, oneReactor, atMostOne_ok, atMostOne_ok, atMostOne_ok]
  tauto

/-- **The two validators agree on a manifest exactly if every teardown has its own finalizer, or
the manifest has none, or the manifest is off the lattice anyway.** -/
theorem validators_agree (render : Json → String) (m : ManifestDoc) (reactions : List ReactionText)
    (declared : m.reactions = reactions.map ReactionText.decl) (named : m.kind ≠ "")
    (version : 1 ≤ m.kindVersion) :
    ((validateManifest m).isOk = true ↔ (validateStored render (marshalReactions reactions)).isOk = true) ↔
      (Lattice m.reactions → m.finalizerName ≠ "" →
        ∀ rx ∈ m.reactions, rx.trigger = .deleteRequested → rx.finalizer ≠ "") := by
  rw [validateStored_marshal, ← declared, validateManifest_iff named version, validateKindManifest_iff]
  constructor
  · intro agree lattice withName rx listed teardown
    have stored := agree.mp ⟨lattice, fun _ _ _ => .inr withName⟩
    exact (stored.2 rx listed teardown).resolve_right fun ne => ne rfl
  · intro own
    constructor
    · rintro ⟨lattice, finalized⟩
      refine ⟨lattice, fun rx listed teardown => .inl ?_⟩
      by_cases withName : m.finalizerName = ""
      · exact (finalized rx listed teardown).resolve_right fun ne => ne withName
      · exact own lattice withName rx listed teardown
    · rintro ⟨lattice, finalized⟩
      refine ⟨lattice, fun rx listed teardown => .inl ?_⟩
      exact (finalized rx listed teardown).resolve_right fun ne => ne rfl

/-! ## A teardown -/

/-- A manifest of kind `vm` with one reaction, and perhaps a finalizer. -/
def oneReaction (finalizerName : String) (rx : ReactionText) : ManifestDoc :=
  ⟨"vm", 1, [rx.decl], finalizerName, 0, 0, 0, false, 0, 0, false⟩

/-- With its own finalizer a teardown passes both. -/
theorem validators_agree_own_finalizer :
    let rx : ReactionText := ⟨"destroy", "deleteRequested", none, "", "vm/destroy"⟩
    ((validateManifest (oneReaction "vm/teardown" rx)).isOk = true ↔
        (validateStored (fun _ => "") (marshalReactions [rx])).isOk = true) ∧
      (validateManifest (oneReaction "vm/teardown" rx)).isOk = true := by
  intro rx
  refine ⟨(validators_agree _ (oneReaction "vm/teardown" rx) [rx] rfl (by decide) (by decide)).mpr ?_, by decide⟩
  intro _ _ rx' listed _
  obtain rfl := mem_singleton.mp listed
  decide

/-- With that of the manifest it passes the server's, and the database refuses it. -/
theorem stored_teardown_refused :
    let rx : ReactionText := ⟨"destroy", "deleteRequested", none, "", ""⟩
    (validateManifest (oneReaction "vm/teardown" rx)).isOk = true ∧
      validateStored (fun _ => "") (marshalReactions [rx]) =
        .error "reaction destroy: deleteRequested requires a finalizer" := by
  decide

end Converge.Kernel
