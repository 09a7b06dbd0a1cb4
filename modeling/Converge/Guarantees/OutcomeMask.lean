/-
# Guarantees.OutcomeMask -- what the core takes of an outcome

A reaction declares in `Emits` which parts of an outcome it produces, and the core is to
ignore the others.  The mask is read when reactions are selected and when the wire stage
is chosen; after that the engine takes whatever the stage carried.  So a composer's edges,
configs, status and conditions, and a worker's or rollup's status and conditions, are
applied whether they are listed or not, and a teardown strips its finalizer without
looking at the mask.

What a reaction may do under its mask is said by a second run, in which its outcome is
cut down to the listed parts before it is sent (`masking`), and the strip is dropped
unless it is listed (`Applied.masked`).  `core_applies_listed` gives the exact condition
for the two runs to apply the same; `unlisted_parts_applied` refutes the rest.
-/
import Converge.Kernel.Reactions

namespace Converge.Kernel

open Converge.Theory List

set_option autoImplicit false

/-! ## Masked outcomes -/

def Outcome.mask (out : Outcome) (emits : List OutcomeBit) : Outcome where
  status := if .status ∈ emits then out.status else none
  conditions := if .conditions ∈ emits then out.conditions else []
  children := if .children ∈ emits then out.children else []
  edges := if .edges ∈ emits then out.edges else []
  configs := if .configs ∈ emits then out.configs else []
  operationOutput := if .operationOutput ∈ emits then out.operationOutput else none

def Outcome.parts (out : Outcome) : List OutcomeBit :=
  (if out.status = none then [] else [.status]) ++ (if out.conditions = [] then [] else [.conditions]) ++
      (if out.children = [] then [] else [.children]) ++ (if out.edges = [] then [] else [.edges]) ++
          (if out.configs = [] then [] else [.configs]) ++
            if out.operationOutput = none then [] else [.operationOutput]

def StageAnswer.mask (emits : List OutcomeBit) : StageAnswer → StageAnswer
  | .ran (.ok out) => .ran (.ok (out.mask emits))
  | answer => answer

/-- The outcomes of `rx` are masked before they are sent. -/
def ReactionEnv.masking (env : ReactionEnv) (rx : ReactionDecl) : ReactionEnv :=
  { env with
    worker := fun rx' req =>
      if rx' = rx then (env.worker rx' req).mask rx.emits else env.worker rx' req }

/-! ## What the core applies -/

/-- What a task makes of its outcomes: the row appended and the composes run. -/
structure Applied where
  row : Option OutboxRow
  composes : List ComposeOutput

def appliedOf (m : ManifestDoc) (t : WorkTask) (env : ReactionEnv) : Applied :=
  ⟨recorded m t env (runReaction m t env), (runReaction m t env).log.filterMap Event.output⟩

/-- A teardown by `rx` strips nothing unless the mask lists the finalizer. -/
def Applied.masked (m : ManifestDoc) (rx : ReactionDecl) (t : WorkTask) (a : Applied) : Applied :=
  if t.taskType = .delete ∧ m.deleteReaction = some rx ∧ .finalizer ∉ rx.emits then
    { a with row := a.row.map fun row =>
      if row.succeeded then { row with finalizerName := none } else row }
  else a

/-- Whatever the task and the other answers are, the core applies of `out`, returned for
`rx`, what the mask of `rx` lists. -/
def AppliesListed (m : ManifestDoc) (rx : ReactionDecl) (out : Outcome) : Prop :=
  ∀ (t : WorkTask) (env : ReactionEnv), (∀ req, env.worker rx req = .ran (.ok out)) →
    appliedOf m t env = (appliedOf m t (env.masking rx)).masked m rx t

/-- The parts a stage carries over the wire. -/
def Stage.carries : Stage → List OutcomeBit
  | .compose => [.children, .edges, .configs, .status, .conditions]
  | .rollup | .react | .work => [.status, .conditions]
  | .operate => [.operationOutput]
  | .delete => []

/-- The kind has a reaction to a new spec; without one a reconcile runs nothing. -/
def ManifestDoc.Serves (m : ManifestDoc) : Prop :=
  ¬ (m.composerReaction = none ∧ m.workerReaction = none)

instance (m : ManifestDoc) : Decidable m.Serves := inferInstanceAs (Decidable (¬ _))

/-- The parts a reconcile takes of the outcome of `rx`. -/
def ManifestDoc.takes (m : ManifestDoc) (rx : ReactionDecl) : List OutcomeBit :=
  if m.composerReaction = some rx then [.children, .edges, .configs, .status, .conditions]
  else if m.workerReaction = some rx ∨ (m.rollupReaction = some rx ∧ m.Serves) then
    [.status, .conditions]
  else []

/-- Every part of `out` that is carried and taken is listed; so is the finalizer, if `rx` is
the teardown. -/
@[mk_iff]
structure Listed (m : ManifestDoc) (rx : ReactionDecl) (out : Outcome) : Prop where
  parts : ∀ part ∈ out.parts, part ∈ rx.stage.carries → part ∈ m.takes rx → part ∈ rx.emits
  strip : m.deleteReaction = some rx → .finalizer ∈ rx.emits

instance (m : ManifestDoc) (rx : ReactionDecl) (out : Outcome) : Decidable (Listed m rx out) :=
  decidable_of_iff' _ (listed_iff m rx out)

/-- The status passes the size limit. -/
def Outcome.Fits (out : Outcome) : Prop := ∀ raw, out.status = some raw → raw.bytes ≤ maxStatusBytes

/-! ## A stage and a step are masks -/

section Masks

variable {out : Outcome} {part : OutcomeBit} {rx : ReactionDecl}

theorem mem_parts : part ∈ out.parts ↔
    (part = .status ∧ out.status ≠ none) ∨ (part = .conditions ∧ out.conditions ≠ []) ∨
      (part = .children ∧ out.children ≠ []) ∨ (part = .edges ∧ out.edges ≠ []) ∨
        (part = .configs ∧ out.configs ≠ []) ∨ (part = .operationOutput ∧ out.operationOutput ≠ none) := by
  have one {c : Prop} [Decidable c] (b : OutcomeBit) : part ∈ (if c then [] else [b]) ↔ part = b ∧ ¬ c := by
    split <;> simp [*]
  simp only [Outcome.parts, mem_append, one, or_assoc, ne_eq]

theorem dispatch_ok (rx : ReactionDecl) (out : Outcome) :
    dispatchStage rx (.ran (.ok out)) = .ok (out.mask rx.stage.carries) := by
  simp only [dispatchStage]
  cases rx.stage <;> rfl

/-- The parts a step takes of an outcome. -/
def Step.takes : Step → List OutcomeBit
  | .composeReaction => [.children, .edges, .configs, .status, .conditions]
  | .workReaction | .rollupReaction => [.status, .conditions]
  | .operateReaction => [.operationOutput]
  | _ => []

theorem reads_eq (step : Step) (out : Outcome) : step.reads out = out.mask step.takes := by
  cases step <;> rfl

/-- A part that is carried and taken only when it is listed may be masked before. -/
theorem mask_before {emits carries takes : List OutcomeBit}
    (listed : ∀ part ∈ out.parts, part ∈ carries → part ∈ takes → part ∈ emits) :
    (out.mask carries).mask takes = ((out.mask emits).mask carries).mask takes := by
  have part {α : Type} {b : OutcomeBit} {x empty : α} (there : x ≠ empty → b ∈ out.parts) :
      (if b ∈ takes then if b ∈ carries then x else empty else empty) =
        if b ∈ takes then if b ∈ carries then if b ∈ emits then x else empty else empty
          else empty := by
    by_cases taken : b ∈ takes
    · by_cases carried : b ∈ carries
      · by_cases none : x = empty
        · simp [none]
        · simp [taken, carried, listed b (there none) carried taken]
      · simp [carried]
    · simp [taken]
  simp only [Outcome.mask, Outcome.mk.injEq]
  refine ⟨part fun h => ?_, part fun h => ?_, part fun h => ?_, part fun h => ?_, part fun h => ?_,
    part fun h => ?_⟩ <;> simp [mem_parts, h]

theorem alike_masked {step : Step}
    (listed : ∀ part ∈ out.parts, part ∈ rx.stage.carries → part ∈ step.takes → part ∈ rx.emits) :
    Alike step rx (.ran (.ok out)) (.ran (.ok (out.mask rx.emits))) := by
  simp only [Alike, dispatch_ok, Except.map, reads_eq]
  rw [mask_before listed]

theorem operate_listed (carried : part ∈ rx.stage.carries)
    (taken : part ∈ Step.operateReaction.takes) : part ∈ rx.emits := by
  obtain rfl := mem_singleton.mp taken
  cases stage : rx.stage <;> rw [stage] at carried <;> simp [Stage.carries] at carried
  by_contra unlisted
  unfold ReactionDecl.stage at stage
  split at stage
  · cases stage
  · split at stage
    · cases stage
    · split at stage
      · cases stage
      · split at stage <;> cases stage

end Masks

/-! ## Listed parts -/

section Listed

variable {m : ManifestDoc} {rx : ReactionDecl} {out : Outcome} {t : WorkTask} {env : ReactionEnv}

/-- Under the mask of `rx`, answers to any reaction are alike to a step, if those of `rx`
are. -/
theorem masking_alike {step : Step} (returns : ∀ req, env.worker rx req = .ran (.ok out)) {rx' : ReactionDecl}
    (listed : rx' = rx → ∀ part ∈ out.parts, part ∈ rx.stage.carries → part ∈ step.takes → part ∈ rx.emits)
    (req : ReactionRequest) : Alike step rx' (env.worker rx' req) ((env.masking rx).worker rx' req) := by
  simp only [ReactionEnv.masking]
  split
  · rename_i same
    subst same
    rw [returns req]
    exact alike_masked (listed rfl)
  · rfl

theorem Listed.agree (listed : Listed m rx out) (returns : ∀ req, env.worker rx req = .ran (.ok out)) :
    Journal.Agree Event.output (runReaction m t env) (runReaction m t (env.masking rx)) := by
  unfold runReaction
  cases t.taskType with
  | reconcile =>
    by_cases serves : m.Serves
    · refine reactReconcile_agree (fun rx' declared => ?_) (fun rx' declared => ?_) fun rx' declared => ?_
      · refine masking_alike returns fun same part there carried taken => ?_
        subst same
        refine listed.parts part there carried ?_
        rwa [ManifestDoc.takes, if_pos declared]
      · refine masking_alike returns fun same part there carried taken => ?_
        subst same
        refine listed.parts part there carried ?_
        unfold ManifestDoc.takes
        split
        · simp only [Step.takes, mem_cons, not_mem_nil, or_false] at taken
          rcases taken with rfl | rfl <;> decide
        · rwa [if_pos (.inl declared)]
      · refine masking_alike returns fun same part there carried taken => ?_
        subst same
        refine listed.parts part there carried ?_
        unfold ManifestDoc.takes
        split
        · simp only [Step.takes, mem_cons, not_mem_nil, or_false] at taken
          rcases taken with rfl | rfl <;> decide
        · rwa [if_pos (.inr ⟨declared, serves⟩)]
    · simp only [reactReconcile, not_not.mp serves, and_self, if_true]
      exact .refl _
  | delete =>
    refine runDelete_agree fun rx' _ => masking_alike returns fun _ part _ _ taken => ?_
    cases taken
  | operate =>
    refine reactOperate_agree fun verb rx' _ => masking_alike returns fun _ part _ carried taken => ?_
    exact operate_listed carried taken

theorem Listed.applies (listed : Listed m rx out) : AppliesListed m rx out := by
  intro t env returns
  have agree := listed.agree (t := t) returns
  have keeps : ∀ a : Applied, a.masked m rx t = a := by
    intro a
    rw [Applied.masked, if_neg]
    rintro ⟨-, teardown, unlisted⟩
    exact unlisted (listed.strip teardown)
  rw [keeps]
  simp only [appliedOf, recorded, agree.result, agree.shown]
  rfl

end Listed

/-! ## Unlisted parts -/

def soloTask (taskType : TaskType) : WorkTask :=
  ⟨1, 0, "app", 1, taskType, none, 1, none, none, none, 0, 1⟩

/-- Only `rx` has something to say; a composer runs if it is `rx`, and so does a rollup. -/
def solo (m : ManifestDoc) (rx : ReactionDecl) (out : Outcome) : ReactionEnv :=
  { smooth (if m.composerReaction = some rx then 0 else 1) (m.rollupReaction = some rx) [] with
    worker := fun rx' _ => .ran (.ok (if rx' = rx then out else Outcome.empty)) }

section Solo

variable {m : ManifestDoc} {rx : ReactionDecl} {out : Outcome} {part : OutcomeBit}

theorem solo_masking : (solo m rx out).masking rx = solo m rx (out.mask rx.emits) := by
  simp only [ReactionEnv.masking, solo]
  congr 1
  funext rx' req
  split
  · rfl
  · rfl

theorem react_solo {step : Step} {what : String} {rx' : ReactionDecl} {req : ReactionRequest} :
    react (solo m rx out) step what rx' req = .entry (.reacted step rx' req none)
        ((if rx' = rx then out else Outcome.empty).mask rx'.stage.carries) := by
  simp only [react, solo, dispatch_ok, StageAnswer.raised]

theorem empty_mask (bits : List OutcomeBit) : Outcome.empty.mask bits = Outcome.empty := by
  simp [Outcome.mask, Outcome.empty]

theorem add_empty (g : Gathered) : g.add Outcome.empty = g := by
  simp [Gathered.add, Outcome.empty]

/-- The result of each stage, and the compose it runs. -/
theorem solo_composeStage (m : ManifestDoc) (rx : ReactionDecl) (out : Outcome) :
    let j := composeStage m (soloTask .reconcile) (solo m rx out)
    let taken := out.mask rx.stage.carries
    j.result = .ok (if m.composerReaction = some rx then Gathered.add ⟨none, []⟩ taken
        else ⟨none, []⟩) ∧
      j.log.filterMap Event.output =
        if m.composerReaction = some rx then [taken.compose] else [] := by
  intro j taken
  simp only [j, composeStage]
  cases declared : m.composerReaction with
  | none => exact ⟨rfl, rfl⟩
  | some c =>
    by_cases same : c = rx
    · subst same
      simp only [react_solo, if_true]
      simp only [solo, declared, if_true]
      exact ⟨rfl, rfl⟩
    · have other : ¬ some c = some rx := fun h => same (Option.some.inj h)
      simp only [solo, declared, other, if_false]
      exact ⟨rfl, rfl⟩

theorem solo_workStage (m : ManifestDoc) (rx : ReactionDecl) (out : Outcome) (g : Gathered) :
    let j := workStage m (soloTask .reconcile) (solo m rx out) g
    j.result = .ok (if m.workerReaction = some rx then g.add (out.mask rx.stage.carries) else g) ∧
      j.log.filterMap Event.output = [] := by
  intro j
  simp only [j, workStage]
  cases m.workerReaction with
  | none => exact ⟨rfl, rfl⟩
  | some w =>
    by_cases same : w = rx
    · subst same
      simp only [react_solo, if_true]
      exact ⟨rfl, rfl⟩
    · have other : ¬ some w = some rx := fun h => same (Option.some.inj h)
      simp only [react_solo, if_neg same, empty_mask, other, if_false]
      exact ⟨congrArg Except.ok (add_empty g), rfl⟩

theorem solo_rollupStage (m : ManifestDoc) (rx : ReactionDecl) (out : Outcome) (g : Gathered) :
    let j := rollupStage m (soloTask .reconcile) (solo m rx out) g
    j.result = .ok (if m.rollupReaction = some rx then (g.add (out.mask rx.stage.carries), true)
        else (g, m.rollupReaction.isNone)) ∧
      j.log.filterMap Event.output = [] := by
  intro j
  simp only [j, rollupStage]
  cases declared : m.rollupReaction with
  | none => exact ⟨rfl, rfl⟩
  | some r =>
    by_cases same : r = rx
    · subst same
      simp only [react_solo, if_true]
      simp only [solo, smooth, declared, decide_true]
      exact ⟨rfl, rfl⟩
    · have other : ¬ some r = some rx := fun h => same (Option.some.inj h)
      simp only [solo, smooth, declared, other, decide_false, if_false]
      exact ⟨rfl, rfl⟩

theorem checkSize_fits {what : String} {raw : Option RawMessage}
    (fits : ∀ r, raw = some r → r.bytes ≤ maxStatusBytes) : checkSize what raw = pure () := by
  unfold checkSize
  cases raw with
  | none => rfl
  | some r =>
    simp only
    rw [if_neg (Nat.not_lt.mpr (fits r rfl))]

/-- `rx` has a part in the reconciles of its kind. -/
def Reconciles (m : ManifestDoc) (rx : ReactionDecl) : Prop :=
  m.composerReaction = some rx ∨ m.workerReaction = some rx ∨ (m.rollupReaction = some rx ∧ m.Serves)

theorem roles_apart : (m.composerReaction = some rx → m.workerReaction ≠ some rx) ∧
    (m.composerReaction = some rx ∨ m.workerReaction = some rx → m.rollupReaction ≠ some rx) := by
  have composer (h : m.composerReaction = some rx) := find?_some h
  have worker (h : m.workerReaction = some rx) := find?_some h
  have rollup (h : m.rollupReaction = some rx) := find?_some h
  simp only [Bool.and_eq_true, decide_eq_true_eq, Bool.not_eq_true'] at composer worker rollup
  constructor
  · intro first second
    have children := (composer first).2
    rw [(worker second).1.2] at children
    cases children
  · intro first last
    have trigger : rx.trigger = .specChange := by
      rcases first with h | h
      · exact (composer h).1
      · exact (worker h).1.1
    rw [(rollup last).1] at trigger
    cases trigger

theorem solo_stages (serves : m.Serves) {g₀ g₁ g : Gathered} {advance : Bool}
    (first : (composeStage m (soloTask .reconcile) (solo m rx out)).result = .ok g₀)
    (second : (workStage m (soloTask .reconcile) (solo m rx out) g₀).result = .ok g₁)
    (third : (rollupStage m (soloTask .reconcile) (solo m rx out) g₁).result = .ok (g, advance))
    (fits : ∀ raw, g.status = some raw → raw.bytes ≤ maxStatusBytes) :
    let j := reactReconcile m (soloTask .reconcile) (solo m rx out)
    j.result = .ok (reconcileRow (soloTask .reconcile) g advance) ∧ j.log.filterMap Event.output =
        if m.composerReaction = some rx then [(out.mask rx.stage.carries).compose] else [] := by
  intro j
  have done : j = _ := if_neg serves
  rw [Journal.bind_of_ok first, Journal.bind_of_ok second, Journal.bind_of_ok third] at done
  simp only [checkSize_fits fits] at done
  rw [done]
  refine ⟨rfl, ?_⟩
  simp only [filterMap_append, (solo_composeStage m rx out).2, (solo_workStage m rx out _).2,
    (solo_rollupStage m rx out _).2, nil_append]
  exact append_nil _

/-- It appends what `rx` said, and composes it if `rx` is the composer. -/
theorem solo_reconcile (role : Reconciles m rx) (fits : out.Fits) :
    let j := reactReconcile m (soloTask .reconcile) (solo m rx out)
    let taken := out.mask rx.stage.carries
    j.result = .ok (reconcileRow (soloTask .reconcile) ⟨taken.status, taken.conditions⟩
        (m.rollupReaction = some rx || m.rollupReaction.isNone)) ∧
      j.log.filterMap Event.output =
        if m.composerReaction = some rx then [taken.compose] else [] := by
  intro j taken
  have serves : m.Serves := by
    rintro ⟨composer, worker⟩
    rcases role with h | h | ⟨-, h⟩
    · rw [composer] at h
      cases h
    · rw [worker] at h
      cases h
    · exact h ⟨composer, worker⟩
  have carried : ∀ raw, taken.status = some raw → raw.bytes ≤ maxStatusBytes := by
    intro raw found
    simp only [taken, Outcome.mask] at found
    split at found
    · exact fits raw found
    · cases found
  have first := (solo_composeStage m rx out).1
  have second := fun g => (solo_workStage m rx out g).1
  have third := fun g => (solo_rollupStage m rx out g).1
  have alone : Gathered.add ⟨none, []⟩ taken = ⟨taken.status, taken.conditions⟩ := by
    simp [Gathered.add]
  rcases role with composer | worker | ⟨rollup, -⟩
  · have worker := roles_apart.1 composer
    have rollup := roles_apart.2 (.inl composer)
    simp only [composer, if_true, worker, rollup, if_false] at first second third
    rw [decide_eq_false rollup, Bool.false_or, ← alone]
    refine solo_stages serves first (second _) (third _) ?_
    rwa [alone]
  · have composer : m.composerReaction ≠ some rx := fun h => roles_apart.1 h worker
    have rollup := roles_apart.2 (.inr worker)
    simp only [composer, worker, if_true, rollup, if_false] at first second third
    rw [decide_eq_false rollup, Bool.false_or, ← alone]
    refine solo_stages serves first (second _) (third _) ?_
    rwa [alone]
  · have composer : m.composerReaction ≠ some rx := fun h => roles_apart.2 (.inl h) rollup
    have worker : m.workerReaction ≠ some rx := fun h => roles_apart.2 (.inr h) rollup
    simp only [composer, worker, rollup, if_true, if_false] at first second third
    rw [decide_eq_true rollup, Bool.true_or, ← alone]
    refine solo_stages serves first (second _) (third _) ?_
    rwa [alone]

theorem solo_applied (role : Reconciles m rx) (fits : out.Fits) :
    let taken := out.mask rx.stage.carries
    appliedOf m (soloTask .reconcile) (solo m rx out) =
      ⟨some (reconcileRow (soloTask .reconcile) ⟨taken.status, taken.conditions⟩
        (m.rollupReaction = some rx || m.rollupReaction.isNone)),
        if m.composerReaction = some rx then [taken.compose] else []⟩ := by
  obtain ⟨ends, composes⟩ := solo_reconcile role fits
  have same : runReaction m (soloTask .reconcile) (solo m rx out) =
      reactReconcile m (soloTask .reconcile) (solo m rx out) := rfl
  simp only [appliedOf, same, recorded, ends, composes]

theorem solo_teardown (declares : m.deleteReaction = some rx) :
    appliedOf m (soloTask .delete) (solo m rx out) = ⟨some (deleteRow m (soloTask .delete) rx), []⟩ := by
  have same : runReaction m (soloTask .delete) (solo m rx out) =
      runDelete m (soloTask .delete) (solo m rx out) := rfl
  simp only [appliedOf, same, runDelete, declares, react_solo]
  rfl

theorem takes_composer (taken : part ∈ m.takes rx)
    (more : part ∉ [OutcomeBit.status, .conditions]) : m.composerReaction = some rx := by
  by_contra other
  rw [ManifestDoc.takes, if_neg other] at taken
  split at taken
  · exact more taken
  · cases taken

theorem Reconciles.of_takes (taken : part ∈ m.takes rx) : Reconciles m rx := by
  unfold ManifestDoc.takes at taken
  split at taken
  · exact .inl ‹_›
  · split at taken
    · rename_i other
      exact .inr other
    · cases taken

/-- Where the core applies what is listed, whatever `rx` said and a reconcile took is listed. -/
theorem AppliesListed.parts (applies : AppliesListed m rx out) (fits : out.Fits)
    (there : part ∈ out.parts) (carried : part ∈ rx.stage.carries) (taken : part ∈ m.takes rx) :
    part ∈ rx.emits := by
  by_contra unlisted
  have role := Reconciles.of_takes taken
  have fits' : (out.mask rx.emits).Fits := by
    intro raw found
    simp only [Outcome.mask] at found
    split at found
    · exact fits raw found
    · cases found
  have run := applies (soloTask .reconcile) (solo m rx out) fun req => by simp [solo]
  have keeps : ∀ a : Applied, a.masked m rx (soloTask .reconcile) = a := fun _ => if_neg nofun
  rw [keeps, solo_masking, solo_applied role fits, solo_applied role fits', Applied.mk.injEq,
    Option.some.injEq] at run
  obtain ⟨row, composes⟩ := run
  have payload := congrArg OutboxRow.payload row
  have conditions := congrArg OutboxRow.conditions row
  simp only [reconcileRow, derive_conditions] at payload conditions
  have composed (more : part ∉ [OutcomeBit.status, .conditions]) :
      (out.mask rx.stage.carries).compose = ((out.mask rx.emits).mask rx.stage.carries).compose := by
    rw [if_pos (takes_composer taken more), if_pos (takes_composer taken more)] at composes
    exact (List.cons.inj composes).1
  rcases mem_parts.mp there with ⟨rfl, some_⟩ | ⟨rfl, some_⟩ | ⟨rfl, some_⟩ | ⟨rfl, some_⟩ |
    ⟨rfl, some_⟩ | ⟨rfl, -⟩
  · simp [Outcome.mask, carried, unlisted, some_] at payload
  · simp [Outcome.mask, carried, unlisted, some_, marshalConditions] at conditions
  · have children := congrArg ComposeOutput.children (composed (by decide))
    simp [Outcome.compose, Outcome.mask, carried, unlisted, some_] at children
  · have edges := congrArg ComposeOutput.edges (composed (by decide))
    simp [Outcome.compose, Outcome.mask, carried, unlisted, some_] at edges
  · have configs := congrArg ComposeOutput.configs (composed (by decide))
    simp [Outcome.compose, Outcome.mask, carried, unlisted, some_] at configs
  · have composer := takes_composer taken (by decide)
    rw [ManifestDoc.takes, if_pos composer] at taken
    exact absurd taken (by decide)

/-- **The core applies only what the mask lists exactly if every part that the outcome has,
the stage carries and the engine takes is listed, and so is the finalizer of a teardown.**
It is enough for every outcome; it is needed for every outcome whose status passes the size
limit. -/
theorem core_applies_listed (accepted : m.accepted = true) (rx : ReactionDecl) (out : Outcome) :
    (Listed m rx out → AppliesListed m rx out) ∧ (out.Fits → AppliesListed m rx out → Listed m rx out) := by
  refine ⟨Listed.applies, fun fits applies => ⟨fun part there carried taken => ?_, fun teardown => ?_⟩⟩
  · exact applies.parts fits there carried taken
  · by_contra unlisted
    have run := applies (soloTask .delete) (solo m rx out) fun req => by simp [solo]
    rw [solo_masking, solo_teardown teardown, solo_teardown teardown, Applied.masked,
      if_pos ⟨rfl, teardown, unlisted⟩] at run
    -- the row names the finalizer of the reaction, the masked one none
    have strips := congrArg (fun a => a.row.map OutboxRow.finalizerName) run
    have named := m.finalizer_declared accepted teardown
    simp [deleteRow, m.strips_declared accepted teardown, nilIfEmpty, named] at strips

end Solo

/-- A composite kind that lists the least it may: its composer emits children and status, its
worker and rollup a status, its teardown nothing. -/
def terseManifest : ManifestDoc :=
  ⟨"app", 1, [⟨"compose", .specChange, [.children, .status], "", ""⟩,
    ⟨"work", .specChange, [.status], "", ""⟩, ⟨"roll", .childrenSettled, [.status], "", ""⟩,
    ⟨"destroy", .deleteRequested, [], "", "app/destroy"⟩], "app/destroy", 0, 0, 0, false, 0, 0, false⟩

/-- An outcome with an edge, a config and a condition. -/
def loudOutcome : Outcome where
  status := none
  conditions := [⟨"Ready", "False", "NotYet", ""⟩]
  children := [⟨"vm", 1, "u", .obj [], .obj []⟩, ⟨"vm", 1, "v", .obj [], .obj []⟩]
  edges := [⟨⟨"vm", "u"⟩, ⟨"vm", "v"⟩, []⟩]
  configs := [⟨"c", "vm", 1, true, .obj []⟩]
  operationOutput := none

/-- A composer that returns children alone stays within the mask. -/
theorem core_applies_listed_children :
    ∃ rx ∈ terseManifest.reactions, terseManifest.composerReaction = some rx ∧
      AppliesListed terseManifest rx { Outcome.empty with children := loudOutcome.children } := by
  refine ⟨⟨"compose", .specChange, [.children, .status], "", ""⟩, by decide, by decide, ?_⟩
  exact (core_applies_listed (by decide +kernel) _ _).1 (by decide)

/-- The manifest is accepted.  The composer's edge, config and condition, the worker's and the
rollup's condition are applied, and the teardown strips the finalizer; none of it is listed. -/
theorem unlisted_parts_applied : terseManifest.accepted = true ∧
      (∃ rx ∈ terseManifest.reactions, rx.name = "compose" ∧ .edges ∉ rx.emits ∧
        .configs ∉ rx.emits ∧ .conditions ∉ rx.emits ∧
          let a := appliedOf terseManifest (soloTask .reconcile) (solo terseManifest rx loudOutcome)
          (∃ out ∈ a.composes, out.edges = loudOutcome.edges ∧ out.configs = loudOutcome.configs) ∧
            a.row.bind (·.conditions) = some loudOutcome.conditions) ∧
      (∀ rx ∈ terseManifest.reactions, rx.name = "work" ∨ rx.name = "roll" → .conditions ∉ rx.emits ∧
        let a := appliedOf terseManifest (soloTask .reconcile) (solo terseManifest rx loudOutcome)
        a.row.bind (·.conditions) = some loudOutcome.conditions) ∧
      ∃ rx ∈ terseManifest.reactions, rx.name = "destroy" ∧ .finalizer ∉ rx.emits ∧
        let a := appliedOf terseManifest (soloTask .delete) (solo terseManifest rx loudOutcome)
        a.row.bind (·.finalizerName) = some "app/destroy" := by
  decide +kernel

end Converge.Kernel
