/-
# Guarantees.FailureClass -- which failures are recorded as terminal

`model.Terminal` marks an error that no retry mends; the mark is found at any depth of
wrapping.  Whether it reaches the outbox depends on who records the error.  A reaction's
error crosses the wire as a text and a flag and is asked again by `recordFailedErr`.  An
error of the store, and of the compose transaction among them, goes through
`recordFailed`, which records every error as transient.  And a completion with an empty
error text is taken for a clean run.

`failure_class_kept` says for every step and every error when the class survives.
`composer_bug_retried` shows the four checks of the compose transaction that mark their
error: each one is recorded as transient, and the composer runs again on the same spec.
-/
import Converge.Kernel.ComposeErrors
import Converge.Kernel.System

namespace Converge.Kernel

open Converge.Theory List Option

set_option autoImplicit false

open GoError (Marked isTerminal_iff)

/-- The run raises `e` at `step`. -/
def RaisesAt (j : Engine OutboxRow) (step : Step) (e : GoError) : Prop :=
  ∃ ev ∈ j.log, ev.step = step ∧ ev.raised = some e

/-- What the run records is a failure, and it is terminal exactly if the error is. -/
def Classified (m : ManifestDoc) (t : WorkTask) (env : ReactionEnv) (e : GoError) : Prop :=
  ∀ row, recorded m t env (reactReconcile m t env) = some row →
    row.failed = true ∧ (row.terminal = true ↔ Marked e)

/-- The steps that keep the class of `e`: the store must not mark its errors, nor the
compose transaction, a lost claim apart; and a reaction must say something. -/
structure ClassKept (step : Step) (e : GoError) : Prop where
  store : step ∈ storeSteps → ¬ Marked e
  apply : step = .applyCompose → Marked e → e.is .composeClaimLost = true
  reaction : step ∈ reactionSteps → e.message ≠ ""

/-! ## Over the wire -/

theorem stageErr_isTerminal (message : String) (terminal : Bool) :
    (stageErr message terminal).isTerminal = terminal := by
  cases terminal <;> rfl

theorem dispatch_raised {rx : ReactionDecl} {answer : StageAnswer} {e : GoError}
    (raised : answer.raised = some e) (spoken : e.message ≠ "") :
    ∃ e', dispatchStage rx answer = .error e' ∧ e'.isTerminal = e.isTerminal := by
  cases answer with
  | ran result =>
    cases result with
    | ok out => cases raised
    | error e₀ =>
      obtain rfl := some.inj raised
      refine ⟨stageErr e₀.message e₀.isTerminal, ?_, stageErr_isTerminal _ _⟩
      simp only [dispatchStage, fanoutRun, fanoutDispatch, computeComplete, failComplete,
        Except.bind, if_neg spoken, Except.map]
  | abandoned reason =>
    obtain rfl := some.inj raised
    have spoken' : reason ≠ "" := spoken
    refine ⟨stageErr reason false, ?_, rfl⟩
    simp only [dispatchStage, fanoutRun, fanoutDispatch, failComplete, Except.bind, if_neg spoken', Except.map]
  | cancelled e₀ =>
    obtain rfl := some.inj raised
    exact ⟨e₀, rfl, rfl⟩

theorem dispatch_silent {e : GoError} (silent : e.message = "") (rx : ReactionDecl) :
    dispatchStage rx (.ran (.error e)) = .ok Outcome.empty := by
  simp only [dispatchStage, fanoutRun, fanoutDispatch, computeComplete, failComplete, silent,
    Except.bind, if_true, Except.map, Stage.decode]
  cases rx.stage <;> rfl

theorem dispatch_empty (rx : ReactionDecl) :
    dispatchStage rx (.ran (.ok Outcome.empty)) = .ok Outcome.empty := by
  simp only [dispatchStage]
  cases rx.stage <;> rfl

/-! ## Keeping the class -/

section Kept

variable {m : ManifestDoc} {t : WorkTask} {env : ReactionEnv} {step : Step} {e : GoError}

/-- Where the class is kept, the run ends with a failure of that class, or has nothing to
record. -/
theorem ClassKept.stops (kept : ClassKept step e) (raises : RaisesAt (reactReconcile m t env) step e) :
    ∃ stop, (reactReconcile m t env).result = .error stop ∧
      (stop = .dropped ∨ ∃ msg, stop = .failed step msg e.isTerminal) := by
  obtain ⟨ev, listed, rfl, raised⟩ := raises
  rcases reactReconcile_logs ev listed with passed | ⟨stop, result, stopped⟩
  · cases passed with
    | called step => cases raised
    | applied out => cases raised
    | reacted reaction _ answer =>
      -- a run that goes on after an error: the error had no text
      obtain ⟨e', failed, -⟩ := dispatch_raised raised (kept.reaction reaction)
      rw [answer] at failed
      cases failed
  · refine ⟨stop, result, ?_⟩
    cases stopped with
    | refused what e₀ store =>
      obtain rfl := some.inj raised
      have plain := kept.store store
      rw [← isTerminal_iff, Bool.not_eq_true] at plain
      exact .inr ⟨_, by rw [plain]; rfl⟩
    | reactFailed what reaction _ answer =>
      obtain ⟨e', failed, class_⟩ := dispatch_raised raised (kept.reaction reaction)
      rw [answer] at failed
      obtain rfl := Except.error.inj failed
      exact .inr ⟨_, by rw [← class_]; rfl⟩
    | claimLost out lost => exact .inl rfl
    | applyFailed out held =>
      have same := some.inj raised
      rw [same] at held
      have plain : ¬ Marked e := fun marked => by
        rw [kept.apply rfl marked] at held
        cases held
      rw [← isTerminal_iff, Bool.not_eq_true] at plain
      exact .inr ⟨_, by rw [plain]; rfl⟩
    | oversized msg | unserved msg =>
      obtain rfl := some.inj raised
      exact .inr ⟨_, rfl⟩

theorem recorded_failed {msg : String} {terminal : Bool} {j : Engine OutboxRow}
    (reconcile : t.taskType = .reconcile) (ends : j.result = .error (.failed step msg terminal))
    {row : OutboxRow} (found : recorded m t env j = some row) :
    row.failed = true ∧ row.terminal = terminal := by
  simp only [recorded, ends] at found
  split at found
  · cases found
  · obtain rfl := some.inj found
    simp [recordFailedTerminal, reconcile]

theorem ClassKept.classified (kept : ClassKept step e) (reconcile : t.taskType = .reconcile)
    (raises : RaisesAt (reactReconcile m t env) step e) : Classified m t env e := by
  intro row found
  obtain ⟨stop, ends, rfl | ⟨msg, rfl⟩⟩ := kept.stops raises
  · simp only [recorded, ends] at found
    cases found
  · obtain ⟨failed, terminal⟩ := recorded_failed reconcile ends found
    exact ⟨failed, by rw [terminal, isTerminal_iff]⟩

end Kept

/-! ## Losing it -/

def fullTask : WorkTask := ⟨1, 0, "app", 1, .reconcile, none, 1, none, none, none, 0, 1⟩

/-- The reaction a step runs. -/
def Step.stage : Step → Option Stage
  | .composeReaction => some .compose
  | .workReaction => some .work
  | .rollupReaction => some .rollup
  | _ => none

/-- All goes well but one step, which raises `e`. -/
def failingAt (step : Step) (e : GoError) : ReactionEnv where
  composedGen := if step = .readComposedGen then .error e else .ok 0
  worker rx _ := .ran (if step.stage = some rx.stage then .error e else .ok Outcome.empty)
  beginTx := if step = .beginTx then .error e else .ok ()
  apply _ := if step = .applyCompose then .error e else .ok [0]
  arm := if step = .armSchedule then .error e else .ok ()
  commit := if step = .commitTx then .error e else .ok ()
  settled := if step = .settledCheck then .error e else .ok true
  descendants := if step = .listDescendants then .error e else .ok []
  operation _ := .error e
  append _ := if step = .append then .error e else .ok ()
  cancelled _ := false

section Lost

variable {e : GoError}

/-- A failing call to the store ends the run with a transient failure. -/
theorem failingAt_store {step : Step} (store : step ∈ storeSteps) (e : GoError) :
    let j := reactReconcile fullManifest fullTask (failingAt step e)
    RaisesAt j step e ∧ ∃ msg, j.result = .error (.failed step msg false) := by
  simp only [storeSteps, mem_cons, not_mem_nil, or_false] at store
  rcases store with rfl | rfl | rfl | rfl | rfl | rfl | rfl <;>
    exact ⟨⟨_, mem_of_mem_getLast? rfl, rfl, rfl⟩, _, rfl⟩

theorem failingAt_apply (held : e.is .composeClaimLost = false) :
    let j := reactReconcile fullManifest fullTask (failingAt .applyCompose e)
    RaisesAt j .applyCompose e ∧ ∃ msg, j.result = .error (.failed .applyCompose msg false) := by
  have ends : (reactReconcile fullManifest fullTask (failingAt .applyCompose e)).result =
      .error (if e.is .composeClaimLost then .dropped
        else .failed .applyCompose ("apply compose result: " ++ e.message) false) := rfl
  rw [held] at ends
  exact ⟨⟨_, mem_of_mem_getLast? rfl, rfl, rfl⟩, _, ends⟩

/-- A reaction that fails without a text lets the run end well. -/
theorem failingAt_reaction {step : Step} (reaction : step ∈ reactionSteps) (silent : e.message = "") :
    let j := reactReconcile fullManifest fullTask (failingAt step e)
    RaisesAt j step e ∧ ∃ row, j.result = .ok row ∧ row.failed = false := by
  intro j
  have ends : j.result = (reactReconcile fullManifest fullTask { failingAt step e with
        worker := fun _ _ => .ran (.ok Outcome.empty) }).result := by
    have alike (at_ : Step) (rx : ReactionDecl) (req : ReactionRequest) :
        Alike at_ rx ((failingAt step e).worker rx req) (.ran (.ok Outcome.empty)) := by
      simp only [Alike, failingAt]
      split
      · rw [dispatch_silent silent, dispatch_empty]
      · rfl
    exact (reactReconcile_agree (fun rx _ => alike _ rx) (fun rx _ => alike _ rx) fun rx _ => alike _ rx).result
  have serves : ¬ (fullManifest.composerReaction = none ∧ fullManifest.workerReaction = none) := by
    decide
  obtain ⟨rx, req, listed⟩ : ∃ rx req, Event.reacted step rx req (some e) ∈ j.log := by
    simp only [reactionSteps, mem_cons, not_mem_nil, or_false] at reaction
    rcases reaction with rfl | rfl | rfl
    · exact ⟨_, _, mem_of_composeStage serves (Journal.mem_bind.mpr (.inr ⟨0, rfl,
        Journal.mem_bind.mpr (.inl (mem_react _ _ _ _))⟩))⟩
    · exact ⟨_, _, mem_of_workStage serves rfl (Journal.mem_bind.mpr (.inl (mem_react _ _ _ _)))⟩
    · exact ⟨_, _, mem_of_rollupStage serves rfl rfl (Journal.mem_bind.mpr (.inr ⟨true, rfl,
        Journal.mem_bind.mpr (.inr ⟨[], rfl, Journal.mem_bind.mpr (.inl (mem_react _ _ _ _))⟩)⟩))⟩
  refine ⟨⟨_, listed, rfl, rfl⟩, reconcileRow fullTask ⟨none, []⟩ true, ?_, rfl⟩
  rw [ends]
  simp only [reactionSteps, mem_cons, not_mem_nil, or_false] at reaction
  rcases reaction with rfl | rfl | rfl <;> rfl

/-- **An error keeps its class through a reconcile exactly if** it is not a marked error of
the store or of the compose transaction, nor a reaction's error without a text.  Whatever
the manifest, the task and the other answers are, the failure recorded is then terminal if
and only if the error was marked, at any depth of wrapping. -/
theorem failure_class_kept (step : Step) (e : GoError) :
    (∀ (m : ManifestDoc) (t : WorkTask) (env : ReactionEnv), t.taskType = .reconcile →
      RaisesAt (reactReconcile m t env) step e → Classified m t env e) ↔ ClassKept step e := by
  constructor
  · intro sound
    have run := sound fullManifest fullTask (failingAt step e) rfl
    -- a transient record of a marked error
    have transient {msg : String}
        (raises : RaisesAt (reactReconcile fullManifest fullTask (failingAt step e)) step e)
        (ends : (reactReconcile fullManifest fullTask (failingAt step e)).result =
          .error (.failed step msg false)) : ¬ Marked e := by
      intro marked
      have row : recorded fullManifest fullTask (failingAt step e)
          (reactReconcile fullManifest fullTask (failingAt step e)) =
            some (recordFailedTerminal fullManifest fullTask msg false) := by
        simp only [recorded, ends]
        rfl
      have terminal := (run raises _ row).2.mpr marked
      cases terminal
    refine ⟨fun store => ?_, ?_, fun reaction silent => ?_⟩
    · obtain ⟨raises, msg, ends⟩ := failingAt_store store e
      exact transient raises ends
    · rintro rfl marked
      by_contra held
      obtain ⟨raises, msg, ends⟩ := failingAt_apply (Bool.eq_false_iff.mpr held)
      exact transient raises ends marked
    · obtain ⟨raises, row, ends, clean⟩ := failingAt_reaction reaction silent
      have found : recorded fullManifest fullTask (failingAt step e)
          (reactReconcile fullManifest fullTask (failingAt step e)) = some row := by
        simp only [recorded, ends]
      have failed := (run raises _ found).1
      rw [clean] at failed
      cases failed
  · intro kept m t env reconcile raises
    exact kept.classified reconcile raises

end Lost

/-- A worker that wraps a terminal error twice: the failure is terminal. -/
theorem failure_class_kept_work :
    let e : GoError := .errorf "plan" (.errorf "quota" (.terminal (.new "no such zone")))
    Classified fullManifest fullTask (failingAt .workReaction e) e ∧
      (recorded fullManifest fullTask (failingAt .workReaction e)
        (reactReconcile fullManifest fullTask (failingAt .workReaction e))).any (·.terminal) = true := by
  intro e
  have kept : ClassKept .workReaction e := by
    refine ⟨fun store => absurd store (by decide), fun apply => absurd apply (by decide), fun _ => ?_⟩
    decide
  have raises : RaisesAt (reactReconcile fullManifest fullTask (failingAt .workReaction e))
      .workReaction e := ⟨_, mem_of_mem_getLast? rfl, rfl, rfl⟩
  exact ⟨(failure_class_kept .workReaction e).mpr kept fullManifest fullTask _ rfl raises, by decide +kernel⟩

/-- The four bugs of a composer that the compose transaction finds: a child without a version,
a child that its schema rejects, an edge from a child to itself, a cycle. -/
def composerBugs : List (SpecValidator × ComposeOutput) :=
  let accept : SpecValidator := fun _ _ => none
  let reject : SpecValidator := fun _ _ => some (.new "missing property account_id")
  let u := child "vm" "u"
  let v := child "vm" "v"
  [(accept, ⟨[{ v with kindVersion := 0 }], [], []⟩), (reject, ⟨[v], [], []⟩),
    (accept, ⟨[v], [⟨v.ref, v.ref, []⟩], []⟩),
    (accept, ⟨[u, v], [⟨u.ref, v.ref, []⟩, ⟨v.ref, u.ref, []⟩], []⟩)]

/-- Each of them raises a marked error and is recorded as a transient failure.  Once the
result is drained the retry queues the root at the same generation, with `composed_gen` still
behind: the composer runs again. -/
theorem composer_bug_retried : letI := counting
    let db := run Db.empty [applyRoot "app" "a", claimAll "b" "app" .reconcile]
    ∀ bug ∈ composerBugs, ∃ t ∈ db.tasks,
      let env : ReactionEnv := { smooth 0 true [] with
        worker := fun _ _ => .ran (.ok { Outcome.empty with
          children := bug.2.children
          edges := bug.2.edges
          configs := bug.2.configs })
        apply := fun out => (composeTx bug.1 "refused" db ⟨id, id, fun _ _ => Scan.plain⟩ t out
          ⟨fun _ _ => 0, fun _ _ => ""⟩).map Prod.snd }
      let j := reactReconcile fullManifest t env
      (∃ ev ∈ j.log, ev.step = .applyCompose ∧ ev.raised.any (·.isTerminal) = true) ∧
        ∃ row, recorded fullManifest t env j = some row ∧ row.failed = true ∧ row.terminal = false ∧
          let after := run db [.appendOutbox row, drainAll, .tick 100,
            .requeueFailedAndPending 1 10 [0], claimAll "b" "app" .reconcile]
          ∃ again ∈ after.tasks, again.resourceId = t.resourceId ∧ again.id ≠ t.id ∧
            again.generation = t.generation ∧
              ∃ r ∈ after.resources.rows, r.id = t.resourceId ∧ r.composedGen < again.generation := by
  decide +kernel

end Converge.Kernel
