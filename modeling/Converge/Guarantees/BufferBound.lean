/-
# Guarantees.BufferBound -- the redelivery buffer of a worker

`redeliverBuffered` takes the buffer out, sends without the lock that guards it, and puts what
does not fit back in front.  A handler that finished in between would find an empty buffer and
could fill it, so that the two together are longer than the cap.

No handler does: a `Run` replays before it receives, and the `Run` before it waited for its
handlers.  So the buffer and what the replay has in hand never exceed the cap together
(`Bounded`), and the results that found the buffer full are those that are counted, or whose
goroutine is about to count them (`buffer_bounded`).
-/
import Converge.Guarantees.ResultCustody

namespace Converge.Kernel.Runner

open Converge.Theory List

set_option autoImplicit false

variable {r r' : Runner} {i : Nat} {h : Handler} {full : List Report} {s : Session}

/-! ## Statement -/

/-- The result for which a step finds the buffer full. -/
def overflowed (r : Runner) : RunnerAction → List Report
  | .bufferResult i =>
    match r.handlers[i]? with
    | some (.buffering sc) => if r.resultBuf.length < resultBufCap then [] else [sc]
    | _ => []
  | _ => []

/-- The results of a run that found the buffer full. -/
def beyond : Runner → List RunnerAction → List Report
  | _, [] => []
  | r, a :: rest => r.overflowed a ++ beyond (r.step a) rest

/-- The goroutine is about to count its result. -/
@[simp] def Handler.excess : Handler → List Report
  | .overflowing sc | .discarding sc => [sc]
  | _ => []

/-- What is counted, and what is about to be. -/
def excess (r : Runner) : List Report := r.discarded ++ r.handlers.flatMap Handler.excess

/-! ## The bound -/

def replay? (r : Runner) : Option Replay := r.session.map Session.replay

/-- There is room for what the replay has in hand, and no handler while it is not done. -/
structure Bounded (r : Runner) : Prop where
  room : r.resultBuf.length + (r.replay?.elim [] Replay.inHand).length ≤ resultBufCap
  alone : r.handlers = [] ∨ r.replay? = some .done

/-- A step, for which `full` found the buffer full. -/
structure Turn (r : Runner) (full : List Report) (r' : Runner) : Prop where
  bounded : Bounded r → Bounded r'
  counted : (full ++ r.excess).Perm r'.excess

theorem Bounded.goes_on (h : Bounded r) (buf : r'.resultBuf = r.resultBuf) (replay : r'.replay? = r.replay?)
    (none : r.handlers = [] → r'.handlers = []) : Bounded r' where
  room := by
    rw [buf, replay]
    exact h.room
  alone := by
    rw [replay]
    exact h.alone.imp_left none

theorem Turn.same (buf : r'.resultBuf = r.resultBuf) (replay : r'.replay? = r.replay?)
    (handlers : r'.handlers = r.handlers) (discarded : r'.discarded = r.discarded) : Turn r [] r' where
  bounded h := h.goes_on buf replay handlers.trans
  counted := by
    rw [excess, excess, handlers, discarded]
    exact .refl _

theorem Turn.rfl : Turn r [] r := ⟨id, .refl _⟩

theorem Turn.stream {move : Session → Option Runner}
    (moves : ∀ s r', r.session = some s → move s = some r' → Turn r [] r') : Turn r [] (r.atSession move) :=
  atSession_cases .rfl moves

theorem Turn.handler {move : Handler → Option Runner}
    (moves : ∀ h r', r.handlers[i]? = some h → move h = some r' → Turn r [] r') : Turn r [] (r.atHandler i move) :=
  atHandler_cases .rfl moves

theorem Turn.enqueue {msg : ClientMsg} (queued : r.enqueue msg = some r') : Turn r [] r' := by
  obtain ⟨s, session, -, rfl⟩ := enqueue_some queued
  exact .same (.refl _) (by simp [replay?, session]) (.refl _) (.refl _)

/-- One goroutine moves, and its result with it. -/
theorem excess_move (found : r.handlers[i]? = some h)
    (now : Option Handler)
    (same : (full ++ r.discarded ++ h.excess).Perm (r'.discarded ++ now.elim [] Handler.excess))
    (handlers : r'.handlers = now.elim (r.handlers.eraseIdx i) (r.handlers.set i ·)) :
    (full ++ r.excess).Perm r'.excess := by
  rw [perm_iff_count] at same ⊢
  intro sc
  have moved := same sc
  simp only [excess, handlers, count_append, count_erase Handler.excess sc found,
    count_exchange Handler.excess sc found now] at moved ⊢
  omega

theorem Turn.move (found : r.handlers[i]? = some h)
    (now : Option Handler)
    (same : (full ++ r.discarded ++ h.excess).Perm (r'.discarded ++ now.elim [] Handler.excess))
    (handlers : r'.handlers = now.elim (r.handlers.eraseIdx i) (r.handlers.set i ·))
    (buf : r'.resultBuf = r.resultBuf) (replay : r'.replay? = r.replay?) : Turn r full r' where
  bounded h := h.goes_on buf replay fun none => by simp [none] at found
  counted := excess_move found now same handlers

theorem Turn.replays (session : r.session = some s) (busy : s.replay ≠ .done)
    (handlers : r'.handlers = r.handlers) (discarded : r'.discarded = r.discarded)
    (fits : r'.resultBuf.length + (r'.replay?.elim [] Replay.inHand).length ≤
      r.resultBuf.length + s.replay.inHand.length) : Turn r [] r' where
  bounded h := by
    have room := h.room
    simp only [replay?, session, Option.map_some, Option.elim_some] at room
    exact ⟨fits.trans room, .inl (handlers.trans (h.alone.resolve_right (by simpa [replay?, session] using busy)))⟩
  counted := by
    rw [excess, excess, handlers, discarded]
    exact .refl _

theorem step_turn (r : Runner) (a : RunnerAction) : Turn r (r.overflowed a) (r.step a) := by
  cases a with
  | connect =>
    simp only [Runner.step]
    split
    · rename_i idle
      have idle : r.session = none := by simpa using idle
      refine ⟨fun h => ⟨?_, .inl (h.alone.resolve_right (by simp [replay?, idle]))⟩, .rfl⟩
      simpa [replay?, idle, Session.new] using h.room
    · exact .rfl
  | receive t =>
    refine .stream fun s r' session moved => ?_
    split at moved <;> cases moved
    rename_i ready
    exact ⟨fun h => ⟨h.room, .inr (by simp [replay?, track, session, ready.2])⟩, by simp [excess, track]⟩
  | receiveError | closeSend =>
    exact .same rfl (by simp [Runner.step, replay?, Function.comp_def]) rfl rfl
  | runReturns =>
    refine .stream fun s r' session moved => ?_
    split at moved <;> cases moved
    rename_i done
    refine ⟨fun h => ⟨?_, .inl done.2.2.2.2⟩, .rfl⟩
    simpa [replay?, session, done.2.2.2.1] using h.room
  | finish i result | recoverTask i value =>
    refine .handler fun hd r' found moved => ?_
    cases hd <;> cases moved
    exact .move found (some (.reporting _)) .rfl rfl rfl rfl
  | send i =>
    refine .handler fun hd r' found moved => ?_
    cases hd <;> cases moved
    split
    · rename_i sc r₁ queued
      obtain ⟨s, session, -, rfl⟩ := enqueue_some queued
      exact .move found (some (.untracking _)) .rfl rfl rfl (by simp [replay?, session])
    · exact .move found (some (.buffering _)) .rfl rfl rfl rfl
  | bufferResult i =>
    simp only [Runner.step, atHandler, overflowed]
    cases found : r.handlers[i]? with
    | none => exact .rfl
    | some hd =>
      cases hd with
      | buffering sc =>
        simp only [Option.bind_some]
        split
        · rename_i room
          refine ⟨fun h => ?_, excess_move found none .rfl rfl⟩
          -- there is a handler, so the replay is done and has nothing in hand
          have done := h.alone.resolve_left fun none => by simp [none] at found
          refine ⟨?_, .inr done⟩
          show (r.resultBuf ++ [sc]).length + (r.replay?.elim [] Replay.inHand).length ≤ _
          rw [done, length_append]
          exact room
        · exact .move found (some (.overflowing sc)) (by simpa using (perm_append_singleton sc _).symm) rfl rfl rfl
      | _ => exact .rfl
  | untrack i =>
    refine .handler fun hd r' found moved => ?_
    cases hd <;> cases moved
    · exact .move found (some (.discarding _)) .rfl rfl rfl rfl
    · exact .move found none .rfl rfl rfl rfl
  | discardResult i =>
    refine .handler fun hd r' found moved => ?_
    cases hd <;> cases moved
    exact .move found none (by simp) rfl rfl rfl
  | takeBuffer =>
    refine .stream fun s r' session moved => ?_
    split at moved <;> cases moved
    rename_i due
    exact .replays session (by simp [due]) rfl rfl (by simp [replay?, session, due])
  | replay =>
    refine .stream fun s r' session moved => ?_
    split at moved
    · rename_i buf taken
      obtain ⟨sent, unsent, rfl, -, eq⟩ := replayLoop_spec buf r s [] session
      simp only [eq] at moved
      cases moved
      exact .replays session (by simp [taken]) rfl rfl (by simp [replay?, taken])
    · cases moved
  | putBack =>
    refine .stream fun s r' session moved => ?_
    split at moved <;> cases moved
    rename_i unsent sent returning
    refine .replays session (by simp [returning]) rfl rfl ?_
    simp [replay?, session, returning, Nat.add_comm]
  | untrackSent =>
    refine .stream fun s r' session moved => ?_
    split at moved <;> cases moved <;> rename_i left <;>
      exact .replays session (by simp [left]) rfl rfl (by simp [replay?, session, left])
  | take | sent | sendError | detach | flushed =>
    refine .stream fun s r' session moved => ?_
    split at moved <;> cases moved <;> exact .same rfl (by simp [replay?, session]) rfl rfl
  | attest => exact getD_bind_cases (P := Turn r []) .rfl fun _ _ _ queued => .enqueue queued
  | sendReadiness km ready => exact getD_cases (P := Turn r []) .rfl fun _ queued => .enqueue queued

/-! ## Every run -/

theorem beyond_run (actions : List RunnerAction) :
    ∀ r : Runner, (beyond r actions ++ r.excess).Perm (actions.foldl Runner.step r).excess := by
  induction actions with
  | nil => exact fun r => .refl _
  | cons a rest ih =>
    intro r
    have here := ((step_turn r a).counted.append_left (beyond (r.step a) rest)).trans (ih (r.step a))
    rw [beyond, append_assoc]
    exact perm_append_comm_assoc .. |>.trans here

/-- **The buffer holds at most `resultBufCap` results, and what found it full is counted**, or
its goroutine is about to count it and its next two steps do. -/
theorem buffer_bounded (maxInfl : Nat) (actions : List RunnerAction) :
    let r := actions.foldl Runner.step (.new maxInfl)
    r.resultBuf.length ≤ resultBufCap ∧ (beyond (.new maxInfl) actions).Perm r.excess ∧
      ∀ i sc, r.handlers[i]? = some (.overflowing sc) →
        ((r.step (.untrack i)).step (.discardResult i)).discarded = r.discarded ++ [sc] := by
  intro r
  have bounded : Bounded r := foldlRecOn (motive := Bounded) actions _
    ⟨Nat.zero_le _, .inl (.refl _)⟩ fun r h a _ => (step_turn r a).bounded h
  have counted : (beyond (.new maxInfl) actions ++ []).Perm r.excess := beyond_run actions (.new maxInfl)
  rw [append_nil] at counted
  refine ⟨(Nat.le_add_right ..).trans bounded.room, counted, fun i sc found => ?_⟩
  obtain ⟨lt, there⟩ := List.getElem?_eq_some_iff.mp found
  simp [Runner.step, atHandler, there, lt]

end Converge.Kernel.Runner
