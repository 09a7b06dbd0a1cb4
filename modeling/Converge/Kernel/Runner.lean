/-
# Kernel.Runner -- the worker's end of a stream

A worker's `runner` outlives its streams.  `Run` is one stream: it opens the stream, puts a send
queue in place (`sendCh`), replays the results that an earlier stream left, and starts a handler
for each task that arrives.  One sender goroutine takes from the queue.  `Run` returns once its
handlers are done and its sender has exited, and is entered again.

`Runner.step` is one critical section of `sendMu` or `mu`, or one operation on the stream, of one
of these goroutines; a step that is not possible changes nothing.  The two locks are taken one
after the other, so a result passes from hand to hand: `Handler` and `Replay` say what a goroutine
has in its locals between them.

The history fields say what the handlers computed and what the stream took without an error.
`discarded` is the log of `discardResult`; the counter is its length.
-/
import Converge.Kernel.Fanout
import Converge.Theory.Transition

namespace Converge.Kernel

set_option autoImplicit false

/-- What the runner reads of a `workerpb.StageTask`. -/
structure StageTask where
  leaseToken : LeaseToken
  claimEpoch : Nat
  stage : Stage
  deriving DecidableEq

/-- A `workerpb.StageComplete` with the echo of its lease. -/
structure Report where
  leaseToken : LeaseToken
  claimEpoch : Nat
  sc : StageComplete
  deriving DecidableEq

def StageTask.report (t : StageTask) (sc : StageComplete) : Report := ⟨t.leaseToken, t.claimEpoch, sc⟩

/-- `workerpb.WorkStreamClientMsg`, after the subscription. -/
inductive ClientMsg where
  | complete (report : Report)
  | interest (km : KindVersion) (hasWorker : Bool)
  | heartbeat (tasks : List (LeaseToken × Nat))
  deriving DecidableEq

structure InflightTask where
  token : LeaseToken
  epoch : Nat
  done : Bool
  deriving DecidableEq

namespace Runner

inductive Handler where
  | running (task : StageTask)
  /-- In `send`, before `sendMu`. -/
  | reporting (report : Report)
  /-- The queue is gone or full: before `mu`. -/
  | buffering (report : Report)
  /-- The buffer is full: before `untrack`. -/
  | overflowing (report : Report)
  | discarding (report : Report)
  /-- The result is in the queue: before `untrack`. -/
  | untracking (token : LeaseToken)
  deriving DecidableEq

inductive Sender where
  | idle
  | sending (msg : ClientMsg)
  /-- `Send` gave an error: before `sendMu`. -/
  | failed
  /-- All was sent, or `r.sendCh` is `nil` since. -/
  | exited
  deriving DecidableEq

/-- `redeliverBuffered`. -/
inductive Replay where
  | due
  | taken (buf : List Report)
  | returning (unsent : List Report) (sent : List LeaseToken)
  | untracking (sent : List LeaseToken)
  | done
  deriving DecidableEq

/-- One `Run`, from its send queue on. -/
structure Session where
  queue : List ClientMsg
  closed : Bool
  sender : Sender
  replay : Replay
  receiving : Bool
  deriving DecidableEq

def Session.new : Session := ⟨[], false, .idle, .due, true⟩

/-- `r.sendCh` is the queue of this stream. -/
def Session.attached (s : Session) : Bool := !s.closed && s.sender ≠ .exited

end Runner

structure Runner where
  maxInfl : Nat
  inflight : List InflightTask
  resultBuf : List Report
  discarded : List Report
  session : Option Runner.Session
  handlers : List Runner.Handler
  /-- History: the results of the handlers. -/
  computed : List Report
  /-- History: the results that `Send` took. -/
  handed : List Report

def resultBufCap : Nat := 1024

namespace Runner

def new (maxInfl : Nat) : Runner := ⟨maxInfl, [], [], [], none, [], [], []⟩

variable (r : Runner)

def track (t : StageTask) : Runner :=
  { r with inflight := r.inflight.filter (fun it => it.token ≠ t.leaseToken) ++
    [⟨t.leaseToken, t.claimEpoch, false⟩] }

def untrack (token : LeaseToken) : Runner :=
  { r with inflight := r.inflight.filter fun it => it.token ≠ token }

def markDone (token : LeaseToken) : Runner :=
  { r with inflight := r.inflight.map fun it => if it.token = token then { it with done := true } else it }

def tracked : List LeaseToken := r.inflight.map InflightTask.token

def attestFrame : Option ClientMsg :=
  match r.inflight.filter fun it => !it.done with
  | [] => none
  | live => some (.heartbeat (live.map fun it => (it.token, it.epoch)))

/-- The send queue takes a message, under `sendMu`; `none` if there is none, or no room. -/
def enqueue (msg : ClientMsg) : Option Runner :=
  r.session.bind fun s =>
    if s.attached ∧ s.queue.length < r.maxInfl + 16 then
      some { r with session := some { s with queue := s.queue ++ [msg] } }
    else none

/-- The loop of `redeliverBuffered`: it stops at the first result that does not fit. -/
def replayLoop : List Report → Runner → List LeaseToken → Runner × List Report × List LeaseToken
  | [], r, sent => (r, [], sent)
  | sc :: buf, r, sent =>
    match r.enqueue (.complete sc) with
    | some r' => replayLoop buf r' (sent ++ [sc.leaseToken])
    | none => (r, sc :: buf, sent)

def setSession (f : Session → Session) : Runner := { r with session := r.session.map f }

def setHandler (i : Nat) (h : Handler) : Runner := { r with handlers := r.handlers.set i h }

def dropHandler (i : Nat) : Runner := { r with handlers := r.handlers.eraseIdx i }

/-- The handler has returned, or its panic was recovered. -/
def finish (i : Nat) (t : StageTask) (sc : StageComplete) : Runner :=
  { r with computed := r.computed ++ [t.report sc] }.setHandler i (.reporting (t.report sc))

end Runner

inductive RunnerAction where
  -- `Run`
  | connect
  | receive (task : StageTask)
  | receiveError
  | closeSend
  | runReturns
  -- the goroutine of a task
  | finish (i : Nat) (result : Except GoError Outcome)
  | recoverTask (i : Nat) (value : String)
  | send (i : Nat)
  | bufferResult (i : Nat)
  | untrack (i : Nat)
  | discardResult (i : Nat)
  -- `redeliverBuffered`
  | takeBuffer
  | replay
  | putBack
  | untrackSent
  -- the sender
  | take
  | sent
  | sendError
  | detach
  | flushed
  -- the attestation ticker and the health poller
  | attest
  | sendReadiness (km : KindVersion) (ready : Bool)

namespace Runner

variable (r : Runner)

def atHandler (i : Nat) (move : Handler → Option Runner) : Runner := ((r.handlers[i]?).bind move).getD r

def atSession (move : Session → Option Runner) : Runner := (r.session.bind move).getD r

def step : RunnerAction → Runner
  | .connect => if r.session.isNone then { r with session := some .new } else r
  | .receive t => r.atSession fun s =>
    if s.receiving ∧ s.replay = .done then
      some { r.track t with handlers := r.handlers ++ [.running t] }
    else none
  | .receiveError => r.setSession ({ · with receiving := false })
  | .closeSend => r.setSession ({ · with closed := true })
  | .runReturns => r.atSession fun s =>
    if s.closed ∧ s.sender = .exited ∧ s.receiving = false ∧ s.replay = .done ∧ r.handlers = [] then
      some { r with session := none }
    else none
  | .finish i result => r.atHandler i fun
      | .running t => some (r.finish i t (computeComplete t.stage result))
      | _ => none
  | .recoverTask i value => r.atHandler i fun
      | .running t => some (r.finish i t (failComplete ("handler panic: " ++ value) true))
      | _ => none
  | .send i => r.atHandler i fun
      | .reporting sc =>
        some (match r.enqueue (.complete sc) with
          | some r' => r'.setHandler i (.untracking sc.leaseToken)
          | none => r.setHandler i (.buffering sc))
      | _ => none
  | .bufferResult i => r.atHandler i fun
      | .buffering sc =>
        if r.resultBuf.length < resultBufCap then
          some (({ r with resultBuf := r.resultBuf ++ [sc] }.markDone sc.leaseToken).dropHandler i)
        else some (r.setHandler i (.overflowing sc))
      | _ => none
  | .untrack i => r.atHandler i fun
      | .untracking token => some ((r.untrack token).dropHandler i)
      | .overflowing sc => some ((r.untrack sc.leaseToken).setHandler i (.discarding sc))
      | _ => none
  | .discardResult i => r.atHandler i fun
      | .discarding sc => some ({ r with discarded := r.discarded ++ [sc] }.dropHandler i)
      | _ => none
  | .takeBuffer => r.atSession fun s =>
    if s.replay = .due then
      some ({ r with resultBuf := [] }.setSession ({ · with replay := .taken r.resultBuf }))
    else none
  | .replay => r.atSession fun s =>
    match s.replay with
    | .taken buf =>
      let (r', unsent, sent) := replayLoop buf r []
      some (r'.setSession ({ · with replay := .returning unsent sent }))
    | _ => none
  | .putBack => r.atSession fun s =>
    match s.replay with
    | .returning unsent sent =>
      some ({ r with resultBuf := unsent ++ r.resultBuf }.setSession ({ · with replay := .untracking sent }))
    | _ => none
  | .untrackSent => r.atSession fun s =>
    match s.replay with
    | .untracking (token :: rest) => some ((r.untrack token).setSession ({ · with replay := .untracking rest }))
    | .untracking [] => some (r.setSession ({ · with replay := .done }))
    | _ => none
  | .take => r.atSession fun s =>
    match s.sender, s.queue with
    | .idle, msg :: rest => some (r.setSession ({ · with queue := rest, sender := .sending msg }))
    | _, _ => none
  | .sent => r.atSession fun s =>
    match s.sender with
    | .sending (.complete sc) =>
      some ({ r with handed := r.handed ++ [sc] }.setSession ({ · with sender := .idle }))
    | .sending _ => some (r.setSession ({ · with sender := .idle }))
    | _ => none
  | .sendError => r.atSession fun s =>
    match s.sender with
    | .sending _ => some (r.setSession ({ · with sender := .failed }))
    | _ => none
  | .detach => r.atSession fun s =>
    if s.sender = .failed then some (r.setSession ({ · with sender := .exited })) else none
  | .flushed => r.atSession fun s =>
    if s.sender = .idle ∧ s.closed ∧ s.queue = [] then some (r.setSession ({ · with sender := .exited }))
    else none
  | .attest => (r.attestFrame.bind r.enqueue).getD r
  | .sendReadiness km ready => (r.enqueue (.interest km ready)).getD r

/-! ## What one move does -/

variable {r} {P : Runner → Prop}

theorem atHandler_cases {i : Nat} {move : Handler → Option Runner} (idle : P r)
    (moves : ∀ h r', r.handlers[i]? = some h → move h = some r' → P r') : P (r.atHandler i move) :=
  Theory.getD_bind_cases idle moves

theorem atSession_cases {move : Session → Option Runner} (idle : P r)
    (moves : ∀ s r', r.session = some s → move s = some r' → P r') : P (r.atSession move) :=
  Theory.getD_bind_cases idle moves

theorem enqueue_some {msg : ClientMsg} {r' : Runner} (queued : r.enqueue msg = some r') :
    ∃ s, r.session = some s ∧ s.sender ≠ .exited ∧
      r' = { r with session := some { s with queue := s.queue ++ [msg] } } := by
  obtain ⟨s, there, fits⟩ := Option.bind_eq_some_iff.mp queued
  split at fits
  · rename_i ok
    have live : s.closed = false ∧ s.sender ≠ .exited := by simpa [Session.attached] using ok.1
    exact ⟨s, there, live.2, (Option.some.inj fits).symm⟩
  · cases fits

/-- The loop enqueues the results up to one that does not fit. -/
theorem replayLoop_spec (buf : List Report) :
    ∀ (r : Runner) (s : Session) (sent : List LeaseToken), r.session = some s →
    ∃ taken unsent, buf = taken ++ unsent ∧ (taken = [] ∨ s.sender ≠ .exited) ∧ replayLoop buf r sent =
        ({ r with session := some { s with queue := s.queue ++ taken.map .complete } }, unsent,
          sent ++ taken.map Report.leaseToken) := by
  induction buf with
  | nil =>
    intro r s sent session
    exact ⟨[], [], rfl, .inl rfl, by simp [replayLoop, ← session]⟩
  | cons sc buf ih =>
    intro r s sent session
    rw [replayLoop]
    cases queued : r.enqueue (.complete sc) with
    | none => exact ⟨[], sc :: buf, rfl, .inl rfl, by simp [← session]⟩
    | some r' =>
      obtain ⟨s', there, live, rfl⟩ := enqueue_some queued
      cases session.symm.trans there
      obtain ⟨taken, unsent, rfl, _, eq⟩ :=
        ih { r with session := some { s with queue := s.queue ++ [.complete sc] } }
        { s with queue := s.queue ++ [.complete sc] } (sent ++ [sc.leaseToken]) rfl
      refine ⟨sc :: taken, unsent, rfl, .inr live, ?_⟩
      simp [eq]

end Runner

end Converge.Kernel
