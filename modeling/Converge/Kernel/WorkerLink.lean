/-
# Kernel.WorkerLink -- a worker's readiness, from its probes to the broker

A worker may have a readiness probe for a pair it serves.  What the probes say reaches the broker in
two ways: `Run` reads them in the burst after the subscription, and the health poller reads them at
every tick and sends a frame where the value is not the one it remembers.  The poller is started
once, before the loop that runs one stream after the other; its memory (`last`) outlives the
streams.  The broker starts every stream with all its pairs ready.

`WorkerLink.step` reads one probe, or is one step of the runner, of the stream or of the broker.  Frames
pass in order: the send queue, the sender, the stream (`wire`), the broker.  A failed send breaks
the stream, and a stream may break at any time.

The history fields of a stream say what its burst read and which pairs had a frame since.
-/
import Converge.Kernel.Runner

namespace Converge.Kernel

set_option autoImplicit false

/-- The set that `setStreamReadiness` keeps for a stream of these pairs. -/
def flipReadiness (kms unready : List KindVersion) (km : KindVersion) (ready : Bool) : List KindVersion :=
  if km ∉ kms then unready
  else if ready && km ∈ unready then unready.filter (· ≠ km)
  else if !ready && km ∉ unready then km :: unready
  else unready

/-- A stream, and the broker's record of it. -/
structure LinkStream where
  /-- The probes that the burst has not read yet. -/
  burst : List KindVersion
  /-- Sent, and not yet handled by the broker. -/
  wire : List ClientMsg
  unready : List KindVersion
  /-- History: what the burst read. -/
  read : KindVersion → Option Bool
  /-- History: the pairs that had a frame since. -/
  framed : List KindVersion

/-- A worker that serves `kms` and has a probe for each of `probes`. -/
structure WorkerLink where
  kms : List KindVersion
  probes : List KindVersion
  served : probes ⊆ kms
  distinct : probes.Nodup
  /-- What the probes say. -/
  ready : KindVersion → Bool
  /-- The probes that the poller has not read at its start. -/
  seeding : List KindVersion
  /-- A value that the poller has read, before it is sent. -/
  reading : Option (KindVersion × Bool)
  last : KindVersion → Option Bool
  runner : Runner
  stream : Option LinkStream

inductive LinkAction where
  | probe (km : KindVersion) (value : Bool)
  -- the poller
  | seed
  | poll (km : KindVersion)
  | emit
  -- `Run`
  | subscribe
  | initialUnready
  | runner (a : RunnerAction)
  -- the stream and the broker
  | handle
  | broken

namespace WorkerLink

def new (kms probes : List KindVersion) (served : probes ⊆ kms) (distinct : probes.Nodup)
    (ready : KindVersion → Bool) (maxInfl : Nat) : WorkerLink where
  kms := kms
  probes := probes
  served := served
  distinct := distinct
  ready := ready
  seeding := probes
  reading := none
  last := fun _ => none
  runner := .new maxInfl
  stream := none

variable (x : WorkerLink)

def latch (km : KindVersion) (value : Bool) : KindVersion → Option Bool :=
  fun k => if k = km then some value else x.last k

/-- The frame was enqueued, and is remembered. -/
def sent (km : KindVersion) (ready : Bool) (r : Runner) : WorkerLink :=
  { x with
    runner := r
    last := x.latch km ready
    stream := x.stream.map fun st => { st with framed := km :: st.framed } }

def sendReadiness (km : KindVersion) (ready : Bool) : WorkerLink :=
  (x.runner.enqueue (.interest km ready)).elim x (x.sent km ready)

def emit (km : KindVersion) (ready : Bool) : WorkerLink :=
  match x.last km with
  -- ready is the implicit default
  | none => if ready then x else x.sendReadiness km ready
  | some prev => if ready = prev then x else x.sendReadiness km ready

def setStream (f : LinkStream → LinkStream) : WorkerLink := { x with stream := x.stream.map f }

/-- The message that the sender gives to the stream. -/
def sending : List ClientMsg :=
  x.runner.session.elim [] fun s => match s.sender with | .sending msg => [msg] | _ => []

def step : LinkAction → WorkerLink
  | .probe km value => { x with ready := fun k => if k = km then value else x.ready k }
  | .seed =>
    match x.seeding with
    | [] => x
    | km :: rest => { x with seeding := rest, last := if x.ready km then x.last else x.latch km false }
  | .poll km =>
    if x.seeding = [] ∧ x.reading = none ∧ km ∈ x.probes then { x with reading := some (km, x.ready km) } else x
  | .emit =>
    match x.reading with
    | some (km, value) => { x with reading := none }.emit km value
    | none => x
  | .subscribe =>
    if x.stream.isNone ∧ x.runner.session.isNone then
      { x with stream := some ⟨x.probes, [], [], fun _ => none, []⟩ }
    else x
  | .initialUnready => x.setStream fun st =>
    match st.burst with
    | [] => st
    | km :: rest => { st with
        burst := rest
        wire := if x.ready km then st.wire else st.wire ++ [.interest km false]
        read := fun k => if k = km then some (x.ready km) else st.read k }
  | .runner .connect =>
    if x.stream.all fun st => st.burst = [] then { x with runner := x.runner.step .connect } else x
  | .runner .sent =>
    { x with runner := x.runner.step .sent }.setStream fun st => { st with wire := st.wire ++ x.sending }
  | .runner .sendError =>
    { x with
      runner := x.runner.step .sendError
      stream := if x.sending = [] then x.stream else none }
  | .runner .runReturns =>
    { x with
      runner := x.runner.step .runReturns
      stream := if (x.runner.step .runReturns).session.isSome then x.stream else none }
  | .runner (.sendReadiness _ _) => x
  | .runner a => { x with runner := x.runner.step a }
  | .handle => x.setStream fun st =>
    match st.wire with
    | [] => st
    | .interest km ready :: rest => { st with wire := rest, unready := flipReadiness x.kms st.unready km ready }
    | _ :: rest => { st with wire := rest }
  | .broken => { x with stream := none }

/-- One tick of the poller, in one piece and in list order.  The loop of the source ranges over a
map, in any order, and other goroutines run in between: that is a run of `poll` and `emit`. -/
def tick : WorkerLink := x.probes.foldl (fun y km => (y.step (.poll km)).step .emit) x

end WorkerLink

theorem setStreamReadiness_unready {f : Fanout} {sub : ConfigSub} (there : f.sub? sub.ref = some sub)
    (km : KindVersion) (ready : Bool) :
    ((f.setStreamReadiness sub km ready).sub? sub.ref).map ConfigSub.unready =
      some (flipReadiness sub.kms sub.unready km ready) := by
  have set : ∀ unready, ((f.setSub sub.ref ({ · with unready := unready })).sub? sub.ref).map ConfigSub.unready =
      some unready := by
    intro unready
    unfold Fanout.sub? Fanout.setSub at *
    have same : (fun s : ConfigSub => decide (s.ref = sub.ref)) ∘
        (fun s : ConfigSub => if s.ref = sub.ref then { s with unready := unready } else s) =
        fun s : ConfigSub => decide (s.ref = sub.ref) := by
      funext s
      simp only [Function.comp_apply]
      split <;> simp_all
    rw [List.find?_map, same, there]
    simp
  unfold Fanout.setStreamReadiness flipReadiness
  split
  · simp [there]
  · split
    · exact set _
    · split
      · exact set _
      · simp [there]

end Converge.Kernel
