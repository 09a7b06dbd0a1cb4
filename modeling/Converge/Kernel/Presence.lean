/-
# Kernel.Presence -- the pairs a broker serves, from its workers to a peer

`advertiseCredits` runs at every edge of a pair: a worker connects, leaves or flips its readiness, a
task is dispatched or completes.  For each pair it reads under the lock of the broker whether there
is a ready worker, gives the lock up, records the answer in `selfCredit` and puts it into the queue of
the route to the peer, where it is lost if there is no room.  So the calls overlap.

A stream of the route starts with one frame for every pair of `selfCredit` (`bulk`); its sender then
takes frames from the queue.  The queue outlives the streams, and so does what the peer has recorded.
A stream may break at any time, and a side that accepts streams may open one before it has noticed
that the last one broke: then two senders take from one queue.

Every answer carries its number, as history.  The peer is in the snapshot of the mesh throughout.
-/
import Converge.Kernel.Fanout

namespace Converge.Kernel

set_option autoImplicit false

/-- What `advertiseCredits` says of a pair. -/
structure Interest where
  km : KindVersion
  hasWorker : Bool
  /-- History: its number among the readings. -/
  serial : Nat
  deriving DecidableEq

/-- A call of `advertiseCredits`, with the pairs it has not read yet. -/
inductive Advertiser where
  | reading (kms : List KindVersion)
  | recording (fr : Interest) (rest : List KindVersion)
  | enqueuing (fr : Interest) (rest : List KindVersion)
  deriving DecidableEq

namespace Advertiser

def unread : Advertiser → List KindVersion
  | reading kms => kms
  | recording _ rest => rest
  | enqueuing _ rest => rest

def unrecorded : Advertiser → List Interest
  | recording fr _ => [fr]
  | _ => []

def unqueued : Advertiser → List Interest
  | enqueuing fr _ => [fr]
  | _ => []

end Advertiser

/-- A frame in the queue of the route. -/
inductive OutFrame where
  | interest (fr : Interest)
  /-- A task reference or a result. -/
  | other
  deriving DecidableEq

def OutFrame.interests : OutFrame → List Interest
  | interest fr => [fr]
  | other => []

inductive RouteSender where
  | idle
  | sending (frame : OutFrame)
  | exited
  deriving DecidableEq

def RouteSender.interests : RouteSender → List Interest
  | sending frame => frame.interests
  | _ => []

/-- The `pump` of one stream. -/
structure RouteStream where
  /-- The frames it starts with, before the sender. -/
  bulk : List Interest
  sender : RouteSender
  /-- Sent, and not yet handled by the peer. -/
  wire : List Interest
  /-- Sends succeed. -/
  up : Bool
  deriving DecidableEq

namespace RouteStream

def new (bulk : List Interest) : RouteStream := ⟨bulk, .idle, [], true⟩

/-- The frames on the side of the broker. -/
def held (st : RouteStream) : List Interest := st.bulk ++ st.sender.interests

/-- The frames that the peer can still get from this stream. -/
def live (st : RouteStream) : List Interest := (if st.up then st.held else []) ++ st.wire

/-- The sender selects on the queue. -/
def selects (st : RouteStream) : Bool := st.bulk = [] && st.sender = .idle

end RouteStream

structure Presence where
  broker : Fanout
  /-- The calls of `advertiseCredits`. -/
  calls : List Advertiser
  /-- The last answer recorded for each pair; `selfCredit` has the pairs with a worker. -/
  recorded : List Interest
  out : List OutFrame
  streams : List RouteStream
  /-- The last frame that the peer handled for each pair. -/
  handled : KindVersion → Option Interest
  /-- History: the last reading of each pair, and how many there were. -/
  latest : KindVersion → Option Interest
  readings : Nat

inductive PresenceAction where
  -- the workers, and the tasks they are given
  | connect (stream : StreamRef) (kms : List KindVersion) (maxInflight : Nat)
  | disconnect (stream : StreamRef)
  | flip (stream : StreamRef) (km : KindVersion) (ready : Bool)
  | credit (km : KindVersion)
  -- `advertiseCredits`
  | read (i : Nat)
  | record (i : Nat)
  | enqueue (i : Nat)
  -- the route
  | push
  | opened
  | sendBulk (j : Nat)
  | pop (j : Nat)
  | send (j : Nat)
  | cancelled (j : Nat)
  | handle (j : Nat)
  | broken (j : Nat)
  | lost (j : Nat)
  deriving DecidableEq

/-- The call changes the set that `setStreamReadiness` keeps for the stream. -/
def ConfigSub.flips (sub : ConfigSub) (km : KindVersion) (ready : Bool) : Bool :=
  km ∈ sub.kms && ready == decide (km ∈ sub.unready)

namespace Presence

def new : Presence := ⟨.new true, [], [], [], [], fun _ => none, fun _ => none, 0⟩

variable (s : Presence)

def advertiseCredits (kms : List KindVersion) : Presence :=
  { s with calls := s.calls ++ [.reading kms] }

def record (fr : Interest) : Presence := { s with recorded := s.recorded.filter (·.km ≠ fr.km) ++ [fr] }

def snapshotSelfCredit : List Interest := s.recorded.filter (·.hasWorker)

/-- The peer's `servesKindVersion`. -/
def servesKindVersion (km : KindVersion) : Bool := (s.handled km).any (·.hasWorker)

/-- The route queue takes the frame, if there is room. -/
def routeSend (frame : OutFrame) : Presence :=
  { s with out := if s.out.length < Fanout.routeSendBuf then s.out ++ [frame] else s.out }

def setCall (i : Nat) (c : Advertiser) : Presence := { s with calls := s.calls.set i c }

def setStream (j : Nat) (st : RouteStream) : Presence := { s with streams := s.streams.set j st }

def atCall (i : Nat) (move : Advertiser → Option Presence) : Presence := ((s.calls[i]?).bind move).getD s

def atStream (j : Nat) (move : RouteStream → Option Presence) : Presence := ((s.streams[j]?).bind move).getD s

def step : PresenceAction → Presence
  | .connect ref kms maxInflight =>
    if (s.broker.sub? ref).isNone then
      { s with broker := s.broker.addSubscriber ref kms maxInflight }.advertiseCredits kms
    else s
  | .disconnect ref => (s.broker.sub? ref).elim s fun sub =>
    if sub.loop = .removed then s
    else { s with broker := s.broker.removeSubscriber sub }.advertiseCredits sub.kms
  | .flip ref km ready => (s.broker.sub? ref).elim s fun sub =>
    -- the receive loop may be at this call when the stream is already removed
    if sub.flips km ready then
      { s with broker := s.broker.setStreamReadiness sub km ready }.advertiseCredits [km]
    else s
  | .credit km => s.advertiseCredits [km]
  | .read i => s.atCall i fun
      | .reading (km :: rest) =>
        let fr : Interest := ⟨km, s.broker.hasSubscriber km, s.readings + 1⟩
        some ({ s with
          latest := fun k => if k = km then some fr else s.latest k
          readings := s.readings + 1 }.setCall i (.recording fr rest))
      | _ => none
  | .record i => s.atCall i fun
      | .recording fr rest =>
        some ((s.record fr).setCall i (.enqueuing fr rest))
      | _ => none
  | .enqueue i => s.atCall i fun
      | .enqueuing fr rest => some ((s.routeSend (.interest fr)).setCall i (.reading rest))
      | _ => none
  | .push => s.routeSend .other
  | .opened => { s with streams := s.streams ++ [.new s.snapshotSelfCredit] }
  | .sendBulk j => s.atStream j fun st =>
    match st.bulk with
    | [] => none
    -- a failed send is ignored here
    | fr :: rest => some (s.setStream j { st with
        bulk := rest, wire := if st.up then st.wire ++ [fr] else st.wire })
  | .pop j => s.atStream j fun st =>
    match s.out with
    | [] => none
    | frame :: rest =>
      if st.selects then some ({ s with out := rest }.setStream j { st with sender := .sending frame })
      else none
  | .send j => s.atStream j fun st =>
    match st.sender with
    | .sending frame =>
      some (s.setStream j (if st.up then
        { st with sender := .idle, wire := st.wire ++ frame.interests }
      else { st with sender := .exited }))
    | _ => none
  | .cancelled j => s.atStream j fun st =>
    if st.selects && !st.up then some (s.setStream j { st with sender := .exited }) else none
  | .handle j => s.atStream j fun st =>
    match st.wire with
    | [] => none
    | fr :: rest =>
      some ({ s with
        handled := fun k => if k = fr.km then some fr else s.handled k }.setStream j { st with wire := rest })
  | .broken j => s.atStream j fun st => some (s.setStream j { st with up := false })
  | .lost j => s.atStream j fun st => some (s.setStream j { st with up := false, wire := [] })

/-! ## What can still reach the peer -/

/-- The answers that are about to be recorded. -/
def unrecorded : List Interest := s.calls.flatMap Advertiser.unrecorded

/-- The recorded answers that are on their way. -/
def live : List Interest :=
  s.calls.flatMap Advertiser.unqueued ++ s.out.flatMap OutFrame.interests ++ s.streams.flatMap RouteStream.live

def up : Bool := s.streams.any (·.up)

/-- The calls have returned, and the queue and the streams are empty. -/
def Delivered : Prop :=
  (∀ c ∈ s.calls, c = .reading []) ∧ s.out = [] ∧ ∀ st ∈ s.streams, st.held = [] ∧ st.wire = []

instance : Decidable s.Delivered := inferInstanceAs (Decidable (_ ∧ _ ∧ _))

end Presence

/-- The connected workers that are ready for the pair. -/
def Fanout.readyWorkers (f : Fanout) (km : KindVersion) : List ConfigSub :=
  f.subs.filter fun sub => sub.loop ≠ .removed && sub.readyFor km

end Converge.Kernel
