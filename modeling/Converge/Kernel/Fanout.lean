/-
# Kernel.Fanout -- a broker's parked stages, its worker streams and its routes

Every reaction of a claimed task runs on a worker.  The broker that claimed the task parks the
stage under a lease token; a worker's stream or a peer's route takes it from there, and the
stage's goroutine waits for one completion.  `Fanout` is the memory of one `fanoutExecutor`,
with the positions of its goroutines: one for each stage (`Waiter`), the loops of each worker
stream (`Loop`, `FanIn`), and the channel sends under way (`Wake`).

`Fanout.step` is one critical section of `f.mu`, or one channel operation, of one of them, or
what reaches the broker from outside: a dispatch, a subscription, a frame.  A step that is not
possible changes nothing.  A pointer or token that the runtime draws is new: that is the guard
of the steps that draw one.

Credit, presence of peers and metrics are left out: they choose where a stage goes, and here
any choice is possible.
-/
import Converge.Kernel.Reactions

namespace Converge.Kernel

open Converge.Theory

set_option autoImplicit false

/-! ## The memory of a broker -/

/-- `model.KindVersion`, the key of every buffer. -/
structure KindVersion where
  kind : String
  version : Nat
  deriving DecidableEq

-- lease tokens and pointers, all drawn from one counter
abbrev LeaseToken := Nat
abbrev StageRef := Nat
abbrev StreamRef := Nat
abbrev PeerRef := Nat

/-- A completion on its way; `synthetic` is history: a broker made it up. -/
structure Completion where
  sc : StageComplete
  synthetic : Bool
  deriving DecidableEq

def reasonWorkerStreamDropped : String := "converge: local worker stream dropped before Complete"

def reasonPeerDeparted : String := "converge-mesh: executing peer departed before returning result"

/-- A completion of the broker's own. -/
def Completion.synthesized (reason : String) : Completion := ⟨failComplete reason false, true⟩

/-- Where the goroutine of a stage stands: in `dispatchStage`, or in the forwarder that
`onRouteTask` starts. -/
inductive Waiter where
  /-- About to ask for a local worker. -/
  | placing
  /-- There is none: about to push the stage to a peer. -/
  | seeking
  /-- There is one: about to put the stage into its buffer. -/
  | admitted
  | queued
  /-- A peer has the reference, which the stage does not say yet. -/
  | pushing (peer : PeerRef)
  | pushed (peer : PeerRef)
  | forwarding (owner : PeerRef)
  /-- With its result, before the token is dropped. -/
  | leaving (result : Option Completion)
  /-- No result: the context ended. -/
  | returned (result : Option Completion)
  deriving DecidableEq

/-- What the goroutine got. -/
def Waiter.result : Waiter → Option Completion
  | leaving result | returned result => result
  | _ => none

/-- `pendingStage`; its task is the token and the key.  A stage of a claimed task has its
lease, a reactor's or a foreign one has none. -/
structure PendingStage where
  ref : StageRef
  token : LeaseToken
  km : KindVersion
  foreign : Bool
  lease : Option WorkTask
  sentBy : Option StreamRef
  slotHeld : Bool
  gateSub : Option StreamRef
  pushedTo : Option PeerRef
  /-- History: the peer that was sent the reference. -/
  forwarded : Option PeerRef
  /-- The buffer of one. -/
  resultCh : Option Completion
  /-- `f.inflight` has this stage under its token. -/
  registered : Bool
  waiter : Waiter
  deriving DecidableEq

/-- A fan-in goroutine of a stream. -/
inductive FanIn where
  | waiting
  | offering (stage : StageRef)
  | exited
  deriving DecidableEq

/-- The main loop of a stream, and then its deferred calls. -/
inductive Loop where
  | idle
  | taken (stage : StageRef)
  | attributed (stage : StageRef)
  /-- Sending. -/
  | gated (stage : StageRef)
  /-- The send failed, and the stage is unattributed. -/
  | unsent (stage : StageRef)
  | abandoning (tokens : List LeaseToken)
  | releasing (leases : List WorkTask)
  /-- `stop` is closed. -/
  | stopped
  | removed
  deriving DecidableEq

/-- `configSub`, with the locals of its `WorkStream`. -/
structure ConfigSub where
  ref : StreamRef
  kms : List KindVersion
  unready : List KindVersion
  maxInflight : Nat
  inflight : Nat
  slots : Nat
  haveSlot : Bool
  fanIns : List FanIn
  sent : List LeaseToken
  /-- History: every stage the stream set out to send. -/
  delivered : List StageRef
  loop : Loop
  deriving DecidableEq

inductive RouteFrame where
  | task (token : LeaseToken) (km : KindVersion)
  | complete (token : LeaseToken) (c : Completion)
  deriving DecidableEq

/-- `peerClient`. -/
structure Peer where
  ref : PeerRef
  memberId : String
  /-- Its context was cancelled. -/
  gone : Bool
  out : List RouteFrame
  deriving DecidableEq

/-- The goroutine that makes a send: a stream's receive loop, a stream's deferred `abandon`,
a route's receive loop, `onPeerGone`. -/
inductive Sender where
  | worker (stream : StreamRef)
  | teardown (stream : StreamRef)
  | route (peer : PeerRef)
  | departure (peer : PeerRef)
  deriving DecidableEq

/-- A send into the result channel of a stage, looked up but not yet made. -/
structure Wake where
  sender : Sender
  stage : StageRef
  completion : Completion
  deriving DecidableEq

/-- `fanoutExecutor`. -/
structure Fanout where
  mesh : Bool
  stages : List PendingStage
  byKind : KindVersion → List StageRef
  subscribers : KindVersion → Nat
  readySubscribers : KindVersion → Nat
  subs : List ConfigSub
  peers : List Peer
  wakes : List Wake

namespace Fanout

def new (mesh : Bool) : Fanout := ⟨mesh, [], fun _ => [], fun _ => 0, fun _ => 0, [], [], []⟩

variable (f : Fanout)

def stage? (ref : StageRef) : Option PendingStage := f.stages.find? (·.ref = ref)

def sub? (ref : StreamRef) : Option ConfigSub := f.subs.find? (·.ref = ref)

def peer? (ref : PeerRef) : Option Peer := f.peers.find? (·.ref = ref)

/-- `f.inflight[token]`. -/
def inflight? (token : LeaseToken) : Option PendingStage :=
  f.stages.find? fun ps => ps.registered && ps.token = token

def setStage (ref : StageRef) (g : PendingStage → PendingStage) : Fanout :=
  { f with stages := f.stages.map fun ps => if ps.ref = ref then g ps else ps }

def setWaiter (ref : StageRef) (w : Waiter) : Fanout :=
  f.setStage ref ({ · with waiter := w })

def setSub (ref : StreamRef) (g : ConfigSub → ConfigSub) : Fanout :=
  { f with subs := f.subs.map fun sub => if sub.ref = ref then g sub else sub }

def setPeer (ref : PeerRef) (g : Peer → Peer) : Fanout :=
  { f with peers := f.peers.map fun p => if p.ref = ref then g p else p }

/-- The goroutine has no send left to make. -/
def free (sender : Sender) : Bool := f.wakes.all (·.sender ≠ sender)

def wake (sender : Sender) (stage : StageRef) (c : Completion) : Fanout :=
  { f with wakes := f.wakes ++ [⟨sender, stage, c⟩] }

/-! ## Buffers -/

/-- The capacity of a buffer of `byKind`. -/
def buffered : Nat := 1024

def routeSendBuf : Nat := 4096

/-- `queueFor(km) <- ps`, if there is room. -/
def queue (ps : PendingStage) : Option Fanout :=
  if (f.byKind ps.km).length < buffered then
    some { f with byKind := fun km => if km = ps.km then f.byKind km ++ [ps.ref] else f.byKind km }
  else none

/-- `requeue`, where `stop` is open: it waits for room. -/
def requeue (ps : PendingStage) : Option Fanout :=
  if (f.inflight? ps.token).isSome then f.queue ps else some f

/-- A route's queue, where a frame is lost if there is no room. -/
def routeSend (peer : PeerRef) (frame : RouteFrame) : Fanout :=
  f.setPeer peer fun p => if p.out.length < routeSendBuf then { p with out := p.out ++ [frame] } else p

/-! ## Slots and tokens -/

def releaseSlot (stream : Option StreamRef) : Fanout :=
  stream.elim f fun ref => f.setSub ref fun sub => { sub with slots := sub.slots - 1 }

/-- One credit of the stream comes back. -/
def releaseCredit (stream : Option StreamRef) : Fanout :=
  stream.elim f fun ref => f.setSub ref fun sub => { sub with inflight := sub.inflight - 1 }

/-- What `drop` and `deliver` do under the lock, and the gate slot they give back after it. -/
def unregister (ps : PendingStage) : Fanout :=
  let f := f.setStage ps.ref fun ps =>
    { ps with
      registered := false
      gateSub := none
      sentBy := if ps.slotHeld then none else ps.sentBy
      slotHeld := false }
  let f := if ps.slotHeld then f.releaseCredit ps.sentBy else f
  f.releaseSlot ps.gateSub

def drop (token : LeaseToken) : Fanout := (f.inflight? token).elim f f.unregister

/-- `deliver` up to its send. -/
def deliver (sender : Sender) (token : LeaseToken) (c : Completion) : Fanout :=
  (f.inflight? token).elim f fun ps => (f.unregister ps).wake sender ps.ref c

def attributeToStream (ps : PendingStage) (stream : StreamRef) : Fanout × Bool :=
  if ps.foreign then (f, true)
  else if (f.inflight? ps.token).isNone then (f, false)
  else if ps.slotHeld then (f, true)
  else
    ((f.setStage ps.ref ({ · with sentBy := some stream, slotHeld := true })).setSub stream
      fun sub => { sub with inflight := sub.inflight + 1 }, true)

def claimGateSlot (ps : PendingStage) (stream : StreamRef) : Fanout :=
  f.setStage ps.ref ({ · with gateSub := some stream })

def unattributeFromStream (ps : PendingStage) : Fanout :=
  if ps.slotHeld then
    let f := f.setStage ps.ref ({ · with slotHeld := false, sentBy := none })
    (f.releaseCredit ps.sentBy).releaseSlot ps.sentBy
  else f

/-- The leases `releaseAbandoned` collects. -/
def releaseAbandoned (tokens : List LeaseToken) : List WorkTask :=
  tokens.filterMap fun token => (f.inflight? token).bind (·.lease)

/-- `onPeerGone` up to its sends. -/
def onPeerGone (peer : PeerRef) : Fanout :=
  { f with
    wakes := f.wakes ++ ((f.stages.filter fun ps => ps.registered && ps.pushedTo = some peer).map
      fun ps => ⟨.departure peer, ps.ref, .synthesized reasonPeerDeparted⟩) }

/-- `f.inflight[token] = ps`. -/
def register (ps : PendingStage) : Fanout :=
  { f with
    stages := (f.stages.map fun old =>
      if old.token = ps.token then { old with registered := false } else old) ++ [ps] }

/-- A new stage, parked by `dispatchStage` or by `onRouteTask`. -/
def parked (ref : StageRef) (token : LeaseToken) (km : KindVersion) (lease : Option WorkTask)
    (owner : Option PeerRef) : PendingStage where
  ref := ref
  token := token
  km := km
  foreign := owner.isSome
  lease := lease
  sentBy := none
  slotHeld := false
  gateSub := none
  pushedTo := none
  forwarded := none
  resultCh := none
  registered := true
  waiter := owner.elim .placing .forwarding

/-- `onRouteTask`; without room in the buffer the reference is dropped. -/
def onRouteTask (ref : StageRef) (owner : PeerRef) (token : LeaseToken) (km : KindVersion) : Fanout :=
  let ps := parked ref token km none (some owner)
  let f := f.register ps
  (f.queue ps).getD (f.setStage ref ({ · with registered := false }))

/-! ## Subscribers -/

def hasSubscriber (km : KindVersion) : Bool := 0 < f.readySubscribers km

def bump (count : KindVersion → Nat) (km : KindVersion) : KindVersion → Nat :=
  fun k => if k = km then count k + 1 else count k

def unbump (count : KindVersion → Nat) (km : KindVersion) : KindVersion → Nat :=
  fun k => if k = km then count k - 1 else count k

/-- `addSubscriber`, and the goroutines `WorkStream` starts. -/
def addSubscriber (ref : StreamRef) (kms : List KindVersion) (maxInflight : Nat) : Fanout :=
  { f with
    subscribers := kms.foldl bump f.subscribers
    readySubscribers := kms.foldl bump f.readySubscribers
    subs := f.subs ++ [{
      ref := ref
      kms := kms
      unready := []
      maxInflight := max 1 maxInflight
      inflight := 0
      slots := 0
      haveSlot := false
      fanIns := kms.map fun _ => .waiting
      sent := []
      delivered := []
      loop := .idle }] }

def removeSubscriber (sub : ConfigSub) : Fanout :=
  { f with
    subscribers := sub.kms.foldl unbump f.subscribers
    readySubscribers := (sub.kms.filter (· ∉ sub.unready)).foldl unbump f.readySubscribers
    subs := f.subs.map fun s => if s.ref = sub.ref then { s with loop := .removed } else s }

def setStreamReadiness (sub : ConfigSub) (km : KindVersion) (ready : Bool) : Fanout :=
  if km ∉ sub.kms then f
  else if ready && km ∈ sub.unready then
    { f.setSub sub.ref ({ · with unready := sub.unready.filter (· ≠ km) }) with
      readySubscribers := bump f.readySubscribers km }
  else if !ready && km ∉ sub.unready then
    { f.setSub sub.ref ({ · with unready := km :: sub.unready }) with
      readySubscribers := unbump f.readySubscribers km }
  else f

end Fanout

def ConfigSub.readyFor (sub : ConfigSub) (km : KindVersion) : Bool :=
  km ∈ sub.kms && km ∉ sub.unready

/-! ## One step -/

/-- What one goroutine of a broker does next. -/
inductive FanoutAction where
  -- `dispatchStage`
  | dispatch (stage : StageRef) (km : KindVersion) (lease : Option WorkTask)
  | look (stage : StageRef)
  | enqueue (stage : StageRef)
  | push (stage : StageRef) (peer : PeerRef)
  | retry (stage : StageRef)
  | notePushed (stage : StageRef)
  | receive (stage : StageRef)
  | peerDone (stage : StageRef)
  | contextDone (stage : StageRef)
  | leave (stage : StageRef)
  -- the forwarder of a foreign stage
  | sendHome (stage : StageRef)
  | ownerGone (stage : StageRef)
  -- `WorkStream`
  | subscribe (stream : StreamRef) (kms : List KindVersion) (maxInflight : Nat)
  | setReadiness (stream : StreamRef) (km : KindVersion) (ready : Bool)
  | pop (stream : StreamRef) (fanIn : Nat)
  | acquire (stream : StreamRef)
  | take (stream : StreamRef) (fanIn : Nat)
  | bounce (stream : StreamRef)
  | attributeTask (stream : StreamRef)
  | gate (stream : StreamRef)
  | sendTask (stream : StreamRef)
  | sendFailed (stream : StreamRef)
  | giveBack (stream : StreamRef)
  | complete (stream : StreamRef) (token : LeaseToken) (sc : StageComplete)
  | exit (stream : StreamRef)
  | abandon (stream : StreamRef)
  | collect (stream : StreamRef)
  | release (stream : StreamRef)
  | stop (stream : StreamRef)
  | stopFanIn (stream : StreamRef) (fanIn : Nat) (requeued : Bool)
  | remove (stream : StreamRef)
  -- the mesh
  | join (peer : PeerRef) (memberId : String)
  | sendFrame (peer : PeerRef)
  | routeTask (stage : StageRef) (owner : PeerRef) (token : LeaseToken) (km : KindVersion)
  | routeComplete (peer : PeerRef) (token : LeaseToken) (c : Completion)
  | cancelPeer (peer : PeerRef)
  | onPeerGone (peer : PeerRef)
  -- a send under way
  | send (wake : Wake)
  -- the reaction engine has recorded what the stage returned
  | recorded (stage : StageRef)
  deriving DecidableEq

namespace Fanout

variable (f : Fanout)

def atStage (ref : StageRef) (move : PendingStage → Option Fanout) : Fanout :=
  ((f.stage? ref).bind move).getD f

def atStream (ref : StreamRef) (move : ConfigSub → Option Fanout) : Fanout :=
  ((f.sub? ref).bind move).getD f

/-- The stage leaves its select with a result. -/
def leaveWith (ps : PendingStage) (result : Option Completion) : Fanout :=
  f.setStage ps.ref ({ · with resultCh := none, waiter := .leaving result })

/-- `forward` once `stop` is closed: a local stage goes back to its buffer, or is let go, since
`requeue` may see the closed channel first. -/
def stopFanIn (sub : ConfigSub) (i : Nat) (requeued : Bool) : Option Fanout :=
  let exited := f.setSub sub.ref fun s => { s with fanIns := s.fanIns.set i .exited }
  match sub.fanIns[i]? with
  | some .waiting => some exited
  | some (.offering ref) =>
    (f.stage? ref).bind fun ps =>
      if ps.foreign || !requeued then some exited else exited.requeue ps
  | _ => none

/-- No stage has the pointer, or the token drawn with it. -/
def unused (ref : StageRef) : Bool := f.stages.all fun ps => ps.ref ≠ ref && ps.token ≠ ref

def step : FanoutAction → Fanout
  | .dispatch ref km lease =>
    if f.unused ref then f.register (parked ref ref km lease none) else f
  | .look ref => f.atStage ref fun ps =>
    if ps.waiter ≠ .placing then none
    else if f.mesh && !f.hasSubscriber ps.km then some (f.setWaiter ref .seeking)
    else some (f.setWaiter ref .admitted)
  | .enqueue ref => f.atStage ref fun ps =>
    if ps.waiter ≠ .admitted then none else (f.setWaiter ref .queued).queue ps
  | .push ref peer => f.atStage ref fun ps =>
    if ps.waiter ≠ .seeking then none
    else (f.peer? peer).bind fun p =>
      if p.out.length < routeSendBuf then
        some ((f.setStage ref ({ · with waiter := .pushing peer, forwarded := some peer })).routeSend
          peer (.task ps.token ps.km))
      else none
  | .retry ref => f.atStage ref fun ps =>
    if ps.waiter ≠ .seeking then none else some (f.setWaiter ref .placing)
  | .notePushed ref => f.atStage ref fun ps =>
    match ps.waiter with
    | .pushing peer =>
      let noted := (f.inflight? ps.token).elim f fun held =>
        f.setStage held.ref ({ · with pushedTo := some peer })
      some (noted.setWaiter ref (.pushed peer))
    | _ => none
  | .receive ref => f.atStage ref fun ps =>
    match ps.waiter with
    | .queued | .pushed _ => ps.resultCh.map fun c => f.leaveWith ps (some c)
    | _ => none
  | .peerDone ref => f.atStage ref fun ps =>
    match ps.waiter with
    | .pushed peer => (f.peer? peer).bind fun p =>
      if p.gone then
        some (f.setWaiter ref (.leaving (some (.synthesized reasonPeerDeparted))))
      else none
    | _ => none
  | .contextDone ref => f.atStage ref fun ps =>
    match ps.waiter with
    | .seeking | .admitted | .queued | .pushed _ => some (f.setWaiter ref (.leaving none))
    | _ => none
  | .leave ref => f.atStage ref fun ps =>
    match ps.waiter with
    | .leaving result => some ((f.setWaiter ref (.returned result)).drop ps.token)
    | _ => none
  | .sendHome ref => f.atStage ref fun ps =>
    match ps.waiter with
    | .forwarding owner => ps.resultCh.map fun c =>
      (f.leaveWith ps none).routeSend owner (.complete ps.token c)
    | _ => none
  | .ownerGone ref => f.atStage ref fun ps =>
    match ps.waiter with
    | .forwarding owner => (f.peer? owner).bind fun p =>
      if p.gone then some (f.setWaiter ref (.leaving none)) else none
    | _ => none
  | .subscribe ref kms maxInflight =>
    if (f.sub? ref).isNone then f.addSubscriber ref kms maxInflight else f
  | .setReadiness stream km ready => f.atStream stream fun sub =>
    some (f.setStreamReadiness sub km ready)
  | .pop stream i => f.atStream stream fun sub =>
    match sub.fanIns[i]?, sub.kms[i]? with
    | some .waiting, some km =>
      match f.byKind km with
      | [] => none
      | ref :: rest => some ({ f with byKind := fun k => if k = km then rest else f.byKind k }.setSub
          stream fun s => { s with fanIns := s.fanIns.set i (.offering ref) })
    | _, _ => none
  | .acquire stream => f.atStream stream fun sub =>
    if sub.loop = .idle && !sub.haveSlot && sub.slots < sub.maxInflight then
      some (f.setSub stream fun s => { s with slots := s.slots + 1, haveSlot := true })
    else none
  | .take stream i => f.atStream stream fun sub =>
    match sub.fanIns[i]? with
    | some (.offering ref) =>
      if sub.loop = .idle && sub.haveSlot then
        some (f.setSub stream fun s =>
          { s with fanIns := s.fanIns.set i .waiting, loop := .taken ref })
      else none
    | _ => none
  | .bounce stream => f.atStream stream fun sub =>
    match sub.loop with
    | .taken ref => (f.stage? ref).bind fun ps =>
      if sub.readyFor ps.km then none
      else (f.setSub stream ({ · with loop := .idle })).requeue ps
    | _ => none
  | .attributeTask stream => f.atStream stream fun sub =>
    match sub.loop with
    | .taken ref => (f.stage? ref).bind fun ps =>
      if !sub.readyFor ps.km then none
      else
        let (f, delivered) := f.attributeToStream ps stream
        some (f.setSub stream ({ · with loop := if delivered then .attributed ref else .idle }))
    | _ => none
  | .gate stream => f.atStream stream fun sub =>
    match sub.loop with
    | .attributed ref => (f.stage? ref).map fun ps =>
      (f.claimGateSlot ps stream).setSub stream fun s =>
        { s with haveSlot := false, delivered := s.delivered ++ [ref], loop := .gated ref }
    | _ => none
  | .sendTask stream => f.atStream stream fun sub =>
    match sub.loop with
    | .gated ref => (f.stage? ref).map fun ps =>
      f.setSub stream fun s => { s with sent := s.sent ++ [ps.token], loop := .idle }
    | _ => none
  | .sendFailed stream => f.atStream stream fun sub =>
    match sub.loop with
    | .gated ref => (f.stage? ref).map fun ps =>
      (f.unattributeFromStream ps).setSub stream ({ · with loop := .unsent ref })
    | _ => none
  | .giveBack stream => f.atStream stream fun sub =>
    match sub.loop with
    | .unsent ref => (f.stage? ref).bind fun ps =>
      (f.setSub stream fun s => { s with loop := .abandoning s.sent }).requeue ps
    | _ => none
  | .complete stream token sc => f.atStream stream fun _ =>
    if f.free (.worker stream) then some (f.deliver (.worker stream) token ⟨sc, false⟩) else none
  | .exit stream => f.atStream stream fun sub =>
    if sub.loop = .idle then
      -- the slot of the loop itself goes back first
      some (f.setSub stream fun s =>
        { s with
          slots := if s.haveSlot then s.slots - 1 else s.slots
          haveSlot := false
          loop := .abandoning s.sent })
    else none
  | .abandon stream => f.atStream stream fun sub =>
    match sub.loop with
    | .abandoning (token :: rest) =>
      if f.free (.teardown stream) then
        let f := f.setSub stream ({ · with loop := .abandoning rest })
        some ((f.inflight? token).elim f fun ps =>
          f.wake (.teardown stream) ps.ref (.synthesized reasonWorkerStreamDropped))
      else none
    | _ => none
  | .collect stream => f.atStream stream fun sub =>
    match sub.loop with
    | .abandoning [] =>
      if f.free (.teardown stream) then
        some (f.setSub stream fun s => { s with loop := .releasing (f.releaseAbandoned s.sent) })
      else none
    | _ => none
  | .release stream => f.atStream stream fun sub =>
    match sub.loop with
    | .releasing (_ :: rest) => some (f.setSub stream ({ · with loop := .releasing rest }))
    | _ => none
  | .stop stream => f.atStream stream fun sub =>
    if sub.loop = .releasing [] then some (f.setSub stream ({ · with loop := .stopped })) else none
  | .stopFanIn stream i requeued => f.atStream stream fun sub =>
    if sub.loop = .stopped || sub.loop = .removed then f.stopFanIn sub i requeued else none
  | .remove stream => f.atStream stream fun sub =>
    if sub.loop = .stopped then some (f.removeSubscriber sub) else none
  | .join peer memberId =>
    if (f.peer? peer).isNone then { f with peers := f.peers ++ [⟨peer, memberId, false, []⟩] } else f
  | .sendFrame peer => f.setPeer peer fun p => { p with out := p.out.tail }
  | .routeTask ref owner token km =>
    if f.unused ref then f.onRouteTask ref owner token km else f
  | .routeComplete peer token c =>
    if f.free (.route peer) then f.deliver (.route peer) token c else f
  | .cancelPeer peer => f.setPeer peer ({ · with gone := true })
  | .onPeerGone peer =>
    if f.peers.any fun p => p.ref = peer && p.gone then f.onPeerGone peer else f
  | .send w =>
    if w ∈ f.wakes then
      { f with wakes := f.wakes.erase w }.setStage w.stage fun ps =>
        { ps with resultCh := ps.resultCh.or (some w.completion) }
    else f
  | .recorded ref => f.atStage ref fun ps =>
    match ps.waiter with
    | .returned _ => some (f.setWaiter ref (.returned none))
    | _ => none

end Fanout

end Converge.Kernel
