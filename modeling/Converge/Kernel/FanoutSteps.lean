/-
# Kernel.FanoutSteps -- what a step of a broker does to its stages

`Fanout.step` in the terms its invariants need.  A stage keeps its pointer, its token, its key
and its lease; it leaves the table of stages in flight and does not come back; its goroutine
goes on by one position (`Waiter.Moves`), gets a result from its channel or from a peer that is
gone, and only a push hands its reference to a peer (`Follows`).  New stages come from a dispatch
and from a route, under new pointers.

`step_evolves` says so of every step, once, with what becomes of the routes and of the list of
streams; what holds of all runs is derived from it.
-/
import Converge.Kernel.Fanout
import Converge.Theory.Transition

namespace Converge.Kernel

open Converge.Theory List Option

set_option autoImplicit false

variable {a : FanoutAction} {ps ps' : PendingStage} {g : PendingStage → PendingStage}
    {ref : StageRef} {stream : StreamRef} {w : Waiter}

/-! ## One goroutine -/

namespace Waiter

/-- One step of the goroutine of a stage. -/
inductive Moves : Waiter → Waiter → Prop where
  | seek : Moves .placing .seeking
  | admits : Moves .placing .admitted
  | retry : Moves .seeking .placing
  | push (peer : PeerRef) : Moves .seeking (.pushing peer)
  | enqueue : Moves .admitted .queued
  | note (peer : PeerRef) : Moves (.pushing peer) (.pushed peer)
  | leave (w : Waiter) (result : Option Completion) : Moves w (.leaving result)
  | return_ (result : Option Completion) : Moves (.leaving result) (.returned result)
  | record (result : Option Completion) : Moves (.returned result) (.returned none)

/-- In `dispatchStage`, before a buffer or a peer has the stage. -/
def unplaced : Waiter → Bool
  | .placing | .seeking | .admitted => true
  | _ => false

/-- In `dispatchStage`, in the select on the result channel. -/
def parked : Waiter → Bool
  | .queued | .pushed _ => true
  | _ => false

/-- Past the forwarder's select, or in it. -/
def forwards : Waiter → Bool
  | .forwarding _ | .leaving _ | .returned _ => true
  | _ => false

theorem Moves.unplaced {w' : Waiter} (moves : Moves w w') (after : w'.unplaced = true) : w.unplaced = true := by
  cases moves <;> first | rfl | cases after

theorem Moves.forwards {w' : Waiter} (moves : Moves w w') (before : w.forwards = true) :
    w'.forwards = true := by
  cases moves <;> first | rfl | cases before

end Waiter

/-- The stream whose fan-in or main loop takes the step. -/
def FanoutAction.stream? : FanoutAction → Option StreamRef
  | .pop stream _ | .acquire stream | .take stream _ | .bounce stream | .attributeTask stream | .gate stream
  | .sendTask stream | .sendFailed stream | .giveBack stream | .exit stream | .abandon stream
  | .collect stream | .release stream | .stop stream | .stopFanIn stream _ _ | .remove stream => some stream
  | _ => none

namespace Fanout

/-! ## One stage -/

/-- The same stage later.  Stages out of flight stay so. -/
structure Stays (ps ps' : PendingStage) : Prop where
  ref : ps'.ref = ps.ref
  token : ps'.token = ps.token
  km : ps'.km = ps.km
  foreign : ps'.foreign = ps.foreign
  lease : ps'.lease = ps.lease
  registered : ps'.registered = true → ps.registered = true

/-- Its goroutine has not moved. -/
structure Quiet (ps ps' : PendingStage) : Prop extends Stays ps ps' where
  waiter : ps'.waiter = ps.waiter
  forwarded : ps'.forwarded = ps.forwarded
  pushedTo : ps'.pushedTo = ps.pushedTo
  resultCh : ps'.resultCh = ps.resultCh

/-- Stage `ps'` is stage `ps` after step `a`. -/
structure Follows (a : FanoutAction) (ps ps' : PendingStage) : Prop extends Stays ps ps' where
  waiter : ps'.waiter = ps.waiter ∨ ps.waiter.Moves ps'.waiter
  parks : ps'.waiter.parked = true → ps'.waiter = ps.waiter ∨ a = .enqueue ps.ref ∨ a = .notePushed ps.ref
  pushes : ∀ peer, ps'.waiter = .pushing peer → ps'.waiter = ps.waiter ∨ a = .push ps.ref peer
  /-- It has the result it had, or none, or takes the one in its channel, or that of a peer that
  is gone. -/
  result : (ps'.waiter.result = ps.waiter.result ∨ ps'.waiter.result = none) ∨
    (a = .receive ps.ref ∧ ps'.waiter.result = ps.resultCh) ∨
      a = .peerDone ps.ref ∧ ps'.waiter.result = some (.synthesized reasonPeerDeparted)
  forwarded : ps'.forwarded = ps.forwarded ∨
    ∃ peer, a = .push ps.ref peer ∧ ps.waiter = .seeking ∧ ps'.forwarded = some peer ∧
      ps'.waiter.unplaced = false
  pushedTo : ps'.pushedTo = ps.pushedTo ∨ ∃ ref, a = .notePushed ref
  /-- Its channel is emptied as it leaves, and filled by a send. -/
  channel : ps'.resultCh = ps.resultCh ∨ ((∃ result, ps'.waiter = .leaving result) ∧ ps'.resultCh = none) ∨
    ∃ w, a = .send w ∧ w.stage = ps.ref ∧ ps'.resultCh = ps.resultCh.or (some w.completion)
  /-- Without a result only since its context ended, or a forwarder. -/
  ends : ps'.waiter = .leaving none →
    ps'.waiter = ps.waiter ∨ a = .contextDone ps.ref ∨ ps.waiter.forwards = true

theorem Stays.rfl : Stays ps ps :=
  ⟨Eq.refl _, Eq.refl _, Eq.refl _, Eq.refl _, Eq.refl _, id⟩

theorem Stays.trans {a b c : PendingStage} (first : Stays a b) (second : Stays b c) : Stays a c where
  ref := second.ref.trans first.ref
  token := second.token.trans first.token
  km := second.km.trans first.km
  foreign := second.foreign.trans first.foreign
  lease := second.lease.trans first.lease
  registered := first.registered ∘ second.registered

theorem Quiet.rfl : Quiet ps ps := ⟨.rfl, Eq.refl _, Eq.refl _, Eq.refl _, Eq.refl _⟩

theorem Quiet.trans {a b c : PendingStage} (first : Quiet a b) (second : Quiet b c) : Quiet a c where
  toStays := first.toStays.trans second.toStays
  waiter := second.waiter.trans first.waiter
  forwarded := second.forwarded.trans first.forwarded
  pushedTo := second.pushedTo.trans first.pushedTo
  resultCh := second.resultCh.trans first.resultCh

theorem Quiet.follows (quiet : Quiet ps ps') : Follows a ps ps' where
  toStays := quiet.toStays
  waiter := .inl quiet.waiter
  parks _ := .inl quiet.waiter
  pushes _ _ := .inl quiet.waiter
  result := .inl (.inl (by rw [quiet.waiter]))
  forwarded := .inl quiet.forwarded
  pushedTo := .inl quiet.pushedTo
  channel := .inl quiet.resultCh
  ends _ := .inl quiet.waiter

theorem Follows.then_quiet {ps'' : PendingStage} (first : Follows a ps ps')
    (second : Quiet ps' ps'') : Follows a ps ps'' where
  toStays := first.toStays.trans second.toStays
  waiter := second.waiter ▸ first.waiter
  parks := second.waiter ▸ first.parks
  pushes := second.waiter ▸ first.pushes
  result := second.waiter ▸ first.result
  forwarded := by
    rw [second.forwarded, second.waiter]
    exact first.forwarded
  pushedTo := second.pushedTo ▸ first.pushedTo
  channel := by
    rw [second.resultCh, second.waiter]
    exact first.channel
  ends := second.waiter ▸ first.ends

theorem Follows.turn (moves : ps.waiter.Moves w) (result : w.result = ps.waiter.result ∨ w.result = none)
    (parks : w.parked = true → a = .enqueue ps.ref ∨ a = .notePushed ps.ref)
    (pushes : ∀ peer, w ≠ .pushing peer)
    (ends : w = .leaving none → a = .contextDone ps.ref ∨ ps.waiter.forwards = true) :
    Follows a ps { ps with waiter := w } where
  toStays := ⟨rfl, rfl, rfl, rfl, rfl, id⟩
  waiter := .inr moves
  parks at_ := .inr (parks at_)
  pushes peer at_ := absurd at_ (pushes peer)
  result := .inl result
  forwarded := .inl rfl
  pushedTo := .inl rfl
  channel := .inl rfl
  ends at_ := .inr (ends at_)

theorem Follows.unplaced (follows : Follows a ps ps')
    (after : ps'.waiter.unplaced = true) : ps.waiter.unplaced = true := by
  rcases follows.waiter with same | moves
  · rw [← same]
    exact after
  · exact moves.unplaced after

theorem Follows.forwards (follows : Follows a ps ps')
    (before : ps.waiter.forwards = true) : ps'.waiter.forwards = true := by
  rcases follows.waiter with same | moves
  · rw [same]
    exact before
  · exact moves.forwards before

theorem Follows.buffered (follows : Follows a ps ps') (parked : ps'.waiter.parked = true)
    (full : ps.resultCh.isSome = true) : ps'.resultCh.isSome = true := by
  rcases follows.channel with same | ⟨⟨result, leaving⟩, -⟩ | ⟨w, -, -, sent⟩
  · rw [same]
    exact full
  · rw [leaving] at parked
    cases parked
  · rw [sent, isSome_or, full, Bool.true_or]

/-! ## The table of stages -/

variable {f f' f'' : Fanout} {token : LeaseToken}

/-- Both have the same stages, in the same order, and nothing happened to them. -/
def Keeps (f f' : Fanout) : Prop := List.Forall₂ Quiet f.stages f'.stages

theorem Keeps.of_eq (same : f'.stages = f.stages) : Keeps f f' := by
  unfold Keeps
  rw [same]
  exact forall₂_same.mpr fun _ _ => .rfl

theorem Keeps.rfl : Keeps f f := .of_eq (Eq.refl _)

theorem Keeps.trans (first : Keeps f f') (second : Keeps f' f'') : Keeps f f'' :=
  forall₂_comp (R := Quiet) (S := Quiet) (fun _ _ _ => Quiet.trans) first second

theorem Keeps.follows (keeps : Keeps f f') : List.Forall₂ (Follows a) f.stages f'.stages :=
  keeps.imp fun _ _ quiet => quiet.follows

theorem Keeps.after (first : List.Forall₂ (Follows a) f.stages f'.stages)
    (second : Keeps f' f'') : List.Forall₂ (Follows a) f.stages f''.stages :=
  forall₂_comp (R := Follows a) (S := Quiet) (fun _ _ _ => Follows.then_quiet) first second

theorem setStage_forall {R : PendingStage → PendingStage → Prop} (idle : ∀ ps, R ps ps)
    (changed : ∀ ps ∈ f.stages, ps.ref = ref → R ps (g ps)) :
    List.Forall₂ R f.stages (f.setStage ref g).stages := by
  rw [setStage, forall₂_map_right_iff, forall₂_same]
  intro ps here
  split
  next same => exact changed ps here same
  next => exact idle ps

theorem setStage_keeps (changed : ∀ ps, Quiet ps (g ps)) : Keeps f (f.setStage ref g) :=
  setStage_forall (fun _ => .rfl) fun ps _ _ => changed ps

/-- Pointers are not shared. -/
def Distinct (f : Fanout) : Prop := (f.stages.map (·.ref)).Nodup

theorem stage?_ref (found : f.stage? ref = some ps) : ps ∈ f.stages ∧ ps.ref = ref :=
  ⟨mem_of_find?_eq_some found, by simpa using find?_some found⟩

theorem Distinct.eq (distinct : f.Distinct)
    (found : f.stage? ref = some ps) (here : ps' ∈ f.stages) (same : ps'.ref = ref) : ps' = ps := by
  obtain ⟨there, hit⟩ := stage?_ref found
  exact inj_on_of_nodup_map distinct here there (same.trans hit.symm)

theorem Distinct.stage? (distinct : f.Distinct) (here : ps ∈ f.stages) : f.stage? ps.ref = some ps := by
  have some_ : (f.stage? ps.ref).isSome = true := by
    rw [Fanout.stage?, find?_isSome]
    exact ⟨ps, here, decide_eq_true rfl⟩
  obtain ⟨found, seen⟩ := isSome_iff_exists.mp some_
  rw [seen, distinct.eq seen here rfl]

theorem sub?_ref {sub : ConfigSub} (found : f.sub? stream = some sub) : sub ∈ f.subs ∧ sub.ref = stream :=
  ⟨mem_of_find?_eq_some found, by simpa using find?_some found⟩

theorem setStage_follows (distinct : f.Distinct) (found : f.stage? ref = some ps) (turn : Follows a ps (g ps)) :
    List.Forall₂ (Follows a) f.stages (f.setStage ref g).stages :=
  setStage_forall (fun _ => Quiet.rfl.follows) fun _ here same => distinct.eq found here same ▸ turn

/-! ## The functions of the broker -/

/-- The stream, but for its counters and its readiness. -/
structure SameStream (sub sub' : ConfigSub) : Prop where
  ref : sub'.ref = sub.ref
  fanIns : sub'.fanIns = sub.fanIns
  sent : sub'.sent = sub.sent
  delivered : sub'.delivered = sub.delivered
  loop : sub'.loop = sub.loop

theorem SameStream.rfl {sub : ConfigSub} : SameStream sub sub :=
  ⟨Eq.refl _, Eq.refl _, Eq.refl _, Eq.refl _, Eq.refl _⟩

theorem SameStream.trans {a b c : ConfigSub} (first : SameStream a b) (second : SameStream b c) :
    SameStream a c where
  ref := second.ref.trans first.ref
  fanIns := second.fanIns.trans first.fanIns
  sent := second.sent.trans first.sent
  delivered := second.delivered.trans first.delivered
  loop := second.loop.trans first.loop

/-- The buffers of `f` and more. -/
def Grows (f : Fanout) (byKind : KindVersion → List StageRef) : Prop :=
  ∀ km, ∀ ref ∈ f.byKind km, ref ∈ byKind km

/-- No stream moves, and no send is made or set out for. -/
structure Still (f f' : Fanout) : Prop where
  byKind : f.Grows f'.byKind
  subs : List.Forall₂ SameStream f.subs f'.subs
  wakes : f'.wakes = f.wakes

/-- Slots, credits, readiness and the table of stages in flight: no goroutine moves. -/
structure Books (f f' : Fanout) : Prop extends Still f f' where
  stages : Keeps f f'
  peers : f'.peers = f.peers

theorem Still.rfl : Still f f :=
  ⟨fun _ _ h => h, forall₂_same.mpr fun _ _ => .rfl, Eq.refl _⟩

theorem Books.rfl : Books f f := ⟨.rfl, .rfl, Eq.refl _⟩

theorem Books.trans (first : Books f f') (second : Books f' f'') : Books f f'' where
  byKind km ref here := second.byKind km ref (first.byKind km ref here)
  subs := forall₂_comp (R := SameStream) (S := SameStream) (fun _ _ _ => SameStream.trans) first.subs second.subs
  peers := second.peers.trans first.peers
  wakes := second.wakes.trans first.wakes
  stages := first.stages.trans second.stages

theorem setStage_books (quiet : ∀ ps, Quiet ps (g ps)) : Books f (f.setStage ref g) :=
  { Books.rfl with stages := setStage_keeps quiet }

theorem setSub_books {g : ConfigSub → ConfigSub}
    (same : ∀ sub, SameStream sub (g sub)) : Books f (f.setSub stream g) := by
  refine { Books.rfl with subs := ?_ }
  rw [setSub, forall₂_map_right_iff, forall₂_same]
  intro sub _
  split
  · exact same sub
  · exact .rfl

theorem releaseSlot_books (stream : Option StreamRef) : Books f (f.releaseSlot stream) := by
  cases stream with
  | none => exact .rfl
  | some stream => exact setSub_books fun _ => ⟨rfl, rfl, rfl, rfl, rfl⟩

theorem releaseCredit_books (stream : Option StreamRef) : Books f (f.releaseCredit stream) := by
  cases stream with
  | none => exact .rfl
  | some stream => exact setSub_books fun _ => ⟨rfl, rfl, rfl, rfl, rfl⟩

theorem quiet_unregistered (same : ps' = { ps with
      registered := false
      gateSub := ps'.gateSub
      sentBy := ps'.sentBy
      slotHeld := ps'.slotHeld }) : Quiet ps ps' := by
  rw [same]
  exact ⟨⟨rfl, rfl, rfl, rfl, rfl, nofun⟩, rfl, rfl, rfl, rfl⟩

theorem unregister_books (ps : PendingStage) : Books f (f.unregister ps) := by
  refine Books.trans ?_ (releaseSlot_books _)
  split
  · exact (setStage_books fun _ => quiet_unregistered rfl).trans (releaseCredit_books _)
  · exact setStage_books fun _ => quiet_unregistered rfl

theorem unregister_stages (ps : PendingStage) : (f.unregister ps).stages = (f.setStage ps.ref fun ps =>
      { ps with
        registered := false
        gateSub := none
        sentBy := if ps.slotHeld then none else ps.sentBy
        slotHeld := false }).stages := by
  have slot (g : Fanout) (stream : Option StreamRef) : (g.releaseSlot stream).stages = g.stages := by
    cases stream <;> rfl
  have credit (g : Fanout) (stream : Option StreamRef) : (g.releaseCredit stream).stages = g.stages := by
    cases stream <;> rfl
  unfold unregister
  rw [slot]
  split
  · rw [credit]
  · rfl

theorem drop_books (token : LeaseToken) : Books f (f.drop token) := by
  unfold drop
  cases f.inflight? token with
  | none => exact .rfl
  | some ps => exact unregister_books ps

theorem quiet_slots (same : ps' = { ps with
      gateSub := ps'.gateSub
      sentBy := ps'.sentBy
      slotHeld := ps'.slotHeld }) : Quiet ps ps' := by
  rw [same]
  exact ⟨⟨rfl, rfl, rfl, rfl, rfl, id⟩, rfl, rfl, rfl, rfl⟩

theorem attributeToStream_books (ps : PendingStage) (stream : StreamRef) :
    Books f (f.attributeToStream ps stream).1 := by
  unfold attributeToStream
  split
  · exact .rfl
  · split
    · exact .rfl
    · split
      · exact .rfl
      · exact (setStage_books fun _ => quiet_slots rfl).trans (setSub_books fun _ => ⟨rfl, rfl, rfl, rfl, rfl⟩)

theorem unattributeFromStream_books (ps : PendingStage) : Books f (f.unattributeFromStream ps) := by
  unfold unattributeFromStream
  split
  · exact ((setStage_books fun _ => quiet_slots rfl).trans (releaseCredit_books _)).trans (releaseSlot_books _)
  · exact .rfl

theorem setStreamReadiness_books (sub : ConfigSub) (km : KindVersion) (ready : Bool) :
    Books f (f.setStreamReadiness sub km ready) := by
  have only (unready : List KindVersion) : Books f (f.setSub sub.ref ({ · with unready := unready })) :=
    setSub_books fun _ => ⟨rfl, rfl, rfl, rfl, rfl⟩
  unfold setStreamReadiness
  split
  · exact .rfl
  · split
    · exact { only (sub.unready.filter (· ≠ km)) with }
    · split
      · exact { only (km :: sub.unready) with }
      · exact .rfl

theorem inflight?_spec (found : f.inflight? token = some ps) :
    ps ∈ f.stages ∧ ps.registered = true ∧ ps.token = token := by
  have hit := find?_some found
  simp only [Bool.and_eq_true, decide_eq_true_eq] at hit
  exact ⟨mem_of_find?_eq_some found, hit⟩

/-- A send is to a stage in flight. -/
def Wakes (f : Fanout) (w : Wake) : Prop := ∃ ps ∈ f.stages, ps.registered = true ∧ w.stage = ps.ref

/-- A delivery: the stage in flight, if there is one, is woken. -/
theorem deliver_spec (sender : Sender) (token : LeaseToken) (c : Completion) :
    ∃ g more, Books f g ∧ (∀ w ∈ more, f.Wakes w) ∧
      f.deliver sender token c = { g with wakes := g.wakes ++ more } := by
  unfold deliver
  cases found : f.inflight? token with
  | none => exact ⟨f, [], .rfl, nofun, by rw [append_nil]; rfl⟩
  | some ps =>
    obtain ⟨here, registered, -⟩ := inflight?_spec found
    refine ⟨_, _, unregister_books ps, fun w mem => ?_, rfl⟩
    obtain rfl := mem_singleton.mp mem
    exact ⟨ps, here, registered, rfl⟩

theorem queue_spec (done : f.queue ps = some f') :
    ∃ byKind, f' = { f with byKind := byKind } ∧ f.Grows byKind ∧ ps.ref ∈ byKind ps.km := by
  unfold queue at done
  split at done <;> cases done
  refine ⟨_, rfl, fun km ref here => ?_, ?_⟩
  · dsimp only
    split
    · exact mem_append_left _ here
    · exact here
  · rw [if_pos rfl]
    exact mem_concat_self

theorem requeue_spec (done : f.requeue ps = some f') :
    ∃ byKind, f' = { f with byKind := byKind } ∧ f.Grows byKind ∧
      ((f.inflight? ps.token).isSome = true → ps.ref ∈ byKind ps.km) := by
  unfold requeue at done
  split at done
  · obtain ⟨byKind, same, grows, queued⟩ := queue_spec done
    exact ⟨byKind, same, grows, fun _ => queued⟩
  next out =>
    cases done
    exact ⟨f.byKind, rfl, fun _ _ h => h, fun here => absurd here out⟩

/-! ## One step -/

/-- A stage that step `a` makes. -/
structure Made (f : Fanout) (a : FanoutAction) (ps : PendingStage) : Prop where
  unused : f.unused ps.ref = true
  waits : ps.waiter.result = none
  forwarded : ps.forwarded = none
  from_ : (a = .dispatch ps.ref ps.km ps.lease ∧ ps.token = ps.ref ∧ ps.foreign = false ∧
      ps.waiter = .placing) ∨
    ∃ owner, a = .routeTask ps.ref owner ps.token ps.km ∧ ps.foreign = true ∧ ps.lease = none ∧
      ps.waiter = .forwarding owner

/-- A route after step `a`: the frames it had, less those sent, and at most one more, which a push
or a finished foreign stage queues. -/
structure RouteFollows (a : FanoutAction) (stages stages' : List PendingStage) (p p' : Peer) : Prop where
  ref : p'.ref = p.ref
  memberId : p'.memberId = p.memberId
  gone : p.gone = true → p'.gone = true
  out : p'.out = p.out ∨ (a = .sendFrame p.ref ∧ p'.out = p.out.tail) ∨
    (∃ ps ∈ stages, a = .push ps.ref p.ref ∧ ps.waiter = .seeking ∧
      { ps with waiter := .pushing p.ref, forwarded := some p.ref } ∈ stages' ∧
      p'.out = p.out ++ [.task ps.token ps.km]) ∨
    ∃ token c, p'.out = p.out ++ [.complete token c]

theorem RouteFollows.rfl {p : Peer} {stages stages' : List PendingStage} : RouteFollows a stages stages' p p :=
  ⟨Eq.refl _, Eq.refl _, id, .inl (Eq.refl _)⟩

def streams (f : Fanout) : List StreamRef := f.subs.map (·.ref)

/-- The stages there were, and at most one more, which takes its token from any other. -/
def NextStages (a : FanoutAction) (f f' : Fanout) : Prop :=
  ∃ kept made, f'.stages = kept ++ made ∧ List.Forall₂ (Follows a) f.stages kept ∧
    made.length ≤ 1 ∧ ∀ ps ∈ made, Made f a ps ∧ ∀ ps' ∈ kept, ps'.registered = true → ps'.token ≠ ps.token

theorem NextStages.of_follows (follows : List.Forall₂ (Follows a) f.stages f'.stages) : NextStages a f f' :=
  ⟨_, [], (append_nil _).symm, follows, Nat.zero_le _, fun _ h => nomatch h⟩

/-- What step `a` makes of `f`: the next stages; the routes there were, and one more on a join; the
streams there were, and one more on a subscription.  A pop takes from a buffer, one stream moves,
and one send is made. -/
structure Evolves (a : FanoutAction) (f f' : Fanout) : Prop where
  stages : NextStages a f f'
  routes : ∃ kept made, f'.peers = kept ++ made ∧ List.Forall₂ (RouteFollows a f.stages f'.stages) f.peers kept ∧
    (made = [] ∨ ∃ ref memberId, a = .join ref memberId ∧ f.peer? ref = none ∧
      made = [⟨ref, memberId, false, []⟩])
  streams : f'.streams = f.streams ∨ ∃ ref, f.sub? ref = none ∧ f'.streams = f.streams ++ [ref]
  byKind : f.Grows f'.byKind ∨ a.stream?.isSome = true
  subs : ∀ sub ∈ f.subs, (∃ sub' ∈ f'.subs, SameStream sub sub') ∨ a.stream? = some sub.ref
  wakes : ∀ w ∈ f.wakes, w ∈ f'.wakes ∨ a = .send w
  woken : ∀ w ∈ f'.wakes, w ∈ f.wakes ∨ f.Wakes w

theorem routes_of_eq (same : f'.peers = f.peers) :
    List.Forall₂ (RouteFollows a f.stages f'.stages) f.peers f'.peers := by
  rw [same]
  exact forall₂_same.mpr fun _ _ => .rfl

theorem Still.streams (still : Still f f') : f'.streams = f.streams :=
  forall₂_map_eq (fun _ _ same => same.ref) still.subs

theorem Evolves.of_still (stages : NextStages a f f')
    (routes : List.Forall₂ (RouteFollows a f.stages f'.stages) f.peers f'.peers) (still : Still f f') :
    Evolves a f f' where
  stages := stages
  routes := ⟨_, [], (append_nil _).symm, routes, .inl rfl⟩
  streams := .inl still.streams
  byKind := .inl still.byKind
  subs _ here := .inl (forall₂_left still.subs here)
  wakes _ here := .inl (still.wakes ▸ here)
  woken _ after := .inl (still.wakes ▸ after)

theorem Books.evolves (books : Books f f') : Evolves a f f' :=
  .of_still (.of_follows books.stages.follows) (routes_of_eq books.peers) books.toStill

theorem Evolves.rfl : Evolves a f f := Books.rfl.evolves

theorem Evolves.turned (distinct : f.Distinct) (found : f.stage? ref = some ps) (turn : Follows a ps (g ps)) :
    Evolves a f (f.setStage ref g) :=
  .of_still (.of_follows (setStage_follows distinct found turn)) (routes_of_eq (Eq.refl _))
    { Still.rfl (f := f) with }

theorem Evolves.waking {more : List Wake} (evolves : Evolves a f f') (woken : ∀ w ∈ more, f.Wakes w) :
    Evolves a f { f' with wakes := f'.wakes ++ more } :=
  { evolves with
    wakes := fun w here => (evolves.wakes w here).imp_left (mem_append_left _)
    woken := fun w after => (mem_append.mp after).elim (evolves.woken w) fun new => .inr (woken w new) }

theorem setSub_streams {g : ConfigSub → ConfigSub} (keeps : ∀ sub, (g sub).ref = sub.ref) :
    (f.setSub stream g).streams = f.streams := by
  unfold Fanout.streams setSub
  rw [List.map_map]
  refine List.map_congr_left fun sub _ => ?_
  rw [Function.comp_apply]
  split
  · exact keeps sub
  · rfl

theorem Books.then_setSub (books : Books f f') {g : ConfigSub → ConfigSub}
    {byKind : KindVersion → List StageRef} (mine : a.stream? = some stream)
    (keeps : ∀ sub, (g sub).ref = sub.ref) :
    Evolves a f { f'.setSub stream g with byKind := byKind } where
  stages := .of_follows books.stages.follows
  routes := ⟨_, [], (append_nil _).symm, routes_of_eq books.peers, .inl (Eq.refl _)⟩
  streams := .inl ((setSub_streams keeps).trans books.streams)
  byKind := .inr (by rw [mine]; rfl)
  subs sub here := by
    obtain ⟨sub', there, same⟩ := forall₂_left books.subs here
    by_cases hit : sub'.ref = stream
    · exact .inr (by rw [mine, ← hit, same.ref])
    · exact .inl ⟨sub', mem_map.mpr ⟨sub', there, if_neg hit⟩, same⟩
  wakes _ here := .inl (books.wakes ▸ here)
  woken _ after := .inl (books.wakes ▸ after)

theorem requeue_evolves {g : ConfigSub → ConfigSub} (done : (f.setSub stream g).requeue ps = some f')
    (mine : a.stream? = some stream) (keeps : ∀ sub, (g sub).ref = sub.ref) : Evolves a f f' := by
  obtain ⟨byKind, rfl, -⟩ := requeue_spec done
  exact Books.rfl.then_setSub mine keeps

theorem Evolves.back (evolves : Evolves a f f')
    (after : ps' ∈ f'.stages) : (∃ ps ∈ f.stages, Follows a ps ps') ∨ Made f a ps' := by
  obtain ⟨kept, made, same, follows, -, new⟩ := evolves.stages
  rw [same] at after
  rcases mem_append.mp after with old | fresh
  · exact .inl (forall₂_right follows old)
  · exact .inr (new ps' fresh).1

theorem Evolves.forth (evolves : Evolves a f f')
    (here : ps ∈ f.stages) : ∃ ps' ∈ f'.stages, Follows a ps ps' := by
  obtain ⟨kept, made, same, follows, -, -⟩ := evolves.stages
  obtain ⟨ps', old, step⟩ := forall₂_left follows here
  exact ⟨ps', same ▸ mem_append_left _ old, step⟩

theorem Evolves.route_back (evolves : Evolves a f f') {p' : Peer} (after : p' ∈ f'.peers) :
    (∃ p ∈ f.peers, RouteFollows a f.stages f'.stages p p') ∨ a = .join p'.ref p'.memberId ∧ p'.out = [] := by
  obtain ⟨kept, made, all, follows, joined⟩ := evolves.routes
  rw [all] at after
  rcases mem_append.mp after with old | new
  · exact .inl (forall₂_right follows old)
  · rcases joined with rfl | ⟨ref, memberId, rfl, -, rfl⟩
    · cases new
    · obtain rfl := mem_singleton.mp new
      exact .inr ⟨Eq.refl _, Eq.refl _⟩

theorem Evolves.route_forth (evolves : Evolves a f f') {p : Peer} (here : p ∈ f.peers) :
    ∃ p' ∈ f'.peers, p'.ref = p.ref ∧ p'.memberId = p.memberId ∧ (p.gone = true → p'.gone = true) := by
  obtain ⟨kept, made, all, follows, -⟩ := evolves.routes
  obtain ⟨p', old, step⟩ := forall₂_left follows here
  exact ⟨p', all ▸ mem_append_left _ old, step.ref, step.memberId, step.gone⟩

theorem not_unused (here : ps ∈ f.stages) (new : f.unused ref = true) : ps.ref ≠ ref ∧ ps.token ≠ ref := by
  have all := all_eq_true.mp new ps here
  simpa using all

theorem Evolves.distinct (evolves : Evolves a f f') (distinct : f.Distinct) : f'.Distinct := by
  obtain ⟨kept, made, same, follows, one, new⟩ := evolves.stages
  have refs : kept.map (·.ref) = f.stages.map (·.ref) :=
    forall₂_map_eq (fun _ _ step => step.ref) follows
  unfold Distinct
  rw [same, map_append, refs, nodup_append]
  refine ⟨distinct, ?_, ?_⟩
  · cases made with
    | nil => exact nodup_nil
    | cons ps rest =>
      obtain rfl : rest = [] := eq_nil_of_length_eq_zero (by simpa using one)
      exact nodup_singleton _
  · intro ref old ref' fresh
    obtain ⟨ps, here, rfl⟩ := mem_map.mp old
    obtain ⟨ps', made, rfl⟩ := mem_map.mp fresh
    exact (not_unused here (new ps' made).1.unused).1

theorem Evolves.distinct_routes (evolves : Evolves a f f')
    (distinct : (f.peers.map (·.ref)).Nodup) : (f'.peers.map (·.ref)).Nodup := by
  obtain ⟨kept, made, all, follows, joined⟩ := evolves.routes
  have refs : kept.map (·.ref) = f.peers.map (·.ref) := forall₂_map_eq (fun _ _ step => step.ref) follows
  rw [all, map_append, refs]
  rcases joined with rfl | ⟨ref, memberId, -, new, rfl⟩
  · rw [map_nil, append_nil]
    exact distinct
  · refine nodup_append.mpr ⟨distinct, nodup_singleton _, ?_⟩
    intro other listed this single
    obtain ⟨p, here, rfl⟩ := mem_map.mp listed
    obtain rfl := mem_singleton.mp single
    simpa using find?_eq_none.mp new p here

theorem Evolves.distinct_streams (evolves : Evolves a f f') (distinct : f.streams.Nodup) :
    f'.streams.Nodup := by
  rcases evolves.streams with same | ⟨ref, new, more⟩
  · rw [same]
    exact distinct
  · rw [more]
    refine nodup_append.mpr ⟨distinct, nodup_singleton _, ?_⟩
    intro other listed this single
    obtain ⟨sub, here, rfl⟩ := mem_map.mp listed
    obtain rfl := mem_singleton.mp single
    simpa using find?_eq_none.mp new sub here

theorem atStage_evolves {move : PendingStage → Option Fanout}
    (moves : ∀ ps f', f.stage? ref = some ps → move ps = some f' → Evolves a f f') :
    Evolves a f (f.atStage ref move) :=
  getD_bind_cases .rfl moves

theorem atStream_evolves {ref : StreamRef} {move : ConfigSub → Option Fanout}
    (moves : ∀ sub f', sub.ref = ref → move sub = some f' → Evolves a f f') : Evolves a f (f.atStream ref move) :=
  getD_bind_cases .rfl fun sub f' found => moves sub f' (sub?_ref found).2

theorem setPeer_forall {R : Peer → Peer → Prop} {ref : PeerRef} {g : Peer → Peer} (idle : ∀ p, R p p)
    (changed : ∀ p ∈ f.peers, p.ref = ref → R p (g p)) : List.Forall₂ R f.peers (f.setPeer ref g).peers := by
  rw [setPeer, forall₂_map_right_iff, forall₂_same]
  intro p here
  split
  next same => exact changed p here same
  next => exact idle p

theorem register_split (ps : PendingStage) : ∃ kept, (f.register ps).stages = kept ++ [ps] ∧
    List.Forall₂ Quiet f.stages kept ∧ ∀ ps' ∈ kept, ps'.registered = true → ps'.token ≠ ps.token := by
  refine ⟨_, rfl, ?_, ?_⟩
  · rw [forall₂_map_right_iff, forall₂_same]
    intro old _
    split
    · exact quiet_unregistered rfl
    · exact .rfl
  · intro ps' listed registered
    obtain ⟨old, -, rfl⟩ := mem_map.mp listed
    split at registered
    · cases registered
    next other =>
      rw [if_neg other]
      exact other

/-- A foreign stage is parked and buffered, or out of flight again where there is no room. -/
theorem onRouteTask_spec (ref : StageRef) (owner : PeerRef) (token : LeaseToken) (km : KindVersion) :
    ∃ byKind, f.Grows byKind ∧ ∃ stages,
      f.onRouteTask ref owner token km = { f with byKind := byKind, stages := stages } := by
  unfold onRouteTask
  simp only
  cases done : (f.register (parked ref token km none (some owner))).queue
      (parked ref token km none (some owner)) with
  | none => exact ⟨f.byKind, fun _ _ h => h, _, rfl⟩
  | some f' =>
    obtain ⟨byKind, rfl, grows, -⟩ := queue_spec done
    exact ⟨byKind, grows, _, rfl⟩

theorem onRouteTask_evolves {owner : PeerRef} {km : KindVersion} (new : f.unused ref = true) :
    Evolves (.routeTask ref owner token km) f (f.onRouteTask ref owner token km) := by
  obtain ⟨byKind, grows, stages, shape⟩ := onRouteTask_spec ref owner token km
  refine .of_still ?_ (routes_of_eq (by rw [shape])) (by rw [shape]; exact { Still.rfl with byKind := grows })
  obtain ⟨kept, same, quiet, apart⟩ := register_split (parked ref token km none (some owner))
  unfold onRouteTask
  simp only
  cases done : (f.register (parked ref token km none (some owner))).queue
      (parked ref token km none (some owner)) with
  | some f' =>
    obtain ⟨_, rfl, -⟩ := queue_spec done
    refine ⟨kept, [parked ref token km none (some owner)], same, quiet.imp fun _ _ => Quiet.follows,
      Nat.le_refl 1, ?_⟩
    intro ps listed
    obtain rfl := mem_singleton.mp listed
    exact ⟨⟨new, rfl, rfl, .inr ⟨owner, rfl, rfl, rfl, rfl⟩⟩, apart⟩
  | none =>
    -- no room: out of flight again
    let unregister (ps : PendingStage) := if ps.ref = ref then { ps with registered := false } else ps
    have out (ps : PendingStage) : Quiet ps (unregister ps) := by
      unfold unregister
      split
      · exact quiet_unregistered rfl
      · exact .rfl
    refine ⟨kept.map unregister, [{ parked ref token km none (some owner) with registered := false }],
      ?_, ?_, Nat.le_refl 1, ?_⟩
    · rw [setStage, same]
      simp [parked, unregister]
    · refine List.Forall₂.imp (fun _ _ => Quiet.follows) (forall₂_comp (R := Quiet) (S := Quiet)
        (fun _ _ _ => Quiet.trans) quiet ?_)
      exact forall₂_map_right_iff.mpr (forall₂_same.mpr fun ps _ => out ps)
    · intro ps listed
      obtain rfl := mem_singleton.mp listed
      refine ⟨⟨new, rfl, rfl, .inr ⟨owner, rfl, rfl, rfl, rfl⟩⟩, fun ps' listed' registered => ?_⟩
      obtain ⟨old, mem, rfl⟩ := mem_map.mp listed'
      rw [(out old).token]
      exact apart old mem ((out old).registered registered)

theorem notePushed_follows (distinct : f.Distinct) {peer : PeerRef}
    (found : f.stage? ref = some ps) (pushing : ps.waiter = .pushing peer) (held : PendingStage) :
    List.Forall₂ (Follows (.notePushed ref)) f.stages
      ((f.setStage held.ref ({ · with pushedTo := some peer })).setWaiter ref (.pushed peer)).stages := by
  show List.Forall₂ _ f.stages ((f.stages.map _).map _)
  rw [List.map_map, List.forall₂_map_right_iff, List.forall₂_same]
  intro ps' here
  have noted (to_ : Option PeerRef) {w : Waiter}
      (turn : w = ps'.waiter ∨ w = .pushed peer ∧ ps'.waiter = .pushing peer ∧ ps'.ref = ref) :
      Follows (.notePushed ref) ps' { ps' with pushedTo := to_, waiter := w } := by
    refine ⟨⟨rfl, rfl, rfl, rfl, rfl, id⟩, ?_, ?_, ?_, ?_, .inl rfl, .inr ⟨ref, rfl⟩, .inl rfl, ?_⟩
    · rcases turn with rfl | ⟨rfl, before, -⟩
      · exact .inl rfl
      · exact .inr (before ▸ .note peer)
    · rcases turn with rfl | ⟨rfl, -, same⟩
      · exact fun _ => .inl rfl
      · exact fun _ => .inr (.inr (by rw [same]))
    · rcases turn with rfl | ⟨rfl, -⟩
      · exact fun _ _ => .inl rfl
      · exact nofun
    · rcases turn with rfl | ⟨rfl, -⟩
      · exact .inl (.inl rfl)
      · exact .inl (.inr rfl)
    · rcases turn with rfl | ⟨rfl, -⟩
      · exact fun _ => .inl rfl
      · exact nofun
  have mine (same : ps'.ref = ref) : ps'.waiter = .pushing peer ∧ ps'.ref = ref := by
    refine ⟨?_, same⟩
    rw [distinct.eq found here same, pushing]
  rw [Function.comp_apply]
  by_cases hit : ps'.ref = held.ref <;> by_cases same : ps'.ref = ref
  · rw [if_pos hit, if_pos same]
    exact noted (some peer) (.inr ⟨rfl, mine same⟩)
  · rw [if_pos hit, if_neg same]
    exact noted (some peer) (.inl rfl)
  · rw [if_neg hit, if_pos same]
    exact noted ps'.pushedTo (.inr ⟨rfl, mine same⟩)
  · rw [if_neg hit, if_neg same]
    exact Quiet.rfl.follows

/-- **One step of a broker.** -/
theorem step_evolves (distinct : f.Distinct) (a : FanoutAction) : Evolves a f (f.step a) := by
  cases a with
  | dispatch ref km lease =>
    simp only [step]
    split
    next new =>
      obtain ⟨kept, same, quiet, apart⟩ := register_split (parked ref ref km lease none)
      refine .of_still ⟨kept, [_], same, quiet.imp fun _ _ => Quiet.follows, Nat.le_refl 1, ?_⟩
        (routes_of_eq rfl) { Still.rfl with }
      intro ps listed
      obtain rfl := mem_singleton.mp listed
      exact ⟨⟨new, rfl, rfl, .inl ⟨rfl, rfl, rfl, rfl⟩⟩, apart⟩
    next => exact .rfl
  | look ref =>
    refine atStage_evolves fun ps f' found done => ?_
    split at done
    · cases done
    next placing =>
      rw [not_not] at placing
      split at done <;> cases done
      · exact .turned distinct found (.turn (placing ▸ .seek) (.inr rfl) nofun nofun nofun)
      · exact .turned distinct found (.turn (placing ▸ .admits) (.inr rfl) nofun nofun nofun)
  | enqueue ref =>
    refine atStage_evolves fun ps f' found done => ?_
    split at done
    · cases done
    next admitted =>
      obtain ⟨byKind, rfl, grows, -⟩ := queue_spec done
      refine .of_still (.of_follows (setStage_follows distinct found
        (.turn (not_not.mp admitted ▸ .enqueue) (.inr rfl) (fun _ => .inl ?_) nofun nofun)))
        (routes_of_eq rfl) { Still.rfl with byKind := grows }
      rw [(stage?_ref found).2]
  | push ref peer =>
    refine atStage_evolves fun ps f' found done => ?_
    split at done
    · cases done
    next seeking =>
      rw [not_not] at seeking
      obtain ⟨p, -, done⟩ := bind_eq_some_iff.mp done
      split at done <;> cases done
      obtain ⟨here, hit⟩ := stage?_ref found
      refine .of_still (.of_follows ?_) (setPeer_forall (fun _ => .rfl) fun p' _ same => ?_) { Still.rfl with }
      · refine setStage_follows distinct found ⟨⟨rfl, rfl, rfl, rfl, rfl, id⟩, .inr (seeking ▸ .push peer),
          nofun, ?_, .inl (.inr rfl), .inr ⟨peer, ?_, seeking, rfl, rfl⟩, .inl rfl, .inl rfl, nofun⟩
        · rintro _ ⟨⟩
          rw [hit]
          exact .inr rfl
        · rw [hit]
      · split
        · refine ⟨rfl, rfl, id, .inr (.inr (.inl ⟨ps, here, ?_, seeking, ?_, rfl⟩))⟩
          · rw [hit, same]
          · rw [same]
            exact mem_map.mpr ⟨ps, here, if_pos hit⟩
        · exact .rfl
  | retry ref =>
    refine atStage_evolves fun ps f' found done => ?_
    split at done <;> cases done
    next seeking =>
      exact .turned distinct found (.turn (not_not.mp seeking ▸ .retry) (.inr rfl) nofun nofun nofun)
  | notePushed ref =>
    refine atStage_evolves fun ps f' found done => ?_
    split at done
    next peer pushing =>
      cases done
      cases f.inflight? ps.token with
      | none =>
        refine .turned distinct found (.turn (pushing ▸ .note peer) (.inr rfl) (fun _ => .inr ?_) nofun nofun)
        rw [(stage?_ref found).2]
      | some held =>
        exact .of_still (.of_follows (notePushed_follows distinct found pushing held)) (routes_of_eq rfl)
          { Still.rfl with }
    next => cases done
  | receive ref =>
    refine atStage_evolves fun ps f' found done => ?_
    have hit := (stage?_ref found).2
    have takes {c : Completion} (buffered : ps.resultCh = some c) :
        Evolves (.receive ref) f (f.leaveWith ps (some c)) :=
      .turned distinct (hit.symm ▸ found) ⟨⟨rfl, rfl, rfl, rfl, rfl, id⟩, .inr (.leave _ _), nofun, nofun,
        .inr (.inl ⟨by rw [hit], buffered.symm⟩), .inl rfl, .inl rfl, .inr (.inl ⟨⟨_, rfl⟩, rfl⟩), nofun⟩
    split at done
    next =>
      obtain ⟨c, buffered, rfl⟩ := map_eq_some_iff.mp done
      exact takes buffered
    next =>
      obtain ⟨c, buffered, rfl⟩ := map_eq_some_iff.mp done
      exact takes buffered
    next => cases done
  | peerDone ref =>
    refine atStage_evolves fun ps f' found done => ?_
    split at done
    next =>
      obtain ⟨p, -, done⟩ := bind_eq_some_iff.mp done
      split at done <;> cases done
      refine .turned distinct found ⟨⟨rfl, rfl, rfl, rfl, rfl, id⟩, .inr (.leave _ _), nofun, nofun,
        .inr (.inr ⟨?_, rfl⟩), .inl rfl, .inl rfl, .inl rfl, nofun⟩
      rw [(stage?_ref found).2]
    next => cases done
  | contextDone ref =>
    refine atStage_evolves fun ps f' found done => ?_
    have hit := (stage?_ref found).2
    split at done <;> cases done <;>
      exact .turned distinct found (.turn (.leave _ _) (.inr rfl) nofun nofun fun _ => .inl (by rw [hit]))
  | leave ref =>
    refine atStage_evolves fun ps f' found done => ?_
    split at done
    next result leaving =>
      cases done
      have returned : List.Forall₂ (Follows (.leave ref)) f.stages
          (f.setWaiter ref (.returned result)).stages :=
        setStage_follows distinct found
          (.turn (leaving ▸ .return_ result) (.inl (by rw [leaving]; rfl)) nofun nofun nofun)
      have dropped := drop_books (f := f.setWaiter ref (.returned result)) ps.token
      exact .of_still (.of_follows (dropped.stages.after returned)) (routes_of_eq dropped.peers)
        { dropped.toStill with }
    next => cases done
  | sendHome ref =>
    refine atStage_evolves fun ps f' found done => ?_
    split at done
    next forwarding =>
      obtain ⟨c, -, rfl⟩ := map_eq_some_iff.mp done
      refine .of_still (.of_follows (setStage_follows distinct ((stage?_ref found).2.symm ▸ found)
          ⟨⟨rfl, rfl, rfl, rfl, rfl, id⟩, .inr (.leave _ _), nofun, nofun, .inl (.inr rfl), .inl rfl, .inl rfl,
            .inr (.inl ⟨⟨_, rfl⟩, rfl⟩), fun _ => .inr (.inr (by rw [forwarding]; rfl))⟩))
        (setPeer_forall (fun _ => .rfl) fun p _ _ => ?_) { Still.rfl with }
      split
      · exact ⟨rfl, rfl, id, .inr (.inr (.inr ⟨ps.token, c, rfl⟩))⟩
      · exact .rfl
    next => cases done
  | ownerGone ref =>
    refine atStage_evolves fun ps f' found done => ?_
    split at done
    next forwarding =>
      obtain ⟨p, -, done⟩ := bind_eq_some_iff.mp done
      split at done <;> cases done
      exact .turned distinct found
        (.turn (.leave _ _) (.inr rfl) nofun nofun fun _ => .inr (by rw [forwarding]; rfl))
    next => cases done
  | subscribe ref kms maxInflight =>
    simp only [step]
    split
    next new =>
      exact { Evolves.rfl (f := f) with
        streams := .inr ⟨ref, isNone_iff_eq_none.mp new, map_append⟩
        subs := fun sub here => .inl ⟨sub, mem_append_left _ here, .rfl⟩ }
    next => exact .rfl
  | setReadiness stream km ready =>
    refine atStream_evolves fun sub f' _ done => ?_
    cases done
    exact (setStreamReadiness_books sub km ready).evolves
  | pop stream i | take stream i | collect stream =>
    refine atStream_evolves fun sub f' _ done => ?_
    split at done
    next =>
      split at done <;> cases done
      exact Books.rfl.then_setSub rfl fun _ => rfl
    next => cases done
  | acquire stream | exit stream | release stream | stop stream =>
    refine atStream_evolves fun sub f' _ done => ?_
    split at done <;> cases done
    exact Books.rfl.then_setSub rfl fun _ => rfl
  | bounce stream =>
    refine atStream_evolves fun sub f' _ done => ?_
    split at done
    next =>
      obtain ⟨ps, -, done⟩ := bind_eq_some_iff.mp done
      split at done
      · cases done
      · exact requeue_evolves done rfl fun _ => rfl
    next => cases done
  | attributeTask stream =>
    refine atStream_evolves fun sub f' _ done => ?_
    split at done
    next =>
      obtain ⟨ps, -, done⟩ := bind_eq_some_iff.mp done
      split at done <;> cases done
      exact (attributeToStream_books ps stream).then_setSub rfl fun _ => rfl
    next => cases done
  | gate stream =>
    refine atStream_evolves fun sub f' _ done => ?_
    split at done
    next =>
      obtain ⟨ps, -, rfl⟩ := map_eq_some_iff.mp done
      exact (setStage_books fun _ => quiet_slots rfl).then_setSub rfl fun _ => rfl
    next => cases done
  | sendTask stream =>
    refine atStream_evolves fun sub f' _ done => ?_
    split at done
    next =>
      obtain ⟨ps, -, rfl⟩ := map_eq_some_iff.mp done
      exact Books.rfl.then_setSub rfl fun _ => rfl
    next => cases done
  | sendFailed stream =>
    refine atStream_evolves fun sub f' _ done => ?_
    split at done
    next =>
      obtain ⟨ps, -, rfl⟩ := map_eq_some_iff.mp done
      exact (unattributeFromStream_books ps).then_setSub rfl fun _ => rfl
    next => cases done
  | giveBack stream =>
    refine atStream_evolves fun sub f' _ done => ?_
    split at done
    next =>
      obtain ⟨ps, -, done⟩ := bind_eq_some_iff.mp done
      exact requeue_evolves done rfl fun _ => rfl
    next => cases done
  | complete stream token sc =>
    refine atStream_evolves fun sub f' _ done => ?_
    split at done <;> cases done
    obtain ⟨g, more, books, woken, same⟩ := deliver_spec (.worker stream) token ⟨sc, false⟩
    rw [same]
    exact books.evolves.waking woken
  | abandon stream =>
    refine atStream_evolves fun sub f' _ done => ?_
    split at done
    next =>
      split at done <;> cases done
      cases found : inflight? _ _ with
      | none => exact Books.rfl.then_setSub rfl fun _ => rfl
      | some ps =>
        obtain ⟨here, registered, -⟩ := inflight?_spec found
        refine Evolves.waking (Books.rfl.then_setSub rfl fun _ => rfl) fun w mem => ?_
        obtain rfl := mem_singleton.mp mem
        exact ⟨ps, here, registered, rfl⟩
    next => cases done
  | stopFanIn stream i requeued =>
    refine atStream_evolves fun sub f' hit done => ?_
    subst hit
    split at done
    · unfold stopFanIn at done
      split at done
      · cases done
        exact Books.rfl.then_setSub rfl fun _ => rfl
      · obtain ⟨ps, -, done⟩ := bind_eq_some_iff.mp done
        split at done
        · cases done
          exact Books.rfl.then_setSub rfl fun _ => rfl
        · exact requeue_evolves done rfl fun _ => rfl
      · cases done
    · cases done
  | remove stream =>
    refine atStream_evolves fun sub f' hit done => ?_
    subst hit
    split at done <;> cases done
    have removed : Evolves (.remove sub.ref) f (f.setSub sub.ref ({ · with loop := .removed })) :=
      Books.rfl.then_setSub rfl fun _ => rfl
    exact { removed with }
  | join peer memberId =>
    simp only [step]
    split
    next new =>
      exact { Evolves.rfl (f := f) with
        routes := ⟨f.peers, _, rfl, forall₂_same.mpr fun _ _ => .rfl,
          .inr ⟨peer, memberId, rfl, isNone_iff_eq_none.mp new, rfl⟩⟩ }
    next => exact .rfl
  | sendFrame peer =>
    refine .of_still (.of_follows (Keeps.of_eq rfl).follows) (setPeer_forall (fun _ => .rfl) fun p _ same => ?_)
      { Still.rfl with }
    exact ⟨rfl, rfl, id, .inr (.inl ⟨by rw [same], rfl⟩)⟩
  | routeTask ref owner token km =>
    simp only [step]
    split
    next new => exact onRouteTask_evolves new
    next => exact .rfl
  | routeComplete peer token c =>
    simp only [step]
    split
    · obtain ⟨g, more, books, woken, same⟩ := deliver_spec (.route peer) token c
      rw [same]
      exact books.evolves.waking woken
    · exact .rfl
  | cancelPeer peer =>
    exact .of_still (.of_follows (Keeps.of_eq rfl).follows)
      (setPeer_forall (fun _ => .rfl) fun p _ _ => ⟨rfl, rfl, fun _ => rfl, .inl rfl⟩) { Still.rfl with }
  | onPeerGone peer =>
    simp only [step]
    split
    · refine Evolves.rfl.waking fun w mem => ?_
      obtain ⟨ps, listed, rfl⟩ := mem_map.mp mem
      obtain ⟨here, pushed⟩ := mem_filter.mp listed
      exact ⟨ps, here, ((Bool.and_eq_true _ _).mp pushed).1, rfl⟩
    · exact .rfl
  | send w =>
    simp only [step]
    split
    · exact { Evolves.rfl with
        stages := .of_follows (setStage_forall (fun _ => Quiet.rfl.follows)
          fun ps _ same => { (Quiet.rfl.follows : Follows (.send w) ps ps) with
            channel := .inr (.inr ⟨w, rfl, same.symm, rfl⟩) })
        routes := ⟨_, [], (append_nil _).symm, routes_of_eq rfl, .inl rfl⟩
        wakes := fun w' here => (eq_or_ne w' w).symm.imp (fun other => (mem_erase_of_ne other).mpr here)
          fun same => by rw [same]
        woken := fun w' after => .inl (mem_of_mem_erase after) }
    · exact .rfl
  | recorded ref =>
    refine atStage_evolves fun ps f' found done => ?_
    split at done <;> cases done
    next result returned =>
      exact .turned distinct found (.turn (returned ▸ .record result) (.inr rfl) nofun nofun nofun)

theorem send_full {w : Wake} (sent : w ∈ f.wakes) (after : ps' ∈ (f.step (.send w)).stages)
    (hit : ps'.ref = w.stage) : ps'.resultCh.isSome = true := by
  simp only [step, if_pos sent] at after
  obtain ⟨old, -, rfl⟩ := mem_map.mp after
  split at hit
  next same =>
    rw [if_pos same]
    exact isSome_or.trans (Bool.or_true _)
  next other => exact absurd hit other

end Fanout

end Converge.Kernel
