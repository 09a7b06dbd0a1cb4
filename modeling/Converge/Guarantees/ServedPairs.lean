/-
# Guarantees.ServedPairs -- what a peer records of a broker's workers

Once the route is up and every queued frame is delivered, the peer should have a pair on record
exactly if a connected worker of the broker is ready for it (`Converged`).

Frames carry the absolute state, so only the last answer for each pair matters (`Carried`).  It can
be lost: a full queue drops it, a send fails, a stream breaks with frames on it.  A new stream makes
up for that with the pairs of `selfCredit`, so for an answer that has a worker, as long as no other
stream is up.  Nothing makes up for a lost answer without one, and the peer keeps the pair on record
(`worker_stays_on_record`).  An answer can also come late: it is read under one lock, recorded under
another, queued under none, and two streams deliver in no order.  And the count that is read can be
wrong: a pair that a worker names twice is counted twice, and a flip may come after its stream was
removed.

Where none of that happens the peer is right in every such state (`served_pairs_converge`).
-/
import Converge.Kernel.Presence
import Converge.Theory.Tally
import Converge.Theory.Transition

namespace Converge.Kernel

open Converge.Theory List

set_option autoImplicit false

/-! ## The count of ready workers -/

namespace Fanout

variable {f : Fanout} {sub : ConfigSub} {ref : StreamRef} {g : ConfigSub → ConfigSub} {kms : List KindVersion}
    {km : KindVersion}

/-- The counts of the ready workers are right. -/
structure Counted (f : Fanout) : Prop where
  streams : (f.subs.map (·.ref)).Nodup
  pairs : ∀ sub ∈ f.subs, sub.kms.Nodup
  count : ∀ km, f.readySubscribers km = (f.readyWorkers km).length

theorem foldl_bump (kms : List KindVersion) (count : KindVersion → Nat) (km : KindVersion) :
    kms.foldl bump count km = count km + kms.count km := by
  induction kms generalizing count with
  | nil => rfl
  | cons k rest ih =>
    rw [foldl_cons, ih, bump]
    by_cases same : km = k
    · simp [same]
      omega
    · simp [same, Ne.symm same]

theorem foldl_unbump (kms : List KindVersion) (count : KindVersion → Nat) (km : KindVersion) :
    kms.foldl unbump count km = count km - kms.count km := by
  induction kms generalizing count with
  | nil => rfl
  | cons k rest ih =>
    rw [foldl_cons, ih, unbump]
    by_cases same : km = k
    · simp [same]
      omega
    · simp [same, Ne.symm same]

theorem Counted.new (mesh : Bool) : Counted (.new mesh) := ⟨.nil, nofun, fun _ => rfl⟩

theorem Counted.addSubscriber (h : Counted f) (free : f.sub? ref = none)
    (distinct : kms.Nodup) (maxInflight : Nat) :
    Counted (f.addSubscriber ref kms maxInflight) where
  streams := by
    have unused : ref ∉ f.subs.map (·.ref) := by
      simpa [Fanout.sub?] using free
    simpa [Fanout.addSubscriber, nodup_append, h.streams] using unused
  pairs := by
    intro sub mem
    rcases mem_append.mp mem with old | new
    · exact h.pairs sub old
    · obtain rfl := mem_singleton.mp new
      exact distinct
  count := by
    intro km
    show kms.foldl bump f.readySubscribers km = _
    rw [foldl_bump, h.count, readyWorkers, readyWorkers, Fanout.addSubscriber, filter_append,
      List.Nodup.count distinct]
    by_cases serves : km ∈ kms <;> simp [ConfigSub.readyFor, serves]

theorem Counted.readyWorkers_update (h : Counted f) (here : sub ∈ f.subs)
    (connected : sub.loop ≠ .removed) (g : ConfigSub → ConfigSub) (km : KindVersion) :
    (readyWorkers { f with subs := f.subs.map fun s => if s.ref = sub.ref then g s else s } km).length +
        (if sub.readyFor km then 1 else 0) =
      f.readySubscribers km + (if (g sub).loop ≠ .removed && (g sub).readyFor km then 1 else 0) := by
  have count := length_filter_update h.streams here (fun s => s.loop ≠ .removed && s.readyFor km) g
  rw [h.count]
  simpa [readyWorkers, connected] using count

theorem update_streams (same : ∀ s, (g s).ref = s.ref) (streams : (f.subs.map (·.ref)).Nodup) :
    ((f.subs.map fun s => if s.ref = ref then g s else s).map (·.ref)).Nodup := by
  rw [map_map]
  refine (congrArg List.Nodup (map_congr_left fun s _ => ?_)).mpr streams
  simp only [Function.comp_apply]
  split
  · exact same s
  · rfl

theorem update_pairs (same : ∀ s, (g s).kms = s.kms) (pairs : ∀ sub ∈ f.subs, sub.kms.Nodup) :
    ∀ sub ∈ f.subs.map fun s => if s.ref = ref then g s else s, sub.kms.Nodup := by
  intro sub mem
  obtain ⟨s, old, rfl⟩ := mem_map.mp mem
  split
  · exact same s ▸ pairs s old
  · exact pairs s old

theorem Counted.removeSubscriber (h : Counted f) (here : sub ∈ f.subs)
    (connected : sub.loop ≠ .removed) : Counted (f.removeSubscriber sub) where
  streams := update_streams (g := ({ · with loop := .removed })) (fun _ => rfl) h.streams
  pairs := update_pairs (g := ({ · with loop := .removed })) (fun _ => rfl) h.pairs
  count := by
    intro km
    have count := h.readyWorkers_update here connected ({ · with loop := .removed }) km
    have leaves : (sub.kms.filter (· ∉ sub.unready)).count km = if sub.readyFor km then 1 else 0 := by
      rw [List.Nodup.count ((h.pairs sub here).filter _)]
      simp [ConfigSub.readyFor]
    show (sub.kms.filter (· ∉ sub.unready)).foldl unbump f.readySubscribers km = _
    rw [foldl_unbump, leaves]
    exact (Nat.eq_sub_of_add_eq count).symm

theorem Counted.setStreamReadiness (h : Counted f) (here : sub ∈ f.subs)
    (connected : sub.loop ≠ .removed) (km : KindVersion) (ready : Bool) :
    Counted (f.setStreamReadiness sub km ready) := by
  -- the set and the count move together
  have moved : ∀ unready count, (∀ k, count k + (if sub.readyFor k then 1 else 0) =
        f.readySubscribers k + (if k ∈ sub.kms ∧ k ∉ unready then 1 else 0)) →
      Counted { f.setSub sub.ref ({ · with unready := unready }) with readySubscribers := count } := by
    intro unready count right
    refine ⟨update_streams (g := ({ · with unready := unready })) (fun _ => rfl) h.streams,
      update_pairs (g := ({ · with unready := unready })) (fun _ => rfl) h.pairs, fun k => ?_⟩
    have after := h.readyWorkers_update here connected ({ · with unready := unready }) k
    simp only [connected, ConfigSub.readyFor, ne_eq, not_false_eq_true, decide_true, Bool.true_and,
      Bool.and_eq_true,
      decide_eq_true_eq] at after right
    exact Nat.add_right_cancel ((right k).trans after.symm)
  unfold Fanout.setStreamReadiness
  split
  · exact h
  · rename_i serves
    rw [not_not] at serves
    split
    · rename_i recovers
      simp only [Bool.and_eq_true, decide_eq_true_eq] at recovers
      refine moved _ _ fun k => ?_
      by_cases same : k = km
      · simp [bump, same, ConfigSub.readyFor, serves, recovers.2]
      · simp [bump, same, ConfigSub.readyFor]
    · split
      · rename_i degrades
        simp only [Bool.and_eq_true, decide_eq_true_eq] at degrades
        refine moved _ _ fun k => ?_
        by_cases same : k = km
        · have ready : sub.readyFor km = true := by simp [ConfigSub.readyFor, serves, degrades.2]
          have counts : 0 < f.readySubscribers km := by
            rw [h.count]
            exact length_pos_of_mem (mem_filter.mpr ⟨here, by simp [connected, ready]⟩)
          simp only [unbump, same, if_true, ready, mem_cons, true_or, not_true_eq_false, and_false, if_false]
          omega
        · simp [unbump, same, ConfigSub.readyFor]
      · exact h

/-! The pairs of a call are the only ones whose count it moves. -/

theorem addSubscriber_other {maxInflight : Nat}
    (other : km ∉ kms) : (f.addSubscriber ref kms maxInflight).readySubscribers km = f.readySubscribers km := by
  show kms.foldl bump f.readySubscribers km = _
  rw [foldl_bump, count_eq_zero_of_not_mem other, Nat.add_zero]

theorem removeSubscriber_other (other : km ∉ sub.kms) :
    (f.removeSubscriber sub).readySubscribers km = f.readySubscribers km := by
  show (sub.kms.filter (· ∉ sub.unready)).foldl unbump f.readySubscribers km = _
  rw [foldl_unbump, count_eq_zero_of_not_mem fun mem => other (mem_of_mem_filter mem), Nat.sub_zero]

theorem setStreamReadiness_other {k : KindVersion} {ready : Bool} (other : k ≠ km) :
    (f.setStreamReadiness sub km ready).readySubscribers k = f.readySubscribers k := by
  unfold Fanout.setStreamReadiness
  split
  · rfl
  · split
    · exact if_neg other
    · split
      · exact if_neg other
      · rfl

theorem Counted.hasSubscriber (h : Counted f) (km : KindVersion) :
    f.hasSubscriber km = true ↔ f.readyWorkers km ≠ [] := by
  rw [Fanout.hasSubscriber, decide_eq_true_iff, h.count, length_pos_iff]

end Fanout

/-! ## What a step loses, and what it overtakes -/

namespace Presence

variable {s s' : Presence} {a : PresenceAction} {fr : Interest} {km : KindVersion} {j : Nat}
    {P : Presence → Prop} {st' : RouteStream}

/-- The answers that the step loses. -/
def dropped (s : Presence) : PresenceAction → List Interest
  | .enqueue i =>
    if s.out.length < Fanout.routeSendBuf then [] else (s.calls[i]?).elim [] Advertiser.unqueued
  -- a sender that has not noticed yet that its stream broke takes the frame and fails
  | .pop j => (s.streams[j]?).elim [] fun st => if st.up then [] else (s.out.take 1).flatMap OutFrame.interests
  | .broken j => (s.streams[j]?).elim [] fun st => if st.up then st.held else []
  | .lost j => (s.streams[j]?).elim [] RouteStream.live
  | _ => []

/-- A stream is up after the step. -/
def upAfter (s : Presence) : PresenceAction → Bool
  | .broken j | .lost j => (s.streams.eraseIdx j).any (·.up)
  | _ => s.up

/-- The step puts an older answer in the place of a newer one. -/
def overtakes (s : Presence) : PresenceAction → Bool
  | .record i => (s.calls[i]?).elim false fun c =>
    c.unrecorded.any fun fr => s.recorded.any fun w => w.km = fr.km && fr.serial < w.serial
  | .handle j => (s.streams[j]?).elim false fun st =>
    (st.wire.take 1).any fun fr => (s.handled fr.km).any fun w => fr.serial < w.serial
  | _ => false

/-- A worker names its pairs once, and no flip comes after its stream is removed. -/
def Orderly (s : Presence) : PresenceAction → Prop
  | .connect _ kms _ => kms.Nodup
  | .flip ref _ _ => ∀ sub ∈ s.broker.sub? ref, sub.loop ≠ .removed
  | _ => True

instance (s : Presence) : (a : PresenceAction) → Decidable (s.Orderly a)
  | .connect _ kms _ => inferInstanceAs (Decidable kms.Nodup)
  | .flip ref _ _ => inferInstanceAs (Decidable (∀ sub ∈ s.broker.sub? ref, sub.loop ≠ .removed))
  | .disconnect _ | .credit _ | .read _ | .record _ | .enqueue _ | .push | .opened | .sendBulk _ | .pop _
  | .send _ | .cancelled _ | .handle _ | .broken _ | .lost _ => isTrue trivial

/-- The step overtakes nothing, and the last answer for a pair is lost only where the next stream
starts with it: it has a worker, and no stream is up. -/
def Replays (s : Presence) (a : PresenceAction) : Prop :=
  s.Orderly a ∧ s.overtakes a = false ∧
    ∀ fr ∈ s.dropped a, s.latest fr.km = some fr → fr.hasWorker = true ∧ s.upAfter a = false
deriving Decidable

/-! ## What a step can do -/

def queued (out : List OutFrame) : List Interest := out.flatMap OutFrame.interests

theorem queued_cons (frame : OutFrame) (out : List OutFrame) :
    queued (frame :: out) = frame.interests ++ queued out :=
  flatMap_cons

inductive Turn (s : Presence) (a : PresenceAction) : Presence → Prop where
  | idle (same : s.upAfter a = s.up) : Turn s a s
  /-- A call of `advertiseCredits`, after the counts of its pairs have moved or not. -/
  | edge {broker : Fanout} {kms : List KindVersion}
      (others : ∀ km ∉ kms, broker.readySubscribers km = s.broker.readySubscribers km)
      (counted : s.Orderly a → s.broker.Counted → broker.Counted) (same : s.upAfter a = s.up) :
      Turn s a ({ s with broker := broker }.advertiseCredits kms)
  | read {i : Nat} {km : KindVersion} {rest : List KindVersion} {fr : Interest}
      (there : s.calls[i]? = some (.reading (km :: rest)))
      (answer : fr = ⟨km, s.broker.hasSubscriber km, s.readings + 1⟩) (same : s.upAfter a = s.up) :
      Turn s a ({ s with
        latest := fun k => if k = km then some fr else s.latest k
        readings := s.readings + 1 }.setCall i (.recording fr rest))
  | record {i : Nat} {fr : Interest} {rest : List KindVersion} (act : a = .record i)
      (there : s.calls[i]? = some (.recording fr rest)) : Turn s a ((s.record fr).setCall i (.enqueuing fr rest))
  | enqueue {i : Nat} {fr : Interest} {rest : List KindVersion} (act : a = .enqueue i)
      (there : s.calls[i]? = some (.enqueuing fr rest)) :
      Turn s a ((s.routeSend (.interest fr)).setCall i (.reading rest))
  | push (same : s.upAfter a = s.up) : Turn s a (s.routeSend .other)
  | opened : Turn s a { s with streams := s.streams ++ [.new s.snapshotSelfCredit] }
  /-- A stream passes frames on, from the queue to the wire, or loses them. -/
  | pump {j : Nat} {st st' : RouteStream} {out : List OutFrame} (there : s.streams[j]? = some st)
      (gets : ∀ fr ∈ queued out ++ st'.live, fr ∈ queued s.out ++ st.live)
      (keeps : ∀ fr ∈ queued s.out ++ st.live, fr ∈ queued out ++ st'.live ∨ fr ∈ s.dropped a)
      (up : (s.streams.set j st').any (·.up) = true → s.upAfter a = true) :
      Turn s a ({ s with out := out }.setStream j st')
  | handle {j : Nat} {st : RouteStream} {fr : Interest} {rest : List Interest} (act : a = .handle j)
      (there : s.streams[j]? = some st) (wire : st.wire = fr :: rest) :
      Turn s a ({ s with
        handled := fun k => if k = fr.km then some fr else s.handled k }.setStream j { st with wire := rest })

theorem atCall_cases {i : Nat} {move : Advertiser → Option Presence} (idle : P s)
    (moves : ∀ c s', s.calls[i]? = some c → move c = some s' → P s') : P (s.atCall i move) :=
  getD_bind_cases idle moves

theorem atStream_cases {move : RouteStream → Option Presence} (idle : P s)
    (moves : ∀ st s', s.streams[j]? = some st → move st = some s' → P s') : P (s.atStream j move) :=
  getD_bind_cases idle moves

theorem set_up {st : RouteStream} (there : s.streams[j]? = some st) (same : st'.up = st.up)
    (after : (s.streams.set j st').any (·.up) = true) : s.up = true := by
  obtain ⟨t, mem, isUp⟩ := any_eq_true.mp after
  rcases mem_or_eq_of_mem_set mem with old | rfl
  · exact any_eq_true.mpr ⟨t, old, isUp⟩
  · exact any_eq_true.mpr ⟨st, mem_of_getElem? there, same ▸ isUp⟩

theorem set_down (down : st'.up = false)
    (after : (s.streams.set j st').any (·.up) = true) : (s.streams.eraseIdx j).any (·.up) = true := by
  obtain ⟨t, mem, isUp⟩ := any_eq_true.mp after
  obtain ⟨k, at_⟩ := mem_iff_getElem?.mp mem
  refine any_eq_true.mpr ⟨t, ?_, isUp⟩
  by_cases same : j = k
  · subst same
    rw [List.getElem?_set_self (by
      have := (List.getElem?_eq_some_iff.mp at_).1
      simpa using this)] at at_
    cases at_
    rw [down] at isUp
    cases isUp
  · rw [getElem?_set_ne same] at at_
    exact mem_eraseIdx_iff_getElem?.mpr ⟨k, Ne.symm same, at_⟩

theorem up_eraseIdx (none : s.streams[j]? = none) : (s.streams.eraseIdx j).any (·.up) = s.up := by
  rw [eraseIdx_of_length_le (getElem?_eq_none_iff.mp none)]
  rfl

theorem Turn.of_live {st : RouteStream} (there : s.streams[j]? = some st)
    (gets : ∀ fr ∈ st'.live, fr ∈ st.live) (keeps : ∀ fr ∈ st.live, fr ∈ st'.live ∨ fr ∈ s.dropped a)
    (up : (s.streams.set j st').any (·.up) = true → s.upAfter a = true) : Turn s a (s.setStream j st') := by
  refine .pump there ?_ ?_ up
  · intro fr after
    exact mem_append.mpr ((mem_append.mp after).imp_right (gets fr))
  · intro fr before
    rcases mem_append.mp before with inQueue | onStream
    · exact .inl (mem_append_left _ inQueue)
    · exact (keeps fr onStream).imp_left (mem_append_right _)

theorem Turn.counted (turn : Turn s a s') (orderly : s.Orderly a) (h : s.broker.Counted) : s'.broker.Counted := by
  cases turn with
  | edge _ counted => exact counted orderly h
  | idle | read | record | enqueue | push | opened | pump | handle => exact h

theorem step_turn (s : Presence) (a : PresenceAction) : Turn s a (s.step a) := by
  cases a with
  | connect ref kms maxInflight =>
    simp only [step]
    split
    · rename_i free
      exact .edge (fun km other => Fanout.addSubscriber_other other)
        (fun distinct h => h.addSubscriber (Option.isNone_iff_eq_none.mp free) distinct maxInflight)
          rfl
    · exact .idle rfl
  | disconnect ref =>
    simp only [step]
    cases found : s.broker.sub? ref with
    | none => exact .idle rfl
    | some sub =>
      simp only [Option.elim_some]
      split
      · exact .idle rfl
      · rename_i connected
        exact .edge (fun km other => Fanout.removeSubscriber_other other)
          (fun _ h => h.removeSubscriber (mem_of_find?_eq_some found) connected) rfl
  | flip ref km ready =>
    simp only [step]
    cases found : s.broker.sub? ref with
    | none => exact .idle rfl
    | some sub =>
      simp only [Option.elim_some]
      split
      · refine .edge (fun k other =>
          Fanout.setStreamReadiness_other fun same => other (same ▸ mem_singleton_self _))
          (fun connected h => h.setStreamReadiness (mem_of_find?_eq_some found) (connected sub found) km ready)
          rfl
      · exact .idle rfl
  | credit km => exact .edge (fun _ _ => rfl) (fun _ h => h) rfl
  | read i =>
    refine atCall_cases (.idle rfl) fun c s' there moved => ?_
    split at moved <;> cases moved
    exact .read there rfl rfl
  | record i =>
    refine atCall_cases (.idle rfl) fun c s' there moved => ?_
    split at moved <;> cases moved
    exact .record rfl there
  | enqueue i =>
    refine atCall_cases (.idle rfl) fun c s' there moved => ?_
    split at moved <;> cases moved
    exact .enqueue rfl there
  | push => exact .push rfl
  | opened => exact .opened
  | sendBulk j =>
    refine atStream_cases (.idle rfl) fun st s' there moved => ?_
    split at moved <;> cases moved
    rename_i fr rest bulk
    have same : ∀ v, v ∈ RouteStream.live { st with
        bulk := rest, wire := if st.up then st.wire ++ [fr] else st.wire } ↔ v ∈ st.live := by
      intro v
      cases up : st.up
      · simp [RouteStream.live, up]
      · simp only [RouteStream.live, RouteStream.held, up, bulk, if_true, mem_append, mem_cons, not_mem_nil]
        tauto
    exact .of_live there (fun v => (same v).mp) (fun v before => .inl ((same v).mpr before)) (set_up there rfl)
  | pop j =>
    refine atStream_cases (.idle rfl) fun st s' there moved => ?_
    split at moved
    · cases moved
    · rename_i frame rest out
      split at moved <;> cases moved
      rename_i selects
      simp only [RouteStream.selects, Bool.and_eq_true, decide_eq_true_eq] at selects
      have before : ∀ v, v ∈ queued s.out ++ st.live ↔ v ∈ frame.interests ∨ v ∈ queued rest ∨ v ∈ st.wire := by
        intro v
        simp [out, queued_cons, RouteStream.live, RouteStream.held, selects, RouteSender.interests]
      have after : ∀ v, v ∈ queued rest ++ RouteStream.live { st with sender := .sending frame } ↔
          v ∈ queued rest ∨ (st.up = true ∧ v ∈ frame.interests) ∨ v ∈ st.wire := by
        intro v
        cases up : st.up <;> simp [RouteStream.live, RouteStream.held, selects, RouteSender.interests]
      refine .pump there ?_ ?_ (set_up there rfl)
      · intro v
        rw [before, after]
        tauto
      · intro v
        rw [before, after]
        rintro (first | later | onWire)
        · cases up : st.up with
          | false => exact .inr (by simpa [dropped, there, up, out] using first)
          | true => exact .inl (.inr (.inl ⟨.refl _, first⟩))
        · exact .inl (.inl later)
        · exact .inl (.inr (.inr onWire))
  | send j =>
    refine atStream_cases (.idle rfl) fun st s' there moved => ?_
    split at moved <;> cases moved
    rename_i frame sender
    split
    · rename_i up
      refine .of_live there ?_ ?_ (set_up there (.refl _))
      all_goals
        intro v
        simp only [RouteStream.live, RouteStream.held, up, sender, RouteSender.interests, if_true, mem_append,
          not_mem_nil]
        tauto
    · rename_i down
      refine .of_live there ?_ ?_ (set_up there (.refl _))
      · simp [RouteStream.live, down]
      · intro v before
        exact .inl (by simpa [RouteStream.live, down] using before)
  | cancelled j =>
    refine atStream_cases (.idle rfl) fun st s' there moved => ?_
    split at moved <;> cases moved
    rename_i idle
    have down : st.up = false := by
      simp only [Bool.and_eq_true, Bool.not_eq_true'] at idle
      exact idle.2
    refine .of_live there ?_ ?_ (set_up there rfl)
    · simp [RouteStream.live, down]
    · intro v before
      exact .inl (by simpa [RouteStream.live, down] using before)
  | handle j =>
    refine atStream_cases (.idle rfl) fun st s' there moved => ?_
    split at moved <;> cases moved
    rename_i wire
    exact .handle rfl there wire
  | broken j =>
    cases there : s.streams[j]? with
    | none =>
      rw [step, atStream, there]
      exact .idle (up_eraseIdx there)
    | some st =>
      rw [step, atStream, there]
      refine .of_live there ?_ ?_ (set_down rfl)
      · intro v after
        exact mem_append_right _ after
      · intro v before
        simpa [RouteStream.live, dropped, there, or_comm] using before
  | lost j =>
    cases there : s.streams[j]? with
    | none =>
      rw [step, atStream, there]
      exact .idle (up_eraseIdx there)
    | some st =>
      rw [step, atStream, there]
      refine .of_live there nofun ?_ (set_down rfl)
      intro v before
      simpa [dropped, there] using Or.inr before

/-! ## The last answer is carried -/

/-- The answer is somewhere, or was handled last. -/
def Known (s : Presence) (fr : Interest) : Prop :=
  fr ∈ s.unrecorded ∨ fr ∈ s.recorded ∨ fr ∈ s.live ∨ s.handled fr.km = some fr

/-- The peer has the answer or will get it: it is on its way, or the next stream starts with it. -/
def Carried (s : Presence) (fr : Interest) : Prop :=
  fr ∈ s.unrecorded ∨
    fr ∈ s.recorded ∧ (fr ∈ s.live ∨ s.handled fr.km = some fr ∨ fr.hasWorker = true ∧ s.up = false)

structure Sound (s : Presence) : Prop where
  counted : s.broker.Counted
  named : ∀ {km : KindVersion} {fr : Interest}, s.latest km = some fr → fr.km = km ∧ fr.serial ≤ s.readings
  handled : ∀ {km : KindVersion} {fr : Interest}, s.handled km = some fr → fr.km = km
  known : ∀ {fr : Interest}, s.Known fr → ∃ w, s.latest fr.km = some w ∧ (fr = w ∨ fr.serial < w.serial)
  current : ∀ km, (∃ c ∈ s.calls, km ∈ c.unread) ∨ (s.latest km).any (·.hasWorker) = s.broker.hasSubscriber km
  carried : ∀ {km : KindVersion} {fr : Interest}, s.latest km = some fr → s.Carried fr

theorem Sound.new : Sound .new where
  counted := .new true
  named := nofun
  handled := nofun
  known := by
    rintro fr (mem | mem | mem | handled)
    · cases mem
    · cases mem
    · cases mem
    · cases handled
  current := fun _ => .inr rfl
  carried := nofun

theorem Sound.eq_of_le (h : Sound s) {w : Interest} (known : s.Known fr) (last : s.latest w.km = some w)
    (same : fr.km = w.km) (le : w.serial ≤ fr.serial) : fr = w := by
  obtain ⟨w', last', rfl | older⟩ := h.known known
  · rw [same, last] at last'
    exact (Option.some.inj last').symm
  · rw [same, last] at last'
    cases last'
    omega

theorem mem_live : fr ∈ s.live ↔
    fr ∈ s.calls.flatMap Advertiser.unqueued ∨ fr ∈ queued s.out ++ s.streams.flatMap RouteStream.live := by
  simp only [live, queued, mem_append, or_assoc]

theorem mem_new {bulk : List Interest} : fr ∈ [RouteStream.new bulk].flatMap RouteStream.live ↔ fr ∈ bulk := by
  simp [RouteStream.live, RouteStream.new, RouteStream.held, RouteSender.interests]

theorem mem_routeSend {frame : OutFrame} (after : fr ∈ queued (s.routeSend frame).out) :
    fr ∈ queued s.out ∨ fr ∈ frame.interests := by
  simp only [routeSend] at after
  split at after
  · simpa [queued] using after
  · exact .inl after

theorem mem_route {st : RouteStream} {out : List OutFrame} (there : s.streams[j]? = some st)
    (gets : ∀ fr ∈ queued out ++ st'.live, fr ∈ queued s.out ++ st.live)
    (after : fr ∈ queued out ++ (s.streams.set j st').flatMap RouteStream.live) :
    fr ∈ queued s.out ++ s.streams.flatMap RouteStream.live := by
  have onStream : fr ∈ queued out ++ st'.live → fr ∈ queued s.out ++ s.streams.flatMap RouteStream.live := by
    intro moved
    refine mem_append.mpr ((mem_append.mp (gets fr moved)).imp_right fun mem => ?_)
    exact mem_flatMap.mpr ⟨st, mem_of_getElem? there, mem⟩
  rcases mem_append.mp after with mem | mem
  · exact onStream (mem_append_left _ mem)
  · rcases mem_of_flatMap_set mem with moved | old
    · exact onStream (mem_append_right _ moved)
    · exact mem_append_right _ old

/-- Where the answers that are around after a turn come from. -/
theorem Turn.known (turn : Turn s a s') (after : s'.Known fr) :
    s.Known fr ∨ s'.latest fr.km = some fr ∧ fr.serial = s.readings + 1 := by
  cases turn with
  | idle => exact .inl after
  | edge =>
    refine .inl ?_
    simpa [Known, advertiseCredits, unrecorded, live, Advertiser.unrecorded, Advertiser.unqueued] using after
  | @read i km rest fr' there answer =>
    rcases after with mem | mem | mem | handled
    · rcases mem_of_flatMap_set mem with new | old
      · obtain rfl := mem_singleton.mp new
        refine .inr ⟨?_, by rw [answer]⟩
        show (if fr.km = km then some fr else _) = _
        rw [if_pos (by rw [answer])]
      · exact .inl (.inl old)
    · exact .inl (.inr (.inl mem))
    · refine .inl (.inr (.inr (.inl (mem_live.mpr ((mem_live.mp mem).imp_left fun mem => ?_)))))
      exact (mem_of_flatMap_set mem).resolve_left nofun
    · exact .inl (.inr (.inr (.inr handled)))
  | @record i fr' rest act there =>
    have held : fr' ∈ s.unrecorded :=
      mem_flatMap.mpr ⟨_, mem_of_getElem? there, mem_singleton_self _⟩
    refine .inl ?_
    rcases after with mem | mem | mem | handled
    · exact .inl ((mem_of_flatMap_set mem).resolve_left nofun)
    · rcases mem_append.mp mem with old | new
      · exact .inr (.inl (mem_of_mem_filter old))
      · exact .inl (mem_singleton.mp new ▸ held)
    · rcases mem_live.mp mem with calls | route
      · rcases mem_of_flatMap_set calls with new | old
        · exact .inl (mem_singleton.mp new ▸ held)
        · exact .inr (.inr (.inl (mem_live.mpr (.inl old))))
      · exact .inr (.inr (.inl (mem_live.mpr (.inr route))))
    · exact .inr (.inr (.inr handled))
  | @enqueue i fr' rest act there =>
    have held : fr' ∈ s.live :=
      mem_live.mpr (.inl (mem_flatMap.mpr ⟨_, mem_of_getElem? there, mem_singleton_self _⟩))
    refine .inl ?_
    rcases after with mem | mem | mem | handled
    · exact .inl ((mem_of_flatMap_set mem).resolve_left nofun)
    · exact .inr (.inl mem)
    · refine .inr (.inr (.inl ?_))
      rcases mem_live.mp mem with calls | route
      · exact mem_live.mpr (.inl ((mem_of_flatMap_set calls).resolve_left nofun))
      · rcases mem_append.mp route with inQueue | onStream
        · rcases mem_routeSend inQueue with old | new
          · exact mem_live.mpr (.inr (mem_append_left _ old))
          · exact mem_singleton.mp new ▸ held
        · exact mem_live.mpr (.inr (mem_append_right _ onStream))
    · exact .inr (.inr (.inr handled))
  | push =>
    refine .inl (after.imp_right (Or.imp_right (Or.imp_left fun mem => ?_)))
    refine mem_live.mpr ((mem_live.mp mem).imp_right fun route => ?_)
    rcases mem_append.mp route with inQueue | onStream
    · exact mem_append_left _ ((mem_routeSend inQueue).resolve_right nofun)
    · exact mem_append_right _ onStream
  | opened =>
    refine .inl ?_
    rcases after with mem | mem | mem | handled
    · exact .inl mem
    · exact .inr (.inl mem)
    · rcases mem_live.mp mem with calls | route
      · exact .inr (.inr (.inl (mem_live.mpr (.inl calls))))
      · rw [flatMap_append, mem_append, mem_append] at route
        rcases route with inQueue | onStream | bulk
        · exact .inr (.inr (.inl (mem_live.mpr (.inr (mem_append_left _ inQueue)))))
        · exact .inr (.inr (.inl (mem_live.mpr (.inr (mem_append_right _ onStream)))))
        · exact .inr (.inl (mem_of_mem_filter (mem_new.mp bulk)))
    · exact .inr (.inr (.inr handled))
  | pump there gets keeps up =>
    refine .inl (after.imp_right (Or.imp_right (Or.imp_left fun mem => ?_)))
    exact mem_live.mpr ((mem_live.mp mem).imp_right (mem_route there gets))
  | @handle j st fr' rest act there wire =>
    have onWire : ∀ w ∈ st.wire, w ∈ s.live := fun w mem =>
      mem_live.mpr (.inr (mem_append_right _
        (mem_flatMap.mpr ⟨st, mem_of_getElem? there, mem_append_right _ mem⟩)))
    refine .inl ?_
    rcases after with mem | mem | mem | handled
    · exact .inl mem
    · exact .inr (.inl mem)
    · refine .inr (.inr (.inl (mem_live.mpr ((mem_live.mp mem).imp_right (mem_route there fun w after => ?_)))))
      refine mem_append.mpr ((mem_append.mp after).imp_right fun moved => ?_)
      refine mem_append.mpr ((mem_append.mp moved).imp_right fun later => ?_)
      exact wire ▸ .tail _ later
    · change (if fr.km = fr'.km then some fr' else s.handled fr.km) = some fr at handled
      split at handled
      · cases handled
        exact .inr (.inr (.inl (onWire fr (wire ▸ .head _))))
      · exact .inr (.inr (.inr handled))

theorem queued_routeSend {frame : OutFrame} (before : fr ∈ queued s.out) :
    fr ∈ queued (s.routeSend frame).out := by
  simp only [routeSend]
  split
  · simpa [queued] using Or.inl before
  · exact before

/-- What becomes of an answer that is on its way. -/
theorem Turn.live (turn : Turn s a s') (before : fr ∈ s.live) :
    fr ∈ s'.live ∨ fr ∈ s.dropped a ∨ s'.handled fr.km = some fr := by
  rcases mem_live.mp before with calls | route
  · -- a call has it: only `enqueue` can move it
    cases turn with
    | idle | push | opened | pump | handle => exact .inl (mem_live.mpr (.inl calls))
    | edge =>
      refine .inl (mem_live.mpr (.inl ?_))
      simpa [advertiseCredits, Advertiser.unqueued] using calls
    | read there | record act there =>
      exact .inl (mem_live.mpr (.inl ((mem_flatMap_set_or there calls).resolve_right nofun)))
    | @enqueue i fr' rest act there =>
      rcases mem_flatMap_set_or there calls with other | mine
      · exact .inl (mem_live.mpr (.inl other))
      · obtain rfl := mem_singleton.mp mine
        subst act
        by_cases room : s.out.length < Fanout.routeSendBuf
        · refine .inl (mem_live.mpr (.inr (mem_append_left _ ?_)))
          simp [queued, routeSend, setCall, room, OutFrame.interests]
        · exact .inr (.inl (by simp [dropped, room, there, Advertiser.unqueued]))
  · cases turn with
    | idle | edge | read | record => exact .inl (mem_live.mpr (.inr route))
    | enqueue | push =>
      refine .inl (mem_live.mpr (.inr (mem_append.mpr ?_)))
      exact (mem_append.mp route).imp_left queued_routeSend
    | opened =>
      refine .inl (mem_live.mpr (.inr (mem_append.mpr ((mem_append.mp route).imp_right fun onStream => ?_))))
      rw [flatMap_append]
      exact mem_append_left _ onStream
    | @pump j st st' out there gets keeps up =>
      have moved : fr ∈ queued s.out ++ st.live →
          fr ∈ ({ s with out := out }.setStream j st').live ∨ fr ∈ s.dropped a ∨ s.handled fr.km = some fr := by
        intro mem
        rcases keeps fr mem with after | lost
        · refine .inl (mem_live.mpr (.inr (mem_append.mpr ((mem_append.mp after).imp_right fun mem => ?_))))
          exact mem_flatMap_set_self there mem
        · exact .inr (.inl lost)
      rcases mem_append.mp route with inQueue | onStream
      · exact moved (mem_append_left _ inQueue)
      · rcases mem_flatMap_set_or there onStream with other | mine
        · exact .inl (mem_live.mpr (.inr (mem_append_right _ other)))
        · exact moved (mem_append_right _ mine)
    | @handle j st fr' rest act there wire =>
      rcases mem_append.mp route with inQueue | onStream
      · exact .inl (mem_live.mpr (.inr (mem_append_left _ inQueue)))
      · rcases mem_flatMap_set_or there onStream with other | mine
        · exact .inl (mem_live.mpr (.inr (mem_append_right _ other)))
        · have stays : fr ∈ RouteStream.live { st with wire := rest } → fr ∈ Presence.live ({ s with
              handled := fun k => if k = fr'.km then some fr' else s.handled k }.setStream j
                { st with wire := rest }) := fun mem =>
            mem_live.mpr (.inr (mem_append_right _ (mem_flatMap_set_self there mem)))
          rcases mem_append.mp mine with held | onWire
          · exact .inl (stays (mem_append_left _ held))
          · rw [wire] at onWire
            rcases mem_cons.mp onWire with rfl | later
            · exact .inr (.inr (if_pos (.refl _)))
            · exact .inl (stays (mem_append_right _ later))

theorem Turn.unrecorded (turn : Turn s a s') (before : fr ∈ s.unrecorded) :
    fr ∈ s'.unrecorded ∨ fr ∈ s'.recorded ∧ fr ∈ s'.live := by
  cases turn with
  | idle | push | opened | pump | handle => exact .inl before
  | edge => exact .inl (by simpa [advertiseCredits, Presence.unrecorded, Advertiser.unrecorded] using before)
  | read there | enqueue act there => exact .inl ((mem_flatMap_set_or there before).resolve_right nofun)
  | @record i fr' rest act there =>
    rcases mem_flatMap_set_or there before with other | mine
    · exact .inl other
    · obtain rfl := mem_singleton.mp mine
      exact .inr ⟨mem_concat_self, mem_live.mpr (.inl (mem_flatMap_set_self there (mem_singleton_self _)))⟩

theorem upAfter_up (after : s.upAfter a = true) : s.up = true := by
  cases a
  case broken | lost =>
    obtain ⟨st, mem, isUp⟩ := any_eq_true.mp after
    exact any_eq_true.mpr ⟨st, (eraseIdx_sublist _ _).subset mem, isUp⟩
  all_goals exact after

section

variable (turn : Turn s a s')

include turn

theorem Turn.up (after : s'.up = true) :
    s.upAfter a = true ∨ ∀ fr ∈ s.recorded, fr.hasWorker = true → fr ∈ s'.live := by
  cases turn with
  | idle same | edge _ _ same | read _ _ same | push same => exact .inl (same.trans after)
  | record act | enqueue act =>
    subst act
    exact .inl after
  | opened =>
    refine .inr fun fr mem hasWorker => mem_live.mpr (.inr (mem_append_right _ ?_))
    rw [flatMap_append]
    exact mem_append_right _ (mem_new.mpr (mem_filter.mpr ⟨mem, hasWorker⟩))
  | pump _ _ _ up => exact .inl (up after)
  | @handle j st fr rest act there =>
    subst act
    have same : RouteStream.up { st with wire := rest } = st.up := rfl
    exact .inl (set_up there same after)

theorem Turn.latest (after : s'.latest km = some fr) :
    s.latest km = some fr ∨ fr ∈ s'.unrecorded ∧ fr.km = km ∧ fr.serial = s'.readings := by
  cases turn with
  | idle | edge | record | enqueue | push | opened | pump | handle => exact .inl after
  | @read i km' rest fr' there answer =>
    change (if km = km' then some fr' else s.latest km) = some fr at after
    split at after
    · rename_i same
      obtain rfl := Option.some.inj after
      exact .inr ⟨mem_flatMap_set_self there (mem_singleton_self _), by rw [answer, same], by rw [answer]; rfl⟩
    · exact .inl after

theorem Turn.readings : s.readings ≤ s'.readings := by
  cases turn with
  | idle | edge | record | enqueue | push | opened | pump | handle => exact Nat.le_refl _
  | read => exact Nat.le_succ _

theorem Turn.recorded (h : Sound s) (ok : s.overtakes a = false)
    (last : s.latest fr.km = some fr) (before : fr ∈ s.recorded) : fr ∈ s'.recorded := by
  cases turn with
  | idle | edge | read | enqueue | push | opened | pump | handle => exact before
  | @record i fr' rest act there =>
    subst act
    by_cases same : fr.km = fr'.km
    · have known : s.Known fr' :=
        .inl (mem_flatMap.mpr ⟨_, mem_of_getElem? there, mem_singleton_self _⟩)
      have le : fr.serial ≤ fr'.serial := by
        simp only [overtakes, there, Option.elim_some, Advertiser.unrecorded, any_cons, any_nil,
          Bool.or_false, any_eq_false, Bool.and_eq_true, decide_eq_true_eq, not_and, not_lt] at ok
        exact ok fr before same
      rw [h.eq_of_le known last same.symm le]
      exact mem_concat_self
    · exact mem_append_left _ (mem_filter.mpr ⟨before, by simpa using same⟩)

theorem Turn.handled (h : Sound s) (ok : s.overtakes a = false)
    (last : s.latest fr.km = some fr) (before : s.handled fr.km = some fr) : s'.handled fr.km = some fr := by
  cases turn with
  | idle | edge | read | record | enqueue | push | opened | pump => exact before
  | @handle j st fr' rest act there wire =>
    subst act
    change (if fr.km = fr'.km then some fr' else s.handled fr.km) = some fr
    split
    · rename_i same
      have known : s.Known fr' := by
        refine .inr (.inr (.inl (mem_live.mpr (.inr (mem_append_right _ ?_)))))
        refine mem_flatMap.mpr ⟨st, mem_of_getElem? there, mem_append_right _ ?_⟩
        rw [wire]
        exact mem_cons_self ..
      have le : fr.serial ≤ fr'.serial := by
        simpa [overtakes, there, wire, ← same, before] using ok
      rw [h.eq_of_le known last same.symm le]
    · exact before

theorem Turn.latest_forth {w : Interest} (before : s.latest km = some w) :
    s'.latest km = some w ∨ ∃ w', s'.latest km = some w' ∧ w'.serial = s.readings + 1 := by
  cases turn with
  | idle | edge | record | enqueue | push | opened | pump | handle => exact .inl before
  | @read i km' rest fr there answer =>
    by_cases same : km = km'
    · exact .inr ⟨fr, if_pos same, by rw [answer]⟩
    · exact .inl ((if_neg same).trans before)

end

theorem unread_set {i : Nat} {c c' : Advertiser} (there : s.calls[i]? = some c)
    (same : km ∈ c.unread → km ∈ c'.unread) (before : ∃ c ∈ s.calls, km ∈ c.unread) :
    ∃ c ∈ s.calls.set i c', km ∈ c.unread := by
  obtain ⟨d, mem, unread⟩ := before
  rcases mem_set_or mem with stays | mine
  · exact ⟨d, stays, unread⟩
  · cases there.symm.trans mine
    exact ⟨c', mem_set_self there, same unread⟩

theorem Turn.current (turn : Turn s a s')
    (before : (∃ c ∈ s.calls, km ∈ c.unread) ∨ (s.latest km).any (·.hasWorker) = s.broker.hasSubscriber km) :
    (∃ c ∈ s'.calls, km ∈ c.unread) ∨ (s'.latest km).any (·.hasWorker) = s'.broker.hasSubscriber km := by
  cases turn with
  | idle | push | opened | pump | handle => exact before
  | record _ there | enqueue _ there => exact before.imp_left (unread_set there id)
  | @edge broker kms others =>
    by_cases mine : km ∈ kms
    · exact .inl ⟨.reading kms, mem_concat_self, mine⟩
    · refine before.imp ?_ fun same => ?_
      · rintro ⟨c, mem, unread⟩
        exact ⟨c, mem_append_left _ mem, unread⟩
      · show _ = decide (0 < broker.readySubscribers km)
        rw [others km mine]
        exact same
  | @read i km' rest fr there answer =>
    by_cases mine : km = km'
    · refine .inr ?_
      show (if km = km' then some fr else s.latest km).any _ = s.broker.hasSubscriber km
      rw [if_pos mine, answer, mine]
      rfl
    · refine before.imp (unread_set there fun unread => ?_) fun same => ?_
      · exact (mem_cons.mp unread).resolve_left mine
      · show (if km = km' then some fr else s.latest km).any _ = s.broker.hasSubscriber km
        rw [if_neg mine]
        exact same

theorem Sound.turn (h : Sound s) (turn : Turn s a s') (ok : s.Replays a) : Sound s' where
  counted := turn.counted ok.1 h.counted
  named := by
    intro km fr last
    rcases turn.latest last with before | ⟨-, named, serial⟩
    · exact ⟨(h.named before).1, (h.named before).2.trans turn.readings⟩
    · exact ⟨named, serial.le⟩
  handled := by
    intro km fr handled
    cases turn with
    | idle | edge | read | record | enqueue | push | opened | pump => exact h.handled handled
    | @handle j st fr' =>
      change (if km = fr'.km then some fr' else s.handled km) = some fr at handled
      split at handled
      · rename_i same
        cases handled
        exact same.symm
      · exact h.handled handled
  known := by
    intro fr known
    rcases turn.known known with before | ⟨last, -⟩
    · obtain ⟨w, last, le⟩ := h.known before
      have serial : fr.serial ≤ s.readings := by
        have := (h.named last).2
        rcases le with rfl | lt <;> omega
      rcases turn.latest_forth last with same | ⟨w', last', next⟩
      · exact ⟨w, same, le⟩
      · exact ⟨w', last', .inr (by omega)⟩
    · exact ⟨fr, last, .inl rfl⟩
  current := fun km => turn.current (h.current km)
  carried := by
    intro km fr last
    rcases turn.latest last with before | ⟨unrecorded, -⟩
    · obtain ⟨rfl, -⟩ := h.named before
      have replayed : fr ∈ s'.recorded → fr ∈ s.recorded → fr.hasWorker = true → s.upAfter a = false →
        s'.Carried fr := by
        intro mem old hasWorker down
        refine .inr ⟨mem, ?_⟩
        cases up : s'.up with
        | false => exact .inr (.inr ⟨hasWorker, rfl⟩)
        | true =>
          rcases turn.up up with stays | bulk
          · rw [down] at stays
            cases stays
          · exact .inl (bulk fr old hasWorker)
      rcases h.carried before with unrecorded | ⟨old, way⟩
      · exact (turn.unrecorded unrecorded).imp_right fun next => ⟨next.1, .inl next.2⟩
      · have mem := turn.recorded h ok.2.1 before old
        rcases way with live | handled | ⟨hasWorker, down⟩
        · rcases turn.live live with live | lost | handled
          · exact .inr ⟨mem, .inl live⟩
          · obtain ⟨hasWorker, down⟩ := ok.2.2 fr lost before
            exact replayed mem old hasWorker down
          · exact .inr ⟨mem, .inr (.inl handled)⟩
        · exact .inr ⟨mem, .inr (.inl (turn.handled h ok.2.1 before handled))⟩
        · refine replayed mem old hasWorker ?_
          cases after : s.upAfter a with
          | false => rfl
          | true => rw [upAfter_up after] at down; cases down
    · exact .inl unrecorded

/-! ## What the peer has on record -/

/-- If the route is up and everything is delivered, the peer has on record exactly the pairs that a
connected worker is ready for. -/
def Converged (s : Presence) : Prop :=
  s.up = true → s.Delivered → ∀ km, s.servesKindVersion km = true ↔ s.broker.readyWorkers km ≠ []

theorem Delivered.unrecorded (h : s.Delivered) : s.unrecorded = [] := by
  refine flatMap_eq_nil_iff.mpr fun c mem => ?_
  rw [h.1 c mem]
  rfl

theorem Delivered.live (h : s.Delivered) : s.live = [] := by
  have calls : s.calls.flatMap Advertiser.unqueued = [] := by
    refine flatMap_eq_nil_iff.mpr fun c mem => ?_
    rw [h.1 c mem]
    rfl
  have streams : s.streams.flatMap RouteStream.live = [] := by
    refine flatMap_eq_nil_iff.mpr fun st mem => ?_
    simp [RouteStream.live, h.2.2 st mem]
  rw [Presence.live, calls, h.2.1, streams]
  rfl

theorem Sound.converged (h : Sound s) : s.Converged := by
  intro isUp delivered km
  have read : (s.latest km).any (·.hasWorker) = s.broker.hasSubscriber km := by
    refine (h.current km).resolve_left ?_
    rintro ⟨c, mem, unread⟩
    rw [delivered.1 c mem] at unread
    cases unread
  rw [← h.counted.hasSubscriber, ← read, servesKindVersion]
  cases last : s.latest km with
  | none =>
    have unhandled : s.handled km = none := by
      cases handled : s.handled km with
      | none => rfl
      | some fr =>
        obtain rfl := h.handled handled
        obtain ⟨w, there, -⟩ := h.known (.inr (.inr (.inr handled)))
        rw [last] at there
        cases there
    rw [unhandled]
  | some fr =>
    obtain ⟨rfl, -⟩ := h.named last
    have handled : s.handled fr.km = some fr := by
      rcases h.carried last with unrecorded | ⟨-, live | handled | ⟨-, down⟩⟩
      · rw [delivered.unrecorded] at unrecorded
        cases unrecorded
      · rw [delivered.live] at live
        cases live
      · exact handled
      · rw [isUp] at down
        cases down
    rw [handled]

/-- **A peer knows the served pairs.**  In a run that overtakes no answer and loses the last one for a
pair only where the next stream starts with it, the peer is right in every state. -/
theorem served_pairs_converge (actions : List PresenceAction) (replays : Throughout step Replays new actions) :
    Throughout step (fun s a => (s.step a).Converged) new actions :=
  replays.keeps (I := Sound) (fun s a h ok => have next := h.turn (step_turn s a) ok; ⟨next, next.converged⟩) .new

/-! ## A worker's answer that is lost -/

def served : KindVersion := ⟨"vm", 1⟩

/-- An edge of the pair is read, recorded and queued by the call at this position. -/
def advertises (i : Nat) : List PresenceAction := [.read i, .record i, .enqueue i]

/-- The sender of the stream takes the frame, and the stream breaks under it. -/
def sendFails (j : Nat) : List PresenceAction := [.pop j, .broken j, .send j]

def connects : List PresenceAction := [.opened, .connect 0 [served] 1] ++ advertises 0

/-- The first answer is lost with its stream, and the next stream starts with it. -/
theorem served_pairs_converge_replayed :
    let actions : List PresenceAction := connects ++ sendFails 0 ++ [.opened, .sendBulk 1, .handle 1]
    Throughout step (fun s a => (s.step a).Converged) new actions ∧
      (actions.foldl step new).up = true ∧ (actions.foldl step new).Delivered ∧
      (actions.foldl step new).servesKindVersion served = true := by
  intro actions
  have replays : Throughout step Replays new actions := by decide +kernel
  exact ⟨served_pairs_converge actions replays, by decide +kernel⟩

/-- The worker leaves, the answer that says so is lost with its stream, and the next stream starts with
nothing: the peer keeps the pair on record. -/
theorem worker_stays_on_record :
    let actions : List PresenceAction :=
      connects ++ [.pop 0, .send 0, .handle 0, .disconnect 0] ++ advertises 1 ++ sendFails 0 ++ [.opened]
    let s := actions.foldl step new
    s.up = true ∧ s.Delivered ∧ s.servesKindVersion served = true ∧ s.broker.readyWorkers served = [] := by
  decide +kernel

/-! ## The claim gate -/

/-- The count of each pair is that of the connected workers that are ready for it, and the gate is open
exactly if there is one. -/
def GateRight (s : Presence) : Prop :=
  ∀ km, s.broker.readySubscribers km = (s.broker.readyWorkers km).length ∧
    (s.broker.hasSubscriber km = true ↔ s.broker.readyWorkers km ≠ [])

/-- **The gate is right** in every run where each worker names its pairs once and no flip comes after its
stream is removed. -/
theorem gate_right (actions : List PresenceAction) (orderly : Throughout step Orderly new actions) :
    Throughout step (fun s a => (s.step a).GateRight) new actions := by
  refine orderly.keeps (I := fun s => s.broker.Counted) (fun s a h ok => ?_) (.new true)
  have next := (step_turn s a).counted ok h
  exact ⟨next, fun km => ⟨next.count km, next.hasSubscriber km⟩⟩

/-- Two workers; one is not ready for a while, and the other leaves. -/
theorem gate_right_flipped :
    let actions : List PresenceAction :=
      [.connect 0 [served] 1, .connect 1 [served] 1, .flip 0 served false, .disconnect 1, .flip 0 served true]
    Throughout step (fun s a => (s.step a).GateRight) new actions ∧
      (actions.foldl step new).broker.readySubscribers served = 1 := by
  intro actions
  exact ⟨gate_right actions (by decide +kernel), by decide +kernel⟩

/-- A worker names its pair twice and is not ready for it; another worker's flip comes after it left: the
gate stays open for nobody. -/
theorem gate_open_for_nobody : [[.connect 0 [served, served] 1, .flip 0 served false],
      [.connect 0 [served] 1, .flip 0 served false, .disconnect 0, .flip 0 served true]].Forall
      fun actions : List PresenceAction => (actions.foldl step new).broker.hasSubscriber served = true ∧
        (actions.foldl step new).broker.readyWorkers served = [] := by
  decide +kernel

end Presence

end Converge.Kernel
