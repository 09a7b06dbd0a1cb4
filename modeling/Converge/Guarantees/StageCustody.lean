/-
# Guarantees.StageCustody -- a parked stage is in someone's hands

The goroutine of a stage waits for one completion.  Until it is on its way, someone has to have
the stage: its buffer, a fan-in or the main loop of a stream, a stream that sent it and will wake
it when it exits, or a peer (`Held`).

One step loses it.  A fan-in that sees its stream stop gives its stage back with `requeue`, whose
select may take the closed `stop` itself and let the stage go, room in the buffer or not.  The
stage stays in flight, parked, with nobody to deliver it (`fan_in_lets_go`).  Every other step of
every goroutine passes the stage on, so in a run where no fan-in lets a local stage in flight go,
all of them are kept (`stages_in_custody`).
-/
import Converge.Kernel.FanoutSteps

namespace Converge.Kernel

open Converge.Theory List Option

set_option autoImplicit false

variable {sub sub' : ConfigSub} {g : ConfigSub → ConfigSub} {a : FanoutAction} {peer : PeerRef}
    {ref : StageRef} {stream : StreamRef}

/-! ## Custody -/

/-- The main loop has the stage in hand. -/
def Loop.inHand : Loop → Option StageRef
  | .taken stage | .attributed stage | .gated stage | .unsent stage => some stage
  | _ => none

/-- The tokens the stream will still wake: those it sent, and while it exits those that are left. -/
def ConfigSub.answersFor (sub : ConfigSub) : List LeaseToken :=
  match sub.loop with
  | .abandoning tokens => tokens
  | .releasing _ | .stopped | .removed => []
  | _ => sub.sent

/-- A fan-in offers the stage, the main loop has it, or the stream sent it. -/
def ConfigSub.Holds (sub : ConfigSub) (ps : PendingStage) : Prop :=
  .offering ps.ref ∈ sub.fanIns ∨ sub.loop.inHand = some ps.ref ∨ ps.token ∈ sub.answersFor
deriving Decidable

namespace Fanout

/-- Someone has the stage. -/
def Held (f : Fanout) (ps : PendingStage) : Prop :=
  ps.ref ∈ f.byKind ps.km ∨ (∃ sub ∈ f.subs, sub.Holds ps) ∨
    ∃ p ∈ f.peers, p.gone = false ∧ ps.pushedTo = some p.ref ∧ ps.waiter = .pushed p.ref
deriving Decidable

/-- A completion is in its channel or on its way there, or its peer is gone: its goroutine will
take it. -/
def Woken (f : Fanout) (ps : PendingStage) : Prop :=
  ps.resultCh.isSome = true ∨ (∃ w ∈ f.wakes, w.stage = ps.ref) ∨
    ∃ p ∈ f.peers, p.gone = true ∧ ps.waiter = .pushed p.ref
deriving Decidable

/-- Every local stage in flight whose goroutine waits, and for which no completion is on its way,
is in someone's hands. -/
def Conserved (f : Fanout) : Prop :=
  ∀ ps ∈ f.stages, ps.foreign = false → ps.registered = true → ps.waiter.parked = true →
    ¬ Woken f ps → Held f ps
deriving Decidable

/-- A fan-in of a stopped stream lets the stage it offers go, a local one in flight. -/
def letsGo (f : Fanout) : FanoutAction → Bool
  | .stopFanIn stream i false =>
    (f.sub? stream).any fun sub => (sub.loop = .stopped || sub.loop = .removed) && match sub.fanIns[i]? with
      | some (FanIn.offering ref) => (f.stage? ref).any fun ps => !ps.foreign && ps.registered
      | _ => false
  | _ => false

/-! ## What passes a stage on -/

/-- For custody, the same stage. -/
structure Alike (ps ps' : PendingStage) : Prop where
  ref : ps'.ref = ps.ref
  token : ps'.token = ps.token
  km : ps'.km = ps.km
  waiter : ps'.waiter = ps.waiter
  pushedTo : ps'.pushedTo = ps.pushedTo
  buffered : ps.resultCh.isSome = true → ps'.resultCh.isSome = true

/-- What had the stage in `f` has it in `f'`, the streams that `except` names apart. -/
structure Carries (stage : StageRef) (except : StreamRef → Prop) (f f' : Fanout) : Prop where
  byKind : ∀ km, stage ∈ f.byKind km → stage ∈ f'.byKind km
  subs : ∀ sub ∈ f.subs, except sub.ref ∨ ∃ sub' ∈ f'.subs,
    sub'.ref = sub.ref ∧ sub'.fanIns = sub.fanIns ∧ sub'.loop = sub.loop ∧ sub'.sent = sub.sent
  peers : ∀ p ∈ f.peers, ∃ p' ∈ f'.peers, p'.ref = p.ref ∧ (p.gone = true → p'.gone = true)
  wakes : ∀ w ∈ f.wakes, w.stage = stage → w ∈ f'.wakes

def Kept (f : Fanout) (ps : PendingStage) : Prop := f.Held ps ∨ f.Woken ps

section Passing

variable {f f' f'' : Fanout} {ps ps' : PendingStage} {stage : StageRef} {except : StreamRef → Prop}

theorem holds_alike (alike : Alike ps ps') (holds : sub.Holds ps)
    (fanIns : sub'.fanIns = sub.fanIns) (inHand : sub'.loop.inHand = sub.loop.inHand)
    (answers : sub'.answersFor = sub.answersFor) : sub'.Holds ps' := by
  unfold ConfigSub.Holds
  rw [fanIns, inHand, answers, alike.ref, alike.token]
  exact holds

theorem answersFor_eq (loop : sub'.loop = sub.loop) (sent : sub'.sent = sub.sent) :
    sub'.answersFor = sub.answersFor := by
  unfold ConfigSub.answersFor
  rw [loop, sent]

/-- A stage that is passed on is kept; `moved` is about the stream that lets go of it. -/
theorem Carries.kept (carries : Carries ps.ref except f f') (alike : Alike ps ps')
    (moved : ∀ sub ∈ f.subs, except sub.ref → sub.Holds ps → f'.Kept ps') (kept : f.Kept ps) : f'.Kept ps' := by
  rcases kept with (queued | ⟨sub, listed, holds⟩ | ⟨p, listed, -, to_, waits⟩) | full | ⟨w, sent, hit⟩ |
    ⟨p, listed, gone, waits⟩
  · refine .inl (.inl ?_)
    rw [alike.ref, alike.km]
    exact carries.byKind ps.km queued
  · rcases carries.subs sub listed with apart | ⟨sub', listed', -, fanIns, loop, sent⟩
    · exact moved sub listed apart holds
    · exact .inl (.inr (.inl ⟨sub', listed',
        holds_alike alike holds fanIns (by rw [loop]) (answersFor_eq loop sent)⟩))
  · obtain ⟨p', listed', ref, -⟩ := carries.peers p listed
    have waits' : ps'.waiter = .pushed p'.ref := by
      rw [alike.waiter, ref]
      exact waits
    cases gone : p'.gone with
    | false => exact .inl (.inr (.inr ⟨p', listed', gone, by rw [alike.pushedTo, ref]; exact to_, waits'⟩))
    | true => exact .inr (.inr (.inr ⟨p', listed', gone, waits'⟩))
  · exact .inr (.inl (alike.buffered full))
  · exact .inr (.inr (.inl ⟨w, carries.wakes w sent hit, hit.trans alike.ref.symm⟩))
  · obtain ⟨p', listed', ref, stays⟩ := carries.peers p listed
    refine .inr (.inr (.inr ⟨p', listed', stays gone, ?_⟩))
    rw [alike.waiter, ref]
    exact waits

theorem Carries.trans (first : Carries stage except f f') (second : Carries stage except f' f'') :
    Carries stage except f f'' where
  byKind km here := second.byKind km (first.byKind km here)
  subs sub here := by
    rcases first.subs sub here with apart | ⟨sub', there, ref, fanIns, loop, sent⟩
    · exact .inl apart
    · rcases second.subs sub' there with apart | ⟨sub'', last, ref', fanIns', loop', sent'⟩
      · exact .inl (ref ▸ apart)
      · exact .inr ⟨sub'', last, ref'.trans ref, fanIns'.trans fanIns, loop'.trans loop, sent'.trans sent⟩
  peers p here := by
    obtain ⟨p', there, ref, gone⟩ := first.peers p here
    obtain ⟨p'', last, ref', gone'⟩ := second.peers p' there
    exact ⟨p'', last, ref'.trans ref, gone' ∘ gone⟩
  wakes w here hit := second.wakes w (first.wakes w here hit) hit

theorem Carries.mono (carries : Carries stage (fun _ => False) f f') : Carries stage except f f' :=
  { carries with subs := fun sub here => (carries.subs sub here).imp_left False.elim }

/-- Only the stages change, and more is buffered, connected or under way. -/
theorem Carries.of_more (byKind : f.Grows f'.byKind) (subs : ∀ sub ∈ f.subs, sub ∈ f'.subs)
    (peers : ∀ p ∈ f.peers, p ∈ f'.peers) (wakes : ∀ w ∈ f.wakes, w ∈ f'.wakes) :
    Carries stage except f f' where
  byKind km here := byKind km stage here
  subs sub here := .inr ⟨sub, subs sub here, rfl, rfl, rfl, rfl⟩
  peers p here := ⟨p, peers p here, rfl, id⟩
  wakes w here _ := wakes w here

theorem Carries.rfl : Carries stage except f f :=
  .of_more (fun _ _ h => h) (fun _ h => h) (fun _ h => h) fun _ h => h

theorem setSub_carries : Carries stage (· = stream) f (f.setSub stream g) where
  byKind _ h := h
  subs sub here := by
    by_cases same : sub.ref = stream
    · exact .inl same
    · exact .inr ⟨sub, mem_map.mpr ⟨sub, here, if_neg same⟩, rfl, rfl, rfl, rfl⟩
  peers p here := ⟨p, here, rfl, id⟩
  wakes _ h _ := h

theorem carries_of_books (books : Books f f') : Carries stage except f f' where
  byKind km here := books.byKind km _ here
  subs sub here := by
    obtain ⟨sub', there, same⟩ := forall₂_left books.subs here
    exact .inr ⟨sub', there, same.ref, same.fanIns, same.loop, same.sent⟩
  peers p here := ⟨p, books.peers ▸ here, rfl, id⟩
  wakes w here _ := books.wakes ▸ here

theorem Evolves.carries (evolves : Evolves a f f') (still : a.stream? = none)
    (unsent : ∀ w, a = .send w → w.stage ≠ stage) : Carries stage except f f' where
  byKind km here := (evolves.byKind.resolve_right (by rw [still]; exact nofun)) km stage here
  subs sub here := by
    rcases evolves.subs sub here with ⟨sub', there, same⟩ | mine
    · exact .inr ⟨sub', there, same.ref, same.fanIns, same.loop, same.sent⟩
    · exact nomatch still.symm.trans mine
  peers p here := by
    obtain ⟨p', there, ref, -, gone⟩ := evolves.route_forth here
    exact ⟨p', there, ref, gone⟩
  wakes w here hit := (evolves.wakes w here).resolve_right fun sends => unsent w sends hit

theorem setStage_carries {g : PendingStage → PendingStage} : Carries stage except f (f.setStage ref g) :=
  .of_more (fun _ _ h => h) (fun _ h => h) (fun _ h => h) fun _ h => h

/-! ## The invariant -/

/-- What holds of a broker while no fan-in lets a stage go. -/
structure Custody (f : Fanout) : Prop where
  distinct : f.Distinct
  streams : f.streams.Nodup
  own : ∀ ps ∈ f.stages, ps.foreign = false → ps.token = ps.ref
  forwards : ∀ ps ∈ f.stages, ps.foreign = true → ps.waiter.forwards = true
  inFlight : ∀ ps ∈ f.stages, ∀ ps' ∈ f.stages, ps.registered = true → ps'.registered = true →
    ps.token = ps'.token → ps = ps'
  routed : ∀ ps ∈ f.stages, ∀ peer, ps.waiter = .pushing peer → ∃ p ∈ f.peers, p.ref = peer
  kept : ∀ ps ∈ f.stages, ps.foreign = false → ps.registered = true → ps.waiter.parked = true → f.Kept ps

theorem Custody.conserved (h : Custody f) : f.Conserved :=
  fun ps here own registered parked asleep => (h.kept ps here own registered parked).resolve_right asleep

theorem Custody.new (mesh : Bool) : Custody (Fanout.new mesh) where
  distinct := nodup_nil
  streams := nodup_nil
  own _ h := nomatch h
  forwards _ h := nomatch h
  inFlight _ h := nomatch h
  routed _ h := nomatch h
  kept _ h := nomatch h

theorem Custody.inflight? (h : Custody f) (here : ps ∈ f.stages) (registered : ps.registered = true) :
    f.inflight? ps.token = some ps := by
  have some_ : (f.inflight? ps.token).isSome = true := by
    rw [Fanout.inflight?, find?_isSome]
    exact ⟨ps, here, by simp [registered]⟩
  obtain ⟨held, found⟩ := isSome_iff_exists.mp some_
  obtain ⟨there, also, same⟩ := inflight?_spec found
  rw [found, h.inFlight held there ps here also registered same]

theorem Custody.sub_eq (h : Custody f)
    (found : f.sub? stream = some sub) (here : sub' ∈ f.subs) (same : sub'.ref = stream) : sub' = sub := by
  obtain ⟨there, hit⟩ := sub?_ref found
  exact inj_on_of_nodup_map h.streams here there (same.trans hit.symm)

/-! ## What a stream does with the stages it has -/

theorem holds_fanIn (alike : Alike ps ps') (holds : sub.Holds ps) {i : Nat} {now : FanIn}
    (other : sub.fanIns[i]? ≠ some (.offering ps.ref)) (fanIns : sub'.fanIns = sub.fanIns.set i now)
    (loop : sub'.loop = sub.loop) (sent : sub'.sent = sub.sent) : sub'.Holds ps' := by
  unfold ConfigSub.Holds
  rw [alike.ref, alike.token, answersFor_eq loop sent, loop, fanIns]
  exact holds.imp_left fun offered => (mem_set_or offered).resolve_right other

theorem Custody.turn (h : Custody f)
    (found : f.sub? stream = some sub) (carries : Carries ps.ref (fun _ => False) f f') (alike : Alike ps ps')
    (kept : f.Kept ps)
    (moved : ∀ sub', sub'.fanIns = sub.fanIns → sub'.loop = sub.loop → sub'.sent = sub.sent → sub.Holds ps →
      (g sub').Holds ps' ∨ (f'.setSub stream g).Kept ps') : (f'.setSub stream g).Kept ps' := by
  refine (carries.mono.trans setSub_carries).kept alike (fun other here same holds => ?_) kept
  obtain rfl := h.sub_eq found here same
  rcases carries.subs other here with no | ⟨sub', there, ref, fanIns, loop, sent⟩
  · exact no.elim
  · rcases moved sub' fanIns loop sent holds with still | passed
    · exact .inl (.inr (.inl ⟨_, mem_map.mpr ⟨sub', there, if_pos (ref.trans same)⟩, still⟩))
    · exact passed

theorem Custody.goes_on (h : Custody f)
    (found : f.sub? stream = some sub) (carries : Carries ps.ref (fun _ => False) f f') (alike : Alike ps ps')
    (kept : f.Kept ps) (fanIns : ∀ sub', (g sub').fanIns = sub'.fanIns)
    (inHand : ∀ sub', sub'.loop = sub.loop → (g sub').loop.inHand = sub.loop.inHand)
    (answers : ∀ sub', sub'.loop = sub.loop → sub'.sent = sub.sent → (g sub').answersFor = sub.answersFor) :
    (f'.setSub stream g).Kept ps' :=
  h.turn found carries alike kept fun sub' same loop sent holds =>
    .inl (holds_alike alike holds ((fanIns sub').trans same) (inHand sub' loop) (answers sub' loop sent))

theorem Custody.turn_requeue (h : Custody f) {back : PendingStage} (found : f.sub? stream = some sub)
    (done : (f.setSub stream g).requeue back = some f') (here : ps ∈ f.stages)
    (registered : ps.registered = true) (alike : Alike ps ps') (kept : f.Kept ps)
    (moved : sub.Holds ps → (g sub).Holds ps' ∨ back = ps) : f'.Kept ps' := by
  obtain ⟨byKind, rfl, grows, queued⟩ := requeue_spec done
  obtain ⟨listed, hit⟩ := sub?_ref found
  have carries : Carries ps.ref (· = stream) f { f.setSub stream g with byKind := byKind } :=
    setSub_carries.trans (.of_more grows (fun _ h => h) (fun _ h => h) fun _ h => h)
  refine carries.kept alike (fun other there same holds => ?_) kept
  obtain rfl := h.sub_eq found there same
  rcases moved holds with still | rfl
  · exact .inl (.inr (.inl ⟨_, mem_map.mpr ⟨other, listed, if_pos hit⟩, still⟩))
  · refine .inl (.inl ?_)
    rw [alike.ref, alike.km]
    refine queued ?_
    show (f.inflight? back.token).isSome = true
    rw [h.inflight? here registered]
    rfl

theorem kept_alike (alike : Alike ps ps') (kept : f.Kept ps) : f.Kept ps' :=
  have idle : Carries ps.ref (fun _ => False) f f := .rfl
  idle.kept alike (fun _ _ no => no.elim) kept

theorem atStream_kept {move : ConfigSub → Option Fanout} (idle : f.Kept ps')
    (moves : ∀ sub f', f.sub? stream = some sub → move sub = some f' → f'.Kept ps') :
    (f.atStream stream move).Kept ps' :=
  getD_bind_cases (P := fun f' : Fanout => f'.Kept ps') idle moves

/-- **A step passes a stage on**: one in flight, local, whose goroutine stays where it is. -/
theorem Custody.pass (h : Custody f) (safe : f.letsGo a = false) (here : ps ∈ f.stages)
    (own : ps.foreign = false) (registered : ps.registered = true) (after : ps' ∈ (f.step a).stages)
    (alike : Alike ps ps') (kept : f.Kept ps) : (f.step a).Kept ps' := by
  have idle : f.Kept ps' := kept_alike alike kept
  have carry {f' : Fanout} (carries : Carries ps.ref (fun _ => False) f f') : f'.Kept ps' :=
    carries.kept alike (fun _ _ no => no.elim) kept
  -- the stage a loop has in hand is this one
  have inHand {ref : StageRef} {back : PendingStage} (seen : f.stage? ref = some back) (hit : ref = ps.ref) :
      back = ps := by
    rw [hit, h.distinct.stage? here] at seen
    exact (some.inj seen).symm
  cases a with
  | pop stream i =>
    refine atStream_kept idle fun sub f' found done => ?_
    split at done
    next km waiting _ =>
      split at done
      · cases done
      next ref rest buffer =>
        cases done
        obtain ⟨listed, hit⟩ := sub?_ref found
        have room : i < sub.fanIns.length := (List.getElem?_eq_some_iff.mp waiting).1
        by_cases mine : ref = ps.ref
        · refine .inl (.inr (.inl ⟨_, mem_map.mpr ⟨sub, listed, if_pos hit⟩, .inl ?_⟩))
          rw [alike.ref, ← mine]
          exact mem_set room _
        · refine h.turn found ⟨fun k queued => ?_, fun s here => .inr ⟨s, here, rfl, rfl, rfl, rfl⟩,
            fun p here => ⟨p, here, rfl, id⟩, fun _ here _ => here⟩ alike kept
            fun s fanIns loop sent holds => .inl ?_
          · dsimp only
            split
            next same =>
              rw [same, buffer] at queued
              exact (mem_cons.mp queued).resolve_left fun hit => mine hit.symm
            next => exact queued
          · exact holds_fanIn alike holds (by rw [waiting]; simp) (by rw [← fanIns]) loop sent
    next => cases done
  | acquire stream =>
    refine atStream_kept idle fun sub f' found done => ?_
    split at done <;> cases done
    exact h.goes_on found .rfl alike kept (fun _ => rfl) (fun s loop => congrArg Loop.inHand loop)
      fun _ loop sent => answersFor_eq loop sent
  | take stream i =>
    refine atStream_kept idle fun sub f' found done => ?_
    split at done
    next ref offering =>
      split at done <;> cases done
      next ready =>
        simp only [Bool.and_eq_true, decide_eq_true_eq] at ready
        refine h.turn found .rfl alike kept fun s fanIns loop sent holds => .inl ?_
        unfold ConfigSub.Holds
        rw [alike.ref, alike.token]
        rcases holds with offered | inHand | answers
        · rw [← fanIns] at offered offering
          rcases mem_set_or offered with still | at_
          · exact .inl still
          · rw [offering] at at_
            cases at_
            exact .inr (.inl rfl)
        · rw [ready.1] at inHand
          cases inHand
        · refine .inr (.inr ?_)
          simp only [ConfigSub.answersFor, ready.1] at answers
          simpa only [ConfigSub.answersFor, sent] using answers
    next => cases done
  | bounce stream =>
    refine atStream_kept idle fun sub f' found done => ?_
    split at done
    next ref taken =>
      obtain ⟨back, seen, done⟩ := bind_eq_some_iff.mp done
      split at done
      · cases done
      · refine h.turn_requeue found done here registered alike kept fun holds => ?_
        unfold ConfigSub.Holds at holds ⊢
        rw [alike.ref, alike.token]
        simp only [ConfigSub.answersFor, taken, Loop.inHand, some.injEq] at holds ⊢
        rcases holds with offered | mine | sent
        · exact .inl (.inl offered)
        · exact .inr (inHand seen mine)
        · exact .inl (.inr (.inr sent))
    next => cases done
  | attributeTask stream =>
    refine atStream_kept idle fun sub f' found done => ?_
    split at done
    next ref taken =>
      obtain ⟨back, seen, done⟩ := bind_eq_some_iff.mp done
      have books := attributeToStream_books (f := f) back stream
      -- what is in flight, the stream gets
      have gets (mine : ref = ps.ref) : (f.attributeToStream back stream).2 = true := by
        obtain rfl := inHand seen mine
        unfold attributeToStream
        rw [own, h.inflight? here registered]
        simp only [Bool.false_eq_true, if_false, isNone_some]
        split <;> rfl
      split at done
      · cases done
      generalize f.attributeToStream back stream = got at books gets done
      obtain ⟨g, delivered⟩ := got
      cases done
      refine h.turn found (carries_of_books books) alike kept fun s fanIns loop sent holds => .inl ?_
      unfold ConfigSub.Holds at holds ⊢
      rw [alike.ref, alike.token]
      simp only [ConfigSub.answersFor, taken, Loop.inHand, some.injEq, fanIns] at holds ⊢
      rcases holds with offered | mine | answers
      · exact .inl offered
      · rw [if_pos (gets mine)]
        exact .inr (.inl (congrArg some mine))
      · rw [← sent] at answers
        cases delivered <;> exact .inr (.inr answers)
    next => cases done
  | gate stream =>
    refine atStream_kept idle fun sub f' found done => ?_
    split at done
    next ref attributed =>
      obtain ⟨back, -, rfl⟩ := map_eq_some_iff.mp done
      exact h.goes_on found setStage_carries alike kept (fun _ => rfl) (fun _ _ => by rw [attributed]; rfl)
        fun _ _ sent => by simpa only [ConfigSub.answersFor, attributed] using sent
    next => cases done
  | sendTask stream =>
    refine atStream_kept idle fun sub f' found done => ?_
    split at done
    next ref gated =>
      obtain ⟨back, seen, rfl⟩ := map_eq_some_iff.mp done
      refine h.turn found .rfl alike kept fun s fanIns loop sent holds => .inl ?_
      unfold ConfigSub.Holds at holds ⊢
      rw [alike.ref, alike.token]
      simp only [ConfigSub.answersFor, gated, Loop.inHand, some.injEq, fanIns, sent,
        mem_append, mem_singleton] at holds ⊢
      rcases holds with offered | mine | answers
      · exact .inl offered
      · exact .inr (.inr (.inr (by rw [inHand seen mine])))
      · exact .inr (.inr (.inl answers))
    next => cases done
  | sendFailed stream =>
    refine atStream_kept idle fun sub f' found done => ?_
    split at done
    next ref gated =>
      obtain ⟨back, -, rfl⟩ := map_eq_some_iff.mp done
      exact h.goes_on found (carries_of_books (unattributeFromStream_books back)) alike kept (fun _ => rfl)
        (fun _ _ => by rw [gated]; rfl) fun _ _ sent => by simpa only [ConfigSub.answersFor, gated] using sent
    next => cases done
  | giveBack stream =>
    refine atStream_kept idle fun sub f' found done => ?_
    split at done
    next ref unsent =>
      obtain ⟨back, seen, done⟩ := bind_eq_some_iff.mp done
      refine h.turn_requeue found done here registered alike kept fun holds => ?_
      unfold ConfigSub.Holds at holds ⊢
      rw [alike.ref, alike.token]
      simp only [ConfigSub.answersFor, unsent, Loop.inHand, some.injEq] at holds ⊢
      rcases holds with offered | mine | sent
      · exact .inl (.inl offered)
      · exact .inr (inHand seen mine)
      · exact .inl (.inr (.inr sent))
    next => cases done
  | exit stream | release stream | stop stream =>
    refine atStream_kept idle fun sub f' found done => ?_
    split at done <;> cases done
    next loop =>
      exact h.goes_on found .rfl alike kept (fun _ => rfl) (fun _ _ => by rw [loop]; rfl)
        fun _ _ sent => by simp only [ConfigSub.answersFor, loop, sent]
  | abandon stream =>
    refine atStream_kept idle fun sub f' found done => ?_
    split at done
    next token rest abandoning =>
      split at done <;> cases done
      have still (other : ps.token ≠ token) :
          (f.setSub stream ({ · with loop := .abandoning rest })).Kept ps' := by
        refine h.turn found .rfl alike kept fun s fanIns loop sent holds => .inl ?_
        unfold ConfigSub.Holds at holds ⊢
        rw [alike.ref, alike.token]
        simp only [ConfigSub.answersFor, abandoning, Loop.inHand, fanIns] at holds ⊢
        exact holds.imp_right fun held => held.imp_right fun listed => (mem_cons.mp listed).resolve_left other
      cases seen : (f.setSub stream ({ · with loop := .abandoning rest })).inflight? token with
      | none =>
        refine still fun same => ?_
        have registered := h.inflight? here registered
        rw [same] at registered
        cases seen.symm.trans registered
      | some back =>
        by_cases mine : ps.token = token
        · have registered := h.inflight? here registered
          rw [mine] at registered
          obtain rfl : back = ps := some.inj (seen.symm.trans registered)
          exact .inr (.inr (.inl ⟨_, mem_concat_self, alike.ref.symm⟩))
        · have more : Carries ps'.ref (fun _ => False) (f.setSub stream ({ · with loop := .abandoning rest }))
              ((f.setSub stream ({ · with loop := .abandoning rest })).wake (.teardown stream) back.ref
                (.synthesized reasonWorkerStreamDropped)) :=
            .of_more (fun _ _ h => h) (fun _ h => h) (fun _ h => h) fun _ h => mem_append_left _ h
          exact more.kept ⟨rfl, rfl, rfl, rfl, rfl, id⟩ (fun _ _ no => no.elim) (still mine)
    next => cases done
  | collect stream =>
    refine atStream_kept idle fun sub f' found done => ?_
    split at done
    next abandoned =>
      split at done <;> cases done
      exact h.goes_on found .rfl alike kept (fun _ => rfl) (fun _ _ => by rw [abandoned]; rfl)
        fun _ _ _ => by simp only [ConfigSub.answersFor, abandoned]
    next => cases done
  | stopFanIn stream i requeued =>
    refine atStream_kept idle fun sub f' found done => ?_
    obtain rfl := (sub?_ref found).2
    split at done
    next stopped =>
      unfold stopFanIn at done
      simp only at done
      split at done
      next waiting =>
        cases done
        exact h.turn found .rfl alike kept fun s fanIns loop sent holds =>
          .inl (holds_fanIn alike holds (by rw [waiting]; simp) (by rw [← fanIns]) loop sent)
      next ref offering =>
        obtain ⟨back, seen, done⟩ := bind_eq_some_iff.mp done
        have other (apart : ref ≠ ps.ref) : sub.fanIns[i]? ≠ some (.offering ps.ref) := by
          rw [offering]
          rintro ⟨⟩
          exact apart rfl
        split at done
        next lets =>
          cases done
          refine h.turn found .rfl alike kept fun s fanIns loop sent holds =>
            .inl (holds_fanIn alike holds (other fun mine => ?_) (by rw [← fanIns]) loop sent)
          obtain rfl := inHand seen mine
          rw [own, Bool.false_or, Bool.not_eq_true'] at lets
          subst lets
          rw [letsGo, found, any_some, stopped, offering] at safe
          simp [seen, own, registered] at safe
        next =>
          refine h.turn_requeue found done here registered alike kept fun holds => ?_
          by_cases mine : ref = ps.ref
          · exact .inr (inHand seen mine)
          · exact .inl (holds_fanIn alike holds (other mine) rfl rfl rfl)
      next => cases done
    next => cases done
  | remove stream =>
    refine atStream_kept idle fun sub f' found done => ?_
    split at done <;> cases done
    next stopped =>
      obtain rfl := (sub?_ref found).2
      show (f.setSub sub.ref ({ · with loop := .removed })).Kept ps'
      exact h.goes_on found .rfl alike kept (fun _ => rfl) (fun _ _ => by rw [stopped]; rfl)
        fun _ _ _ => by simp only [ConfigSub.answersFor, stopped]
  | send w =>
    by_cases sent : w ∈ f.wakes
    · by_cases mine : w.stage = ps.ref
      · exact .inr (.inl (send_full sent after (alike.ref.trans mine.symm)))
      · exact carry ((step_evolves h.distinct _).carries rfl fun _ same => by cases same; exact mine)
    · simp only [step, if_neg sent]
      exact idle
  | _ => exact carry ((step_evolves h.distinct _).carries rfl (by simp))

/-! ## Every step -/

/-- A push that is noted: on the stage itself, and on no other local stage in flight. -/
theorem Custody.notePushed (h : Custody f) (after : ps' ∈ (f.step (.notePushed ref)).stages)
    (own : ps'.foreign = false) (registered : ps'.registered = true) :
    ps' ∈ f.stages ∨ ∃ lead ∈ f.stages, ∃ peer, lead.waiter = .pushing peer ∧
      ps' = { lead with pushedTo := some peer, waiter := .pushed peer } := by
  simp only [step, atStage] at after
  cases found : f.stage? ref with
  | none =>
    rw [found] at after
    exact .inl after
  | some lead =>
    rw [found, bind_some] at after
    obtain ⟨there, hit⟩ := stage?_ref found
    split at after
    next peer pushing =>
      cases seen : f.inflight? lead.token with
      | none =>
        rw [seen] at after
        obtain ⟨old, here, rfl⟩ := mem_map.mp after
        split at registered
        next same =>
          obtain rfl := h.distinct.eq found here same
          cases seen.symm.trans (h.inflight? here registered)
        next other =>
          rw [if_neg other]
          exact .inl here
      | some held =>
        rw [seen] at after
        obtain ⟨_, noted, rfl⟩ := mem_map.mp after
        obtain ⟨old, here, rfl⟩ := mem_map.mp noted
        obtain ⟨listed, -, shared⟩ := inflight?_spec seen
        by_cases hits : old.ref = held.ref
        · obtain rfl : old = held := inj_on_of_nodup_map h.distinct here listed hits
          rw [if_pos rfl] at own ⊢
          by_cases same : old.ref = ref
          · rw [if_pos same]
            obtain rfl := h.distinct.eq found here same
            exact .inr ⟨old, here, peer, pushing, rfl⟩
          · -- both local: the token is the pointer
            rw [if_neg same] at own
            have leadOwn : lead.foreign = false := by
              rw [← Bool.not_eq_true]
              intro foreign
              have forwards := h.forwards lead there foreign
              rw [pushing] at forwards
              cases forwards
            refine absurd ?_ same
            rw [← h.own old here own, shared, h.own lead there leadOwn, hit]
        · rw [if_neg hits] at registered ⊢
          by_cases same : old.ref = ref
          · rw [if_pos same] at registered
            obtain rfl := h.distinct.eq found here same
            have mine := h.inflight? here registered
            rw [seen] at mine
            cases mine
            exact absurd rfl hits
          · rw [if_neg same]
            exact .inl here
    next => exact .inl after

theorem Custody.enqueue (h : Custody f) (here : ps ∈ f.stages) (after : ps' ∈ (f.step (.enqueue ps.ref)).stages)
    (same : ps'.ref = ps.ref) : ps' = ps ∨ ps.ref ∈ (f.step (.enqueue ps.ref)).byKind ps.km := by
  simp only [step, atStage, h.distinct.stage? here, bind_some] at after ⊢
  split at after
  · exact .inl (h.distinct.eq (h.distinct.stage? here) after same)
  next admitted =>
    rw [if_neg admitted]
    cases done : (f.setWaiter ps.ref .queued).queue ps with
    | none =>
      rw [done] at after
      exact .inl (h.distinct.eq (h.distinct.stage? here) after same)
    | some f' =>
      obtain ⟨byKind, rfl, -, queued⟩ := queue_spec done
      exact .inr queued

theorem Custody.step_kept (h : Custody f) (safe : f.letsGo a = false)
    (after : ps' ∈ (f.step a).stages) (own : ps'.foreign = false) (registered : ps'.registered = true)
    (parked : ps'.waiter.parked = true) : (f.step a).Kept ps' := by
  have evolves := step_evolves h.distinct a
  by_cases noted : ∃ ref, a = .notePushed ref
  · obtain ⟨ref, rfl⟩ := noted
    rcases h.notePushed after own registered with here | ⟨lead, here, peer, pushing, rfl⟩
    · exact h.pass safe here own registered after ⟨rfl, rfl, rfl, rfl, rfl, id⟩
        (h.kept ps' here own registered parked)
    · obtain ⟨p, there, rfl⟩ := h.routed lead here peer pushing
      obtain ⟨p', there', same, -⟩ := evolves.route_forth there
      cases gone : p'.gone with
      | false => exact .inl (.inr (.inr ⟨p', there', gone, congrArg some same.symm, congrArg _ same.symm⟩))
      | true => exact .inr (.inr (.inr ⟨p', there', gone, congrArg _ same.symm⟩))
  · rcases evolves.back after with ⟨ps, here, follows⟩ | made
    · have pass (same : ps'.waiter = ps.waiter) : (f.step a).Kept ps' := by
        refine h.pass safe here (follows.foreign ▸ own) (follows.registered registered) after
          ⟨follows.ref, follows.token, follows.km, same, follows.pushedTo.resolve_right noted,
            follows.buffered parked⟩ ?_
        exact h.kept ps here (follows.foreign ▸ own) (follows.registered registered) (same ▸ parked)
      rcases follows.parks parked with same | rfl | rfl
      · exact pass same
      · rcases h.enqueue here after follows.ref with rfl | queued
        · exact pass rfl
        · refine .inl (.inl ?_)
          rw [follows.ref, follows.km]
          exact queued
      · exact absurd ⟨ps.ref, rfl⟩ noted
    · -- a new stage is not parked yet
      rcases made.from_ with ⟨-, -, -, placing⟩ | ⟨owner, -, foreign, -⟩
      · rw [placing] at parked
        cases parked
      · rw [own] at foreign
        cases foreign

theorem Custody.step_routed (h : Custody f) (after : ps' ∈ (f.step a).stages)
    (pushing : ps'.waiter = .pushing peer) : ∃ p ∈ (f.step a).peers, p.ref = peer := by
  have evolves := step_evolves h.distinct a
  have stays (there : ∃ p ∈ f.peers, p.ref = peer) : ∃ p ∈ (f.step a).peers, p.ref = peer := by
    obtain ⟨p, there, rfl⟩ := there
    obtain ⟨p', there', same, -⟩ := evolves.route_forth there
    exact ⟨p', there', same⟩
  rcases evolves.back after with ⟨ps, here, follows⟩ | made
  · rcases follows.pushes peer pushing with same | rfl
    · exact stays (h.routed ps here peer (same ▸ pushing))
    · cases found : f.peer? peer with
      | some p => exact stays ⟨p, mem_of_find?_eq_some found, by simpa using find?_some found⟩
      | none =>
        have idle : f.step (.push ps.ref peer) = f := by
          simp only [step, atStage, found, bind_none, ite_self, bind_fun_none, getD_none]
        rw [idle] at after
        exact stays (h.routed ps' after peer pushing)
  · rcases made.from_ with ⟨-, -, -, placing⟩ | ⟨owner, -, -, -, forwarding⟩
    · cases placing.symm.trans pushing
    · cases forwarding.symm.trans pushing

/-- **Step.** -/
theorem Custody.step (h : Custody f) (safe : f.letsGo a = false) : Custody (f.step a) := by
  have evolves := step_evolves h.distinct a
  refine ⟨evolves.distinct h.distinct, evolves.distinct_streams h.streams, ?_, ?_, ?_,
    fun _ after _ => h.step_routed after, fun _ after => h.step_kept safe after⟩
  · intro ps' after own
    rcases evolves.back after with ⟨ps, here, follows⟩ | made
    · rw [follows.token, follows.ref]
      exact h.own ps here (follows.foreign ▸ own)
    · rcases made.from_ with ⟨-, token, -⟩ | ⟨owner, -, foreign, -⟩
      · exact token
      · rw [own] at foreign
        cases foreign
  · intro ps' after foreign
    rcases evolves.back after with ⟨ps, here, follows⟩ | made
    · exact follows.forwards (h.forwards ps here (follows.foreign ▸ foreign))
    · rcases made.from_ with ⟨-, -, own, -⟩ | ⟨owner, -, -, -, forwarding⟩
      · rw [own] at foreign
        cases foreign
      · rw [forwarding]
        rfl
  · intro one after two after' registered registered' same
    obtain ⟨kept, made, all, follows, few, new⟩ := evolves.stages
    rw [all] at after after'
    rcases mem_append.mp after with old | fresh <;> rcases mem_append.mp after' with old' | fresh'
    · obtain ⟨ps, here, step⟩ := forall₂_right follows old
      obtain ⟨ps', here', step'⟩ := forall₂_right follows old'
      have tokens : ps.token = ps'.token := step.token.symm.trans (same.trans step'.token)
      have eq := h.inFlight ps here ps' here' (step.registered registered) (step'.registered registered') tokens
      refine inj_on_of_nodup_map (evolves.distinct h.distinct) (all ▸ after) (all ▸ after') ?_
      rw [step.ref, step'.ref, eq]
    · exact absurd same ((new two fresh').2 one old registered)
    · exact absurd same.symm ((new one fresh).2 two old' registered')
    · obtain ⟨this, rfl⟩ := length_eq_one_iff.mp (Nat.le_antisymm few (length_pos_of_mem fresh))
      rw [mem_singleton.mp fresh, mem_singleton.mp fresh']

end Passing

/-! ## Every run -/

/-- **While no fan-in lets a stage go, every stage is in someone's hands**: after every step of
every run of a broker. -/
theorem stages_in_custody (mesh : Bool) (actions : List FanoutAction)
    (safe : Throughout step (fun f a => f.letsGo a = false) (Fanout.new mesh) actions) :
    Throughout step (fun f a => (f.step a).Conserved) (Fanout.new mesh) actions :=
  safe.keeps (I := Custody) (fun _ _ h safe => ⟨h.step safe, (h.step safe).conserved⟩) (.new mesh)

/-! ## A stream that stops -/

/-- A stream stops while its fan-in offers the stage that it popped. -/
def streamStops : List FanoutAction :=
  let km : KindVersion := ⟨"job", 1⟩
  [.subscribe 1 [km] 1, .dispatch 0 km none, .look 0, .enqueue 0, .pop 1 0, .exit 1, .collect 1, .stop 1]

/-- The stage goes back, to the next stream, which sends it. -/
theorem stages_in_custody_given_back :
    let again : List FanoutAction :=
      [.stopFanIn 1 0 true, .remove 1, .subscribe 2 [⟨"job", 1⟩] 1, .pop 2 0, .acquire 2, .take 2 0,
        .attributeTask 2, .gate 2, .sendTask 2]
    Throughout step (fun f a => (f.step a).Conserved) (Fanout.new true) (streamStops ++ again) ∧
      (List.foldl step (Fanout.new true) (streamStops ++ again)).subs.map (·.sent) = [[], [0]] := by
  intro again
  have safe : Throughout step (fun f a => f.letsGo a = false) (Fanout.new true) (streamStops ++ again) := by
    decide +kernel
  exact ⟨stages_in_custody true _ safe, by decide +kernel⟩

/-- Or the fan-in lets it go: its goroutine waits, and no stream that is left has it. -/
theorem fan_in_lets_go :
    let f := List.foldl step (Fanout.new true) (streamStops ++ [.stopFanIn 1 0 false, .remove 1])
    ¬ f.Conserved ∧ f.wakes = [] ∧ f.byKind ⟨"job", 1⟩ = [] ∧
      (∀ sub ∈ f.subs, sub.loop = .removed ∧ sub.fanIns = [.exited]) ∧
      ∃ ps ∈ f.stages, ps.registered = true ∧ ps.waiter = .queued ∧ ps.resultCh = none := by
  decide +kernel

end Fanout

end Converge.Kernel
