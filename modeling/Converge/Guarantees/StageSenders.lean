/-
# Guarantees.StageSenders -- who may complete a stage

A complete is meant to be bound to its stream: it resolves a parked stage only if that stage was
sent on the stream, or forwarded to the peer, that it came from.  `deliver` looks at the token
alone.  A worker or a peer that knows the token of another's stage resolves it
(`foreign_complete_resolves`).

Tokens are drawn once and stand for one stage on each broker (`Tokens.unique`).  So a complete
stays with its sender exactly if the token is not in flight, or is that of a stage the sender was
given (`complete_stays_with_sender`).
-/
import Converge.Kernel.Tokens

namespace Converge.Kernel

open Converge.Theory List Option

set_option autoImplicit false

/-- Step `a` takes stage `ps` out of flight. -/
def TakesOut (f : Fanout) (a : FanoutAction) (ps : PendingStage) : Prop :=
  ps ∈ f.stages ∧ ps.registered = true ∧ ∃ ps' ∈ (f.step a).stages, ps'.ref = ps.ref ∧ ps'.registered = false
deriving Decidable

/-- The stage was sent on the stream. -/
def SentOn (sub : ConfigSub) (ps : PendingStage) : Prop := ps.ref ∈ sub.delivered
deriving Decidable

/-- The stage was forwarded to the broker on the other side of the route. -/
def ForwardedTo (f : Fanout) (p : Peer) (ps : PendingStage) : Prop :=
  ∃ p' ∈ f.peers, p'.memberId = p.memberId ∧ ps.forwarded = some p'.ref
deriving Decidable

/-! ## What a complete resolves -/

section Deliver

variable {f : Fanout} {token : LeaseToken}

/-- A delivery resolves the stage in flight under its token, whoever it comes from. -/
theorem deliver_takesOut (distinct : f.Distinct) {sender : Sender} {c : Completion}
    {a : FanoutAction} (delivers : f.step a = f.deliver sender token c) {ps : PendingStage} :
    TakesOut f a ps ↔ f.inflight? token = some ps := by
  have same {x y : PendingStage} (mine : x ∈ f.stages) (theirs : y ∈ f.stages) (eq : x.ref = y.ref) : x = y :=
    inj_on_of_nodup_map distinct mine theirs eq
  unfold TakesOut
  rw [delivers]
  unfold Fanout.deliver
  cases found : f.inflight? token with
  | none =>
    refine ⟨?_, nofun⟩
    rintro ⟨here, registered, ps', after, ref, out⟩
    rw [same after here ref, registered] at out
    cases out
  | some held =>
    obtain ⟨there, inFlight, -⟩ := Fanout.inflight?_spec found
    have stages : ((some held).elim f fun ps => (f.unregister ps).wake sender ps.ref c).stages =
      (f.unregister held).stages := rfl
    rw [stages, Fanout.unregister_stages]
    constructor
    · rintro ⟨here, registered, ps', after, ref, out⟩
      obtain ⟨old, listed, rfl⟩ := mem_map.mp after
      split at ref
      next hit => rw [same here there (ref.symm.trans hit)]
      next other =>
        rw [if_neg other, same listed here ref, registered] at out
        cases out
    · rintro hit
      obtain rfl := some.inj hit
      exact ⟨there, inFlight, _, mem_map.mpr ⟨held, there, rfl⟩, by rw [if_pos rfl], by rw [if_pos rfl]⟩

/-- Where a token stands for one stage, the stage resolved is among those given exactly if the
token is out of flight or is that of one of them. -/
theorem takesOut_given (distinct : f.Distinct)
    (unique : ∀ ps ∈ f.stages, ∀ ps' ∈ f.stages, ps.token = ps'.token → ps = ps') {sender : Sender}
    {c : Completion} {a : FanoutAction} (delivers : f.step a = f.deliver sender token c)
    (given : PendingStage → Prop) : (∀ ps, TakesOut f a ps → given ps) ↔
      f.inflight? token = none ∨ ∃ ps ∈ f.stages, ps.token = token ∧ given ps := by
  constructor
  · intro only
    cases found : f.inflight? token with
    | none => exact .inl rfl
    | some ps =>
      obtain ⟨here, -, hit⟩ := Fanout.inflight?_spec found
      exact .inr ⟨ps, here, hit, only ps ((deliver_takesOut distinct delivers).mpr found)⟩
  · intro known ps resolved
    have found := (deliver_takesOut distinct delivers).mp resolved
    obtain ⟨here, -, hit⟩ := Fanout.inflight?_spec found
    rcases known with none | ⟨ps', there, hit', ok⟩
    · cases none.symm.trans found
    · rw [unique ps here ps' there (hit.trans hit'.symm)]
      exact ok

end Deliver

/-! ## Every run -/

/-- **A complete stays with its sender exactly if the sender was given its token.** -/
theorem complete_stays_with_sender [Postgres] {s : Cluster} (reached : s.Reached) (id : String)
    (token : LeaseToken) (sc : StageComplete) :
    (∀ sub ∈ (s.brokers id).subs, (s.brokers id).free (.worker sub.ref) = true →
      ((∀ ps, TakesOut (s.brokers id) (.complete sub.ref token sc) ps → SentOn sub ps) ↔
        (s.brokers id).inflight? token = none ∨
          ∃ ps ∈ (s.brokers id).stages, ps.token = token ∧ SentOn sub ps)) ∧
    (∀ p ∈ (s.brokers id).peers, (s.brokers id).free (.route p.ref) = true →
      ((∀ ps, TakesOut (s.brokers id) (.routeComplete p.ref token ⟨sc, false⟩) ps →
          ForwardedTo (s.brokers id) p ps) ↔
        (s.brokers id).inflight? token = none ∨
          ∃ ps ∈ (s.brokers id).stages, ps.token = token ∧ ForwardedTo (s.brokers id) p ps)) := by
  have tokens := reached.tokens
  have unique : ∀ ps ∈ (s.brokers id).stages, ∀ ps' ∈ (s.brokers id).stages,
      ps.token = ps'.token → ps = ps' := fun _ here _ there => tokens.unique here there
  constructor
  · intro sub listed free
    have known : ((s.brokers id).sub? sub.ref).isSome = true := by
      rw [Fanout.sub?, find?_isSome]
      exact ⟨sub, listed, decide_eq_true rfl⟩
    obtain ⟨found, seen⟩ := isSome_iff_exists.mp known
    have delivers : (s.brokers id).step (.complete sub.ref token sc) =
        (s.brokers id).deliver (.worker sub.ref) token ⟨sc, false⟩ := by
      show Fanout.atStream _ _ _ = _
      rw [Fanout.atStream, seen, bind_some, if_pos free, getD_some]
    exact takesOut_given (tokens.distinct id) unique delivers (SentOn sub)
  · intro p listed free
    have delivers : (s.brokers id).step (.routeComplete p.ref token ⟨sc, false⟩) =
        (s.brokers id).deliver (.route p.ref) token ⟨sc, false⟩ := if_pos free
    exact takesOut_given (tokens.distinct id) unique delivers (ForwardedTo (s.brokers id) p)

/-! ## Two workers, and a peer -/

/-- A stage of broker `a` that worker 1 runs, where worker 2 and peer 3 are connected. -/
def stageSent : List ClusterAction :=
  let km : KindVersion := ⟨"job", 1⟩
  [.react "a" km, .subscribe "a" [km] 1, .subscribe "a" [km] 1, .join "a" "b"] ++
    ([.look 0, .enqueue 0, .pop 1 0, .acquire 1, .take 1 0, .attributeTask 1, .gate 1, .sendTask 1] :
      List FanoutAction).map (.broker "a")

/-- The worker that has the stage completes it. -/
theorem complete_stays_with_sender_sent : letI := counting
    let s := (Cluster.init fun _ => true).run stageSent
    ∃ sub ∈ (s.brokers "a").subs, ∃ ps ∈ (s.brokers "a").stages,
      TakesOut (s.brokers "a") (.complete sub.ref 0 (failComplete "" false)) ps ∧ SentOn sub ps := by
  intro s
  have reached : @Cluster.Reached counting s := ⟨_, _, rfl⟩
  have facts : letI := counting
      ∃ sub ∈ (s.brokers "a").subs, (s.brokers "a").free (.worker sub.ref) = true ∧
        ∃ ps ∈ (s.brokers "a").stages, ps.token = 0 ∧ SentOn sub ps ∧
          TakesOut (s.brokers "a") (.complete sub.ref 0 (failComplete "" false)) ps := by
    decide +kernel
  obtain ⟨sub, listed, free, ps, here, hit, sent, resolved⟩ := facts
  have stays := (@complete_stays_with_sender counting s reached "a" 0 (failComplete "" false)).1 sub listed free
  exact ⟨sub, listed, ps, here, resolved, stays.mpr (.inr ⟨ps, here, hit, sent⟩) ps resolved⟩

/-- The other worker completes it, or the peer does. -/
theorem foreign_complete_resolves : letI := counting
    let f := ((Cluster.init fun _ => true).run stageSent).brokers "a"
    (∃ sub ∈ f.subs, ∃ ps ∈ f.stages,
      TakesOut f (.complete sub.ref 0 (failComplete "" false)) ps ∧ ¬ SentOn sub ps) ∧
    ∃ p ∈ f.peers, ∃ ps ∈ f.stages,
      TakesOut f (.routeComplete p.ref 0 ⟨failComplete "" false, false⟩) ps ∧ ¬ ForwardedTo f p ps := by
  decide +kernel

end Converge.Kernel
