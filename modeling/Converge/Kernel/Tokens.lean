/-
# Kernel.Tokens -- one token, one stage

The broker that parks a stage draws its token.  A push sends the reference to one peer, once: a
frame of the route, and then a foreign stage of the peer, have the token in the meantime, never
both and never two.  So a broker has at most one stage for a token (`Tokens.unique`), and a
foreign stage points back to the stage of the broker that holds the lease (`Tokens.foreign`).

Completes do not come into it: whatever a worker or a peer sends, tokens stay where they are.
-/
import Converge.Kernel.Cluster

namespace Converge.Kernel

open Converge.Theory List

set_option autoImplicit false

variable {token : LeaseToken} {p p' : Peer} {via : PeerRef} {ps ps' : PendingStage} {b id : String}

/-- The token a frame refers a peer to. -/
def RouteFrame.referred : RouteFrame → Option LeaseToken
  | .task token _ => some token
  | .complete _ _ => none

namespace Cluster

/-! ## One move -/

section Move

variable {brokers : String → Fanout} {id : String} {a : FanoutAction}

theorem move_self : move brokers (id, a) id = (brokers id).step a := if_pos rfl

theorem move_other (other : b ≠ id) : move brokers (id, a) b = brokers b := if_neg other

theorem move_back (distinct : (brokers id).Distinct) (after : ps' ∈ (move brokers (id, a) b).stages) :
    (∃ ps ∈ (brokers b).stages, Fanout.Follows a ps ps') ∨ b = id ∧ (brokers id).Made a ps' := by
  by_cases same : b = id
  · subst same
    rw [move_self] at after
    rcases (Fanout.step_evolves distinct a).back after with old | made
    · exact .inl old
    · exact .inr ⟨rfl, made⟩
  · rw [move_other same] at after
    exact .inl ⟨ps', after, Fanout.Quiet.rfl.follows⟩

theorem move_forth (a : FanoutAction) (distinct : (brokers id).Distinct) (here : ps ∈ (brokers b).stages) :
    ∃ ps' ∈ (move brokers (id, a) b).stages, Fanout.Follows a ps ps' := by
  by_cases same : b = id
  · subst same
    rw [move_self]
    exact (Fanout.step_evolves distinct a).forth here
  · rw [move_other same]
    exact ⟨ps, here, Fanout.Quiet.rfl.follows⟩

theorem move_route (distinct : (brokers id).Distinct) (after : p' ∈ (move brokers (id, a) b).peers) :
    p' ∈ (brokers b).peers ∨ b = id ∧ ((∃ p ∈ (brokers id).peers,
          Fanout.RouteFollows a (brokers id).stages ((brokers id).step a).stages p p') ∨
        a = .join p'.ref p'.memberId ∧ p'.out = []) := by
  by_cases same : b = id
  · subst same
    rw [move_self] at after
    exact .inr ⟨rfl, (Fanout.step_evolves distinct a).route_back after⟩
  · rw [move_other same] at after
    exact .inl after

theorem move_route_forth (a : FanoutAction) (distinct : (brokers id).Distinct) (here : p ∈ (brokers b).peers) :
    ∃ p' ∈ (move brokers (id, a) b).peers, p'.ref = p.ref ∧ p'.memberId = p.memberId := by
  by_cases same : b = id
  · subst same
    rw [move_self]
    obtain ⟨p', there, ref, member, -⟩ := (Fanout.step_evolves distinct a).route_forth here
    exact ⟨p', there, ref, member⟩
  · rw [move_other same]
    exact ⟨p, here, rfl, rfl⟩

end Move

/-! ## Tokens -/

/-- A stage of broker `id`, parked under `token`, was pushed to peer `via`. -/
def Lent (brokers : String → Fanout) (id : String) (via : PeerRef) (token : LeaseToken) : Prop :=
  ∃ ps ∈ (brokers id).stages, ps.foreign = false ∧ ps.token = token ∧ ps.forwarded = some via

/-- `n` is the next number drawn. -/
structure Tokens (n : Nat) (brokers : String → Fanout) : Prop where
  distinct : ∀ id, (brokers id).Distinct
  routes : ∀ id, ((brokers id).peers.map (·.ref)).Nodup
  away : ∀ id, ∀ p ∈ (brokers id).peers, p.memberId ≠ id
  drawn : ∀ id, ∀ ps ∈ (brokers id).stages, ps.ref < n
  apart : ∀ id id', ∀ ps ∈ (brokers id).stages, ∀ ps' ∈ (brokers id').stages, ps.ref = ps'.ref → id = id'
  own : ∀ id, ∀ ps ∈ (brokers id).stages, ps.foreign = false → ps.token = ps.ref
  unplaced : ∀ id, ∀ ps ∈ (brokers id).stages, ps.waiter.unplaced = true →
    ps.foreign = false ∧ ps.forwarded = none
  /-- A frame is of a stage that was pushed to its peer. -/
  frame : ∀ id, ∀ p ∈ (brokers id).peers, ∀ fr ∈ p.out, ∀ token, fr.referred = some token →
    Lent brokers id p.ref token
  once : ∀ id, ∀ p ∈ (brokers id).peers, (p.out.filterMap RouteFrame.referred).Nodup
  /-- So is a foreign stage, of one that was pushed to its broker. -/
  foreign : ∀ id, ∀ ps ∈ (brokers id).stages, ps.foreign = true →
    ∃ owner, ∃ p ∈ (brokers owner).peers, p.memberId = id ∧ Lent brokers owner p.ref ps.token
  handed : ∀ id, ∀ p ∈ (brokers id).peers, ∀ fr ∈ p.out, ∀ id', ∀ ps ∈ (brokers id').stages,
    ps.foreign = true → fr.referred ≠ some ps.token
  single : ∀ id, ∀ ps ∈ (brokers id).stages, ∀ ps' ∈ (brokers id).stages, ps.foreign = true →
    ps'.foreign = true → ps.token = ps'.token → ps.ref = ps'.ref

theorem Tokens.init (mesh : String → Bool) : Tokens 0 (Cluster.init mesh).brokers where
  distinct _ := nodup_nil
  routes _ := nodup_nil
  away _ _ h := nomatch h
  drawn _ _ h := nomatch h
  apart _ _ _ h := nomatch h
  own _ _ h := nomatch h
  unplaced _ _ h := nomatch h
  frame _ _ h := nomatch h
  once _ _ h := nomatch h
  foreign _ _ h := nomatch h
  handed _ _ h := nomatch h
  single _ _ h := nomatch h

namespace Tokens

variable {n : Nat} {brokers : String → Fanout}

theorem mono (h : Tokens n brokers) {m : Nat} (le : n ≤ m) : Tokens m brokers :=
  { h with drawn := fun id ps here => Nat.lt_of_lt_of_le (h.drawn id ps here) le }

theorem eq_of_ref (h : Tokens n brokers) {id' : String} (here : ps ∈ (brokers id).stages)
    (there : ps' ∈ (brokers id').stages) (same : ps.ref = ps'.ref) : id = id' ∧ ps = ps' := by
  obtain rfl := h.apart id id' ps here ps' there same
  exact ⟨rfl, inj_on_of_nodup_map (h.distinct id) here there same⟩

theorem lent_unique (h : Tokens n brokers) {id' : String} {via' : PeerRef}
    (first : Lent brokers id via token) (second : Lent brokers id' via' token) : id = id' ∧ via = via' := by
  obtain ⟨ps, here, own, hit, pushed⟩ := first
  obtain ⟨ps', there, own', hit', pushed'⟩ := second
  have same : ps.ref = ps'.ref := by
    rw [← h.own id ps here own, ← h.own id' ps' there own', hit, hit']
  obtain ⟨rfl, rfl⟩ := h.eq_of_ref here there same
  exact ⟨rfl, Option.some.inj (pushed.symm.trans pushed')⟩

/-- **A broker has one stage for a token.** -/
theorem unique (h : Tokens n brokers) (here : ps ∈ (brokers id).stages) (there : ps' ∈ (brokers id).stages)
    (same : ps.token = ps'.token) : ps = ps' := by
  -- a foreign stage has the token of a stage of another broker
  have mixed {own away : PendingStage} (mine : own ∈ (brokers id).stages)
      (theirs : away ∈ (brokers id).stages) (local_ : own.foreign = false) (foreign : away.foreign = true)
      (same : own.token = away.token) : False := by
    obtain ⟨owner, p, listed, member, lender, lent, own', hit, -⟩ := h.foreign id away theirs foreign
    have ref : lender.ref = own.ref := by
      rw [← h.own owner lender lent own', ← h.own id own mine local_, hit, same]
    obtain ⟨rfl, -⟩ := h.eq_of_ref lent mine ref
    exact h.away owner p listed member
  refine (h.eq_of_ref here there ?_).2
  cases first : ps.foreign <;> cases second : ps'.foreign
  · rw [← h.own id ps here first, ← h.own id ps' there second, same]
  · exact (mixed here there first second same).elim
  · exact (mixed there here second first same.symm).elim
  · exact h.single id ps here ps' there first second same

/-! ## What a move keeps -/

/-- The reference of a stage that was pushed to broker `id` has left its route, and is nowhere
else. -/
structure Loose (brokers : String → Fanout) (id : String) (token : LeaseToken) : Prop where
  lent : ∃ owner, ∃ p ∈ (brokers owner).peers, p.memberId = id ∧ Lent brokers owner p.ref token
  unframed : ∀ b, ∀ p ∈ (brokers b).peers, ∀ fr ∈ p.out, fr.referred ≠ some token
  unstaged : ∀ b, ∀ ps ∈ (brokers b).stages, ps.foreign = true → ps.token ≠ token

/-- What makes a stage or a route draws its pointer, and what comes from a route was sent there. -/
def Licit (n : Nat) (brokers : String → Fanout) (id : String) : FanoutAction → Prop
  | .dispatch ref _ _ => ref = n
  | .join _ memberId => memberId ≠ id
  | .routeTask ref _ token _ => ref = n ∧ Loose brokers id token
  | _ => True

section Moves

variable {id b' : String} {a : FanoutAction}

theorem made_ref (licit : Licit n brokers id a) (made : (brokers id).Made a ps) : ps.ref = n := by
  rcases made.from_ with ⟨rfl, -⟩ | ⟨owner, rfl, -⟩
  · exact licit
  · exact licit.1

section

variable (h : Tokens n brokers)

include h

theorem not_lent (here : ps ∈ (brokers b).stages)
    (waits : ps.waiter.unplaced = true) : ¬ Lent brokers b' via ps.token := by
  rintro ⟨ps', there, own', hit, pushed⟩
  have free := h.unplaced b ps here waits
  have same : ps'.ref = ps.ref := by
    rw [← h.own b' ps' there own', ← h.own b ps here free.1, hit]
  obtain ⟨-, rfl⟩ := h.eq_of_ref there here same
  rw [free.2] at pushed
  cases pushed

theorem lent_move
    (lent : Lent brokers b via token) : Lent (Cluster.move brokers (id, a)) b via token := by
  have unplaced {ps : PendingStage} (here : ps ∈ (brokers b).stages) (hit : ps.token = token)
      (waits : ps.waiter.unplaced = true) : False := h.not_lent here waits (hit ▸ lent)
  obtain ⟨ps, here, own, hit, pushed⟩ := lent
  obtain ⟨ps', after, follows⟩ := move_forth a (h.distinct id) here
  refine ⟨ps', after, follows.foreign.trans own, follows.token.trans hit, ?_⟩
  rcases follows.forwarded with same | ⟨peer, -, seeking, -⟩
  · exact same.trans pushed
  · exact (unplaced here hit (by rw [seeking]; rfl)).elim

theorem frame_back (after : p' ∈ (Cluster.move brokers (id, a) b).peers)
    {fr : RouteFrame} (queued : fr ∈ p'.out) (refers : fr.referred = some token) :
    (∃ p ∈ (brokers b).peers, p.ref = p'.ref ∧ fr ∈ p.out) ∨
      b = id ∧ ∃ ps ∈ (brokers id).stages, a = .push ps.ref p'.ref ∧ ps.waiter = .seeking ∧ ps.token = token ∧
        { ps with waiter := .pushing p'.ref, forwarded := some p'.ref } ∈ ((brokers id).step a).stages := by
  rcases move_route (h.distinct id) after with old | ⟨rfl, ⟨p, here, follows⟩ | ⟨-, empty⟩⟩
  · exact .inl ⟨p', old, rfl, queued⟩
  · rcases follows.out with same | ⟨-, less⟩ | ⟨ps, staged, push, seeking, lent, more⟩ | ⟨t, c, more⟩
    · exact .inl ⟨p, here, follows.ref.symm, same ▸ queued⟩
    · rw [less] at queued
      exact .inl ⟨p, here, follows.ref.symm, mem_of_mem_tail queued⟩
    · rw [more] at queued
      rcases mem_append.mp queued with old | new
      · exact .inl ⟨p, here, follows.ref.symm, old⟩
      · obtain rfl := mem_singleton.mp new
        rw [follows.ref]
        exact .inr ⟨rfl, ps, staged, push, seeking, Option.some.inj refers, lent⟩
    · rw [more] at queued
      rcases mem_append.mp queued with old | new
      · exact .inl ⟨p, here, follows.ref.symm, old⟩
      · obtain rfl := mem_singleton.mp new
        cases refers
  · rw [empty] at queued
    cases queued

theorem once_move (after : p' ∈ (Cluster.move brokers (id, a) b).peers) :
    (p'.out.filterMap RouteFrame.referred).Nodup := by
  rcases move_route (h.distinct id) after with old | ⟨rfl, ⟨p, here, follows⟩ | ⟨-, empty⟩⟩
  · exact h.once b p' old
  · have before := h.once b p here
    rcases follows.out with same | ⟨-, less⟩ | ⟨ps, staged, -, seeking, -, more⟩ | ⟨t, c, more⟩
    · rw [same]
      exact before
    · rw [less]
      exact before.sublist ((tail_sublist _).filterMap _)
    · rw [more, filterMap_append]
      refine nodup_append.mpr ⟨before, nodup_singleton _, ?_⟩
      intro token listed this single
      obtain rfl := mem_singleton.mp single
      obtain ⟨fr, queued, refers⟩ := mem_filterMap.mp listed
      rintro rfl
      exact h.not_lent staged (by rw [seeking]; rfl) (h.frame b p here fr queued _ refers)
    · rw [more, filterMap_append]
      exact (append_nil _).symm ▸ before
  · rw [empty]
    exact nodup_nil

theorem handed_move (licit : Licit n brokers id a)
    (after : p' ∈ (Cluster.move brokers (id, a) b).peers) {fr : RouteFrame} (queued : fr ∈ p'.out)
    (staged : ps' ∈ (Cluster.move brokers (id, a) b').stages)
    (foreign : ps'.foreign = true) : fr.referred ≠ some ps'.token := by
  intro refers
  rcases move_back (h.distinct id) staged with ⟨ps, old, follows⟩ | ⟨rfl, made⟩
  · have away := follows.foreign.symm.trans foreign
    rw [follows.token] at refers
    rcases h.frame_back after queued refers with ⟨p, here, -, before⟩ | ⟨rfl, own, mine, -, seeking, hit, -⟩
    · exact h.handed b p here fr before b' ps old away refers
    · obtain ⟨owner, p, -, -, lent⟩ := h.foreign b' ps old away
      exact h.not_lent mine (by rw [seeking]; rfl) (hit ▸ lent)
  · rcases made.from_ with ⟨-, -, own, -⟩ | ⟨owner, rfl, -⟩
    · cases own.symm.trans foreign
    · rcases h.frame_back after queued refers with ⟨p, here, -, before⟩ | ⟨-, ps, -, push, -⟩
      · exact licit.2.unframed b p here fr before refers
      · cases push

/-- **A move keeps the tokens apart.** -/
theorem move (licit : Licit n brokers id a) :
    Tokens (n + 1) (Cluster.move brokers (id, a)) where
  distinct b := by
    by_cases same : b = id
    · subst same
      rw [move_self]
      exact (Fanout.step_evolves (h.distinct b) a).distinct (h.distinct b)
    · rw [move_other same]
      exact h.distinct b
  routes b := by
    by_cases same : b = id
    · subst same
      rw [move_self]
      exact (Fanout.step_evolves (h.distinct b) a).distinct_routes (h.routes b)
    · rw [move_other same]
      exact h.routes b
  away b p' after := by
    rcases move_route (h.distinct id) after with old | ⟨rfl, ⟨p, here, follows⟩ | ⟨join, -⟩⟩
    · exact h.away b p' old
    · rw [follows.memberId]
      exact h.away b p here
    · rw [join] at licit
      exact licit
  drawn b ps' after := by
    rcases move_back (h.distinct id) after with ⟨ps, old, follows⟩ | ⟨rfl, made⟩
    · rw [follows.ref]
      exact Nat.lt_succ_of_lt (h.drawn b ps old)
    · rw [made_ref licit made]
      exact Nat.lt_succ_self n
  apart b b' ps₁ after₁ ps₂ after₂ same := by
    have old_new {b : String} {ps ps' : PendingStage} (old : ps ∈ (brokers b).stages)
        (made : (brokers id).Made a ps') : ps.ref ≠ ps'.ref :=
      fun same => Nat.lt_irrefl n (by simpa [same, made_ref licit made] using h.drawn b ps old)
    rcases move_back (h.distinct id) after₁ with ⟨ps, old, follows⟩ | ⟨at_, made⟩ <;>
      rcases move_back (h.distinct id) after₂ with ⟨ps', old', follows'⟩ | ⟨at', made'⟩
    · exact h.apart b b' ps old ps' old' (by rw [← follows.ref, same, follows'.ref])
    · exact (old_new old made' (follows.ref.symm.trans same)).elim
    · exact (old_new old' made (follows'.ref.symm.trans same.symm)).elim
    · exact at_.trans at'.symm
  own b ps' after local_ := by
    rcases move_back (h.distinct id) after with ⟨ps, old, follows⟩ | ⟨rfl, made⟩
    · rw [follows.token, follows.ref]
      exact h.own b ps old (follows.foreign.symm.trans local_)
    · rcases made.from_ with ⟨-, hit, -⟩ | ⟨owner, -, foreign, -⟩
      · exact hit
      · cases foreign.symm.trans local_
  unplaced b ps' after waits := by
    rcases move_back (h.distinct id) after with ⟨ps, old, follows⟩ | ⟨rfl, made⟩
    · have before := h.unplaced b ps old (follows.unplaced waits)
      refine ⟨follows.foreign.trans before.1, ?_⟩
      rcases follows.forwarded with same | ⟨peer, -, -, -, placed⟩
      · exact same.trans before.2
      · cases placed.symm.trans waits
    · rcases made.from_ with ⟨-, -, own, -⟩ | ⟨owner, -, -, -, forwarding⟩
      · exact ⟨own, made.forwarded⟩
      · rw [forwarding] at waits
        cases waits
  frame b p' after fr queued token refers := by
    rcases h.frame_back after queued refers with ⟨p, here, same, before⟩ | ⟨rfl, ps, mine, -, seeking, hit, new⟩
    · exact h.lent_move (same ▸ h.frame b p here fr before token refers)
    · have own := (h.unplaced b ps mine (by rw [seeking]; rfl)).1
      refine ⟨{ ps with waiter := .pushing p'.ref, forwarded := some p'.ref }, ?_, own, hit, rfl⟩
      rw [move_self]
      exact new
  once b p' after := h.once_move after
  foreign b ps' after foreign := by
    have away : ∃ owner, ∃ p ∈ (brokers owner).peers, p.memberId = b ∧ Lent brokers owner p.ref ps'.token := by
      rcases move_back (h.distinct id) after with ⟨ps, old, follows⟩ | ⟨rfl, made⟩
      · rw [follows.token]
        exact h.foreign b ps old (follows.foreign.symm.trans foreign)
      · rcases made.from_ with ⟨-, -, own, -⟩ | ⟨owner, rfl, -⟩
        · cases own.symm.trans foreign
        · exact licit.2.lent
    obtain ⟨owner, p, here, member, lent⟩ := away
    obtain ⟨p', there, ref, member'⟩ := move_route_forth a (h.distinct id) here
    exact ⟨owner, p', there, member'.trans member, ref ▸ h.lent_move lent⟩
  handed b p' after fr queued b' ps' staged foreign := h.handed_move licit after queued staged foreign
  single b ps₁ after₁ ps₂ after₂ foreign₁ foreign₂ same := by
    have old_new {ps ps' : PendingStage} (old : ps ∈ (brokers b).stages) (away : ps.foreign = true)
        (made : (brokers id).Made a ps') (foreign : ps'.foreign = true) : ps.token ≠ ps'.token := by
      rcases made.from_ with ⟨-, -, own, -⟩ | ⟨owner, rfl, -⟩
      · cases own.symm.trans foreign
      · exact licit.2.unstaged b ps old away
    rcases move_back (h.distinct id) after₁ with ⟨ps, old, follows⟩ | ⟨-, made⟩ <;>
      rcases move_back (h.distinct id) after₂ with ⟨ps', old', follows'⟩ | ⟨-, made'⟩
    · rw [follows.ref, follows'.ref]
      exact h.single b ps old ps' old' (follows.foreign.symm.trans foreign₁)
        (follows'.foreign.symm.trans foreign₂) (by rw [← follows.token, same, follows'.token])
    · exact (old_new old (follows.foreign.symm.trans foreign₁) made' foreign₂
        (follows.token.symm.trans same)).elim
    · exact (old_new old' (follows'.foreign.symm.trans foreign₂) made foreign₁
        (follows'.token.symm.trans same.symm)).elim
    · rw [made_ref licit made, made_ref licit made']

theorem sendFrame (via : PeerRef) :
    Tokens n (Cluster.move brokers (id, .sendFrame via)) :=
  have moved : Tokens (n + 1) (Cluster.move brokers (id, .sendFrame via)) := h.move trivial
  { moved with
    drawn := fun b ps' after => by
      rcases move_back (h.distinct id) after with ⟨ps, old, follows⟩ | ⟨-, made⟩
      · rw [follows.ref]
        exact h.drawn b ps old
      · rcases made.from_ with ⟨dispatch, -⟩ | ⟨owner, routed, -⟩
        · cases dispatch
        · cases routed }

/-- The frame that leaves a route is the only trace of its reference. -/
theorem loose_sendFrame (here : p ∈ (brokers id).peers) {km : KindVersion} {rest : List RouteFrame}
    (queue : p.out = .task token km :: rest) :
    Loose (Cluster.move brokers (id, .sendFrame p.ref)) p.memberId token := by
  have first : RouteFrame.task token km ∈ p.out := queue ▸ mem_cons_self
  have lent := h.frame id p here _ first token rfl
  refine ⟨?_, ?_, ?_⟩
  · obtain ⟨p', there, ref, member⟩ := move_route_forth (.sendFrame p.ref) (h.distinct id) here
    refine ⟨id, p', there, member, ?_⟩
    rw [ref]
    exact h.lent_move lent
  · intro b q' after fr queued refers
    by_cases at_ : b = id
    · subst at_
      rw [move_self] at after
      obtain ⟨q, there, rfl⟩ := mem_map.mp after
      split at queued
      next same =>
        -- of this route: but its queue has the token once
        obtain rfl := inj_on_of_nodup_map (h.routes b) there here same
        have once := h.once b q here
        have queued : fr ∈ q.out.tail := queued
        rw [queue] at once queued
        exact (nodup_cons.mp once).1 (mem_filterMap.mpr ⟨fr, queued, refers⟩)
      next other =>
        exact other (h.lent_unique (h.frame b q there fr queued token refers) lent).2
    · rw [move_other at_] at after
      exact at_ (h.lent_unique (h.frame b q' after fr queued token refers) lent).1
  · intro b ps' staged foreign hit
    rcases move_back (h.distinct id) staged with ⟨ps, old, follows⟩ | ⟨rfl, made⟩
    · refine h.handed id p here _ first b ps old (follows.foreign.symm.trans foreign) ?_
      rw [← follows.token, hit]
      rfl
    · rcases made.from_ with ⟨dispatch, -⟩ | ⟨owner, routed, -⟩
      · cases dispatch
      · cases routed

end

end Moves

end Tokens

/-! ## Every run -/

variable [Postgres] {s : Cluster}

/-- One move keeps the tokens apart, and so does the hand-over of a frame. -/
theorem Tokens.step (h : Tokens s.drawn s.brokers) (a : ClusterAction) :
    Tokens (s.step a).drawn (s.step a).brokers := by
  show Tokens (s.drawn + 1) ((s.moves a).foldl Cluster.move s.brokers)
  have idle : Tokens (s.drawn + 1) s.brokers := h.mono (Nat.le_succ _)
  cases a with
  | store | sweep | finish | markLocal | heartbeat | tick | attest => exact idle
  | broker id a =>
    simp only [moves]
    split
    next alone =>
      refine h.move ?_
      cases a <;> trivial
    next => exact idle
  | dispatch id t =>
    simp only [moves]
    split
    · exact h.move rfl
    · exact idle
  | react id km => exact h.move rfl
  | record id stage m label | release id stream scan | routeComplete id peer token sc =>
    simp only [moves]
    split
    · exact h.move trivial
    · exact idle
  | subscribe id kms maxInflight => exact h.move trivial
  | join id memberId =>
    simp only [moves]
    split
    · exact idle
    next other => exact h.move other
  | route id via peer =>
    simp only [moves]
    split
    next p found =>
      have here : p ∈ (s.brokers id).peers := mem_of_find?_eq_some found
      have hit : p.ref = via := by simpa using find?_some found
      split
      next frame rest queue =>
        split
        next q _ =>
          split
          · show Tokens (s.drawn + 1) (Cluster.move (Cluster.move s.brokers (id, .sendFrame via))
              (p.memberId, handleInbound s.drawn q.ref frame))
            refine (h.sendFrame via).move ?_
            cases frame with
            | complete token c => trivial
            | task token km => exact ⟨rfl, hit ▸ h.loose_sendFrame here queue⟩
          · exact idle
        next => exact (h.sendFrame via).mono (Nat.le_succ _)
      next => exact idle
    next => exact idle

theorem Reached.tokens (reached : s.Reached) : Tokens s.drawn s.brokers :=
  reached.induction (I := fun s => Tokens s.drawn s.brokers) Tokens.init fun _ a h => h.step a

/-- Where the stage of `token` that a broker forwarded is: on a route, or with another broker. -/
def places (brokers : String → Fanout) (token : LeaseToken) : Set (String × (Peer ⊕ PendingStage)) :=
  {x | x.2.elim (fun p => p ∈ (brokers x.1).peers ∧ ∃ fr ∈ p.out, fr.referred = some token)
    fun ps => ps ∈ (brokers x.1).stages ∧ ps.foreign = true ∧ ps.token = token}

/-- **A forwarded stage is in one place.** -/
theorem forwarded_once (mesh : String → Bool) (actions : List ClusterAction) (token : LeaseToken) :
    (places ((init mesh).run actions).brokers token).Subsingleton := by
  have tokens := Reached.tokens (s := (init mesh).run actions) ⟨mesh, actions, rfl⟩
  -- `at_` is a frame of the route, or says that the stage is foreign
  rintro ⟨id, p | ps⟩ ⟨here, at_, hit⟩ ⟨id', p' | ps'⟩ ⟨there, at_', hit'⟩
  · obtain ⟨rfl, via⟩ := tokens.lent_unique (tokens.frame id p here at_ hit.1 token hit.2)
      (tokens.frame id' p' there at_' hit'.1 token hit'.2)
    rw [inj_on_of_nodup_map (tokens.routes id) here there via]
  · exact absurd (hit' ▸ hit.2) (tokens.handed id p here at_ hit.1 id' ps' there at_')
  · exact absurd (hit ▸ hit'.2) (tokens.handed id' p' there at_' hit'.1 id ps here at_)
  · obtain ⟨owner, p, listed, rfl, lent⟩ := tokens.foreign id ps here at_
    obtain ⟨owner', p', listed', rfl, lent'⟩ := tokens.foreign id' ps' there at_'
    obtain ⟨rfl, via⟩ := tokens.lent_unique (hit ▸ lent) (hit' ▸ lent')
    obtain rfl := inj_on_of_nodup_map (tokens.routes owner) listed listed' via
    rw [tokens.unique here there (hit.trans hit'.symm)]

end Cluster

end Converge.Kernel
