/-
# Guarantees.ResultCustody -- where the results of a worker are

A result that a handler computed is in one place: the stream took it, it waits in the send queue of
the live stream or with its sender, it is in the redelivery buffer, it was discarded and counted, or
a goroutine has it in hand between two locks.  `Accounted` says so, with multiplicity, and `Tracks`
that the tasks whose result is held, or still to come, are tracked.

Every step keeps both but for three (`loses`).  A `Send` that fails drops the message it was given,
and the sender then detaches a queue that may have results in it; and a task that arrives under a
token the runner still has shares its entry with the other.  In every run without them, every
result is accounted for in every state (`results_accounted`).
-/
import Converge.Kernel.Runner
import Mathlib.Data.List.Perm.Basic

namespace Converge.Kernel

open Converge.Theory List

set_option autoImplicit false

variable {token : LeaseToken} {sc : Report} {r' : Runner} {t : StageTask}

/-! ## Places -/

def ClientMsg.results : ClientMsg → List Report
  | .complete sc => [sc]
  | _ => []

namespace Runner

/-- The result that the goroutine of a task has in hand. -/
@[simp] def Handler.inHand : Handler → List Report
  | .reporting sc | .buffering sc | .overflowing sc | .discarding sc => [sc]
  | _ => []

/-- The task, while its result is to come or held. -/
@[simp] def Handler.holds : Handler → List LeaseToken
  | .running t => [t.leaseToken]
  | .reporting sc | .buffering sc | .overflowing sc => [sc.leaseToken]
  | _ => []

/-- The task, until the goroutine has untracked it. -/
@[simp] def Handler.owns : Handler → List LeaseToken
  | .untracking token => [token]
  | h => h.holds

@[simp] def Replay.inHand : Replay → List Report
  | .taken buf => buf
  | .returning unsent _ => unsent
  | _ => []

@[simp] def Replay.owns : Replay → List LeaseToken
  | .taken buf => buf.map Report.leaseToken
  | .returning unsent sent => unsent.map Report.leaseToken ++ sent
  | .untracking sent => sent
  | _ => []

def Sender.inHand : Sender → List Report
  | .sending msg => msg.results
  | _ => []

/-- The results in the queue, as long as something is to become of it. -/
@[simp] def Session.queued (s : Session) : List Report :=
  if s.sender ≠ .exited then s.sender.inHand ++ s.queue.flatMap ClientMsg.results else []

variable (r : Runner)

@[simp] def queued : List Report := r.session.elim [] Session.queued

@[simp] def replaying : Replay := r.session.elim .done Session.replay

def inHand : List Report := r.handlers.flatMap Handler.inHand ++ r.replaying.inHand

/-- The tasks whose result is to come or held. -/
def holds : List LeaseToken :=
  r.handlers.flatMap Handler.holds ++ (r.resultBuf ++ r.replaying.inHand).map Report.leaseToken

def owns : List LeaseToken :=
  r.handlers.flatMap Handler.owns ++ r.resultBuf.map Report.leaseToken ++ r.replaying.owns

/-- Every result is in one place. -/
def Accounted : Prop :=
  r.computed.Perm (r.handed ++ r.queued ++ r.resultBuf ++ r.discarded ++ r.inHand)

instance : Decidable r.Accounted := inferInstanceAs (Decidable (List.Perm ..))

/-- No task is untracked while its result is held, or before it is there. -/
def Tracks : Prop := ∀ token ∈ r.holds, token ∈ r.tracked

/-- A result is dropped, or two tasks come to share an entry. -/
def loses : RunnerAction → Bool
  | .sendError => r.session.any fun s => s.sender.inHand ≠ []
  | .detach => r.session.any fun s => s.sender = .failed && s.queue.flatMap ClientMsg.results ≠ []
  | .receive t => t.leaseToken ∈ r.tracked
  | _ => false

/-! ## Counting -/

attribute [simp] setSession setHandler dropHandler untrack

variable {r} {other : LeaseToken}

section Exchange

variable {β : Type} [DecidableEq β] {i : Nat} {h : Handler} (f : Handler → List β) (b : β)

theorem count_erase (found : r.handlers[i]? = some h) :
    (r.handlers.flatMap f).count b = (f h).count b + ((r.handlers.eraseIdx i).flatMap f).count b := by
  obtain ⟨lt, rfl⟩ := List.getElem?_eq_some_iff.mp found
  rw [← ((getElem_cons_eraseIdx_perm lt).flatMap_right f).count_eq, flatMap_cons, count_append]

theorem count_exchange (found : r.handlers[i]? = some h) (now : Option Handler) :
    ((now.elim (r.handlers.eraseIdx i) (r.handlers.set i ·)).flatMap f).count b =
      (now.elim [] f).count b + ((r.handlers.eraseIdx i).flatMap f).count b := by
  cases now with
  | none => simp
  | some next =>
    obtain ⟨lt, rfl⟩ := List.getElem?_eq_some_iff.mp found
    have there : (r.setHandler i next).handlers[i]? = some next := by simp [lt]
    simpa [eraseIdx_set_eq] using count_erase f b there

end Exchange

/-- What every step keeps: the results are where they are said to be, and every task that is not
yet untracked has one owner and an entry. -/
structure Custody (r : Runner) : Prop where
  results : ∀ sc, r.computed.count sc =
    r.handed.count sc + r.queued.count sc + r.resultBuf.count sc + r.discarded.count sc + r.inHand.count sc
  once : ∀ token, r.owns.count token ≤ 1
  entry : ∀ token, 0 < r.owns.count token → token ∈ r.tracked

theorem Custody.new (maxInfl : Nat) : Custody (Runner.new maxInfl) where
  results := fun _ => rfl
  once := fun _ => Nat.zero_le _
  entry := fun _ owned => absurd owned (Nat.lt_irrefl 0)

theorem Custody.accounted (h : Custody r) : r.Accounted := by
  simp only [Accounted, perm_iff_count, count_append]
  exact h.results

theorem Custody.tracks (h : Custody r) : r.Tracks := by
  intro token held
  refine h.entry token (count_pos_iff.mpr ?_)
  have handler : ∀ h : Handler, h.holds ⊆ h.owns := fun h => by cases h <;> simp
  have replay : ∀ p : Replay, p.inHand.map Report.leaseToken ⊆ p.owns := fun p => by
    cases p <;> simp
  simp only [holds, owns, map_append, mem_append, mem_flatMap] at held ⊢
  rcases held with ⟨h, mem, holds⟩ | buffered | inReplay
  · exact .inl (.inl ⟨h, mem, handler h holds⟩)
  · exact .inl (.inr buffered)
  · exact .inr (replay r.replaying inReplay)

/-! ## One step -/

theorem mem_untrack : other ∈ (r.untrack token).tracked ↔ other ∈ r.tracked ∧ other ≠ token := by
  simp only [untrack, tracked, mem_map, mem_filter, decide_eq_true_eq]
  grind

theorem mem_track : other ∈ (r.track t).tracked ↔ other ∈ r.tracked ∨ other = t.leaseToken := by
  simp only [track, tracked, mem_map, mem_append, mem_filter, decide_eq_true_eq, mem_singleton]
  grind

theorem tracked_markDone (token : LeaseToken) : (r.markDone token).tracked = r.tracked := by
  simp only [markDone, tracked, map_map]
  refine map_congr_left fun it _ => ?_
  simp only [Function.comp_apply]
  split <;> rfl

/-- Nothing appears, nothing is lost, and what is untracked has one owner less. -/
theorem Custody.moves (h : Custody r)
    (results : ∀ sc, r'.computed.count sc + (r.handed.count sc + r.queued.count sc + r.resultBuf.count sc +
        r.discarded.count sc + r.inHand.count sc) =
      r.computed.count sc + (r'.handed.count sc + r'.queued.count sc + r'.resultBuf.count sc +
        r'.discarded.count sc + r'.inHand.count sc))
    (owners : ∀ token, r'.owns.count token ≤ r.owns.count token)
    (kept : ∀ token ∈ r.tracked, token ∈ r'.tracked ∨ r'.owns.count token < r.owns.count token) : Custody r' where
  results := fun sc => by
    have before := h.results sc
    have now := results sc
    omega
  once := fun token => (owners token).trans (h.once token)
  entry := fun token owned => by
    have once := h.once token
    rcases kept token (h.entry token (owned.trans_le (owners token))) with there | fewer
    · exact there
    · omega

theorem Custody.enqueue (h : Custody r) {msg : ClientMsg} (other : msg.results = []) :
    Custody ((r.enqueue msg).getD r) := by
  cases queued : r.enqueue msg with
  | none => exact h
  | some r' =>
    obtain ⟨s, there, live, rfl⟩ := enqueue_some queued
    refine h.moves (fun sc => ?_) (fun token => ?_) (fun token mem => .inl mem)
    · simp [there, live, inHand, other]
    · simp [owns, there]

section HandlerSteps

variable {i : Nat} {hd : Handler}

theorem Custody.exchange (h : Custody r) (found : r.handlers[i]? = some hd) (now : Option Handler)
    (handlers : r'.handlers = now.elim (r.handlers.eraseIdx i) (r.handlers.set i ·))
    (replay : r'.replaying = r.replaying)
    (results : ∀ sc, r'.computed.count sc + (r.handed.count sc + r.queued.count sc + r.resultBuf.count sc +
        r.discarded.count sc + hd.inHand.count sc) =
      r.computed.count sc + (r'.handed.count sc + r'.queued.count sc + r'.resultBuf.count sc +
        r'.discarded.count sc + (now.elim [] Handler.inHand).count sc))
    (owners : ∀ token, (now.elim [] Handler.owns).count token + (r'.resultBuf.map Report.leaseToken).count token ≤
      hd.owns.count token + (r.resultBuf.map Report.leaseToken).count token)
    (kept : ∀ token ∈ r.tracked, token ∈ r'.tracked ∨
      (now.elim [] Handler.owns).count token + (r'.resultBuf.map Report.leaseToken).count token <
        hd.owns.count token + (r.resultBuf.map Report.leaseToken).count token) : Custody r' := by
  have owned : ∀ token, r'.owns.count token + hd.owns.count token +
    (r.resultBuf.map Report.leaseToken).count token =
      r.owns.count token + (now.elim [] Handler.owns).count token +
        (r'.resultBuf.map Report.leaseToken).count token := by
    intro token
    have before := count_erase Handler.owns token found
    have after := count_exchange Handler.owns token found now
    simp only [owns, count_append, handlers, replay]
    omega
  refine h.moves (fun sc => ?_) (fun token => ?_) (fun token mem => ?_)
  · have before := count_erase Handler.inHand sc found
    have after := count_exchange Handler.inHand sc found now
    have total := results sc
    simp only [inHand, count_append, handlers, replay]
    omega
  · have := owned token
    have := owners token
    omega
  · have := owned token
    rcases kept token mem with there | fewer
    · exact .inl there
    · exact .inr (by omega)

theorem Custody.goes_on (h : Custody r) (found : r.handlers[i]? = some hd) (next : Handler)
    (inHand : next.inHand = hd.inHand) (owns : next.owns = hd.owns) : Custody (r.setHandler i next) := by
  refine h.exchange found (some next) rfl rfl (fun c => ?_) (fun token => ?_) (fun token mem => .inl mem)
  · rw [← inHand]
    rfl
  · rw [← owns]
    rfl

theorem Custody.finish (h : Custody r) (found : r.handlers[i]? = some (.running t))
    (sc : StageComplete) : Custody (r.finish i t sc) := by
  refine h.exchange found (some (.reporting (t.report sc))) rfl rfl (fun c => ?_) (fun token => ?_)
    (fun token mem => .inl mem)
  · simp [Runner.finish]
    omega
  · simp [Runner.finish, StageTask.report]

theorem Custody.send (h : Custody r) (found : r.handlers[i]? = some (.reporting sc)) :
    Custody (match r.enqueue (.complete sc) with
      | some r' => r'.setHandler i (.untracking sc.leaseToken)
      | none => r.setHandler i (.buffering sc)) := by
  cases queued : r.enqueue (.complete sc) with
  | some r' =>
    obtain ⟨s, there, live, rfl⟩ := enqueue_some queued
    refine h.exchange found (some (.untracking sc.leaseToken)) rfl (by simp [there])
      (fun c => ?_) (fun token => ?_) (fun token mem => .inl mem)
    · simp [there, live, ClientMsg.results]
      omega
    · simp
  | none => exact h.goes_on found (.buffering sc) rfl rfl

theorem Custody.bufferResult (h : Custody r) (found : r.handlers[i]? = some (.buffering sc)) :
    Custody (({ r with resultBuf := r.resultBuf ++ [sc] }.markDone sc.leaseToken).dropHandler i) := by
  refine h.exchange found none rfl rfl (fun c => ?_) (fun token => ?_) (fun token mem => .inl ?_)
  · simp [markDone]
    omega
  · simp [markDone]
    omega
  · have same :
        (({ r with resultBuf := r.resultBuf ++ [sc] }.markDone sc.leaseToken).dropHandler i).tracked =
          r.tracked :=
      tracked_markDone _
    rwa [same]

theorem kept_untrack {now : Option Handler} (owner : hd.owns = [token])
    (gone : now.elim [] Handler.owns = []) : ∀ other ∈ r.tracked, other ∈ (r.untrack token).tracked ∨
      (now.elim [] Handler.owns).count other + (r.resultBuf.map Report.leaseToken).count other <
        hd.owns.count other + (r.resultBuf.map Report.leaseToken).count other := by
  intro other mem
  by_cases same : other = token
  · right
    rw [owner, gone, same]
    simp
  · exact .inl (mem_untrack.mpr ⟨mem, same⟩)

theorem Custody.untrack (h : Custody r) (found : r.handlers[i]? = some (.untracking token)) :
    Custody ((r.untrack token).dropHandler i) := by
  refine h.exchange found none rfl rfl (fun c => ?_) (fun other => ?_) (kept_untrack rfl rfl)
  · simp
  · simp

theorem Custody.untrackDiscarded (h : Custody r) (found : r.handlers[i]? = some (.overflowing sc)) :
    Custody ((r.untrack sc.leaseToken).setHandler i (.discarding sc)) := by
  refine h.exchange found (some (.discarding sc)) rfl rfl (fun c => ?_) (fun other => ?_) (kept_untrack rfl rfl)
  · simp
  · simp

theorem Custody.discardResult (h : Custody r) (found : r.handlers[i]? = some (.discarding sc)) :
    Custody ({ r with discarded := r.discarded ++ [sc] }.dropHandler i) := by
  refine h.exchange found none rfl rfl (fun c => ?_) (fun other => ?_) (fun token mem => .inl mem)
  · simp
    omega
  · simp

end HandlerSteps

/-! ## The stream -/

section SessionSteps

variable {s : Session}

theorem Custody.shift (h : Custody r) (handlers : r'.handlers = r.handlers)
    (computed : r'.computed = r.computed) (discarded : r'.discarded = r.discarded)
    (inflight : r'.inflight = r.inflight)
    (results : ∀ sc, r.handed.count sc + r.queued.count sc + r.resultBuf.count sc + r.replaying.inHand.count sc =
      r'.handed.count sc + r'.queued.count sc + r'.resultBuf.count sc + r'.replaying.inHand.count sc)
    (owners : ∀ token, (r'.resultBuf.map Report.leaseToken).count token + r'.replaying.owns.count token ≤
      (r.resultBuf.map Report.leaseToken).count token + r.replaying.owns.count token) : Custody r' := by
  refine h.moves (fun sc => ?_) (fun token => ?_) (fun token mem => .inl (by rwa [tracked, inflight]))
  · have := results sc
    simp only [inHand, count_append, handlers, computed, discarded]
    omega
  · have := owners token
    simp only [owns, count_append, handlers]
    omega

section

variable (h : Custody r) (session : r.session = some s)

include h session

theorem Custody.takeBuffer (due : s.replay = .due) :
    Custody ({ r with resultBuf := [] }.setSession ({ · with replay := .taken r.resultBuf })) := by
  refine h.shift rfl rfl rfl rfl (fun sc => ?_) (fun token => ?_)
  · simp [session, due]
  · simp [session]

theorem Custody.replay {buf : List Report}
    (taking : s.replay = .taken buf) : Custody ((replayLoop buf r []).1.setSession
      ({ · with replay := .returning (replayLoop buf r []).2.1 (replayLoop buf r []).2.2 })) := by
  obtain ⟨taken, unsent, rfl, live, eq⟩ := replayLoop_spec buf r s [] session
  rw [eq]
  refine h.shift rfl rfl rfl rfl (fun sc => ?_) (fun token => ?_)
  · rcases live with rfl | live
    · simp [session, taking]
    · have flat : (taken.map ClientMsg.complete).flatMap ClientMsg.results = taken := by
        simp [flatMap_map, ClientMsg.results]
      simp [session, taking, live, flat]
      omega
  · simp [session, taking]
    omega

theorem Custody.putBack {unsent : List Report} {sent : List LeaseToken}
    (back : s.replay = .returning unsent sent) :
    Custody ({ r with resultBuf := unsent ++ r.resultBuf }.setSession
      ({ · with replay := .untracking sent })) := by
  refine h.shift rfl rfl rfl rfl (fun sc => ?_) (fun token => ?_)
  · simp [session, back]
    omega
  · simp [session, back]
    omega

theorem Custody.untrackSent
    {rest : List LeaseToken} (sent : s.replay = .untracking (token :: rest)) :
    Custody ((r.untrack token).setSession ({ · with replay := .untracking rest })) := by
  refine h.moves (fun sc => ?_) (fun other => ?_) (fun other mem => ?_)
  · simp [inHand, session, sent]
  · simp [owns, session, sent, count_cons]
  · by_cases same : other = token
    · right
      simp [owns, session, sent, same]
    · exact .inl (mem_untrack.mpr ⟨mem, same⟩)

end

theorem Custody.pass (h : Custody r) {handed : List Report} {session : Option Session}
    (same : (session.elim .done Session.replay).inHand = r.replaying.inHand ∧
      (session.elim .done Session.replay).owns = r.replaying.owns)
    (results : ∀ sc, r.handed.count sc + r.queued.count sc =
      handed.count sc + (session.elim [] Session.queued).count sc) :
    Custody { r with handed := handed, session := session } := by
  refine h.shift rfl rfl rfl rfl (fun sc => ?_) (fun token => ?_)
  · have := results sc
    simp only [replaying, Runner.queued] at this same ⊢
    rw [same.1]
    omega
  · exact (congrArg (_ + List.count token ·) same.2).le

theorem Custody.setSession (h : Custody r) {f : Session → Session} (queue : ∀ s, (f s).queued = s.queued)
    (replay : ∀ s, (f s).replay = s.replay) : Custody (r.setSession f) := by
  cases session : r.session with
  | none =>
    have same : r.setSession f = r := by
      cases r
      cases session
      rfl
    rwa [same]
  | some s => exact h.pass (by simp [session, replay]) fun sc => by simp [-Session.queued, session, queue]

theorem Custody.sent (h : Custody r) (session : r.session = some s)
    (sending : s.sender = .sending (.complete sc)) :
    Custody ({ r with handed := r.handed ++ [sc] }.setSession ({ · with sender := .idle })) := by
  refine h.pass (by simp [session]) fun c => ?_
  simp [session, sending, ClientMsg.results, Sender.inHand, count_cons]
  omega

theorem Custody.turn (h : Custody r) (session : r.session = some s) {now : Sender} (empty : s.sender.inHand = [])
    (same : now.inHand = []) (live : s.sender ≠ .exited)
    (rest : now = .exited → s.queue.flatMap ClientMsg.results = []) :
    Custody (r.setSession ({ · with sender := now })) := by
  refine h.pass (by simp [session]) fun c => ?_
  by_cases exits : now = .exited
  · simp [session, live, empty, exits, rest exits]
  · simp [session, live, empty, exits, same]

end SessionSteps

theorem Custody.receive (h : Custody r) (new : t.leaseToken ∉ r.tracked) :
    Custody { r.track t with handlers := r.handlers ++ [.running t] } := by
  have unowned : r.owns.count t.leaseToken = 0 := by
    by_contra owned
    exact new (h.entry _ (Nat.pos_of_ne_zero owned))
  have owned : ∀ token, { r.track t with handlers := r.handlers ++ [.running t] : Runner }.owns.count token =
      r.owns.count token + [t.leaseToken].count token := by
    intro token
    simp [owns, track, count_cons]
    omega
  refine ⟨fun sc => ?_, fun token => ?_, fun token pos => ?_⟩
  · have := h.results sc
    simpa [inHand, track] using this
  · rw [owned]
    by_cases same : token = t.leaseToken
    · simp [same, unowned]
    · simpa [count_eq_zero_of_not_mem, same] using h.once token
  · rw [owned] at pos
    refine mem_track.mpr ?_
    by_cases same : token = t.leaseToken
    · exact .inr same
    · exact .inl (h.entry token (by simpa [count_eq_zero_of_not_mem, same] using pos))

/-! ## Every step -/

theorem Custody.step (h : Custody r) {a : RunnerAction} (safe : r.loses a = false) : Custody (r.step a) := by
  cases a with
  | connect =>
    simp only [Runner.step]
    split
    · rename_i idle
      have idle : r.session = none := by simpa using idle
      exact h.pass (by simp [idle, Session.new]) fun sc => by simp [idle, Session.new, Sender.inHand]
    · exact h
  | receive t =>
    refine atSession_cases h fun s r' session moved => ?_
    split at moved <;> cases moved
    exact h.receive (by simpa [loses] using safe)
  | receiveError | closeSend => exact h.setSession (fun s => rfl) fun s => rfl
  | runReturns =>
    refine atSession_cases h fun s r' session moved => ?_
    split at moved <;> cases moved
    rename_i done
    exact h.pass (by simp [session, done.2.2.2.1]) fun sc => by simp [session, done.2.1]
  | finish i result | recoverTask i value =>
    refine atHandler_cases h fun hd r' found moved => ?_
    cases hd <;> cases moved
    exact h.finish found _
  | send i =>
    refine atHandler_cases h fun hd r' found moved => ?_
    cases hd with
    | reporting sc =>
      obtain rfl := Option.some.inj moved
      exact h.send found
    | _ => cases moved
  | bufferResult i =>
    refine atHandler_cases h fun hd r' found moved => ?_
    cases hd with
    | buffering sc =>
      simp only at moved
      split at moved <;> cases moved
      · exact h.bufferResult found
      · exact h.goes_on found (.overflowing _) rfl rfl
    | _ => cases moved
  | untrack i =>
    refine atHandler_cases h fun hd r' found moved => ?_
    cases hd <;> cases moved
    · exact h.untrackDiscarded found
    · exact h.untrack found
  | discardResult i =>
    refine atHandler_cases h fun hd r' found moved => ?_
    cases hd <;> cases moved
    exact h.discardResult found
  | takeBuffer =>
    refine atSession_cases h fun s r' session moved => ?_
    split at moved <;> cases moved
    rename_i due
    exact h.takeBuffer session due
  | replay =>
    refine atSession_cases h fun s r' session moved => ?_
    split at moved <;> cases moved
    rename_i taking
    exact h.replay session taking
  | putBack =>
    refine atSession_cases h fun s r' session moved => ?_
    split at moved <;> cases moved
    rename_i back
    exact h.putBack session back
  | untrackSent =>
    refine atSession_cases h fun s r' session moved => ?_
    split at moved <;> cases moved
    · rename_i sent
      exact h.untrackSent session sent
    · rename_i sent
      exact h.pass (by simp [session, sent]) fun sc => by simp [session]
  | take =>
    refine atSession_cases h fun s r' session moved => ?_
    split at moved <;> cases moved
    rename_i idle queue
    exact h.pass (by simp [session]) fun sc => by simp [session, idle, queue, Sender.inHand]
  | sent =>
    refine atSession_cases h fun s r' session moved => ?_
    split at moved <;> cases moved
    · rename_i sending
      exact h.sent session sending
    · rename_i msg other sending
      have none : msg.results = [] := by
        cases msg with
        | complete sc => exact absurd rfl (other sc)
        | _ => rfl
      exact h.turn session (by simp [sending, Sender.inHand, none]) rfl (by simp [sending]) (by simp)
  | sendError =>
    refine atSession_cases h fun s r' session moved => ?_
    split at moved <;> cases moved
    rename_i sending
    exact h.turn session (by simpa [loses, session] using safe) rfl (by simp [sending]) (by simp)
  | detach =>
    refine atSession_cases h fun s r' session moved => ?_
    split at moved <;> cases moved
    rename_i failed
    exact h.turn session (by simp [failed, Sender.inHand]) rfl (by simp [failed])
      fun _ => by simpa [loses, session, failed] using safe
  | flushed =>
    refine atSession_cases h fun s r' session moved => ?_
    split at moved <;> cases moved
    rename_i done
    exact h.turn session (by simp [done.1, Sender.inHand]) rfl (by simp [done.1]) fun _ => by simp [done.2.2]
  | attest =>
    simp only [Runner.step]
    cases frame : r.attestFrame with
    | none => exact h
    | some msg =>
      have other : msg.results = [] := by
        unfold attestFrame at frame
        split at frame <;> cases frame
        rfl
      exact h.enqueue other
  | sendReadiness km ready => exact h.enqueue rfl

/-- In every run without a failed send of a result, a queue detached with results in it, or a token
that comes twice, every result is in one place and every task whose result is held is tracked, after
every step. -/
theorem results_accounted (maxInfl : Nat) (actions : List RunnerAction)
    (safe : Throughout Runner.step (fun r a => r.loses a = false) (Runner.new maxInfl) actions) :
    Throughout Runner.step (fun r a => (r.step a).Accounted ∧ (r.step a).Tracks) (Runner.new maxInfl) actions :=
  safe.keeps (I := Custody) (fun _ _ h safe => ⟨h.step safe, (h.step safe).accounted, (h.step safe).tracks⟩)
    (.new maxInfl)

/-! ## A stream that breaks -/

/-- `Run` up to its receive loop, with this many results to replay. -/
def opens (buffered : Nat) : List RunnerAction :=
  [.connect, .takeBuffer, .replay, .putBack] ++ List.replicate (buffered + 1) .untrackSent

def workTask (token : LeaseToken) : StageTask := ⟨token, 1, .work⟩

/-- The stream breaks under a heartbeat, the handler goes on, and its result reaches the next
stream. -/
theorem results_accounted_redelivered :
    let actions : List RunnerAction :=
      opens 0 ++ [.receive (workTask 7), .attest, .take, .sendError, .detach, .receiveError,
        .finish 0 (.ok Outcome.empty), .send 0, .bufferResult 0, .closeSend, .runReturns] ++
      opens 1 ++ [.take, .sent]
    Throughout Runner.step (fun r a => (r.step a).Accounted ∧ (r.step a).Tracks) (Runner.new 1) actions ∧
      (actions.foldl Runner.step (Runner.new 1)).handed =
        [(workTask 7).report (computeComplete .work (.ok Outcome.empty))] := by
  intro actions
  have safe : Throughout Runner.step (fun r a => r.loses a = false) (Runner.new 1) actions := by decide +kernel
  exact ⟨results_accounted 1 actions safe, by decide +kernel⟩

/-- The stream breaks with one result at the sender and one behind it: both are gone, neither
buffered nor counted, and their tasks are untracked. -/
theorem sender_dies :
    let actions : List RunnerAction :=
      opens 0 ++ [.receive (workTask 7), .receive (workTask 8), .finish 0 (.ok Outcome.empty),
        .finish 1 (.ok Outcome.empty), .send 0, .untrack 0, .send 0, .untrack 0, .take, .sendError, .detach,
        .receiveError, .closeSend, .runReturns]
    let r := actions.foldl Runner.step (Runner.new 2)
    ¬ r.Accounted ∧ r.computed.length = 2 ∧ r.handed = [] ∧ r.queued = [] ∧ r.resultBuf = [] ∧
      r.discarded = [] ∧ r.inHand = [] ∧
      r.inflight = [] := by
  decide +kernel

end Runner

end Converge.Kernel
