/-
# Guarantees.Readiness -- what a broker holds of a worker's probes

After a tick of the poller whose frames all arrive, the broker should hold a pair unready exactly if
its probe is false.  The poller sends a frame where the probe differs from what it remembers, and
takes its memory for the broker's view.  On one stream that is so from the first frame on
(`Agrees.told`): before it the broker's view is what the burst of this stream read, and the memory is
from the seed or from another stream.

So the broker is right after the tick exactly if, for every probe, a frame was sent on this stream
before, or the burst read what the probe says, or the poller remembers the other value
(`readiness_converges`).
-/
import Converge.Kernel.WorkerLink

namespace Converge.Kernel

open List Option

set_option autoImplicit false

variable {ready : Bool} {km : KindVersion} {view : KindVersion → Bool} {st' : LinkStream}
    {r : Runner} {y : WorkerLink}

/-! ## What is on its way -/

/-- The readiness frames among messages. -/
def interests (msgs : List ClientMsg) : List (KindVersion × Bool) :=
  msgs.filterMap fun | .interest km ready => some (km, ready) | _ => none

@[simp] theorem interests_append (a b : List ClientMsg) : interests (a ++ b) = interests a ++ interests b :=
  filterMap_append

@[simp] theorem interests_nil : interests [] = [] := rfl

@[simp] theorem interests_interest (km : KindVersion) (ready : Bool) (rest : List ClientMsg) :
    interests (.interest km ready :: rest) = (km, ready) :: interests rest := rfl

@[simp] theorem interests_complete (sc : Report) (rest : List ClientMsg) :
    interests (.complete sc :: rest) = interests rest := rfl

@[simp] theorem interests_heartbeat (tasks : List (LeaseToken × Nat)) (rest : List ClientMsg) :
    interests (.heartbeat tasks :: rest) = interests rest := rfl

theorem interests_replayed (reports : List Report) : interests (reports.map .complete) = [] := by
  induction reports with
  | nil => rfl
  | cons _ _ ih => simpa using ih

namespace Runner

variable {r r' : Runner}

def Session.outgoing (s : Session) : List ClientMsg :=
  (match s.sender with | .sending msg => [msg] | _ => []) ++ s.queue

/-- The messages between the goroutines of the worker and the stream. -/
def outgoing (r : Runner) : List ClientMsg := r.session.elim [] Session.outgoing

theorem outgoing_some {s : Session} (session : r.session = some s) : r.outgoing = s.outgoing := by
  simp [outgoing, session]

theorem outgoing_enqueue {msg : ClientMsg} (queued : r.enqueue msg = some r') :
    r'.outgoing = r.outgoing ++ [msg] := by
  obtain ⟨s, session, _, rfl⟩ := enqueue_some queued
  simp [outgoing, session, Session.outgoing]

/-- The steps that hand on or lose a message, or add a frame. -/
def movesFrames : RunnerAction → Bool
  | .sent | .sendError | .runReturns | .sendReadiness _ _ => true
  | _ => false

/-- No readiness frame moves, and no stream begins. -/
structure Idles (r r' : Runner) : Prop where
  line : interests r'.outgoing = interests r.outgoing
  idle : r.session = none → r'.session = none

theorem Idles.of_session (same : r'.session = r.session) : Idles r r' :=
  ⟨by rw [outgoing, same]; rfl, same.trans⟩

theorem Idles.setSession {f : Session → Session} {base : Runner} (from_ : base.session = r.session)
    (same : ∀ s, r.session = some s → (f s).outgoing = s.outgoing) : Idles r (base.setSession f) := by
  unfold Runner.setSession
  cases session : r.session with
  | none => exact .of_session (by simp [from_, session])
  | some s =>
    refine ⟨?_, fun idle => by cases session.symm.trans idle⟩
    simp [outgoing, from_, session, same s session]

theorem Idles.enqueue {msg : ClientMsg} (queued : r.enqueue msg = some r')
    (other : interests [msg] = []) : Idles r r' := by
  obtain ⟨s, session, -⟩ := enqueue_some queued
  refine ⟨?_, fun idle => by cases session.symm.trans idle⟩
  rw [outgoing_enqueue queued, interests_append, other, append_nil]

theorem step_idles {a : RunnerAction} (other : movesFrames a = false) (old : a ≠ .connect) :
    Idles r (r.step a) := by
  cases a with
  | connect => exact absurd rfl old
  | sent | sendError | runReturns | sendReadiness => cases other
  | receive t =>
    refine atSession_cases (.of_session rfl) fun s r' session moved => ?_
    split at moved <;> cases moved
    exact .of_session rfl
  | receiveError | closeSend => exact .setSession rfl fun _ _ => rfl
  | finish i _ | recoverTask i _ | untrack i | discardResult i =>
    refine atHandler_cases (.of_session rfl) fun h r' found moved => ?_
    cases h <;> cases moved <;> exact .of_session rfl
  | send i =>
    refine atHandler_cases (.of_session rfl) fun h r' found moved => ?_
    cases h with
    | reporting sc =>
      obtain rfl := some.inj moved
      cases queued : r.enqueue (.complete sc) with
      | none => exact .of_session rfl
      | some r' => exact ⟨(Idles.enqueue queued rfl).line, (Idles.enqueue queued rfl).idle⟩
    | _ => cases moved
  | bufferResult i =>
    refine atHandler_cases (.of_session rfl) fun h r' found moved => ?_
    cases h with
    | buffering sc =>
      simp only at moved
      split at moved <;> cases moved <;> exact .of_session rfl
    | _ => cases moved
  | takeBuffer | putBack | untrackSent =>
    refine atSession_cases (.of_session rfl) fun s r' session moved => ?_
    split at moved <;> cases moved <;> exact .setSession rfl fun _ _ => rfl
  | replay =>
    refine atSession_cases (.of_session rfl) fun s r' session moved => ?_
    split at moved <;> cases moved
    rename_i buf taking
    obtain ⟨taken, unsent, _, _, eq⟩ := replayLoop_spec buf r s [] session
    refine ⟨?_, fun idle => by cases session.symm.trans idle⟩
    rw [eq, outgoing_some session]
    simp [outgoing, setSession, Session.outgoing, interests_replayed]
  | take | detach | flushed =>
    refine atSession_cases (.of_session rfl) fun s r' session moved => ?_
    split at moved <;> cases moved
    refine .setSession rfl fun s' there => ?_
    cases session.symm.trans there
    simp [Session.outgoing, *]
  | attest =>
    simp only [step]
    cases frame : r.attestFrame with
    | none => exact .of_session rfl
    | some msg =>
      cases queued : r.enqueue msg with
      | none => exact .of_session (by simp [queued])
      | some r' =>
        have other : interests [msg] = [] := by
          unfold attestFrame at frame
          split at frame <;> cases frame
          rfl
        simpa [queued] using Idles.enqueue queued other

theorem atSession_idle (idle : r.session = none) (move : Session → Option Runner) : r.atSession move = r := by
  simp [atSession, idle]

end Runner

/-! ## The broker's view -/

theorem mem_flipReadiness {kms unready : List KindVersion} {k : KindVersion} :
    k ∈ flipReadiness kms unready km ready ↔ if k = km ∧ km ∈ kms then ready = false else k ∈ unready := by
  unfold flipReadiness
  by_cases served : km ∈ kms
  · by_cases same : k = km
    · subst same
      cases ready <;> by_cases mem : k ∈ unready <;> simp [served, mem]
    · cases ready <;> by_cases mem : km ∈ unready <;> simp [served, same, mem]
  · simp [served]

namespace WorkerLink

variable {x : WorkerLink} {st : LinkStream}

theorem sending_outgoing : x.sending ++ (x.runner.step .sent).outgoing = x.runner.outgoing := by
  cases session : x.runner.session with
  | none => simp [sending, Runner.step, Runner.atSession_idle session, Runner.outgoing, session]
  | some s =>
    cases sender : s.sender with
    | sending msg =>
      cases msg <;>
        simp [sending, Runner.step, Runner.atSession, session, sender, Runner.outgoing, Runner.setSession,
          Runner.Session.outgoing]
    | _ => simp [sending, Runner.step, Runner.atSession, session, sender, Runner.outgoing, Runner.Session.outgoing]

/-- The readiness frames that the broker has not handled. -/
def pending (x : WorkerLink) (st : LinkStream) : List (KindVersion × Bool) :=
  interests st.wire ++ interests x.runner.outgoing

/-- What the broker holds of a pair, once it has handled them. -/
def told (x : WorkerLink) (st : LinkStream) (km : KindVersion) : Bool :=
  km ∉ (x.pending st).foldl (fun unready f => flipReadiness x.kms unready f.1 f.2) st.unready

theorem told_settled (settled : x.pending st = []) (km : KindVersion) :
    x.told st km = decide (km ∉ st.unready) := by
  simp [told, settled]

theorem told_frame
    (line : y.pending st' = x.pending st ++ [(km, ready)]) (served : km ∈ x.kms) (kms : y.kms = x.kms)
    (unready : st'.unready = st.unready) (k : KindVersion) :
    y.told st' k = if k = km then ready else x.told st k := by
  simp only [told, line, kms, unready, foldl_append, foldl_cons, foldl_nil, mem_flipReadiness]
  by_cases same : k = km
  · cases ready <;> simp [same, served]
  · simp [same]

theorem told_congr (line : y.pending st' = x.pending st) (kms : y.kms = x.kms)
    (unready : st'.unready = st.unready) (k : KindVersion) : y.told st' k = x.told st k := by
  simp [told, kms, unready, line]

theorem sendReadiness_some
    (queued : x.runner.enqueue (.interest km ready) = some r) : x.sendReadiness km ready = x.sent km ready r := by
  simp [sendReadiness, queued]

theorem sendReadiness_none
    (full : x.runner.enqueue (.interest km ready) = none) : x.sendReadiness km ready = x := by
  simp [sendReadiness, full]

theorem told_sent
    (queued : x.runner.enqueue (.interest km ready) = some r) (served : km ∈ x.kms) (k : KindVersion) :
    (x.sent km ready r).told { st with framed := km :: st.framed } k = if k = km then ready else x.told st k := by
  have line : (x.sent km ready r).pending { st with framed := km :: st.framed } =
      x.pending st ++ [(km, ready)] := by
    simp [sent, pending, Runner.outgoing_enqueue queued]
  exact told_frame line served rfl rfl k

/-- What holds between a stream and the memory of the poller. -/
structure Agrees (x : WorkerLink) (st : LinkStream) : Prop where
  told : ∀ km, x.told st km = if km ∈ st.framed then (x.last km).getD true else (st.read km).getD true
  framed : st.framed ⊆ x.probes
  read : ∀ km, (st.read km).isSome → km ∈ x.probes
  burst : st.burst ≠ [] → x.runner.session = none ∧ st.framed = []
  unread : st.burst.Nodup ∧ st.burst ⊆ x.probes ∧ ∀ km ∈ st.burst, st.read km = none
  seeding : x.seeding ≠ [] → st.framed = []

/-- In every state: a value that was read is of a probe, and the stream, if there is one, agrees. -/
structure Sound (x : WorkerLink) : Prop where
  reading : ∀ km value, x.reading = some (km, value) → km ∈ x.probes ∧ x.seeding = []
  stream : ∀ st, x.stream = some st → Agrees x st

theorem Sound.new (kms probes : List KindVersion) (served : probes ⊆ kms) (distinct : probes.Nodup)
    (ready : KindVersion → Bool) (maxInfl : Nat) : Sound (.new kms probes served distinct ready maxInfl) :=
  ⟨nofun, nofun⟩

/-- The poller stays as it is, and a stream that is there tells the broker the same as before. -/
structure Transports (x y : WorkerLink) : Prop where
  kms : y.kms = x.kms
  probes : y.probes = x.probes
  seeding : y.seeding = x.seeding
  reading : y.reading = x.reading
  last : y.last = x.last
  stream : ∀ st', y.stream = some st' → ∃ st, x.stream = some st ∧ st'.burst = st.burst ∧ st'.framed = st.framed ∧
    st'.read = st.read ∧ (∀ km, y.told st' km = x.told st km) ∧
    (st.burst ≠ [] → x.runner.session = none → y.runner.session = none)

theorem Transports.rfl : Transports x x :=
  ⟨.refl _, .refl _, .refl _, .refl _, .refl _, fun st there =>
    ⟨st, there, .refl _, .refl _, .refl _, fun _ => .refl _, fun _ idle => idle⟩⟩

theorem Sound.transports (h : Sound x) (moved : Transports x y) : Sound y where
  reading := by rw [moved.reading, moved.probes, moved.seeding]; exact h.reading
  stream := fun st' there => by
    obtain ⟨st, stream, burst, framed, read, told, idle⟩ := moved.stream st' there
    have agrees := h.stream st stream
    constructor
    case told =>
      rw [framed, read, moved.last]
      exact fun km => (told km).trans (agrees.told km)
    case framed => rw [framed, moved.probes]; exact agrees.framed
    case read => rw [read, moved.probes]; exact agrees.read
    case burst =>
      rw [burst, framed]
      exact fun left => ⟨idle left (agrees.burst left).1, (agrees.burst left).2⟩
    case unread => rw [burst, read, moved.probes]; exact agrees.unread
    case seeding => rw [moved.seeding, framed]; exact agrees.seeding

theorem Sound.sendReadiness (h : Sound x) (probe : km ∈ x.probes) (seeded : x.seeding = [])
    (ready : Bool) : Sound (x.sendReadiness km ready) := by
  cases queued : x.runner.enqueue (.interest km ready) with
  | none => rwa [sendReadiness_none queued]
  | some r =>
    rw [sendReadiness_some queued]
    refine ⟨h.reading, fun st' there => ?_⟩
    obtain ⟨st, stream, rfl⟩ := map_eq_some_iff.mp there
    have agrees := h.stream st stream
    have noBurst : st.burst = [] := by
      by_contra left
      obtain ⟨s, session, _⟩ := Runner.enqueue_some queued
      cases session.symm.trans (agrees.burst left).1
    constructor
    case told =>
      intro k
      rw [told_sent queued (x.served probe) k]
      by_cases same : k = km
      · simp [same, sent, latch]
      · simp [same, sent, latch, agrees.told k]
    case framed => exact cons_subset.mpr ⟨probe, agrees.framed⟩
    case read => exact agrees.read
    case burst => exact fun left => absurd noBurst left
    case unread => exact agrees.unread
    case seeding => exact fun left => absurd seeded left

theorem Sound.emit (h : Sound x) (probe : km ∈ x.probes) (seeded : x.seeding = [])
    (ready : Bool) : Sound (x.emit km ready) := by
  unfold WorkerLink.emit
  split <;> split <;> first | exact h | exact h.sendReadiness probe seeded ready

theorem Sound.subscribe (h : Sound x) (idle : x.runner.session = none) :
    Sound { x with stream := some ⟨x.probes, [], [], fun _ => none, []⟩ } := by
  refine ⟨h.reading, fun st there => ?_⟩
  cases there
  refine ⟨fun km => ?_, by simp, by simp, fun _ => ⟨idle, rfl⟩,
    ⟨x.distinct, fun _ mem => mem, fun _ _ => rfl⟩, fun _ => rfl⟩
  simp [told, pending, Runner.outgoing, idle]

/-- The burst reads a probe that it has not read: so far the broker holds the pair ready. -/
theorem Sound.initialUnready (h : Sound x) : Sound (x.step .initialUnready) := by
  refine ⟨h.reading, fun st' there => ?_⟩
  obtain ⟨st, stream, rfl⟩ := map_eq_some_iff.mp there
  have agrees := h.stream st stream
  cases left : st.burst with
  | nil => exact { agrees with }
  | cons km rest =>
    obtain ⟨idle, unframed⟩ := agrees.burst (by simp [left])
    obtain ⟨distinct, probes, unread⟩ := agrees.unread
    rw [left] at distinct probes unread
    have probe : km ∈ x.probes := probes mem_cons_self
    have before : x.told st km = true := by simp [agrees.told km, unframed, unread km]
    let st' : LinkStream := { st with
      burst := rest
      wire := if x.ready km then st.wire else st.wire ++ [.interest km false]
      read := fun k => if k = km then some (x.ready km) else st.read k }
    have now : ∀ k, x.told st' k = if k = km then x.ready km else x.told st k := by
      intro k
      cases ready : x.ready km with
      | true =>
        have line : x.pending st' = x.pending st := by simp [st', pending, ready]
        rw [told_congr line rfl rfl k]
        by_cases same : k = km <;> simp [same, before]
      | false =>
        have line : x.pending st' = x.pending st ++ [(km, false)] := by
          simp [st', pending, ready, Runner.outgoing, idle]
        exact told_frame line (x.served probe) rfl rfl k
    constructor
    case told =>
      intro k
      change x.told st' k = if k ∈ st'.framed then (x.last k).getD true else (st'.read k).getD true
      rw [now k]
      by_cases same : k = km
      · simp [st', same, unframed]
      · simp [st', same, unframed, agrees.told k]
    case framed => exact agrees.framed
    case read =>
      intro k some
      by_cases same : k = km
      · exact same ▸ probe
      · exact agrees.read k (by simpa [same] using some)
    case burst => exact fun _ => ⟨idle, unframed⟩
    case unread =>
      refine ⟨(nodup_cons.mp distinct).2, fun k mem => probes (.tail _ mem), fun k mem => ?_⟩
      have other : k ≠ km := fun same => (nodup_cons.mp distinct).1 (same ▸ mem)
      simp [other, unread k (.tail _ mem)]
    case seeding => exact agrees.seeding

/-! ## The transport -/

theorem Transports.broken (kms : y.kms = x.kms) (probes : y.probes = x.probes)
    (seeding : y.seeding = x.seeding) (reading : y.reading = x.reading) (last : y.last = x.last)
    (gone : y.stream = none) : Transports x y :=
  ⟨kms, probes, seeding, reading, last, fun st' there => by cases gone.symm.trans there⟩

theorem Transports.handle : Transports x (x.step .handle) := by
  refine ⟨.refl _, .refl _, .refl _, .refl _, .refl _, fun st' there => ?_⟩
  obtain ⟨st, stream, rfl⟩ := map_eq_some_iff.mp there
  refine ⟨st, stream, ?_⟩
  cases wire : st.wire with
  | nil => exact ⟨.refl _, .refl _, .refl _, fun _ => .refl _, fun _ idle => idle⟩
  | cons msg rest =>
    cases msg <;> refine ⟨.refl _, .refl _, .refl _, fun km => ?_, fun _ idle => idle⟩
    all_goals simp [told, pending, wire, step, setStream]

theorem Transports.runner (line : interests r.outgoing = interests x.runner.outgoing)
    (idle : ∀ st, x.stream = some st → st.burst ≠ [] → x.runner.session = none → r.session = none) :
    Transports x { x with runner := r } := by
  refine ⟨.refl _, .refl _, .refl _, .refl _, .refl _,
    fun st there => ⟨st, there, .refl _, .refl _, .refl _, ?_, idle st there⟩⟩
  have same : pending { x with runner := r } st = x.pending st := by simp [pending, line]
  exact told_congr same (.refl _) (.refl _)

theorem Transports.idles (h : x.runner.Idles r) : Transports x { x with runner := r } :=
  .runner h.line fun _ _ _ => h.idle

theorem Transports.sent : Transports x (x.step (.runner .sent)) := by
  refine ⟨.refl _, .refl _, .refl _, .refl _, .refl _, fun st' there => ?_⟩
  obtain ⟨st, stream, rfl⟩ := map_eq_some_iff.mp there
  have same : (x.step (.runner .sent)).pending { st with wire := st.wire ++ x.sending } = x.pending st := by
    rw [pending, pending, ← sending_outgoing (x := x)]
    simp [step, setStream]
  exact ⟨st, stream, .refl _, .refl _, .refl _, told_congr same (.refl _) (.refl _),
    fun _ idle => by rwa [step, Runner.step, Runner.atSession_idle idle]⟩

theorem runner_transports (x : WorkerLink) (a : RunnerAction) : Transports x (x.step (.runner a)) := by
  cases a with
  | connect =>
    simp only [step]
    split
    · rename_i read
      refine .runner ?_ fun st stream left => absurd (by simpa [stream] using read) left
      simp only [Runner.step]
      split
      · rename_i idle
        simp [Runner.outgoing, isNone_iff_eq_none.mp idle, Runner.Session.outgoing, Runner.Session.new]
      · rfl
    · exact .rfl
  | sent => exact .sent
  | sendError =>
    by_cases none : x.sending = []
    · have same : x.runner.step .sendError = x.runner := by
        simp only [sending] at none
        cases session : x.runner.session with
        | none => simp [Runner.step, Runner.atSession_idle session]
        | some s => cases sender : s.sender <;> simp_all [Runner.step, Runner.atSession]
      have idle : x.step (.runner .sendError) = x := by simp [step, none, same]
      rw [idle]
      exact .rfl
    · exact .broken rfl rfl rfl rfl rfl (by simp [step, none])
  | runReturns =>
    by_cases running : (x.runner.step .runReturns).session.isSome
    · have same : x.runner.step .runReturns = x.runner := by
        refine Runner.atSession_cases (P := fun r' => r'.session.isSome → r' = x.runner) (fun _ => rfl)
          (fun s r' session moved there => ?_) running
        split at moved <;> cases moved
        cases there
      rw [same] at running
      have idle : x.step (.runner .runReturns) = x := by simp [step, same, running]
      rw [idle]
      exact .rfl
    · exact .broken rfl rfl rfl rfl rfl (by simp [step, running])
  | sendReadiness km ready => exact .rfl
  | _ => exact .idles (Runner.step_idles rfl (by simp))

theorem Sound.step (h : Sound x) (a : LinkAction) : Sound (x.step a) := by
  cases a with
  | probe km value => exact h.transports ⟨rfl, rfl, rfl, rfl, rfl, fun st there =>
    ⟨st, there, rfl, rfl, rfl, fun _ => rfl, fun _ idle => idle⟩⟩
  | seed =>
    simp only [WorkerLink.step]
    split
    · exact h
    · rename_i km rest left
      have busy : x.seeding ≠ [] := by simp [left]
      refine ⟨fun km value read => absurd (h.reading km value read).2 busy, fun st stream => ?_⟩
      have agrees := h.stream st stream
      have unframed := agrees.seeding busy
      refine ⟨fun k => ?_, agrees.framed, agrees.read, agrees.burst, agrees.unread, fun _ => unframed⟩
      rw [unframed, if_neg not_mem_nil]
      exact (agrees.told k).trans (by rw [unframed, if_neg not_mem_nil])
  | poll km =>
    simp only [WorkerLink.step]
    split
    · rename_i free
      refine ⟨fun k value read => ?_, fun st stream => ?_⟩
      · cases read
        exact ⟨free.2.2, free.1⟩
      · exact { h.stream st stream with }
    · exact h
  | emit =>
    simp only [WorkerLink.step]
    split
    · rename_i km value read
      obtain ⟨probe, seeded⟩ := h.reading km value read
      have clear : Sound { x with reading := none } := by
        refine ⟨nofun, fun st stream => ?_⟩
        exact { h.stream st stream with }
      exact clear.emit probe seeded value
    · exact h
  | subscribe =>
    simp only [WorkerLink.step]
    split
    · rename_i free
      exact h.subscribe (isNone_iff_eq_none.mp free.2)
    · exact h
  | initialUnready => exact h.initialUnready
  | handle => exact h.transports .handle
  | broken => exact h.transports (.broken rfl rfl rfl rfl rfl rfl)
  | runner a => exact h.transports (runner_transports x a)

/-! ## A tick -/

/-- What the poller takes the broker's view to be. -/
def remembers (x : WorkerLink) (km : KindVersion) : Bool := (x.last km).getD true

theorem emit_eq (x : WorkerLink) (km : KindVersion) (ready : Bool) :
    x.emit km ready = if x.remembers km = ready then x else x.sendReadiness km ready := by
  unfold emit remembers
  cases x.last km <;> cases ready <;> simp [eq_comm]

theorem poll_emit (seeded : x.seeding = []) (free : x.reading = none) (probe : km ∈ x.probes) :
    (x.step (.poll km)).step .emit = x.emit km (x.ready km) := by
  have same : { x with reading := none } = x := by
    cases x
    cases free
    rfl
  simp only [step, if_pos (show x.seeding = [] ∧ x.reading = none ∧ km ∈ x.probes from ⟨seeded, free, probe⟩)]
  exact congrArg (WorkerLink.emit · km (x.ready km)) same

/-- From `x`, with the stream `st`, the poller read the probes of `l`. -/
structure Polled (l : List KindVersion) (x : WorkerLink) (st : LinkStream) (y : WorkerLink) (st' : LinkStream) :
    Prop where
  kms : y.kms = x.kms
  probes : y.probes = x.probes
  ready : y.ready = x.ready
  seeding : y.seeding = x.seeding
  reading : y.reading = x.reading
  burst : st'.burst = st.burst
  stream : y.stream = some st'
  last : ∀ k, k ∉ l → y.last k = x.last k
  told : ∀ k, y.told st' k =
    if k ∈ l ∧ x.remembers k ≠ x.ready k ∧ y.remembers k = x.ready k then x.ready k else x.told st k

theorem Polled.none (stream : x.stream = some st) : Polled [] x st x st :=
  ⟨rfl, rfl, rfl, rfl, rfl, rfl, stream, fun _ _ => rfl, fun _ => by simp⟩

theorem Polled.one (stream : x.stream = some st) (probe : km ∈ x.probes) :
    ∃ st', Polled [km] x st (x.emit km (x.ready km)) st' := by
  rw [emit_eq]
  split
  · rename_i same
    refine ⟨st, rfl, rfl, rfl, rfl, rfl, rfl, stream, fun _ _ => rfl, fun k => ?_⟩
    rw [if_neg]
    rintro ⟨mem, differs, _⟩
    exact differs (mem_singleton.mp mem ▸ same)
  · rename_i differs
    cases queued : x.runner.enqueue (.interest km (x.ready km)) with
    | none =>
      rw [sendReadiness_none queued]
      refine ⟨st, rfl, rfl, rfl, rfl, rfl, rfl, stream, fun _ _ => rfl, fun k => ?_⟩
      rw [if_neg]
      rintro ⟨_, other, same⟩
      exact other same
    | some r =>
      rw [sendReadiness_some queued]
      refine ⟨{ st with framed := km :: st.framed }, rfl, rfl, rfl, rfl, rfl, rfl, by simp [sent, stream],
        fun k other => ?_, fun k => ?_⟩
      · simp [sent, latch, mem_singleton.not.mp other]
      · rw [told_sent queued (x.served probe) k]
        by_cases same : k = km
        · subst same
          rw [if_pos rfl, if_pos ⟨mem_cons_self, differs, by simp [remembers, sent, latch]⟩]
        · simp [same]

theorem Polled.trans {l : List KindVersion} {z : WorkerLink} {st'' : LinkStream}
    (new : km ∉ l) (first : Polled [km] x st y st') (rest : Polled l y st' z st'') :
    Polled (km :: l) x st z st'' where
  kms := rest.kms.trans first.kms
  probes := rest.probes.trans first.probes
  ready := rest.ready.trans first.ready
  seeding := rest.seeding.trans first.seeding
  reading := rest.reading.trans first.reading
  burst := rest.burst.trans first.burst
  stream := rest.stream
  last := fun k other => by
    rw [mem_cons, not_or] at other
    rw [rest.last k other.2, first.last k (by simpa using other.1)]
  told := fun k => by
    rw [rest.told k, first.told k, first.ready]
    by_cases same : k = km
    · subst same
      have last : z.remembers k = y.remembers k := by simp [remembers, rest.last k new]
      simp [new, last]
    · have last : y.remembers k = x.remembers k := by simp [remembers, first.last k (by simpa using same)]
      simp [same, last]

theorem polled_foldl (l : List KindVersion) : ∀ {x : WorkerLink} {st : LinkStream}, x.stream = some st → l.Nodup →
    l ⊆ x.probes → x.seeding = [] → x.reading = none →
    ∃ st', Polled l x st (l.foldl (fun y km => (y.step (.poll km)).step .emit) x) st' := by
  induction l with
  | nil => exact fun stream _ _ _ _ => ⟨_, .none stream⟩
  | cons km l ih =>
    intro x st stream distinct probes seeded free
    rw [foldl_cons, poll_emit seeded free (probes mem_cons_self)]
    obtain ⟨st', first⟩ := Polled.one stream (probes mem_cons_self)
    obtain ⟨st'', rest⟩ := ih first.stream (nodup_cons.mp distinct).2
      (first.probes.symm ▸ fun k mem => probes (.tail _ mem)) (first.seeding.trans seeded)
      (first.reading.trans free)
    exact ⟨st'', first.trans (nodup_cons.mp distinct).1 rest⟩

/-! ## Delivery -/

/-- The steps after a tick: no probe changes, and no new tick or stream begins. -/
def quiet : LinkAction → Bool
  | .probe _ _ | .poll _ | .emit | .subscribe => false
  | _ => true

/-- The stream, if it is there, has read its burst and tells the broker this. -/
def Tells (view : KindVersion → Bool) (x : WorkerLink) : Prop :=
  ∀ st, x.stream = some st → st.burst = [] ∧ ∀ km, x.told st km = view km

theorem Tells.transports (h : Tells view x) (moved : Transports x y) : Tells view y := by
  intro st' there
  obtain ⟨st, stream, burst, _, _, told, _⟩ := moved.stream st' there
  exact ⟨burst.trans (h st stream).1, fun km => (told km).trans ((h st stream).2 km)⟩

theorem Tells.step (h : Tells view x) {a : LinkAction} (still : quiet a = true) : Tells view (x.step a) := by
  cases a with
  | probe | poll | emit | subscribe => cases still
  | seed =>
    simp only [WorkerLink.step]
    split <;> exact h
  | initialUnready =>
    intro st' there
    obtain ⟨st, stream, rfl⟩ := map_eq_some_iff.mp there
    simp only [(h st stream).1]
    exact ⟨trivial, (h st stream).2⟩
  | broken => exact h.transports (.broken rfl rfl rfl rfl rfl rfl)
  | handle => exact h.transports .handle
  | runner a => exact h.transports (runner_transports x a)

theorem Tells.run (h : Tells view x) {after : List LinkAction}
    (still : ∀ a ∈ after, quiet a = true) : Tells view (after.foldl WorkerLink.step x) :=
  List.foldlRecOn (motive := Tells view) after _ h fun _ h a mem => h.step (still a mem)

theorem Sound.run (h : Sound x) (actions : List LinkAction) : Sound (actions.foldl WorkerLink.step x) :=
  List.foldlRecOn (motive := Sound) actions _ h fun _ h a _ => h.step a

/-- After a tick whose frames all arrive, with the probes as they were, the broker holds the pairs
unready whose probe is false, exactly if for every probe a frame was sent on this stream before, or
the burst of this stream read what the probe says, or the poller remembers the other value. -/
theorem readiness_converges (kms probes : List KindVersion) (served : probes ⊆ kms) (distinct : probes.Nodup)
    (ready : KindVersion → Bool) (maxInfl : Nat) (before after : List LinkAction) (st st' : LinkStream) :
    let x := before.foldl WorkerLink.step (.new kms probes served distinct ready maxInfl)
    let y := after.foldl WorkerLink.step x.tick
    x.stream = some st → st.burst = [] → x.seeding = [] → x.reading = none →
    (∀ km ∈ x.probes, x.tick.remembers km = x.ready km) → (∀ a ∈ after, quiet a = true) →
    y.stream = some st' → y.pending st' = [] →
    ((∀ km ∈ x.kms, km ∈ st'.unready ↔ km ∈ x.probes ∧ x.ready km = false) ↔
      ∀ km ∈ x.probes, km ∈ st.framed ∨ (st.read km).getD true = x.ready km ∨ x.remembers km ≠ x.ready km) := by
  intro x y live read seeded free enqueued still there settled
  have agrees : Agrees x st := ((Sound.new kms probes served distinct ready maxInfl).run before).stream st live
  obtain ⟨st₁, polled⟩ := polled_foldl x.probes live x.distinct (fun _ mem => mem) seeded free
  have tells : Tells (x.tick.told st₁) x.tick := by
    intro st there
    cases polled.stream.symm.trans there
    exact ⟨polled.burst.trans read, fun _ => rfl⟩
  have told : ∀ km, km ∉ st'.unready ↔ x.tick.told st₁ km = true := by
    intro km
    rw [← ((tells.run still) st' there).2 km, told_settled settled km, decide_eq_true_iff]
  -- the broker's view of a probe, by what the poller remembered
  have probe : ∀ km ∈ x.probes, x.tick.told st₁ km =
      if x.remembers km ≠ x.ready km then x.ready km else x.told st km := by
    intro km mem
    refine (polled.told km).trans ?_
    have same : x.tick.remembers km = x.ready km := enqueued km mem
    simp only [mem, true_and]
    exact if_congr (and_iff_left same) rfl rfl
  have other : ∀ km, km ∉ x.probes → x.tick.told st₁ km = true := by
    intro km absent
    refine (polled.told km).trans ?_
    rw [if_neg (fun mem => absent mem.1), agrees.told km, if_neg (fun mem => absent (agrees.framed mem))]
    cases read : st.read km with
    | none => rfl
    | some value => exact absurd (agrees.read km (by simp [read])) absent
  have each : ∀ km ∈ x.probes, ((km ∈ st'.unready ↔ km ∈ x.probes ∧ x.ready km = false) ↔
      (km ∈ st.framed ∨ (st.read km).getD true = x.ready km ∨ x.remembers km ≠ x.ready km)) := by
    intro km mem
    have view : (km ∈ st'.unready ↔ x.ready km = false) ↔ x.tick.told st₁ km = x.ready km := by
      have here := told km
      generalize x.tick.told st₁ km = view at here
      by_cases unready : km ∈ st'.unready <;> cases x.ready km <;> cases view <;> simp [unready] at here ⊢
    simp only [mem, true_and, view]
    rw [probe km mem, agrees.told km, show (x.last km).getD true = x.remembers km from rfl]
    by_cases differs : x.remembers km = x.ready km
    · by_cases framed : km ∈ st.framed <;> simp [differs, framed]
    · simp [differs]
  constructor
  · exact fun all km mem => (each km mem).mp (all km (x.served mem))
  · intro all km _
    by_cases mem : km ∈ x.probes
    · exact (each km mem).mpr (all km mem)
    · exact ⟨fun unready => absurd unready ((told km).mpr (other km mem)), fun both => absurd both.1 mem⟩

/-! ## Two histories -/

def pair : KindVersion := ⟨"vm", 1⟩

/-- A worker of one pair, with a probe that is false when the poller starts. -/
def degraded : WorkerLink := .new [pair] [pair] (fun _ mem => mem) (by decide) (fun _ => false) 1

/-- A stream, up to its receive loop. -/
def connects : List LinkAction :=
  [.subscribe, .initialUnready] ++ [.connect, .takeBuffer, .replay, .putBack, .untrackSent].map .runner

/-- The stream breaks, and `Run` returns. -/
def disconnects : List LinkAction := .broken :: [.receiveError, .closeSend, .flushed, .runReturns].map .runner

/-- The probe recovers after the burst. -/
def recovers : List LinkAction := .seed :: connects ++ [.probe pair true]

/-- The RS- of the burst and the RS+ of the tick arrive. -/
def delivers : List LinkAction := [.handle, .runner .take, .runner .sent, .handle]

/-- The tick tells the broker of the recovery. -/
theorem readiness_converges_recovered :
    let x := recovers.foldl WorkerLink.step degraded
    let y := delivers.foldl WorkerLink.step x.tick
    y.stream.isSome ∧ ∀ km ∈ x.kms,
      km ∈ y.stream.elim [] LinkStream.unready ↔ km ∈ x.probes ∧ x.ready km = false := by
  intro x y
  have before : x.stream.all (fun st => st.burst = []) ∧ x.seeding = [] ∧ x.reading = none ∧
      x.probes = [pair] ∧ x.remembers pair ≠ x.ready pair ∧ x.tick.remembers pair = x.ready pair := by
    decide +kernel
  have after : y.stream.all (fun st => y.pending st = []) := by decide +kernel
  obtain ⟨read, seeded, free, probes, differs, enqueued⟩ := before
  obtain ⟨st, live⟩ := isSome_iff_exists.mp (show x.stream.isSome by decide +kernel)
  obtain ⟨st', there⟩ := isSome_iff_exists.mp (show y.stream.isSome by decide +kernel)
  simp only [live, all_some, decide_eq_true_eq] at read
  simp only [there, all_some, decide_eq_true_eq] at after
  have only : ∀ km ∈ x.probes, km = pair := fun km mem => by simpa [probes] using mem
  refine ⟨by simp [there], ?_⟩
  rw [there]
  refine (readiness_converges [pair] [pair] (fun _ mem => mem) (by decide)
    (fun _ => false) 1 recovers delivers st st'
    live read seeded free (fun km mem => only km mem ▸ enqueued) (by decide) there after).mpr fun km mem => ?_
  obtain rfl := only km mem
  exact .inr (.inr differs)

/-- The probe is true for the burst of the second stream alone. -/
def flaps : List LinkAction :=
  .seed :: connects ++ disconnects ++ [.probe pair true] ++ connects ++ [.probe pair false]

/-- The poller remembers the RS- of the first stream, sends nothing, and the broker holds the worker
ready while its probe is false. -/
theorem burst_disagrees :
    let x := flaps.foldl WorkerLink.step degraded
    x.tick.stream.any (fun st => x.tick.pending st = [] ∧ st.burst = [] ∧ pair ∉ st.unready) ∧
      x.tick.remembers pair = x.ready pair ∧ x.ready pair = false := by
  decide +kernel

end WorkerLink

end Converge.Kernel
