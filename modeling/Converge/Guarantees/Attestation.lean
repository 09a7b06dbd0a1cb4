/-
# Guarantees.Attestation -- who keeps a lease fresh

A worker lists in its heartbeats the tokens of the stages it runs.  Its broker maps them to
tasks (`workIDsForTokens`) and renews the records of those, which the next lease heartbeats
read.  The token of a forwarded stage finds no task, and nothing goes back over the route.

So a worker of the broker that holds the lease renews the record, where there is one, and a
worker of the peer that the stage was forwarded to does not (`attestation_refreshes`).  The
record of a forwarded task lapses while its worker attests (`forwarded_task_lapses`).

Two claims of a row share its record: the first goroutine that ends removes it, whichever claim is
the latest (`latest_claims_recorded`, `older_claim_removes_record`).
-/
import Converge.Kernel.StepEffects
import Converge.Kernel.Tokens

namespace Converge.Kernel

open Converge.Theory List Option

set_option autoImplicit false

namespace Cluster

/-! ## Attestations -/

/-- Broker `holder` parked a stage of its task under the token, and a worker of broker `runner`
was sent it: its own, or the foreign one of a peer. -/
structure Runs (s : Cluster) (holder runner : String) (t : WorkTask) (token : LeaseToken) : Prop where
  claimed : t ∈ s.claimed holder
  parked : ∃ ps ∈ (s.brokers holder).stages, ps.registered = true ∧ ps.foreign = false ∧ ps.lease = some t ∧
    ps.token = token
  inFlight : ∃ ps ∈ (s.brokers runner).stages, ps.registered = true ∧ ps.token = token
  sent : ∃ sub ∈ (s.brokers runner).subs, token ∈ sub.sent

/-- The record of the task's lease. -/
def record? (s : Cluster) (holder : String) (t : WorkTask) : Option InFlightRecord :=
  ((s.inFlight holder).get t.id).filter (·.epoch = t.claimEpoch)

/-- It was attested right now. -/
def Renewed (s : Cluster) (holder : String) (t : WorkTask) : Prop :=
  ∃ r, s.record? holder t = some r ∧ r.attested = s.clock holder

/-- The heartbeat of the holder names the lease. -/
def Heartbeats [Postgres] (s : Cluster) (holder : String) (t : WorkTask) : Prop :=
  ∀ scan, ∃ tokens range, s.effect (.heartbeat holder scan) = some (.workQueueHeartbeat scan tokens range) ∧
    (t.id, t.claimEpoch) ∈ tokens

theorem record?_eq {s : Cluster} {holder : String} {t : WorkTask} {r : InFlightRecord} :
    s.record? holder t = some r ↔ (s.inFlight holder).get t.id = some r ∧ r.epoch = t.claimEpoch := by
  rw [record?, filter_eq_some_iff, decide_eq_true_eq]

section Attested

variable [Postgres] {s : Cluster} {holder runner : String} {t : WorkTask} {token : LeaseToken}
  {tokens : List LeaseToken} {a : ClusterAction} {before : List WorkTask} {r : InFlightRecord}

theorem Runs.workId (runs : s.Runs holder holder t token) (reached : s.Reached) (listed : token ∈ tokens) :
    t.id ∈ (s.brokers holder).workIDsForTokens tokens := by
  obtain ⟨ps, here, registered, -, lease, hit⟩ := runs.parked
  have some_ : ((s.brokers holder).inflight? token).isSome = true := by
    rw [Fanout.inflight?, find?_isSome]
    exact ⟨ps, here, by simp [registered, hit]⟩
  obtain ⟨found, seen⟩ := isSome_iff_exists.mp some_
  have foundHit := find?_some seen
  simp only [Bool.and_eq_true, decide_eq_true_eq] at foundHit
  obtain rfl := reached.tokens.unique (mem_of_find?_eq_some seen) here (foundHit.2.trans hit.symm)
  exact mem_filterMap.mpr ⟨token, listed, by rw [seen, bind_some, lease]; rfl⟩

theorem attest_get (s : Cluster) (holder runner : String) (tokens : List LeaseToken) (id : Uuid) :
    ((s.step (.attest runner tokens)).inFlight holder).get id = ((s.inFlight holder).get id).map fun r =>
      if holder = runner ∧ id ∈ (s.brokers runner).workIDsForTokens tokens
      then { r with attested := s.clock runner } else r := by
  show (s.setInFlight runner _ holder).get id = _
  unfold setInFlight
  by_cases same : holder = runner
  · subst same
    rw [if_pos rfl, InFlightSet.attest, InFlightSet.get_modify]
    simp
  · simp [same]

/-! ## The time after it -/

/-- The holder has a record, attested no earlier than `since`, of the task or of a later claim of
its row; `before` is what it had claimed by then. -/
def Attended (s : Cluster) (holder : String) (t : WorkTask) (before : List WorkTask) (since : Nat) : Prop :=
  ∃ later t' r, s.claimed holder = later ++ before ∧ (t' = t ∨ t' ∈ later) ∧ t'.id = t.id ∧
    s.record? holder t' = some r ∧ since ≤ r.attested ∧ since ≤ s.clock holder

theorem get_claimed (set : InFlightSet) (now : Nat) (id : Uuid) (tasks : List WorkTask) :
    (tasks.foldl (fun set t => set.add now t.id (shardOf t.resourceId) t.claimEpoch) set).get id = set.get id ∨
      ∃ t ∈ tasks, t.id = id ∧
        (tasks.foldl (fun set t => set.add now t.id (shardOf t.resourceId) t.claimEpoch) set).get id =
          some ⟨shardOf t.resourceId, t.claimEpoch, now, false⟩ := by
  induction tasks generalizing set with
  | nil => exact .inl rfl
  | cons t rest ih =>
    rw [foldl_cons]
    rcases ih (set.add now t.id (shardOf t.resourceId) t.claimEpoch) with same | ⟨t', listed, hit, got⟩
    · rw [same, InFlightSet.get_add]
      split
      next hit => exact .inr ⟨t, mem_cons_self, hit.symm, rfl⟩
      next => exact .inl rfl
    · exact .inr ⟨t', .tail _ listed, hit, got⟩

theorem step_unswept (unswept : ∀ scan b, a ≠ .sweep holder scan b) :
    (s.step a).claimed holder = s.claimed holder ∧ ∀ t ∈ (s.step a).running holder, t ∈ s.running holder := by
  cases a with
  | sweep id scan b =>
    have other : holder ≠ id := fun same => unswept scan b (by rw [same])
    exact ⟨if_neg other, fun t mem => by simpa only [step, if_neg other] using mem⟩
  | finish id t =>
    refine ⟨rfl, fun t' mem => ?_⟩
    simp only [step] at mem
    split at mem
    · exact mem_of_mem_erase mem
    · exact mem
  | _ => exact ⟨rfl, fun _ mem => mem⟩

/-- Only a claim of the row replaces a record, and only the end of a task of the row removes it. -/
theorem record_stays {id : Uuid}
    (held : (s.inFlight holder).get id = some r) (unswept : ∀ scan b, a ≠ .sweep holder scan b)
    (kept : ∀ t ∈ s.running holder, t.id = id → a ≠ .finish holder t) :
    ∃ r', ((s.step a).inFlight holder).get id = some r' ∧
      r'.epoch = r.epoch ∧ (r'.attested = r.attested ∨ r'.attested = s.clock holder) := by
  cases a with
  | sweep b scan batch =>
    refine ⟨r, ?_, rfl, .inl rfl⟩
    show (s.setInFlight b _ holder).get id = _
    rw [setInFlight, if_neg fun mine => unswept scan batch (by rw [mine])]
    exact held
  | finish b t =>
    refine ⟨r, ?_, rfl, .inl rfl⟩
    show ((if t ∈ s.running b then _ else _ : String → InFlightSet) holder).get id = _
    split
    next there =>
      unfold setInFlight
      split
      next mine =>
        subst mine
        rw [InFlightSet.get_remove, if_neg fun same => kept t there same.symm rfl]
        exact held
      next => exact held
    next => exact held
  | markLocal b t =>
    show ∃ r', ((if t ∈ s.claimed b then _ else _ : String → InFlightSet) holder).get id = _ ∧ _
    split
    · unfold setInFlight
      split
      next mine =>
        subst mine
        rw [InFlightSet.markLocal, InFlightSet.get_modify, held]
        refine ⟨_, rfl, ?_⟩
        split
        · exact ⟨rfl, .inr rfl⟩
        · exact ⟨rfl, .inl rfl⟩
      next => exact ⟨r, held, rfl, .inl rfl⟩
    · exact ⟨r, held, rfl, .inl rfl⟩
  | attest b tokens =>
    rw [attest_get, held]
    refine ⟨_, rfl, ?_⟩
    split
    next mine => exact ⟨rfl, .inr (by rw [mine.1])⟩
    next => exact ⟨rfl, .inl rfl⟩
  | _ => exact ⟨r, held, rfl, .inl rfl⟩

theorem clock_le (a : ClusterAction) : s.clock holder ≤ (s.step a).clock holder := by
  cases a with
  | tick id n =>
    show _ ≤ if holder = id then _ else _
    split
    · exact Nat.le_add_right _ _
    · exact Nat.le_refl _
  | _ => exact Nat.le_refl _

theorem sweep_inFlight (scan : Scan Uuid) (b : TakeBatch) : (s.step (.sweep holder scan b)).inFlight holder =
    (claims s.db scan { b with brokerId := holder }).foldl
      (fun set t => set.add (s.clock holder) t.id (shardOf t.resourceId) t.claimEpoch) (s.inFlight holder) :=
  if_pos rfl

/-- Only the end of a task of the row removes its record. -/
theorem Attended.step {since : Nat} (h : s.Attended holder t before since)
    (kept : ∀ t', t'.id = t.id → a ≠ .finish holder t') :
    (s.step a).Attended holder t before since := by
  obtain ⟨later, t', r, all, which, same, held, fresh, started⟩ := h
  obtain ⟨held, epoch⟩ := record?_eq.mp held
  have started' := Nat.le_trans started (clock_le a)
  by_cases swept : ∃ scan b, a = .sweep holder scan b
  · obtain ⟨scan, b, rfl⟩ := swept
    have claimed : (s.step (.sweep holder scan b)).claimed holder =
        (claims s.db scan { b with brokerId := holder } ++ later) ++ before := by
      rw [append_assoc, ← all]
      exact if_pos rfl
    rcases get_claimed (s.inFlight holder) (s.clock holder) t.id
        (claims s.db scan { b with brokerId := holder }) with old | ⟨t'', listed, hit, got⟩
    · refine ⟨_, t', r, claimed, which.imp_right (mem_append_right _), same,
        record?_eq.mpr ⟨?_, epoch⟩, fresh, started'⟩
      rw [sweep_inFlight, same, old, ← same]
      exact held
    · refine ⟨_, t'', ⟨shardOf t''.resourceId, t''.claimEpoch, s.clock holder, false⟩, claimed,
        .inr (mem_append_left _ listed), hit, record?_eq.mpr ⟨?_, rfl⟩, started, started'⟩
      rw [sweep_inFlight, hit]
      exact got
  · have unswept (scan : Scan Uuid) (b : TakeBatch) : a ≠ .sweep holder scan b := fun hit => swept ⟨scan, b, hit⟩
    obtain ⟨r', held', epoch', attested⟩ :=
      record_stays held unswept fun t'' _ hit => kept t'' (hit.trans same)
    refine ⟨later, t', r', (step_unswept unswept).1.trans all, which, same,
      record?_eq.mpr ⟨held', epoch'.trans epoch⟩, ?_, started'⟩
    rcases attested with attested | attested
    · rw [attested]
      exact fresh
    · rw [attested]
      exact started

theorem Attended.run {since : Nat} {actions : List ClusterAction}
    (h : s.Attended holder t before since) (kept : ∀ t', t'.id = t.id → .finish holder t' ∉ actions) :
    (s.run actions).Attended holder t before since := by
  induction actions generalizing s with
  | nil => exact h
  | cons a rest ih =>
    refine ih (h.step fun t' same hit => ?_) fun t' same listed => kept t' same (.tail _ listed)
    exact kept t' same (hit ▸ mem_cons_self)

/-- Within the time a record counts as fresh, the heartbeat names it. -/
theorem heartbeats_of_record (held : s.record? holder t = some r)
    (fresh : s.clock holder ≤ r.attested + (s.inFlight holder).requireWithin) : s.Heartbeats holder t := by
  intro scan
  obtain ⟨held, epoch⟩ := record?_eq.mp held
  have covered : (s.inFlight holder).covers (s.clock holder) r = true := by
    simp [InFlightSet.covers, Nat.not_lt.mpr fresh]
  obtain ⟨tokens, range, listed, mem⟩ := InFlightSet.snapshot_mem held covered
  refine ⟨tokens, range, ?_, epoch ▸ mem⟩
  show Option.map _ _ = _
  rw [listed]
  rfl

/-! ## Every attestation -/

/-- **An attestation renews the record of the task exactly if the worker is connected to the
broker that holds the lease, and that broker has a record of it** (or it was renewed at that very
instant), and a record renewed is heartbeated until it counts as stale. -/
theorem attestation_refreshes (reached : s.Reached) (runs : s.Runs holder runner t token)
    (listed : token ∈ tokens) :
    let s' := s.step (.attest runner tokens)
    (s'.Renewed holder t ↔ ∃ r, s.record? holder t = some r ∧ (runner = holder ∨ r.attested = s.clock holder)) ∧
    (s'.Renewed holder t → ∀ actions : List ClusterAction, (∀ t', t'.id = t.id → .finish holder t' ∉ actions) →
      let now := s'.run actions
      now.clock holder ≤ s.clock holder + (now.inFlight holder).requireWithin →
        ∃ later t', now.claimed holder = later ++ s.claimed holder ∧ (t' = t ∨ t' ∈ later) ∧ t'.id = t.id ∧
          now.Heartbeats holder t') := by
  intro s'
  constructor
  · constructor
    · rintro ⟨r', held', attested⟩
      obtain ⟨held', epoch⟩ := record?_eq.mp held'
      rw [attest_get] at held'
      obtain ⟨r, held, rfl⟩ := map_eq_some_iff.mp held'
      by_cases mine : holder = runner ∧ t.id ∈ (s.brokers runner).workIDsForTokens tokens
      · rw [if_pos mine] at epoch
        exact ⟨r, record?_eq.mpr ⟨held, epoch⟩, .inl mine.1.symm⟩
      · rw [if_neg mine] at epoch attested
        exact ⟨r, record?_eq.mpr ⟨held, epoch⟩, .inr attested⟩
    · rintro ⟨r, held, how⟩
      obtain ⟨held, epoch⟩ := record?_eq.mp held
      have after := attest_get s holder runner tokens t.id
      rw [held, map_some] at after
      by_cases mine : holder = runner ∧ t.id ∈ (s.brokers runner).workIDsForTokens tokens
      · rw [if_pos mine] at after
        exact ⟨_, record?_eq.mpr ⟨after, epoch⟩, by rw [mine.1]; rfl⟩
      · rw [if_neg mine] at after
        refine ⟨r, record?_eq.mpr ⟨after, epoch⟩, ?_⟩
        rcases how with rfl | already
        · exact absurd ⟨rfl, runs.workId reached listed⟩ mine
        · exact already
  · rintro ⟨r, held, attested⟩ actions kept now soon
    have attended : s'.Attended holder t (s.claimed holder) (s.clock holder) :=
      ⟨[], t, r, rfl, .inl rfl, rfl, held, Nat.le_of_eq attested.symm, Nat.le_refl _⟩
    obtain ⟨later, t', r', all, which, same, held', fresh, -⟩ := attended.run kept
    refine ⟨later, t', all, which, same, heartbeats_of_record held' (Nat.le_trans soon ?_)⟩
    exact Nat.add_le_add_right fresh _

end Attested

/-! ## Two claims of one row -/

def latest (s : Cluster) (id : String) (row : Uuid) : Option WorkTask := (s.claimed id).find? (·.id = row)

/-- While the goroutine of the latest claim of a row runs, the row has the record of that claim. -/
def Recorded (s : Cluster) : Prop :=
  ∀ id row, ∀ t ∈ s.latest id row, t ∈ s.running id → (s.record? id t).isSome = true

/-- A goroutine that ends leaves none of the latest claim of its row running. -/
def EndsLast (s : Cluster) : ClusterAction → Prop
  | .finish id t => t ∈ s.running id → ∀ t' ∈ s.latest id t.id, t' ∉ (s.running id).erase t
  | _ => True

section Claims

variable [Postgres] {s : Cluster}

theorem claims_nodup (db : Db) (scan : Scan Uuid) (b : TakeBatch) : ((claims db scan b).map (·.id)).Nodup := by
  rw [claims, List.map_map, List.map_map]
  exact Table.nodup_pick workQueue_primary db.workQueue

theorem get_claims {now : Nat} {t : WorkTask} {tasks : List WorkTask} (once : (tasks.map (·.id)).Nodup)
    (listed : t ∈ tasks) (set : InFlightSet) :
    (tasks.foldl (fun set t => set.add now t.id (shardOf t.resourceId) t.claimEpoch) set).get t.id =
      some ⟨shardOf t.resourceId, t.claimEpoch, now, false⟩ := by
  induction tasks generalizing set with
  | nil => cases listed
  | cons x rest ih =>
    rw [map_cons, nodup_cons] at once
    rcases mem_cons.mp listed with rfl | later
    · rcases get_claimed (set.add now t.id (shardOf t.resourceId) t.claimEpoch) now t.id rest with
        same | ⟨t', listed, hit, -⟩
      · rw [foldl_cons, same, InFlightSet.get_add, if_pos rfl]
      · exact absurd (mem_map.mpr ⟨t', listed, hit⟩) once.1
    · exact ih once.2 later _

theorem Recorded.sweep {id : String} (h : s.Recorded) (scan : Scan Uuid) (b : TakeBatch) {row : Uuid}
    {t : WorkTask} (latest : (s.step (.sweep id scan b)).latest id row = some t)
    (running : t ∈ (s.step (.sweep id scan b)).running id) :
    ((s.step (.sweep id scan b)).record? id t).isSome = true := by
  have claimed : (s.step (.sweep id scan b)).claimed id =
      claims s.db scan { b with brokerId := id } ++ s.claimed id := if_pos rfl
  have hit : t.id = row := by simpa using find?_some latest
  rw [Cluster.latest, claimed, find?_append] at latest
  have once := claims_nodup s.db scan { b with brokerId := id }
  cases found : (claims s.db scan { b with brokerId := id }).find? (·.id = row) with
  | some new =>
    rw [found] at latest
    obtain rfl := some.inj latest
    refine isSome_iff_exists.mpr ⟨⟨shardOf new.resourceId, new.claimEpoch, s.clock id, false⟩,
      record?_eq.mpr ⟨?_, rfl⟩⟩
    rw [sweep_inFlight]
    exact get_claims once (mem_of_find?_eq_some found) _
  | none =>
    rw [found] at latest
    have unclaimed := find?_eq_none.mp found
    have old : t ∈ s.running id := by
      simp only [step, if_true] at running
      rcases mem_append.mp running with new | old
      · exact absurd (decide_eq_true hit) (unclaimed t new)
      · exact old
    obtain ⟨r, held⟩ := isSome_iff_exists.mp (h id row t latest old)
    obtain ⟨held, epoch⟩ := record?_eq.mp held
    refine isSome_iff_exists.mpr ⟨r, record?_eq.mpr ⟨?_, epoch⟩⟩
    rw [sweep_inFlight]
    rcases get_claimed (s.inFlight id) (s.clock id) t.id (claims s.db scan { b with brokerId := id }) with
      same | ⟨t', new, same, -⟩
    · rw [same]
      exact held
    · exact absurd (decide_eq_true (same.trans hit)) (unclaimed t' new)

/-- **Step.** -/
theorem Recorded.step_iff (h : s.Recorded) (a : ClusterAction) : (s.step a).Recorded ↔ s.EndsLast a := by
  constructor
  · intro after
    cases a with
    | finish id t =>
      intro running t' latest still
      have hit : t'.id = t.id := by simpa using find?_some latest
      have recorded := after id t.id t' latest (by simpa only [step, if_true] using still)
      obtain ⟨r, held⟩ := isSome_iff_exists.mp recorded
      have held : ((if t ∈ s.running id then _ else _ : String → InFlightSet) id).get t'.id = _ :=
        (record?_eq.mp held).1
      rw [if_pos running, setInFlight, if_pos rfl, InFlightSet.get_remove, if_pos hit] at held
      cases held
    | _ => trivial
  · intro ok id row t latest running
    by_cases swept : ∃ scan b, a = .sweep id scan b
    · obtain ⟨scan, b, rfl⟩ := swept
      exact h.sweep scan b latest running
    · have unswept (scan : Scan Uuid) (b : TakeBatch) : a ≠ .sweep id scan b := fun hit => swept ⟨scan, b, hit⟩
      obtain ⟨claimed, old⟩ := step_unswept unswept
      have latest : s.latest id row = some t := by rw [← latest, Cluster.latest, Cluster.latest, claimed]
      obtain ⟨r, held⟩ := isSome_iff_exists.mp (h id row t latest (old t running))
      obtain ⟨held, epoch⟩ := record?_eq.mp held
      obtain ⟨r', held', epoch', -⟩ := record_stays held unswept fun t' there same finishes => by
        subst finishes
        simp only [step, if_true] at running
        have hit : t.id = row := by simpa using find?_some latest
        exact ok there t (by rw [same, hit]; exact latest) running
      exact isSome_iff_exists.mpr ⟨r', record?_eq.mpr ⟨held', epoch'.trans epoch⟩⟩

/-- **The latest claim of a row has its record while it runs, exactly if no goroutine of an older claim
of the row ends meanwhile.** -/
theorem latest_claims_recorded (mesh : String → Bool) (actions : List ClusterAction) :
    Throughout step (fun s a => (s.step a).Recorded) (init mesh) actions ↔
      Throughout step EndsLast (init mesh) actions :=
  Throughout.iff_keeps (J := fun _ => True) (fun _ a _ h => h.step_iff a) (fun _ _ _ => trivial) trivial
    fun _ _ _ _ running => nomatch running

end Claims

/-- A claim goes stale and its row is reaped and claimed again; then the first goroutine ends. -/
theorem older_claim_removes_record : letI := counting
    let s := (Cluster.init fun _ => true).run [.store (applyRoot "job" "x"), sweepAll "a" "job",
      .store (.tick 60), .store (.reapStaleWork Scan.plain 30 10 ShardRange.full), sweepAll "a" "job"]
    ∃ old ∈ s.running "a", ∃ t ∈ s.running "a", s.latest "a" old.id = some t ∧
      t ∈ (s.step (.finish "a" old)).running "a" ∧ (s.step (.finish "a" old)).record? "a" t = none := by
  decide +kernel

/-! ## A task, on its own broker and on a peer -/

/-- Broker `a` claims a job and parks its stage. -/
def jobParked : List ClusterAction :=
  dispatching "a" [.store (applyRoot "job" "x"), sweepAll "a" "job"]

/-- A worker of its own runs it. -/
def jobSent : List ClusterAction :=
  jobParked ++ [.subscribe "a" [⟨"job", 1⟩] 1] ++ onBroker "a" ([.look 2, .enqueue 2] ++ sendsNext 3)

/-- A worker of broker `b` runs it. -/
def jobForwarded : List ClusterAction :=
  jobParked ++ [.join "a" "b", .join "b" "a", .subscribe "b" [⟨"job", 1⟩] 1] ++
    onBroker "a" [.look 2, .push 2 3, .notePushed 2] ++ [.route "a" 3 (some 4)] ++ onBroker "b" (sendsNext 5)

/-- Its own worker attests after ten seconds: ten seconds later the lease is heartbeated. -/
theorem attestation_refreshes_sent : letI := counting
    let s := (Cluster.init fun _ => true).run (jobSent ++ [.tick "a" 10000000000])
    let s' := s.step (.attest "a" [2])
    ∃ t ∈ s.claimed "a", s'.Renewed "a" t ∧
      ∃ later t', (s'.run [.tick "a" 10000000000]).claimed "a" = later ++ s.claimed "a" ∧ (t' = t ∨ t' ∈ later) ∧
        t'.id = t.id ∧ (s'.run [.tick "a" 10000000000]).Heartbeats "a" t' := by
  intro s s'
  have reached : @Cluster.Reached counting s := ⟨_, _, rfl⟩
  have facts : letI := counting
      ∃ t ∈ s.claimed "a",
        (∃ ps ∈ (s.brokers "a").stages, ps.registered = true ∧ ps.foreign = false ∧ ps.lease = some t ∧
          ps.token = 2) ∧
        (∃ sub ∈ (s.brokers "a").subs, 2 ∈ sub.sent) ∧ (s.record? "a" t).isSome = true ∧
        (s'.run [.tick "a" 10000000000]).clock "a" ≤
          s.clock "a" + ((s'.run [.tick "a" 10000000000]).inFlight "a").requireWithin := by
    decide +kernel
  obtain ⟨t, claimed, parked, sent, some_, soon⟩ := facts
  obtain ⟨ps, here, registered, own, lease, hit⟩ := parked
  obtain ⟨r, held⟩ := isSome_iff_exists.mp some_
  have runs : s.Runs "a" "a" t 2 :=
    ⟨claimed, ⟨ps, here, registered, own, lease, hit⟩, ⟨ps, here, registered, hit⟩, sent⟩
  obtain ⟨renewed, later⟩ :=
    @attestation_refreshes counting s "a" "a" t 2 [2] reached runs (mem_singleton_self _)
  have now := renewed.mpr ⟨r, held, .inl rfl⟩
  exact ⟨t, claimed, now, later now _ (fun _ _ listed => by simp at listed) soon⟩

/-- A worker of the peer attests after ten seconds and after sixteen: nothing is renewed, and the
next heartbeat is of nothing. -/
theorem forwarded_task_lapses : letI := counting
    let s := (Cluster.init fun _ => true).run
      (jobForwarded ++ [.tick "a" 10000000000, .attest "b" [2], .tick "a" 6000000000])
    let s' := s.step (.attest "b" [2])
    ∃ t ∈ s.claimed "a", s.Runs "a" "b" t 2 ∧ ¬ s'.Renewed "a" t ∧
      (s.record? "a" t).isSome = true ∧ (s'.inFlight "a").snapshot (s'.clock "a") = none := by
  intro s s'
  have facts : letI := counting
      ∃ t ∈ s.claimed "a",
        (∃ ps ∈ (s.brokers "a").stages, ps.registered = true ∧ ps.foreign = false ∧ ps.lease = some t ∧
          ps.token = 2) ∧
        (∃ ps ∈ (s.brokers "b").stages, ps.registered = true ∧ ps.token = 2) ∧
        (∃ sub ∈ (s.brokers "b").subs, 2 ∈ sub.sent) ∧
        (∃ r ∈ s'.record? "a" t, r.attested ≠ s'.clock "a") ∧
        (s.record? "a" t).isSome = true ∧ (s'.inFlight "a").snapshot (s'.clock "a") = none := by
    decide +kernel
  obtain ⟨t, claimed, parked, inFlight, sent, ⟨r, held, old⟩, some_, none_⟩ := facts
  refine ⟨t, claimed, ⟨claimed, parked, inFlight, sent⟩, ?_, some_, none_⟩
  rintro ⟨r', held', now⟩
  obtain rfl := some.inj (held.symm.trans held')
  exact old now

end Cluster

end Converge.Kernel
