/-
# Guarantees.SyntheticFailures -- the failures a broker makes up

A stream that drops and a peer that departs take the stages they ran with them.  The broker wakes
the goroutines of those stages with a failure of its own, which is recorded like any other.  It is
not to count: the release of the lease, or the reaper, gives the row a new epoch first, and the
append under the old one is refused.

The order is not kept.  `abandon` wakes the stage before `releaseAbandoned` has freed its lease,
a departure frees nothing, and a failure made up on a peer comes home over the route.  Recorded
under a live lease, it counts as an attempt of the resource and may be its last
(`lost_worker_dead_letters`).  In a run where every such failure is taken after the lease is lost,
none of a reconcile task ever reaches the outbox (`synthetic_failures_fenced`).
-/
import Converge.Guarantees.ClaimFence
import Converge.Kernel.Rows
import Converge.Kernel.Tokens

namespace Converge.Kernel

open Converge.Theory List Option

set_option autoImplicit false
set_option linter.unusedSectionVars false

/-! ## What judges a resource -/

/-- The columns of the failure axis. -/
def Resource.failure (r : Resource) : Nat × Nat × Bool := (r.failureGen, r.failureAttempts, r.failureTerminal)

/-- The results that a statement takes from the outbox. -/
def Action.takes [Postgres] (db : Db) : Action → List OutboxRow
  | .drainOutboxBatch scan _ _ n range => popped db scan n range
  | _ => []

/-- `o` is a reconcile result of the row. -/
def OutboxRow.judges (o : OutboxRow) (id : Uuid) : Prop := o.taskType = .reconcile ∧ o.resourceId = id
deriving Decidable

section Judged

variable [Postgres] {db : Db}

/-- The failure axis moves for a result. -/
def Judged (results : List OutboxRow) (r r' : Resource) : Prop :=
  r'.id = r.id ∧ (r'.failure = r.failure ∨ ∃ o ∈ results, o.judges r.id)

theorem judged_respects {allow : Label → Prop} {results : List OutboxRow}
    (only : ∀ rs, allow (.row (.result rs)) → rs = results) : Respects allow (Judged results) := by
  have quiet {a b : Resource} (q : Quiet a b) : Judged results a b := by
    refine ⟨q.id, .inl ?_⟩
    rw [Resource.failure, q.failureGen, q.failureAttempts, q.failureTerminal]
    rfl
  refine ⟨fun _ => ⟨rfl, .inl rfl⟩, ?_, quiet, ?_⟩
  · rintro a b c ⟨same, first⟩ ⟨same', second⟩
    refine ⟨same'.trans same, ?_⟩
    rcases second with second | judged
    · exact first.imp_left second.trans
    · exact .inr (same ▸ judged)
  · intro k db a b ok _ step
    cases k with
    | write =>
      have w : Written a b := step
      refine ⟨w.id, .inl ?_⟩
      rw [Resource.failure, w.failureGen, w.failureAttempts, w.failureTerminal]
      rfl
    | result rs =>
      obtain ⟨o, listed, result, rfl⟩ := step
      exact ⟨rfl, .inr ⟨o, only rs ok ▸ listed, result.taskType, result.resourceId⟩⟩
    | _ =>
      have same := step.sameAxes trivial
      refine ⟨step.same.id, .inl ?_⟩
      rw [Resource.failure, same.failureGen, same.failureAttempts, same.failureTerminal]
      rfl

/-- **Only a reconcile result moves the failure axis of a row.** -/
theorem step_judged (reachable : Reachable db) (a : Action) {r r' : Resource} (here : r ∈ db.resources)
    (after : r' ∈ (step db a).resources) (same : r'.id = r.id) : Judged (a.takes db) r r' := by
  have only : ∀ rs, a.allows db (.row (.result rs)) → rs = a.takes db := by
    intro rs ok
    have undrained : a.Undrained → rs = a.takes db := fun undrained => (undrained.allows ok).elim
    cases a with
    | drainOutboxBatch => exact ok
    | _ => exact undrained trivial
  obtain ⟨r₀, here₀, same₀, judged⟩ :=
    (step_effects db a).tracks (judged_respects only) after (same ▸ reachable.named r here)
  rw [Table.eq_of_pk resource_primary here₀ here (same₀.trans same)] at judged
  exact judged

end Judged

/-! ## Leases that are lost -/

namespace Cluster

/-- The queue has the row of a reconcile task at the epoch of its claim. -/
def leased (db : Db) (t : WorkTask) : Bool :=
  t.taskType = .reconcile && db.workQueue.rows.any fun q => q.id = t.id && q.claimEpoch = t.claimEpoch

/-- The goroutine of a stage takes a failure that a broker made up, from its channel or for a peer
that is gone, while the lease of its task is live. -/
def takesWhileLeased (s : Cluster) : ClusterAction → Bool
  | .broker id (.receive stage) => ((s.brokers id).stage? stage).any fun ps =>
    ps.waiter.parked && ps.resultCh.any (·.synthetic) && ps.lease.any (leased s.db)
  | .broker id (.peerDone stage) => ((s.brokers id).stage? stage).any fun ps =>
    (match ps.waiter with
      | .pushed peer => ((s.brokers id).peer? peer).any (·.gone)
      | _ => false) && ps.lease.any (leased s.db)
  | _ => false

/-- The results that a step takes from the outbox. -/
def takes [Postgres] (s : Cluster) : ClusterAction → List OutboxRow
  | .store a => a.takes s.db
  | _ => []

/-- A step that moves the failure axis of a resource takes a result of it from the outbox, and
none that a broker made up. -/
def NeverCounts [Postgres] (s : Cluster) (a : ClusterAction) : Prop :=
  ∀ r ∈ s.db.resources, ∀ r' ∈ (s.step a).db.resources, r'.id = r.id → r'.failure ≠ r.failure →
    (∃ o ∈ s.takes a, o.judges r.id) ∧ ∀ o ∈ s.takes a, o.judges r.id → o ∉ s.synthesized

section Lost

variable [Postgres] {s : Cluster} {a : ClusterAction} {t : WorkTask} {ps' : PendingStage} {id : String}

theorem superseded_of_not_leased {db : Db} (reconcile : t.taskType = .reconcile)
    (lost : leased db t = false) : Fence.Superseded (lease db t.id) t.token := by
  intro slot held epoch
  obtain ⟨q, here, same, rfl⟩ := of_lease_slot held
  have live : leased db t = true := by
    simp only [leased, reconcile, decide_true, Bool.true_and, List.any_eq_true]
    exact ⟨q, here, by simp [same, show q.claimEpoch = t.claimEpoch from epoch]⟩
  rw [lost] at live
  cases live

theorem step_db (s : Cluster) (a : ClusterAction) : (s.step a).db = s.db ∨ ∃ b, s.effect a = some b ∧
    (s.step a).db = Kernel.step s.db b := by
  show (s.effect a).elim s.db (Kernel.step s.db) = s.db ∨ _
  cases same : s.effect a with
  | none => exact .inl rfl
  | some b => exact .inr ⟨b, rfl, by show (s.effect a).elim _ _ = _; rw [same]; rfl⟩

theorem tasks_step (granted : t ∈ s.db.tasks) : t ∈ (s.step a).db.tasks := by
  rcases step_db s a with same | ⟨b, -, same⟩
  · rw [same]
    exact granted
  · rw [same]
    exact (step_effects s.db b).tasks_subset granted

theorem superseded_step (reached : s.Reached) (granted : t ∈ s.db.tasks)
    (ended : Fence.Superseded (lease s.db t.id) t.token) :
    Fence.Superseded (lease (s.step a).db t.id) t.token := by
  have good := reached.db.leases
  rcases step_db s a with same | ⟨b, -, same⟩
  · rw [same]
    exact ended
  · rw [same]
    exact Fence.superseded_stays ((step_effects s.db b).lease good t.id) (good t.id) (lease_claims granted) ended

/-! ## Stages, over a step -/

/-- The same task, with the result it had or none. -/
structure Descends (ps ps' : PendingStage) : Prop where
  lease : ps'.lease = ps.lease
  result : ps'.waiter.result = ps.waiter.result ∨ ps'.waiter.result = none

theorem Descends.trans {ps ps'' : PendingStage} (first : Descends ps ps') (second : Descends ps' ps'') :
    Descends ps ps'' where
  lease := second.lease.trans first.lease
  result := by
    rcases second.result with same | none
    · rw [same]
      exact first.result
    · exact .inr none

/-- Neither a result nor a claim comes with the move. -/
def calm : FanoutAction → Bool
  | .receive _ | .peerDone _ | .dispatch _ _ (some _) => false
  | _ => true

/-- Where a stage after a step comes from: a stage before it, which has its result still or has
lost it; one that moved alone; or a claim of its broker. -/
def ComesFrom (s : Cluster) (a : ClusterAction) (b : String) (ps' : PendingStage) : Prop :=
  (∃ ps ∈ (s.brokers b).stages, Descends ps ps') ∨
    (∃ ps ∈ (s.brokers b).stages, ∃ x, a = .broker b x ∧ ps' ∈ ((s.brokers b).step x).stages ∧
      Fanout.Follows x ps ps') ∨
    ps'.waiter.result = none ∧ ∀ t, ps'.lease = some t → t ∈ s.claimed b

theorem move_calm {brokers : String → Fanout} {b : String} {x : FanoutAction}
    (distinct : (brokers id).Distinct) (quiet : calm x = true)
    (after : ps' ∈ (move brokers (id, x) b).stages) :
    (∃ ps ∈ (brokers b).stages, Descends ps ps') ∨ ps'.waiter.result = none ∧ ps'.lease = none := by
  rcases move_back distinct after with ⟨ps, here, follows⟩ | ⟨-, made⟩
  · refine .inl ⟨ps, here, follows.lease, ?_⟩
    rcases follows.result with old | ⟨rfl, -⟩ | ⟨rfl, -⟩
    · exact old
    · cases quiet
    · cases quiet
  · refine .inr ⟨made.waits, ?_⟩
    rcases made.from_ with ⟨rfl, -⟩ | ⟨owner, -, -, none, -⟩
    · cases lease : ps'.lease with
      | none => rfl
      | some t =>
        rw [lease] at quiet
        cases quiet
    · exact none

theorem Reached.stage_back (reached : s.Reached) {b : String}
    (after : ps' ∈ ((s.step a).brokers b).stages) : s.ComesFrom a b ps' := by
  have tokens := reached.tokens
  have idle (here : ps' ∈ (s.brokers b).stages) : s.ComesFrom a b ps' := .inl ⟨ps', here, rfl, .inl rfl⟩
  have unleased (new : ps'.waiter.result = none ∧ ps'.lease = none) : s.ComesFrom a b ps' :=
    .inr (.inr ⟨new.1, fun t lease => nomatch new.2.symm.trans lease⟩)
  have quiet {id : String} {x : FanoutAction} (quiet : calm x = true)
      (after : ps' ∈ (move s.brokers (id, x) b).stages) : s.ComesFrom a b ps' := by
    rcases move_calm (tokens.distinct id) quiet after with old | new
    · exact .inl old
    · exact unleased new
  have after : ps' ∈ ((s.moves a).foldl move s.brokers b).stages := after
  cases a with
  | store | sweep | finish | markLocal | heartbeat | tick | attest => exact idle after
  | broker id x =>
    simp only [moves] at after
    split at after
    next alone =>
      by_cases same : b = id
      · subst same
        rcases move_back (tokens.distinct b) after with ⟨ps, here, follows⟩ | ⟨-, made⟩
        · rw [foldl_cons, foldl_nil, move_self] at after
          exact .inr (.inl ⟨ps, here, x, rfl, after, follows⟩)
        · rcases made.from_ with ⟨rfl, -⟩ | ⟨owner, rfl, -⟩ <;> cases alone
      · rw [foldl_cons, foldl_nil, move_other same] at after
        exact idle after
    next => exact idle after
  | dispatch id t =>
    simp only [moves] at after
    split at after
    next claimed =>
      rcases move_back (tokens.distinct id) after with ⟨ps, here, follows⟩ | ⟨same, made⟩
      · refine .inl ⟨ps, here, follows.lease, ?_⟩
        rcases follows.result with old | ⟨receive, -⟩ | ⟨done, -⟩
        · exact old
        · cases receive
        · cases done
      · refine .inr (.inr ⟨made.waits, fun t' lease => ?_⟩)
        rcases made.from_ with ⟨dispatch, -⟩ | ⟨owner, routed, -⟩
        · rw [lease] at dispatch
          injection dispatch with _ _ task
          rw [same, ← some.inj task]
          exact claimed
        · cases routed
    next => exact idle after
  | react id km | subscribe id kms maxInflight => exact quiet rfl after
  | record id stage m label | release id stream scan | routeComplete id peer token sc =>
    simp only [moves] at after
    split at after
    · exact quiet rfl after
    · exact idle after
  | join id memberId =>
    simp only [moves] at after
    split at after
    · exact idle after
    · exact quiet rfl after
  | route id via peer =>
    simp only [moves] at after
    split at after
    next p found =>
      split at after
      next frame rest queue =>
        split at after
        next q _ =>
          split at after
          · have sent : Tokens s.drawn (move s.brokers (id, .sendFrame via)) := tokens.sendFrame via
            have inbound : calm (handleInbound s.drawn q.ref frame) = true := by cases frame <;> rfl
            rcases move_calm (sent.distinct p.memberId) inbound after with ⟨ps, here, descends⟩ | new
            · rcases move_calm (tokens.distinct id) rfl here with ⟨ps₀, here₀, first⟩ | ⟨waits, none⟩
              · exact .inl ⟨ps₀, here₀, first.trans descends⟩
              · refine unleased ⟨?_, descends.lease.trans none⟩
                rcases descends.result with same | lost
                · exact same.trans waits
                · exact lost
            · exact unleased new
          · exact idle after
        next => exact quiet rfl after
      next => exact idle after
    next => exact idle after

/-! ## The invariant -/

/-- What holds while no goroutine takes such a failure under a live lease. -/
structure Fenced (s : Cluster) : Prop where
  claimed : ∀ id, ∀ t ∈ s.claimed id, t ∈ s.db.tasks
  granted : ∀ id, ∀ ps ∈ (s.brokers id).stages, ∀ t, ps.lease = some t → t ∈ s.db.tasks
  lost : ∀ id, ∀ ps ∈ (s.brokers id).stages, ∀ t c, ps.lease = some t → t.taskType = .reconcile →
    ps.waiter.result = some c → c.synthetic = true → Fence.Superseded (lease s.db t.id) t.token
  refused : ∀ o ∈ s.synthesized, o.taskType ≠ .reconcile

theorem Fenced.init (mesh : String → Bool) : Fenced (Cluster.init mesh) where
  claimed _ _ h := nomatch h
  granted _ _ h := nomatch h
  lost _ _ h := nomatch h
  refused _ h := nomatch h

/-- A failure of the broker's own that is taken is of a task whose lease is lost. -/
theorem Fenced.takes (h : Fenced s) (reached : s.Reached) {x : FanoutAction} {ps : PendingStage}
    (safe : s.takesWhileLeased (.broker id x) = false) (here : ps ∈ (s.brokers id).stages)
    (after : ps' ∈ ((s.brokers id).step x).stages) (follows : Fanout.Follows x ps ps')
    {c : Completion} (lease : ps.lease = some t) (reconcile : t.taskType = .reconcile)
    (result : ps'.waiter.result = some c) (synthetic : c.synthetic = true) :
    Fence.Superseded (Kernel.lease s.db t.id) t.token := by
  have distinct := reached.tokens.distinct id
  have found := distinct.stage? here
  -- a goroutine that does not move has its result already
  have stays (idle : (s.brokers id).step x = s.brokers id) :
      Fence.Superseded (Kernel.lease s.db t.id) t.token := by
    rw [idle] at after
    obtain rfl := distinct.eq found after follows.ref
    exact h.lost id ps' here t c lease reconcile result synthetic
  rcases follows.result with (same | none) | ⟨rfl, taken⟩ | ⟨rfl, taken⟩
  · exact h.lost id ps here t c lease reconcile (same ▸ result) synthetic
  · exact nomatch none.symm.trans result
  · rw [takesWhileLeased, found, any_some, ← taken, result, lease, any_some, synthetic] at safe
    cases parked : ps.waiter.parked with
    | true =>
      rw [parked] at safe
      exact superseded_of_not_leased reconcile safe
    | false =>
      refine stays ?_
      simp only [Fanout.step, Fanout.atStage, found, bind_some]
      cases at_ : ps.waiter <;> rw [at_] at parked <;> first | rfl | cases parked
  · rw [takesWhileLeased, found, any_some, lease] at safe
    by_cases gone : ∃ peer, ps.waiter = .pushed peer ∧ ((s.brokers id).peer? peer).any (·.gone) = true
    · obtain ⟨peer, pushed, gone⟩ := gone
      rw [pushed] at safe
      simp only [gone, Bool.true_and] at safe
      exact superseded_of_not_leased reconcile safe
    · refine stays ?_
      simp only [Fanout.step, Fanout.atStage, found, bind_some]
      split
      next peer pushed =>
        cases seen : (s.brokers id).peer? peer with
        | none => rfl
        | some p =>
          rw [bind_some, if_neg, getD_none]
          intro isGone
          exact gone ⟨peer, pushed, by rw [seen]; exact isGone⟩
      next => rfl

theorem failureRow_spec {stage : StageRef} {m : ManifestDoc} {label : String} {o : OutboxRow}
    {synthetic : Bool} (failed : s.failureRow id stage m label = some (o, synthetic)) :
    ∃ ps ∈ (s.brokers id).stages, ∃ t c, ps.lease = some t ∧ ps.waiter = .returned (some c) ∧ o.task = t ∧
      c.synthetic = synthetic := by
  obtain ⟨ps, found, failed⟩ := bind_eq_some_iff.mp failed
  refine ⟨ps, (Fanout.stage?_ref found).1, ?_⟩
  split at failed
  next t c lease returned =>
    split at failed <;> cases failed
    exact ⟨t, c, lease, returned, rfl, rfl⟩
  next => cases failed

theorem not_accepts {db : Db} {o : OutboxRow} (ended : Fence.Superseded (lease db o.task.id) o.task.token) :
    accepts db o = false := by
  have unmatched : db.workQueue.rows.any (tokenMatches o) = false := by
    rw [← Bool.not_eq_true]
    exact tokenMatches_superseded ended
  rw [accepts, unmatched, Bool.and_false, Bool.false_and]

/-- **Step.** -/
theorem Fenced.step (h : Fenced s) (reached : s.Reached) (safe : s.takesWhileLeased a = false) :
    Fenced (s.step a) := by
  have granted : ∀ id, ∀ ps' ∈ ((s.step a).brokers id).stages, ∀ t, ps'.lease = some t → t ∈ s.db.tasks := by
    intro id ps' after t lease
    rcases reached.stage_back after with ⟨ps, here, descends⟩ | ⟨ps, here, x, -, -, follows⟩ | ⟨-, claims⟩
    · exact h.granted id ps here t (descends.lease ▸ lease)
    · exact h.granted id ps here t (follows.lease ▸ lease)
    · exact h.claimed id t (claims t lease)
  refine ⟨?_, fun id ps' after t lease => tasks_step (granted id ps' after t lease), ?_, ?_⟩
  · intro id t claimed
    cases a with
    | sweep broker scan b =>
      have claimed : t ∈ if id = broker then _ else _ := claimed
      split at claimed
      · rcases mem_append.mp claimed with new | old
        · exact mem_append_left _ new
        · exact tasks_step (h.claimed id t old)
      · exact tasks_step (h.claimed id t claimed)
    | _ => exact tasks_step (h.claimed id t claimed)
  · intro id ps' after t c lease reconcile result synthetic
    refine superseded_step reached (granted id ps' after t lease) ?_
    rcases reached.stage_back after with ⟨ps, here, descends⟩ | ⟨ps, here, x, rfl, moved, follows⟩ | ⟨waits, -⟩
    · rcases descends.result with same | none
      · exact h.lost id ps here t c (descends.lease ▸ lease) reconcile (same ▸ result) synthetic
      · cases none.symm.trans result
    · exact h.takes reached safe here moved follows (follows.lease ▸ lease) reconcile result synthetic
    · cases waits.symm.trans result
  · intro o recorded reconcile
    cases a with
    | record id stage m label =>
      simp only [Cluster.step] at recorded
      split at recorded
      next row failed =>
        split at recorded
        next accepted =>
          rcases mem_cons.mp recorded with rfl | old
          · obtain ⟨ps, here, t, c, lease, returned, rfl, synthetic⟩ := failureRow_spec failed
            have result : ps.waiter.result = some c := by rw [returned]; rfl
            have refused := not_accepts (h.lost id ps here _ c lease reconcile result synthetic)
            cases refused.symm.trans accepted
          · exact h.refused o old reconcile
        next => exact h.refused o recorded reconcile
      next => exact h.refused o recorded reconcile
    | _ => exact h.refused o recorded reconcile

/-! ## Every run -/

theorem Fenced.neverCounts (h : Fenced s) (reached : s.Reached) (a : ClusterAction) : s.NeverCounts a := by
  intro r here r' after same moved
  have judged : Judged (s.takes a) r r' := by
    rcases step_db s a with idle | ⟨b, effect, run⟩
    · rw [idle] at after
      rw [Table.eq_of_pk resource_primary after here same]
      exact ⟨rfl, .inl rfl⟩
    · rw [run] at after
      have judged := step_judged reached.db b here after same
      cases a with
      | store | sweep =>
        obtain rfl := some.inj effect
        exact judged
      | heartbeat | release | record =>
        obtain ⟨_, -, rfl⟩ := map_eq_some_iff.mp effect
        exact judged
      | _ => cases effect
  rcases judged.2 with still | judge
  · exact absurd still moved
  · exact ⟨judge, fun o _ judges made => h.refused o made judges.1⟩

/-- **A failure that a broker makes up never counts**, in every run in which no goroutine takes one
while its lease is live. -/
theorem synthetic_failures_fenced (mesh : String → Bool) (actions : List ClusterAction)
    (safe : Throughout step (fun s a => s.takesWhileLeased a = false) (Cluster.init mesh) actions) :
    Throughout step (fun s a => s.NeverCounts a ∧ ∀ o ∈ (s.step a).synthesized, o.taskType ≠ .reconcile)
      (Cluster.init mesh) actions := by
  refine safe.keeps (I := fun s => s.Reached ∧ Fenced s) (fun s a ⟨reached, h⟩ safe => ?_)
    ⟨⟨mesh, [], rfl⟩, .init mesh⟩
  have next := h.step reached safe
  exact ⟨⟨reached.step a, next⟩, h.neverCounts reached a, next.refused⟩

end Lost

/-! ## A worker, a peer, and a worker of a peer -/

/-- Broker `a` claims a job of a kind whose first failure is the last, and parks its stage. -/
def strictJob : List ClusterAction :=
  dispatching "a" [.store (.seedKindConfig ⟨"job", 1, 0, 0, 0, false, 0, none, 1, false, 0⟩),
    .store (applyRoot "job" "x"), sweepAll "a" "job"]

/-- The stage returns and its failure is recorded. -/
def recordsFailure : List ClusterAction :=
  onBroker "a" [.leave 3] ++ [.record "a" 3 ⟨"job", 1, [], "", 0, 0, 0, false, 0, 1, false⟩ "reconcile"]

/-- A worker of `a` runs the job. -/
def strictSent : List ClusterAction :=
  strictJob ++ [.subscribe "a" [⟨"job", 1⟩] 1] ++ onBroker "a" ([.look 3, .enqueue 3] ++ sendsNext 4)

/-- Its stream drops and the stage is woken. -/
def streamDrops : List ClusterAction :=
  strictSent ++ onBroker "a" [.exit 4, .abandon 4, .send ⟨.teardown 4, 3, .synthesized reasonWorkerStreamDropped⟩]

/-- A worker of broker `b` runs it. -/
def strictForwarded : List ClusterAction :=
  strictJob ++ [.join "a" "b", .join "b" "a", .subscribe "b" [⟨"job", 1⟩] 1] ++
    onBroker "a" [.look 3, .push 3 4, .notePushed 3] ++ [.route "a" 4 (some 5)] ++ onBroker "b" (sendsNext 6)

/-- That worker's stream drops, and the failure that `b` makes up comes home. -/
def failureComesHome : List ClusterAction :=
  strictForwarded ++
    onBroker "b" [.exit 6, .abandon 6, .send ⟨.teardown 6, 10, .synthesized reasonWorkerStreamDropped⟩,
      .sendHome 10] ++
    [.route "b" 5 (some 4)] ++ onBroker "a" [.send ⟨.route 4, 3, .synthesized reasonWorkerStreamDropped⟩]

/-- The lease is released before the stage takes its failure: the failure is refused, and the job
is claimed again. -/
theorem synthetic_failures_fenced_released : letI := counting
    let actions := streamDrops ++ onBroker "a" [.collect 4] ++ [.release "a" 4 Scan.plain] ++
      onBroker "a" [.receive 3] ++ recordsFailure ++ [.store drainAll, sweepAll "a" "job"]
    Throughout step (fun s a => s.NeverCounts a ∧ ∀ o ∈ (s.step a).synthesized, o.taskType ≠ .reconcile)
        (Cluster.init fun _ => true) actions ∧
      (((Cluster.init fun _ => true).run actions).claimed "a").map (·.claimEpoch) = [4, 2] ∧
      ((Cluster.init fun _ => true).run actions).db.resources.rows.map (·.failure) = [(0, 0, false)] := by
  intro actions
  have facts : letI := counting
      Throughout step (fun s a => s.takesWhileLeased a = false) (Cluster.init fun _ => true) actions ∧
        (((Cluster.init fun _ => true).run actions).claimed "a").map (·.claimEpoch) = [4, 2] ∧
        ((Cluster.init fun _ => true).run actions).db.resources.rows.map (·.failure) = [(0, 0, false)] := by
    decide +kernel
  exact ⟨@synthetic_failures_fenced counting _ actions facts.1, facts.2⟩

/-- A stream drops, a peer departs, a stream of a peer drops: each time the failure made up is the
last of the job. -/
theorem lost_worker_dead_letters : letI := counting
    [streamDrops ++ onBroker "a" [.receive 3], strictForwarded ++ onBroker "a" [.cancelPeer 4, .peerDone 3],
      failureComesHome ++ onBroker "a" [.receive 3]].Forall fun lost =>
        let s := (Cluster.init fun _ => true).run (lost ++ recordsFailure)
        ¬ s.NeverCounts (.store drainAll) ∧
          (s.step (.store drainAll)).db.resources.rows.map (·.failure) = [(1, 1, true)] := by
  have counts {s : Cluster} : letI := counting
      (∃ r ∈ s.db.resources.rows, ∃ r' ∈ (s.step (.store drainAll)).db.resources.rows, r'.id = r.id ∧
        r'.failure ≠ r.failure ∧ ∃ o ∈ s.takes (.store drainAll), o.judges r.id ∧ o ∈ s.synthesized) →
      ¬ s.NeverCounts (.store drainAll) := by
    rintro ⟨r, here, r', after, same, moved, o, taken, judges, made⟩ never
    exact (never r here r' after same moved).2 o taken judges made
  refine ⟨⟨counts ?_, ?_⟩, ⟨counts ?_, ?_⟩, counts ?_, ?_⟩ <;> decide +kernel

end Cluster

end Converge.Kernel
