/-
# Guarantees.DeadLetter -- what can still move a dead-lettered row

A terminal failure for the current generation is to end the attempts at it: only a new
generation starts them again.  `schedule_eligible`, and with it the retry scan and every
deferred recheck, honours this.  Three paths do not look at the failure columns:

* the trigger re-pends the root of a descendant that turns unhealthy or newly fails, and a
  settled root of a descendant that becomes synced;
* a resync queues a settled row;
* a drained result overwrites the columns, whatever they were when it was produced.

`dead_letter_rests`: these are the only ones.  As long as no drain pops a result that
writes the failure of the row, or one of a descendant that stirs it, and no resync takes
it, no reconcile of it is queued and its failure stays terminal.  `dead_letter_revived` is
a run of each kind.
-/
import Converge.Guarantees.FailureCount
import Converge.Kernel.Wakes

namespace Converge.Kernel

open Converge.Theory List Option

set_option autoImplicit false
set_option linter.unusedSectionVars false

section DeadLetter

variable [Postgres] {db db' : Db} {id : Uuid} {g : Nat} {r : Resource}

/-! ## The property and the condition -/

/-- Every reconcile of `id` queued in `db'` was queued in `db`, at that generation. -/
def QueuesNone (id : Uuid) (db db' : Db) : Prop :=
  ∀ q' ∈ db'.workQueue.rows, q'.resourceId = id → q'.taskType = .reconcile →
    ∃ q ∈ db.workQueue.rows, q.id = q'.id ∧ q.generation = q'.generation
deriving Decidable

/-- The step leaves the row of `id`, if it leaves it at all, at generation `g`. -/
def KeepsGeneration (id : Uuid) (g : Nat) (db : Db) (a : Action) : Prop :=
  ∀ r ∈ (step db a).resources.rows, r.id = id → r.generation = g
deriving Decidable

/-- The step queues no reconcile of `id` and its failure is still terminal. -/
def Rests (id : Uuid) (db : Db) (a : Action) : Prop :=
  (∀ r ∈ (step db a).resources.rows, r.id = id → r.failureTerminal = true) ∧ QueuesNone id db (step db a)
deriving Decidable

def resyncPicked (db : Db) (kind : String) (resyncSeconds maxRows : Nat) (shards : List Nat) : List Resource :=
  Scan.plain.pick (·.id) (fun r : Resource => (r.lastReconciledAt.elim 0 (· + 1), r.id))
    maxRows (db.resources.rows.filter (resyncDue db kind resyncSeconds shards))

/-- The result leaves the failure of `r` terminal: it is no success that advances, and if it
is a failure, then of the same generation, and one that is terminal or reaches the cap. -/
def KeepsFailure (db : Db) (r : Resource) (o : OutboxRow) : Prop :=
  (o.succeeded && o.advanceSyncedGen) = false ∧ (o.failed = true → o.observedGeneration = r.generation ∧
    (o.terminal = true ∨ 0 < attemptCap db r ∧ attemptCap db r ≤ countedAttempts o r))
deriving Decidable

/-- The result of `d` stirs its root `r`: `d` newly fails, or turns unhealthy, or becomes
synced while the root is. -/
def Stirs (r d : Resource) (o : OutboxRow) : Prop :=
  (o.failed = true ∧ o.observedGeneration = d.generation ∧ d.failureGen ≠ d.generation) ∨
    (o.succeeded = true ∧ o.healthOk = some false ∧ d.healthOk = true) ∨
    ((o.succeeded && o.advanceSyncedGen) = true ∧ o.observedGeneration = d.generation ∧
      d.syncedGen < d.generation ∧ r.generation ≤ r.syncedGen)
deriving Decidable

/-- The results that a drain pops keep the failure of the row of `id` and, unless it is
frozen or marked, stir it by none of its descendants; a resync does not take the row. -/
def LeavesDead (id : Uuid) (db : Db) : Action → Prop
  | .drainOutboxBatch scan _ _ n range =>
    ∀ r ∈ db.resources.rows, r.id = id → ∀ o ∈ popped db scan n range, o.taskType = .reconcile →
      (o.resourceId = id → KeepsFailure db r o) ∧
        (r.active = true → ∀ d ∈ db.resources.rows, d.rootId = some id → o.resourceId = d.id → ¬ Stirs r d o)
  | .requeueForResync kind secs n shards _ => id ∉ (resyncPicked db kind secs n shards).map (·.id)
  | _ => True

instance (id : Uuid) (db : Db) (a : Action) : Decidable (LeavesDead id db a) := by
  induction a using Action.casesOn <;> dsimp only [LeavesDead] <;> infer_instance

/-- The row is still dead-lettered, and no reconcile of it is queued. -/
def StaysDead (id : Uuid) (db : Db) (a : Action) : Prop :=
  (∀ r ∈ (step db a).resources.rows, r.id = id → r.deadLettered = true) ∧ QueuesNone id db (step db a)

/-! ## Steps that prompt nothing -/

/-- The row of `id`, if it is still there, is dead-lettered or past generation `g`. -/
structure Dead (id : Uuid) (g : Nat) (db : Db) : Prop where
  drawn : db.Drawn id
  rows : ∀ r ∈ db.resources, r.id = id → g ≤ r.generation ∧ (r.generation = g → r.deadLettered = true)

theorem eligible_alive (h : eligible db r = true) : r.deadLettered = false := by
  simp only [eligible, Bool.and_eq_true, Bool.not_eq_true'] at h
  exact h.1.1.2

theorem Dead.lt_of_eligible (dead : Dead id g db) (here : r ∈ db.resources)
    (same : r.id = id) (ready : eligible db r = true) : g < r.generation := by
  obtain ⟨le, at_⟩ := dead.rows r here same
  refine Nat.lt_of_le_of_ne le fun eq => ?_
  rw [eligible_alive ready] at at_
  cases at_ eq.symm

theorem Effects.dead (run : Effects Label.Unprompted db db') (dead : Dead id g db) : Dead id g db' := by
  refine ⟨dead.drawn.mono run.drawn_le, fun r' after same => ?_⟩
  obtain ⟨r, here, sameId, kept⟩ :=
    run.tracks (respects_unreported fun _ h => h) after (same ▸ dead.drawn)
  obtain ⟨le, at_⟩ := dead.rows r here (sameId.trans same)
  have grows := kept.generation
  refine ⟨le.trans grows, fun eq => ?_⟩
  have still := at_ (Nat.le_antisymm (eq ▸ grows) le)
  unfold Resource.deadLettered at still ⊢
  rw [kept.failureTerminal, kept.failureGen]
  rwa [Nat.le_antisymm (eq ▸ grows) le, ← eq] at still

theorem Effects.queues_none (run : Effects Label.Unprompted db db') (dead : Dead id g db) {q' : WorkQueueRow}
    (after : q' ∈ db'.workQueue) (same : q'.resourceId = id) (type : q'.taskType = .reconcile) :
    (∃ q ∈ db.workQueue, q.job = q'.job ∧ q.generation = q'.generation) ∨ g < q'.generation := by
  induction run generalizing q' with
  | refl => exact .inl ⟨q', after, rfl, rfl⟩
  | tail before last ih =>
    obtain ⟨l, ok, effect⟩ := last
    have dead' := Effects.dead before dead
    rcases effect.queue_current after with ⟨cause, rfl, new⟩ | ⟨r, here, ready, of_, generation⟩ |
      ⟨q, here, job, generation⟩
    · -- the causes left are an eligible row and tasks of other types
      obtain ⟨r, here, snap, takes⟩ := new.snapshot
      cases cause with
      | scheduled =>
        right
        rw [snap.generation]
        exact dead'.lt_of_eligible here (snap.resourceId.symm.trans same) takes
      | rolled u | resynced => exact ok.elim
      | operation | teardown => exact absurd (new.taskType.symm.trans type) nofun
    · right
      rw [generation]
      exact dead'.lt_of_eligible here (of_.symm.trans same) ready
    · obtain ⟨-, resource, type'⟩ := queue_key job
      rcases ih here (resource.trans same) (type'.trans type) with ⟨q₀, here₀, job₀, gen₀⟩ | later
      · exact .inl ⟨q₀, here₀, job₀.trans job, gen₀.trans generation⟩
      · exact .inr (generation ▸ later)

theorem not_ahead (reachable : Reachable db') (kept : ∀ r ∈ db'.resources.rows, r.id = id → r.generation = g)
    {q : WorkQueueRow} (after : q ∈ db'.workQueue) (same : q.resourceId = id) : ¬ g < q.generation := by
  intro ahead
  obtain ⟨r, here, sameId⟩ := reachable.queueStored q after
  have behind := reachable.versioned.queue_behind after here sameId
  rw [kept r here (sameId.trans same)] at behind
  omega

theorem Dead.unprompted (reachable : Reachable db) (dead : Dead id g db) {a : Action}
    (unprompted : a.Unprompted) (kept : KeepsGeneration id g db a) : StaysDead id db a := by
  have run := step_unprompted reachable.versioned unprompted
  constructor
  · intro r here same
    exact ((run.dead dead).rows r here same).2 (kept r here same)
  · intro q' after same type
    have ahead := not_ahead (reachable.step a) kept after same
    obtain ⟨q, here, job, generation⟩ := (run.queues_none dead after same type).resolve_right ahead
    exact ⟨q, here, (queue_key job).1, generation⟩

/-! ## A resync -/

theorem requeueForResync_eq (db : Db) (kind : String) (secs n : Nat) (shards : List Nat) (recompose : Bool) :
    ∃ stamped, Effects Label.Unprompted db stamped ∧ requeueForResync db kind secs n shards recompose =
        (byId (resyncPicked db kind secs n shards)).foldl (enqueueNew .reconcile) stamped := by
  refine ⟨_, Steps.mono (fun _ => Label.Calm.unprompted) (update_effects (k := .quiet) trivial ?_), rfl⟩
  intro r _ _
  constructor <;> first | rfl | exact fun h => h | (constructor <;> rfl) | skip
  cases recompose
  · exact Or.inl rfl
  · exact Or.inr rfl

theorem Dead.resync (reachable : Reachable db) (dead : Dead id g db) {kind : String}
    {secs n : Nat} {shards : List Nat} {recompose : Bool}
    (kept : KeepsGeneration id g db (.requeueForResync kind secs n shards recompose))
    (untaken : id ∉ (resyncPicked db kind secs n shards).map (·.id)) :
    StaysDead id db (.requeueForResync kind secs n shards recompose) := by
  have next := reachable.step (.requeueForResync kind secs n shards recompose)
  obtain ⟨stamped, run, eq⟩ := requeueForResync_eq db kind secs n shards recompose
  have stepEq : step db (.requeueForResync kind secs n shards recompose) =
      (byId (resyncPicked db kind secs n shards)).foldl (enqueueNew .reconcile) stamped := eq
  have only := enqueueAll_only .reconcile (byId (resyncPicked db kind secs n shards)) stamped
  constructor
  · intro r here same
    have stored : r ∈ stamped.resources := by
      rw [stepEq, only.resources] at here
      exact here
    exact ((run.dead dead).rows r stored same).2 (kept r here same)
  · intro q' after same type
    have ahead := not_ahead next kept after same
    rw [stepEq] at after
    rcases mem_enqueueAll after with old | ⟨r, listed, -, of_, -⟩
    · obtain ⟨q, here, job, generation⟩ := (run.queues_none dead old same type).resolve_right ahead
      exact ⟨q, here, (queue_key job).1, generation⟩
    · refine absurd (mem_map.mpr ⟨r, mem_byId.mp listed, ?_⟩) untaken
      exact of_.symm.trans same

/-! ## A drain -/

variable {mid : Db} {results : List OutboxRow} {m : Resource} {o : OutboxRow}

/-- A row as the results leave it. -/
def applied (mid : Db) (results : List OutboxRow) (r : Resource) : Resource :=
  (resultFor results r).elim r (applyResult mid · r)

/-- The rows the results change, as their UPDATE finds and leaves them. -/
def reported (mid : Db) (results : List OutboxRow) : List Updated :=
  (mid.resources.rows.filter fun d => (resultFor results d).isSome).map fun d =>
    ⟨d, applied mid results d⟩

theorem applied_place (mid : Db) (results : List OutboxRow) (r : Resource) :
    (applied mid results r).id = r.id ∧ (applied mid results r).generation = r.generation := by
  unfold applied
  cases resultFor results r <;> exact ⟨rfl, rfl⟩

theorem applied_key (mid : Db) (results : List OutboxRow) (r : Resource) :
    Keyed.key ((resultFor results r).elim r (applyResult mid · r)) = Keyed.key r := by
  cases resultFor results r <;> rfl

/-- The table as the UPDATE of a drain leaves it, before its trigger. -/
def appliedRows (mid : Db) (results : List OutboxRow) : Db :=
  { mid with
    resources := mid.resources.updateWhere (fun r => (resultFor results r).isSome)
      (fun r => (resultFor results r).elim r (applyResult mid · r))
      (applied_key mid results) }

theorem applyResults_eq :
    applyResults mid results = cascadeOnReadyChange (appliedRows mid results) (reported mid results) :=
  rfl

theorem mem_appliedRows {r' : Resource} : r' ∈ (appliedRows mid results).resources ↔
      ∃ r ∈ mid.resources, applied mid results r = r' := by
  simp only [appliedRows, Table.mem_updateWhere]
  refine exists_congr fun r => and_congr_right fun _ => ?_
  unfold applied
  cases resultFor results r <;> rfl

/-- Results that keep the failure of a dead-lettered row leave it dead-lettered, and do not
sync it. -/
theorem KeepsFailure.applied (before : BeforeResults db mid r m) (same : r.generation = m.generation)
    (lettered : r.deadLettered = true)
    (keeps : ∀ o ∈ results, o.taskType = .reconcile → o.resourceId = m.id → KeepsFailure db r o) :
    (Kernel.applied mid results m).deadLettered = true ∧
      (Kernel.applied mid results m).syncedGen = r.syncedGen := by
  have still : m.deadLettered = true := by
    rw [← lettered, Resource.deadLettered, Resource.deadLettered, before.failures.failureTerminal,
      before.failures.failureGen, same]
  unfold Kernel.applied
  cases found : resultFor results m with
  | none => exact ⟨still, before.kept.syncedGen⟩
  | some o =>
    obtain ⟨listed, type, of_⟩ := resultFor_listed found
    obtain ⟨partial_, again⟩ := keeps o listed type of_
    have stuck := Bool.and_eq_false_iff.mp partial_
    have counted : countedAttempts o m = countedAttempts o r := by
      rw [countedAttempts, countedAttempts, before.failures.failureGen, before.failures.failureAttempts]
    refine ⟨?_, ?_⟩
    · by_cases failed : o.failed = true
      · obtain ⟨generation, final⟩ := again failed
        rw [← before.cap, ← counted] at final
        cases terminal : o.terminal <;> simp [terminal] at final <;>
          simp [Resource.deadLettered, applyResult, failed, terminal, generation, same, final]
      · rcases stuck with stuck | stuck <;>
          simpa [Resource.deadLettered, applyResult, failed, stuck] using still
    · rcases stuck with stuck | stuck <;> simpa [applyResult, stuck] using before.kept.syncedGen

/-- If the trigger turns to the row, a descendant's result stirs it. -/
theorem Stirs.of_rouses (reachable : Reachable db) (popped_ : ∀ o ∈ results, o ∈ db.workOutbox)
    (rows : ∀ x ∈ mid.resources, ∃ d ∈ db.resources, BeforeResults db mid d x)
    (before : BeforeResults db mid r m) (same : r.generation = m.generation)
    (synced : (applied mid results m).syncedGen = r.syncedGen)
    (roused : Rouses (reported mid results) (applied mid results m)) :
    r.active = true ∧ ∃ d ∈ db.resources, d.rootId = some r.id ∧
      ∃ o ∈ results, o.taskType = .reconcile ∧ o.resourceId = d.id ∧ Stirs r d o := by
  obtain ⟨unmarked, unfrozen, u, one, rooted, turned⟩ := roused
  obtain ⟨x, picked, rfl⟩ := mem_map.mp one
  obtain ⟨there, some_⟩ := mem_filter.mp picked
  obtain ⟨o, found⟩ := isSome_iff_exists.mp some_
  obtain ⟨listed, type, of_⟩ := resultFor_listed found
  obtain ⟨d, here, before'⟩ := rows x there
  have row : applied mid results x = applyResult mid o x := by
    rw [applied, found]
    rfl
  have active : (applied mid results m).active = true := by
    rw [Resource.active, unmarked, unfrozen]
    rfl
  have activeM : (applied mid results m).active = m.active := by
    unfold applied
    cases resultFor results m <;> rfl
  simp only [row] at rooted turned
  refine ⟨before.active (activeM ▸ active), d, here, ?_, o, listed, type, of_.trans before'.row.id, ?_⟩
  · rw [← before'.row.rootId, ← before.row.id, ← (applied_place mid results m).1]
    exact rooted
  -- the result is of no later generation than the row has
  have handed := reachable.versioned.granted.waiting o (popped_ o listed)
  have positive : 1 ≤ o.observedGeneration := reachable.task_positive handed
  have reached : o.observedGeneration ≤ d.generation :=
    (reachable.versioned.task_behind handed).2 d here (before'.row.id.symm.trans of_.symm)
  have grows := before'.kept.generation
  have syncedD := before'.kept.syncedGen
  have failureD := before'.failures.failureGen
  have healthD := before'.kept.healthOk
  rcases turned with demoted | ⟨upgraded, -, settled⟩
  · simp only [Updated.demoted, Updated.newlyFailed, applyResult, Bool.or_eq_true, Bool.and_eq_true,
      Bool.not_eq_true', decide_eq_true_eq] at demoted
    rcases demoted with ⟨unhealthy, healthy⟩ | ⟨fails, anew⟩
    · right; left
      split at unhealthy
      next succeeded =>
        refine ⟨succeeded, ?_, healthD ▸ healthy⟩
        cases health : o.healthOk with
        | none => simp [health, healthy] at unhealthy
        | some ok => simpa [health] using unhealthy
      next => simp [healthy] at unhealthy
    · left
      split at fails
      next failed => exact ⟨failed, by omega, by omega⟩
      next =>
        split at fails
        · omega
        · exact absurd fails anew
  · right; right
    simp only [Updated.upgraded, applyResult, Bool.and_eq_true, decide_eq_true_eq] at upgraded
    rw [(applied_place mid results m).2, ← same, synced] at settled
    obtain ⟨reaches, lagged⟩ := upgraded
    split at reaches
    next advances => exact ⟨by simpa using advances, by omega, by omega, settled⟩
    next => omega

/-- If the results leave the row dead-lettered and the trigger does not turn to it, no
reconcile of it is queued. -/
theorem Dead.applied (dead : Dead id g mid)
    (kept : ∀ r ∈ (applyResults mid results).resources, r.id = id → r.generation = g)
    (behind : ∀ q ∈ (applyResults mid results).workQueue, q.resourceId = id → ¬ g < q.generation)
    (each : ∀ r ∈ mid.resources, r.id = id → (applied mid results r).deadLettered = true ∧
      ¬ Rouses (reported mid results) (applied mid results r)) :
    (∀ r ∈ (applyResults mid results).resources, r.id = id → r.deadLettered = true) ∧
      ∀ q' ∈ (applyResults mid results).workQueue, q'.resourceId = id → q'.taskType = .reconcile →
        ∃ q ∈ mid.workQueue, q.job = q'.job ∧ q.generation = q'.generation := by
  have resources : (applyResults mid results).resources = (appliedRows mid results).resources :=
    (cascadeOnReadyChange_only _ _).resources
  have rows (r' : Resource) (after : r' ∈ (appliedRows mid results).resources) (same : r'.id = id) :
      r'.deadLettered = true := by
    obtain ⟨r, here, rfl⟩ := mem_appliedRows.mp after
    exact (each r here ((applied_place mid results r).1.symm.trans same)).1
  refine ⟨fun r after => rows r (resources ▸ after), fun q' after same type => ?_⟩
  have ahead := behind q' after same
  rcases mem_cascade after with ⟨ids, scheduled⟩ | ⟨-, r', stored, of_, roused⟩
  · have deadA : Dead id g (appliedRows mid results) := by
      refine ⟨dead.drawn, fun r' here sameId => ?_⟩
      exact ⟨(kept r' (resources ▸ here) sameId).ge, fun _ => rows r' here sameId⟩
    have run : Effects Label.Unprompted (appliedRows mid results)
        (scheduleEligible (appliedRows mid results) ids) :=
      (scheduleEligible_effects _ _).mono fun _ => Label.Calm.unprompted
    exact (run.queues_none deadA scheduled same type).resolve_right ahead
  · obtain ⟨r, here, rfl⟩ := mem_appliedRows.mp stored
    have sameId : r.id = id := (applied_place mid results r).1.symm.trans (of_.symm.trans same)
    exact absurd roused (each r here sameId).2

theorem Dead.idle (dead : Dead id g db) {a : Action} (same : step db a = db)
    (kept : KeepsGeneration id g db a) : StaysDead id db a := by
  refine ⟨fun r here sameId => ?_, fun q here _ _ => ?_⟩
  · have generation := kept r here sameId
    rw [same] at here
    exact (dead.rows r here sameId).2 generation
  · rw [same] at here
    exact ⟨q, here, rfl, rfl⟩

/-- **A drain** that meets the condition leaves the row dead-lettered and queues no reconcile
of it: what comes before its results prompts nothing, what comes after them concerns the
conditions alone. -/
theorem Dead.drain (reachable : Reachable db) (dead : Dead id g db) {scan rowScan : Scan Uuid}
    {order : Nat → Nat} {n : Nat} {range : ShardRange}
    (kept : KeepsGeneration id g db (.drainOutboxBatch scan rowScan order n range))
    (leaves : LeavesDead id db (.drainOutboxBatch scan rowScan order n range)) :
    StaysDead id db (.drainOutboxBatch scan rowScan order n range) := by
  have last := reachable.step (.drainOutboxBatch scan rowScan order n range)
  cases done : drainOutboxBatch db scan rowScan order n range with
  | none => exact dead.idle (by rw [step, done]; rfl) kept
  | some db' =>
    have stepEq : step db (.drainOutboxBatch scan rowScan order n range) = db' := by
      rw [step, done]
      rfl
    by_cases empty : popped db scan n range = []
    · exact dead.idle (stepEq.trans (drainOutboxBatch_none empty done).symm) kept
    rw [KeepsGeneration, stepEq] at kept
    rw [StaysDead, stepEq]
    rw [stepEq] at last
    obtain ⟨mid, patched, recorded⟩ := drainOutboxBatch_some empty done
    obtain ⟨s, -, rfl⟩ := map_eq_some_iff.mp recorded
    have run := drain_unprompted reachable.versioned patched
    have behind (q : WorkQueueRow) (after : q ∈ (applyResults mid (popped db scan n range)).workQueue)
        (same : q.resourceId = id) : ¬ g < q.generation := not_ahead last kept after same
    have rows (x : Resource) (there : x ∈ mid.resources) := before_results reachable.named patched there
    have each (m : Resource) (there : m ∈ mid.resources) (same : m.id = id) :
        (Kernel.applied mid (popped db scan n range) m).deadLettered = true ∧
          ¬ Rouses (reported mid (popped db scan n range)) (Kernel.applied mid (popped db scan n range) m) := by
      obtain ⟨r, here, before⟩ := rows m there
      have sameR : r.id = id := before.row.id.symm.trans same
      -- the generation is the one the run keeps, so the row is dead-lettered
      have generation : m.generation = g := by
        rw [← (applied_place mid (popped db scan n range) m).2]
        refine kept _ ?_ ((applied_place mid _ m).1.trans same)
        show _ ∈ (applyResults mid (popped db scan n range)).resources
        rw [applyResults_eq, (cascadeOnReadyChange_only _ _).resources]
        exact mem_appliedRows.mpr ⟨m, there, rfl⟩
      obtain ⟨reached, lettered⟩ := dead.rows r here sameR
      have sameGen : r.generation = m.generation := by
        have := before.kept.generation
        omega
      obtain ⟨stays, synced⟩ := KeepsFailure.applied before sameGen (lettered (sameGen.trans generation))
        fun o listed type of_ => (leaves r here sameR o listed type).1 (of_.trans same)
      refine ⟨stays, fun roused => ?_⟩
      obtain ⟨active, d, hereD, rooted, o, listed, type, of_, stirs⟩ :=
        Stirs.of_rouses reachable popped_waiting rows before sameGen synced roused
      exact (leaves r here sameR o listed type).2 active d hereD (sameR ▸ rooted) of_ stirs
    obtain ⟨rows, none⟩ := (run.dead dead).applied kept behind each
    refine ⟨rows, fun q' after same type => ?_⟩
    obtain ⟨p, there, job, generation⟩ := none q' after same type
    obtain ⟨sameId, resource, type'⟩ := queue_key job
    rcases run.queues_none dead there (resource.trans same) (type'.trans type) with
      ⟨q, here, job', generation'⟩ | ahead
    · exact ⟨q, here, (queue_key job').1.trans sameId, generation'.trans generation⟩
    · exact absurd (generation ▸ ahead) (behind q' after same)

/-- **One step.** -/
theorem Dead.step (reachable : Reachable db) (dead : Dead id g db) (a : Action)
    (kept : KeepsGeneration id g db a) (leaves : LeavesDead id db a) : StaysDead id db a := by
  cases a with
  | drainOutboxBatch scan rowScan order n range => exact dead.drain reachable kept leaves
  | requeueForResync kind secs n shards recompose => exact dead.resync reachable kept leaves
  | _ => exact dead.unprompted reachable trivial kept

/-- **What moves a dead-lettered row.**  Take a reachable state with a row that is terminally
failed for its generation, and any run in which that generation does not change.  If all steps
of the run meet the condition, none of them queues a reconcile of the row, and its failure
stays terminal. -/
theorem dead_letter_rests (reachable : Reachable db) (actions : List Action)
    (failed : ∃ r ∈ db.resources, r.id = id ∧ r.generation = g ∧ r.deadLettered = true)
    (unchanged : Along (KeepsGeneration id g) db actions) (leaves : Along (LeavesDead id) db actions) :
    Along (Rests id) db actions := by
  obtain ⟨r, here, rfl, rfl, lettered⟩ := failed
  have start : Dead r.id r.generation db := by
    refine ⟨reachable.named r here, fun s there same => ?_⟩
    obtain rfl := Table.eq_of_pk resource_primary there here same
    exact ⟨Nat.le_refl _, fun _ => lettered⟩
  refine Along.meets (fun s a there dead ok => ?_) reachable start (unchanged.and leaves)
  obtain ⟨kept, ok⟩ := ok
  obtain ⟨stays, none⟩ := Dead.step there dead a kept ok
  refine ⟨⟨dead.drawn.mono (step_effects s a).drawn_le, fun r' after same => ?_⟩, fun r' after same => ?_, none⟩
  · exact ⟨(kept r' after same).ge, fun _ => stays r' after same⟩
  · have still := stays r' after same
    rw [Resource.deadLettered, Bool.and_eq_true] at still
    exact still.1

end DeadLetter

/-- A root composes a machine and is rejected; then the machine fails. -/
def rootThenChild : Script × Script :=
  ([fun _ => [applyRoot "app" "a", claimAll "b" "app" .reconcile],
      composes "app" noGrace leafFinalizer ⟨[child "vm" "v"], [], []⟩, returns "app" rejected,
      fun _ => drainRechecks ++ [claimAll "b" "vm" .reconcile]],
    [returns "vm" timeout])

/-- The machine succeeds instead, and the scans of the reaper come by. -/
def childSettles : Script :=
  [returns "vm" success, fun _ => [.tick 100, .requeueFailedAndPending 10 100 [0],
    .requeueForResync "app" 10 100 [0] true, .requeueForResync "vm" 10 100 [0] false] ++ drainRechecks]

/-- The root lags, so neither the success of the machine nor a resync stirs it: it rests. -/
theorem dead_letter_rests_root : letI := counting
    let db := run Db.empty (rootThenChild.1.play Db.empty)
    let actions := childSettles.play db
    Along (LeavesDead 0) db actions ∧ Along (Rests 0) db actions ∧
      ∃ d ∈ (run db actions).resources.rows, d.rootId = some 0 ∧ d.syncedGen = d.generation := by
  intro db actions
  have facts : letI := counting
      (∃ r ∈ db.resources.rows, r.id = 0 ∧ r.generation = 1 ∧ r.deadLettered = true) ∧
        Along (KeepsGeneration 0 1) db actions ∧ Along (LeavesDead 0) db actions ∧
        ∃ d ∈ (run db actions).resources.rows, d.rootId = some 0 ∧ d.syncedGen = d.generation := by
    decide +kernel
  have reachable : @Reachable counting db := ⟨_, rfl⟩
  obtain ⟨failed, unchanged, leaves, settled⟩ := facts
  exact ⟨leaves, @dead_letter_rests counting db 0 1 reachable actions failed unchanged leaves, settled⟩

/-- A synced root is rejected when a resync looks at it again; then comes the next resync. -/
def resyncedTwice : Script × Script :=
  ([fun _ => [applyRoot "app" "a", claimAll "b" "app" .reconcile], returns "app" success,
      fun _ => [.tick 100, .requeueForResync "app" 10 100 [0] false, claimAll "b" "app" .reconcile],
      returns "app" rejected],
    [fun _ => [.tick 100, .requeueForResync "app" 10 100 [0] false]])

/-- The rejection waits while its queue row expires and the root is queued again; once it is
drained, the second task times out. -/
def secondTask : Script × Script :=
  ([fun _ => [applyRoot "app" "a", claimAll "b" "app" .reconcile],
      fun db => db.tasks.map fun t => .appendOutbox (rejected t),
      fun _ => [.workQueueReleaseBroker Scan.plain "b", .tick 1,
        .deleteUnclaimedWork Scan.plain 0 10 ShardRange.full, .requeueFailedAndPending 0 10 [0],
        claimAll "b" "app" .reconcile, drainAll]],
    [returns "app" timeout])

/-- In each of these runs the root is dead-lettered at its only generation; then a reconcile
of it is queued, or its failure is no longer terminal. -/
theorem dead_letter_revived : letI := counting
    [rootThenChild, resyncedTwice, secondTask].Forall fun scripts =>
      let db := run Db.empty (scripts.1.play Db.empty)
      let actions := scripts.2.play db
      (∃ r ∈ db.resources.rows, r.id = 0 ∧ r.generation = 1 ∧ r.deadLettered = true) ∧
        Along (KeepsGeneration 0 1) db actions ∧ ¬ Along (Rests 0) db actions := by
  decide +kernel

end Converge.Kernel
