/-
# Guarantees.Operations -- operations and their results

An operation is accepted with its task, in one transaction.  What the drainer does with the
result of that task depends on the state of the record: only one that is running gets its
outcome.  No claim makes it running, so the result of an operation that nobody started is
drained and dropped with its queue row: the record is pending for ever, with no task behind
it.  The garbage collection does the same to an operation nobody claimed
(`operations_dropped`).

`operations_settle`: nothing else goes wrong.  An operation that is final is never written
again.  Every operation of which a result is drained has the outcome of the first one, and
every other has a task behind it, in every state of a run, exactly if its drains take no
result of a pending operation that they do not remove, and its garbage collection spares the
tasks of operations that are open.
-/
import Converge.Kernel.Jobs

namespace Converge.Kernel

open Converge.Theory List Table

set_option autoImplicit false
set_option linter.unusedSectionVars false

variable {l : Label} {op : ResourceOperation} {x : Uuid}

section Operations

variable [Postgres] {db db' : Db} {allow : Label → Prop}

/-! ## Statement -/

/-- A task of the operation is queued or claimed, or its result is waiting. -/
def Pursued (db : Db) (x : Uuid) : Prop :=
  (∃ q ∈ db.workQueue, q.taskType = .operate ∧ q.opId = some x) ∨ ∃ u ∈ db.workOutbox, u.Operates x

/-- The first result of operation `x` that was drained; the log has the newest first. -/
def firstResult (drained : List OutboxRow) (x : Uuid) : Option OutboxRow :=
  drained.reverse.find? fun o => o.Operates x

structure Settles (db : Db) : Prop where
  answered : ∀ op ∈ db.operations, ∀ o, firstResult db.drained op.id = some o → op.Outcome o
  pursued : ∀ op ∈ db.operations, ¬ op.final → Pursued db op.id

/-- A drain that commits takes no result of a pending operation, unless it removes the
operation with its resource; the garbage collection drops no task of an operation that is
open and has no result waiting. -/
def SparesOperations (db : Db) : Action → Prop
  | .drainOutboxBatch scan rowScan order n range =>
    ∀ db', drainOutboxBatch db scan rowScan order n range = some db' →
      ∀ o ∈ popped db scan n range, ∀ op ∈ db.operations.rows, o.Operates op.id → op.state = .pending →
        op.id ∉ db'.operations.rows.map (·.id)
  | .deleteUnclaimedWork scan secs n range =>
    ∀ q ∈ db.workQueue.rows, q ∉ (deleteUnclaimedWork db scan secs n range).workQueue.rows →
      ∀ op ∈ db.operations.rows, q.opId = some op.id → op.final ∨ ∃ u ∈ db.workOutbox.rows, u.Operates op.id
  | _ => True

instance (op : ResourceOperation) : Decidable op.final := inferInstanceAs (Decidable (_ ∨ _))

instance (db : Db) (a : Action) : Decidable (SparesOperations db a) := by
  induction a using Action.casesOn <;> dsimp only [SparesOperations] <;> infer_instance

/-! ## Open operations have a task -/

/-- Every operation is final or pursued. -/
def Backed (db : Db) : Prop := ∀ op ∈ db.operations, op.final ∨ Pursued db op.id

theorem Jobs.same_work (jobs : Jobs db) {i j : Job} (job : IsJob db i)
    (job' : IsJob db j) (names : i.opId = some x) (names' : j.opId = some x) : i.id = j.id :=
  congrArg Job.id (jobs.single i j x job job' names names')

theorem Pursued.undrained (jobs : Jobs db) (granted : Granted db) (pursued : Pursued db x)
    {o : OutboxRow} (drained : o ∈ db.drained) : ¬ o.Operates x := by
  rintro ⟨type, names⟩
  have task : IsJob db o.task.job := .of_task (granted.drained o drained)
  obtain ⟨unqueued, silent⟩ := jobs.ended o drained type
  rcases pursued with ⟨q, here, -, op⟩ | ⟨u, waiting, -, op⟩
  · exact unqueued q here (jobs.same_work (.of_row here) task op names)
  · exact silent u waiting (jobs.same_work (.of_task (granted.waiting u waiting)) task op names)

theorem settles_iff (jobs : Jobs db) (granted : Granted db) : Settles db ↔ Backed db := by
  constructor
  · intro settles op here
    by_cases final : op.final
    · exact .inl final
    · exact .inr (settles.pursued op here final)
  · intro backed
    refine ⟨fun op here o first => ?_, fun op here open_ => (backed op here).resolve_left open_⟩
    have drained : o ∈ db.drained := mem_reverse.mp (mem_of_find?_eq_some first)
    have operates : o.Operates op.id := by
      have found := find?_some first
      exact of_decide_eq_true found
    rcases backed op here with final | pursued
    · -- the outcome it has is that of the one result there is
      obtain ⟨u, drained', operates', outcome⟩ := jobs.final op here final
      have same : o.workId = u.workId :=
        jobs.same_work (.of_task (granted.drained o drained)) (.of_task (granted.drained u drained'))
          operates.2 operates'.2
      rw [jobs.once o drained u drained' operates.1 operates'.1 same]
      exact outcome
    · exact absurd operates (pursued.undrained jobs granted drained)

/-! ## Steps that leave them alone -/

/-- The effects that neither write an operation nor take the task of one away. -/
def Label.Sparing : Label → Prop
  | .ops | .enqueue .operation | .remove none | .remove (some .operate) | .pop _ | .finalize _ => False
  | _ => True

theorem Label.Sparing.unaccepting (h : l.Sparing) : l.Unaccepting := by
  cases l with
  | ops => exact h
  | enqueue cause => cases cause <;> first | exact trivial | exact h
  | _ => trivial

theorem Effect.operations_subset (sparing : l.Sparing) (effect : Effect l db db')
    (after : op ∈ db'.operations) : op ∈ db.operations := by
  cases effect with
  | aux core => exact core.operations ▸ after
  | ops t n grows unsettled | finalize results drained => exact sparing.elim
  | delete ids => exact (mem_deleteWhere.mp after).1
  | _ => exact after

theorem Effect.outbox_kept (sparing : l.Sparing) (effect : Effect l db db')
    {u : OutboxRow} (waiting : u ∈ db.workOutbox) : u ∈ db'.workOutbox := by
  cases effect with
  | aux core => exact core.workOutbox ▸ waiting
  | append o claimed token free => exact (mem_push free).mpr (.inr waiting)
  | pop results popped distinct => exact sparing.elim
  | _ => exact waiting

/-- The row of an operate task stays, unless its resource is removed. -/
theorem Effect.row_kept (sparing : l.Sparing) (effect : Effect l db db') {q : WorkQueueRow}
    (here : q ∈ db.workQueue) (type : q.taskType = .operate) : (∃ q' ∈ db'.workQueue, q'.job = q.job) ∨
      ∃ ids, db' = deleteResources db ids ∧ q.resourceId ∈ cascaded db ids := by
  cases effect with
  | aux core => exact .inl ⟨q, core.workQueue ▸ here, rfl⟩
  | delete ids =>
    by_cases gone : q.resourceId ∈ cascaded db ids
    · exact .inr ⟨ids, rfl, gone⟩
    · exact .inl ⟨q, mem_deleteWhere.mpr ⟨here, decide_eq_false gone⟩, rfl⟩
  | enqueue cause w new free => exact .inl ⟨q, (mem_push free).mpr (.inr here), rfl⟩
  | repoint r stored ready =>
    exact .inl (exists_column_updateWhere (repoint_key _) (fun _ => rfl) here)
  | claim scan b =>
    exact .inl (exists_column_updateWhere (claimRow_key _ _) (fun _ => rfl) here)
  | reap | release => exact .inl (exists_column_updateWhere (freeRow_key _) (fun _ => rfl) here)
  | touch p f keeps rows =>
    refine .inl (exists_column_updateWhere keeps (fun q => ?_) here)
    have same := rows q
    rw [WorkQueueRow.job, WorkQueueRow.job, same.id, same.resourceId, same.taskType, same.opId]
  | remove only p unclaimed typed =>
    refine .inl ⟨q, mem_deleteWhere.mpr ⟨here, ?_⟩, rfl⟩
    by_contra picked
    rw [Bool.not_eq_false] at picked
    cases only with
    | none => exact sparing
    | some taskType =>
      obtain rfl := (typed q here picked taskType rfl).symm.trans type
      exact sparing
  | pop results popped distinct => exact sparing.elim
  | _ => exact .inl ⟨q, here, rfl⟩

/-- An operation that is there after such effects was there before them, and is pursued if
it was. -/
theorem Effects.pursued (run : Effects allow db db')
    (sparing : ∀ l, allow l → l.Sparing) (granted : Granted db) (jobs : Jobs db) (after : op ∈ db'.operations) :
    op ∈ db.operations ∧ (Pursued db op.id → Pursued db' op.id) := by
  induction run with
  | refl => exact ⟨after, fun h => h⟩
  | tail before last ih =>
    obtain ⟨l, ok, effect⟩ := last
    have spares := sparing l ok
    obtain ⟨-, good⟩ := Effects.jobs (fun l ok => (sparing l ok).unaccepting) before granted jobs
    have there := effect.operations_subset spares after
    obtain ⟨here, pursued⟩ := ih there
    refine ⟨here, fun start => ?_⟩
    rcases pursued start with ⟨q, queued, type, names⟩ | ⟨u, waiting, operates⟩
    · rcases effect.row_kept spares queued type with ⟨q', kept, same⟩ | ⟨ids, rfl, gone⟩
      · exact .inl ⟨q', kept, (congrArg Job.taskType same).trans type, (congrArg Job.opId same).trans names⟩
      · -- the operations of a removed resource go with it
        have place := good.place op there q.job (.of_row queued) names
        have stays := of_decide_eq_false (mem_deleteWhere.mp after).2
        exact absurd (place ▸ gone) stays
    · exact .inr ⟨u, effect.outbox_kept spares waiting, operates⟩

theorem Backed.effects (backed : Backed db) (run : Effects allow db db')
    (sparing : ∀ l, allow l → l.Sparing) (granted : Granted db) (jobs : Jobs db) : Backed db' := by
  intro op after
  obtain ⟨here, pursued⟩ := run.pursued sparing granted jobs after
  exact (backed op here).imp_right pursued

/-- Every action but those on operations, the drain and the garbage collection. -/
def Action.Sparing : Action → Prop
  | .createOperation _ _ _ | .setOperationRunning _ | .drainOutboxBatch _ _ _ _ _
  | .deleteUnclaimedWork _ _ _ _ => False
  | _ => True

theorem Action.Sparing.allows {a : Action} (sparing : a.Sparing) (ok : a.allows db l) : l.Sparing := by
  cases a with
  | createOperation _ _ _ | setOperationRunning _ | drainOutboxBatch _ _ _ _ _
  | deleteUnclaimedWork _ _ _ _ => exact sparing.elim
  | _ =>
    cases l with
    | ops | pop _ | finalize _ => first | exact ok | cases ok
    | enqueue cause => cases cause <;> first | exact trivial | exact ok | cases ok
    | remove only => rcases only with _ | _ | _ | _ <;> first | exact trivial | exact ok | cases ok
    | _ => trivial

/-! ## The other actions -/

theorem createOperation_backed {id : Uuid} {verb : String} {input : Json} (backed : Backed db)
    (done : createOperation db id verb input = some db') : Backed db' := by
  obtain ⟨op, w, free, slot, -, -, -, task, -, rfl⟩ := createOperation_spec done
  intro op' after
  rcases (mem_push free).mp after with rfl | old
  · refine .inr (.inl ⟨w, (mem_push slot).mpr (.inl rfl), ?_, ?_⟩)
    · exact congrArg Job.taskType task
    · exact congrArg Job.opId task
  · refine (backed op' old).imp_right (Or.imp_left ?_)
    rintro ⟨q, here, rest⟩
    exact ⟨q, (mem_push slot).mpr (.inr here), rest⟩

theorem setOperationRunning_backed (backed : Backed db) (id : Uuid) : Backed (setOperationRunning db id) := by
  intro op' after
  obtain ⟨op, here, same, -, rfl | ⟨-, open_⟩⟩ := mem_setOperationRunning after
  · exact backed op' here
  · exact .inr (same ▸ (backed op here).resolve_left open_)

theorem deleteUnclaimedWork_backed (jobs : Jobs db) (backed : Backed db) (scan : Scan Uuid) (secs n : Nat)
    (range : ShardRange) : Backed (deleteUnclaimedWork db scan secs n range) ↔
      SparesOperations db (.deleteUnclaimedWork scan secs n range) := by
  have shrinks {q : WorkQueueRow} (left : q ∈ (deleteUnclaimedWork db scan secs n range).workQueue) :
      q ∈ db.workQueue := (mem_deleteWhere.mp left).1
  constructor
  · intro next q here dropped op listed names
    refine (next op listed).imp_right ?_
    rintro (⟨q', left, -, names'⟩ | waiting)
    · -- its only task is the one that was dropped
      have same := jobs.same_work (.of_row here) (.of_row (shrinks left)) names names'
      obtain rfl := eq_of_pk workQueue_primary here (shrinks left) same
      exact absurd left dropped
    · exact waiting
  · intro spares op listed
    rcases backed op listed with final | ⟨q, here, type, names⟩ | waiting
    · exact .inl final
    · by_cases left : q ∈ (deleteUnclaimedWork db scan secs n range).workQueue
      · exact .inr (.inl ⟨q, left, type, names⟩)
      · exact (spares q here left op listed names).imp_right .inr
    · exact .inr (.inr waiting)

theorem Label.Sweeps.sparing (h : l.Sweeps) : l.Sparing := by
  cases l with
  | ops | pop _ | finalize _ => exact h
  | enqueue cause => cases cause <;> first | exact trivial | exact h
  | remove only =>
    obtain rfl : only = some .reconcile := h
    exact trivial
  | _ => trivial

theorem Label.Drains.unaccepting {results : List OutboxRow} (h : l.Drains results) : l.Unaccepting := by
  cases l with
  | ops => exact h
  | enqueue cause => cases cause <;> first | exact trivial | exact h
  | _ => trivial

theorem Effects.operation_kept (run : Effects allow db db') (unaccepting : ∀ l, allow l → l.Unaccepting)
    (here : op ∈ db.operations) (idle : op.state ≠ .running) {op' : ResourceOperation}
    (after : op' ∈ db'.operations) (same : op'.id = op.id) : op' = op := by
  refine Steps.keeps (I := fun s => ∀ op' ∈ s.operations, op'.id = op.id → op' = op) ?_ run ?_ op' after same
  · intro l s s' ok effect before op' after same
    obtain ⟨old, there, sameId, -, rfl | ⟨running, -⟩⟩ := effect.operation (unaccepting l ok) after
    · exact before op' there same
    · obtain rfl := before old there (sameId.trans same)
      exact absurd running idle
  · intro old there same
    exact eq_of_pk operations_primary there here same

section Drain

variable {results : List OutboxRow}

/-- An operation that is open once the batch is taken and finalized was open before, and if
the batch has a result of it, it is pending. -/
theorem finalized_open (after : op ∈ (finalizeOperations (takeResults db results) results).operations)
    (open_ : ¬ op.final) : op ∈ db.operations ∧ ((∃ o ∈ results, o.Operates op.id) → op.state = .pending) := by
  unfold finalizeOperations at after
  simp only [mem_updateWhere] at after
  obtain ⟨old, here, rfl⟩ := after
  by_cases found : (operationResult results old).isSome = true
  · -- a finalized operation is final
    obtain ⟨o, ho⟩ := Option.isSome_iff_exists.mp found
    refine absurd ?_ open_
    simp only [ResourceOperation.final, ho, Option.elim_some]
    cases o.succeeded
    · exact .inr rfl
    · exact .inl rfl
  · rw [if_neg found] at open_ ⊢
    refine ⟨here, ?_⟩
    rintro ⟨o, listed, operates⟩
    have idle : old.state ≠ .running := by
      intro running
      refine found (find?_isSome.mpr ⟨o, listed, ?_⟩)
      simp [operates.1, operates.2, running]
    cases state : old.state with
    | pending => rfl
    | running => exact absurd state idle
    | succeeded => exact absurd (.inl state) open_
    | failed => exact absurd (.inr state) open_

theorem Pursued.take (jobs : Jobs db) (granted : Granted db) (waiting : ∀ o ∈ results, o ∈ db.workOutbox)
    (pursued : Pursued db x) (none : ¬ ∃ o ∈ results, o.Operates x) :
    Pursued (finalizeOperations (takeResults db results) results) x := by
  rcases pursued with ⟨q, here, type, names⟩ | ⟨u, here, operates⟩
  · refine .inl ⟨q, mem_deleteWhere.mpr ⟨here, ?_⟩, type, names⟩
    rw [any_eq_false]
    intro o listed retired
    simp only [retires, Bool.and_eq_true, decide_eq_true_eq] at retired
    -- a result that retires the row is of its job
    have same : o.task.job = q.job :=
      jobs.one _ _ (.of_task (granted.waiting o (waiting o listed))) (.of_row here) retired.1
    exact none ⟨o, listed, (congrArg Job.taskType same).trans type, (congrArg Job.opId same).trans names⟩
  · refine .inr ⟨u, mem_deleteWhere.mpr ⟨here, decide_eq_false ?_⟩, operates⟩
    intro taken
    obtain ⟨o, listed, same⟩ := mem_map.mp taken
    obtain rfl := eq_of_pk workOutbox_primary (waiting o listed) here same
    exact none ⟨o, listed, operates⟩

/-- A drain that commits keeps every open operation pursued exactly if it takes no result
of a pending one that stays. -/
theorem drain_backed (jobs : Jobs db) (granted : Granted db) (backed : Backed db)
    {scan rowScan : Scan Uuid} {order : Nat → Nat} {n : Nat} {range : ShardRange}
    (done : drainOutboxBatch db scan rowScan order n range = some db') :
    Backed db' ↔ SparesOperations db (.drainOutboxBatch scan rowScan order n range) := by
  obtain ⟨granted', jobs'⟩ := Effects.jobs (fun _ ok => Label.Drains.unaccepting ok)
    (drainOutboxBatch_effects done) granted jobs
  constructor
  · intro next last committed o listed op here operates pending stays
    obtain rfl := Option.some.inj (done.symm.trans committed)
    have drained : o ∈ db'.drained := by
      rw [drainOutboxBatch_drained done]
      exact mem_append_left _ listed
    obtain ⟨op', after, same⟩ := mem_map.mp stays
    -- the drain writes running operations alone, so it is still the pending one
    obtain rfl := (drainOutboxBatch_effects done).operation_kept
      (fun _ ok => Label.Drains.unaccepting ok) here (by rw [pending]; decide) after same
    rcases next op' after with final | pursued
    · exact absurd final (not_final (.inl pending))
    · exact pursued.undrained jobs' granted' drained operates
  · intro spares op after
    by_cases empty : popped db scan n range = []
    · obtain rfl := drainOutboxBatch_none empty done
      exact backed op after
    by_cases final : op.final
    · exact .inl final
    have waiting : ∀ o ∈ popped db scan n range, o ∈ db.workOutbox := popped_waiting
    have taken : Effects Label.Unaccepting db
        (finalizeOperations (takeResults db (popped db scan n range)) (popped db scan n range)) :=
      taken_effects trivial trivial waiting popped_nodup
    obtain ⟨grantedM, jobsM⟩ := Effects.jobs (fun _ h => h) taken granted jobs
    have rest : Effects Label.Sparing _ db' :=
      (tornDown_effects (fun _ => Label.Sweeps.sparing) trivial rowScan).trans
        (drained_effects (.of_all (fun _ h => h.sweeps.sparing) trivial fun _ _ => trivial) trivial
          (fun _ _ => trivial) empty done)
    obtain ⟨mid, pursued⟩ := rest.pursued (fun _ h => h) grantedM jobsM after
    obtain ⟨here, pending⟩ := finalized_open mid final
    have open_ := (backed op here).resolve_left final
    refine .inr (pursued (open_.take jobs granted waiting ?_))
    rintro ⟨o, listed, operates⟩
    exact spares db' done o listed op here operates (pending ⟨o, listed, operates⟩) (mem_map_of_mem after)

end Drain

/-! ## Every step -/

theorem step_settles (reachable : Reachable db) (settles : Settles db) (a : Action) :
    Settles (step db a) ↔ SparesOperations db a := by
  have granted := reachable.versioned.granted
  have jobs := reachable.jobs
  have backed : Backed db := (settles_iff jobs granted).mp settles
  rw [settles_iff (reachable.step a).jobs (reachable.step a).versioned.granted]
  by_cases sparing : a.Sparing
  · have kept : Backed (step db a) :=
      backed.effects (step_effects db a) (fun _ ok => sparing.allows ok) granted jobs
    refine iff_of_true kept ?_
    cases a <;> first | exact trivial | exact sparing.elim
  · cases a with
    | createOperation id verb input =>
      refine iff_of_true ?_ trivial
      simp only [step]
      cases done : createOperation db id verb input with
      | none => exact backed
      | some last => exact createOperation_backed backed done
    | setOperationRunning id => exact iff_of_true (setOperationRunning_backed backed id) trivial
    | deleteUnclaimedWork scan secs n range =>
      exact deleteUnclaimedWork_backed jobs backed scan secs n range
    | drainOutboxBatch scan rowScan order n range =>
      simp only [step]
      cases done : drainOutboxBatch db scan rowScan order n range with
      | some last => exact drain_backed jobs granted backed done
      | none =>
        refine iff_of_true backed fun last committed => ?_
        rw [done] at committed
        cases committed
    | _ => exact absurd trivial sparing

theorem settles_empty : Settles Db.empty :=
  ⟨fun op here => absurd here (notMem_empty op), fun op here => absurd here (notMem_empty op)⟩

theorem step_final (jobs : Jobs db) (a : Action) {op' : ResourceOperation} (here : op ∈ db.operations)
    (final : op.final) (after : op' ∈ (step db a).operations) (same : op'.id = op.id) : op' = op := by
  by_cases accepting : a.Accepting
  · refine eq_of_pk operations_primary ?_ here same
    cases a with
    | createOperation id verb input =>
      simp only [step] at after
      cases done : createOperation db id verb input with
      | none =>
        rw [done] at after
        exact after
      | some last =>
        obtain ⟨new, w, free, slot, newId, -, -, -, -, rfl⟩ := createOperation_spec done
        rw [done] at after
        rcases (mem_push free).mp after with rfl | old
        · have drawn := jobs.listed op here
          rw [← same, newId] at drawn
          exact absurd drawn (not_drawn_next db)
        · exact old
    | setOperationRunning id =>
      obtain ⟨old, there, sameId, -, rfl | ⟨-, open_⟩⟩ := mem_setOperationRunning after
      · exact there
      · obtain rfl := eq_of_pk operations_primary there here (sameId.trans same)
        exact absurd final open_
    | _ => exact accepting.elim
  · refine (step_effects db a).operation_kept (fun _ ok => allows_unaccepting accepting ok) here ?_ after same
    exact fun running => absurd final (not_final (.inr running))

/-- **Operations settle.**  What is final is never written again.  In every state of a run
each operation of which a result was drained has the outcome of the first such result, and
each that is not final has a task behind it, exactly if every step spares them. -/
theorem operations_settle : (∀ db, Reachable db → ∀ a, ∀ op ∈ db.operations, op.final →
      ∀ op' ∈ (step db a).operations, op'.id = op.id → op' = op) ∧
    ∀ actions, (Along (fun s a => Settles (step s a)) Db.empty actions ↔
        Along SparesOperations Db.empty actions) ∧
      (Along SparesOperations Db.empty actions → Settles (run Db.empty actions)) := by
  refine ⟨fun db reachable a op here final op' after same =>
    step_final reachable.jobs a here final after same, fun actions => ⟨?_, fun along => ?_⟩⟩
  · exact Along.iff_keeps (fun s a _ reachable settles => step_settles reachable settles a) .empty
      settles_empty
  · exact along.keeps (fun s a reachable ok settles => (step_settles reachable settles a).mpr ok)
      .empty settles_empty

end Operations

/-- A restart of a root is accepted and started, its task claimed and reported, and the
result drained. -/
def restarts : Script :=
  [fun _ => [applyRoot "vm" "a", .createOperation 0 "restart" (.obj []), .setOperationRunning 2,
    claimAll "b" "vm" .operate], returns "vm" success]

theorem operations_settle_restart : letI := counting
    let actions := restarts.play Db.empty
    let db := run Db.empty actions
    Along SparesOperations Db.empty actions ∧ Settles db ∧
      ∃ op ∈ db.operations.rows, op.state = .succeeded := by
  intro actions db
  have facts : letI := counting
      Along SparesOperations Db.empty actions ∧ ∃ op ∈ db.operations.rows, op.state = .succeeded := by
    decide +kernel
  exact ⟨facts.1, ((@operations_settle counting).2 actions).2 facts.1, facts.2⟩

/-- The same without `SetOperationRunning`, which no claim calls. -/
def restartsUnstarted : Script :=
  [fun _ => [applyRoot "vm" "a", .createOperation 0 "restart" (.obj []), claimAll "b" "vm" .operate],
    returns "vm" success]

/-- No worker comes for the restart, and the garbage collection takes its task. -/
def restartsUnclaimed : Script :=
  [fun _ => [applyRoot "vm" "a", .createOperation 0 "restart" (.obj []), .tick 60,
    .deleteUnclaimedWork Scan.plain 30 10 ShardRange.full]]

/-- Either way the operation is pending and nothing is left that could end it; in the first
run although its success was drained. -/
theorem operations_dropped : letI := counting
    (∀ script ∈ [restartsUnstarted, restartsUnclaimed],
      let db := run Db.empty (script.play Db.empty)
      ∃ op ∈ db.operations.rows, op.state = .pending ∧ (∀ q ∈ db.workQueue.rows, q.opId ≠ some op.id) ∧
          ∀ u ∈ db.workOutbox.rows, u.opId ≠ some op.id) ∧
    ∃ o ∈ (run Db.empty (restartsUnstarted.play Db.empty)).drained, o.Operates 2 ∧ o.succeeded = true := by
  decide +kernel

end Converge.Kernel
