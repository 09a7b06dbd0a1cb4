/-
# Kernel.Jobs -- what a work id stands for

A queue row is of one resource, of one type and, if it runs an operation, of that operation;
it stays so until it is deleted, tasks and results copy it, and its id is never drawn again.
`Jobs` says so of a state, and adds what `CreateOperation` gives: an operation has one task,
which is of the resource of the operation.  From it follows what the drainer relies on when
it writes the outcome of an operation: of one operation at most one result is ever drained,
and an operation that is final has the outcome of that result.

Every effect keeps `Jobs` but the two of accepting an operation, which keep it together.
-/
import Converge.Kernel.Versions

namespace Converge.Kernel

open Converge.Theory List Table

set_option autoImplicit false
set_option linter.unusedSectionVars false

variable [Postgres] {db db' : Db} {allow : Label → Prop}
variable {l : Label} {o : OutboxRow} {id : Uuid}

/-! ## Jobs -/

/-- The job is queued, or was handed out. -/
def IsJob (db : Db) (j : Job) : Prop :=
  (∃ q ∈ db.workQueue, q.job = j) ∨ ∃ t ∈ db.tasks, t.job = j

structure Jobs (db : Db) : Prop where
  drawn : ∀ j, IsJob db j → db.Drawn j.id
  one : ∀ i j, IsJob db i → IsJob db j → i.id = j.id → i = j
  /-- Only an operate task names an operation, and it is the only one to. -/
  operate : ∀ j x, IsJob db j → j.opId = some x → j.taskType = .operate ∧ db.Drawn x
  single : ∀ i j x, IsJob db i → IsJob db j → i.opId = some x → j.opId = some x → i = j
  listed : ∀ op ∈ db.operations, db.Drawn op.id
  place : ∀ op ∈ db.operations, ∀ j, IsJob db j → j.opId = some op.id → j.resourceId = op.resourceId
  /-- The task of a drained operate result is over. -/
  ended : ∀ o ∈ db.drained, o.taskType = .operate →
    (∀ q ∈ db.workQueue, q.id ≠ o.workId) ∧ ∀ u ∈ db.workOutbox, u.workId ≠ o.workId
  once : ∀ o ∈ db.drained, ∀ u ∈ db.drained, o.taskType = .operate → u.taskType = .operate →
    o.workId = u.workId → o = u
  final : ∀ op ∈ db.operations, op.final → ∃ o ∈ db.drained, o.Operates op.id ∧ op.Outcome o

theorem IsJob.of_task {t : WorkTask} (handed : t ∈ db.tasks) : IsJob db t.job :=
  .inr ⟨t, handed, rfl⟩

theorem IsJob.of_row {q : WorkQueueRow} (here : q ∈ db.workQueue) : IsJob db q.job :=
  .inl ⟨q, here, rfl⟩

theorem Effect.job (effect : Effect l db db') {j : Job} (h : IsJob db' j) :
    (∃ cause, ∃ w ∈ db'.workQueue, l = .enqueue cause ∧ Enqueued db cause w ∧ w.job = j ∧
      db'.drawn = db.drawn + 1) ∨ IsJob db j := by
  rcases h with ⟨q', after, rfl⟩ | ⟨t, handed, rfl⟩
  · rcases effect.queue after with ⟨cause, same, new, next⟩ | ⟨q, here, same⟩
    · exact .inl ⟨cause, q', after, same, new, rfl, next⟩
    · exact .inr (same ▸ .of_row here)
  · refine .inr ?_
    cases effect with
    | aux core => exact .of_task (core.tasks ▸ handed)
    | claim scan b =>
      rcases mem_tasks_claim.mp handed with ⟨q, taken, rfl⟩ | old
      · exact .inl ⟨q, (mem_takenRows taken).1, rfl⟩
      · exact .of_task old
    | _ => exact .of_task handed

/-! ## What one effect leaves of them -/

/-- Neither effect of accepting an operation. -/
def Label.Unaccepting : Label → Prop
  | .ops | .enqueue .operation => False
  | _ => True

theorem Effect.job_plain (plain : l.Unaccepting) (effect : Effect l db db') {j : Job} (h : IsJob db' j) :
    ((∃ w ∈ db'.workQueue, w.job = j) ∧ j.id = Postgres.randomUuid db.drawn ∧ j.opId = none ∧
      db'.drawn = db.drawn + 1) ∨ IsJob db j := by
  refine (effect.job h).imp_left ?_
  rintro ⟨cause, w, here, rfl, new, rfl, next⟩
  refine ⟨⟨w, here, rfl⟩, new.id, new.opId ?_, next⟩
  rintro rfl
  exact plain

theorem Effect.drained_subset (effect : Effect l db db') (h : o ∈ db.drained) : o ∈ db'.drained := by
  cases effect with
  | aux core => exact core.drained ▸ h
  | pop results waiting distinct => exact mem_append_right _ h
  | _ => exact h

/-- An operation is left as it was, or is running and gets the outcome of a drained result. -/
theorem Effect.operation (plain : l.Unaccepting) (effect : Effect l db db') {op' : ResourceOperation}
    (after : op' ∈ db'.operations) : ∃ op ∈ db.operations, op.id = op'.id ∧ op.resourceId = op'.resourceId ∧
      (op' = op ∨ op.state = .running ∧ ∃ o ∈ db.drained, o.Operates op'.id ∧ op'.Outcome o) := by
  have kept : op' ∈ db.operations → ∃ op ∈ db.operations, op.id = op'.id ∧
      op.resourceId = op'.resourceId ∧ (op' = op ∨ op.state = .running ∧
        ∃ o ∈ db.drained, o.Operates op'.id ∧ op'.Outcome o) :=
    fun here => ⟨op', here, rfl, rfl, .inl rfl⟩
  cases effect with
  | aux core => exact kept (core.operations ▸ after)
  | ops t n grows unsettled => exact plain.elim
  | delete ids => exact kept (mem_deleteWhere.mp after).1
  | finalize results drained =>
    obtain ⟨op, here, id, resource, rfl | ⟨running, o, listed, rest⟩⟩ := mem_finalizeOperations after
    · exact kept here
    · exact ⟨op, here, id, resource, .inr ⟨running, o, drained o listed, rest⟩⟩
  | _ => exact kept after

theorem Effect.reported (effect : Effect l db db') {u : OutboxRow} (after : u ∈ db'.workOutbox) :
    u ∈ db.workOutbox ∨ ∃ q ∈ db.workQueue, q.id = u.workId := by
  cases effect with
  | aux core => exact .inl (core.workOutbox ▸ after)
  | append o claimed token free =>
    rcases (mem_push free).mp after with rfl | old
    · obtain ⟨q, here, matched⟩ := token
      simp only [tokenMatches, Bool.and_eq_true, decide_eq_true_eq] at matched
      exact .inr ⟨q, here, matched.1.1.1⟩
    · exact .inl old
  | pop results waiting distinct => exact .inl (mem_deleteWhere.mp after).1
  | _ => exact .inl after

/-- A drained result was drained before, or it was waiting and is popped: of the queue and
of the outbox nothing is left under its id, unless it is of a reconcile. -/
theorem Effect.drained_from (effect : Effect l db db') (h : o ∈ db'.drained) :
    o ∈ db.drained ∨ o ∈ db.workOutbox ∧ (o.taskType ≠ .reconcile →
      (∀ q ∈ db'.workQueue, q.id ≠ o.workId) ∧ ∀ u ∈ db'.workOutbox, u.workId ≠ o.workId) := by
  cases effect with
  | aux core => exact .inl (core.drained ▸ h)
  | pop results waiting distinct =>
    rcases mem_append.mp h with new | old
    · refine .inr ⟨waiting o new, fun type => ⟨fun q left same => ?_, fun u left same => ?_⟩⟩
      · have kept := (mem_deleteWhere.mp left).2
        rw [any_eq_false] at kept
        refine kept o new ?_
        simp [retires, same, type]
      · have kept := of_decide_eq_false (mem_deleteWhere.mp left).2
        exact kept (mem_map.mpr ⟨o, new, same.symm⟩)
    · exact .inl old
  | _ => exact .inl h

theorem Effect.jobs (plain : l.Unaccepting) (effect : Effect l db db')
    (granted : Granted db) (good : Jobs db) : Jobs db' := by
  have le := effect.drawn_le
  have undrawn {j : Job} (old : IsJob db j) : j.id ≠ Postgres.randomUuid db.drawn :=
    fun same => not_drawn_next db (same ▸ good.drawn j old)
  -- the job of an operation is an old one
  have running {j : Job} {x : Uuid} (job : IsJob db' j) (op : j.opId = some x) : IsJob db j := by
    rcases effect.job_plain plain job with ⟨-, -, none, -⟩ | old
    · rw [none] at op
      cases op
    · exact old
  have handed {o : OutboxRow} (drained : o ∈ db.drained) : IsJob db o.task.job :=
    .of_task (granted.drained o drained)
  constructor
  · intro j job
    rcases effect.job_plain plain job with ⟨-, new, -, next⟩ | old
    · exact ⟨db.drawn, by omega, new.symm⟩
    · exact (good.drawn j old).mono le
  · intro i j job job' same
    rcases effect.job_plain plain job with ⟨⟨w, here, rfl⟩, new, -⟩ | old
    · rcases effect.job_plain plain job' with ⟨⟨w', here', rfl⟩, -⟩ | old'
      · rw [eq_of_pk workQueue_primary here here' same]
      · exact absurd (same.symm.trans new) (undrawn old')
    · rcases effect.job_plain plain job' with ⟨-, new, -⟩ | old'
      · exact absurd (same.trans new) (undrawn old)
      · exact good.one i j old old' same
  · intro j x job op
    obtain ⟨type, drawn⟩ := good.operate j x (running job op) op
    exact ⟨type, drawn.mono le⟩
  · intro i j x job job' op op'
    exact good.single i j x (running job op) (running job' op') op op'
  · intro op' after
    obtain ⟨op, here, same, -⟩ := effect.operation plain after
    exact same ▸ (good.listed op here).mono le
  · intro op' after j job names
    obtain ⟨op, here, same, resource, -⟩ := effect.operation plain after
    rw [← resource]
    exact good.place op here j (running job names) (same ▸ names)
  · intro o drained type
    rcases effect.drained_from drained with old | ⟨-, ended⟩
    · obtain ⟨unqueued, silent⟩ := good.ended o old type
      constructor
      · intro q' after same
        rcases effect.queue after with ⟨cause, -, new, -⟩ | ⟨q, here, job⟩
        · exact undrawn (handed old) (same.symm.trans new.id)
        · exact unqueued q here ((congrArg Job.id job).trans same)
      · intro u after same
        rcases effect.reported after with before | ⟨q, here, id⟩
        · exact silent u before same
        · exact unqueued q here (id.trans same)
    · exact ended (by rw [type]; exact nofun)
  · intro o drained u drained' type type' same
    rcases effect.drained_from drained with old | ⟨waiting, -⟩
    · rcases effect.drained_from drained' with old' | ⟨waiting', -⟩
      · exact good.once o old u old' type type' same
      · exact absurd same.symm ((good.ended o old type).2 u waiting')
    · rcases effect.drained_from drained' with old' | ⟨waiting', -⟩
      · exact absurd same ((good.ended u old' type').2 o waiting)
      · exact eq_of_pk workOutbox_primary waiting waiting' same
  · intro op' after final
    obtain ⟨op, here, -, -, rfl | ⟨-, o, drained, operates, outcome⟩⟩ := effect.operation plain after
    · obtain ⟨o, drained, rest⟩ := good.final op' here final
      exact ⟨o, effect.drained_subset drained, rest⟩
    · exact ⟨o, effect.drained_subset drained, operates, outcome⟩

/-! ## Every reachable state -/

theorem setOperationRunning_jobs (good : Jobs db) (id : Uuid) : Jobs (setOperationRunning db id) := by
  refine ⟨good.drawn, good.one, good.operate, good.single, ?_, ?_, good.ended, good.once, ?_⟩
  · intro op' after
    obtain ⟨op, here, same, -⟩ := mem_setOperationRunning after
    exact same ▸ good.listed op here
  · intro op' after j job names
    obtain ⟨op, here, same, resource, -⟩ := mem_setOperationRunning after
    rw [← resource]
    exact good.place op here j job (same ▸ names)
  · intro op' after final
    obtain ⟨op, here, -, -, rfl | ⟨open_, -⟩⟩ := mem_setOperationRunning after
    · exact good.final op' here final
    · exact absurd final open_

theorem createOperation_jobs {verb : String} {input : Json} (granted : Granted db)
    (good : Jobs db) (done : createOperation db id verb input = some db') : Jobs db' := by
  obtain ⟨op, w, free, slot, opId, resource, pending, task, -, rfl⟩ := createOperation_spec done
  have le : db.drawn ≤ db.drawn + 2 := Nat.le_add_right _ _
  have undrawn (n : Nat) : ¬ db.Drawn (Postgres.randomUuid (db.drawn + n)) := by
    rintro ⟨m, lt, same⟩
    have := Postgres.randomUuid_injective same
    omega
  have newOp : ¬ db.Drawn op.id := opId ▸ undrawn 0
  have opDrawn : ∃ n < db.drawn + 2, Postgres.randomUuid n = op.id :=
    ⟨db.drawn, Nat.lt_add_of_pos_right Nat.two_pos, opId.symm⟩
  have newWork {j : Job} (old : IsJob db j) : j.id ≠ w.job.id := by
    intro same
    have drawn := good.drawn j old
    rw [same, task] at drawn
    exact undrawn 1 drawn
  have cases_job {j : Job} (job : IsJob { db with
      operations := db.operations.push op free
      workQueue := db.workQueue.push w slot
      drawn := db.drawn + 2 } j) : j = w.job ∨ IsJob db j := by
    rcases job with ⟨q, here, rfl⟩ | handed
    · rcases (mem_push slot).mp here with rfl | old
      · exact .inl rfl
      · exact .inr (.of_row old)
    · exact .inr (.inr handed)
  -- no old job names the new operation
  have fresh {j : Job} (old : IsJob db j) : j.opId ≠ w.job.opId := by
    rw [task]
    exact fun names => newOp (good.operate j op.id old names).2
  constructor
  · intro j job
    rcases cases_job job with rfl | old
    · rw [task]
      exact ⟨db.drawn + 1, Nat.lt_succ_self _, rfl⟩
    · exact (good.drawn j old).mono le
  · intro i j job job' same
    rcases cases_job job with rfl | old <;> rcases cases_job job' with rfl | old'
    · rfl
    · exact absurd same.symm (newWork old')
    · exact absurd same (newWork old)
    · exact good.one i j old old' same
  · intro j x job names
    rcases cases_job job with rfl | old
    · rw [task] at names ⊢
      obtain rfl := Option.some.inj names
      exact ⟨rfl, opDrawn⟩
    · obtain ⟨type, drawn⟩ := good.operate j x old names
      exact ⟨type, drawn.mono le⟩
  · intro i j x job job' names names'
    rcases cases_job job with rfl | old <;> rcases cases_job job' with rfl | old'
    · rfl
    · exact absurd (names'.trans names.symm) (fresh old')
    · exact absurd (names.trans names'.symm) (fresh old)
    · exact good.single i j x old old' names names'
  · intro op' after
    rcases (mem_push free).mp after with rfl | old
    · exact opDrawn
    · exact (good.listed op' old).mono le
  · intro op' after j job names
    rcases (mem_push free).mp after with rfl | oldOp <;> rcases cases_job job with rfl | old
    · rw [task, resource]
    · exact absurd (good.operate j op'.id old names).2 newOp
    · rw [task] at names
      have same : op.id = op'.id := Option.some.inj names
      exact absurd (same ▸ good.listed op' oldOp) newOp
    · exact good.place op' oldOp j old names
  · intro o drained type
    obtain ⟨unqueued, silent⟩ := good.ended o drained type
    refine ⟨fun q after => ?_, silent⟩
    rcases (mem_push slot).mp after with rfl | old
    · exact fun same => newWork (.of_task (granted.drained o drained)) same.symm
    · exact unqueued q old
  · exact good.once
  · intro op' after final
    rcases (mem_push free).mp after with rfl | old
    · exact absurd final (not_final (.inl pending))
    · exact good.final op' old final

/-- The actions on operations. -/
def Action.Accepting : Action → Prop
  | .createOperation _ _ _ | .setOperationRunning _ => True
  | _ => False

theorem allows_unaccepting {a : Action} (other : ¬ a.Accepting) (ok : a.allows db l) : l.Unaccepting := by
  cases a with
  | createOperation _ _ _ | setOperationRunning _ => exact absurd trivial other
  | _ =>
    cases l with
    | ops => first | exact ok | cases ok
    | enqueue cause => cases cause <;> first | exact trivial | exact ok | cases ok
    | _ => trivial

theorem Effects.jobs (plain : ∀ l, allow l → l.Unaccepting) (run : Effects allow db db')
    (granted : Granted db) (good : Jobs db) : Granted db' ∧ Jobs db' :=
  Steps.keeps (I := fun s => Granted s ∧ Jobs s)
    (fun ok effect both => ⟨effect.granted both.1, effect.jobs (plain _ ok) both.1 both.2⟩) run
    ⟨granted, good⟩

theorem step_jobs (granted : Granted db) (good : Jobs db) (a : Action) : Jobs (step db a) := by
  by_cases accepting : a.Accepting
  · cases a with
    | createOperation id verb input =>
      simp only [step]
      cases done : createOperation db id verb input with
      | none => exact good
      | some last => exact createOperation_jobs granted good done
    | setOperationRunning id => exact setOperationRunning_jobs good id
    | _ => exact accepting.elim
  · have plain (l : Label) (ok : a.allows db l) : l.Unaccepting := allows_unaccepting accepting ok
    exact (Effects.jobs plain (step_effects db a) granted good).2

theorem jobs_empty : Jobs Db.empty := by
  have idle (j : Job) : ¬ IsJob Db.empty j := by
    rintro (⟨q, here, -⟩ | ⟨t, handed, -⟩)
    · exact notMem_empty q here
    · exact not_mem_nil handed
  have none (op : ResourceOperation) : op ∉ Db.empty.operations := notMem_empty op
  have dry (o : OutboxRow) : o ∉ Db.empty.drained := not_mem_nil
  exact ⟨fun j h => absurd h (idle j), fun i _ h => absurd h (idle i), fun j _ h => absurd h (idle j),
    fun i _ _ h => absurd h (idle i), fun op h => absurd h (none op), fun op h => absurd h (none op),
    fun o h => absurd h (dry o), fun o h => absurd h (dry o), fun op h => absurd h (none op)⟩

theorem Reachable.jobs (reachable : Reachable db) : Jobs db := by
  refine (reachable.induction (I := fun s => Granted s ∧ Jobs s) ⟨versioned_empty.granted, jobs_empty⟩ ?_).2
  intro s a both
  exact ⟨Steps.keeps (fun _ effect => effect.granted) (step_effects s a) both.1, step_jobs both.1 both.2 a⟩

end Converge.Kernel
