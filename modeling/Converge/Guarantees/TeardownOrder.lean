/-
# Guarantees.TeardownOrder -- a requested teardown runs strictly bottom-up

`statements` lists the states an action passes through, one per statement, and `Ordered`
says what may happen between two of them: a teardown is queued only for a row that owns
nothing and that nothing depends on, and the same holds of a row that disappears, so that
no row ever disappears together with its owner.

`teardown_in_order` proves this of every statement of every run that starts from an
untouched forest and neither composes nor sweeps orphans.  `teardown_progress` proves
that such a run never gets stuck: while a marked row is left, a sweep moves some marked
row, or a teardown is queued or reported.
-/
import Converge.Kernel.Wakes

namespace Converge.Kernel

open Converge.Theory List Table

set_option autoImplicit false
set_option linter.unusedSectionVars false

section Order

variable [Postgres] {db db' : Db}

/-! ## Statement by statement -/

/-- Teardowns are queued and rows removed only of what waits for nothing; a row never
goes together with its owner. -/
structure Ordered (db db' : Db) : Prop where
  queued : ∀ q ∈ db'.workQueue, q.taskType = .delete → (∀ p ∈ db.workQueue, p.id ≠ q.id) → Clear db q.resourceId
  removed : ∀ r ∈ db.resources, ¬ Stored db' r.id → Clear db r.id
  cascade : ∀ r ∈ db.resources, ¬ Stored db' r.id → ∀ p, r.ownerId = some p → Stored db p → Stored db' p

/-- The states after each statement of a sweep, `sweepRounds` step by step. -/
def sweepTrace (maxRows : Nat) (range : ShardRange) : Nat → (Nat → Scan Uuid) → Nat → Db → List Db
  | 0, _, _, _ => []
  | fuel + 1, scans, total, db =>
    let queued := sweepEnqueue db (scans fuel) maxRows range
    let removed := (sweepPicked queued (scans fuel) maxRows range).length
    let swept := sweepDelete queued (scans fuel) maxRows range
    queued :: swept ::
      if (removed = 0 ∧ queued.workQueue.rows.length = db.workQueue.rows.length)
          ∨ maxRows ≤ total + removed then []
      else sweepTrace maxRows range fuel scans (total + removed) swept

/-- The states after each statement of a deletion request.  A mark's trigger runs after
its rows. -/
def requestTrace (db : Db) (scans : Nat → Scan Uuid) (id : Uuid) : List Db :=
  if (db.resource? id).isSome then
    let marked := cascadeMarkForDeletion db id
    markRows db id :: marked :: sweepTrace 100000 ShardRange.full
      (2 * marked.resources.rows.length + 1) scans 0 marked
  else []

/-- The states after each statement of a drain of `results` that ends in `last`. -/
def drainTrace (db : Db) (rowScan : Scan Uuid) (results : List OutboxRow) (last : Db) : List Db :=
  let stripped := stripFinalizers (finalizeOperations (takeResults db results) results) results
  let removed := removeTornDown stripped rowScan results
  [stripped, removed, requeueTeardowns removed results, last]

/-- The states an action passes through.  A drain that fails leaves no state behind. -/
def statements (db : Db) : Action → List Db
  | .requestResourceDeletion scans id => requestTrace db scans id
  | .sweepDeletable scans maxRows range =>
    sweepTrace maxRows range (2 * db.resources.rows.length + 1) scans 0 db
  | .drainOutboxBatch scan rowScan order maxRows range =>
    match drainOutboxBatch db scan rowScan order maxRows range with
    | none => []
    | some last =>
      if popped db scan maxRows range = [] then []
      else drainTrace db rowScan (popped db scan maxRows range) last
  | a => [step db a]

theorem sweepTrace_last (maxRows : Nat) (range : ShardRange) (fuel : Nat) (scans : Nat → Scan Uuid)
    (total : Nat) (db : Db) : (sweepTrace maxRows range fuel scans total db).getLastD db =
      sweepRounds maxRows range fuel scans total db := by
  induction fuel generalizing total db with
  | zero => rfl
  | succ fuel ih =>
    simp only [sweepTrace, sweepRounds, getLastD_cons]
    split
    · rfl
    · exact ih _ _

theorem requestTrace_last (db : Db) (scans : Nat → Scan Uuid) (id : Uuid) :
    (requestTrace db scans id).getLastD db = requestResourceDeletion db scans id := by
  simp only [requestTrace, requestResourceDeletion]
  split
  · simp only [getLastD_cons]
    exact sweepTrace_last _ _ _ _ _ _
  · rfl

theorem statements_last (db : Db) (a : Action) : (statements db a).getLastD db = step db a := by
  cases a with
  | requestResourceDeletion scans id => exact requestTrace_last db scans id
  | sweepDeletable scans n range => exact sweepTrace_last _ _ _ _ _ _
  | drainOutboxBatch scan rowScan order n range =>
    simp only [statements, step]
    cases done : drainOutboxBatch db scan rowScan order n range with
    | none => rfl
    | some last =>
      simp only
      split
      · rename_i none
        exact drainOutboxBatch_none none done
      · rfl
  | _ => rfl

/-! ## The invariant along a run -/

theorem Ordered.of_removed (queued : ∀ q ∈ db'.workQueue, q.taskType = .delete →
      (∀ p ∈ db.workQueue, p.id ≠ q.id) → Clear db q.resourceId)
    (removed : ∀ r ∈ db.resources, ¬ Stored db' r.id → Clear db r.id) : Ordered db db' := by
  refine ⟨queued, removed, fun r here _ p owned stored => ?_⟩
  by_contra gone
  obtain ⟨s, there, rfl⟩ := stored
  exact (removed s there gone r.id).1 ⟨r, here, rfl, owned⟩

theorem TreeStep.ordered (step : TreeStep db db') (good : InOrder db) : Ordered db db' := by
  cases step with
  | dispatch step =>
    refine .of_removed (fun q listed type _ => ?_) fun r here gone => ?_
    · exact (step.underway _ (.inl ⟨q, listed, type, rfl⟩)).elim (good.clear _) fun clear => clear
    · exact absurd (step.tree.stored ⟨r, here, rfl⟩) gone
  | mark id =>
    refine .of_removed (fun q listed _ new => absurd rfl (new q listed)) fun r here gone => ?_
    exact absurd (stored_markRows.mpr ⟨r, here, rfl⟩) gone
  | remove ids clear =>
    refine .of_removed (fun q listed _ new => ?_) fun r here gone => ?_
    · exact absurd rfl (new q (mem_deleteWhere.mp listed).1)
    · rw [stored_deleteResources, not_and, not_not] at gone
      exact clear r.id (cascaded_childless (fun s named b => (clear s named b).1) (gone ⟨r, here, rfl⟩))

/-- The statements of a deletion request and of a sweep. -/
inductive SweepStep : Db → Db → Prop
  | mark {db : Db} (id : Uuid) : SweepStep db (markRows db id)
  | schedule {db : Db} (id : Uuid) : SweepStep (markRows db id) (cascadeMarkForDeletion db id)
  | enqueue {db : Db} (scan : Scan Uuid) (n : Nat) (range : ShardRange) :
      SweepStep db (sweepEnqueue db scan n range)
  | remove {db : Db} (scan : Scan Uuid) (n : Nat) (range : ShardRange) :
      SweepStep db (sweepDelete db scan n range)

theorem sweepEnqueue_only (db : Db) (scan : Scan Uuid) (n : Nat) (range : ShardRange) :
    OnlySchedules db (sweepEnqueue db scan n range) :=
  enqueueAll_only _ _ _

section Chains

variable {R : Db → Db → Prop} (enqueue : ∀ s scan n range, R s (sweepEnqueue s scan n range))
  (remove : ∀ s scan n range, R s (sweepDelete s scan n range))

include enqueue remove

theorem sweepTrace_isChain (n : Nat) (range : ShardRange) (fuel : Nat) (scans : Nat → Scan Uuid)
    (total : Nat) (db : Db) : (db :: sweepTrace n range fuel scans total db).IsChain R := by
  induction fuel generalizing total db with
  | zero => exact .singleton db
  | succ fuel ih =>
    simp only [sweepTrace, isChain_cons_cons]
    refine ⟨enqueue db (scans fuel) n range, remove _ (scans fuel) n range, ?_⟩
    split
    · exact .singleton _
    · exact ih _ _

theorem requestTrace_isChain {id : Uuid} (mark : ∀ s, R s (markRows s id))
    (schedule : ∀ s, R (markRows s id) (cascadeMarkForDeletion s id)) (db : Db)
    (scans : Nat → Scan Uuid) : (db :: requestTrace db scans id).IsChain R := by
  unfold requestTrace
  split
  · simp only [isChain_cons_cons]
    exact ⟨mark db, schedule db, sweepTrace_isChain enqueue remove _ _ _ _ _ _⟩
  · exact .singleton db

end Chains

theorem sweepTrace_chain (n : Nat) (range : ShardRange) (fuel : Nat) (scans : Nat → Scan Uuid) (total : Nat)
    (db : Db) : (db :: sweepTrace n range fuel scans total db).IsChain SweepStep :=
  sweepTrace_isChain (fun _ => .enqueue) (fun _ => .remove) _ _ _ _ _ _

theorem requestTrace_chain (db : Db) (scans : Nat → Scan Uuid) (id : Uuid) :
    (db :: requestTrace db scans id).IsChain SweepStep :=
  requestTrace_isChain (fun _ => .enqueue) (fun _ => .remove) (fun _ => .mark id)
    (fun _ => .schedule id) db scans

theorem SweepStep.tree (step : SweepStep db db') (closed : Closed db) : TreeStep db db' := by
  cases step with
  | mark id => exact .mark id
  | schedule id =>
    exact .dispatch ((cascadeMark_schedules _ id).dispatches fun _ => Label.Calm.tame)
  | enqueue scan n range =>
    refine .dispatch (enqueueAll_dispatches fun r picked => ?_)
    obtain ⟨here, ready⟩ := mem_filter.mp (Scan.mem_of_mem_pick picked)
    simp only [teardownReady, Bool.and_eq_true] at ready
    exact closed.clear_of_gate here ready.1.1.1
  | remove scan n range =>
    refine .remove _ fun id named => ?_
    obtain ⟨r, picked, rfl⟩ := mem_map.mp named
    obtain ⟨here, ready⟩ := mem_filter.mp (Scan.mem_of_mem_pick picked)
    simp only [removable, Bool.and_eq_true] at ready
    exact closed.clear_of_gate here ready.1.1

theorem SweepStep.trees {l : List Db} (chain : (db :: l).IsChain SweepStep) (good : InOrder db) :
    (db :: l).IsChain TreeStep :=
  (chain_keeps (fun _ _ step h => ⟨(step.tree h.closed).inOrder h, step.tree h.closed⟩) chain good).1

/-- Results leave the outbox, operations are finalized and finalizers stripped: nothing
the tree reads. -/
theorem stripped_effects {results : List OutboxRow} (waiting : ∀ o ∈ results, o ∈ db.workOutbox)
    (distinct : results.Nodup) : Effects Label.Tame db
      (stripFinalizers (finalizeOperations (takeResults db results) results) results) := by
  refine (taken_effects trivial trivial waiting distinct).trans ?_
  exact stripFinalizers_effects (fun _ => Label.Calm.tame) trivial fun o h => mem_append_left _ h

theorem drainTrace_steps (good : InOrder db) {scan rowScan : Scan Uuid} {order : Nat → Nat}
    {n : Nat} {range : ShardRange} (some_ : popped db scan n range ≠ [])
    (done : drainOutboxBatch db scan rowScan order n range = some db') :
    (db :: drainTrace db rowScan (popped db scan n range) db').IsChain TreeStep := by
  let results := popped db scan n range
  let stripped := stripFinalizers (finalizeOperations (takeResults db results) results) results
  have strip : TreeStep db stripped :=
    .dispatch ((stripped_effects popped_waiting popped_nodup).dispatches fun _ h => h)
  have torn := strip.inOrder good
  have remove : TreeStep stripped (removeTornDown stripped rowScan results) := by
    refine .remove _ fun id named => ?_
    obtain ⟨r, picked, rfl⟩ := mem_map.mp named
    obtain ⟨here, ready⟩ := mem_filter.mp picked
    simp only [Bool.and_eq_true] at ready
    exact Closed.clear_of_gate torn.closed here ready.1.1.2
  have requeue : TreeStep (removeTornDown stripped rowScan results)
      (requeueTeardowns (removeTornDown stripped rowScan results) results) := by
    refine .dispatch (enqueueAll_dispatches fun r listed => ?_)
    obtain ⟨-, failed⟩ := mem_filter.mp (mem_byId.mp listed)
    simp only [Bool.and_eq_true, any_eq_true, decide_eq_true_eq] at failed
    obtain ⟨⟨⟨o, reported, ⟨type, -⟩, same⟩, -⟩, -⟩ := failed
    -- its teardown was underway before the drain, when it waited for nothing
    have before : Clear db r.id :=
      good.clear _ (.inr (.inr ⟨o, popped_waiting o reported, type, same⟩))
    have tree : SameTree db stripped :=
      ((stripped_effects popped_waiting popped_nodup).tame fun _ h => h).1
    exact (tree.clear good.linked before).of_le fun b => waits_deleteResources
  have rest : TreeStep (requeueTeardowns (removeTornDown stripped rowScan results) results) db' :=
    .dispatch ((drained_effects (Writable.tame _) trivial (fun _ _ => trivial) some_
      done).dispatches fun _ h => h)
  simp only [drainTrace, isChain_cons_cons]
  exact ⟨strip, remove, requeue, rest, .singleton db'⟩

/-- Neither a compose nor the orphan sweep, the other two ways rows are torn down. -/
def Action.ByRequest : Action → Prop
  | .applyComposeResult _ _ _ _ | .sweepExpiredOrphans _ _ _ => False
  | _ => True

theorem statements_steps (good : InOrder db) {a : Action} (requested : a.ByRequest) :
    (db :: statements db a).IsChain TreeStep := by
  have tame (tame : a.Tame) : [db, step db a].IsChain TreeStep := by
    simp only [isChain_cons_cons]
    exact ⟨.dispatch ((step_tame db tame).dispatches fun _ h => h), .singleton _⟩
  cases a with
  | requestResourceDeletion scans id => exact SweepStep.trees (requestTrace_chain db scans id) good
  | sweepDeletable scans n range => exact SweepStep.trees (sweepTrace_chain _ _ _ _ _ db) good
  | drainOutboxBatch scan rowScan order n range =>
    simp only [statements]
    cases done : drainOutboxBatch db scan rowScan order n range with
    | none => exact .singleton db
    | some last =>
      simp only
      split
      · exact .singleton db
      · exact drainTrace_steps good (by assumption) done
  | applyComposeResult env t out pol | sweepExpiredOrphans scan n range => exact requested.elim
  | _ => exact tame trivial

/-- What every statement keeps, every run that tears down by request only keeps. -/
theorem run_keeps {I : Db → Prop} (each : ∀ s s', TreeStep s s' → I s → I s') (good : InOrder db)
    (start : I db) {actions : List Action} (requested : ∀ a ∈ actions, a.ByRequest) :
    InOrder (run db actions) ∧ I (run db actions) := by
  induction actions generalizing db with
  | nil => exact ⟨good, start⟩
  | cons a rest ih =>
    have chain := statements_steps good (requested a (.head _))
    obtain ⟨-, next⟩ := chain_keeps (I := fun s => InOrder s ∧ I s)
      (fun s s' step h => ⟨⟨step.inOrder h.1, each s s' step h.2⟩, step⟩) chain ⟨good, start⟩
    rw [statements_last] at next
    exact ih next.1 next.2 fun b h => requested b (.tail _ h)

/-- Nothing is marked and no teardown is queued, handed out or reported. -/
structure Untouched (db : Db) : Prop where
  unmarked : ∀ id, ¬ Marked db id
  idle : ∀ id, ¬ Underway db id

theorem Untouched.of_rows (rows : ∀ r ∈ db.resources.rows, r.marked = false)
    (queue : ∀ q ∈ db.workQueue.rows, q.taskType ≠ .delete) (tasks : ∀ t ∈ db.tasks, t.taskType ≠ .delete)
    (outbox : ∀ o ∈ db.workOutbox.rows, o.taskType ≠ .delete) : Untouched db where
  unmarked id marked := by
    obtain ⟨r, here, -, mark⟩ := marked
    rw [rows r here] at mark
    cases mark
  idle id underway := by
    rcases underway with ⟨q, here, type, -⟩ | ⟨t, here, type, -⟩ | ⟨o, here, type, -⟩
    · exact queue q here type
    · exact tasks t here type
    · exact outbox o here type

theorem Untouched.inOrder (untouched : Untouched db) (forest : Forest db) : InOrder db where
  linked := forest.linked
  closed a _ marked := absurd marked (untouched.unmarked a)
  clear id underway := absurd underway (untouched.idle id)

/-- **Teardown runs bottom-up.**  From any forest with acyclic edges between siblings,
along any run that neither composes nor sweeps orphans, every statement of every next
action queues teardowns for and removes only rows that own nothing and that nothing
depends on; no row is ever removed by cascade. -/
theorem teardown_in_order (forest : Forest db) (untouched : Untouched db) {actions : List Action}
    (requested : ∀ a ∈ actions, a.ByRequest) {next : Action} (nextRequested : next.ByRequest) :
    (run db actions :: statements (run db actions) next).IsChain Ordered := by
  obtain ⟨good, -⟩ := run_keeps (I := fun _ => True) (fun _ _ _ h => h)
    (untouched.inOrder forest) trivial requested
  have chain := statements_steps good nextRequested
  exact (chain_keeps (fun s s' step h => ⟨step.inOrder h, step.ordered h⟩) chain good).1

end Order

/-- A root `app/a` with a network and a machine that depends on it, both with a
finalizer. -/
def networkTree : List Action :=
  composing "app" (fun _ => 0) (· ++ "/destroy")
    ⟨[child "net" "n", child "vm" "v"], [⟨⟨"vm", "v"⟩, ⟨"net", "n"⟩, []⟩], []⟩
    [seedKind "net" (some "net/destroy"), seedKind "vm" (some "vm/destroy"),
      applyRoot "app" "a", claimAll "b" "app" .reconcile]

theorem networkTree_forest : letI := counting
    Forest (run Db.empty networkTree) ∧ Untouched (run Db.empty networkTree) := by
  let _ := counting
  refine ⟨.of_ascending ?_ ?_, .of_rows ?_ ?_ ?_ ?_⟩ <;> decide +kernel

/-- Deleting the root queues the teardown of the machine and not of the network; a
sweep after it keeps the order. -/
theorem teardown_in_order_network : letI := counting
    let db := run Db.empty networkTree
    let request := Action.requestResourceDeletion (fun _ => Scan.plain) 0
    let sweep := Action.sweepDeletable (fun _ => Scan.plain) 10 ShardRange.full
    Forest db ∧ Untouched db ∧ deleteQueued (run db [request]) 3 = true ∧
      deleteQueued (run db [request]) 2 = false ∧
      (run db [request] :: statements (run db [request]) sweep).IsChain Ordered := by
  let _ := counting
  intro db request sweep
  obtain ⟨forest, untouched⟩ := networkTree_forest
  refine ⟨forest, untouched, by decide +kernel, by decide +kernel, ?_⟩
  exact teardown_in_order forest untouched (by simp [request, Action.ByRequest]) trivial

section Progress

variable [Postgres] {db db' : Db} {id : Uuid}

/-! ## Progress -/

/-- The row is gone or its teardown queued. -/
def Moved (db : Db) (id : Uuid) : Prop := ¬ Stored db id ∨ deleteQueued db id = true

theorem Moved.sweepEnqueue (h : Moved db id) (scan : Scan Uuid) (n : Nat)
    (range : ShardRange) : Moved (sweepEnqueue db scan n range) id := by
  refine h.imp (fun gone => ?_) fun queued => ?_
  · rwa [Stored, (sweepEnqueue_only db scan n range).resources]
  · exact deleteQueued_iff.mpr ((deleteQueued_iff.mp queued).enqueueAll _)

theorem Queued.delete {taskType : TaskType} {ids : List Uuid} (h : Queued db id taskType)
    (stays : id ∉ cascaded db ids) : Queued (deleteResources db ids) id taskType := by
  obtain ⟨q, here, rfl, type⟩ := h
  exact ⟨q, mem_deleteWhere.mpr ⟨here, decide_eq_false stays⟩, rfl, type⟩

theorem Moved.delete (h : Moved db id) (ids : List Uuid) : Moved (deleteResources db ids) id := by
  by_cases taken : id ∈ cascaded db ids
  · exact .inl fun stored => (stored_deleteResources.mp stored).2 taken
  · refine h.imp (fun gone stored => gone (stored_deleteResources.mp stored).1) fun queued => ?_
    exact deleteQueued_iff.mpr ((deleteQueued_iff.mp queued).delete taken)

theorem Moved.sweepRounds (h : Moved db id) (n : Nat) (range : ShardRange) (fuel : Nat)
    (scans : Nat → Scan Uuid) (total : Nat) : Moved (sweepRounds n range fuel scans total db) id := by
  induction fuel generalizing total db with
  | zero => exact h
  | succ fuel ih =>
    have round := (h.sweepEnqueue (scans fuel) n range).delete
      ((sweepPicked (Kernel.sweepEnqueue db (scans fuel) n range) (scans fuel) n range).map (·.id))
    simp only [Kernel.sweepRounds]
    split
    · exact round
    · exact ih round _

theorem sweepEnqueue_unblocked (db : Db) (scan : Scan Uuid) (n : Nat) (range : ShardRange) :
    unblocked (sweepEnqueue db scan n range) = unblocked db := by
  have only := sweepEnqueue_only db scan n range
  funext s
  simp only [unblocked, hasChild, hasMarkedDependent, Db.resource?, only.resources, only.deps]

/-- The first round of a sweep moves an unblocked row, if there is one. -/
theorem sweep_first {r : Resource} (here : r ∈ db.resources) (free : unblocked db r = true)
    (named : QueueNamed db) {scan : Scan Uuid} (unlocked : ∀ id, scan.locked id = false) {n : Nat}
    (room : 0 < n) : ∃ id, Marked db id ∧ (deleteQueued db id = true ∨
      Moved (sweepDelete (sweepEnqueue db scan n ShardRange.full) scan n ShardRange.full) id) := by
  have marked {s : Resource} (stored : s ∈ db.resources) (free : unblocked db s = true) : Marked db s.id :=
    (marked_of_mem stored).mpr (unblocked_iff.mp free).1
  by_cases queued : deleteQueued db r.id = true
  · exact ⟨r.id, marked here free, .inl queued⟩
  by_cases done : r.finalizers.isEmpty = true
  · have only := sweepEnqueue_only db scan n ShardRange.full
    have same := sweepEnqueue_unblocked db scan n ShardRange.full
    have listed : r ∈ (sweepEnqueue db scan n ShardRange.full).resources.rows.filter
        (removable (sweepEnqueue db scan n ShardRange.full) ShardRange.full) := by
      rw [only.resources]
      refine mem_filter.mpr ⟨here, ?_⟩
      simp only [removable, same, free, done, ShardRange.full_covers, Bool.and_self]
    have some_ : sweepPicked (sweepEnqueue db scan n ShardRange.full) scan n ShardRange.full ≠ [] :=
      Scan.pick_ne_nil room listed (unlocked r.id)
    obtain ⟨s, picked⟩ := exists_mem_of_ne_nil _ some_
    obtain ⟨stored, ok⟩ := mem_filter.mp (Scan.mem_of_mem_pick picked)
    rw [only.resources] at stored
    simp only [removable, same, Bool.and_eq_true] at ok
    refine ⟨s.id, marked stored ok.1.1, .inr (.inl fun left => ?_)⟩
    refine (stored_deleteResources.mp left).2 (mem_cascaded.mpr ?_)
    exact ⟨s.id, mem_map_of_mem picked, ⟨s, only.resources ▸ stored, rfl⟩, .refl⟩
  · have listed : r ∈ db.resources.rows.filter (teardownReady db ShardRange.full) := by
      refine mem_filter.mpr ⟨here, ?_⟩
      simp only [teardownReady, free, done, queued, ShardRange.full_covers, Bool.not_false, Bool.and_self]
    have some_ : scan.lockless.pick (·.id) Scan.unordered n
        (db.resources.rows.filter (teardownReady db ShardRange.full)) ≠ [] :=
      Scan.pick_ne_nil room listed rfl
    obtain ⟨s, picked⟩ := exists_mem_of_ne_nil _ some_
    obtain ⟨stored, ok⟩ := mem_filter.mp (Scan.mem_of_mem_pick picked)
    simp only [teardownReady, Bool.and_eq_true] at ok
    have queues : Moved (sweepEnqueue db scan n ShardRange.full) s.id :=
      .inr (deleteQueued_iff.mpr (enqueueAll_queued named picked))
    exact ⟨s.id, marked stored ok.1.1.1, .inr (queues.delete _)⟩

/-- In an ordered forest some marked row passes the gate. -/
theorem exists_unblocked (forest : Forest db) (good : InOrder db)
    (left : Marked db id) : ∃ r ∈ db.resources, unblocked db r = true := by
  have finite : {a | Marked db a}.Finite := by
    refine (finite_toSet (db.resources.rows.map (·.id))).subset ?_
    rintro a ⟨r, here, rfl, -⟩
    exact mem_map_of_mem here
  obtain ⟨a, marked, free⟩ := Blocking.exists_free forest.waits_acyclic finite ⟨id, left⟩
  have clear : ∀ b, ¬ Waits db a b := fun b waits => free b (good.closed a b marked waits) waits
  obtain ⟨r, here, rfl, mark⟩ := marked
  refine ⟨r, here, unblocked_iff.mpr ⟨mark, fun b => ⟨fun owned => clear b (.inl owned), ?_⟩⟩⟩
  exact fun dependent _ => clear b (.inr dependent)

/-- **Teardown never deadlocks.**  From any forest with acyclic edges between siblings,
along any run that neither composes nor sweeps orphans: while a marked row is left, any
sweep over all shards that finds no row locked removes some marked row or leaves its
teardown queued, or its teardown was queued already. -/
theorem teardown_progress (forest : Forest db) (untouched : Untouched db) (named : QueueNamed db)
    {actions : List Action} (requested : ∀ a ∈ actions, a.ByRequest) {id : Uuid}
    (left : Marked (run db actions) id) {scans : Nat → Scan Uuid}
    (unlocked : ∀ k id, (scans k).locked id = false) {maxRows : Nat} (room : 0 < maxRows) :
    ∃ id, Marked (run db actions) id ∧ (deleteQueued (run db actions) id = true ∨
      ¬ Stored (sweepDeletable (run db actions) scans maxRows ShardRange.full) id ∨
      deleteQueued (sweepDeletable (run db actions) scans maxRows ShardRange.full) id = true) := by
  obtain ⟨good, still⟩ := run_keeps (fun _ _ step h => step.forest h)
    (untouched.inOrder forest) forest requested
  obtain ⟨r, here, free⟩ := exists_unblocked still good left
  let fuel := 2 * (run db actions).resources.rows.length
  obtain ⟨a, marked, queued | moved⟩ :=
    sweep_first here free (run_queueNamed named actions) (unlocked fuel) room
  · exact ⟨a, marked, .inl queued⟩
  · refine ⟨a, marked, .inr ?_⟩
    unfold sweepDeletable
    simp only [sweepRounds]
    split
    · exact moved
    · exact moved.sweepRounds _ _ _ _ _

end Progress

/-- After the root's deletion request a sweep still has the machine's teardown to wait
for: it is queued, and the theorem names a row. -/
theorem teardown_progress_network : letI := counting
    let db := run Db.empty networkTree
    let request := Action.requestResourceDeletion (fun _ => Scan.plain) 0
    let swept := sweepDeletable (run db [request]) (fun _ => Scan.plain) 10 ShardRange.full
    Marked (run db [request]) 2 ∧ ∃ id, Marked (run db [request]) id ∧
      (deleteQueued (run db [request]) id = true ∨ ¬ Stored swept id ∨ deleteQueued swept id = true) := by
  let _ := counting
  intro db request swept
  obtain ⟨forest, untouched⟩ := networkTree_forest
  have left : Marked (run db [request]) 2 := by
    show ∃ r ∈ (run db [request]).resources.rows, r.id = 2 ∧ r.marked = true
    decide +kernel
  refine ⟨left, ?_⟩
  have named : QueueNamed db := run_queueNamed (fun q here => absurd here (notMem_empty q)) _
  exact teardown_progress forest untouched named (by simp [request, Action.ByRequest]) left
    (fun _ _ => rfl) (by decide)

end Converge.Kernel
