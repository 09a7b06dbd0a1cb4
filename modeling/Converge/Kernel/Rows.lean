/-
# Kernel.Rows -- one resource row along a run of effects

Ids are drawn once, so a resource that exists after a run and whose id was known before
it is the same row, changed only by the row updates of the run.  `Effects.tracks`
turns a relation that every allowed update respects into one between the two ends; the
lemmas after it say which tables a run without certain effects leaves alone.
-/
import Converge.Kernel.Lease

namespace Converge.Kernel

open Converge.Theory Table

set_option autoImplicit false
set_option linter.unusedSectionVars false

variable [Postgres] {db db' : Db} {allow : Label → Prop}
variable {l : Label} {r' r : Resource} {P : Resource → Prop} {R : Resource → Resource → Prop}
    {q' : WorkQueueRow} {results : List OutboxRow}

/-! ## Ids -/

theorem Effect.drawn_le (effect : Effect l db db') : db.drawn ≤ db'.drawn := by
  cases effect with
  | aux same => exact same.drawn
  | ops t n grows unsettled => exact grows
  | insert r born free | enqueue cause w new free => exact Nat.le_succ _
  | _ => exact Nat.le_refl _

theorem Effects.drawn_le (run : Effects allow db db') : db.drawn ≤ db'.drawn :=
  Steps.keeps (I := fun s => db.drawn ≤ s.drawn) (fun _ effect le => le.trans effect.drawn_le) run
    (Nat.le_refl _)

/-! ## Rows -/

theorem mem_deleteResources {ids : List Uuid} (after : r' ∈ (deleteResources db ids).resources) :
    ∃ r ∈ db.resources, r.id ∉ cascaded db ids ∧ (r' = r ∨ r' = { r with providerConfigId := none }) := by
  unfold deleteResources at after
  simp only [mem_updateWhere] at after
  obtain ⟨r, kept, eq⟩ := after
  obtain ⟨here, out⟩ := mem_deleteWhere.mp kept
  refine ⟨r, here, of_decide_eq_false out, ?_⟩
  split at eq
  · exact Or.inr eq.symm
  · exact Or.inl eq.symm

/-- What an update may do to a row, for every update that is allowed. -/
structure Respects (allow : Label → Prop) (R : Resource → Resource → Prop) : Prop where
  refl : ∀ r, R r r
  trans : ∀ {a b c : Resource}, R a b → R b c → R a c
  quiet : ∀ {a b : Resource}, Quiet a b → R a b
  row : ∀ {k : RowKind} {db : Db} {a b : Resource}, allow (.row k) → a ∈ db.resources → RowStep db a b k → R a b

/-- One effect either inserts a row with a new id, under the owner the label names, or updates the rows
there are. -/
theorem Effect.rows (respects : Respects allow R)
    (ok : allow l) (effect : Effect l db db') (after : r' ∈ db'.resources) :
    (l = .insert r'.ownerId ∧ Born db r' ∧ db'.drawn = db.drawn + 1) ∨
      ∃ r ∈ db.resources, r.id = r'.id ∧ R r r' := by
  have same (here : r' ∈ db.resources) : (l = .insert r'.ownerId ∧ Born db r' ∧ db'.drawn = db.drawn + 1) ∨
      ∃ r ∈ db.resources, r.id = r'.id ∧ R r r' :=
    .inr ⟨r', here, rfl, respects.refl r'⟩
  cases effect with
  | aux core => exact same (core.resources ▸ after)
  | insert r born free =>
    rcases (mem_push free).mp after with rfl | old
    · exact .inl ⟨rfl, born, rfl⟩
    · exact same old
  | row k p f keeps rows =>
    rw [mem_updateWhere] at after
    obtain ⟨r, here, rfl⟩ := after
    refine Or.inr ⟨r, here, ?_⟩
    split
    · rename_i picked
      exact ⟨(rows r here picked).same.id.symm, respects.row ok here (rows r here picked)⟩
    · exact ⟨rfl, respects.refl r⟩
  | delete ids =>
    obtain ⟨r, here, -, rfl | rfl⟩ := mem_deleteResources after
    · exact same here
    · refine Or.inr ⟨r, here, rfl, respects.quiet ?_⟩
      constructor <;> first | rfl | exact fun h => h | (constructor <;> rfl)
  | _ => exact same after

/-- A row after a run comes from a row of its id, or was inserted on the way and has what new rows
have. -/
theorem Effects.tracks_or_born (respects : Respects allow R)
    (fresh : ∀ {s : Db} {r : Resource}, Born s r → P r) (keeps : ∀ {a b : Resource}, R a b → P a → P b)
    (run : Effects allow db db') (after : r' ∈ db'.resources) :
    (∃ r ∈ db.resources, r.id = r'.id ∧ R r r') ∨ ¬ db.Drawn r'.id ∧ P r' := by
  induction run generalizing r' with
  | refl => exact .inl ⟨r', after, rfl, respects.refl r'⟩
  | tail before last ih =>
    obtain ⟨l, ok, effect⟩ := last
    rcases effect.rows respects ok after with ⟨-, born, -⟩ | ⟨r, here, same, step⟩
    · refine .inr ⟨fun drawn => ?_, fresh born⟩
      have known := drawn.mono (Effects.drawn_le before)
      rw [born.id] at known
      exact not_drawn_next _ known
    · rcases ih here with ⟨r₀, here₀, same₀, steps⟩ | ⟨new, kept⟩
      · exact .inl ⟨r₀, here₀, same₀.trans same, respects.trans steps step⟩
      · exact .inr ⟨same ▸ new, keeps step kept⟩

/-- **The row behind a row.**  Along a run, a row whose id was drawn before it comes
from a row of that id, by allowed updates. -/
theorem Effects.tracks (respects : Respects allow R) (run : Effects allow db db') (after : r' ∈ db'.resources)
    (known : db.Drawn r'.id) : ∃ r ∈ db.resources, r.id = r'.id ∧ R r r' :=
  (run.tracks_or_born (P := fun _ => True) respects (fun _ => trivial) (fun _ _ => trivial) after).resolve_right
    fun new => new.1 known

/-- A property of fresh rows that every allowed update keeps holds of all rows. -/
theorem Effect.rows_keep (respects : Respects allow fun a b => P a → P b)
    (fresh : ∀ {db : Db} {r}, Born db r → P r) (ok : allow l) (effect : Effect l db db')
    (before : ∀ r ∈ db.resources, P r) : ∀ r ∈ db'.resources, P r := by
  intro r' after
  rcases effect.rows respects ok after with ⟨-, born, -⟩ | ⟨r, here, -, kept⟩
  · exact fresh born
  · exact kept (before r here)

theorem Reachable.rows_keep (respects : Respects (fun _ => True) fun a b => P a → P b)
    (fresh : ∀ {db : Db} {r}, Born db r → P r) (h : Reachable db) : ∀ r ∈ db.resources, P r := by
  refine Reachable.induction (I := fun s => ∀ r ∈ s.resources, P r)
    (fun r here => absurd here (notMem_empty r)) (fun db a before => ?_) h
  exact Steps.keeps (fun _ effect => effect.rows_keep respects fresh trivial) (step_effects db a) before

/-- Every resource id has been drawn. -/
def Named (db : Db) : Prop := ∀ r ∈ db.resources, db.Drawn r.id

theorem respects_true : Respects allow fun _ _ => True where
  refl _ := trivial
  trans _ _ := trivial
  quiet _ := trivial
  row _ _ _ := trivial

theorem respects_sameRow : Respects allow SameRow where
  refl _ := ⟨rfl, rfl, rfl, rfl, rfl⟩
  trans ab bc := ⟨bc.id.trans ab.id, bc.kind.trans ab.kind, bc.name.trans ab.name,
    bc.ownerId.trans ab.ownerId, bc.rootId.trans ab.rootId⟩
  quiet q := q.toSameRow
  row _ _ step := step.same

theorem respects_grows : Respects allow fun r r' => r.generation ≤ r'.generation where
  refl _ := Nat.le_refl _
  trans := Nat.le_trans
  quiet q := q.generation.ge
  row {k _ a b} _ _ step := by
    cases k with
    | write => exact (Written.generation step).ge.trans' (Nat.le_succ _)
    | result results =>
      obtain ⟨o, -, -, rfl⟩ := step
      exact Nat.le_refl _
    | _ => exact (step.sameAxes trivial).generation.ge

/-- What happens to a row while no result is applied to it: its generation and its mark may
come, its counters stay. -/
structure Unreported (r r' : Resource) : Prop where
  generation : r.generation ≤ r'.generation
  syncedGen : r'.syncedGen = r.syncedGen
  healthOk : r'.healthOk = r.healthOk
  failureGen : r'.failureGen = r.failureGen
  failureTerminal : r'.failureTerminal = r.failureTerminal
  mark : r'.marked = false → r.marked = false

theorem SameAxes.unreported (same : SameAxes r r') : Unreported r r' := by
  refine ⟨same.generation.ge, same.syncedGen, same.healthOk, same.failureGen, same.failureTerminal, fun h => ?_⟩
  exact Bool.eq_false_of_not_eq_true fun marked => nomatch h.symm.trans (same.marked marked)

theorem Written.unreported (w : Written r r') : Unreported r r' := by
  refine ⟨?_, w.syncedGen, w.healthOk, w.failureGen, w.failureTerminal, fun h => ?_⟩
  · rw [w.generation]
    exact Nat.le_succ _
  · rwa [Resource.marked, ← w.deletionRequestedAt]

theorem respects_unreported (noResult : ∀ rs, ¬ allow (.row (.result rs))) : Respects allow Unreported where
  refl r := ⟨Nat.le_refl _, rfl, rfl, rfl, rfl, id⟩
  trans ab bc :=
    ⟨ab.generation.trans bc.generation, bc.syncedGen.trans ab.syncedGen,
      bc.healthOk.trans ab.healthOk, bc.failureGen.trans ab.failureGen,
      bc.failureTerminal.trans ab.failureTerminal, fun h => ab.mark (bc.mark h)⟩
  quiet q := q.sameAxes.unreported
  row {k _ a b} ok here step := by
    cases k with
    | write => exact Written.unreported step
    | result results => exact absurd ok (noResult results)
    | _ => exact (step.sameAxes trivial).unreported

theorem Effects.owned_before (run : Effects allow db db')
    (roots : ∀ owner, allow (.insert owner) → owner = none) (after : r' ∈ db'.resources)
    (owned : r'.ownerId ≠ none) : ∃ r ∈ db.resources, SameRow r r' := by
  refine Steps.keeps (I := fun s => ∀ r' ∈ s.resources, r'.ownerId ≠ none →
    ∃ r ∈ db.resources, SameRow r r') ?_ run (fun r h _ => ⟨r, h, rfl, rfl, rfl, rfl, rfl⟩)
    r' after owned
  intro l a b ok effect before r' after owned
  rcases effect.rows respects_sameRow ok after with ⟨rfl, -⟩ | ⟨r, here, -, same⟩
  · exact absurd (roots _ ok) owned
  · obtain ⟨r₀, here₀, same₀⟩ := before r here (same.ownerId ▸ owned)
    exact ⟨r₀, here₀, (respects_sameRow : Respects allow SameRow).trans same₀ same⟩

theorem Effect.named (effect : Effect l db db') (named : Named db) : Named db' := by
  intro r' after
  rcases effect.rows (respects_true : Respects (fun _ => True) _) trivial after with
    ⟨-, born, next⟩ | ⟨r, here, same, -⟩
  · exact ⟨db.drawn, by omega, born.id.symm⟩
  · exact same ▸ (named r here).mono effect.drawn_le

theorem Reachable.named (h : Reachable db) : Named db := by
  refine h.induction (fun r here => absurd here (notMem_empty r)) fun db a named => ?_
  exact Steps.keeps (fun _ effect => effect.named) (step_effects db a) named

/-- Every queue id has been drawn, so a new one is not taken. -/
def QueueNamed (db : Db) : Prop := ∀ q ∈ db.workQueue, db.Drawn q.id

theorem queue_key {q : WorkQueueRow} (h : q.job = q'.job) :
    q.id = q'.id ∧ q.resourceId = q'.resourceId ∧ q.taskType = q'.taskType :=
  ⟨congrArg Job.id h, congrArg Job.resourceId h, congrArg Job.taskType h⟩

/-- What an effect makes of a queue row that it leaves. -/
inductive QueueStep (db : Db) (q : WorkQueueRow) : WorkQueueRow → Prop
  | same : QueueStep db q q
  | repoint {r : Resource} (here : r ∈ db.resources) (ready : eligible db r = true)
      (older : outdatedBy (workFor db .reconcile r) q = true) :
      QueueStep db q (repoint (workFor db .reconcile r) q)
  | claim (brokerId : String) : QueueStep db q (claimRow brokerId db.now q)
  | free : QueueStep db q (freeRow db.now q)
  | touch {q' : WorkQueueRow} (touched : Touched q q') : QueueStep db q q'

/-- A queue row was just enqueued, or comes from one that was there. -/
theorem Effect.queue_step (effect : Effect l db db') (after : q' ∈ db'.workQueue) :
    (∃ cause, l = .enqueue cause ∧ Enqueued db cause q' ∧ db'.drawn = db.drawn + 1) ∨
      ∃ q ∈ db.workQueue, QueueStep db q q' := by
  have update {p : WorkQueueRow → Bool} {f : WorkQueueRow → WorkQueueRow}
      (keeps : ∀ q, Keyed.key (f q) = Keyed.key q) (after : q' ∈ db.workQueue.updateWhere p f keeps)
      (each : ∀ q, p q = true → QueueStep db q (f q)) : ∃ q ∈ db.workQueue, QueueStep db q q' := by
    obtain ⟨q, here, rfl⟩ := mem_updateWhere.mp after
    refine ⟨q, here, ?_⟩
    split
    · exact each q ‹_›
    · exact .same
  cases effect with
  | aux core => exact .inr ⟨q', core.workQueue ▸ after, .same⟩
  | delete | remove | pop => exact .inr ⟨q', (mem_deleteWhere.mp after).1, .same⟩
  | enqueue cause w new free =>
    rcases (mem_push free).mp after with rfl | old
    · exact .inl ⟨cause, rfl, new, rfl⟩
    · exact .inr ⟨q', old, .same⟩
  | repoint r here ready => exact .inr (update (repoint_key _) after fun _ older => .repoint here ready older)
  | claim scan b => exact .inr (update (claimRow_key _ _) after fun _ _ => .claim b.brokerId)
  | reap | release => exact .inr (update (freeRow_key _) after fun _ _ => .free)
  | touch p f keeps rows => exact .inr (update keeps after fun q _ => .touch (rows q))
  | _ => exact .inr ⟨q', after, .same⟩

theorem Effect.queue (effect : Effect l db db') (after : q' ∈ db'.workQueue) :
    (∃ cause, l = .enqueue cause ∧ Enqueued db cause q' ∧ db'.drawn = db.drawn + 1) ∨
      ∃ q ∈ db.workQueue, q.job = q'.job := by
  refine (effect.queue_step after).imp_right fun ⟨q, here, step⟩ => ⟨q, here, ?_⟩
  cases step with
  | touch same => rw [WorkQueueRow.job, WorkQueueRow.job, same.id, same.resourceId, same.taskType, same.opId]
  | _ => rfl

theorem Effect.queueNamed (effect : Effect l db db') (named : QueueNamed db) : QueueNamed db' := by
  intro q' after
  rcases effect.queue after with ⟨cause, -, new, next⟩ | ⟨q, here, same⟩
  · exact ⟨db.drawn, by omega, new.id.symm⟩
  · exact (queue_key same).1 ▸ (named q here).mono effect.drawn_le

/-- Along a run, a queue row whose id was drawn before it comes from the row of that id. -/
theorem Effects.queue_tracks (run : Effects allow db db') (after : q' ∈ db'.workQueue)
    (known : db.Drawn q'.id) : ∃ q ∈ db.workQueue, q.job = q'.job := by
  induction run generalizing q' with
  | refl => exact ⟨q', after, rfl⟩
  | tail before last ih =>
    obtain ⟨l, ok, effect⟩ := last
    rcases effect.queue after with ⟨cause, -, new, -⟩ | ⟨q, here, key⟩
    · have drawn := known.mono (Effects.drawn_le before)
      rw [new.id] at drawn
      exact absurd drawn (not_drawn_next _)
    · obtain ⟨q₀, here₀, key₀⟩ := ih here ((queue_key key).1 ▸ known)
      exact ⟨q₀, here₀, key₀.trans key⟩

theorem run_queueNamed (named : QueueNamed db) (actions : List Action) : QueueNamed (run db actions) := by
  induction actions generalizing db with
  | nil => exact named
  | cons a rest ih =>
    exact ih (Steps.keeps (fun _ effect => effect.queueNamed) (step_effects db a) named)

theorem Reachable.queueNamed (reachable : Reachable db) : QueueNamed db := by
  obtain ⟨actions, rfl⟩ := reachable
  exact run_queueNamed (fun q here => absurd here (notMem_empty q)) actions

/-! ## Untouched tables -/

theorem Effects.drained_eq (run : Effects allow db db') (noPop : ∀ rs, ¬ allow (.pop rs)) :
    db'.drained = db.drained := by
  refine Steps.keeps (I := fun s => s.drained = db.drained) ?_ run rfl
  intro l a b ok effect same
  rw [← same]
  cases effect with
  | aux core => exact core.drained
  | pop results waiting distinct => exact absurd ok (noPop results)
  | _ => rfl

theorem Effects.outbox_subset (run : Effects allow db db') (noAppend : ¬ allow .append) :
    ∀ o ∈ db'.workOutbox, o ∈ db.workOutbox := by
  refine Steps.keeps (I := fun s => ∀ o ∈ s.workOutbox, o ∈ db.workOutbox) ?_ run fun _ h => h
  intro l a b ok effect sub o after
  refine sub o ?_
  cases effect with
  | aux core => exact core.workOutbox ▸ after
  | append o claimed token free => exact absurd ok noAppend
  | pop results waiting distinct => exact (mem_deleteWhere.mp after).1
  | _ => exact after

/-- `o` is a result of operation `x`. -/
def OutboxRow.Operates (o : OutboxRow) (x : Uuid) : Prop := o.taskType = .operate ∧ o.opId = some x
deriving Decidable

/-- The operation has the outcome `o` reports. -/
structure ResourceOperation.Outcome (op : ResourceOperation) (o : OutboxRow) : Prop where
  state : op.state = if o.succeeded then .succeeded else .failed
  output : op.output = o.payload
  errorMessage : op.errorMessage = o.errorMessage

theorem mem_finalizeOperations {op' : ResourceOperation}
    (after : op' ∈ (finalizeOperations db results).operations) :
    ∃ op ∈ db.operations, op.id = op'.id ∧ op.resourceId = op'.resourceId ∧
      (op' = op ∨ op.state = .running ∧ ∃ o ∈ results, o.Operates op'.id ∧ op'.Outcome o) := by
  unfold finalizeOperations at after
  simp only [mem_updateWhere] at after
  obtain ⟨op, here, rfl⟩ := after
  split
  next found =>
    obtain ⟨o, ho⟩ := Option.isSome_iff_exists.mp found
    have matched := List.find?_some ho
    simp only [Bool.and_eq_true, decide_eq_true_eq] at matched
    refine ⟨op, here, rfl, rfl, .inr ⟨matched.2, o, List.mem_of_find?_eq_some ho, matched.1, ?_⟩⟩
    constructor <;> simp only [ho, Option.elim_some]
  next => exact ⟨op, here, rfl, rfl, .inl rfl⟩

theorem Effects.operations (run : Effects allow db db')
    (drains : ∀ rs, allow (.finalize rs) → rs = results) {op : ResourceOperation}
    (after : op ∈ db'.operations) (final : op.final) :
    op ∈ db.operations ∨ ∃ o ∈ results, o.taskType = .operate ∧ o.opId = some op.id := by
  refine Steps.keeps (I := fun s => ∀ op ∈ s.operations, op.final → op ∈ db.operations ∨
    ∃ o ∈ results, o.taskType = .operate ∧ o.opId = some op.id) ?_ run (fun _ h _ => .inl h)
    op after final
  intro l a b ok effect before op after final
  cases effect with
  | aux core => exact before op (core.operations ▸ after) final
  | ops t n grows unsettled => exact before op (unsettled op after final) final
  | delete ids => exact before op (mem_deleteWhere.mp after).1 final
  | finalize rs drained =>
    obtain ⟨old, here, -, -, rfl | ⟨-, o, listed, operates, -⟩⟩ := mem_finalizeOperations after
    · exact before op here final
    · exact .inr ⟨o, drains rs ok ▸ listed, operates⟩
  | _ => exact before op after final

theorem Effects.edges (run : Effects allow db db') (kept : ¬ allow .rewire) :
    ∀ d' ∈ db'.deps, ∃ d ∈ db.deps, SameEnds d' d := by
  refine Steps.keeps (I := fun s => ∀ d' ∈ s.deps, ∃ d ∈ db.deps, SameEnds d' d) ?_ run
    fun d here => ⟨d, here, .refl d⟩
  intro l a b ok effect before d' after
  cases effect with
  | aux core => exact before d' (core.deps ▸ after)
  | delete ids => exact before d' (mem_deleteWhere.mp after).1
  | relabel t same =>
    obtain ⟨e, here, version⟩ := same d' after
    obtain ⟨d, there, same⟩ := before e here
    exact ⟨d, there, version.trans same⟩
  | rewire t => exact absurd ok kept
  | _ => exact before d' after

end Converge.Kernel
