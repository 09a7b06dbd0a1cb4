/-
# Guarantees.ResultOnce -- a claim counts at most once

Two appends may race under one claim: a timed-out task's late success and the failure
recorded for its deadline.  The outbox key admits one of them at a time, the epoch
check refuses what comes after the row moved on, and the drain removes the queue row
with the result, so the drained log holds at most one result of each claim.

Every advance of `synced_gen`, every increment of `failure_attempts`, every outcome of
an operation and every finalizer stripped is charged to a result that the same step
adds to that log (`Charged`).
-/
import Converge.Kernel.Rows

namespace Converge.Kernel

open Converge.Theory List Table

set_option autoImplicit false
set_option linter.unusedSectionVars false

variable {results : List OutboxRow} {a b : Resource}

section Results

variable [Postgres] {db db' : Db}

/-! ## The log -/

/-- `o` was returned under the claim of row `workId` that left `claimEpoch` in it. -/
def OutboxRow.ofClaim (workId : Uuid) (claimEpoch : Nat) (o : OutboxRow) : Bool :=
  o.workId = workId && o.task.claimEpoch = claimEpoch

theorem drained_epochs (good : Leases db) (id : Uuid) : (db.drained.filter (·.workId = id)).Pairwise fun o u =>
      o.task.claimEpoch ≠ u.task.claimEpoch := by
  have once : ((db.drained.filter (·.workId = id)).map (·.task.token)).Pairwise
      fun t u => t.epoch ≠ u.epoch := (good id).once
  have unmapped := pairwise_map.mp once
  exact unmapped

theorem drained_once (good : Leases db) (workId : Uuid) (claimEpoch : Nat) :
    (db.drained.filter (OutboxRow.ofClaim workId claimEpoch)).length ≤ 1 := by
  have sub : db.drained.filter (OutboxRow.ofClaim workId claimEpoch) =
      (db.drained.filter (·.workId = workId)).filter (·.task.claimEpoch = claimEpoch) := by
    rw [filter_filter]
    congr 1
    funext o
    simp [OutboxRow.ofClaim, Bool.and_comm]
  have distinct := (drained_epochs good workId).filter (·.task.claimEpoch = claimEpoch)
  rw [← sub] at distinct
  cases h : db.drained.filter (OutboxRow.ofClaim workId claimEpoch) with
  | nil => simp
  | cons o rest =>
    cases rest with
    | nil => simp
    | cons u rest =>
      -- two results of one claim have the same epoch
      have epoch : ∀ x ∈ o :: u :: rest, x.task.claimEpoch = claimEpoch := by
        intro x hx
        have := (mem_filter.mp (h ▸ hx)).2
        simp only [OutboxRow.ofClaim, Bool.and_eq_true, decide_eq_true_eq] at this
        exact this.2
      rw [h] at distinct
      have ne := (pairwise_cons.mp distinct).1 u mem_cons_self
      exact absurd ((epoch o (by simp)).trans (epoch u (by simp)).symm) ne

/-! ## Charges -/

/-- `o` is a successful teardown that strips finalizer `f` from the row of `id`. -/
structure StripsFrom (id : Uuid) (f : String) (o : OutboxRow) : Prop where
  taskType : o.taskType = .delete
  succeeded : o.succeeded = true
  resourceId : o.resourceId = id
  finalizerName : o.finalizerName = some f

/-- `o` is a transient failure of the row of `id`. -/
structure FailsOnce (id : Uuid) (o : OutboxRow) : Prop where
  taskType : o.taskType = .reconcile
  failed : o.failed = true
  transient : o.terminal = false
  resourceId : o.resourceId = id

/-- What happened to a row in a step that drained `results`. -/
structure Charged (results : List OutboxRow) (r r' : Resource) : Prop where
  syncedGen : r'.syncedGen = r.syncedGen ∨ ∃ o ∈ results, Advances r.id o ∧ r'.syncedGen = o.observedGeneration
  failureAttempts : r'.failureAttempts ≤ r.failureAttempts ∨
    (r'.failureAttempts = r.failureAttempts + 1 ∧ ∃ o ∈ results, FailsOnce r.id o)
  finalizers : ∀ f ∈ r.finalizers, f ∈ r'.finalizers ∨ ∃ o ∈ results, StripsFrom r.id f o

theorem Charged.refl (results : List OutboxRow) (r : Resource) : Charged results r r :=
  ⟨.inl rfl, .inl (Nat.le_refl _), fun _ hf => .inl hf⟩

/-- What happens to a row while no reconcile result is applied. -/
structure Unjudged (results : List OutboxRow) (r r' : Resource) : Prop where
  id : r'.id = r.id
  syncedGen : r'.syncedGen = r.syncedGen
  failureAttempts : r'.failureAttempts = r.failureAttempts
  marked : r.marked = true → r'.marked = true
  finalizers : r.marked = true → ∀ f ∈ r.finalizers, f ∈ r'.finalizers ∨ ∃ o ∈ results, StripsFrom r.id f o

theorem Unjudged.refl (results : List OutboxRow) (r : Resource) : Unjudged results r r :=
  ⟨rfl, rfl, rfl, fun h => h, fun _ _ h => .inl h⟩

theorem Unjudged.trans {c : Resource}
    (first : Unjudged results a b) (second : Unjudged results b c) : Unjudged results a c where
  id := second.id.trans first.id
  syncedGen := second.syncedGen.trans first.syncedGen
  failureAttempts := second.failureAttempts.trans first.failureAttempts
  marked h := second.marked (first.marked h)
  finalizers h f hf := by
    rcases first.finalizers h f hf with kept | stripped
    · have rest := second.finalizers (first.marked h) f kept
      rwa [first.id] at rest
    · exact Or.inr stripped

theorem Unjudged.of_quiet (h : Quiet a b) : Unjudged results a b where
  id := h.id
  syncedGen := h.syncedGen
  failureAttempts := h.failureAttempts
  marked := by simp [Resource.marked, h.deletionRequestedAt]
  finalizers _ f hf := Or.inl (h.finalizers ▸ hf)

theorem unjudged_respects {allow : Label → Prop} (results : List OutboxRow)
    (noResult : ∀ rs, ¬ allow (.row (.result rs))) (strips : ∀ rs, allow (.row (.strip rs)) → rs = results) :
    Respects allow (Unjudged results) where
  refl := Unjudged.refl results
  trans := Unjudged.trans
  quiet := Unjudged.of_quiet
  row {k db a b} ok here step := by
    cases k with
    | quiet => exact Unjudged.of_quiet step
    | write =>
      have step : Written a b := step
      exact ⟨step.id, step.syncedGen, step.failureAttempts, by simp [Resource.marked, step.deletionRequestedAt],
        fun _ f hf => Or.inl (step.finalizers ▸ hf)⟩
    | mark =>
      obtain ⟨unmarked, rfl⟩ := step
      exact ⟨rfl, rfl, rfl, fun h => by simp [h] at unmarked, fun h => by simp [h] at unmarked⟩
    | thaw id =>
      obtain ⟨-, rfl⟩ := step
      exact ⟨rfl, rfl, rfl, fun h => h, fun _ _ hf => .inl hf⟩
    | stamp =>
      obtain ⟨t, -, -, rfl⟩ := step
      exact ⟨rfl, rfl, rfl, fun h => h, fun _ _ hf => .inl hf⟩
    | strip rs =>
      obtain ⟨o, listed, f, torn, rfl⟩ := step
      refine ⟨rfl, rfl, rfl, fun h => h, fun _ g hg => ?_⟩
      by_cases this : g = f
      · subst this
        exact Or.inr ⟨o, strips rs ok ▸ listed, torn.taskType, torn.succeeded, torn.resourceId,
          torn.finalizerName⟩
      · exact Or.inl (mem_filter.mpr ⟨hg, decide_eq_true this⟩)
    | result rs => exact absurd ok (noResult rs)

/-! ## The finalizers of an unmarked row -/

/-- Finalizers are seeded by the mark. -/
def Resource.Seeded (r : Resource) : Prop := r.marked = false → r.finalizers = []

theorem seeded_respects : Respects (fun _ => True) fun a b : Resource => a.Seeded → b.Seeded where
  refl _ h := h
  trans first second h := second (first h)
  quiet q h unmarked := by
    rw [q.finalizers]
    exact h (by simpa [Resource.marked, q.deletionRequestedAt] using unmarked)
  row {k db a b} _ _ step h unmarked := by
    cases k with
    | quiet =>
      have q : Quiet a b := step
      rw [q.finalizers]
      exact h (by simpa [Resource.marked, q.deletionRequestedAt] using unmarked)
    | write =>
      have w : Written a b := step
      rw [w.finalizers]
      exact h (by simpa [Resource.marked, w.deletionRequestedAt] using unmarked)
    | mark =>
      obtain ⟨-, rfl⟩ := step
      cases unmarked
    | thaw id =>
      obtain ⟨-, rfl⟩ := step
      exact h unmarked
    | stamp | result rs =>
      obtain ⟨_, -, -, rfl⟩ := step
      exact h unmarked
    | strip rs =>
      obtain ⟨o, -, f, -, rfl⟩ := step
      have none : a.finalizers = [] := h unmarked
      simp [none]

theorem Reachable.seeded (h : Reachable db) : ∀ r ∈ db.resources, r.Seeded :=
  h.rows_keep seeded_respects fun born _ => born.finalizers

/-- On a seeded row, what happens without reconcile results is charged. -/
theorem Unjudged.charged {r r' : Resource} (seeded : r.Seeded)
    (h : Unjudged results r r') : Charged results r r' where
  syncedGen := Or.inl h.syncedGen
  failureAttempts := Or.inl (Nat.le_of_eq h.failureAttempts)
  finalizers f hf := by
    refine h.finalizers ?_ f hf
    by_contra unmarked
    rw [seeded (by simpa using unmarked)] at hf
    cases hf

/-! ## Reconcile results -/

theorem applyResult_charged {o : OutboxRow} {r : Resource}
    (listed : o ∈ results) (reconcile : o.taskType = .reconcile) (same : o.resourceId = r.id) :
    Charged results r (applyResult db o r) where
  syncedGen := by
    by_cases advances : o.succeeded = true ∧ o.advanceSyncedGen = true
    · rcases Nat.le_total o.observedGeneration r.syncedGen with le | le
      · left
        simp [applyResult, advances, Nat.max_eq_left le]
      · right
        refine ⟨o, listed, ⟨reconcile, advances.1, advances.2, same⟩, ?_⟩
        simp [applyResult, advances, Nat.max_eq_right le]
    · left
      have stays : (o.succeeded && o.advanceSyncedGen) = false := by
        simpa using advances
      simp [applyResult, stays]
  failureAttempts := by
    by_cases transient : o.failed = true ∧ o.terminal = false
    · have counted : (applyResult db o r).failureAttempts = countedAttempts o r := by
        simp [applyResult, transient]
      have failure : ∃ o ∈ results, FailsOnce r.id o :=
        ⟨o, listed, reconcile, transient.1, transient.2, same⟩
      rw [counted]
      unfold countedAttempts
      split
      · exact Or.inr ⟨rfl, failure⟩
      · -- a new generation starts counting at 1
        rcases Nat.eq_zero_or_pos r.failureAttempts with zero | pos
        · exact Or.inr ⟨by omega, failure⟩
        · exact Or.inl pos
    · left
      have other : (o.failed && !o.terminal) = false := by
        simpa using transient
      simp only [applyResult, other, Bool.false_eq_true, if_false]
      split
      · exact Nat.zero_le _
      · exact Nat.le_refl _
  finalizers f hf := Or.inl hf

theorem Unjudged.then_charged {c : Resource} (seeded : a.Seeded)
    (first : Unjudged results a b) (second : Charged results b c) : Charged results a c where
  syncedGen := by
    have rest := second.syncedGen
    rwa [first.syncedGen, first.id] at rest
  failureAttempts := by
    have rest := second.failureAttempts
    rwa [first.failureAttempts, first.id] at rest
  finalizers f hf := by
    rcases (first.charged seeded).finalizers f hf with kept | stripped
    · have rest := second.finalizers f kept
      rwa [first.id] at rest
    · exact Or.inr stripped

theorem applyResults_charged {r' : Resource} (after : r' ∈ (applyResults db results).resources) :
    ∃ r ∈ db.resources, r.id = r'.id ∧ Charged results r r' := by
  obtain ⟨r, here, rfl⟩ := applyResults_row after
  refine ⟨r, here, ?_⟩
  cases found : resultFor results r with
  | none => exact ⟨rfl, Charged.refl results r⟩
  | some o =>
    obtain ⟨listed, type, of_⟩ := resultFor_listed found
    exact ⟨rfl, applyResult_charged listed type of_⟩

/-- The ledger entry of a step: the results it drained, and what they are charged for. -/
structure Ledger (db db' : Db) (results : List OutboxRow) : Prop where
  drained : db'.drained = results ++ db.drained
  resources : ∀ r ∈ db.resources, ∀ r' ∈ db'.resources, r'.id = r.id → Charged results r r'
  operations : ∀ op ∈ db'.operations, op.final →
    op ∈ db.operations ∨ ∃ o ∈ results, o.taskType = .operate ∧ o.opId = some op.id

theorem Ledger.refl (db : Db) : Ledger db db [] where
  drained := rfl
  resources r here r' after same := by
    rw [eq_of_pk resource_primary after here same]
    exact Charged.refl [] r
  operations op after _ := Or.inl after

theorem Effects.ledger (run : Effects Label.Undrained db db') (named : Named db)
    (seeded : ∀ r ∈ db.resources, r.Seeded) : Ledger db db' [] where
  drained := run.drained_eq fun _ ok => ok
  resources r here r' after same := by
    have respects : Respects Label.Undrained (Unjudged []) :=
      unjudged_respects [] (fun _ ok => ok) fun _ ok => ok.elim
    obtain ⟨r₀, here₀, same₀, kept⟩ := run.tracks respects after (same ▸ named r here)
    rw [eq_of_pk resource_primary here₀ here (same₀.trans same)] at kept
    exact kept.charged (seeded r here)
  operations op after final :=
    run.operations (fun _ ok => ok.elim) after final

theorem drain_ledger {scan rowScan : Scan Uuid} {order : Nat → Nat} {n : Nat} {range : ShardRange}
    (named : Named db) (seeded : ∀ r ∈ db.resources, r.Seeded)
    (done : drainOutboxBatch db scan rowScan order n range = some db') : ∃ results, Ledger db db' results := by
  by_cases none : popped db scan n range = []
  · obtain rfl := drainOutboxBatch_none none done
    exact ⟨[], Ledger.refl db⟩
  · obtain ⟨mid, before, drained, recorded⟩ := drainOutboxBatch_stages (drainable_tears _ _) none done
    obtain ⟨s, -, rfl⟩ := Option.map_eq_some_iff.mp recorded
    refine ⟨popped db scan n range, ?_, ?_, ?_⟩
    · exact (updateResources_only mid _ _ _).drained.trans drained
    · intro r here r' after same
      obtain ⟨r₁, here₁, same₁, charged⟩ := applyResults_charged after
      have respects := unjudged_respects (popped db scan n range)
        (fun rs (ok : Label.Tears _ _) => ok.2 rs rfl) (fun rs ok => ok.1)
      obtain ⟨r₀, here₀, same₀, kept⟩ :=
        before.tracks respects here₁ (same₁ ▸ same ▸ named r here)
      rw [eq_of_pk resource_primary here₀ here (same₀.trans (same₁.trans same))] at kept
      exact kept.then_charged (seeded r here) charged
    · intro op after final
      have after : op ∈ mid.operations := by
        rw [← (updateResources_only mid _ _ _).operations]
        exact after
      exact before.operations (fun rs (ok : Label.Tears _ _) => ok.1) after final

theorem step_ledger (reachable : Reachable db) (a : Action) : ∃ results, Ledger db (step db a) results := by
  have named := reachable.named
  have seeded := reachable.seeded
  cases a with
  | drainOutboxBatch scan rowScan order n range =>
    cases done : drainOutboxBatch db scan rowScan order n range with
    | some db' =>
      have same : step db (.drainOutboxBatch scan rowScan order n range) = db' := by
        simp [step, done]
      rw [same]
      exact drain_ledger named seeded done
    | none =>
      have same : step db (.drainOutboxBatch scan rowScan order n range) = db := by
        simp [step, done]
      rw [same]
      exact ⟨[], Ledger.refl db⟩
  | _ =>
    refine ⟨[], Effects.ledger (step_undrained db ?_) named seeded⟩
    trivial

theorem ledger_fresh (good : Leases db') (drained : db'.drained = results ++ db.drained) {o : OutboxRow}
    (listed : o ∈ results) : db.drained.filter (OutboxRow.ofClaim o.workId o.task.claimEpoch) = [] := by
  have once := drained_once good o.workId o.task.claimEpoch
  have here : o ∈ results.filter (OutboxRow.ofClaim o.workId o.task.claimEpoch) :=
    mem_filter.mpr ⟨listed, by simp [OutboxRow.ofClaim]⟩
  have pos := length_pos_of_mem here
  rw [drained, filter_append, length_append] at once
  exact eq_nil_of_length_eq_zero (by omega)

/-- **A claim counts at most once.**  In every reachable state at most one result of
each claim has been drained.  Whatever a step advances, counts, finalizes or strips is
charged to a result this step adds to the log, and that result is the first of its
claim. -/
theorem claim_counts_once (reachable : Reachable db) : (∀ workId claimEpoch,
      (db.drained.filter (OutboxRow.ofClaim workId claimEpoch)).length ≤ 1) ∧
    ∀ a, ∃ results, Ledger db (step db a) results ∧
      ∀ o ∈ results, db.drained.filter (OutboxRow.ofClaim o.workId o.task.claimEpoch) = [] := by
  refine ⟨drained_once reachable.leases, fun a => ?_⟩
  obtain ⟨results, ledger⟩ := step_ledger reachable a
  exact ⟨results, ledger, fun o listed =>
    ledger_fresh (reachable.step a).leases ledger.drained listed⟩

end Results

/-- The deadline failure of a task is recorded, its late success comes after, and both
are there to be drained. -/
theorem claim_counts_once_timeout : letI := counting
    let before := [applyRoot "vm" "a", claimAll "b" "vm" .reconcile]
    let race := (run Db.empty before).tasks.flatMap fun t =>
      [Action.appendOutbox (timeout t), Action.appendOutbox (success t)]
    let db := run Db.empty (before ++ race ++ [drainAll])
    race.length = 2 ∧ (db.drained.map (·.failed)) = [true] ∧
      ∀ t ∈ db.tasks, (db.drained.filter (OutboxRow.ofClaim t.id t.claimEpoch)).length ≤ 1 := by
  let _ := counting
  intro before race db
  have reachable : Reachable db := ⟨_, rfl⟩
  exact ⟨by decide, by decide, fun t _ => (claim_counts_once reachable).1 t.id t.claimEpoch⟩

end Converge.Kernel
