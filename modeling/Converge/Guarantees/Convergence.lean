/-
# Guarantees.Convergence -- what `synced_gen` says

Specs are rewritten by applies, flips, rollbacks, composes and value flows, and copied
into the queue by six enqueue paths; results come back late.  Still, a resource whose
`synced_gen` is its generation was reconciled with the very spec and kind version it
has now (`synced_spec_reconciled`), and the counters set from captured generations
never pass the generation or, for `synced_gen`, go back (`counters_bounded`).
-/
import Converge.Kernel.Versions

namespace Converge.Kernel

open Converge.Theory

set_option autoImplicit false

section Convergence

variable [Postgres] {db : Db}

/-- **Synced means reconciled as is.**  In every reachable state, for every resource
with `synced_gen = generation` a successful advancing result was drained whose task
copied the row's current spec and kind version. -/
theorem synced_spec_reconciled (reachable : Reachable db) : ∀ r ∈ db.resources, r.syncedGen = r.generation →
      ∃ o ∈ db.drained, Advances r.id o ∧ o.task ∈ db.tasks ∧
        o.task.spec = some r.spec ∧ o.task.kindVersion = r.kindVersion := by
  intro r here synced
  have good := reachable.versioned
  obtain ⟨o, drained, advances, snapshot⟩ :=
    (good.sound r.id).synced_content (versions_object here) synced
  have content : (o.task.spec, o.task.kindVersion) = (some r.spec, r.kindVersion) :=
    congrArg Generation.Snapshot.content snapshot
  refine ⟨o, drained, advances, good.granted.drained o drained, ?_⟩
  exact Prod.mk.inj content

end Convergence

/-- A root is applied, claimed, reconciled and drained. -/
theorem synced_spec_reconciled_root : letI := counting
    let first := [applyRoot "vm" "a", claimAll "b" "vm" .reconcile]
    let results := (run Db.empty first).tasks.map fun t => Action.appendOutbox (success t)
    let db := run Db.empty (first ++ results ++ [drainAll])
    ∃ r ∈ db.resources, r.syncedGen = r.generation ∧ ∃ o ∈ db.drained, Advances r.id o ∧ o.task ∈ db.tasks ∧
        o.task.spec = some r.spec ∧ o.task.kindVersion = r.kindVersion := by
  let _ := counting
  intro first results db
  have reachable : Reachable db := ⟨_, rfl⟩
  have synced : ∃ r ∈ db.resources.rows, r.syncedGen = r.generation := by decide +kernel
  obtain ⟨r, here, eq⟩ := synced
  exact ⟨r, here, eq, synced_spec_reconciled reachable r here eq⟩

section Counters

variable [Postgres] {db : Db}

/-- **Counters stay behind the generation.**  In every reachable state `synced_gen`,
`failure_gen` and `composed_gen` are at most the generation, and along every run from
it generation and `synced_gen` of a resource never decrease. -/
theorem counters_bounded (reachable : Reachable db) :
    (∀ r ∈ db.resources, r.syncedGen ≤ r.generation ∧ r.failureGen ≤ r.generation ∧
      r.composedGen ≤ r.generation) ∧
    ∀ actions, ∀ r ∈ db.resources, ∀ r' ∈ (run db actions).resources, r'.id = r.id →
      r.generation ≤ r'.generation ∧ r.syncedGen ≤ r'.syncedGen := by
  have good := reachable.versioned
  constructor
  · intro r here
    have bounds := (good.sound r.id).bounds (versions_object here)
    exact ⟨bounds.synced, bounds.failed, bounds.stamped⟩
  · intro actions r here r' after same
    have object : (versions (run db actions) r.id).object = some r'.object := by
      rw [← same]
      exact versions_object after
    obtain ⟨o, before, generation, synced⟩ :=
      (run_versions good actions r.id).grows.2 r'.object object (reachable.named r here)
    rw [versions_object here] at before
    cases before
    exact ⟨generation, synced⟩

end Counters

/-- A root is reconciled at generation 1 while a request moves it to generation 2. -/
theorem counters_bounded_lagging : letI := counting
    let db := run Db.empty [applyRoot "vm" "a", claimAll "b" "vm" .reconcile]
    let rest := (db.tasks.map fun t => Action.appendOutbox (success t)) ++ [.reconcile 0, drainAll]
    ((run db rest).resources.rows.map fun r => (r.generation, r.syncedGen)) = [(2, 1)] ∧
      ∀ r ∈ db.resources, ∀ r' ∈ (run db rest).resources, r'.id = r.id →
        r.generation ≤ r'.generation ∧ r.syncedGen ≤ r'.syncedGen := by
  intro db rest
  have reachable : @Reachable counting db := ⟨_, rfl⟩
  have grows := (@counters_bounded counting db reachable).2 rest
  exact ⟨by decide +kernel, grows⟩

end Converge.Kernel
