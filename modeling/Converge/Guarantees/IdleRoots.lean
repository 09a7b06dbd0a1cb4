/-
# Guarantees.IdleRoots -- what a root still waits for when all work is done

A root is not held back by a descendant that failed, is frozen or is being deleted; but a
dependency that failed, is frozen or is being deleted still lags.  So a row that nothing
will move stops the siblings that depend on it, these stay unsettled, and they stop the
root, although the row itself would not.

`idle_root_synced` says that this is the only way: when no work is left, a root is synced
unless one of its descendants waits, along lagging dependencies, for another that is
dead-lettered, frozen or marked (`Stuck`).  Edges have no cycle, so the chain ends.  A root
that is stuck may still be synced, if it does not wait for its descendants: what tells them
apart is whether one of its results for the generation was more than a partial one
(`HeldBack`).
-/
import Converge.Guarantees.FailureCount
import Converge.Kernel.DepOrder

namespace Converge.Kernel

open Converge.Theory List

set_option autoImplicit false
set_option linter.unusedSectionVars false

section Idle

variable [Postgres] {db : Db}

/-- The row lags and nothing will move it: it failed for good, or is frozen, or is being
deleted. -/
def Doomed (p : Resource) : Prop :=
  p.syncedGen < p.generation ∧ (p.marked = true ∨ p.frozen = true ∨ p.deadLettered = true)
deriving Decidable

/-- `a` depends on `b`, which lags. -/
def WaitsFor (db : Db) (a b : Uuid) : Prop :=
  DependsOn db a b ∧ ∃ p ∈ db.resources, p.id = b ∧ p.syncedGen < p.generation

/-- A descendant that is not settled waits for a doomed one. -/
def Stuck (db : Db) (r : Resource) : Prop :=
  ∃ d ∈ db.resources, d.rootId = some r.id ∧ unsettled d = true ∧
    ∃ p ∈ db.resources, p.rootId = some r.id ∧ Doomed p ∧ Relation.TransGen (WaitsFor db) d.id p.id

/-- The root is stuck, and its results for the generation were partial or failures. -/
structure HeldBack (db : Db) (r : Resource) : Prop where
  stuck : Stuck db r
  partial_ : ∀ o ∈ db.drained, Advances r.id o → o.observedGeneration ≠ r.generation

theorem upstreamLagging_iff {r : Resource} (here : r ∈ db.resources) :
    upstreamLagging db r = true ↔ ∃ b, WaitsFor db r.id b := by
  simp only [upstreamLagging, any_eq_true, Bool.and_eq_true, decide_eq_true_eq, Option.any_eq_true]
  constructor
  · rintro ⟨d, listed, dependent, p, found, lags⟩
    obtain ⟨stored, same⟩ := Table.mem_of_lookup found
    exact ⟨d.dependencyId, ⟨⟨r, here, rfl⟩, ⟨p, stored, same⟩, d, listed, dependent, rfl⟩, p, stored,
      same, lags⟩
  · rintro ⟨-, ⟨-, -, d, listed, dependent, rfl⟩, p, stored, same, lags⟩
    exact ⟨d, listed, dependent, p, same ▸ Table.lookup_of_mem resource_primary stored, lags⟩

theorem rollupBlocked_iff {r : Resource} (root : r.ownerId = none) : rollupBlocked db r = true ↔
    ∃ d ∈ db.resources, d.rootId = some r.id ∧ unsettled d = true := by
  simp only [rollupBlocked, root, Option.isNone_none, Bool.true_and, any_eq_true,
    Bool.and_eq_true, decide_eq_true_eq]
  exact Iff.rfl

/-- A lagging child that nobody queues is doomed or waits for a dependency. -/
theorem Idle.child_waits (idle : Idle db) {d : Resource} (here : d ∈ db.resources) (owned : d.ownerId ≠ none)
    (lags : d.syncedGen < d.generation) (hope : ¬ Doomed d) : ∃ b, WaitsFor db d.id b := by
  rw [← upstreamLagging_iff here]
  have none := idle.retries d here
  have flags : d.marked = false ∧ d.frozen = false ∧ d.deadLettered = false := by
    simpa [Doomed, lags, not_or] using hope
  have child : rollupBlocked db d = false := by
    simp [rollupBlocked, owned]
  simpa [eligible, lags, flags, child] using none

/-- The dependencies an unsettled descendant waits for end in a doomed one of the same
tree. -/
theorem Idle.waits_for_doomed (reachable : Reachable db) (idle : Idle db) {d : Resource} {id : Uuid}
    (here : d ∈ db.resources) (rooted : d.rootId = some id) (open_ : unsettled d = true) :
    ∃ p ∈ db.resources, p.rootId = some id ∧ Doomed p ∧ Relation.TransGen (WaitsFor db) d.id p.id := by
  obtain ⟨own, lineage⟩ := reachable.lineage
  have family := reachable.family
  have owned := family.owned here rooted
  have ⟨lags, hope⟩ : d.syncedGen < d.generation ∧ ¬ Doomed d := by
    simp only [unsettled, Bool.and_eq_true, decide_eq_true_eq, Bool.not_eq_true', ne_eq] at open_
    obtain ⟨⟨⟨lags, failed⟩, unmarked⟩, unfrozen⟩ := open_
    refine ⟨lags, fun doomed => ?_⟩
    simp [Doomed, Resource.deadLettered, unmarked, unfrozen, failed] at doomed
  -- the rows that are waited for are finitely many, so one of them waits for none
  have acyclic : Blocking.Acyclic (WaitsFor db) :=
    reachable.deps_acyclic.of_le fun _ _ waits => waits.1.2.2
  have finite : {b | Relation.TransGen (WaitsFor db) d.id b}.Finite := by
    refine (finite_toSet (db.resources.rows.map (·.id))).subset fun b path => ?_
    obtain ⟨-, -, -, p, stored, same, -⟩ := Relation.TransGen.tail'_iff.mp path
    exact mem_map.mpr ⟨p, stored, same⟩
  obtain ⟨b, first⟩ := idle.child_waits here owned lags hope
  obtain ⟨b, path, last⟩ := Blocking.exists_free acyclic finite ⟨b, .single first⟩
  obtain ⟨-, -, -, p, stored, rfl, lagsP⟩ := Relation.TransGen.tail'_iff.mp path
  have sibling : p.ownerId = d.ownerId := by
    rw [lineage.rows p stored, lineage.rows d here]
    exact (lineage.walk (fun _ _ _ _ => trivial)
      (Relation.TransGen.mono (fun _ _ waits => waits.1.2.2) _ _ path)).1
  obtain ⟨o, owner⟩ := Option.ne_none_iff_exists'.mp owned
  refine ⟨p, stored, ?_, ?_, path⟩
  · rw [← rooted]
    exact family.siblings stored here (sibling.trans owner) owner
  · by_contra hopeP
    obtain ⟨c, next⟩ := idle.child_waits stored (sibling ▸ owned) lagsP hopeP
    exact last c (path.tail next) next

/-- What was drained as an advancing success of `id` has advanced it. -/
def Credited (id : Uuid) (db : Db) : Prop :=
  ∀ r ∈ db.resources, r.id = id → ∀ o ∈ db.drained, Advances id o → o.observedGeneration ≤ r.syncedGen

/-- One result at a time, none is lost. -/
theorem Credited.step {id : Uuid} (reachable : Reachable db) {a : Action} (one : OnePerBatch id db a)
    (credited : Credited id db) : Credited id (Kernel.step db a) := by
  rintro r' after rfl o drained advances
  have listed : o ∈ historyOf (Kernel.step db a).drained r'.id :=
    mem_filter.mpr ⟨drained, by simp [advances.taskType, advances.resourceId]⟩
  -- a result drained before has advanced the row, which does not go back
  have old {r : Resource} (here : r ∈ db.resources) (same : r.id = r'.id)
      (before : o ∈ historyOf db.drained r'.id) : o.observedGeneration ≤ r'.syncedGen := by
    have object : (versions (Kernel.step db a) r.id).object = some r'.object := by
      rw [same]
      exact versions_object after
    obtain ⟨x, found, -, grows⟩ :=
      (run_versions reachable.versioned [a] r.id).grows.2 r'.object object (reachable.named r here)
    rw [versions_object here] at found
    cases found
    exact (credited r here same o (mem_filter.mp before).1 advances).trans grows
  cases step_failureTurn reachable a after one with
  | rest r here same _ history => exact old here same (history ▸ listed)
  | born _ history =>
    rw [history] at listed
    cases listed
  | drained mid o' m r here same _ _ written history =>
    rw [history] at listed
    rcases mem_cons.mp listed with rfl | before
    · have both : (o.succeeded && o.advanceSyncedGen) = true := by simp [advances.succeeded, advances.advances]
      rw [← written, drainedBy]
      split
      · rw [applyResult]
        simp only [both, if_true]
        exact le_max_right _ _
      next unchanged =>
        simp only [changesRow, both, Bool.true_and, Bool.or_eq_true, not_or, decide_eq_true_eq] at unchanged
        omega
    · exact old here same before

/-- **When no work is left, a root is synced unless a doomed descendant holds back
another.**  Nothing is queued, waiting or to be rechecked, and no row would be retried at
any age; the root is neither frozen, nor being deleted, nor failed for its generation.  If
its results were drained one at a time, it is synced exactly if it is not held back. -/
theorem idle_root_synced {actions : List Action} (reached : run Db.empty actions = db) (idle : Idle db)
    {r : Resource} (here : r ∈ db.resources) (root : r.ownerId = none) (unfrozen : r.frozen = false)
    (unmarked : r.marked = false) (sound : r.failureGen ≠ r.generation) :
    (¬ Stuck db r → r.syncedGen = r.generation) ∧
      (Along (OnePerBatch r.id) Db.empty actions → (r.syncedGen = r.generation ↔ ¬ HeldBack db r)) := by
  have reachable : Reachable db := ⟨actions, reached⟩
  have bound := ((reachable.versioned.sound r.id).bounds (versions_object here)).synced
  have free : ¬ Stuck db r → r.syncedGen = r.generation := by
    intro free
    by_contra unsynced
    have lags : r.syncedGen < r.generation := Nat.lt_of_le_of_ne bound unsynced
    obtain ⟨own, lineage⟩ := reachable.lineage
    have edgeless : upstreamLagging db r = false := by
      rw [Bool.eq_false_iff]
      intro lagging
      obtain ⟨b, ⟨-, -, d, listed, dependent, -⟩, -⟩ := (upstreamLagging_iff here).mp lagging
      exact (lineage.root_edgeless here root listed).1 dependent
    have blocked : rollupBlocked db r = true := by
      have none := idle.retries r here
      simpa [eligible, lags, unmarked, unfrozen, Resource.deadLettered, sound, edgeless] using none
    obtain ⟨d, stored, rooted, open_⟩ := (rollupBlocked_iff root).mp blocked
    exact free ⟨d, stored, rooted, open_, Idle.waits_for_doomed reachable idle stored rooted open_⟩
  refine ⟨free, fun one => ⟨fun synced held => ?_, fun loose => ?_⟩⟩
  · obtain ⟨o, drained, advances, snapshot⟩ :=
      (reachable.versioned.sound r.id).synced_content (versions_object here) synced
    exact held.partial_ o drained advances (congrArg Generation.Snapshot.generation snapshot)
  · by_cases stuck : Stuck db r
    · have credited : Credited r.id db := by
        rw [← reached]
        exact one.keeps (I := Credited r.id) (fun _ _ there ok h => h.step there ok) .empty
          fun s there => absurd there (Table.notMem_empty s)
      obtain ⟨o, drained, advances, current⟩ :
          ∃ o ∈ db.drained, Advances r.id o ∧ o.observedGeneration = r.generation := by
        by_contra none
        exact loose ⟨stuck, fun o drained advances current => none ⟨o, drained, advances, current⟩⟩
      exact Nat.le_antisymm bound (current ▸ credited r here rfl o drained advances)
    · exact free stuck

end Idle

/-- The root composes `out`, its machine fails for good, and the root is reconciled again:
to the end if `done`. -/
def machineFails (out : ComposeOutput) (done : Bool) : Script :=
  [fun _ => [applyRoot "app" "a", claimAll "b" "app" .reconcile],
    composes "app" (fun _ => 0) (fun _ => "") out, returns "app" partly,
    fun _ => drainRechecks ++ [claimAll "b" "vm" .reconcile], returns "vm" rejected,
    fun _ => [claimAll "b" "app" .reconcile], returns "app" (if done then success else partly),
    fun _ => drainRechecks]

/-- A disk that depends on the machine. -/
def machineAndDisk : ComposeOutput :=
  ⟨[child "vm" "v", child "disk" "d"], [⟨(child "disk" "d").ref, (child "vm" "v").ref, []⟩], []⟩

/-- A machine alone fails for good, and the root is synced.  With the disk behind it, the
root is stuck, and yet synced, for it was reconciled to the end. -/
theorem idle_root_synced_failed : letI := counting
    let alone := run Db.empty ((machineFails ⟨[child "vm" "v"], [], []⟩ true).play Db.empty)
    let both := run Db.empty ((machineFails machineAndDisk true).play Db.empty)
    ((∃ v ∈ alone.resources.rows, v.name = "v" ∧ Doomed v) ∧
      ∃ r ∈ alone.resources.rows, r.name = "a" ∧ r.syncedGen = r.generation) ∧
    (∃ d ∈ both.resources.rows, d.name = "d" ∧ unsettled d = true ∧ upstreamLagging both d = true) ∧
      ∃ r ∈ both.resources.rows, r.name = "a" ∧ r.syncedGen = r.generation ∧ ¬ HeldBack both r := by
  intro alone both
  constructor
  · have facts : letI := counting
        (∃ v ∈ alone.resources.rows, v.name = "v" ∧ Doomed v) ∧ Idle alone ∧
          ∃ r ∈ alone.resources.rows, r.name = "a" ∧ r.ownerId = none ∧ r.frozen = false ∧ r.marked = false ∧
            r.failureGen ≠ r.generation ∧
            ∀ d ∈ alone.resources.rows, d.rootId = some r.id → unsettled d = false := by
      decide +kernel
    obtain ⟨failed, idle, r, here, name, root, unfrozen, unmarked, sound, settled⟩ := facts
    have free := (@idle_root_synced counting alone _ rfl idle r here root unfrozen unmarked sound).1
    refine ⟨failed, r, here, name, free ?_⟩
    rintro ⟨d, there, rooted, open_, -⟩
    rw [settled d there rooted] at open_
    cases open_
  · have facts : letI := counting
        (∃ d ∈ both.resources.rows, d.name = "d" ∧ unsettled d = true ∧ upstreamLagging both d = true) ∧
        Idle both ∧
          ∃ r ∈ both.resources.rows, r.name = "a" ∧ r.syncedGen = r.generation ∧ r.ownerId = none ∧
            r.frozen = false ∧ r.marked = false ∧ r.failureGen ≠ r.generation ∧
            Along (OnePerBatch r.id) Db.empty ((machineFails machineAndDisk true).play Db.empty) := by
      decide +kernel
    obtain ⟨waits, idle, r, here, name, synced, root, unfrozen, unmarked, sound, one⟩ := facts
    have exact_ := (@idle_root_synced counting both _ rfl idle r here root unfrozen unmarked sound).2 one
    exact ⟨waits, r, here, name, synced, exact_.mp synced⟩

/-- Its last result was partial: no work is left, and the root, neither failed nor frozen nor
being deleted, stays behind its generation. -/
theorem idle_root_lags : letI := counting
    let db := run Db.empty ((machineFails machineAndDisk false).play Db.empty)
    Idle db ∧ ∃ r ∈ db.resources.rows, r.name = "a" ∧ r.ownerId = none ∧ r.frozen = false ∧
      r.marked = false ∧ r.failureGen ≠ r.generation ∧ r.syncedGen < r.generation := by
  decide +kernel

end Converge.Kernel
