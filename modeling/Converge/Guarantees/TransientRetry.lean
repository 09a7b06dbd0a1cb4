/-
# Guarantees.TransientRetry -- which failures are tried again

A failure that is not terminal is not queued again by the drain: the reaper is to find
the row once its retry window has passed.  What the reaper looks for is a row behind its
generation that is not dead-lettered.  Tasks however are also queued for rows that are
synced, by a resync or for a descendant.  When such a task fails the row is not behind, and
nothing queues it.  The other way to be passed over is the attempt cap of the kind, which
makes the last transient failure terminal.

`transient_failures_retried`: these two are the only ways.  As long as every drain that
takes a transient failure for the current generation of a row finds the row behind that
generation, and the failure stays below the cap, every such row is found by the reaper or
queued; and no other step of the system can make it be passed over.
-/
import Converge.Guarantees.FailureCount

namespace Converge.Kernel

open Converge.Theory List Option

set_option autoImplicit false
set_option linter.unusedSectionVars false

variable {o : OutboxRow} {r r' : Resource}

section Retry

variable [Postgres] {db db' : Db} {allow : Label → Prop}

/-- `o` is a reconcile result for the generation `r` is at. -/
def currentResult (r : Resource) (o : OutboxRow) : Bool :=
  o.taskType = .reconcile && o.resourceId = r.id && o.observedGeneration = r.generation

/-- The last result drained for the current generation is a failure, not a terminal one. -/
def FailedTransiently (drained : List OutboxRow) (r : Resource) : Prop :=
  (drained.find? (currentResult r)).any (·.transient) = true
deriving Decidable

/-- The reaper takes the row, in whatever state it finds it, once it is not queued, its
window has passed, its upstreams are synced and its descendants are settled. -/
def FoundByReaper (r : Resource) : Prop :=
  ∀ (db : Db) (retrySeconds : Nat) (shards : List Nat), shardOf r.id ∈ shards →
    r.updatedAt + retrySeconds < db.now → reconcileQueued db r.id = false →
    upstreamLagging db r = false → rollupBlocked db r = false →
    retriable db retrySeconds shards r = true

/-- Every transient failure will be tried again. -/
def Retried (db : Db) : Prop :=
  ∀ r ∈ db.resources, r.frozen = false → r.marked = false → FailedTransiently db.drained r →
    reconcileQueued db r.id = true ∨
      (∃ o ∈ db.workOutbox, o.taskType = .reconcile ∧ o.resourceId = r.id) ∨ FoundByReaper r

/-- Behind its generation and not dead-lettered. -/
def Resource.Behind (r : Resource) : Prop :=
  r.syncedGen < r.generation ∧ r.deadLettered = false

instance (r : Resource) : Decidable r.Behind := inferInstanceAs (Decidable (_ ∧ _))

theorem foundByReaper_of_behind (behind : r.Behind) (unfrozen : r.frozen = false)
    (unmarked : r.marked = false) : FoundByReaper r := by
  intro db retrySeconds shards shard window unqueued upstreams descendants
  obtain ⟨lags, alive⟩ := behind
  simp [retriable, eligible, shard, lags, unmarked, unfrozen, alive, upstreams, descendants, window, unqueued]

/-- Every unmarked row that failed transiently is still behind. -/
def FailuresBehind (db : Db) : Prop :=
  ∀ r ∈ db.resources, r.marked = false → FailedTransiently db.drained r → r.Behind

theorem FailuresBehind.retried (all : FailuresBehind db) : Retried db :=
  fun r here unfrozen unmarked failed =>
    .inr (.inr (foundByReaper_of_behind (all r here unmarked failed) unfrozen unmarked))

/-- What the reaper needs of a row that takes the transient failure `o`: the row is behind,
`o` is not an advancing success as well, and with it the row stays below the cap of its kind. -/
def StaysBehind (db : Db) (r : Resource) (o : OutboxRow) : Prop :=
  r.Behind ∧ (o.succeeded && o.advanceSyncedGen) = false ∧
    (attemptCap db r = 0 ∨ countedAttempts o r < attemptCap db r)
deriving Decidable

/-- A drain takes transient failures for the current generation only of rows that stay
behind. -/
def DrainsBehind (db : Db) : Action → Prop
  | .drainOutboxBatch scan _ _ n range =>
    ∀ r ∈ db.resources.rows, r.marked = false → ∀ o ∈ (popped db scan n range).find? (currentResult r),
      o.transient = true → StaysBehind db r o
  | _ => True

instance (db : Db) (a : Action) : Decidable (DrainsBehind db a) := by
  induction a using Action.casesOn <;> dsimp only [DrainsBehind] <;> infer_instance

/-! ## Steps that apply no result -/

theorem Unreported.behind (kept : Unreported r r')
    (same : r'.generation = r.generation) (behind : r.Behind) : r'.Behind := by
  unfold Resource.Behind Resource.deadLettered at behind ⊢
  rw [same, kept.syncedGen, kept.failureGen, kept.failureTerminal]
  exact behind

/-- A result names a row that was drawn, and a generation it has reached. -/
theorem Versioned.current_result (good : Versioned db) (handed : o.task ∈ db.tasks)
    (current : currentResult r' o = true) :
    db.Drawn r'.id ∧ ∀ r ∈ db.resources, r.id = r'.id → r'.generation ≤ r.generation := by
  simp only [currentResult, Bool.and_eq_true, decide_eq_true_eq] at current
  obtain ⟨⟨-, id⟩, generation⟩ := current
  obtain ⟨drawn, behind⟩ := good.task_behind handed
  rw [← id, ← generation]
  exact ⟨drawn, behind⟩

/-- A row that failed transiently by a result handed out before had a row then, at the
same generation. -/
theorem unreported_row (good : Versioned db) (run : Effects allow db db')
    (noResult : ∀ rs, ¬ allow (.row (.result rs))) (after : r' ∈ db'.resources)
    (handed : o.task ∈ db.tasks) (current : currentResult r' o = true) :
    ∃ r ∈ db.resources, r.id = r'.id ∧ r.generation = r'.generation ∧ Unreported r r' := by
  obtain ⟨drawn, reached⟩ := good.current_result handed current
  obtain ⟨r, here, same, kept⟩ := run.tracks (respects_unreported noResult) after drawn
  exact ⟨r, here, same, Nat.le_antisymm kept.generation (reached r here same), kept⟩

theorem currentResult_congr (id : r.id = r'.id)
    (generation : r.generation = r'.generation) : currentResult r = currentResult r' := by
  funext o
  rw [currentResult, currentResult, id, generation]

theorem FailedTransiently.result {drained : List OutboxRow}
    (failed : FailedTransiently drained r) : ∃ o ∈ drained, currentResult r o = true := by
  obtain ⟨o, found, -⟩ := (any_eq_true _ _).mp failed
  exact ⟨o, mem_of_find?_eq_some found, find?_some found⟩

theorem FailuresBehind.effects (good : Versioned db) (all : FailuresBehind db)
    (run : Effects allow db db') (noResult : ∀ rs, ¬ allow (.row (.result rs)))
    (noPop : ∀ rs, ¬ allow (.pop rs)) : FailuresBehind db' := by
  intro r' after unmarked failed
  rw [run.drained_eq noPop] at failed
  obtain ⟨o, drained, current⟩ := failed.result
  obtain ⟨r, here, id, generation, kept⟩ :=
    unreported_row good run noResult after (good.granted.drained o drained) current
  refine kept.behind generation.symm (all r here (kept.mark unmarked) ?_)
  rw [FailedTransiently, currentResult_congr id generation]
  exact failed

/-! ## Drains -/

theorem applyResult_behind (older : o.observedGeneration < r.generation)
    (behind : r.Behind) : (applyResult db o r).Behind := by
  obtain ⟨lags, alive⟩ := behind
  refine ⟨?_, ?_⟩
  · show (if o.succeeded && o.advanceSyncedGen then max r.syncedGen o.observedGeneration
      else r.syncedGen) < r.generation
    split <;> omega
  · -- the failed generation is an older one, or both columns are reset or kept
    unfold Resource.deadLettered at alive ⊢
    rw [Bool.and_eq_false_iff, beq_eq_false_iff_ne] at alive ⊢
    by_cases failed : o.failed = true
    · right
      show (if o.failed then o.observedGeneration else _) ≠ r.generation
      rw [if_pos failed]
      omega
    · by_cases advances : (o.succeeded && o.advanceSyncedGen) = true
      · left
        simp [applyResult, failed, advances]
      · refine alive.imp (fun h => ?_) fun h => ?_
        · simpa [applyResult, failed, advances] using h
        · simpa [applyResult, failed, advances] using h

/-- The failure itself leaves behind a row that lags, below the cap. -/
theorem applyResult_transient (transient : o.transient = true)
    (partial_ : (o.succeeded && o.advanceSyncedGen) = false)
    (lags : r.syncedGen < r.generation) (below : attemptCap db r = 0 ∨ countedAttempts o r < attemptCap db r) :
    (applyResult db o r).Behind := by
  obtain ⟨failed, open_⟩ := OutboxRow.transient_iff.mp transient
  refine ⟨?_, ?_⟩
  · show (if o.succeeded && o.advanceSyncedGen then _ else r.syncedGen) < r.generation
    rwa [if_neg (by simp [partial_])]
  · have uncapped : (decide (0 < attemptCap db r) && decide (attemptCap db r ≤ countedAttempts o r)) = false := by
      rw [Bool.and_eq_false_iff, decide_eq_false_iff_not, decide_eq_false_iff_not]
      omega
    simp [Resource.deadLettered, applyResult, failed, open_, uncapped]

section Drain

variable {scan rowScan : Scan Uuid} {order : Nat → Nat} {n : Nat} {range : ShardRange} {mid : Db}
  {m : Resource}

/-- The row a current result is written to, as the drain found it; the other results of the
batch for it are older. -/
theorem drain_finds (reachable : Reachable db)
    (patched : substitute (drainTeardowns db rowScan (popped db scan n range)) order
      (popped db scan n range) = some mid)
    (here : m ∈ mid.resources) (handed : o.task ∈ db.tasks) (current : currentResult m o = true) :
    ∃ r ∈ db.resources, BeforeResults db mid r m ∧ r.generation = m.generation ∧
      ∀ u ∈ popped db scan n range, u.taskType = .reconcile → u.resourceId = m.id →
        currentResult m u = false → u.observedGeneration < m.generation := by
  have good := reachable.versioned
  obtain ⟨r, there, before⟩ := before_results reachable.named patched here
  have generation : r.generation = m.generation :=
    Nat.le_antisymm before.kept.generation ((good.current_result handed current).2 r there before.row.id.symm)
  refine ⟨r, there, before, generation, fun u listed type named stale => ?_⟩
  have reached := (good.task_behind (good.granted.waiting u (popped_waiting u listed))).2 r there
    (before.row.id.symm.trans named.symm)
  rw [currentResult, decide_eq_true type, decide_eq_true named, Bool.and_self, Bool.true_and,
    decide_eq_false_iff_not] at stale
  exact Nat.lt_of_le_of_ne (generation ▸ reached) stale

/-- What is first of its sort, and of another sort whose first one is of its own, is both. -/
theorem find?_unique {α : Type} {p q : α → Bool} {l : List α} {a b : α} (first : l.find? p = some a)
    (first' : l.find? q = some b) (too : q a = true) (too' : p b = true) : a = b := by
  induction l with
  | nil => cases first
  | cons x rest ih =>
    rw [find?_cons] at first first'
    cases px : p x <;> cases qx : q x <;> simp only [px, qx] at first first'
    · exact ih first first'
    · rw [← some.inj first', px] at too'
      cases too'
    · rw [← some.inj first, qx] at too
      cases too
    · exact (some.inj first).symm.trans (some.inj first')

/-- Results of older generations leave a row behind; a result of its own decides. -/
theorem results_behind {results : List OutboxRow} (behind : m.Behind)
    (older : ∀ u ∈ results, u.taskType = .reconcile → u.resourceId = m.id → currentResult m u = false →
      u.observedGeneration < m.generation)
    (own : ∀ u, resultFor results m = some u → currentResult m u = true → (applyResult mid u m).Behind) :
    ((resultFor results m).elim m (applyResult mid · m)).Behind := by
  cases written : resultFor results m with
  | none => exact behind
  | some u =>
    by_cases current : currentResult m u = true
    · exact own u written current
    · obtain ⟨listed, type, of_⟩ := resultFor_listed written
      exact applyResult_behind (older u listed type of_ (Bool.eq_false_iff.mpr current)) behind

/-- The last result of a row, drained now or before, is a transient failure: it is behind. -/
theorem drain_behind (reachable : Reachable db) (all : FailuresBehind db)
    (taken : DrainsBehind db (.drainOutboxBatch scan rowScan order n range))
    (done : drainOutboxBatch db scan rowScan order n range = some db') : FailuresBehind db' := by
  intro r after unmarked failed
  have granted := reachable.versioned.granted
  have log := drainOutboxBatch_drained done
  by_cases none : popped db scan n range = []
  · obtain rfl := drainOutboxBatch_none none done
    exact all r after unmarked failed
  obtain ⟨mid, patched, recorded⟩ := drainOutboxBatch_some none done
  obtain ⟨s, -, rfl⟩ := map_eq_some_iff.mp recorded
  obtain ⟨m, here, row⟩ := applyResults_row after
  obtain ⟨sameId, sameGen, sameMark⟩ : r.id = m.id ∧ r.generation = m.generation ∧ r.marked = m.marked := by
    rw [row]
    cases resultFor (popped db scan n range) m <;> exact ⟨rfl, rfl, rfl⟩
  rw [log, FailedTransiently, currentResult_congr sameId sameGen, find?_append] at failed
  obtain ⟨o, found, transient⟩ := (any_eq_true _ _).mp failed
  have current : currentResult m o = true := by
    rw [← find?_append] at found
    exact find?_some found
  have handed : o.task ∈ db.tasks := by
    rw [← find?_append] at found
    rcases mem_append.mp (mem_of_find?_eq_some found) with now | before
    · exact granted.waiting o (popped_waiting o now)
    · exact granted.drained o before
  obtain ⟨r₀, there, ⟨sameRow, kept, failures, cap, -⟩, generation, older⟩ :=
    drain_finds reachable patched here handed current
  have id := sameRow.id.symm
  have unmarked₀ := kept.mark (sameMark ▸ unmarked)
  rw [row]
  cases now : (popped db scan n range).find? (currentResult m) with
  | none =>
    -- the batch has only older results, and the row was behind
    have behind : m.Behind := by
      refine kept.behind generation.symm (all r₀ there unmarked₀ ?_)
      rw [now, none_or] at found
      rw [FailedTransiently, currentResult_congr id generation, found]
      exact transient
    refine results_behind behind older fun u written currentU => ?_
    exact absurd currentU (find?_eq_none.mp now u (resultFor_listed written).1)
  | some u =>
    rw [now, some_or] at found
    obtain rfl := some.inj found
    obtain ⟨behind, partial_, below⟩ := taken r₀ there unmarked₀ u
      (by rw [currentResult_congr id generation]; exact now) transient
    have pursues : m.Behind := kept.behind generation.symm behind
    have same_ : countedAttempts u m = countedAttempts u r₀ := by
      rw [countedAttempts, countedAttempts, failures.failureGen, failures.failureAttempts]
    have changes : changesRow u m = true := changesRow_transient transient
    simp only [currentResult, Bool.and_eq_true] at current
    refine results_behind pursues older fun w written currentW => ?_
    -- if a result of this generation is written, it is the failure
    obtain rfl : w = u := find?_unique written now currentW (by simp [current.1, changes])
    exact applyResult_transient transient partial_ pursues.1 (by rwa [cap, same_])

end Drain

/-- **One step.**  Failures stay behind if the step, should it be a drain, takes those of
rows that stay behind. -/
theorem step_failuresBehind (reachable : Reachable db) (all : FailuresBehind db) (a : Action)
    (ok : DrainsBehind db a) : FailuresBehind (step db a) := by
  cases a with
  | drainOutboxBatch scan rowScan order n range =>
    exact getD_cases all fun _ done => drain_behind reachable all ok done
  | _ => exact all.effects reachable.versioned (step_undrained db trivial) (fun _ h => h) fun _ h => h

theorem failuresBehind_empty : FailuresBehind Db.empty :=
  fun r here => absurd here (Table.notMem_empty r)

/-- **Transient failures are tried again.**  In a run whose drains find behind, and below the
cap, the rows whose transient failures they take, every row that is neither frozen nor being
deleted and whose last result for its generation is a transient failure is queued, or has a
result waiting, or is found by the reaper. -/
theorem transient_failures_retried (actions : List Action) (along : Along DrainsBehind Db.empty actions) :
    Retried (run Db.empty actions) := by
  apply FailuresBehind.retried
  exact along.keeps (fun db a reachable ok all => step_failuresBehind reachable all a ok) .empty
    failuresBehind_empty

end Retry

/-- A root that times out; its kind allows two attempts. -/
def rootTimesOut : Script :=
  [fun _ => [capTwo, applyRoot "app" "a", claimAll "b" "app" .reconcile], returns "app" timeout]

/-- It was behind its generation and below the cap, so the reaper finds it. -/
theorem transient_failures_retried_first : letI := counting
    let actions := rootTimesOut.play Db.empty
    let db := run Db.empty actions
    Along DrainsBehind Db.empty actions ∧ Retried db ∧
      ∃ r ∈ db.resources.rows, FailedTransiently db.drained r := by
  intro actions db
  have facts : letI := counting
      Along DrainsBehind Db.empty (rootTimesOut.play Db.empty) ∧
        ∃ r ∈ (run Db.empty (rootTimesOut.play Db.empty)).resources.rows,
          FailedTransiently (run Db.empty (rootTimesOut.play Db.empty)).drained r := by
    decide +kernel
  exact ⟨facts.1, @transient_failures_retried counting actions facts.1, facts.2⟩

/-- A synced root is probed again by a resync, and the probe times out. -/
def resyncTimesOut : Script :=
  [fun _ => [applyRoot "app" "a", claimAll "b" "app" .reconcile], returns "app" success,
    fun _ => [.tick 100, .requeueForResync "app" 10 100 [0] false, claimAll "b" "app" .reconcile],
    returns "app" timeout]

/-- Nothing is queued or waiting, nothing holds the root back, and however late the reaper
comes it passes the root over. -/
theorem transient_failure_stranded : letI := counting
    let db := run Db.empty (resyncTimesOut.play Db.empty)
    (∃ r ∈ db.resources.rows, r.frozen = false ∧ r.marked = false ∧ FailedTransiently db.drained r ∧
      reconcileQueued db r.id = false ∧ db.workOutbox.rows = [] ∧ upstreamLagging db r = false ∧
      rollupBlocked db r = false ∧ r.updatedAt + 60 < 1000 ∧
      retriable { db with now := 1000 } 60 [shardOf r.id] r = false) ∧ ¬ Retried db := by
  intro db
  have facts : letI := counting
      ∃ r ∈ db.resources.rows, r.frozen = false ∧ r.marked = false ∧
        FailedTransiently db.drained r ∧ reconcileQueued db r.id = false ∧
        db.workOutbox.rows = [] ∧ upstreamLagging db r = false ∧ rollupBlocked db r = false ∧
        r.updatedAt + 60 < 1000 ∧ retriable { db with now := 1000 } 60 [shardOf r.id] r = false := by
    decide +kernel
  refine ⟨facts, fun retried => ?_⟩
  -- from here on the run itself does not matter
  clear_value db
  obtain ⟨r, here, unfrozen, unmarked, failed, unqueued, empty, upstreams, descendants, window, passed⟩ := facts
  rcases retried r here unfrozen unmarked failed with queued | ⟨o, waiting, -⟩ | found
  · rw [unqueued] at queued
    cases queued
  · have listed : o ∈ db.workOutbox.rows := waiting
    rw [empty] at listed
    cases listed
  · have taken := found { db with now := 1000 } 60 [@shardOf counting r.id]
      (mem_singleton.mpr rfl) window unqueued upstreams descendants
    rw [passed] at taken
    cases taken

end Converge.Kernel
