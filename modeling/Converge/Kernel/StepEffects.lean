/-
# Kernel.StepEffects -- the effects of every function, and of every action

One lemma per function of the model, each citing those of the functions it calls.
`step_effects` collects them: an action is a run of effects, and `Action.allows` says
which.  Only a release releases; only a drain applies results, and only those it
popped.
-/
import Converge.Kernel.ComposedConfigs
import Converge.Kernel.Effects

namespace Converge.Kernel

open Converge.Theory List Table Option

set_option autoImplicit false
set_option linter.unusedSectionVars false

variable [Postgres] {db db' : Db}
variable {a : Action} {spec input : Json} {l : Label} {allow : Label → Prop} {results : List OutboxRow}
    {ids : List Uuid} {n version : Nat} {order : Nat → Nat} {config : Option Uuid} {r prev : Resource}
    {rowScan scan : Scan Uuid} {range : ShardRange} {id parent root : Uuid} {produced : List ResourceDep}
    {out : ComposeOutput} {pol : ComposePolicy}

/-! ## Queue -/

theorem reapStaleWork_effects (db : Db) (scan : Scan Uuid) (secs n : Nat) (range : ShardRange) :
    Effects (· = .reap) db (reapStaleWork db scan secs n range) := by
  refine Steps.one rfl (.reap _ ?_)
  intro q hq freed o ho same
  -- the freed row is a picked one, and picked rows have no result
  simp only [decide_eq_true_eq] at freed
  obtain ⟨q', picked, sameId⟩ := mem_map.mp freed
  obtain ⟨hq', stale⟩ := mem_filter.mp (Scan.mem_of_mem_pick picked)
  obtain rfl := eq_of_pk workQueue_primary hq' hq sameId
  simp only [Kernel.stale, resultWaiting, Bool.and_eq_true, Bool.not_eq_true',
    List.any_eq_false, decide_eq_true_eq] at stale
  exact stale.2 o ho same

theorem touch_effects {p : WorkQueueRow → Bool} {f : WorkQueueRow → WorkQueueRow}
    {keeps : ∀ q, Keyed.key (f q) = Keyed.key q} (rows : ∀ q, Touched q (f q)) :
    Effects Label.Calm db { db with workQueue := db.workQueue.updateWhere p f keeps } :=
  Steps.one (l := .touch) trivial (.touch p f keeps rows)

theorem deleteUnclaimedWork_effects (db : Db) (scan : Scan Uuid) (secs n : Nat) (range : ShardRange) :
    Effects (· = .remove none) db (deleteUnclaimedWork db scan secs n range) := by
  refine Steps.one rfl (.remove none _ ?_ ?_)
  · intro q hq removed
    simp only [decide_eq_true_eq] at removed
    obtain ⟨q', picked, sameId⟩ := mem_map.mp removed
    obtain ⟨hq', old⟩ := mem_filter.mp (Scan.mem_of_mem_pick picked)
    obtain rfl := eq_of_pk workQueue_primary hq' hq sameId
    simp only [Bool.and_eq_true] at old
    exact isNone_iff_eq_none.mp old.1.1
  · intro q _ _ taskType only
    cases only

theorem appendOutbox_effects {o : OutboxRow} (claimed : o.task ∈ db.tasks) :
    Effects (· = .append) db (appendOutbox db o) := by
  unfold appendOutbox
  split
  · rename_i token
    obtain ⟨q, hq, matched⟩ := any_eq_true.mp token
    by_cases free : ¬ db.workOutbox.Occupied o
    · have push : db.workOutbox.insertNew o = db.workOutbox.push o free := by
        simp [Table.insertNew, free]
      rw [push]
      exact Steps.one rfl (.append o claimed ⟨q, hq, matched⟩ free)
    · have same : db.workOutbox.insertNew o = db.workOutbox := by
        simp only [Table.insertNew, dif_neg free]
      rw [same]
      exact .refl
  · exact .refl

def Label.Resyncs : Label → Prop
  | .enqueue .resynced => True
  | l => l.Calm

theorem Label.Calm.resyncs (h : l.Calm) : l.Resyncs := by
  cases l with
  | enqueue cause => cases cause <;> first | exact h | exact trivial
  | _ => exact h

theorem requeueForResync_effects (db : Db) (kind : String) (secs n : Nat) (shards : List Nat)
    (recompose : Bool) : Effects Label.Resyncs db (requeueForResync db kind secs n shards recompose) := by
  refine Steps.trans ((update_effects (k := .quiet) trivial ?_).mono fun _ => Label.Calm.resyncs)
    (enqueueAll_effects trivial ?_)
  · intro r _ _
    constructor <;> first | rfl | exact fun h => h | (constructor <;> rfl) | skip
    cases recompose
    · exact Or.inl rfl
    · exact Or.inr rfl
  · intro r listed
    have picked := mem_byId.mp listed
    obtain ⟨here, due⟩ := mem_filter.mp (Scan.mem_of_mem_pick picked)
    simp only [resyncDue, Bool.and_eq_true, Bool.not_eq_true', decide_eq_true_eq] at due
    obtain ⟨⟨⟨⟨⟨-, unmarked⟩, unfrozen⟩, settled⟩, -⟩, -⟩ := due
    refine ⟨.resynced, trivial, rfl, { r with
      lastReconciledAt := some db.now
      composedGen := if recompose then 0 else r.composedGen }, mem_updateResources.mpr ⟨r, here, ?_⟩,
      ⟨rfl, rfl, rfl, rfl⟩, unmarked, unfrozen, settled⟩
    exact if_pos (decide_eq_true (mem_map_of_mem picked))

/-! ## Deletion -/

theorem delete_effects (db : Db) (ids : List Uuid) : Effects Label.Sweeps db (deleteResources db ids) :=
  Steps.one (l := .delete) trivial (.delete ids)

theorem cascadeMark_effects (db : Db) (id : Uuid) : Effects Label.Sweeps db (cascadeMarkForDeletion db id) := by
  refine still_effects (k := .mark) (fun _ => Label.Calm.sweeps) trivial trivial ?_
  intro r _ picked
  simp only [Bool.and_eq_true, Bool.not_eq_true'] at picked
  exact ⟨picked.2, rfl⟩

theorem sweepEnqueue_effects (db : Db) (scan : Scan Uuid) (n : Nat) (range : ShardRange) :
    Effects Label.Sweeps db (sweepEnqueue db scan n range) := by
  refine enqueueAll_effects trivial ?_
  intro r listed
  obtain ⟨here, ready⟩ := mem_filter.mp (Scan.mem_of_mem_pick listed)
  simp only [teardownReady, unblocked, Bool.and_eq_true] at ready
  exact Current.of_mem (c := .teardown) trivial here ready.1.1.1.1.1

theorem sweepRounds_effects (n : Nat) (range : ShardRange) (fuel : Nat) (scans : Nat → Scan Uuid)
    (total : Nat) (db : Db) : Effects Label.Sweeps db (sweepRounds n range fuel scans total db) := by
  induction fuel generalizing total db with
  | zero => exact .refl
  | succ fuel ih =>
    have round : Effects Label.Sweeps db
        (sweepDelete (sweepEnqueue db (scans fuel) n range) (scans fuel) n range) :=
      Steps.trans (sweepEnqueue_effects _ _ _ _) (delete_effects _ _)
    simp only [sweepRounds]
    split
    · exact round
    · exact round.trans (ih _ _)

theorem sweepDeletable_effects (db : Db) (scans : Nat → Scan Uuid) (n : Nat) (range : ShardRange) :
    Effects Label.Sweeps db (sweepDeletable db scans n range) :=
  sweepRounds_effects _ _ _ _ _ _

theorem requestResourceDeletion_effects (db : Db) (scans : Nat → Scan Uuid) (id : Uuid) :
    Effects Label.Sweeps db (requestResourceDeletion db scans id) := by
  unfold requestResourceDeletion
  split
  · exact (cascadeMark_effects db id).trans (sweepDeletable_effects _ _ _ _)
  · exact .refl

theorem sweepExpiredOrphans_effects (db : Db) (scan : Scan Uuid) (n : Nat) (range : ShardRange) :
    Effects Label.Sweeps db (sweepExpiredOrphans db scan n range) := by
  have expired : ∀ r ∈ orphansPicked db scan n range, r ∈ db.resources ∧ r.marked = false := by
    intro r picked
    obtain ⟨here, orphan⟩ := mem_filter.mp (Scan.mem_of_mem_pick picked)
    simp only [expiredOrphan, Bool.and_eq_true, Bool.not_eq_true'] at orphan
    exact ⟨here, orphan.1.2⟩
  refine Steps.trans (Steps.trans (still_effects (k := .mark) (fun _ => Label.Calm.sweeps) trivial trivial ?_)
    (enqueueAll_effects trivial ?_)) (delete_effects _ _)
  · intro r here picked
    simp only [decide_eq_true_eq] at picked
    obtain ⟨r', soft, same⟩ := mem_map.mp picked
    obtain ⟨here', unmarked⟩ := expired r' (mem_filter.mp soft).1
    obtain rfl := eq_of_pk resource_primary here' here same
    exact ⟨unmarked, rfl⟩
  · intro r soft
    obtain ⟨here, -⟩ := expired r (mem_filter.mp soft).1
    refine ⟨.teardown, trivial, rfl, markRow db r, ?_, ⟨rfl, rfl, rfl, rfl⟩, rfl⟩
    refine mem_updateResources.mpr ⟨r, here, ?_⟩
    rw [if_pos]
    exact decide_eq_true (mem_map_of_mem soft)

/-! ## Drain -/

theorem popped_waiting : ∀ o ∈ popped db scan n range, o ∈ db.workOutbox := by
  intro o listed
  exact (mem_filter.mp (Scan.mem_of_mem_pick listed)).1

theorem Table.nodup_rows {α : Type} [Keyed α] {κ : Type} {pk : α → κ} (primary : Table.Primary pk)
    (t : Table α) : t.rows.Nodup :=
  t.unique.imp fun ne same => ne (primary _ _ (congrArg pk same))

theorem Table.nodup_pick {α : Type} [Keyed α] {κ ι : Type} [DecidableEq κ] {pk : α → κ}
    (primary : Table.Primary pk) (t : Table α) {s : Scan ι} {ident : α → ι} {order : α → Nat × Nat}
    {p : α → Bool} :
    ((s.pick ident order n (t.rows.filter p)).map pk).Nodup :=
  (Scan.nodup_pick ((Table.nodup_rows primary t).filter _)).map_on fun _ mem _ mem' same =>
    eq_of_pk primary (mem_filter.mp (Scan.mem_of_mem_pick mem)).1
      (mem_filter.mp (Scan.mem_of_mem_pick mem')).1 same

theorem popped_nodup : (popped db scan n range).Nodup :=
  Scan.nodup_pick ((Table.nodup_rows workOutbox_primary _).filter _)

theorem stripFinalizers_effects (calm : ∀ l, l.Calm → allow l) (ok : allow (.row (.strip results)))
    (drained : ∀ o ∈ results, o ∈ db.drained) : Effects allow db (stripFinalizers db results) := by
  refine still_effects calm ok trivial ?_
  intro r _ stripped
  obtain ⟨f, hf⟩ := isSome_iff_exists.mp stripped
  obtain ⟨o, found, name⟩ := bind_eq_some_iff.mp hf
  have listed := mem_of_find?_eq_some found
  have matched := find?_some found
  simp only [Bool.and_eq_true, decide_eq_true_eq] at matched
  refine ⟨o, listed, f, ⟨drained o listed, matched.1.1.1, matched.1.1.2, matched.1.2, name⟩, ?_⟩
  simp only [hf, ne_eq, some.injEq, eq_comm]

theorem requeueTeardowns_effects (db : Db) (results : List OutboxRow) :
    Effects Label.Sweeps db (requeueTeardowns db results) := by
  refine enqueueAll_effects trivial ?_
  intro r listed
  obtain ⟨here, failed⟩ := mem_filter.mp (mem_byId.mp listed)
  simp only [Bool.and_eq_true] at failed
  exact Current.of_mem (c := .teardown) trivial here failed.1.2

theorem resultFor_listed {o : OutboxRow} (found : resultFor results r = some o) :
    o ∈ results ∧ o.taskType = .reconcile ∧ o.resourceId = r.id := by
  have matched := find?_some found
  simp only [Bool.and_eq_true, decide_eq_true_eq] at matched
  exact ⟨mem_of_find?_eq_some found, matched.1.1, matched.1.2⟩

/-- A row after the reconcile results: as it was, or with the one it is updated from. -/
theorem applyResults_row {r' : Resource} (after : r' ∈ (applyResults db results).resources) :
    ∃ r ∈ db.resources, r' = (resultFor results r).elim r (applyResult db · r) := by
  obtain ⟨r, here, rfl⟩ := mem_updateResources.mp after
  refine ⟨r, here, ?_⟩
  cases resultFor results r <;> rfl

theorem applyResults_effects (calm : ∀ l, l.Calm → allow l) (ok : allow (.row (.result results)))
    (rolled : ∀ u : Updated, u.Reported results → allow (.enqueue (.rolled u)))
    (drained : ∀ o ∈ results, o ∈ db.drained) : Effects allow db (applyResults db results) := by
  have rows : ∀ r ∈ db.resources, (resultFor results r).isSome = true → RowStep db r
      ((resultFor results r).elim r (applyResult db · r)) (.result results) := by
    intro r _ found
    obtain ⟨o, ho⟩ := isSome_iff_exists.mp found
    obtain ⟨listed, type, of_⟩ := resultFor_listed ho
    refine ⟨o, listed, ⟨drained o listed, type, of_⟩, ?_⟩
    simp [ho]
  refine updateResources_effects calm ok ?_ rows
  intro r here found _
  obtain ⟨o, listed, of_, new⟩ := rows r here found
  exact rolled _ ⟨o, listed, of_.taskType, of_.resourceId, db, new⟩

theorem recordConditions_effects
    (done : recordConditions db results = some db') : Effects Label.Calm db db' := by
  obtain ⟨s, -, rfl⟩ := map_eq_some_iff.mp done
  exact effects_aux ⟨rfl, rfl, rfl, rfl, rfl, rfl, Nat.le_refl _, rfl, rfl, fun _ => .inl⟩

/-- What the steps of a drain may do, as long as that is allowed. -/
structure Drainable (allow : Label → Prop) (results : List OutboxRow) (db : Db) : Prop
    extends Writable allow db where
  sweeps : ∀ l, l.Sweeps → allow l
  pop : allow (.pop results)
  finalize : allow (.finalize results)
  strip : allow (.row (.strip results))

theorem drainable_tears (results : List OutboxRow) (db : Db) : Drainable (Label.Tears results) results db where
  toWritable := .of_all (fun _ h => h.sweeps.tears) ⟨trivial, nofun⟩ fun _ h => ⟨.inl h, nofun⟩
  sweeps _ h := h.tears
  pop := ⟨rfl, fun _ h => by cases h⟩
  finalize := ⟨rfl, fun _ h => by cases h⟩
  strip := ⟨rfl, fun _ h => by cases h⟩

theorem drainable_rooted (results : List OutboxRow) (db : Db) : Drainable Label.Rooted results db where
  toWritable := .of_all (fun _ h => h.sweeps.rooted) trivial fun _ _ => trivial
  sweeps _ h := h.rooted
  pop := trivial
  finalize := trivial
  strip := trivial

theorem taken_effects (pop : allow (.pop results)) (finalize : allow (.finalize results))
    (waiting : ∀ o ∈ results, o ∈ db.workOutbox) (distinct : results.Nodup) :
    Effects allow db (finalizeOperations (takeResults db results) results) := by
  have taken : ∀ o ∈ results, o ∈ (takeResults db results).drained :=
    fun o h => mem_append_left _ h
  exact Steps.trans (Steps.one pop (.pop results waiting distinct))
    (Steps.one finalize (.finalize results taken))

theorem tornDown_effects (sweeps : ∀ l, l.Sweeps → allow l) (strip : allow (.row (.strip results)))
    (rowScan : Scan Uuid) : Effects allow (finalizeOperations (takeResults db results) results)
      (drainTeardowns db rowScan results) := by
  have taken : ∀ o ∈ results, o ∈ (takeResults db results).drained :=
    fun o h => mem_append_left _ h
  refine Steps.trans ?_ ((requeueTeardowns_effects _ _).mono sweeps)
  refine Steps.trans ?_ ((delete_effects _ _).mono sweeps)
  exact stripFinalizers_effects (fun _ h => sweeps _ h.sweeps) strip fun o h => taken o h

theorem drainTeardowns_effects (ok : Drainable allow results db) (rowScan : Scan Uuid)
    (waiting : ∀ o ∈ results, o ∈ db.workOutbox) (distinct : results.Nodup) :
    Effects allow db (drainTeardowns db rowScan results) :=
  (taken_effects ok.pop ok.finalize waiting distinct).trans (tornDown_effects ok.sweeps ok.strip rowScan)

theorem requeueTeardowns_only (db : Db) (results : List OutboxRow) :
    OnlySchedules db (requeueTeardowns db results) :=
  OnlySchedules.foldl (enqueueNew_only .delete) _ _

theorem stripFinalizers_only (db : Db) (results : List OutboxRow) :
    ∃ t, OnlySchedules { db with resources := t } (stripFinalizers db results) :=
  ⟨_, updateResources_only _ _ _ _⟩

theorem drainTeardowns_drained (rowScan : Scan Uuid) (results : List OutboxRow) :
    (drainTeardowns db rowScan results).drained = results ++ db.drained := by
  obtain ⟨t, strip⟩ := stripFinalizers_only (finalizeOperations (takeResults db results) results) results
  unfold drainTeardowns
  rw [(requeueTeardowns_only _ _).drained]
  exact strip.drained

theorem drainTeardowns_kindConfig (rowScan : Scan Uuid) (results : List OutboxRow) :
    (drainTeardowns db rowScan results).kindConfig = db.kindConfig := by
  obtain ⟨t, strip⟩ := stripFinalizers_only (finalizeOperations (takeResults db results) results) results
  unfold drainTeardowns
  rw [(requeueTeardowns_only _ _).kindConfig]
  exact strip.kindConfig

theorem drainOutboxBatch_none (none : popped db scan n range = [])
    (done : drainOutboxBatch db scan rowScan order n range = some db') : db = db' := by
  rw [drainOutboxBatch, if_pos none] at done
  exact some.inj done

/-- A drain that pops something: the teardowns, substitution up to `mid`, then the
reconcile results, then the conditions. -/
theorem drainOutboxBatch_some (some_ : popped db scan n range ≠ [])
    (done : drainOutboxBatch db scan rowScan order n range = some db') :
    ∃ mid, substitute (drainTeardowns db rowScan (popped db scan n range)) order
        (popped db scan n range) = some mid ∧
      recordConditions (applyResults mid (popped db scan n range)) (popped db scan n range) = some db' := by
  rw [drainOutboxBatch, if_neg some_] at done
  exact bind_eq_some_iff.mp done

theorem drainOutboxBatch_parts (ok : Writable allow (drainTeardowns db rowScan (popped db scan n range)))
    (some_ : popped db scan n range ≠ []) (done : drainOutboxBatch db scan rowScan order n range = some db') :
    ∃ mid, Effects allow (drainTeardowns db rowScan (popped db scan n range)) mid ∧
      mid.drained = popped db scan n range ++ db.drained ∧
      recordConditions (applyResults mid (popped db scan n range)) (popped db scan n range) = some db' := by
  obtain ⟨mid, patched, recorded⟩ := drainOutboxBatch_some some_ done
  obtain ⟨t, only⟩ := patchSpecs_only patched
  exact ⟨mid, patchSpecs_effects ok patched, only.drained.trans (drainTeardowns_drained _ _), recorded⟩

theorem drainOutboxBatch_drained (done : drainOutboxBatch db scan rowScan order n range = some db') :
    db'.drained = popped db scan n range ++ db.drained := by
  by_cases none : popped db scan n range = []
  · obtain rfl := drainOutboxBatch_none none done
    rw [none, nil_append]
  · obtain ⟨mid, -, drained, recorded⟩ := drainOutboxBatch_parts (Writable.wrote _) none done
    obtain ⟨s, -, rfl⟩ := map_eq_some_iff.mp recorded
    rw [← drained]
    exact (updateResources_only _ _ _ _).drained

theorem drainOutboxBatch_stages (ok : Drainable allow (popped db scan n range) db)
    (some_ : popped db scan n range ≠ []) (done : drainOutboxBatch db scan rowScan order n range = some db') :
    ∃ mid, Effects allow db mid ∧ mid.drained = popped db scan n range ++ db.drained ∧
      recordConditions (applyResults mid (popped db scan n range)) (popped db scan n range) = some db' := by
  have torn := drainTeardowns_effects ok rowScan popped_waiting popped_nodup
  obtain ⟨mid, flows, drained, recorded⟩ :=
    drainOutboxBatch_parts (ok.toWritable.after torn) some_ done
  exact ⟨mid, torn.trans flows, drained, recorded⟩

theorem drained_effects (ok : Writable allow (drainTeardowns db rowScan (popped db scan n range)))
    (applies : allow (.row (.result (popped db scan n range))))
    (rolled : ∀ u : Updated, u.Reported (popped db scan n range) → allow (.enqueue (.rolled u)))
    (some_ : popped db scan n range ≠ []) (done : drainOutboxBatch db scan rowScan order n range = some db') :
    Effects allow (drainTeardowns db rowScan (popped db scan n range)) db' := by
  obtain ⟨mid, flows, drained, recorded⟩ := drainOutboxBatch_parts ok some_ done
  refine flows.trans ?_
  refine Steps.trans (applyResults_effects ok.calm applies rolled fun o listed => ?_)
    ((recordConditions_effects recorded).mono ok.calm)
  rw [drained]
  exact mem_append_left _ listed

theorem drainOutboxBatch_run (ok : Drainable allow (popped db scan n range) db)
    (applies : allow (.row (.result (popped db scan n range))))
    (rolled : ∀ u : Updated, u.Reported (popped db scan n range) → allow (.enqueue (.rolled u)))
    (done : drainOutboxBatch db scan rowScan order n range = some db') : Effects allow db db' := by
  by_cases none : popped db scan n range = []
  · obtain rfl := drainOutboxBatch_none none done
    exact .refl
  · have torn := drainTeardowns_effects ok rowScan popped_waiting popped_nodup
    exact torn.trans (drained_effects (ok.toWritable.after torn) applies rolled none done)

theorem drainOutboxBatch_effects (done : drainOutboxBatch db scan rowScan order n range = some db') :
    Effects (Label.Drains (popped db scan n range)) db db' :=
  drainOutboxBatch_run
    ⟨.of_all (fun _ h => h.sweeps.drains) trivial fun _ => .inl, fun _ h => h.drains, rfl, rfl, rfl⟩
    rfl (fun _ => .inr) done

/-! ## Commands -/

theorem quiet_effects {p : Resource → Bool} {f : Resource → Resource}
    {keeps : ∀ r, Keyed.key (f r) = Keyed.key r} (quiet : ∀ r, Quiet r (f r)) :
    Effects Label.Calm db { db with resources := db.resources.updateWhere p f keeps } :=
  Steps.one (l := .row .quiet) trivial (.row .quiet p f keeps fun r _ _ => quiet r)

theorem logSpec_effects {v : SpecVersion} {free : ¬ db.specVersions.Occupied v} (current : v.Current db) :
    Effects Label.Calm db { db with specVersions := db.specVersions.push v free } := by
  refine effects_aux ⟨rfl, rfl, rfl, rfl, rfl, rfl, Nat.le_refl _, rfl, rfl, fun w after => ?_⟩
  rcases (mem_push free).mp after with rfl | old
  · exact .inr current
  · exact .inl old

/-- Inserting a resource whose owner, if any, is stored, into the owner's tree. -/
theorem insertResource_effects {kind : String} {name : String} {labels : Json}
    {owner root : Option Uuid} (ok : allow (.insert owner))
    (present : ∀ id, owner = some id → ∃ p ∈ db.resources, p.id = id ∧ root = some (p.rootId.getD p.id))
    (top : owner = none → root = none)
    (free : ¬ db.resources.Occupied (freshResource db (Postgres.randomUuid db.drawn) kind version name
      spec labels owner root config)) :
    Effects allow db { db with resources := db.resources.push _ free, drawn := db.drawn + 1 } :=
  Steps.one (l := .insert owner) ok
    (.insert _ ⟨rfl, rfl, rfl, rfl, rfl, rfl, rfl, rfl, rfl, rfl, present, top⟩ free)

theorem createRoot_cases {a : ApplySpec} (done : createRoot db a config = some (db', r)) :
    r = freshResource db (Postgres.randomUuid db.drawn) a.kind a.kindVersion a.name a.spec a.labels none
      none config ∧ ∃ (free : ¬ db.resources.Occupied r)
        (unlogged : ¬ db.specVersions.Occupied ⟨r.id, 1, a.spec⟩), db' = { db with
          resources := db.resources.push r free
          specVersions := db.specVersions.push ⟨r.id, 1, a.spec⟩ unlogged
          drawn := db.drawn + 1 } := by
  obtain ⟨t, inserted, rest⟩ := bind_eq_some_iff.mp done
  obtain ⟨mid, logged, pair⟩ := map_eq_some_iff.mp rest
  cases pair
  obtain ⟨versions, added, rfl⟩ := map_eq_some_iff.mp logged
  obtain ⟨free, rfl⟩ := push_of_insert? inserted
  obtain ⟨unlogged, rfl⟩ := push_of_insert? added
  exact ⟨rfl, free, unlogged, rfl⟩

theorem createRoot_effects {a : ApplySpec}
    (done : createRoot db a config = some (db', r)) : Effects Label.Calm db db' := by
  obtain ⟨rfl, free, unlogged, rfl⟩ := createRoot_cases done
  have root : (Label.insert none).Calm := rfl
  refine (insertResource_effects root (fun _ h => by cases h) (fun _ => rfl) free).trans ?_
  exact logSpec_effects ⟨_, (mem_push free).mpr (.inl rfl), rfl, rfl⟩

theorem setLabels_effects (db : Db) (id : Uuid) (labels : Json) :
    Effects Label.Calm db (setLabels db id labels) := by
  refine quiet_effects fun r => ?_
  constructor <;> first | rfl | exact fun h => h | (constructor <;> rfl)

theorem rewriteRoot_effects (ok : Writable allow db) (a : ApplySpec)
    (config : Option Uuid) (prev : Resource) : Effects allow db (rewriteRoot db a config prev) := by
  refine write_effects ok fun r _ _ => ?_
  constructor <;> first | rfl | (constructor <;> rfl)

theorem overwriteRoot_cases {a : ApplySpec}
    (done : overwriteRoot db a config prev = some (db', r)) : r.id = prev.id ∧ ∃ versions,
      db' = { rewriteRoot (setLabels db prev.id a.labels) a config prev with specVersions := versions } ∧
      (versions = db.specVersions ∨ prev.spec ≠ a.spec ∧
        ∃ free, versions = db.specVersions.push ⟨prev.id, prev.generation + 1, a.spec⟩ free) := by
  obtain ⟨mid, logged, pair⟩ := map_eq_some_iff.mp done
  cases pair
  have log : (rewriteRoot (setLabels db prev.id a.labels) a config prev).specVersions = db.specVersions :=
    (updateResources_only _ _ _ _).specVersions
  split at logged
  · cases logged
    exact ⟨rfl, db.specVersions, by rw [← log], .inl rfl⟩
  · rename_i differs
    obtain ⟨versions, added, rfl⟩ := map_eq_some_iff.mp logged
    rw [log] at added
    obtain ⟨free, rfl⟩ := push_of_insert? added
    exact ⟨rfl, _, rfl, .inr ⟨differs, free, rfl⟩⟩

/-- The row an apply leaves of `prev`: relabelled, and written if its spec or its config changes. -/
def overwrittenRow (db : Db) (a : ApplySpec) (config : Option Uuid) (prev : Resource) : Resource :=
  if a.rewrites config prev then { prev with
    labels := a.labels
    spec := a.spec
    providerConfigId := config
    generation := prev.generation + 1
    updatedAt := db.now }
  else { prev with labels := a.labels }

/-- Written or not, it has the spec and the config of the request. -/
structure Overwrites (a : ApplySpec) (config : Option Uuid) (r r' : Resource) : Prop
    extends SameRow r r' where
  kindVersion : r'.kindVersion = r.kindVersion
  frozen : r'.frozen = r.frozen
  marked : r'.marked = r.marked
  spec : r'.spec = a.spec
  config : r'.providerConfigId = config

theorem overwrittenRow_overwrites (db : Db) (a : ApplySpec) (config : Option Uuid) (prev : Resource) :
    Overwrites a config prev (overwrittenRow db a config prev) := by
  unfold overwrittenRow
  split <;> rename_i changed
  · exact ⟨⟨rfl, rfl, rfl, rfl, rfl⟩, rfl, rfl, rfl, rfl, rfl⟩
  · simp only [ApplySpec.rewrites, Bool.or_eq_true, decide_eq_true_eq, not_or, not_not] at changed
    exact ⟨⟨rfl, rfl, rfl, rfl, rfl⟩, rfl, rfl, rfl, changed.1, changed.2⟩

/-- The rows after an apply on `prev`. -/
theorem mem_rewriteRoot {a : ApplySpec} (stored : prev ∈ db.resources) :
    r ∈ (rewriteRoot (setLabels db prev.id a.labels) a config prev).resources ↔
      r = overwrittenRow db a config prev ∨ r ∈ db.resources ∧ r.id ≠ prev.id := by
  simp only [rewriteRoot, mem_updateResources, setLabels, mem_updateWhere, decide_eq_true_eq]
  constructor
  · rintro ⟨_, ⟨s, here, rfl⟩, rfl⟩
    by_cases same : s.id = prev.id
    · obtain rfl := eq_of_pk resource_primary here stored same
      cases changed : a.rewrites config s <;> simp [overwrittenRow, changed]
    · simp [same, here]
  · rintro (rfl | ⟨here, other⟩)
    · refine ⟨{ prev with labels := a.labels }, ⟨prev, stored, if_pos rfl⟩, ?_⟩
      cases changed : a.rewrites config prev <;> simp [overwrittenRow, changed]
    · exact ⟨r, ⟨r, here, if_neg other⟩, by simp [other]⟩

theorem rewriteRoot_has {a : ApplySpec} (config : Option Uuid)
    (here : prev ∈ db.resources) (differs : prev.spec ≠ a.spec) :
    ∃ r ∈ (rewriteRoot (setLabels db prev.id a.labels) a config prev).resources,
      r.id = prev.id ∧ r.generation = prev.generation + 1 ∧ r.spec = a.spec := by
  have row := overwrittenRow_overwrites db a config prev
  refine ⟨_, (mem_rewriteRoot here).mpr (.inl rfl), row.id, ?_, row.spec⟩
  simp [overwrittenRow, ApplySpec.rewrites, differs]

theorem overwriteRoot_effects {a : ApplySpec} (ok : Writable allow db)
    (here : prev ∈ db.resources) (done : overwriteRoot db a config prev = some (db', r)) :
    Effects allow db db' := by
  have labels := setLabels_effects db prev.id a.labels
  have rewrites := (labels.mono ok.calm).trans (rewriteRoot_effects (ok.after labels) a config prev)
  have log : (rewriteRoot (setLabels db prev.id a.labels) a config prev).specVersions = db.specVersions :=
    (updateResources_only _ _ _ _).specVersions
  obtain ⟨-, versions, rfl, rfl | ⟨differs, free, rfl⟩⟩ := overwriteRoot_cases done
  · rwa [← log]
  · obtain ⟨r, written, same, generation, -⟩ := rewriteRoot_has config here differs
    simp only [← log]
    exact rewrites.trans ((logSpec_effects ⟨r, written, same, generation⟩).mono ok.calm)

theorem applySpec_cases {a : ApplySpec} (done : applySpec db a = some db') :
    ∃ config, resolveConfig db a = some config ∧ ((∃ mid r, createRoot db a config = some (mid, r) ∧
          db.resources.lookup (fun r => (r.kind, r.name)) (a.kind, a.name) = none ∧
          db' = emit .created (scheduleEligible mid [r.id]) r) ∨
        ∃ prev, db.resources.lookup (fun r => (r.kind, r.name)) (a.kind, a.name) = some prev ∧
          ((prev.spec = a.spec ∧ prev.providerConfigId = config ∧ prev.labels = a.labels) ∧ db' = db ∨
            ¬ (prev.spec = a.spec ∧ prev.providerConfigId = config ∧ prev.labels = a.labels) ∧
              ∃ mid r, overwriteRoot db a config prev = some (mid, r) ∧
                db' = emit .created (scheduleEligible mid [r.id]) r)) := by
  unfold applySpec at done
  split at done
  · cases done
  · obtain ⟨config, resolved, rest⟩ := bind_eq_some_iff.mp done
    refine ⟨config, resolved, ?_⟩
    split at rest
    · rename_i missing
      obtain ⟨⟨mid, r⟩, create, rfl⟩ := map_eq_some_iff.mp rest
      exact .inl ⟨mid, r, create, missing, rfl⟩
    · rename_i prev found
      refine .inr ⟨prev, found, ?_⟩
      split at rest
      · rename_i same
        cases rest
        exact .inl ⟨same, rfl⟩
      · rename_i differs
        obtain ⟨⟨mid, r⟩, write, rfl⟩ := map_eq_some_iff.mp rest
        exact .inr ⟨differs, mid, r, write, rfl⟩

theorem created_only (mid : Db) (r : Resource) :
    OnlySchedules mid (emit .created (scheduleEligible mid [r.id]) r) :=
  (scheduleEligible_only mid [r.id]).trans (emit_only .created _ r)

theorem applySpec_effects {a : ApplySpec} (ok : Writable allow db)
    (done : applySpec db a = some db') : Effects allow db db' := by
  obtain ⟨config, -, ⟨mid, r, created, -, rfl⟩ | ⟨prev, found, ⟨-, rfl⟩ | ⟨-, mid, r, overwritten, rfl⟩⟩⟩ :=
    applySpec_cases done
  · exact (((createRoot_effects created).trans (scheduleEligible_effects _ _)).trans
      (emit_effects _ _ _)).mono ok.calm
  · exact .refl
  · exact (overwriteRoot_effects ok (mem_of_lookup found).1 overwritten).trans
      (((scheduleEligible_effects _ _).trans (emit_effects _ _ _)).mono ok.calm)

theorem reconcile_effects (ok : Writable allow db) (id : Uuid) : Effects allow db (reconcile db id) := by
  refine Steps.trans (write_effects ok fun r _ _ => ?_) ((scheduleEligible_effects _ _).mono ok.calm)
  constructor <;> first | rfl | (constructor <;> rfl)

theorem flip_effects {old new : Nat} (ok : Writable allow db)
    (done : flipResourceKindVersion db id old new spec = some db') : Effects allow db db' := by
  unfold flipResourceKindVersion at done
  split at done
  · cases done
  · split at done
    · cases done
      refine Steps.trans (Steps.trans (write_effects ok fun r _ _ => ?_)
        ((scheduleEligible_effects _ _).mono ok.calm))
        (Steps.one (l := .relabel) (ok.calm _ trivial) (.relabel _ ?_))
      · constructor <;> first | rfl | (constructor <;> rfl)
      · intro d listed
        rw [mem_updateWhere] at listed
        obtain ⟨e, here, rfl⟩ := listed
        refine ⟨e, here, ?_⟩
        split <;> exact ⟨rfl, rfl, rfl⟩
    · cases done
      exact .refl

theorem rollbackToSpec_effects (ok : Writable allow db) (id : Uuid)
    (gen : Nat) : Effects allow db (rollbackToSpec db id gen) := by
  unfold rollbackToSpec
  split
  · exact .refl
  · split
    · refine Steps.trans (write_effects ok fun r _ _ => ?_) ((scheduleEligible_effects _ _).mono ok.calm)
      constructor <;> first | rfl | (constructor <;> rfl)
    · exact .refl

theorem quarantineResource_effects (db : Db) (id : Uuid) :
    Effects Label.Calm db (quarantineResource db id) := by
  unfold quarantineResource
  simp only
  split
  · refine Steps.trans (update_effects (k := .quiet) trivial fun r _ _ => ?_)
      (Steps.one (l := .remove (some .reconcile)) rfl (.remove (some .reconcile) _ ?_ ?_))
    · constructor <;> first | rfl | exact fun _ => rfl | (constructor <;> rfl)
    · intro q _ removed
      simp only [Bool.and_eq_true] at removed
      exact isNone_iff_eq_none.mp removed.2
    · rintro q - removed taskType ⟨⟩
      simp only [Bool.and_eq_true, decide_eq_true_eq] at removed
      exact removed.1.2
  · exact .refl

def Label.Thaws (id : Uuid) : Label → Prop
  | .row (.thaw thawed) => thawed = id
  | l => l.Calm

theorem Label.Calm.thaws (h : l.Calm) : l.Thaws id := by
  cases l with
  | row k => cases k <;> first | exact h | exact h.elim
  | _ => exact h

theorem unquarantineResource_effects (db : Db) (id : Uuid) :
    Effects (Label.Thaws id) db (unquarantineResource db id) := by
  unfold unquarantineResource
  simp only
  split
  · refine Steps.trans (still_effects (k := .thaw id) (fun _ => Label.Calm.thaws) rfl trivial ?_)
      ((scheduleEligible_effects _ _).mono fun _ => Label.Calm.thaws)
    intro r _ picked
    simp only [Bool.and_eq_true, decide_eq_true_eq] at picked
    exact ⟨picked.1, rfl⟩
  · exact .refl

theorem upsertProviderConfig_effects {c : ProviderConfig}
    (done : upsertProviderConfig db c = some db') : Effects Label.Calm db db' := by
  unfold upsertProviderConfig at done
  split at done
  · obtain ⟨t, -, rfl⟩ := map_eq_some_iff.mp done
    exact effects_aux ⟨rfl, rfl, rfl, rfl, rfl, rfl, Nat.le_refl _, rfl, rfl, fun _ => .inl⟩
  · obtain ⟨t, -, rfl⟩ := map_eq_some_iff.mp done
    exact effects_aux ⟨rfl, rfl, rfl, rfl, rfl, rfl, Nat.le_succ _, rfl, rfl, fun _ => .inl⟩

theorem deleteConfigs_effects (db : Db) (p : ProviderConfig → Bool) :
    Effects Label.Calm db (deleteConfigs db p) := by
  refine Steps.trans (quiet_effects fun r => ?_) (effects_aux
    ⟨rfl, rfl, rfl, rfl, rfl, rfl, Nat.le_refl _, rfl, rfl, fun _ => .inl⟩)
  constructor <;> first | rfl | exact fun h => h | (constructor <;> rfl)

theorem upsertKindManifest_effects {m : KindManifest} (done : upsertKindManifest db m = some db') :
    Effects Label.Calm db db' := by
  unfold upsertKindManifest at done
  split at done
  · cases done
  · cases done
    split
    · refine Steps.trans ?_ (update_effects (k := .quiet) trivial fun r _ _ => ?_)
      · exact effects_aux ⟨rfl, rfl, rfl, rfl, rfl, rfl, Nat.le_refl _, rfl, rfl, fun _ => .inl⟩
      · constructor <;> first | rfl | exact fun h => h | (constructor <;> rfl)
    · exact effects_aux ⟨rfl, rfl, rfl, rfl, rfl, rfl, Nat.le_refl _, rfl, rfl, fun _ => .inl⟩

theorem deleteKindManifest_effects {kind : String}
    (done : deleteKindManifest db kind version = some db') : Effects Label.Calm db db' := by
  unfold deleteKindManifest at done
  split at done
  · cases done
  · split at done
    · cases done
    · cases done
      exact (deleteConfigs_effects _ _).trans (effects_aux
        ⟨rfl, rfl, rfl, rfl, rfl, rfl, Nat.le_refl _, rfl, rfl, fun _ => .inl⟩)

def Label.Operates : Label → Prop
  | .ops | .enqueue .operation => True
  | _ => False

theorem pushWork_effects {w : WorkQueueRow} (new : Enqueued db .operation w)
    (free : ¬ db.workQueue.Occupied w) : Effects Label.Operates db
      { db with workQueue := db.workQueue.push w free, drawn := db.drawn + 1 } :=
  Steps.one (l := .enqueue .operation) trivial (.enqueue .operation w new free)

/-- What no update of a queue row changes, and every task copies. -/
structure Job where
  id : Uuid
  resourceId : Uuid
  taskType : TaskType
  opId : Option Uuid

def WorkQueueRow.job (q : WorkQueueRow) : Job := ⟨q.id, q.resourceId, q.taskType, q.opId⟩

def WorkTask.job (t : WorkTask) : Job := ⟨t.id, t.resourceId, t.taskType, t.opId⟩

theorem not_final {op : ResourceOperation} (state : op.state = .pending ∨ op.state = .running) : ¬ op.final := by
  rintro (final | final) <;> rcases state with state | state <;> exact nomatch state.symm.trans final

/-- What accepting an operation leaves: one more record, and its task in the queue. -/
theorem createOperation_spec {verb : String} (done : createOperation db id verb input = some db') :
    ∃ (op : ResourceOperation) (w : WorkQueueRow) (free : ¬ db.operations.Occupied op)
      (slot : ¬ db.workQueue.Occupied w),
      op.id = Postgres.randomUuid db.drawn ∧ op.resourceId = id ∧ op.state = .pending ∧
      w.job = ⟨Postgres.randomUuid (db.drawn + 1), id, .operate, some op.id⟩ ∧
      Enqueued { db with operations := db.operations.push op free, drawn := db.drawn + 1 } .operation w ∧
      db' = { db with
        operations := db.operations.push op free
        workQueue := db.workQueue.push w slot
        drawn := db.drawn + 2 } := by
  obtain ⟨r, found, rest⟩ := bind_eq_some_iff.mp done
  obtain ⟨operations, inserted, rest⟩ := bind_eq_some_iff.mp rest
  obtain ⟨free, rfl⟩ := push_of_insert? inserted
  split at rest
  · cases rest
  next unfrozen =>
    obtain ⟨t, queued, rfl⟩ := map_eq_some_iff.mp rest
    obtain ⟨slot, rfl⟩ := push_of_insert? queued
    obtain ⟨here, rfl⟩ := mem_of_lookup found
    refine ⟨_, _, free, slot, rfl, rfl, rfl, rfl, ?_, rfl⟩
    exact ⟨rfl, rfl, rfl, fun h => absurd rfl h, r, here, ⟨rfl, rfl, rfl, rfl⟩, Bool.eq_false_iff.mpr unfrozen⟩

theorem createOperation_effects {verb : String}
    (done : createOperation db id verb input = some db') : Effects Label.Operates db db' := by
  obtain ⟨op, w, free, slot, -, -, pending, -, new, rfl⟩ := createOperation_spec done
  have listed : Effects Label.Operates db
      { db with operations := db.operations.push op free, drawn := db.drawn + 1 } := by
    refine Steps.one (l := .ops) trivial (.ops _ (db.drawn + 1) (Nat.le_succ _) ?_)
    intro op' listed final
    rcases (mem_push free).mp listed with rfl | old
    · exact absurd final (not_final (.inl pending))
    · exact old
  exact listed.trans (pushWork_effects new slot)

theorem mem_setOperationRunning {op' : ResourceOperation}
    (after : op' ∈ (setOperationRunning db id).operations) :
    ∃ op ∈ db.operations, op.id = op'.id ∧ op.resourceId = op'.resourceId ∧
      (op' = op ∨ ¬ op'.final ∧ ¬ op.final) := by
  unfold setOperationRunning at after
  rw [mem_updateWhere] at after
  obtain ⟨op, here, rfl⟩ := after
  refine ⟨op, here, ?_⟩
  split
  · rename_i started
    simp only [Bool.and_eq_true, Bool.or_eq_true, decide_eq_true_eq] at started
    exact ⟨rfl, rfl, .inr ⟨not_final (.inr rfl), not_final started.2⟩⟩
  · exact ⟨rfl, rfl, .inl rfl⟩

theorem setOperationRunning_effects (db : Db) (id : Uuid) :
    Effects Label.Operates db (setOperationRunning db id) := by
  refine Steps.one (l := .ops) trivial (.ops _ db.drawn (Nat.le_refl _) ?_)
  intro op' after final
  obtain ⟨op, here, -, -, rfl | ⟨open_, -⟩⟩ := mem_setOperationRunning after
  · exact here
  · exact absurd final open_

/-! ## Compose -/

theorem insertChildren_effects {children : List ChildSpec} (ok : allow (.insert (some parent)))
    (present : ∃ p ∈ db.resources, p.id = parent ∧ root = p.rootId.getD p.id)
    (done : children.foldlM (insertChild parent root) db = some db') : Effects allow db db' := by
  refine (Steps.foldlM (P := fun s => ∃ p ∈ s.resources, p.id = parent ∧ root = p.rootId.getD p.id)
    ?_ present done).1
  intro s s' c here _ each
  obtain ⟨t, inserted, rfl⟩ := map_eq_some_iff.mp each
  obtain ⟨free, rfl⟩ := push_of_insert? inserted
  refine ⟨insertResource_effects ok (fun id h => ?_) (fun h => by cases h) free, ?_⟩
  · cases h
    obtain ⟨p, stored, same, rfl⟩ := here
    exact ⟨p, stored, same, rfl⟩
  · obtain ⟨p, hp, same⟩ := here
    exact ⟨p, (mem_push free).mpr (.inr hp), same⟩

theorem updateChildren_effects (ok : Writable allow db)
    (decls : List (Resource × ChildSpec)) : Effects allow db (updateChildren db decls) := by
  refine Steps.trans (write_effects ok fun r _ picked => ?_) ((quiet_effects fun r => ?_).mono ok.calm)
  · cases h : declFor decls r with
    | none => simp [h] at picked
    | some c => constructor <;> first | rfl | (constructor <;> rfl)
  · constructor <;> first | rfl | exact fun h => h | (constructor <;> rfl)

theorem batchUpsertChildren_effects {existing : List Resource}
    (ok : Writable allow db) (adds : allow (.insert (some parent)))
    (present : ∃ p ∈ db.resources, p.id = parent ∧ root = p.rootId.getD p.id)
    (done : batchUpsertChildren db parent root existing out = some db') : Effects allow db db' := by
  obtain ⟨inserted, insert, rfl⟩ := map_eq_some_iff.mp done
  have inserts := insertChildren_effects adds present insert
  exact inserts.trans (updateChildren_effects (ok.after inserts) _)

theorem softDelete_effects (db : Db) (scans : Uuid → Nat → Scan Uuid) (stale : List Resource) :
    Effects Label.Sweeps db (softDelete db scans stale) :=
  (Steps.foldl (P := fun _ => True) (fun _ _ => ⟨requestResourceDeletion_effects _ _ _, trivial⟩) trivial).1

/-- A grace period is stamped on an unfrozen row, so never over a quarantine. -/
theorem graceStamp_quiet {stale : List Resource}
    (picked : ((graceFor pol stale r).isSome && !r.marked && !r.frozen) = true) : Quiet r { r with
      frozenUntil := (graceFor pol stale r).map fun seconds => .until (db.now + seconds)
      updatedAt := db.now } := by
  constructor <;> first | rfl | (constructor <;> rfl) | skip
  intro quarantined
  simp [Resource.frozen, quarantined] at picked

theorem markChildrenOrphaned_effects (db : Db) (pol : ComposePolicy) (stale : List Resource) :
    Effects Label.Calm db (markChildrenOrphaned db pol stale) :=
  update_effects (k := .quiet) trivial fun _ _ picked => graceStamp_quiet picked

theorem pruneChildren_effects (db : Db) (scans : Uuid → Nat → Scan Uuid) (pol : ComposePolicy)
    (stale : List Resource) : Effects Label.Sweeps db (pruneChildren db scans pol stale) := by
  refine Steps.trans ?_ (delete_effects _ _)
  exact (softDelete_effects db scans _).trans
    ((markChildrenOrphaned_effects _ _ _).mono fun _ => Label.Calm.sweeps)

theorem clearOrphanMarks_effects (db : Db) (existing : List Resource) (children : List ChildSpec) :
    Effects Label.Calm db (clearOrphanMarks db existing children) := by
  refine update_effects (k := .quiet) trivial fun r _ picked => ?_
  constructor <;> first | rfl | (constructor <;> rfl) | skip
  intro quarantined
  simp [quarantined] at picked

theorem applyEdges_only (done : applyEdges db parent produced = some db') : ∃ t, db' = { db with deps := t } := by
  unfold applyEdges batchUpsertDeps at done
  split at done
  · cases done
  · split at done
    · cases done
      exact ⟨_, rfl⟩
    · cases done

theorem applyEdges_effects (ok : allow .rewire)
    (done : applyEdges db parent produced = some db') : Effects allow db db' := by
  obtain ⟨t, rfl⟩ := applyEdges_only done
  exact Steps.one ok (.rewire t)

theorem applyComposedConfigs_effects {owner : Uuid} {configs : List ProviderConfigSpec}
    (done : applyComposedConfigs db owner configs = some db') : Effects Label.Calm db db' := by
  obtain ⟨t, n, p, grown, rfl⟩ := applyComposedConfigs_only done
  refine Steps.trans ?_ (deleteConfigs_effects _ _)
  exact effects_aux ⟨rfl, rfl, rfl, rfl, rfl, rfl, grown, rfl, rfl, fun _ => .inl⟩

/-- The stages of a compose up to its edges: the parent, the state with the emitted
children in place, the emitted edges by id, and the state with these in place. -/
structure ComposeStages (db : Db) (env : ComposeEnv) (t : WorkTask) (out : ComposeOutput)
    (pol : ComposePolicy) (parent : Resource) (upserted : Db) (produced : List ResourceDep)
    (wired : Db) : Prop where
  found : db.resource? t.resourceId = some parent
  upsert : batchUpsertChildren db parent.id (parent.rootId.getD parent.id)
    (shuffle env.childOrder (existingChildren db parent.id)) out = some upserted
  resolve : resolveEdges (refToId upserted parent.id out.children) out.edges = some produced
  wire : applyEdges (composeChildren upserted env pol
    (shuffle env.childOrder (existingChildren db parent.id)) out) parent.id produced = some wired

section Compose

variable {env : ComposeEnv} {t : WorkTask} {out : ComposeOutput} {pol : ComposePolicy}

/-- A compose body that goes through has its stages, then the value flows of the emitted
edges, then the configs. -/
theorem composeBody_cases (done : composeBody db env t out pol = some (db', ids)) :
    ∃ parent upserted produced wired flowed, ComposeStages db env t out pol parent upserted produced wired ∧
        applyValueFlowsForDependents wired env.flowOrder (flowingDependents produced) = some flowed ∧
        applyComposedConfigs flowed parent.id out.configs = some db' := by
  obtain ⟨parent, found, rest⟩ := bind_eq_some_iff.mp done
  split at rest
  · cases rest
  · obtain ⟨upserted, upsert, rest⟩ := bind_eq_some_iff.mp rest
    obtain ⟨produced, resolve, rest⟩ := bind_eq_some_iff.mp rest
    obtain ⟨wired, wire, rest⟩ := bind_eq_some_iff.mp rest
    obtain ⟨flowed, flow, rest⟩ := bind_eq_some_iff.mp rest
    obtain ⟨last, configs, pair⟩ := map_eq_some_iff.mp rest
    cases pair
    exact ⟨parent, upserted, produced, wired, flowed, ⟨found, upsert, resolve, wire⟩, flow, configs⟩

theorem composeBody_parts (done : composeBody db env t out pol = some (db', ids)) :
    ∃ parent upserted produced wired, ComposeStages db env t out pol parent upserted produced wired ∧
        ∀ {allow : Label → Prop}, Writable allow wired → Effects allow wired db' := by
  obtain ⟨parent, upserted, produced, wired, flowed, stages, flow, configs⟩ := composeBody_cases done
  exact ⟨parent, upserted, produced, wired, stages, fun ok =>
    (applyValueFlows_effects ok flow).trans ((applyComposedConfigs_effects configs).mono ok.calm)⟩

/-- What a compose may do, as long as that is allowed. -/
structure Composable (allow : Label → Prop) (db : Db) : Prop extends Writable allow db where
  sweeps : ∀ l, l.Sweeps → allow l
  insert : ∀ owner, allow (.insert owner)
  rewire : allow .rewire

theorem Composable.plain (db : Db) : Composable Label.Plain db where
  toWritable := .of_all (fun _ h => h.plain) trivial fun _ h => h
  sweeps _ h := h.plain
  insert _ := trivial
  rewire := trivial

section Stages

variable {parent : Resource} {upserted wired : Db} {produced : List ResourceDep}
  (stages : ComposeStages db env t out pol parent upserted produced wired)

include stages

theorem ComposeStages.parent_id : parent.id = t.resourceId := (mem_of_lookup stages.found).2

theorem ComposeStages.present : ∃ p ∈ db.resources, p.id = parent.id ∧
    parent.rootId.getD parent.id = p.rootId.getD p.id :=
  ⟨parent, (mem_of_lookup stages.found).1, rfl, rfl⟩

theorem ComposeStages.pruned_effects (ok : Composable allow db) :
    Effects allow db (composeChildren upserted env pol
      (shuffle env.childOrder (existingChildren db parent.id)) out) := by
  refine Steps.trans ?_ ((clearOrphanMarks_effects _ _ _).mono ok.calm)
  refine Steps.trans ?_ ((pruneChildren_effects _ _ _ _).mono ok.sweeps)
  exact batchUpsertChildren_effects ok.toWritable (ok.insert _) stages.present stages.upsert

theorem ComposeStages.effects (ok : Composable allow db) : Effects allow db wired :=
  (stages.pruned_effects ok).trans (applyEdges_effects ok.rewire stages.wire)

end Stages

theorem composeBody_effects (ok : Composable allow db)
    (done : composeBody db env t out pol = some (db', ids)) : Effects allow db db' := by
  obtain ⟨parent, upserted, produced, wired, stages, rest⟩ := composeBody_parts done
  have wires := stages.effects ok
  exact wires.trans (rest (ok.toWritable.after wires))

theorem stampComposedGen_effects (claimed : t ∈ db.tasks)
    (done : stampComposedGen db t = some db') : Effects Label.Calm db db' := by
  unfold stampComposedGen at done
  split at done
  · cases done
    refine update_effects (k := .stamp) trivial fun r _ same => ?_
    exact ⟨t, claimed, (of_decide_eq_true same).symm, rfl⟩
  · cases done

/-- A committed compose: what follows its edges writes specs at most. -/
theorem applyComposeResult_stages (claimed : t ∈ db.tasks)
    (done : applyComposeResult db env t out pol = some db') : ∃ parent upserted produced wired,
      ComposeStages db env t out pol parent upserted produced wired ∧
        ∀ {allow : Label → Prop}, Writable allow wired → Effects allow wired db' := by
  obtain ⟨⟨mid, ids⟩, body, rest⟩ := bind_eq_some_iff.mp done
  obtain ⟨stamped, stamp, rfl⟩ := map_eq_some_iff.mp rest
  have composes := composeBody_effects (Composable.plain db) body
  have stamps := stampComposedGen_effects (composes.tasks_subset claimed) stamp
  obtain ⟨parent, upserted, produced, wired, stages, flows⟩ := composeBody_parts body
  refine ⟨parent, upserted, produced, wired, stages, fun ok => (flows ok).trans ?_⟩
  refine (stamps.mono ok.calm).trans (Steps.mono ok.calm ?_)
  exact effects_aux ⟨rfl, rfl, rfl, rfl, rfl, rfl, Nat.le_refl _, rfl, rfl, fun _ => .inl⟩

theorem applyComposeResult_parts (claimed : t ∈ db.tasks)
    (done : applyComposeResult db env t out pol = some db') : ∃ parent upserted produced wired,
      ComposeStages db env t out pol parent upserted produced wired ∧ Effects Label.Wrote wired db' := by
  obtain ⟨parent, upserted, produced, wired, stages, rest⟩ := applyComposeResult_stages claimed done
  exact ⟨parent, upserted, produced, wired, stages, rest (Writable.wrote wired)⟩

theorem applyComposeResult_effects (ok : Composable allow db) (claimed : t ∈ db.tasks)
    (done : applyComposeResult db env t out pol = some db') : Effects allow db db' := by
  obtain ⟨parent, upserted, produced, wired, stages, rest⟩ := applyComposeResult_stages claimed done
  have wires := stages.effects ok
  exact wires.trans (rest (ok.toWritable.after wires))

end Compose

/-! ## Actions -/

/-- The effects an action may have in `db`. -/
def Action.allows (db : Db) : Action → Label → Prop
  | .unquarantineResource id => Label.Thaws id
  | .createOperation _ _ _ | .setOperationRunning _ => Label.Operates
  | .workQueueTakeBatch _ _ => (· = .claim)
  | .workQueueReleaseBroker _ _ => (· = .release)
  | .workQueueReleaseTasks _ _ _ _ => (· = .release)
  | .appendOutbox _ => (· = .append)
  | .drainOutboxBatch scan _ _ n range => Label.Drains (popped db scan n range)
  | .reapStaleWork _ _ _ _ => (· = .reap)
  | .recountInflight _ => (· = .recount)
  | .deleteUnclaimedWork _ _ _ _ => (· = .remove none)
  | .requeueForResync _ _ _ _ _ => Label.Resyncs
  | .requestResourceDeletion _ _ | .sweepDeletable _ _ _ | .sweepExpiredOrphans _ _ _ => Label.Sweeps
  | .applyComposeResult _ _ _ _ => Label.Plain
  | .applySpec _ | .reconcile _ | .flipResourceKindVersion _ _ _ _ | .rollbackToSpec _ _
  | .applyValueFlowsForDependents _ _ => Label.Wrote
  | _ => Label.Calm

/-- A compose is that of a claimed task and commits, or nothing happens. -/
theorem submitCompose_cases {P : Db → Prop} {env : ComposeEnv} {t : WorkTask} (idle : P db)
    (commits : ∀ db', t ∈ db.tasks → applyComposeResult db env t out pol = some db' → P db') :
    P (submitCompose db env t out pol) := by
  unfold submitCompose
  split
  next held => exact getD_cases idle fun db' => commits db' held.1
  next => exact idle

theorem submitCompose_run (ok : Composable allow db) (env : ComposeEnv) (t : WorkTask) (out : ComposeOutput)
    (pol : ComposePolicy) : Effects allow db (submitCompose db env t out pol) :=
  submitCompose_cases .refl fun _ => applyComposeResult_effects ok

theorem submitCompose_effects (db : Db) (env : ComposeEnv) (t : WorkTask) (out : ComposeOutput)
    (pol : ComposePolicy) : Effects Label.Plain db (submitCompose db env t out pol) :=
  submitCompose_run (Composable.plain db) env t out pol

theorem submitResult_effects (db : Db) (o : OutboxRow) : Effects (· = .append) db (submitResult db o) := by
  unfold submitResult
  split
  · rename_i claimed
    exact appendOutbox_effects claimed
  · exact .refl

/-- Every action is a run of the effects it is allowed. -/
theorem step_effects (db : Db) (a : Action) : Effects (a.allows db) db (step db a) := by
  cases a with
  | applySpec a => exact getD_cases .refl fun _ => applySpec_effects (.wrote db)
  | reconcile id => exact reconcile_effects (.wrote db) id
  | flipResourceKindVersion id o n s => exact getD_cases .refl fun _ => flip_effects (.wrote db)
  | rollbackToSpec id gen => exact rollbackToSpec_effects (.wrote db) id gen
  | quarantineResource id => exact quarantineResource_effects db id
  | unquarantineResource id => exact unquarantineResource_effects db id
  | requestResourceDeletion scans id => exact requestResourceDeletion_effects db scans id
  | createOperation id verb input => exact getD_cases .refl fun _ => createOperation_effects
  | setOperationRunning id => exact setOperationRunning_effects db id
  | upsertProviderConfig c => exact getD_cases .refl fun _ => upsertProviderConfig_effects
  | deleteProviderConfig name => exact deleteConfigs_effects db _
  | upsertKindManifest m => exact getD_cases .refl fun _ => upsertKindManifest_effects
  | deleteKindManifest kind version => exact getD_cases .refl fun _ => deleteKindManifest_effects
  | workQueueTakeBatch scan b => exact Steps.one rfl (.claim scan b)
  | workQueueReleaseBroker scan broker | workQueueReleaseTasks scan broker ids range =>
    exact Steps.one rfl (.release _)
  | workQueueHeartbeat scan tokens range | workQueueIncrementAttempts id
  | workQueueMarkWorkerBatch scan broker workers => exact touch_effects fun q => by constructor <;> rfl
  | appendOutbox o => exact submitResult_effects db o
  | applyComposeResult env t out pol => exact submitCompose_effects db env t out pol
  | applyValueFlowsForDependents order ids =>
    exact getD_cases .refl fun _ => applyValueFlows_effects (.wrote db)
  | drainOutboxBatch scan rowScan order n range =>
    exact getD_cases .refl fun _ => drainOutboxBatch_effects
  | drainRollupRechecks | drainScheduleRechecks =>
    exact Steps.trans (scheduleEligible_effects db _)
      (effects_aux ⟨rfl, rfl, rfl, rfl, rfl, rfl, Nat.le_refl _, rfl, rfl, fun _ => .inl⟩)
  | reapStaleWork scan secs n range => exact reapStaleWork_effects db scan secs n range
  | deleteUnclaimedWork scan secs n range => exact deleteUnclaimedWork_effects db scan secs n range
  | requeueFailedAndPending secs n shards => exact scheduleEligible_effects _ _
  | requeueForResync kind secs n shards recompose =>
    exact requeueForResync_effects db kind secs n shards recompose
  | recountInflight range => exact Steps.one rfl (.recount range)
  | sweepDeletable scans n range => exact sweepDeletable_effects db scans n range
  | sweepExpiredOrphans scan n range => exact sweepExpiredOrphans_effects db scan n range
  | gcSpecHistory scan keep n shards =>
    exact effects_aux ⟨rfl, rfl, rfl, rfl, rfl, rfl, Nat.le_refl _, rfl, rfl,
      fun _ kept => .inl (mem_deleteWhere.mp kept).1⟩
  | _ => exact effects_aux ⟨rfl, rfl, rfl, rfl, rfl, rfl, Nat.le_refl _, rfl, rfl, fun _ => .inl⟩

/-- Not a compose, the one action that adds children and edges. -/
def Action.Rooted : Action → Prop
  | .applyComposeResult _ _ _ _ => False
  | _ => True

theorem Action.Rooted.allows (rooted : a.Rooted) (ok : a.allows db l) : l.Rooted := by
  cases a with
  | applyComposeResult env t out pol => exact rooted.elim
  | drainOutboxBatch scan rowScan order n range => exact Label.Drains.rooted ok
  | requestResourceDeletion scans id | sweepDeletable scans n range | sweepExpiredOrphans scan n range =>
    exact Label.Sweeps.rooted ok
  | _ =>
    cases l with
    | insert owner => first | exact ok | exact ok.elim | cases ok
    | rewire => first | exact ok | cases ok
    | _ => trivial

theorem step_rooted (db : Db) (rooted : a.Rooted) : Effects Label.Rooted db (step db a) :=
  (step_effects db a).mono fun _ => rooted.allows

/-- Everything but what only a drain does. -/
def Label.Undrained : Label → Prop
  | .pop _ | .finalize _ | .row (.strip _) | .row (.result _) => False
  | .enqueue (.rolled u) => Written u.old u.new
  | _ => True

def Action.Undrained : Action → Prop
  | .drainOutboxBatch _ _ _ _ _ => False
  | _ => True

theorem Action.Undrained.allows (undrained : a.Undrained) (ok : a.allows db l) : l.Undrained := by
  cases a with
  | drainOutboxBatch scan rowScan order n range => exact undrained.elim
  | _ =>
    cases l with
    | pop _ | finalize _ => first | exact ok | cases ok
    | row k => cases k <;> first | exact trivial | exact ok | cases ok
    | enqueue cause => cases cause <;> first | exact trivial | exact ok | cases ok
    | _ => trivial

theorem step_undrained (db : Db) (undrained : a.Undrained) : Effects Label.Undrained db (step db a) :=
  (step_effects db a).mono fun _ => undrained.allows

theorem run_tasks_subset (db : Db) (actions : List Action) : db.tasks ⊆ (run db actions).tasks := by
  induction actions generalizing db with
  | nil => exact fun _ h => h
  | cons a rest ih => exact fun _ h => ih (step db a) ((step_effects db a).tasks_subset h)

end Converge.Kernel
