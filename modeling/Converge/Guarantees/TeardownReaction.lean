/-
# Guarantees.TeardownReaction -- the finalizer seeded and the finalizer stripped

A manifest names a finalizer in two places: its own field, which the trigger copies to
`kind_config` and which a mark seeds from there, and the teardown reaction, whose field a
successful teardown strips.  Both validators let the two differ, and let the first be
empty while the second is set.

`teardown_reaction_runs`: what is seeded is what is stripped exactly if the two fields are
equal.  Then a marked row keeps its finalizer until a teardown of it succeeds and has none
from then on, whatever the system does, so that the row is neither removed before the
reaction ran nor kept after it; the exceptions are the composes and orphan sweeps that
remove a row with an owner above it.  With two different fields the row goes without a
teardown, or stays for ever (`teardown_reaction_skipped`).
-/
import Converge.Kernel.Manifest
import Converge.Guarantees.ComposeEmitted

namespace Converge.Kernel

open Converge.Theory List Table Option

set_option autoImplicit false
set_option linter.unusedSectionVars false

variable {allow : Label → Prop} {r : Resource} {t : WorkTask}

section Teardown

variable [Postgres] {db db' : Db} {m : ManifestDoc} {del : ReactionDecl} {id : Uuid}

/-! ## What is seeded, and what is stripped -/

/-- A mark seeds a row of the kind with what a successful teardown of it reports. -/
def SeedsWhatItStrips (m : ManifestDoc) : Prop :=
  ∀ (db : Db) (r : Resource) (t : WorkTask), SyncedFrom m db → r.kind = m.kind →
    r.kindVersion = m.kindVersion.toNat → r.finalizers = [] →
    (markRow db r).finalizers = (reactDelete m t (.ok ())).finalizerName.toList

theorem markRow_seeds (synced : SyncedFrom m db) (kind : r.kind = m.kind)
    (version : r.kindVersion = m.kindVersion.toNat) (none : r.finalizers = []) :
    (markRow db r).finalizers = (nilIfEmpty m.finalizerName).toList := by
  obtain ⟨c, found, name⟩ := map_eq_some_iff.mp synced
  have finalizer : db.kindFinalizer r = nilIfEmpty m.finalizerName := by
    rw [Db.kindFinalizer, kind, version, found, bind_some, name]
    unfold nilIfEmpty
    split
    · rfl
    · rename_i named
      rw [filter_some, if_pos (decide_eq_true named)]
  rw [markRow, finalizer, none]
  cases nilIfEmpty m.finalizerName <;> rfl

theorem reactDelete_strips (accepted : m.accepted = true) (declares : m.deleteReaction = some del)
    {dispatched : Except (String × Bool) Unit}
    (succeeded : (reactDelete m t dispatched).succeeded = true) :
    (reactDelete m t dispatched).finalizerName = some del.finalizer := by
  unfold reactDelete at succeeded ⊢
  rw [declares] at succeeded ⊢
  cases dispatched with
  | error e => cases succeeded
  | ok _ =>
    show nilIfEmpty (m.strips del) = some del.finalizer
    rw [m.strips_declared accepted declares, nilIfEmpty, if_neg (m.finalizer_declared accepted declares)]

theorem seedsWhatItStrips_iff (accepted : m.accepted = true) (declares : m.deleteReaction = some del) :
    SeedsWhatItStrips m ↔ m.finalizerName = del.finalizer := by
  have success (t : WorkTask) : (reactDelete m t (.ok ())).succeeded = true := by
    rw [reactDelete, declares]
  constructor
  · intro agrees
    -- a publish of the manifest alone, and a row of its kind
    let published : Db := { Db.empty with
      kindConfig := (∅ : Table KindConfig).insertNew (m.row 0).config }
    have synced : SyncedFrom m published := by
      rw [SyncedFrom, Db.kindConfig?, lookup_insertNew (fun _ _ => Iff.rfl)]
      have same : ((m.row 0).config.kind, (m.row 0).config.kindVersion) = (m.kind, m.kindVersion.toNat) := rfl
      rw [if_pos same]
      rfl
    have row := agrees published (freshResource published 0 m.kind m.kindVersion.toNat "" .null .null
      none none none) ⟨0, 0, m.kind, 0, .delete, none, 0, none, none, none, 0, 0⟩ synced rfl rfl rfl
    rw [markRow_seeds synced rfl rfl rfl, reactDelete_strips accepted declares (success _)] at row
    unfold nilIfEmpty at row
    split at row
    · cases row
    · exact List.cons.inj row |>.1
  · intro same db r t synced kind version none
    rw [markRow_seeds synced kind version none, reactDelete_strips accepted declares (success t), same,
      nilIfEmpty, if_neg (m.finalizer_declared accepted declares)]

/-! ## Teardowns underway -/

theorem Reachable.underway_dead (reachable : Reachable db) :
    ∀ id, Underway db id → db.Drawn id ∧ ¬ Live db id := by
  suffices both : Named db ∧ ∀ id, Underway db id → db.Drawn id ∧ ¬ Live db id from both.2
  refine reachable.induction
    (I := fun s => Named s ∧ ∀ id, Underway s id → s.Drawn id ∧ ¬ Live s id) ?_ fun db a good => ?_
  · refine ⟨fun r here => absurd here (notMem_empty r), ?_⟩
    rintro id (⟨q, here, -⟩ | ⟨t, here, -⟩ | ⟨o, here, -⟩)
    · exact absurd here (notMem_empty q)
    · cases here
    · exact absurd here (notMem_empty o)
  · refine Steps.keeps (I := fun s => Named s ∧ ∀ id, Underway s id → s.Drawn id ∧ ¬ Live s id) ?_
      (step_effects db a) good
    rintro l s s' ok effect ⟨named, dead⟩
    refine ⟨effect.named named, fun id underway => ?_⟩
    have before : s.Drawn id ∧ ¬ Live s id := by
      rcases effect.underway_from underway with old | ⟨-, marked⟩
      · exact dead id old
      · refine ⟨?_, fun live => live.2 marked⟩
        obtain ⟨r, here, rfl, -⟩ := marked
        exact named r here
    have one : Effects (a.allows db) s s' := Steps.one ok effect
    exact ⟨before.1.mono one.drawn_le, fun live => before.2 (one.live_back before.1 live)⟩

/-- **No teardown is queued, handed out or waiting of a live resource.** -/
theorem teardowns_of_dead (actions : List Action) :
    let db := run Db.empty actions
    {id | Underway db id} ⊆ {id | db.Drawn id ∧ ¬ Live db id} :=
  Reachable.underway_dead ⟨actions, rfl⟩

/-! ## A marked row along a run -/

/-- `o` is a teardown of the row that succeeded. -/
def ranTeardown (id : Uuid) (o : OutboxRow) : Bool :=
  o.taskType = .delete && o.succeeded && o.resourceId = id

/-- If `o` is a successful teardown of the row, it is what the reaction of the manifest
returned. -/
def Reports (m : ManifestDoc) (id : Uuid) (o : OutboxRow) : Prop :=
  ranTeardown id o = true → ∃ dispatched, o = reactDelete m o.task dispatched

/-- Successful teardowns of the row are runs of the reaction, and neither a compose nor an
orphan sweep deletes a row above it outright while it has a finalizer. -/
def TearsDownBy (m : ManifestDoc) (id : Uuid) (db : Db) : Action → Prop
  | .appendOutbox o => Reports m id o
  | .applyComposeResult env t out pol => ∀ upserted ∈ upsertedBy db env t out,
      ¬ Endangered upserted (hardStale pol (droppedBy db env t out)) id
  | .sweepExpiredOrphans scan n range =>
    ¬ Endangered db ((hardOrphans db scan n range).map (·.id)) id
  | _ => True

/-- The row since it was marked, with the results drained in the meantime: it has its
finalizer until a teardown succeeds, none after, and is not gone before. -/
structure TornDown (m : ManifestDoc) (f : String) (id : Uuid) (new : List OutboxRow) (db : Db) :
    Prop where
  drawn : db.Drawn id
  waiting : ∀ o ∈ db.workOutbox, Reports m id o
  row : ∀ r ∈ db.resources, r.id = id →
    r.marked = true ∧ r.finalizers = if new.any (ranTeardown id) then [] else [f]
  gone : ¬ Stored db id → new.any (ranTeardown id) = true

/-- Marked rows keep their finalizers. -/
def KeepsFinalizers (r r' : Resource) : Prop :=
  r.marked = true → r'.marked = true ∧ r'.finalizers = r.finalizers

theorem respects_keepsFinalizers
    (noStrip : ∀ rs, ¬ allow (.row (.strip rs))) : Respects allow KeepsFinalizers where
  refl _ marked := ⟨marked, rfl⟩
  trans ab bc marked := by
    obtain ⟨marked', same⟩ := ab marked
    obtain ⟨marked'', same'⟩ := bc marked'
    exact ⟨marked'', same'.trans same⟩
  quiet q marked := by
    refine ⟨?_, q.finalizers⟩
    rwa [Resource.marked, q.deletionRequestedAt]
  row ok _ step marked :=
    ⟨step.marked marked, step.finalizers (fun rs same => noStrip rs (same ▸ ok)) marked⟩

theorem Draining.endangered {doomed : List Uuid} (draining : Draining db id)
    (below : id ∈ cascaded db doomed) : Endangered db doomed id := by
  obtain ⟨r, here, same, marked, open_⟩ := draining
  refine ⟨below, r, here, same, ?_⟩
  rw [finalizerPending, if_pos marked, open_]
  rfl

theorem ComposeStages.draining_upserted {env : ComposeEnv} {out : ComposeOutput}
    {pol : ComposePolicy} {parent : Resource} {upserted wired : Db} {produced : List ResourceDep}
    (stages : ComposeStages db env t out pol parent upserted produced wired)
    (draining : Draining db id) : Draining upserted id := by
  have run : Effects (fun l => l.Wrote ∨ ∃ owner, l = .insert owner) db upserted :=
    batchUpsertChildren_effects
      (.of_all (fun _ h => .inl h.wrote) (.inl trivial) fun _ h => .inl h) (.inr ⟨_, rfl⟩)
      stages.present stages.upsert
  refine run.draining ?_ (fun rs => ?_) draining
  · rintro (wrote | ⟨_, same⟩)
    · exact wrote
    · cases same
  · rintro (wrote | ⟨_, same⟩)
    · exact wrote
    · cases same

section Step

variable {f : String} {new : List OutboxRow}

namespace TornDown

theorem draining (torn : TornDown m f id new db) (none : new.any (ranTeardown id) ≠ true) : Draining db id := by
  by_contra missing
  refine none (torn.gone ?_)
  rintro ⟨r, here, same⟩
  obtain ⟨marked, finalizers⟩ := torn.row r here same
  rw [if_neg none] at finalizers
  exact missing ⟨r, here, same, marked, by rw [finalizers]; rfl⟩

section

variable (torn : TornDown m f id new db) (run : Effects allow db db')
    (noStrip : ∀ rs, ¬ allow (.row (.strip rs)))

include torn run noStrip

theorem effects
    (waiting : ∀ o ∈ db'.workOutbox, Reports m id o)
    (kept : Draining db id → Stored db' id) : TornDown m f id new db' where
  drawn := torn.drawn.mono run.drawn_le
  waiting := waiting
  row r' after same := by
    obtain ⟨r, here, same', keeps⟩ :=
      run.tracks (respects_keepsFinalizers noStrip) after (same ▸ torn.drawn)
    obtain ⟨marked, finalizers⟩ := torn.row r here (same'.trans same)
    exact ⟨(keeps marked).1, (keeps marked).2.trans finalizers⟩
  gone lost := by
    by_contra none
    exact lost (kept (torn.draining none))

theorem plain
    (noAppend : ¬ allow .append)
    (kept : Draining db id → Stored db' id) : TornDown m f id new db' :=
  torn.effects run noStrip (fun o after => torn.waiting o (run.outbox_subset noAppend o after)) kept

theorem mild
    (noAppend : ¬ allow .append)
    (noDelete : ¬ allow .delete) : TornDown m f id new db' := by
  refine torn.plain run noStrip noAppend fun draining => ?_
  obtain ⟨r, here, same, -⟩ := run.draining noDelete noStrip draining
  exact ⟨r, here, same⟩

end

theorem sweeps {l : List Db} (torn : TornDown m f id new db)
    (chain : (db :: l).IsChain SweepStep) : TornDown m f id new (l.getLastD db) := by
  refine (chain_keeps (S := SweepStep) (fun s s' step torn => ⟨?_, step⟩) chain torn).2
  refine torn.plain step.effects (fun _ h => h) (fun h => h) fun draining => ?_
  obtain ⟨r, here, same, -⟩ := step.draining draining
  exact ⟨r, here, same⟩

/-- A compose removes no draining row unless it deletes one above it outright. -/
theorem compose (torn : TornDown m f id new db) (reachable : Reachable db) {env : ComposeEnv}
    {out : ComposeOutput} {pol : ComposePolicy}
    (safe : TearsDownBy m id db (.applyComposeResult env t out pol)) :
    TornDown m f id new (submitCompose db env t out pol) := by
  refine torn.plain (submitCompose_effects db env t out pol) (fun _ h => h) (fun h => h) fun draining => ?_
  have stays : Stored db id := by
    obtain ⟨r, here, same, -⟩ := draining
    exact ⟨r, here, same⟩
  refine submitCompose_cases (P := (Stored · id)) stays fun last claimed done => ?_
  obtain ⟨parent, upserted, produced, wired, stages, calm⟩ := applyComposeResult_parts claimed done
  have before : Draining upserted id := stages.draining_upserted draining
  have unharmed := safe upserted stages.upserted_eq
  have seeded := Effects.seeded stages.before reachable.seeded
  obtain ⟨r, here, same, -⟩ := stages.draining_throughout before
    (fun draining below => unharmed ((gracedBy_endangered seeded).mp
      (draining.endangered below))) calm done last (stages.last_mem done)
  exact ⟨r, here, same⟩

theorem orphans (torn : TornDown m f id new db) {scan : Scan Uuid} {n : Nat} {range : ShardRange}
    (safe : TearsDownBy m id db (.sweepExpiredOrphans scan n range)) :
    TornDown m f id new (sweepExpiredOrphans db scan n range) := by
  have run : Effects Label.Sweeps db (sweepExpiredOrphans db scan n range) :=
    sweepExpiredOrphans_effects db scan n range
  refine torn.plain run (fun _ h => h) (fun h => h) fun draining => ?_
  have stays : Stored db id := by
    obtain ⟨r, here, same, -⟩ := draining
    exact ⟨r, here, same⟩
  rw [sweepExpiredOrphans_eq, stored_deleteResources]
  refine ⟨orphansQueued_stored.mpr stays, fun below => safe (draining.endangered ?_)⟩
  have owns : Owns (orphansQueued db scan n range) = Owns db := by
    funext a b
    exact propext (owns_update (markRow_key db) (orphansQueued_rows db scan n range) (markRow_place db))
  obtain ⟨s, named, stored, path⟩ := mem_cascaded.mp below
  rw [owns] at path
  exact mem_cascaded.mpr ⟨s, named, orphansQueued_stored.mp stored, path⟩

end TornDown

end Step

/-! ## A drain -/

section Drain

variable {f : String} {new results : List OutboxRow}

theorem strippedFinalizer_eq (accepted : m.accepted = true) (declares : m.deleteReaction = some del)
    (reports : ∀ o ∈ results, Reports m r.id o) :
    strippedFinalizer results r =
      if results.any (ranTeardown r.id) then some del.finalizer else none := by
  have name : ∀ o ∈ results, ranTeardown r.id o = true → o.finalizerName = some del.finalizer := by
    intro o listed ran
    obtain ⟨dispatched, same⟩ := reports o listed ran
    rw [same]
    refine reactDelete_strips accepted declares ?_
    rw [← same]
    simp only [ranTeardown, Bool.and_eq_true] at ran
    exact ran.1.2
  unfold strippedFinalizer
  split
  · rename_i some_
    obtain ⟨o, listed, ran⟩ := any_eq_true.mp some_
    cases found : results.find? fun o => o.taskType = .delete && o.succeeded && o.resourceId = r.id
        && o.finalizerName.isSome with
    | none =>
      have unmatched := find?_eq_none.mp found o listed
      rw [ranTeardown] at ran
      rw [ran, name o listed ran] at unmatched
      exact absurd rfl unmatched
    | some o' =>
      have matched := find?_some found
      exact name o' (mem_of_find?_eq_some found) (Bool.and_eq_true_iff.mp matched).1
  · rename_i none
    cases found : results.find? fun o => o.taskType = .delete && o.succeeded && o.resourceId = r.id
        && o.finalizerName.isSome with
    | none => rfl
    | some o' =>
      have matched := find?_some found
      refine absurd (any_eq_true.mpr ⟨o', mem_of_find?_eq_some found, ?_⟩) none
      exact (Bool.and_eq_true_iff.mp matched).1

theorem mem_stripFinalizers {r' : Resource} :
    r' ∈ (stripFinalizers (finalizeOperations (takeResults db results) results) results).resources ↔
      ∃ r ∈ db.resources, (if (strippedFinalizer results r).isSome then
        { r with
          finalizers := r.finalizers.filter fun f => strippedFinalizer results r ≠ some f
          updatedAt := db.now }
        else r) = r' :=
  mem_updateResources

/-- Once the finalizers are stripped, the results of the batch count as drained. -/
theorem TornDown.strip (accepted : m.accepted = true) (declares : m.deleteReaction = some del)
    (torn : TornDown m del.finalizer id new db) (waiting : ∀ o ∈ results, o ∈ db.workOutbox)
    (distinct : results.Nodup) : TornDown m del.finalizer id (results ++ new)
      (stripFinalizers (finalizeOperations (takeResults db results) results) results) := by
  have run := stripped_effects waiting distinct
  refine ⟨torn.drawn.mono run.drawn_le, fun o after => ?_, fun r' after same => ?_, fun lost => ?_⟩
  · obtain ⟨t, only⟩ := stripFinalizers_only (finalizeOperations (takeResults db results) results) results
    rw [only.workOutbox] at after
    exact torn.waiting o (mem_deleteWhere.mp after).1
  · obtain ⟨r, here, rfl⟩ := mem_stripFinalizers.mp after
    have sameId : r.id = id := by
      split at same <;> exact same
    obtain ⟨marked, finalizers⟩ := torn.row r here sameId
    have strips := strippedFinalizer_eq (r := r) accepted declares fun o listed => by
      rw [sameId]
      exact torn.waiting o (waiting o listed)
    rw [sameId] at strips
    rw [any_append]
    by_cases ran : results.any (ranTeardown id) = true
    · rw [if_pos ran] at strips
      simp only [strips, ran, isSome_some, if_true, Bool.true_or, finalizers]
      refine ⟨marked, ?_⟩
      split <;> simp
    · rw [if_neg ran] at strips
      simp only [strips, Bool.eq_false_iff.mpr ran, isSome_none, Bool.false_eq_true, if_false, Bool.false_or]
      exact ⟨marked, finalizers⟩
  · rw [any_append, torn.gone ?_, Bool.or_true]
    rintro ⟨r, here, same⟩
    refine lost ⟨_, mem_stripFinalizers.mpr ⟨r, here, rfl⟩, ?_⟩
    split <;> exact same

/-- What a drain does after its teardowns. -/
def Label.Applies : Label → Prop
  | .row (.result _) | .enqueue (.rolled _) | .row .write => True
  | l => l.Calm

theorem Label.Calm.applies {l : Label} (h : l.Calm) : l.Applies := by
  cases l with
  | row k => cases k <;> first | exact trivial | exact h
  | enqueue cause => cases cause <;> first | exact trivial | exact h
  | _ => exact h

theorem TornDown.remove (torn : TornDown m f id new db) (rowScan : Scan Uuid) :
    TornDown m f id new (removeTornDown db rowScan results) := by
  refine torn.plain (delete_effects db _) (fun _ h => h) (fun h => h) ?_
  rintro ⟨r, here, rfl, -, open_⟩
  have ready : ∀ s ∈ removePicked db rowScan results,
      s ∈ db.resources ∧ unblocked db s = true ∧ s.finalizers.isEmpty = true := by
    intro s picked
    obtain ⟨there, ready⟩ := mem_filter.mp picked
    simp only [Bool.and_eq_true] at ready
    exact ⟨there, ready.1.1.2, ready.1.2⟩
  refine stored_deleteResources.mpr ⟨⟨r, here, rfl⟩, fun gone => ?_⟩
  have named := cascaded_childless (fun id named b => ?_) gone
  · obtain ⟨s, picked, same⟩ := mem_map.mp named
    obtain ⟨there, -, done⟩ := ready s picked
    rw [eq_of_pk resource_primary there here same, open_] at done
    cases done
  · obtain ⟨s, picked, rfl⟩ := mem_map.mp named
    exact ((unblocked_iff.mp (ready s picked).2.1).2 b).1

theorem TornDown.drain (accepted : m.accepted = true) (declares : m.deleteReaction = some del)
    (torn : TornDown m del.finalizer id new db) {scan rowScan : Scan Uuid} {order : Nat → Nat} {n : Nat}
    {range : ShardRange} (done : drainOutboxBatch db scan rowScan order n range = some db') :
    TornDown m del.finalizer id (popped db scan n range ++ new) db' := by
  by_cases none : popped db scan n range = []
  · obtain rfl := drainOutboxBatch_none none done
    rw [none]
    exact torn
  · have distinct : (popped db scan n range).Nodup := popped_nodup
    have stripped := torn.strip accepted declares popped_waiting distinct
    have removed : TornDown m del.finalizer id _ (removeTornDown _ rowScan (popped db scan n range)) :=
      stripped.remove rowScan
    have requeued := removed.plain (requeueTeardowns_effects _ (popped db scan n range))
      (fun _ h => h) (fun h => h) fun draining => ?_
    · have rest : Effects Label.Applies (drainTeardowns db rowScan (popped db scan n range)) db' :=
        drained_effects (.of_all (fun _ => Label.Calm.applies) trivial fun _ _ => trivial) trivial
          (fun _ _ => trivial) none done
      exact requeued.mild rest (fun _ h => h) (fun h => h) fun h => h
    · obtain ⟨r, here, same, -⟩ := draining
      rw [Stored, (requeueTeardowns_only _ _).resources]
      exact ⟨r, here, same⟩

end Drain

/-! ## A run -/

section Run

variable {f : String} {new log : List OutboxRow}

theorem TornDown.append (torn : TornDown m f id new db) {o : OutboxRow} (reports : Reports m id o) :
    TornDown m f id new (submitResult db o) := by
  have run := submitResult_effects db o
  refine torn.effects run (fun _ h => nomatch h) (fun o' after => ?_) ?_
  · by_cases same : o' = o
    · exact same ▸ reports
    · refine torn.waiting o' ?_
      unfold submitResult appendOutbox at after
      split at after
      · split at after
        · exact (mem_insertNew.mp after).resolve_right fun new => same new.1
        · exact after
      · exact after
  · intro draining
    obtain ⟨r, here, sameId, -⟩ := run.draining (fun h => nomatch h) (fun _ h => nomatch h) draining
    exact ⟨r, here, sameId⟩

/-- The row, given what was drained since `log`. -/
def TornDownSince (m : ManifestDoc) (f : String) (id : Uuid) (log : List OutboxRow) (db : Db) : Prop :=
  ∃ new, db.drained = new ++ log ∧ TornDown m f id new db

theorem step_tornDown (accepted : m.accepted = true) (declares : m.deleteReaction = some del)
    (reachable : Reachable db) {a : Action} (ok : TearsDownBy m id db a)
    (torn : TornDownSince m del.finalizer id log db) : TornDownSince m del.finalizer id log (step db a) := by
  obtain ⟨new, drained, torn⟩ := torn
  have undrained (undrains : a.Undrained) (torn : TornDown m del.finalizer id new (step db a)) :
      TornDownSince m del.finalizer id log (step db a) :=
    ⟨new, ((step_undrained db undrains).drained_eq fun _ h => h).trans drained, torn⟩
  have effects := step_effects db a
  cases a with
  | drainOutboxBatch scan rowScan order n range =>
    simp only [step]
    cases done : drainOutboxBatch db scan rowScan order n range with
    | none => exact ⟨new, drained, torn⟩
    | some last =>
      refine ⟨popped db scan n range ++ new, ?_, torn.drain accepted declares done⟩
      rw [getD_some, drainOutboxBatch_drained done, drained, append_assoc]
  | appendOutbox o => exact undrained trivial (torn.append ok)
  | applyComposeResult env t out pol => exact undrained trivial (torn.compose reachable ok)
  | sweepExpiredOrphans scan n range => exact undrained trivial (torn.orphans ok)
  | requestResourceDeletion scans seed =>
    refine undrained trivial ?_
    have swept := torn.sweeps (requestTrace_chain db scans seed)
    rwa [requestTrace_last] at swept
  | sweepDeletable scans n range =>
    refine undrained trivial ?_
    have swept := torn.sweeps (sweepTrace_chain n range (2 * db.resources.rows.length + 1) scans 0 db)
    rwa [sweepTrace_last] at swept
  | workQueueTakeBatch _ _ | workQueueReleaseBroker _ _ | workQueueReleaseTasks _ _ _ _
  | reapStaleWork _ _ _ _ | deleteUnclaimedWork _ _ _ _ | recountInflight _ =>
    exact undrained trivial (torn.mild effects (by rintro _ ⟨⟩) (by rintro ⟨⟩) (by rintro ⟨⟩))
  | _ => exact undrained trivial (torn.mild effects (fun _ h => h) (fun h => h) fun h => h)

/-- A deletion request that reaches the row seeds its finalizer, and the statements after
the mark leave it there. -/
theorem request_tornDown (accepted : m.accepted = true) (declares : m.deleteReaction = some del)
    (agree : m.finalizerName = del.finalizer) (reachable : Reachable db) (synced : SyncedFrom m db)
    (here : r ∈ db.resources) (kind : r.kind = m.kind)
    (version : r.kindVersion = m.kindVersion.toNat) (unmarked : r.marked = false)
    {scans : Nat → Scan Uuid} {seed : Uuid} (stored : Stored db seed)
    (reached : r.id ∈ markTree db seed) :
    TornDown m del.finalizer r.id [] (requestResourceDeletion db scans seed) := by
  have seeds : (markRow db r).finalizers = [del.finalizer] := by
    rw [markRow_seeds synced kind version (reachable.seeded r here unmarked), agree, nilIfEmpty,
      if_neg (m.finalizer_declared accepted declares)]
    rfl
  have start : TornDown m del.finalizer r.id [] (markRows db seed) := by
    refine ⟨reachable.named r here, fun o waiting ran => ?_, fun r' after same => ?_, fun lost => ?_⟩
    · -- no teardown of an unmarked row was underway
      simp only [ranTeardown, Bool.and_eq_true, decide_eq_true_eq] at ran
      obtain ⟨-, dead⟩ := reachable.underway_dead r.id (.inr (.inr ⟨o, waiting, ran.1.1, ran.2⟩))
      exact absurd ((live_of_mem here).mpr unmarked) dead
    · obtain ⟨r₀, here₀, rfl⟩ := mem_markRows.mp after
      have sameId : r₀.id = r.id := by
        split at same <;> exact same
      obtain rfl := eq_of_pk resource_primary here₀ here sameId
      have picked : (decide (r₀.id ∈ markTree db seed) && !r₀.marked) = true := by
        rw [decide_eq_true reached, unmarked]
        rfl
      rw [if_pos picked]
      exact ⟨rfl, seeds⟩
    · exact absurd (stored_markRows.mpr ⟨r, here, rfl⟩) lost
  have present : (db.resource? seed).isSome = true := by
    obtain ⟨s, there, rfl⟩ := stored
    rw [Db.resource?, lookup_of_mem resource_primary there]
    rfl
  have chain := requestTrace_chain db scans seed
  rw [← requestTrace_last]
  unfold requestTrace at chain ⊢
  rw [if_pos present] at chain ⊢
  rw [getLastD_cons]
  exact start.sweeps (isChain_cons_cons.mp chain).2

end Run

/-- **When a teardown reaction runs.**  Take a manifest both validators accept that
declares one.  What a mark seeds is what a successful run strips exactly if the manifest
and the reaction name the same finalizer; a publish of the manifest leaves the config of
the kind with the manifest's.

If they do, then from any deletion request that reaches a row of the kind, along any run
whose successful teardowns of the row are runs of the reaction and that deletes no row
above it outright, the row has its finalizer until a teardown succeeded and has none
after, and it is not gone before one did. -/
theorem teardown_reaction_runs (accepted : m.accepted = true) (declares : m.deleteReaction = some del) :
    (SeedsWhatItStrips m ↔ m.finalizerName = del.finalizer) ∧
    (∀ db db' manifestVersion, publishManifest db m manifestVersion = some db' → SyncedFrom m db') ∧
    (m.finalizerName = del.finalizer → ∀ db, Reachable db → SyncedFrom m db →
      ∀ r ∈ db.resources, r.kind = m.kind → r.kindVersion = m.kindVersion.toNat →
      r.marked = false → ∀ scans seed, Stored db seed → r.id ∈ markTree db seed → ∀ actions,
      Along (TearsDownBy m r.id) (requestResourceDeletion db scans seed) actions →
      ∃ new, (run (requestResourceDeletion db scans seed) actions).drained = new ++ db.drained ∧
        (¬ Stored (run (requestResourceDeletion db scans seed) actions) r.id →
          new.any (ranTeardown r.id) = true) ∧
        ∀ r' ∈ (run (requestResourceDeletion db scans seed) actions).resources, r'.id = r.id →
          r'.marked = true ∧ r'.finalizers = if new.any (ranTeardown r.id) then [] else [del.finalizer]) := by
  refine ⟨seedsWhatItStrips_iff accepted declares, fun _ _ _ => publishManifest_synced, ?_⟩
  intro agree db reachable synced r here kind version unmarked scans seed stored reached actions along
  have after : Reachable (requestResourceDeletion db scans seed) :=
    reachable.step (.requestResourceDeletion scans seed)
  have start : TornDownSince m del.finalizer r.id db.drained (requestResourceDeletion db scans seed) :=
    ⟨[], (requestResourceDeletion_effects db scans seed).drained_eq fun _ h => h,
      request_tornDown accepted declares agree reachable synced here kind version unmarked stored
        reached⟩
  obtain ⟨new, drained, torn⟩ := along.keeps
    (fun db a reachable ok torn => step_tornDown accepted declares reachable ok torn) after start
  exact ⟨new, drained, torn.gone, torn.row⟩

end Teardown

/-- Kind `vm` with a teardown that strips `vm/destroy`. -/
def machineKind (finalizerName : String) : ManifestDoc :=
  ⟨"vm", 1, [⟨"create", .specChange, [.status], "", ""⟩,
    ⟨"destroy", .deleteRequested, [.finalizer], "", "vm/destroy"⟩], finalizerName, 0, 0, 0, false, 0,
    0, false⟩

/-- A machine of the published kind. -/
def publishedMachine (finalizerName : String) : List Action :=
  [.upsertKindManifest ((machineKind finalizerName).row 1), applyRoot "vm" "v"]

/-- Every task handed out runs the teardown with success. -/
def tearDown (finalizerName : String) (db : Db) : List Action :=
  (db.tasks.map fun t => .appendOutbox (reactDelete (machineKind finalizerName) t (.ok ()))) ++ [drainAll]

/-- Both name `vm/destroy`: the machine goes, and its teardown was run. -/
theorem teardown_reaction_runs_machine : letI := counting
    let m := machineKind "vm/destroy"
    let db := run Db.empty (publishedMachine "vm/destroy")
    let requested := requestResourceDeletion db (fun _ => Scan.plain) 0
    let claimed := step requested (claimAll "b" "vm" .delete)
    let actions := claimAll "b" "vm" .delete :: tearDown "vm/destroy" claimed
    m.accepted = true ∧ ¬ Stored (run requested actions) 0 ∧
      ∃ new, (run requested actions).drained = new ++ db.drained ∧ new.any (ranTeardown 0) = true := by
  intro m db requested claimed actions
  have facts : letI := counting
      m.accepted = true ∧ m.deleteReaction = some ⟨"destroy", .deleteRequested, [.finalizer], "",
        "vm/destroy"⟩ ∧ SyncedFrom m db ∧ (∃ r ∈ db.resources.rows, r.id = 0 ∧ r.kind = "vm" ∧
        r.kindVersion = 1 ∧ r.marked = false ∧ (0 : Uuid) ∈ markTree db 0) ∧
      ∀ r ∈ (run requested actions).resources.rows, r.id ≠ 0 := by
    decide +kernel
  obtain ⟨accepted, declares, synced, ⟨r, here, same, kind, version, unmarked, reached⟩, gone⟩ := facts
  have left : letI := counting; ¬ Stored (run requested actions) 0 :=
    fun ⟨r, here, same⟩ => gone r here same
  have reachable : @Reachable counting db := ⟨_, rfl⟩
  have along : @Along counting (@TearsDownBy counting m 0) requested actions := by
    refine @Along.of_forall counting _ _ _ fun a listed s => ?_
    rcases List.mem_cons.mp listed with rfl | listed
    · trivial
    rcases mem_append.mp listed with result | drain
    · obtain ⟨t, -, rfl⟩ := List.mem_map.mp result
      exact fun _ => ⟨.ok (), rfl⟩
    · obtain rfl := mem_singleton.mp drain
      trivial
  refine ⟨accepted, left, ?_⟩
  obtain ⟨-, -, runs⟩ := @teardown_reaction_runs counting m _ accepted declares
  obtain ⟨new, drained, ran, -⟩ := runs rfl db reachable synced r here kind version unmarked
    (fun _ => Scan.plain) 0 ⟨r, here, same⟩ (by rw [same]; exact reached) actions
    (by rw [same]; exact along)
  rw [same] at ran
  exact ⟨new, drained, ran left⟩

/-- Two accepted manifests of the same reaction.  One names no finalizer: the machine is
gone with the request, and no teardown was ever queued.  The other names another one: the
machine keeps it after its teardown succeeded. -/
theorem teardown_reaction_skipped : letI := counting
    let request := Action.requestResourceDeletion (fun _ => Scan.plain) 0
    let claim := claimAll "b" "vm" .delete
    (let m := machineKind ""
      let db := run Db.empty (publishedMachine "")
      let requested := run db [request]
      m.accepted = true ∧ m.deleteReaction.isSome = true ∧ (∃ r ∈ db.resources.rows, r.id = 0) ∧
        requested.resources.rows = [] ∧ requested.tasks = [] ∧ deleteQueued requested 0 = false) ∧
    (let m := machineKind "vm/cleanup"
      let db := run (run Db.empty (publishedMachine "vm/cleanup")) [request, claim]
      let torn := run db (tearDown "vm/cleanup" db)
      m.accepted = true ∧ torn.drained.any (ranTeardown 0) = true ∧
        ∃ r ∈ torn.resources.rows, r.id = 0 ∧ r.marked = true ∧ r.finalizers = ["vm/cleanup"]) := by
  decide +kernel

end Converge.Kernel
