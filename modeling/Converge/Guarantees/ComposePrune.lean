/-
# Guarantees.ComposePrune -- what a composer's output may tear down

A compose prunes what its output no longer emits: it requests the deletion of some
dropped children, stamps a grace on others, deletes the rest in one statement, and only
then drops their edges.  `composeTrace` lists the states it passes through.

The sweeps inside the requests spare every pending finalizer, and while the old edges
stand they keep a dependency behind its dependent.  Two of the later statements do
neither.  The DELETE takes along whatever its rows own, so the compose spares pending
finalizers exactly if nothing at or below a row it deletes has one.  And with the edges
gone, no later sweep knows that two dropped siblings were ordered: the order survives
the compose only where one of the two rows does not (`compose_prune_ordered`).
-/
import Converge.Guarantees.OrphanSweep
import Converge.Guarantees.ResultOnce
import Converge.Kernel.Graph

namespace Converge.Kernel

open Converge.Theory List Table Option

set_option autoImplicit false
set_option linter.unusedSectionVars false

section Prune

variable [Postgres] {db db' : Db} {doomed ids : List Uuid} {id parent : Uuid} {stale : List Resource}
    {out : ComposeOutput}
    {produced : List ResourceDep} {f : Resource → Resource} {p : Resource → Bool} {pol : ComposePolicy}
    {range : ShardRange}

/-! ## Statement by statement -/

/-- The state with the emitted children in place, which the prune works on. -/
def upsertedBy (db : Db) (env : ComposeEnv) (t : WorkTask) (out : ComposeOutput) : Option Db :=
  (db.resource? t.resourceId).bind fun parent =>
    batchUpsertChildren db parent.id (parent.rootId.getD parent.id)
      (shuffle env.childOrder (existingChildren db parent.id)) out

/-- The children the output drops, as they are listed. -/
def droppedBy (db : Db) (env : ComposeEnv) (t : WorkTask) (out : ComposeOutput) : List Resource :=
  dropped (shuffle env.childOrder (existingChildren db t.resourceId)) out

/-- The states after each statement of the deletion requests. -/
def softTrace (scans : Uuid → Nat → Scan Uuid) : List Resource → Db → List Db
  | [], _ => []
  | e :: rest, db =>
    requestTrace db (scans e.id) e.id ++ softTrace scans rest (requestResourceDeletion db (scans e.id) e.id)

/-- The rows whose deletion is requested. -/
def softStale (pol : ComposePolicy) (stale : List Resource) : List Resource :=
  stale.filter fun e => pruneOf pol e = .soft

/-- The state the DELETE finds. -/
def gracedBy (upserted : Db) (scans : Uuid → Nat → Scan Uuid) (pol : ComposePolicy)
    (stale : List Resource) : Db :=
  markChildrenOrphaned (softDelete upserted scans (softStale pol stale)) pol stale

/-- The states a compose passes through: the children, the statements of each deletion
request, the grace stamps, the DELETE, and all that follows.  A compose that fails leaves
no state behind. -/
def composeTrace (db : Db) (env : ComposeEnv) (t : WorkTask) (out : ComposeOutput)
    (pol : ComposePolicy) : List Db :=
  match upsertedBy db env t out, applyComposeResult db env t out pol with
  | some upserted, some last =>
    let stale := droppedBy db env t out
    upserted :: (softTrace env.scans (softStale pol stale) upserted ++
      [gracedBy upserted env.scans pol stale, pruneChildren upserted env.scans pol stale, last])
  | _, _ => []

theorem softTrace_last (scans : Uuid → Nat → Scan Uuid) (stale : List Resource) (db : Db) :
    (softTrace scans stale db).getLastD db = softDelete db scans stale := by
  induction stale generalizing db with
  | nil => rfl
  | cons e rest ih =>
    simp only [softTrace, softDelete, foldl_cons]
    rw [getLastD_append, requestTrace_last]
    exact ih _

/-- A statement of the deletion requests of `stale`: what it marks is in the tree of one
of them. -/
structure RequestStep (stale : List Resource) (db db' : Db) : Prop where
  sweeps : SweepStep db db'
  marks : ∀ a, Marked db' a → Marked db a ∨ ∃ e ∈ stale, a ∈ markTree db e.id

theorem requestTrace_steps {e : Resource} (listed : e ∈ stale) (db : Db)
    (scans : Nat → Scan Uuid) : (db :: requestTrace db scans e.id).IsChain (RequestStep stale) := by
  refine requestTrace_isChain (fun s scan n range => ⟨.enqueue scan n range, fun a h => .inl ?_⟩)
    (fun s scan n range => ⟨.remove scan n range, fun a h => .inl ?_⟩)
    (fun s => ⟨.mark e.id, fun a h => ?_⟩) (fun s => ⟨.schedule e.id, fun a h => .inl ?_⟩) db scans
  · rwa [Marked, (sweepEnqueue_only s scan n range).resources] at h
  · exact (marked_deleteResources.mp h).1
  · exact (marked_markRows.mp h).imp id fun inside => ⟨e, listed, inside.2⟩
  · rwa [Marked, (cascadeMark_only s e.id).resources] at h

theorem softTrace_steps (scans : Uuid → Nat → Scan Uuid) (rest : List Resource)
    (listed : rest ⊆ stale) (db : Db) : (db :: softTrace scans rest db).IsChain (RequestStep stale) := by
  induction rest generalizing db with
  | nil => exact .singleton db
  | cons e rest ih =>
    obtain ⟨first, later⟩ := cons_subset.mp listed
    refine chain_append.mpr ⟨requestTrace_steps first db (scans e.id), ?_⟩
    rw [requestTrace_last]
    exact ih later _

theorem softTrace_chain (scans : Uuid → Nat → Scan Uuid) (stale : List Resource) (db : Db) :
    (db :: softTrace scans stale db).IsChain SweepStep :=
  (softTrace_steps scans stale (List.Subset.refl _) db).imp fun _ _ => RequestStep.sweeps

/-! ## Pending finalizers -/

theorem Spares.of_stored (kept : ∀ id, Stored db id → Stored db' id) : Spares db db' :=
  fun r here gone => absurd (kept r.id ⟨r, here, rfl⟩) gone

theorem swept_row {scan : Scan Uuid} {n : Nat} {r : Resource}
    (here : r ∈ db.resources) (gone : ¬ Stored (sweepDelete db scan n range) r.id) :
    unblocked db r = true ∧ r.finalizers.isEmpty = true := by
  rw [sweepDelete, stored_deleteResources, not_and, not_not] at gone
  have ready : ∀ s ∈ sweepPicked db scan n range,
      s ∈ db.resources ∧ unblocked db s = true ∧ s.finalizers.isEmpty = true := by
    intro s picked
    obtain ⟨there, removable⟩ := mem_filter.mp (Scan.mem_of_mem_pick picked)
    simp only [Kernel.removable, Bool.and_eq_true] at removable
    exact ⟨there, removable.1.1, removable.1.2⟩
  have named := cascaded_childless (fun id named b => ?_) (gone ⟨r, here, rfl⟩)
  · obtain ⟨s, picked, same⟩ := mem_map.mp named
    obtain ⟨there, facts⟩ := ready s picked
    rwa [← eq_of_pk resource_primary there here same]
  · obtain ⟨s, picked, rfl⟩ := mem_map.mp named
    exact ((unblocked_iff.mp (ready s picked).2.1).2 b).1

theorem swept_spares {scan : Scan Uuid} {n : Nat} : Spares db (sweepDelete db scan n range) := by
  intro r here gone
  obtain ⟨free, done⟩ := swept_row here gone
  rw [finalizerPending, if_pos (unblocked_iff.mp free).1, done]
  rfl

/-- No statement of a deletion request removes a row before its finalizer has run. -/
theorem SweepStep.spares (step : SweepStep db db') : Spares db db' := by
  cases step with
  | mark id => exact .of_stored fun _ => stored_markRows.mpr
  | schedule id =>
    refine .of_stored fun a stored => ?_
    rwa [Stored, (cascadeMark_only _ id).resources]
  | enqueue scan n range =>
    refine .of_stored fun a stored => ?_
    rwa [Stored, (sweepEnqueue_only db scan n range).resources]
  | remove scan n range => exact swept_spares

/-- A row that a DELETE of `doomed` would remove before its finalizer has run. -/
def Endangered (db : Db) (doomed : List Uuid) (id : Uuid) : Prop :=
  id ∈ cascaded db doomed ∧ ∃ r ∈ db.resources, r.id = id ∧ finalizerPending db r = true

theorem spares_delete_iff : Spares db (deleteResources db doomed) ↔ ∀ id, ¬ Endangered db doomed id := by
  constructor
  · rintro spares id ⟨below, r, here, rfl, pending⟩
    have done := spares r here fun stored => (stored_deleteResources.mp stored).2 below
    rw [pending] at done
    cases done
  · intro safe r here gone
    rw [stored_deleteResources, not_and, not_not] at gone
    by_contra pending
    exact safe r.id ⟨gone ⟨r, here, rfl⟩, r, here, rfl, (Bool.not_eq_false _).mp pending⟩

/-! ## What the prune does before its DELETE changes nothing in danger -/

theorem endangered_congr (rows : db'.resources = db.resources) (config : db'.kindConfig = db.kindConfig) :
    Endangered db' doomed id ↔ Endangered db doomed id := by
  have owned : ownedBy db' = ownedBy db := by
    funext a
    simp only [ownedBy, rows]
  simp only [Endangered, cascaded, owned, finalizerPending, Db.kindFinalizer, Db.kindConfig?, rows, config]

theorem endangered_update
    (keeps : ∀ r, Keyed.key (f r) = Keyed.key r) (rows : db'.resources = db.resources.updateWhere p f keeps)
    (place : ∀ r, (f r).id = r.id ∧ (f r).ownerId = r.ownerId) (config : db'.kindConfig = db.kindConfig)
    (same : ∀ r ∈ db.resources, p r = true → finalizerPending db' (f r) = finalizerPending db r) :
    Endangered db' doomed id ↔ Endangered db doomed id := by
  have owns : Owns db' = Owns db := by
    funext a b
    exact propext (owns_update keeps rows place)
  have pending : ∀ r ∈ db.resources,
      finalizerPending db' (if p r = true then f r else r) = finalizerPending db r := by
    intro r here
    split
    · exact same r here (by assumption)
    · simp only [finalizerPending, Db.kindFinalizer, Db.kindConfig?, config]
  have place' : ∀ r, (if p r = true then f r else r).id = r.id := by
    intro r
    split
    · exact (place r).1
    · rfl
  simp only [Endangered, mem_cascaded, owns, stored_update keeps rows place]
  refine and_congr_right fun _ => ?_
  rw [rows]
  simp only [mem_updateWhere]
  constructor
  · rintro ⟨r', ⟨r, here, rfl⟩, same, open_⟩
    exact ⟨r, here, (place' r).symm.trans same, (pending r here).symm.trans open_⟩
  · rintro ⟨r, here, same, open_⟩
    exact ⟨_, ⟨r, here, rfl⟩, (place' r).trans same, (pending r here).trans open_⟩

theorem endangered_quiet
    {keeps : ∀ r, Keyed.key (f r) = Keyed.key r} (place : ∀ r, (f r).id = r.id ∧ (f r).ownerId = r.ownerId)
    (quiet : ∀ r, p r = true → Quiet r (f r)) :
    Endangered (updateResources db p f keeps) doomed id ↔ Endangered db doomed id := by
  have only := updateResources_only db p f keeps
  refine endangered_update keeps only.resources place only.kindConfig fun r _ picked => ?_
  have same := quiet r picked
  have marked : (f r).marked = r.marked := by
    rw [Resource.marked, Resource.marked, same.deletionRequestedAt]
  have finalizer : (updateResources db p f keeps).kindFinalizer (f r) = db.kindFinalizer r := by
    simp only [Db.kindFinalizer, Db.kindConfig?, only.kindConfig, same.kind, same.kindVersion]
  rw [finalizerPending, finalizerPending, marked, finalizer, same.finalizers]

theorem endangered_mark (seeded : ∀ r ∈ db.resources, r.Seeded)
    {seed : Uuid} : Endangered (markRows db seed) doomed id ↔ Endangered db doomed id := by
  have rows : (markRows db seed).resources = db.resources.updateWhere
      (fun r => r.id ∈ markTree db seed && !r.marked) (markRow db) (markRow_key db) := rfl
  refine endangered_update (markRow_key db) rows (markRow_place db) rfl fun r here picked => ?_
  simp only [Bool.and_eq_true, Bool.not_eq_true'] at picked
  have none := seeded r here picked.2
  have marked : (markRow db r).marked = true := rfl
  rw [finalizerPending, finalizerPending, picked.2]
  rw [markRow, none]
  cases db.kindFinalizer r <;> rfl

theorem path_stays {a b : Uuid} (path : Relation.ReflTransGen (Owns db) a b) (out : b ∉ cascaded db ids) :
    a ∉ cascaded db ids ∧ Relation.ReflTransGen (Owns (deleteResources db ids)) a b := by
  induction path using Relation.ReflTransGen.head_induction_on with
  | refl => exact ⟨out, .refl⟩
  | head owned _ ih =>
    refine ⟨fun gone => ih.1 ?_, .head ?_ ih.2⟩
    · obtain ⟨s, named, stored, above⟩ := mem_cascaded.mp gone
      exact mem_cascaded.mpr ⟨s, named, stored, above.tail owned⟩
    · obtain ⟨r, here, rfl, owner⟩ := owned
      obtain ⟨r', after, node⟩ := deleteResources_keeps here ih.1
      exact ⟨r', after, node.id, node.ownerId.trans owner⟩

theorem pending_deleteResources {r' : Resource}
    (after : r' ∈ (deleteResources db ids).resources) : ∃ r ∈ db.resources, r.id = r'.id ∧
      finalizerPending (deleteResources db ids) r' = finalizerPending db r := by
  obtain ⟨r, here, -, rfl | rfl⟩ := mem_deleteResources after
  · exact ⟨r', here, rfl, rfl⟩
  · exact ⟨r, here, rfl, rfl⟩

/-- A DELETE that spares pending finalizers leaves all that is in danger from another. -/
theorem endangered_delete (spares : Spares db (deleteResources db ids)) :
    Endangered (deleteResources db ids) doomed id ↔ Endangered db doomed id := by
  constructor
  · rintro ⟨below, r', after, rfl, open_⟩
    obtain ⟨s, named, stored, path⟩ := mem_cascaded.mp below
    obtain ⟨r, here, same, pending⟩ := pending_deleteResources after
    have before : Relation.ReflTransGen (Owns db) s r'.id :=
      Relation.ReflTransGen.mono (fun _ _ => owns_deleteResources) _ _ path
    exact ⟨mem_cascaded.mpr ⟨s, named, (stored_deleteResources.mp stored).1, before⟩,
      r, here, same, pending.symm.trans open_⟩
  · rintro ⟨below, r, here, rfl, open_⟩
    have stays : Stored (deleteResources db ids) r.id := by
      by_contra gone
      have closed := spares r here gone
      rw [open_] at closed
      cases closed
    obtain ⟨s, named, stored, path⟩ := mem_cascaded.mp below
    obtain ⟨out, path'⟩ := path_stays path (stored_deleteResources.mp stays).2
    obtain ⟨r', after, same⟩ := stays
    obtain ⟨r₀, here₀, same₀, pending⟩ := pending_deleteResources after
    obtain rfl := eq_of_pk resource_primary here₀ here (same₀.trans same)
    exact ⟨mem_cascaded.mpr ⟨s, named, stored_deleteResources.mpr ⟨stored, out⟩, path'⟩,
      r', after, same, pending.trans open_⟩

theorem SweepStep.effects (step : SweepStep db db') : Effects Label.Sweeps db db' := by
  cases step with
  | mark id =>
    refine Steps.one (l := .row .mark) trivial (.row .mark _ _ (markRow_key db) fun r _ picked => ?_)
    simp only [Bool.and_eq_true, Bool.not_eq_true'] at picked
    exact ⟨picked.2, rfl⟩
  | schedule id => exact (cascadeMark_schedules _ id).mono fun _ => Label.Calm.sweeps
  | enqueue scan n range => exact sweepEnqueue_effects db scan n range
  | remove scan n range => exact delete_effects db _

theorem Effects.seeded {allow : Label → Prop} (run : Effects allow db db')
    (seeded : ∀ r ∈ db.resources, r.Seeded) : ∀ r ∈ db'.resources, r.Seeded :=
  Steps.keeps (I := fun s => ∀ r ∈ s.resources, r.Seeded)
    (fun _ effect => effect.rows_keep seeded_respects (fun born _ => born.finalizers) trivial) run
    seeded

theorem SweepStep.endangered (step : SweepStep db db') (seeded : ∀ r ∈ db.resources, r.Seeded) :
    Endangered db' doomed id ↔ Endangered db doomed id := by
  cases step with
  | mark seed => exact endangered_mark seeded
  | schedule seed =>
    exact endangered_congr (cascadeMark_only _ seed).resources (cascadeMark_only _ seed).kindConfig
  | enqueue scan n range =>
    have only := sweepEnqueue_only db scan n range
    exact endangered_congr only.resources only.kindConfig
  | remove scan n range => exact endangered_delete swept_spares

/-- The DELETE finds in danger what was so before the deletion requests. -/
theorem gracedBy_endangered (seeded : ∀ r ∈ db.resources, r.Seeded) {scans : Uuid → Nat → Scan Uuid} :
    Endangered (gracedBy db scans pol stale) doomed id ↔ Endangered db doomed id := by
  obtain ⟨-, -, requests⟩ := chain_keeps
    (I := fun s => (∀ r ∈ s.resources, r.Seeded) ∧ (Endangered s doomed id ↔ Endangered db doomed id))
    (fun _ _ step before => ⟨⟨step.effects.seeded before.1,
      (step.endangered before.1).trans before.2⟩, trivial⟩)
    (softTrace_chain scans (softStale pol stale) db) ⟨seeded, Iff.rfl⟩
  rw [softTrace_last] at requests
  refine Iff.trans ?_ requests
  refine endangered_quiet ?_ ?_
  · exact fun r => ⟨rfl, rfl⟩
  · exact fun r picked => graceStamp_quiet picked

/-! ## Ordered pairs -/

/-- No teardown of `a` is queued while row `b` is there. -/
def Behind (a b : Uuid) (db db' : Db) : Prop :=
  ∀ q ∈ db'.workQueue, q.taskType = .delete → q.resourceId = a →
    (∀ p ∈ db.workQueue, p.id ≠ q.id) → ¬ Stored db b

/-- While both rows are there, `a` sees that `b` depends on it, and is not marked alone. -/
def Held (a b : Uuid) (db : Db) : Prop :=
  Stored db a → Stored db b → Depends db a b ∧ (Marked db a → Marked db b)

section Pair

variable {a b : Uuid}

theorem Behind.of_effects {allow : Label → Prop} (run : Effects allow db db')
    (none : ¬ allow (.enqueue .teardown)) : Behind a b db db' := by
  intro q after type _ new
  obtain ⟨p, here, same, -⟩ := run.delete_queued none after type
  exact absurd same (new p here)

theorem Behind.of_delete (ids : List Uuid) : Behind a b db (deleteResources db ids) :=
  fun q after _ _ new => absurd rfl (new q (mem_deleteWhere.mp after).1)

theorem Held.of_eq (rows : db'.resources = db.resources) (edges : db'.deps = db.deps)
    (held : Held a b db) : Held a b db' := by
  simp only [Held, Stored, Depends, Marked, rows, edges]
  exact held

theorem Held.delete (held : Held a b db) (ids : List Uuid) : Held a b (deleteResources db ids) := by
  intro storedA storedB
  obtain ⟨beforeA, outA⟩ := stored_deleteResources.mp storedA
  obtain ⟨beforeB, outB⟩ := stored_deleteResources.mp storedB
  obtain ⟨⟨-, d, listed, rfl, rfl⟩, marks⟩ := held beforeA beforeB
  refine ⟨⟨storedB, d, mem_deps_deleteResources.mpr ⟨listed, outB, outA⟩, rfl, rfl⟩, fun marked => ?_⟩
  exact marked_deleteResources.mpr ⟨marks (marked_deleteResources.mp marked).1, outB⟩

theorem Held.mark (held : Held a b db) (id : Uuid) : Held a b (markRows db id) := by
  intro storedA storedB
  obtain ⟨depends, marks⟩ := held (stored_markRows.mp storedA) (stored_markRows.mp storedB)
  refine ⟨⟨storedB, depends.2⟩, fun marked => ?_⟩
  rw [marked_markRows] at marked ⊢
  rcases marked with old | ⟨-, inside⟩
  · exact .inl (marks old)
  · exact .inr ⟨depends.1, markTree_closed inside (.inr depends)⟩

theorem SweepStep.held (step : SweepStep db db') (held : Held a b db) : Held a b db' := by
  cases step with
  | mark id => exact held.mark id
  | schedule id => exact held.of_eq (cascadeMark_only _ id).resources (cascadeMark_only _ id).deps
  | enqueue scan n range =>
    have only := sweepEnqueue_only db scan n range
    exact held.of_eq only.resources only.deps
  | remove scan n range => exact held.delete _

theorem SweepStep.behind (step : SweepStep db db') (held : Held a b db) : Behind a b db db' := by
  cases step with
  | mark id => exact fun q after _ _ new => absurd rfl (new q after)
  | schedule id => exact .of_effects (cascadeMark_schedules _ id) fun calm => calm
  | enqueue scan n range =>
    intro q after _ same new stored
    rcases mem_enqueueAll after with old | ⟨r, picked, -, resource, -⟩
    · exact new q old rfl
    · obtain ⟨here, ready⟩ := mem_filter.mp (Scan.mem_of_mem_pick picked)
      simp only [teardownReady, Bool.and_eq_true] at ready
      obtain ⟨marked, free⟩ := unblocked_iff.mp ready.1.1.1
      obtain rfl := resource.symm.trans same
      obtain ⟨depends, marks⟩ := held ⟨r, here, rfl⟩ stored
      exact (free b).2 depends (marks ((marked_of_mem here).mpr marked))
  | remove scan n range => exact .of_delete _

end Pair

/-! ## Around the prune -/

/-- The effects that remove no row, mark none and queue no teardown. -/
def Label.Mild : Label → Prop
  | .delete | .row .mark | .enqueue .teardown => False
  | _ => True

theorem Label.Wrote.mild {l : Label} (h : l.Wrote) : l.Mild := by
  cases l with
  | delete => exact h
  | row k => cases k <;> first | exact trivial | exact h
  | enqueue cause => cases cause <;> first | exact trivial | exact h
  | _ => trivial

theorem Label.Calm.mild {l : Label} (h : l.Calm) : l.Mild :=
  h.wrote.mild

section Mild

variable (run : Effects Label.Mild db db')

include run

theorem Effects.mild_stored {id : Uuid} (stored : Stored db id) : Stored db' id := by
  refine Steps.keeps (I := fun s => Stored s id) (fun ok effect => effect.stored ?_) run stored
  rintro rfl
  exact ok

theorem Effects.mild_marked {id : Uuid} (named : Named db) (stored : Stored db id) :
    Marked db' id ↔ Marked db id := by
  have respects : Respects Label.Mild fun r r' : Resource => r'.marked = r.marked :=
    { refl := fun _ => rfl
      trans := fun first second => second.trans first
      quiet := fun q => by rw [Resource.marked, Resource.marked, q.deletionRequestedAt]
      row := fun {k _ _ _} ok _ step => by
        refine (step.node ?_).marked
        cases k with
        | mark => exact ok.elim
        | _ => trivial }
  constructor
  · rintro ⟨r', after, rfl, mark⟩
    obtain ⟨s, there, same⟩ := stored
    have known : db.Drawn r'.id := same ▸ named s there
    obtain ⟨r, here, same, marks⟩ := Effects.tracks respects run after known
    exact ⟨r, here, same, marks.symm.trans mark⟩
  · intro marked
    refine Steps.keeps (I := fun s => Marked s id) (fun ok effect => effect.marked_stays ?_) run marked
    rintro rfl
    exact ok

end Mild

theorem insertChildren_deps {root : Uuid} {children : List ChildSpec}
    (done : children.foldlM (insertChild parent root) db = some db') : db'.deps = db.deps := by
  obtain ⟨-, -, -, rfl, -⟩ := insertChildren_spec done
  rfl

theorem batchUpsertChildren_deps {root : Uuid} {existing : List Resource}
    (done : batchUpsertChildren db parent root existing out = some db') : db'.deps = db.deps := by
  obtain ⟨inserted, insert, rfl⟩ := map_eq_some_iff.mp done
  have before := insertChildren_deps insert
  exact (updateResources_only inserted _ _ _).deps.trans before

theorem applyEdges_ends
    (done : applyEdges db parent produced = some db') {r : Resource} (here : r ∈ db.resources)
    (owned : r.ownerId = some parent) {d : ResourceDep} (after : d ∈ db'.deps)
    (dependent : d.dependentId = r.id) : ∃ p ∈ produced, p.dependentId = r.id := by
  rcases applyEdges_mem done after with ⟨p, listed, same, -⟩ | ⟨-, other⟩
  · exact ⟨p, listed, (ends_eq same).1.trans dependent⟩
  · rw [depsByOwner_of_mem here dependent.symm owned] at other
    cases other

theorem mem_droppedBy {env : ComposeEnv} {t : WorkTask} {e : Resource} : e ∈ droppedBy db env t out ↔
      e ∈ db.resources ∧ e.ownerId = some t.resourceId ∧ ∀ c ∈ out.children, e.ref ≠ c.ref := by
  simp only [droppedBy, dropped, existingChildren, mem_filter, mem_shuffle, decide_eq_true_eq,
    List.all_eq_true, Table.mem_rows, and_assoc]

section Stages

variable {env : ComposeEnv} {t : WorkTask} {out : ComposeOutput} {pol : ComposePolicy}
  {parent : Resource} {upserted wired : Db} {produced : List ResourceDep}
  (stages : ComposeStages db env t out pol parent upserted produced wired)

include stages

theorem ComposeStages.upserted_eq : upsertedBy db env t out = some upserted := by
  rw [upsertedBy, stages.found]
  exact stages.upsert

theorem ComposeStages.dropped_eq : dropped (shuffle env.childOrder (existingChildren db parent.id)) out =
      droppedBy db env t out := by
  rw [droppedBy, (mem_of_lookup stages.found).2]

theorem ComposeStages.before : Effects Label.Mild db upserted :=
  batchUpsertChildren_effects (.of_all (fun _ => Label.Calm.mild) trivial fun _ _ => trivial) trivial
    stages.present stages.upsert

theorem ComposeStages.after {allow : Label → Prop} (wide : ∀ l, l.Wrote → allow l)
    (rewires : allow .rewire) (wrote : Effects Label.Wrote wired db') :
    Effects allow (pruneChildren upserted env.scans pol (droppedBy db env t out)) db' := by
  refine Steps.trans ?_ (wrote.mono wide)
  refine Steps.trans ?_ (applyEdges_effects rewires stages.wire)
  rw [← stages.dropped_eq]
  exact (clearOrphanMarks_effects _ _ _).mono fun l h => wide l h.wrote

theorem ComposeStages.mild_after (wrote : Effects Label.Wrote wired db') :
    Effects Label.Mild (pruneChildren upserted env.scans pol (droppedBy db env t out)) db' :=
  stages.after (fun _ => Label.Wrote.mild) trivial wrote

theorem ComposeStages.chain_iff {S : Db → Db → Prop} (done : applyComposeResult db env t out pol = some db') :
    (db :: composeTrace db env t out pol).IsChain S ↔ S db upserted ∧
      (upserted :: softTrace env.scans (softStale pol (droppedBy db env t out)) upserted).IsChain S ∧
      S (softDelete upserted env.scans (softStale pol (droppedBy db env t out)))
        (gracedBy upserted env.scans pol (droppedBy db env t out)) ∧
      S (gracedBy upserted env.scans pol (droppedBy db env t out))
        (pruneChildren upserted env.scans pol (droppedBy db env t out)) ∧
      S (pruneChildren upserted env.scans pol (droppedBy db env t out)) db' := by
  simp only [composeTrace, stages.upserted_eq, done, isChain_cons_cons, chain_append,
    softTrace_last, isChain_singleton, and_true]

/-- The compose spares pending finalizers exactly if its DELETE does. -/
theorem ComposeStages.spares_iff (seeded : ∀ r ∈ db.resources, r.Seeded)
    (wrote : Effects Label.Wrote wired db') (done : applyComposeResult db env t out pol = some db') :
    (db :: composeTrace db env t out pol).IsChain Spares ↔
      ∀ id, ¬ Endangered upserted (hardStale pol (droppedBy db env t out)) id := by
  have inserts : Spares db upserted := .of_stored fun _ => stages.before.mild_stored
  have requests := (softTrace_chain env.scans (softStale pol (droppedBy db env t out)) upserted).imp
    fun _ _ => SweepStep.spares
  have stamps : Effects Label.Mild _ (gracedBy upserted env.scans pol (droppedBy db env t out)) :=
    (markChildrenOrphaned_effects _ _ _).mono fun _ => Label.Calm.mild
  have grace : Spares _ (gracedBy upserted env.scans pol (droppedBy db env t out)) :=
    .of_stored fun _ => stamps.mild_stored
  have rest : Spares _ db' := .of_stored fun _ => (stages.mild_after wrote).mild_stored
  rw [stages.chain_iff done]
  simp only [inserts, requests, grace, rest, true_and, and_true]
  refine spares_delete_iff.trans (forall_congr' fun id => not_congr ?_)
  exact gracedBy_endangered (stages.before.seeded seeded)

theorem ComposeStages.behind (named : Named db) {a b : Uuid} (storedA : Stored db a)
    (depends : Depends db a b) (marks : Marked db a → Marked db b) (wrote : Effects Label.Wrote wired db')
    (done : applyComposeResult db env t out pol = some db') :
    (db :: composeTrace db env t out pol).IsChain (Behind a b) := by
  have inserted : Held a b upserted := by
    intro _ storedB
    rw [stages.before.mild_marked named storedA, stages.before.mild_marked named depends.1]
    refine ⟨⟨storedB, ?_⟩, marks⟩
    rw [batchUpsertChildren_deps stages.upsert]
    exact depends.2
  have requests := (chain_keeps (fun _ _ step held => ⟨step.held held, step.behind held⟩)
    (softTrace_chain env.scans (softStale pol (droppedBy db env t out)) upserted) inserted).1
  rw [stages.chain_iff done]
  exact ⟨.of_effects stages.before fun h => h, requests,
    .of_effects (markChildrenOrphaned_effects _ _ _) fun h => h, .of_delete _,
    .of_effects (stages.mild_after wrote) fun h => h⟩

/-- **The prune forgets the order.**  A dropped child that is still there depends on
nothing any more. -/
theorem ComposeStages.edge_gone (named : Named db) (wrote : Effects Label.Wrote wired db') {b : Resource}
    (gone : b ∈ droppedBy db env t out) (a : Uuid) : ¬ Depends db' a b.id := by
  rintro ⟨⟨r', last, same⟩, d', after', -, dependent⟩
  obtain ⟨here, owned, unlisted⟩ := mem_droppedBy.mp gone
  have drawn : db.Drawn b.id := named b here
  -- the row of the child where the edges are pruned
  have wire : Effects Label.Mild _ db' :=
    (applyEdges_effects trivial stages.wire).trans (wrote.mono fun _ => Label.Wrote.mild)
  have known : Db.Drawn _ r'.id :=
    same ▸ drawn.mono (Effects.drawn_le (stages.pruned_effects (Composable.plain db)))
  obtain ⟨r, there, sameR, -⟩ := Effects.tracks respects_true wire last known
  obtain ⟨b₀, here₀, same₀, row⟩ :=
    Effects.tracks respects_sameRow (stages.pruned_effects (Composable.plain db)) there
    (sameR.trans same ▸ drawn)
  obtain rfl := eq_of_pk resource_primary here₀ here (same₀.trans (sameR.trans same))
  -- an edge it still has was emitted, so it was emitted itself
  obtain ⟨d, after, ends⟩ := (wrote.tame fun _ => Label.Wrote.tame).1.edges d' after'
  have owner : r.ownerId = some parent.id := by
    rw [row.ownerId, owned, (mem_of_lookup stages.found).2]
  obtain ⟨p, listed, sameP⟩ := applyEdges_ends stages.wire there owner after
    (ends.dependentId.symm.trans (dependent.trans same₀))
  obtain ⟨edge, -, resolved, -⟩ := resolveEdges_mem stages.resolve listed
  obtain ⟨⟨c, emitted, sameC⟩, u, thereU, sameU, refU, -⟩ := refToId_row resolved
  obtain ⟨b₁, here₁, same₁, rowU⟩ := Effects.tracks respects_sameRow stages.before thereU
    ((sameU.trans sameP).trans same₀.symm ▸ drawn)
  obtain rfl := eq_of_pk resource_primary here₁ here (same₁.trans ((sameU.trans sameP).trans same₀.symm))
  refine unlisted c emitted ?_
  rw [sameC, ← refU, Resource.ref, Resource.ref, rowU.kind, rowU.name]

/-- A child that is deleted outright is gone after the compose. -/
theorem ComposeStages.hard_gone (named : Named db) (wrote : Effects Label.Wrote wired db') {e : Resource}
    (gone : e ∈ droppedBy db env t out) (hard : pruneOf pol e = .hard) : ¬ Stored db' e.id := by
  rintro ⟨r', last, same⟩
  have drawn := ((named e (mem_droppedBy.mp gone).1).mono stages.before.drawn_le).mono
    (Effects.drawn_le (pruneChildren_effects upserted env.scans pol (droppedBy db env t out)))
  obtain ⟨r, there, sameR, -⟩ := (stages.mild_after wrote).tracks respects_true last (same ▸ drawn)
  obtain ⟨stored, spared⟩ := stored_deleteResources.mp ⟨r, there, sameR.trans same⟩
  have listed : e.id ∈ hardStale pol (droppedBy db env t out) :=
    mem_map_of_mem (mem_filter.mpr ⟨gone, decide_eq_true hard⟩)
  exact spared (mem_cascaded.mpr ⟨e.id, listed, stored, .refl⟩)

end Stages

theorem gone_stays (drawn : db.Drawn id) (gone : ¬ Stored db id) (actions : List Action) :
    ¬ Stored (run db actions) id := by
  induction actions generalizing db with
  | nil => exact gone
  | cons a rest ih =>
    have effects := step_effects db a
    refine ih (drawn.mono (Effects.drawn_le effects)) ?_
    rintro ⟨r', after, rfl⟩
    obtain ⟨r, here, same, -⟩ := Effects.tracks respects_true effects after drawn
    exact gone ⟨r, here, same⟩

/-! ## The exact condition -/

/-- Row `a` carries a finalizer, its teardown is not queued yet, and nothing but `b` can
hold it back. -/
structure Poised (a b : Uuid) (db : Db) : Prop where
  row : ∃ r ∈ db.resources, r.id = a ∧ r.marked = true ∧ r.finalizers.isEmpty = false
  waiting : deleteQueued db a = false
  free : ∀ c, ¬ Owns db a c ∧ (c ≠ b → Depends db a c → ¬ Marked db c)

/-- Without the edge the next sweep queues the teardown, whether or not `b` is there. -/
theorem Poised.overtakes {a b : Uuid} (poised : Poised a b db) (named : QueueNamed db)
    (stored : Stored db b) (gone : ¬ Depends db a b) :
    ¬ (db :: statements db (.sweepDeletable (fun _ => Scan.plain) db.resources.rows.length
      ShardRange.full)).IsChain (Behind a b) := by
  intro chain
  have first : Behind a b db (sweepEnqueue db Scan.plain db.resources.rows.length ShardRange.full) := by
    exact (isChain_cons_cons.mp chain).1
  obtain ⟨r, here, rfl, marked, open_⟩ := poised.row
  have open_gate : unblocked db r = true := by
    refine unblocked_iff.mpr ⟨marked, fun c => ⟨(poised.free c).1, fun depends => ?_⟩⟩
    refine (poised.free c).2 ?_ depends
    rintro rfl
    exact gone depends
  have ready : r ∈ db.resources.rows.filter (teardownReady db ShardRange.full) := by
    refine mem_filter.mpr ⟨here, ?_⟩
    simp only [teardownReady, open_gate, open_, poised.waiting, ShardRange.full_covers,
      Bool.not_false, Bool.and_self]
  have picked : r ∈ Scan.plain.lockless.pick (·.id) Scan.unordered db.resources.rows.length
      (db.resources.rows.filter (teardownReady db ShardRange.full)) :=
    Scan.mem_pick_of_room (length_filter_le _ _) ready rfl
  obtain ⟨q, listed, same, type⟩ : Queued _ r.id .delete := enqueueAll_queued named picked
  refine first q listed type same (fun p old sameId => ?_) stored
  rcases mem_enqueueAll listed with before | ⟨-, -, -, -, new⟩
  · have queued : deleteQueued db r.id = true := deleteQueued_iff.mpr ⟨q, before, same, type⟩
    rw [poised.waiting] at queued
    cases queued
  · exact new (sameId ▸ named p old)

/-- **When a compose tears down in order.**  Take any compose that commits in a reachable
state.  None of its statements removes a row before its finalizer has run exactly if no
row at or below those it deletes outright has one to run.  And for a dropped child `b`
that depended on a dropped sibling `a`:

* the compose itself queues no teardown of `a` while `b` is there, unless `a` was marked
  alone before;
* nor does any later step, if the prune deletes one of the two outright, or one of the rows
  is gone otherwise;
* if both rows are left and nothing else holds `a` back, the next sweep over all rows does. -/
theorem compose_prune_ordered (reachable : Reachable db) {env : ComposeEnv} {t : WorkTask}
    {out : ComposeOutput} {pol : ComposePolicy} (claimed : t ∈ db.tasks ∧ t.taskType = .reconcile)
    (done : applyComposeResult db env t out pol = some db') :
    ((db :: composeTrace db env t out pol).IsChain Spares ↔ ∀ upserted ∈ upsertedBy db env t out, ∀ id,
        ¬ Endangered upserted (hardStale pol (droppedBy db env t out)) id) ∧
    ∀ a ∈ droppedBy db env t out, ∀ b ∈ droppedBy db env t out, Depends db a.id b.id →
      ((a.marked = true → b.marked = true) → (db :: composeTrace db env t out pol).IsChain (Behind a.id b.id)) ∧
      ((∃ e ∈ [a, b], pruneOf pol e = .hard ∨ ¬ Stored db' e.id) → ∀ actions,
        deleteQueued (run db' actions) a.id = true → ¬ Stored (run db' actions) b.id) ∧
      (Stored db' b.id → Poised a.id b.id db' →
        ¬ (db' :: statements db' (.sweepDeletable (fun _ => Scan.plain) db'.resources.rows.length
          ShardRange.full)).IsChain (Behind a.id b.id)) := by
  obtain ⟨parent, upserted, produced, wired, stages, wrote⟩ := applyComposeResult_parts claimed.1 done
  have committed : step db (.applyComposeResult env t out pol) = db' := by
    show submitCompose db env t out pol = db'
    rw [submitCompose, if_pos claimed, done]
    rfl
  have after : Reachable db' := committed ▸ reachable.step _
  have named := reachable.named
  constructor
  · rw [stages.spares_iff reachable.seeded wrote done]
    simp only [stages.upserted_eq, mem_some_iff, forall_eq']
  intro a droppedA b droppedB depends
  obtain ⟨hereA, -⟩ := mem_droppedBy.mp droppedA
  obtain ⟨hereB, -⟩ := mem_droppedBy.mp droppedB
  refine ⟨fun marks => ?_, fun left actions queued => ?_, fun stored poised => ?_⟩
  · refine stages.behind named ⟨a, hereA, rfl⟩ depends ?_ wrote done
    rwa [marked_of_mem hereA, marked_of_mem hereB]
  · have drawn_le := Effects.drawn_le (applyComposeResult_effects (Composable.plain db) claimed.1 done)
    obtain ⟨e, one, left⟩ := left
    have dropped : e ∈ droppedBy db env t out := by
      rcases mem_pair.mp one with rfl | rfl
      · exact droppedA
      · exact droppedB
    have gone : ¬ Stored db' e.id := left.elim (stages.hard_gone named wrote dropped) id
    rcases mem_pair.mp one with rfl | rfl
    · -- a queued teardown is of a stored row
      obtain ⟨q, listed, same, type⟩ := deleteQueued_iff.mp queued
      have marked := (after.run actions).queuedMarked q listed type
      exact absurd (same ▸ marked.stored) (gone_stays ((named e hereA).mono drawn_le) gone actions)
    · exact gone_stays ((named e hereB).mono drawn_le) gone actions
  · exact poised.overtakes after.queueNamed stored (stages.edge_gone named wrote droppedB a.id)

end Prune

/-- After `build`, the root is reconciled again. -/
def rebuilt (build : List Action) : List Action :=
  build ++ [.reconcile 0, claimAll "b" "app" .reconcile]

/-- Its composer then emits nothing. -/
def emptied (build : List Action) : List Action :=
  composing "app" noGrace leafFinalizer ⟨[], [], []⟩ (rebuilt build)

/-- A root with a disk and a mount that depends on it, neither with a finalizer. -/
def diskTree : List Action :=
  composing "app" noGrace leafFinalizer
    ⟨[child "disk" "d", child "mount" "m"], [⟨⟨"mount", "m"⟩, ⟨"disk", "d"⟩, []⟩], []⟩
    [applyRoot "app" "a", claimAll "b" "app" .reconcile]

/-- A root with a group that composed a machine. -/
def groupTree : List Action :=
  composing "group" noGrace leafFinalizer ⟨[child "vm" "v"], [], []⟩
    (composing "app" noGrace leafFinalizer ⟨[child "group" "g"], [], []⟩
      [seedKind "vm" (some "vm/destroy"), applyRoot "app" "a", claimAll "b" "app" .reconcile] ++
      [.drainScheduleRechecks Scan.plain 10 ShardRange.full, claimAll "b" "group" .reconcile])

/-- Dropping the disk and the mount deletes both outright, with no finalizer to run: the
disk's teardown never overtakes the mount. -/
theorem compose_prune_ordered_disk : letI := counting
    let db := run Db.empty (rebuilt diskTree)
    let env : ComposeEnv := ⟨id, id, fun _ _ => Scan.plain⟩
    let pol : ComposePolicy := ⟨fun kind _ => noGrace kind, fun kind _ => leafFinalizer kind⟩
    ∃ t ∈ db.tasks, ∃ db', applyComposeResult db env t ⟨[], [], []⟩ pol = some db' ∧
      (db :: composeTrace db env t ⟨[], [], []⟩ pol).IsChain Spares ∧
      (db :: composeTrace db env t ⟨[], [], []⟩ pol).IsChain (Behind 2 3) ∧
      ∀ actions, deleteQueued (run db' actions) 2 = true → ¬ Stored (run db' actions) 3 := by
  let _ := counting
  intro db env pol
  have reachable : Reachable db := ⟨_, rfl⟩
  have facts : ∃ t ∈ db.tasks, t.taskType = .reconcile ∧
      (applyComposeResult db env t ⟨[], [], []⟩ pol).isSome ∧
      ((upsertedBy db env t ⟨[], [], []⟩).all fun upserted =>
        upserted.resources.rows.all fun r => !finalizerPending upserted r) = true ∧
      ∃ a ∈ droppedBy db env t ⟨[], [], []⟩, ∃ b ∈ droppedBy db env t ⟨[], [], []⟩,
        a.id = 2 ∧ b.id = 3 ∧ a.marked = false ∧ pruneOf pol a = .hard := by
    decide +kernel
  have edge : (∃ r ∈ db.resources.rows, r.id = 3) ∧
      ∃ d ∈ db.deps.rows, d.dependencyId = 2 ∧ d.dependentId = 3 := by
    decide +kernel
  obtain ⟨t, claimed, type, committed, plain, a, droppedA, b, droppedB, idA, idB, unmarked, hard⟩ := facts
  obtain ⟨db', done⟩ := isSome_iff_exists.mp committed
  obtain ⟨spares, pairs⟩ := compose_prune_ordered reachable ⟨claimed, type⟩ done
  have depends : Depends db a.id b.id := by
    rw [idA, idB]
    exact edge
  obtain ⟨inside, later, -⟩ := pairs a droppedA b droppedB depends
  rw [idA, idB] at inside later
  refine ⟨t, claimed, db', done, spares.mpr ?_, inside ?_,
    later ⟨a, mem_cons_self, .inl hard⟩⟩
  · rintro upserted found id ⟨-, r, here, -, pending⟩
    rw [Option.all_eq_true] at plain
    have closed := all_eq_true.mp (plain upserted found) r here
    rw [pending] at closed
    cases closed
  · rw [unmarked]
    exact fun h => nomatch h

/-- Dropping a group deletes it outright, and its machine goes by cascade with the
finalizer still to run.  Dropping a network and the machine that depends on it marks
both and forgets the edge, so the next sweep queues the network's teardown while the
machine is still there. -/
theorem compose_prune_unordered : letI := counting
    (let db := run Db.empty (rebuilt groupTree)
      let pruned := run Db.empty (emptied groupTree)
      ∃ v ∈ db.resources.rows, finalizerPending db v = true ∧ ∀ r ∈ pruned.resources.rows, r.id ≠ v.id) ∧
    (let db := run Db.empty (rebuilt networkTree)
      let pruned := run Db.empty (emptied networkTree)
      let swept := sweepDeletable pruned (fun _ => Scan.plain) 10 ShardRange.full
      ∃ d ∈ db.deps.rows, deleteQueued pruned d.dependencyId = false ∧
        deleteQueued swept d.dependencyId = true ∧
        ∃ r ∈ swept.resources.rows, r.id = d.dependentId) := by
  decide +kernel

end Converge.Kernel
