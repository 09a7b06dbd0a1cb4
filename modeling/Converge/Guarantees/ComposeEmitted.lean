/-
# Guarantees.ComposeEmitted -- what a compose does to the children it emits

A deletion request marks everything that depends on its target.  The requests of a
compose run before its edges are rewritten, so they follow the edges of the compose
before: a child that is still emitted, but depended on one that no longer is, is marked
with it, and removed in the same transaction when its kind has no finalizer.

`compose_keeps_emitted` draws the line.  An emitted child stays stored and unmarked
through every statement of the compose if no old path leads to it from a child whose
deletion is requested; a path of unmarked rows dooms it.  A child the compose has just
inserted is safe, for no old edge names it; and a child that was draining already is not
removed before its finalizer has run.
-/
import Converge.Guarantees.ComposePrune

namespace Converge.Kernel

open Converge.Theory List Table

set_option autoImplicit false
set_option linter.unusedSectionVars false

variable {allow : Label → Prop} {stale : List Resource} {e : Resource} {a b : Uuid}
    {scans : Uuid → Nat → Scan Uuid}

section Emitted

variable [Postgres] {db db' : Db} {id : Uuid}

/-! ## Live rows -/

/-- The row is there and not being deleted. -/
def Live (db : Db) (id : Uuid) : Prop := Stored db id ∧ ¬ Marked db id

theorem live_of_mem {r : Resource} (here : r ∈ db.resources) : Live db r.id ↔ r.marked = false := by
  rw [Live, marked_of_mem here, Bool.not_eq_true]
  exact and_iff_right ⟨r, here, rfl⟩

/-- Nothing brings a row back, and nothing clears a mark. -/
theorem Effects.live_back (run : Effects allow db db') (drawn : db.Drawn id)
    (live : Live db' id) : Live db id := by
  have respects : Respects allow fun r r' => r.marked = true → r'.marked = true :=
    { refl := fun _ h => h
      trans := fun first second h => second (first h)
      quiet := fun q h => by rwa [Resource.marked, q.deletionRequestedAt]
      row := fun _ _ step => step.marked }
  obtain ⟨⟨r', after, rfl⟩, unmarked⟩ := live
  obtain ⟨r, here, same, marks⟩ := Effects.tracks respects run after drawn
  rw [← same, live_of_mem here, ← Bool.not_eq_true]
  exact fun marked => unmarked ((marked_of_mem after).mpr (marks marked))

theorem Effects.marked_stays (run : Effects allow db db')
    (drawn : db.Drawn id) (marked : Marked db id) (stored : Stored db' id) : Marked db' id := by
  by_contra unmarked
  exact (run.live_back drawn ⟨stored, unmarked⟩).2 marked

theorem Effects.mild_live (run : Effects Label.Mild db db') (named : Named db) (live : Live db id) :
    Live db' id :=
  ⟨run.mild_stored live.1, fun marked => live.2 ((run.mild_marked named live.1).mp marked)⟩

theorem live_markRows {seed : Uuid} : Live (markRows db seed) id ↔ Live db id ∧ id ∉ markTree db seed := by
  rw [Live, stored_markRows, marked_markRows]
  constructor
  · rintro ⟨stored, unmarked⟩
    exact ⟨⟨stored, fun h => unmarked (.inl h)⟩, fun h => unmarked (.inr ⟨stored, h⟩)⟩
  · rintro ⟨⟨stored, unmarked⟩, out⟩
    exact ⟨stored, fun h => h.elim unmarked fun inside => out inside.2⟩

theorem live_deleteResources {ids : List Uuid} :
    Live (deleteResources db ids) id ↔ Live db id ∧ id ∉ cascaded db ids := by
  rw [Live, stored_deleteResources, marked_deleteResources]
  constructor
  · rintro ⟨⟨stored, out⟩, unmarked⟩
    exact ⟨⟨stored, fun h => unmarked ⟨h, out⟩⟩, out⟩
  · rintro ⟨⟨stored, unmarked⟩, out⟩
    exact ⟨⟨stored, out⟩, fun h => unmarked h.1⟩

theorem live_congr (rows : db'.resources = db.resources) : Live db' id ↔ Live db id := by
  simp only [Live, Stored, Marked, rows]

theorem live_unblocked {rows : List Resource}
    (picked : ∀ r ∈ rows, r ∈ db.resources ∧ unblocked db r = true) :
    Live (deleteResources db (rows.map (·.id))) id ↔ Live db id := by
  refine ⟨fun h => (live_deleteResources.mp h).1, fun live => live_deleteResources.mpr ⟨live, fun gone => ?_⟩⟩
  have named := cascaded_childless (fun s named b => ?_) gone
  · obtain ⟨r, one, rfl⟩ := mem_map.mp named
    obtain ⟨here, free⟩ := picked r one
    exact live.2 ((marked_of_mem here).mpr (unblocked_iff.mp free).1)
  · obtain ⟨r, one, rfl⟩ := mem_map.mp named
    exact ((unblocked_iff.mp (picked r one).2).2 b).1

theorem live_swept {scan : Scan Uuid} {n : Nat} {range : ShardRange} :
    Live (sweepDelete db scan n range) id ↔ Live db id := by
  refine live_unblocked fun r picked => ?_
  obtain ⟨there, removable⟩ := mem_filter.mp (Scan.mem_of_mem_pick picked)
  simp only [Kernel.removable, Bool.and_eq_true] at removable
  exact ⟨there, removable.1.1⟩

theorem SweepStep.live (step : SweepStep db db') : Live db' id ↔ Live db id ∧ ¬ Marked db' id := by
  have kept {s s' : Db} (same : Live s' id ↔ Live s id) : Live s' id ↔ Live s id ∧ ¬ Marked s' id :=
    ⟨fun h => ⟨same.mp h, h.2⟩, fun h => same.mpr h.1⟩
  cases step with
  | mark seed =>
    rw [Live, stored_markRows]
    exact ⟨fun h => ⟨⟨h.1, fun m => h.2 (marked_markRows.mpr (.inl m))⟩, h.2⟩, fun h => ⟨h.1.1, h.2⟩⟩
  | schedule seed => exact kept (live_congr (cascadeMark_only _ seed).resources)
  | enqueue scan n range => exact kept (live_congr (sweepEnqueue_only db scan n range).resources)
  | remove scan n range => exact kept live_swept

/-! ## Where marks spread -/

theorem spreads_congr (rows : db'.resources = db.resources) (edges : db'.deps = db.deps) :
    Spreads db' a b ↔ Spreads db a b := by
  simp only [Spreads, Owns, rows, edges]

theorem SweepStep.spreads (step : SweepStep db db') (h : Spreads db' a b) : Spreads db a b := by
  cases step with
  | mark seed => exact h.imp owns_markRows fun edge => edge
  | schedule seed =>
    exact (spreads_congr (cascadeMark_only _ seed).resources (cascadeMark_only _ seed).deps).mp h
  | enqueue scan n range =>
    have only := sweepEnqueue_only db scan n range
    exact (spreads_congr only.resources only.deps).mp h
  | remove scan n range =>
    refine h.imp owns_deleteResources ?_
    rintro ⟨d, listed, ends⟩
    exact ⟨d, (mem_deps_deleteResources.mp listed).1, ends⟩

/-- A row no requested deletion spreads to lives through all of them. -/
theorem softTrace_live (live : Live db id) (apart : ∀ e ∈ stale, ¬ Relation.ReflTransGen (Spreads db) e.id id) :
    ∀ s ∈ db :: softTrace scans stale db, Live s id := by
  have kept := (softTrace_steps scans stale (List.Subset.refl _) db).induction
    (fun s => Live s id ∧ ∀ a b, Spreads s a b → Spreads db a b) _ ?_
    (fun _ => ⟨live, fun _ _ h => h⟩)
  · exact fun s listed => (kept s listed).1
  rintro s s' step ⟨alive, paths⟩
  refine ⟨step.sweeps.live.mpr ⟨alive, fun marked => ?_⟩, fun a b h => paths a b (step.sweeps.spreads h)⟩
  rcases step.marks id marked with old | ⟨e, listed, inside⟩
  · exact alive.2 old
  · refine apart e listed ?_
    exact Relation.ReflTransGen.mono paths _ _ (mem_markTree.mp inside)

/-- `b` waits behind `a`, and both live. -/
def Drags (db : Db) (a b : Uuid) : Prop := Waits db a b ∧ Live db a ∧ Live db b

/-- While `b` lives `a` does, and `b` still waits behind it. -/
def Tied (a b : Uuid) (db : Db) : Prop := Live db b → Live db a ∧ Waits db a b

theorem Tied.of_eq (rows : db'.resources = db.resources) (edges : db'.deps = db.deps)
    (tied : Tied a b db) : Tied a b db' := by
  simp only [Tied, Live, Waits, Blocking.Waits, Owns, Depends, Stored, Marked, rows, edges]
  exact tied

/-- A mark that ends the life of a row ends that of what waits behind it. -/
theorem Tied.mark (tied : Tied a b db) (seed : Uuid) : Tied a b (markRows db seed) := by
  intro live
  obtain ⟨before, out⟩ := live_markRows.mp live
  obtain ⟨alive, waits⟩ := tied before
  refine ⟨live_markRows.mpr ⟨alive, fun inside => out (markTree_closed inside waits)⟩, ?_⟩
  refine waits.imp (owns_update (markRow_key db) rfl (markRow_place db)).mpr fun depends => ?_
  exact ⟨stored_markRows.mpr depends.1, depends.2⟩

theorem Tied.sweep (tied : Tied a b db) (scan : Scan Uuid) (n : Nat)
    (range : ShardRange) : Tied a b (sweepDelete db scan n range) := by
  intro live
  obtain ⟨alive, waits⟩ := tied (live_swept.mp live)
  have aliveAfter : Live (sweepDelete db scan n range) a := live_swept.mpr alive
  have outA := (stored_deleteResources.mp aliveAfter.1).2
  have outB := (stored_deleteResources.mp live.1).2
  refine ⟨aliveAfter, ?_⟩
  rcases waits with ⟨r, here, rfl, owned⟩ | ⟨-, d, listed, rfl, rfl⟩
  · obtain ⟨r', after, node⟩ := deleteResources_keeps here outB
    exact .inl ⟨r', after, node.id, node.ownerId.trans owned⟩
  · exact .inr ⟨live.1, d, mem_deps_deleteResources.mpr ⟨listed, outB, outA⟩, rfl, rfl⟩

theorem SweepStep.tied (step : SweepStep db db') (tied : Tied a b db) : Tied a b db' := by
  cases step with
  | mark seed => exact tied.mark seed
  | schedule seed => exact tied.of_eq (cascadeMark_only _ seed).resources (cascadeMark_only _ seed).deps
  | enqueue scan n range =>
    have only := sweepEnqueue_only db scan n range
    exact tied.of_eq only.resources only.deps
  | remove scan n range => exact tied.sweep scan n range

theorem SweepStep.dead {l : List Db} (chain : (db :: l).IsChain SweepStep) (dead : ¬ Live db id) :
    ¬ Live (l.getLastD db) id :=
  (chain_keeps (S := SweepStep) (I := fun s => ¬ Live s id)
    (fun _ _ step h => ⟨fun live => h (step.live.mp live).1, step⟩) chain dead).2

theorem request_dead (db : Db) (scans : Nat → Scan Uuid) (id : Uuid) :
    ¬ Live (requestResourceDeletion db scans id) id := by
  by_cases found : (db.resource? id).isSome
  · have chain := requestTrace_chain db scans id
    rw [← requestTrace_last]
    rw [requestTrace, if_pos found] at chain ⊢
    rw [getLastD_cons]
    refine SweepStep.dead (isChain_cons_cons.mp chain).2 fun live => ?_
    exact (live_markRows.mp live).2 (mem_markTree.mpr .refl)
  · rw [requestResourceDeletion, if_neg found]
    rintro ⟨⟨r, here, rfl⟩, -⟩
    rw [Db.resource?, lookup_of_mem resource_primary here] at found
    exact found rfl

theorem softDelete_dead (listed : e ∈ stale) : ¬ Live (softDelete db scans stale) e.id := by
  induction stale generalizing db with
  | nil => cases listed
  | cons x rest ih =>
    rcases mem_cons.mp listed with rfl | later
    · have last := SweepStep.dead (softTrace_chain scans rest _) (request_dead db (scans e.id) e.id)
      rwa [softTrace_last] at last
    · exact ih later

theorem softDelete_drags (listed : e ∈ stale) (path : Relation.ReflTransGen (Drags db) e.id id) :
    ¬ Live (softDelete db scans stale) id := by
  induction path with
  | refl => exact softDelete_dead listed
  | tail _ drags ih =>
    obtain ⟨waits, alive, -⟩ := drags
    have tied := (chain_keeps (fun _ _ step tied => ⟨step.tied tied, step⟩)
      (softTrace_chain scans stale db) (fun _ => ⟨alive, waits⟩)).2
    rw [softTrace_last] at tied
    exact fun live => ih (tied live).1

/-! ## Draining rows -/

/-- The row is marked and has a finalizer to run. -/
def Draining (db : Db) (id : Uuid) : Prop :=
  ∃ r ∈ db.resources, r.id = id ∧ r.marked = true ∧ r.finalizers.isEmpty = false

theorem Draining.delete {ids : List Uuid} (draining : Draining db id) (out : id ∉ cascaded db ids) :
    Draining (deleteResources db ids) id := by
  obtain ⟨r, here, rfl, marked, open_⟩ := draining
  obtain ⟨r', after, same⟩ := stored_deleteResources.mpr ⟨⟨r, here, rfl⟩, out⟩
  refine ⟨r', after, same, ?_⟩
  obtain ⟨r₀, here₀, -, rfl | rfl⟩ := mem_deleteResources after
  · rw [eq_of_pk resource_primary here₀ here same]
    exact ⟨marked, open_⟩
  · obtain rfl := eq_of_pk resource_primary here₀ here same
    exact ⟨marked, open_⟩

theorem SweepStep.draining (step : SweepStep db db') (draining : Draining db id) : Draining db' id := by
  cases step with
  | mark seed =>
    obtain ⟨r, here, same, marked, open_⟩ := draining
    refine ⟨r, mem_markRows.mpr ⟨r, here, ?_⟩, same, marked, open_⟩
    rw [marked, Bool.not_true, Bool.and_false, if_neg Bool.false_ne_true]
  | schedule seed =>
    rwa [Draining, (cascadeMark_only _ seed).resources]
  | enqueue scan n range =>
    rwa [Draining, (sweepEnqueue_only db scan n range).resources]
  | remove scan n range =>
    refine draining.delete fun gone => ?_
    obtain ⟨r, here, rfl, -, open_⟩ := draining
    have removed : ¬ Stored (sweepDelete db scan n range) r.id :=
      fun stored => (stored_deleteResources.mp stored).2 gone
    rw [(swept_row here removed).2] at open_
    cases open_

theorem RowStep.finalizers {k : RowKind} {r r' : Resource} (noStrip : ∀ rs, k ≠ .strip rs)
    (marked : r.marked = true) (h : RowStep db r r' k) : r'.finalizers = r.finalizers := by
  cases k with
  | quiet => exact Quiet.finalizers h
  | write => exact Written.finalizers h
  | mark =>
    obtain ⟨unmarked, -⟩ := h
    rw [marked] at unmarked
    cases unmarked
  | thaw id =>
    obtain ⟨-, rfl⟩ := h
    rfl
  | stamp =>
    obtain ⟨t, -, -, rfl⟩ := h
    rfl
  | strip rs => exact absurd rfl (noStrip rs)
  | result rs =>
    obtain ⟨o, -, -, rfl⟩ := h
    rfl

/-- The effects around the prune: writes, and the new edges. -/
def Label.Wires (l : Label) : Prop := l.Wrote ∨ l = .rewire

theorem Effects.draining (run : Effects allow db db') (noDelete : ¬ allow .delete)
    (noStrip : ∀ rs, ¬ allow (.row (.strip rs))) (draining : Draining db id) : Draining db' id := by
  refine Steps.keeps (I := fun s => Draining s id) ?_ run draining
  rintro l a b ok effect ⟨r, here, rfl, marked, open_⟩
  have kept : l ≠ .delete := by
    rintro rfl
    exact noDelete ok
  rcases effect.keeps_row kept here with same | ⟨k, rfl, r', after, step⟩
  · exact ⟨r, same, rfl, marked, open_⟩
  · refine ⟨r', after, step.same.id, step.marked marked, ?_⟩
    rw [step.finalizers (fun rs same => noStrip rs (same ▸ ok)) marked, open_]

end Emitted

section Compose

variable [Postgres] {db db' : Db} {env : ComposeEnv} {t : WorkTask} {out : ComposeOutput}
  {pol : ComposePolicy}

/-- A child of the composing parent that the output emits. -/
structure Emits (t : WorkTask) (out : ComposeOutput) (r : Resource) : Prop where
  owned : r.ownerId = some t.resourceId
  listed : ∃ c ∈ out.children, c.ref = r.ref

section Stages

variable {parent r : Resource} {upserted wired : Db} {produced : List ResourceDep}
  {own : Uuid → Option Uuid}
  (stages : ComposeStages db env t out pol parent upserted produced wired)

include stages

theorem ComposeStages.throughout {P : Db → Prop} (done : applyComposeResult db env t out pol = some db')
    (requests : ∀ s ∈ upserted :: softTrace env.scans (softStale pol (droppedBy db env t out)) upserted, P s)
    (grace : P (softDelete upserted env.scans (softStale pol (droppedBy db env t out))) →
      P (gracedBy upserted env.scans pol (droppedBy db env t out)))
    (delete : P (gracedBy upserted env.scans pol (droppedBy db env t out)) →
      P (pruneChildren upserted env.scans pol (droppedBy db env t out)))
    (rest : P (pruneChildren upserted env.scans pol (droppedBy db env t out)) → P db') :
    ∀ s ∈ composeTrace db env t out pol, P s := by
  have soft : P (softDelete upserted env.scans (softStale pol (droppedBy db env t out))) := by
    rw [← softTrace_last]
    exact requests _ (getLastD_mem_cons)
  simp only [composeTrace, stages.upserted_eq, done]
  intro s listed
  rcases mem_cons.mp listed with rfl | listed
  · exact requests _ (.head _)
  rcases mem_append.mp listed with early | late
  · exact requests s (.tail _ early)
  · simp only [mem_cons, not_mem_nil, or_false] at late
    rcases late with rfl | rfl | rfl
    · exact grace soft
    · exact delete (grace soft)
    · exact rest (delete (grace soft))

theorem ComposeStages.named_upserted (named : Named db) : Named upserted :=
  Steps.keeps (fun _ effect => effect.named) stages.before named

theorem ComposeStages.grace_effects :
    Effects Label.Sweeps upserted (gracedBy upserted env.scans pol (droppedBy db env t out)) :=
  (softDelete_effects _ _ _).trans ((markChildrenOrphaned_effects _ _ _).mono fun _ => Label.Calm.sweeps)

theorem ComposeStages.dropped_ne (named : Named db) (here : r ∈ upserted.resources)
    (emits : Emits t out r) (dropped : e ∈ droppedBy db env t out) : e.id ≠ r.id := by
  intro same
  obtain ⟨hereE, -, unlisted⟩ := mem_droppedBy.mp dropped
  obtain ⟨c, listed, ref⟩ := emits.listed
  obtain ⟨r₀, here₀, same₀, row⟩ := Effects.tracks respects_sameRow stages.before here (same ▸ named e hereE)
  obtain rfl := eq_of_pk resource_primary here₀ hereE (same₀.trans same.symm)
  refine unlisted c listed ?_
  rw [ref, Resource.ref, Resource.ref, row.kind, row.name]

theorem ComposeStages.emitted_stays (named : Named db) (lineage : Lineage db own)
    (here : r ∈ upserted.resources) (emits : Emits t out r) :
    r.id ∉ cascaded (gracedBy upserted env.scans pol (droppedBy db env t out))
      (hardStale pol (droppedBy db env t out)) := by
  have namedU := stages.named_upserted named
  obtain ⟨mid, before, agree⟩ := stages.upsert_effects.lineage (fun h => h rfl) named lineage
  obtain ⟨own', after, agree'⟩ := stages.grace_effects.lineage (fun h => h) namedU before
  refine after.sibling_stays (p := t.resourceId) ?_ fun s named_ => ?_
  · rw [agree' _ (namedU r here), ← before.rows r here]
    exact emits.owned
  · obtain ⟨e, stale, rfl⟩ := mem_map.mp named_
    have dropped := (mem_filter.mp stale).1
    obtain ⟨hereE, owned, -⟩ := mem_droppedBy.mp dropped
    have drawn := named e hereE
    refine ⟨?_, stages.dropped_ne named here emits dropped⟩
    rw [agree' _ (drawn.mono stages.upsert_effects.drawn_le), agree _ drawn, ← lineage.rows e hereE, owned]

/-- A row that no requested deletion spreads to, and no DELETE takes along, lives. -/
theorem ComposeStages.spared_lives (named : Named db) {id : Uuid} (live : Live upserted id)
    (apart : ∀ e ∈ softStale pol (droppedBy db env t out), ¬ Relation.ReflTransGen (Spreads upserted) e.id id)
    (stays : id ∉ cascaded (gracedBy upserted env.scans pol (droppedBy db env t out))
      (hardStale pol (droppedBy db env t out)))
    (wrote : Effects Label.Wrote wired db') (done : applyComposeResult db env t out pol = some db') :
    ∀ s ∈ composeTrace db env t out pol, Live s id := by
  have namedU := stages.named_upserted named
  have soft := softDelete_effects upserted env.scans (softStale pol (droppedBy db env t out))
  have namedSoft := Steps.keeps (fun _ effect => effect.named) soft namedU
  have namedGrace := Steps.keeps (fun _ effect => effect.named) stages.grace_effects namedU
  refine stages.throughout done (softTrace_live live apart) (fun live => ?_)
    (fun live => live_deleteResources.mpr ⟨live, stays⟩) fun live => ?_
  · refine Effects.mild_live ?_ namedSoft live
    exact (markChildrenOrphaned_effects _ _ _).mono fun _ => Label.Calm.mild
  · refine (stages.mild_after wrote).mild_live ?_ live
    exact Steps.keeps (fun _ effect => effect.named) (delete_effects _ _) namedGrace

theorem ComposeStages.live_throughout (named : Named db) (lineage : Lineage db own)
    (here : r ∈ upserted.resources) (emits : Emits t out r) (unmarked : r.marked = false)
    (apart : ∀ e ∈ softStale pol (droppedBy db env t out), ¬ Relation.ReflTransGen (Spreads upserted) e.id r.id)
    (wrote : Effects Label.Wrote wired db') (done : applyComposeResult db env t out pol = some db') :
    ∀ s ∈ composeTrace db env t out pol, Live s r.id :=
  stages.spared_lives named ((live_of_mem here).mpr unmarked) apart
    (stages.emitted_stays named lineage here emits) wrote done

theorem ComposeStages.dead_after (named : Named db) (here : r ∈ upserted.resources)
    (wrote : Effects Label.Wrote wired db')
    (dead : ¬ Live (softDelete upserted env.scans (softStale pol (droppedBy db env t out))) r.id) :
    ¬ Live db' r.id := by
  have namedU := stages.named_upserted named
  have soft := softDelete_effects upserted env.scans (softStale pol (droppedBy db env t out))
  have drawn := (namedU r here).mono soft.drawn_le
  have prune : Effects Label.Plain _ (pruneChildren upserted env.scans pol (droppedBy db env t out)) :=
    ((markChildrenOrphaned_effects _ _ _).mono fun _ => Label.Calm.plain).trans
      ((delete_effects _ _).mono fun _ => Label.Sweeps.plain)
  have rest := stages.after (fun _ => Label.Wrote.plain) trivial wrote
  exact fun live => dead (Effects.live_back (prune.trans rest) drawn live)

theorem ComposeStages.inserted_apart (named : Named db) (lineage : Lineage db own)
    (here : r ∈ upserted.resources) (emits : Emits t out r) (new : ¬ Stored db r.id)
    (dropped : e ∈ droppedBy db env t out) : ¬ Relation.ReflTransGen (Spreads upserted) e.id r.id := by
  intro path
  obtain ⟨hereE, owned, -⟩ := mem_droppedBy.mp dropped
  obtain ⟨mid, before, agree⟩ := stages.upsert_effects.lineage (fun h => h rfl) named lineage
  rcases Relation.ReflTransGen.cases_tail path with same | ⟨x, above, owns | ⟨d, listed, -, ends⟩⟩
  · exact new ⟨e, hereE, same.symm⟩
  · -- its owner is the parent, which a mark of a child never reaches
    have child := before.owns owns
    rw [← before.rows r here, emits.owned] at child
    obtain rfl := Option.some.inj child
    refine before.never_climbs ?_ above
    rw [agree _ (named e hereE), ← lineage.rows e hereE, owned]
  · -- no edge names an id that was not drawn yet
    rw [batchUpsertChildren_deps stages.upsert] at listed
    obtain ⟨p, dependent, -⟩ := lineage.edges d listed
    have drawn := lineage.drawn _ _ dependent
    rw [ends] at drawn
    obtain ⟨r₀, here₀, same, -⟩ := Effects.tracks respects_true stages.before here drawn
    exact new ⟨r₀, here₀, same⟩

theorem ComposeStages.inserted_unmarked (here : r ∈ upserted.resources) (new : ¬ Stored db r.id) :
    r.marked = false := by
  have respects : Respects Label.Mild fun a b : Resource =>
      (Stored db a.id ∨ a.marked = false) → Stored db b.id ∨ b.marked = false :=
    { refl := fun _ h => h
      trans := fun first second h => second (first h)
      quiet := fun q h => by rwa [q.id, Resource.marked, q.deletionRequestedAt]
      row := fun {k _ _ _} ok _ step h => by
        have node := step.node (by cases k <;> first | exact trivial | exact ok.elim)
        rwa [node.id, node.marked] }
  have fresh {s : Db} {r : Resource} (born : Born s r) : Stored db r.id ∨ r.marked = false := by
    rw [Resource.marked, born.deletionRequestedAt]
    exact .inr rfl
  have kept := Steps.keeps
    (fun ok effect => effect.rows_keep respects fresh ok) stages.before (fun r h => .inl ⟨r, h, rfl⟩)
  exact (kept r here).resolve_left new

theorem ComposeStages.inserted_live (named : Named db) (lineage : Lineage db own)
    (here : r ∈ upserted.resources) (emits : Emits t out r) (new : ¬ Stored db r.id)
    (wrote : Effects Label.Wrote wired db') (done : applyComposeResult db env t out pol = some db') :
    ∀ s ∈ composeTrace db env t out pol, Live s r.id := by
  refine stages.live_throughout named lineage here emits (stages.inserted_unmarked here new)
    (fun e soft => ?_) wrote done
  exact stages.inserted_apart named lineage here emits new (mem_filter.mp soft).1

theorem ComposeStages.last_mem (done : applyComposeResult db env t out pol = some db') :
    db' ∈ composeTrace db env t out pol := by
  simp only [composeTrace, stages.upserted_eq, done]
  exact .tail _ (mem_append_right _ (by simp))

theorem ComposeStages.draining_throughout {id : Uuid} (draining : Draining upserted id)
    (stays : Draining (gracedBy upserted env.scans pol (droppedBy db env t out)) id →
      id ∉ cascaded (gracedBy upserted env.scans pol (droppedBy db env t out))
        (hardStale pol (droppedBy db env t out)))
    (wrote : Effects Label.Wrote wired db') (done : applyComposeResult db env t out pol = some db') :
    ∀ s ∈ composeTrace db env t out pol, Draining s id := by
  have requests := (softTrace_chain env.scans (softStale pol (droppedBy db env t out))
    upserted).induction (fun s => Draining s id) _ (fun _ _ step => step.draining)
    (fun _ => draining)
  refine stages.throughout done requests (fun draining => ?_) (fun draining => ?_) fun draining => ?_
  · exact Effects.draining (markChildrenOrphaned_effects _ _ _) (fun h => h) (fun _ h => h)
      draining
  · exact draining.delete (stays draining)
  · have after : Effects Label.Wires _ db' := stages.after (fun _ => Or.inl) (.inr rfl) wrote
    refine Effects.draining after ?_ (fun rs => ?_) draining
    · exact fun ok => ok.elim (fun wrote => wrote) nofun
    · exact fun ok => ok.elim (fun wrote => wrote) nofun

end Stages

/-- **What a compose leaves of the children it emits.**  Take any compose that commits in
a reachable state, and any child it emits, in the state with the emitted children in
place.

* Unmarked there, the child stays stored and unmarked through every statement if no path
  of owners and old edges leads to it from a child whose deletion is requested.
* If such a path leads through unmarked rows, the child is marked or gone at the end.
* A child the compose inserted stays stored and unmarked.
* A child that was marked before stays stored while it has a finalizer to run. -/
theorem compose_keeps_emitted (reachable : Reachable db) (claimed : t ∈ db.tasks ∧ t.taskType = .reconcile)
    (done : applyComposeResult db env t out pol = some db') :
    ∀ upserted ∈ upsertedBy db env t out, ∀ r ∈ upserted.resources, Emits t out r →
      (r.marked = false → (∀ e ∈ softStale pol (droppedBy db env t out),
          ¬ Relation.ReflTransGen (Spreads upserted) e.id r.id) →
        ∀ s ∈ composeTrace db env t out pol, Live s r.id) ∧
      (∀ e ∈ softStale pol (droppedBy db env t out),
        Relation.ReflTransGen (Drags upserted) e.id r.id → ¬ Live db' r.id) ∧
      (¬ Stored db r.id → ∀ s ∈ composeTrace db env t out pol, Live s r.id) ∧
      (r.marked = true → r.finalizers.isEmpty = false →
        ∀ s ∈ composeTrace db env t out pol, Stored s r.id) := by
  obtain ⟨parent, upserted, produced, wired, stages, wrote⟩ := applyComposeResult_parts claimed.1 done
  obtain ⟨own, lineage⟩ := reachable.lineage
  have named := reachable.named
  rintro _ found r here emits
  obtain rfl := Option.some.inj (stages.upserted_eq.symm.trans found)
  refine ⟨fun unmarked apart => ?_, fun e soft path => ?_, fun new => ?_, fun marked open_ s listed => ?_⟩
  · exact stages.live_throughout named lineage here emits unmarked apart wrote done
  · exact stages.dead_after named here wrote (softDelete_drags soft path)
  · exact stages.inserted_live named lineage here emits new wrote done
  · obtain ⟨r', after, same, -⟩ := stages.draining_throughout ⟨r, here, rfl, marked, open_⟩
      (fun _ => stages.emitted_stays named lineage here emits) wrote done s listed
    exact ⟨r', after, same⟩

end Compose

/-- Dropping the machine requests its deletion; the network it depended on is still
emitted and stays. -/
theorem compose_keeps_emitted_network : letI := counting
    let db := run Db.empty (rebuilt networkTree)
    let env : ComposeEnv := ⟨id, id, fun _ _ => Scan.plain⟩
    let pol : ComposePolicy := ⟨fun kind _ => noGrace kind, fun kind _ => leafFinalizer kind⟩
    let out : ComposeOutput := ⟨[child "net" "n"], [], []⟩
    ∃ t ∈ db.tasks, ∃ db', applyComposeResult db env t out pol = some db' ∧
      (∃ v ∈ db'.resources.rows, v.id = 3 ∧ v.marked = true) ∧
      ∀ s ∈ composeTrace db env t out pol, Live s 2 := by
  let _ := counting
  intro db env pol out
  have reachable : Reachable db := ⟨_, rfl⟩
  have facts : ∃ t ∈ db.tasks, t.taskType = .reconcile ∧ ((applyComposeResult db env t out pol).any fun db' =>
        db'.resources.rows.any fun v => v.id = 3 && v.marked) = true ∧
      ((upsertedBy db env t out).any fun upserted =>
        upserted.resources.rows.any fun r => r.id = 2 && !r.marked
          && r.ownerId = some t.resourceId && (child "net" "n").ref = r.ref
          && (softStale pol (droppedBy db env t out)).all fun e => r.id ∉ markTree upserted e.id)
        = true := by
    decide +kernel
  obtain ⟨t, claimed, type, committed, kept⟩ := facts
  rw [Option.any_eq_true] at committed kept
  obtain ⟨db', done, torn⟩ := committed
  obtain ⟨upserted, found, some_⟩ := kept
  obtain ⟨v, hereV, torn⟩ := any_eq_true.mp torn
  obtain ⟨r, here, facts⟩ := any_eq_true.mp some_
  simp only [Bool.and_eq_true, decide_eq_true_eq, Bool.not_eq_true', all_eq_true] at torn facts
  obtain ⟨⟨⟨⟨same, unmarked⟩, owned⟩, ref⟩, apart⟩ := facts
  refine ⟨t, claimed, db', done, ⟨v, hereV, torn⟩, ?_⟩
  obtain ⟨stays, -⟩ := compose_keeps_emitted reachable ⟨claimed, type⟩ done upserted found r here
    ⟨owned, _, mem_singleton_self _, ref⟩
  rw [← same]
  exact stays unmarked fun e soft path => apart e soft (mem_markTree.mpr path)

/-- A root with a network and a mount that depends on it; only the network has a
finalizer. -/
def mountTree : List Action :=
  composing "app" noGrace leafFinalizer
    ⟨[child "net" "n", child "mount" "m"], [⟨⟨"mount", "m"⟩, ⟨"net", "n"⟩, []⟩], []⟩
    [seedKind "net" (some "net/destroy"), applyRoot "app" "a", claimAll "b" "app" .reconcile]

/-- A composer drops the network and goes on emitting what depended on it.  The machine
is marked with the network; the mount, which has no finalizer, is gone when the compose
commits. -/
theorem compose_loses_emitted : letI := counting
    (let db := run Db.empty (rebuilt networkTree)
      let after := run Db.empty
        (composing "app" noGrace leafFinalizer ⟨[child "vm" "v"], [], []⟩ (rebuilt networkTree))
      ∃ v ∈ db.resources.rows, v.ref = (child "vm" "v").ref ∧ v.marked = false ∧
        ∃ v' ∈ after.resources.rows, v'.id = v.id ∧ v'.marked = true) ∧
    (let db := run Db.empty (rebuilt mountTree)
      let after := run Db.empty
        (composing "app" noGrace leafFinalizer ⟨[child "mount" "m"], [], []⟩ (rebuilt mountTree))
      ∃ m ∈ db.resources.rows, m.ref = (child "mount" "m").ref ∧ m.marked = false ∧
        ∀ r ∈ after.resources.rows, r.ref ≠ m.ref) := by
  decide +kernel

end Converge.Kernel
