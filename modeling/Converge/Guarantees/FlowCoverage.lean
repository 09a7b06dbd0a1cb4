/-
# Guarantees.FlowCoverage -- what has flowed into a dependent when it is scheduled

Values flow in two passes.  A drain writes what a result *changed* into the dependents,
before it records the result; a compose writes what *synced* upstreams have into the
dependents it emits.  Both skip frozen rows.  Nothing else looks at flows:
`schedule_eligible` takes the specs as they are.

`Covered` is the invariant behind "a scheduled dependent has its values": it holds for
every row that is neither frozen nor marked, eligible or not.  Both passes keep it
(`compose_covered`, `drain_covered`) where the targets of the flows are fields that
`jsonb_set` can create and no two overlap (`Shaped`).  Three kinds of step bring in an edge
that neither pass looks at, and there the values must be in place before by luck
(`Watched`): a command that thaws a dependent or replaces its spec (`Action.brings`), and a
drain that syncs an upstream with the status it already had (`resyncs`).  `flows_missed`
has a run for each.
-/
import Converge.Guarantees.RecomposeChurn

namespace Converge.Kernel

open Converge.Theory List Table Option

set_option autoImplicit false
set_option linter.unusedSectionVars false

variable {s : Db} {p : FlowPatch} {status : Json} {ids : List Uuid} {order : Nat → Nat}
    {r r' u u' : Resource} {d : ResourceDep}

/-! ## The invariant and its conditions -/

/-- What the upstreams of `r` have to give is in its spec. -/
def InPlace (db : Db) (r : Resource) : Prop :=
  ∀ d ∈ db.deps.rows, d.dependentId = r.id → ∀ u ∈ db.resources.rows, u.id = d.dependencyId →
    flowsInPlace d.valueFlows u r = true
deriving Decidable

/-- Every row that is neither frozen nor marked has its values. -/
def Covered (db : Db) : Prop := ∀ r ∈ db.resources, r.active = true → InPlace db r

/-- The flows of `edges` into `r` have targets whose objects are there, and no two of them
overlap. -/
def Shaped (edges : List ResourceDep) (r : Resource) : Prop :=
  ∀ d ∈ edges, d.dependentId = r.id → ∀ f ∈ d.valueFlows, r.spec.opens (pointerToPath f.depField) = true ∧
      ∀ e ∈ edges, e.dependentId = r.id → ∀ g ∈ e.valueFlows,
        (e = d ∧ g = f) ∨ Json.apart (pointerToPath g.depField) (pointerToPath f.depField) = true
deriving Decidable

/-- Every active row is. -/
def WellShaped (db : Db) : Prop :=
  ∀ r ∈ db.resources.rows, r.active = true → Shaped db.deps.rows r
deriving Decidable

/-- The result syncs `u`, which lags, and leaves the status it has. -/
def resyncs (o : OutboxRow) (u : Resource) : Bool :=
  o.taskType = .reconcile && o.resourceId = u.id && o.succeeded && o.advanceSyncedGen
    && u.syncedGen < u.generation && u.generation ≤ o.observedGeneration
    && (o.payload.isNone || o.payload = u.status)

/-- No two results are reconciles of one row. -/
def Single (results : List OutboxRow) : Prop :=
  ∀ o ∈ results, ∀ o' ∈ results, o.taskType = .reconcile → o'.taskType = .reconcile →
    o.resourceId = o'.resourceId → o = o'
deriving Decidable

section Steps

variable [Postgres]

def Action.drains (db : Db) : Action → List OutboxRow
  | .drainOutboxBatch scan _ _ n range => popped db scan n range
  | _ => []

/-- The spec with which the command brings `r` back, or the other one it gives it: no flow
pass looks at either. -/
def Action.brings (db : Db) (r : Resource) : Action → Option Json
  | .applySpec args =>
    if r.active && r.ref = ⟨args.kind, args.name⟩ && r.spec ≠ args.spec && (Kernel.applySpec db args).isSome then
      some args.spec
    else none
  | .flipResourceKindVersion id old new spec =>
    if flippable id old r && r.spec ≠ spec && new ≠ 0 then some spec else none
  | .rollbackToSpec id gen =>
    if r.active && r.id = id then
      ((db.specVersions.lookup (fun v => (v.resourceId, v.generation)) (id, gen)).map (·.spec)).filter (· ≠ r.spec)
    else none
  | .unquarantineResource id =>
    if r.id = id && r.frozenUntil = some .infinity && !r.marked then some r.spec else none
  | _ => none

/-- The step leaves the flows in shape and drains one result of a row at a time, and what no
pass looks at is in place before it: what flows into a row that a command brings, and out of
a row that a drain syncs again. -/
@[mk_iff]
structure Watched (db : Db) (a : Action) : Prop where
  shaped : WellShaped (step db a)
  single : Single (a.drains db)
  brought : ∀ r ∈ db.resources.rows, ∀ spec ∈ a.brings db r, InPlace db { r with spec := spec }
  resynced : ∀ o ∈ a.drains db, ∀ u ∈ db.resources.rows, resyncs o u = true →
    ∀ r ∈ db.resources.rows, r.active = true → ∀ d ∈ db.deps.rows, d.dependentId = r.id → u.id = d.dependencyId →
      flowsInPlace d.valueFlows { u with syncedGen := u.generation } r = true

instance (db : Db) (a : Action) : Decidable (Watched db a) := decidable_of_iff' _ (watched_iff db a)

variable {db db' : Db}

/-! ## One flow -/

theorem flowPatch_path {id : Uuid} {flow : ValueFlow}
    (yields : flowPatch id status flow = some p) : p.patch.path = pointerToPath flow.depField := by
  obtain ⟨v, -, rfl⟩ := map_eq_some_iff.mp yields
  rfl

/-- What is in place stays so, for an upstream that gives no more and a spec unchanged. -/
theorem flowsInPlace.of_rows {flows : List ValueFlow} (in_place : flowsInPlace flows u r = true)
    (upstream : u'.generation ≤ u'.syncedGen → u.generation ≤ u.syncedGen ∧ u'.status = u.status)
    (id : r'.id = r.id) (spec : r'.spec = r.spec) : flowsInPlace flows u' r' = true := by
  rw [flowsInPlace_iff] at in_place ⊢
  intro synced status held flow listed p yields
  obtain ⟨synced, same⟩ := upstream synced
  rw [same] at held
  rw [id] at yields
  rw [spec]
  exact in_place synced status held flow listed p yields

/-- A pass over `candidates` puts a flow in place, if it is in shape, is one of the
candidates or was in place, and no candidate gives its edge another value. -/
theorem pass_in_place {candidates : List FlowPatch}
    {edges : List ResourceDep} {flow : ValueFlow}
    (patched : Patched (shuffle order (candidates.filter (·.applicable s))) r r')
    (here : r ∈ s.resources) (active : r.active = true)
    (shaped : Shaped edges r ∨ Shaped edges r') (edge : d ∈ edges) (into : d.dependentId = r.id)
    (listed : flow ∈ d.valueFlows) (yields : flowPatch r.id status flow = some p)
    (from_ : ∀ q ∈ candidates, q.dependentId = r.id → ∃ e ∈ edges, e.dependentId = r.id ∧
      ∃ g ∈ e.valueFlows, ∃ given, flowPatch r.id given g = some q ∧ (e = d → given = status))
    (there : p ∈ candidates ∨ r.spec.get? p.patch.path = some p.patch.value) :
    r'.spec.get? p.patch.path = some p.patch.value := by
  have thawed : r.frozen = false := by
    rw [Resource.active, Bool.and_eq_true, Bool.not_eq_true'] at active
    exact active.1
  have shape : r.spec.opens p.patch.path = true ∧ ∀ q ∈ candidates, q.dependentId = r.id →
        q.patch = p.patch ∨ Json.apart q.patch.path p.patch.path = true := by
    have near {x : Resource} (same : x.id = r.id) (shaped : Shaped edges x) :
        x.spec.opens p.patch.path = true ∧ ∀ q ∈ candidates, q.dependentId = r.id →
          q.patch = p.patch ∨ Json.apart q.patch.path p.patch.path = true := by
      obtain ⟨open_, others⟩ := shaped d edge (into.trans same.symm) flow listed
      rw [flowPatch_path yields]
      refine ⟨open_, fun q candidate of_ => ?_⟩
      obtain ⟨e, edge', into', g, listed', given, yields', same'⟩ := from_ q candidate of_
      rw [flowPatch_path yields']
      rcases others e edge' (into'.trans same.symm) g listed' with ⟨rfl, rfl⟩ | away
      · -- the same flow of the same edge
        rw [same' rfl, yields] at yields'
        exact .inl (by rw [some.inj yields'])
      · exact .inr away
    rcases shaped with before | after
    · exact near rfl before
    · obtain ⟨open_, others⟩ := near patched.id after
      refine ⟨?_, others⟩
      rw [← patched.opens fun q batch of_ => ?_]
      · exact open_
      · have candidate := (mem_filter.mp (mem_shuffle.mp batch)).1
        exact (others q candidate of_).imp (fun same => by rw [same]) id
  exact patched.in_place here thawed (flowPatch_dependent yields) shape.1 shape.2 there

/-! ## The pass over synced upstreams -/

/-- **The compose-side pass.**  It leaves an active row in place for the edges it looks at,
and for the others if the row was. -/
theorem applyValueFlows_in_place {s' : Db} (done : applyValueFlowsForDependents s order ids = some s')
    (afterR : r' ∈ s'.resources) (afterU : u' ∈ s'.resources) (edge : d ∈ s.deps)
    (into : d.dependentId = r'.id) (of_ : u'.id = d.dependencyId) (active : r'.active = true)
    (shaped : Shaped s.deps.rows r') :
    ∃ r ∈ s.resources, r.id = r'.id ∧ r.active = true ∧ ∃ u ∈ s.resources, u.id = u'.id ∧
      (d.dependentId ∈ ids ∨ flowsInPlace d.valueFlows u r = true →
        flowsInPlace d.valueFlows u' r' = true) := by
  rw [applyValueFlows_eq] at done
  obtain ⟨r, here, patched⟩ := patchSpecs_row done afterR
  obtain ⟨u, there, patchedU⟩ := patchSpecs_row done afterU
  have active : r.active = true := patched.active ▸ active
  refine ⟨r, here, patched.id.symm, active, u, there, patchedU.id.symm, fun looked => ?_⟩
  rw [flowsInPlace_iff]
  intro synced status held flow listed p yields
  have synced : u.generation ≤ u.syncedGen := by
    have grows := patchedU.generation
    rw [patchedU.syncedGen] at synced
    omega
  rw [patchedU.status] at held
  rw [patchedU.id] at of_
  rw [patched.id] at yields into
  refine pass_in_place patched here active (.inr shaped) edge into listed yields ?_ ?_
  · intro q candidate of_q
    obtain ⟨e, edge', -, v, thereV, of_v, -, given, held', g, listed', yields'⟩ :=
      mem_flowCandidates.mp candidate
    have into' : e.dependentId = r.id := (flowPatch_dependent yields').symm.trans of_q
    refine ⟨e, edge', into', g, listed', given, into' ▸ yields', ?_⟩
    rintro rfl
    rw [eq_of_pk resource_primary thereV there (of_v.trans of_.symm), held] at held'
    exact (some.inj held').symm
  · rcases looked with looked | before
    · refine .inl (mem_flowCandidates.mpr ⟨d, edge, looked, u, there, of_, synced, status, held,
        flow, listed, ?_⟩)
      rw [into]
      exact yields
    · exact .inr (flowsInPlace_iff.mp before synced status held flow listed p yields)

theorem applyValueFlows_covered (done : applyValueFlowsForDependents db order ids = some db')
    (shaped : WellShaped db') (covered : Covered db) : Covered db' := by
  intro r' afterR active d edge into u' afterU of_
  have edges : db'.deps = db.deps := patchSpecs_deps done
  have shape := shaped r' afterR active
  rw [edges] at edge shape
  obtain ⟨r, here, same, active, u, there, same', pass⟩ :=
    applyValueFlows_in_place done afterR afterU edge into of_ active shape
  exact pass (.inr (covered r here active d edge (into.trans same.symm) u there (same'.trans of_)))

/-! ## Compose -/

section Compose

variable {env : ComposeEnv} {t : WorkTask} {out : ComposeOutput} {pol : ComposePolicy}
  {parent : Resource} {upserted wired : Db} {produced : List ResourceDep}
  (stages : ComposeStages db env t out pol parent upserted produced wired)

include stages

theorem ComposeStages.upserted_from (after : r' ∈ upserted.resources) :
    r'.ownerId = some parent.id ∨ ∃ r ∈ db.resources, Fades r r' := by
  obtain ⟨inserted, insert, rfl⟩ := map_eq_some_iff.mp stages.upsert
  unfold updateChildren at after
  simp only [mem_updateWhere] at after
  obtain ⟨mid, between, labelled⟩ := after
  obtain ⟨r, here, wrote⟩ := mem_updateResources.mp between
  have sameOwner : r'.ownerId = r.ownerId := by
    have written : mid.ownerId = r.ownerId := by
      rw [← wrote]
      split
      · cases declFor (changedChildren _ out) r <;> rfl
      · rfl
    rw [← written, ← labelled]
    split <;> rfl
  cases declared : declFor (changedChildren (shuffle env.childOrder (existingChildren db parent.id)) out) r with
  | some c =>
    obtain ⟨e, there, owned, same⟩ := declFor_listed declared
    left
    rw [sameOwner, ← eq_of_pk resource_primary (insertChildren_keeps insert there) here same]
    exact owned
  | none =>
    have unwritten : mid = r := by
      rw [← wrote]
      simp [declared]
    have unlabelled : r' = r := by
      rw [← labelled, if_neg, unwritten]
      rw [unwritten, declared]
      exact Bool.false_ne_true
    subst unlabelled
    rcases insertChildren_mem insert here with old | ⟨_, _, row⟩
    · exact .inr ⟨r', old, refl_of Fades r'⟩
    · exact .inl row.ownerId

theorem ComposeStages.upserted_child {e : Resource} (listed : e ∈ db.resources)
    (owned : e.ownerId = some parent.id) (after : r' ∈ upserted.resources) (same : r'.id = e.id) :
    r'.ownerId = some parent.id := by
  rcases stages.upserted_from after with child | ⟨r, here, row⟩
  · exact child
  · rw [row.ownerId, eq_of_pk resource_primary here listed (row.id.symm.trans same)]
    exact owned

theorem ComposeStages.stranger (after : r' ∈ wired.resources)
    (other : r'.ownerId ≠ some parent.id) : ∃ r ∈ db.resources, Fades r r' := by
  rw [applyEdges_resources stages.wire, composeChildren] at after
  obtain ⟨m, between, content, readopted⟩ := clearOrphanMarks_row after
  obtain ⟨x, there, pruned⟩ := pruneChildren_follows _ _ _ _ m between
  have owner : r'.ownerId = x.ownerId := content.ownerId.trans pruned.ownerId
  rcases readopted with rfl | ⟨e, listed, same⟩
  · rcases stages.upserted_from there with child | ⟨r, here, row⟩
    · exact absurd (owner.trans child) other
    · exact ⟨r, here, trans_of Fades row pruned⟩
  · -- only listed children are brought back
    obtain ⟨here, owned⟩ := mem_filter.mp (mem_shuffle.mp listed)
    refine absurd (owner.trans ?_) other
    exact stages.upserted_child here (of_decide_eq_true owned) there (pruned.id.symm.trans same.symm)

/-- The flows into a child are flows of emitted edges. -/
theorem ComposeStages.child_flows (here : r ∈ wired.resources)
    (owned : r.ownerId = some parent.id) (edge : d ∈ wired.deps) (into : d.dependentId = r.id)
    (some_ : d.valueFlows ≠ []) : d.dependentId ∈ flowingDependents produced := by
  rw [applyEdges_resources stages.wire] at here
  have child : depsByOwner (composeChildren upserted env pol
      (shuffle env.childOrder (existingChildren db parent.id)) out) parent.id d = true := by
    rw [depsByOwner, Db.resource?, into, lookup_of_mem resource_primary here]
    exact decide_eq_true owned
  obtain ⟨p, listed, ends, flows⟩ := applyEdges_flows stages.wire edge child
  refine mem_dedup.mpr (mem_map.mpr ⟨p, mem_filter.mpr ⟨listed, ?_⟩, (ends_eq ends).1⟩)
  rw [flows]
  simpa using some_

theorem ComposeStages.stranger_edge (here : r ∈ wired.resources) (other : r.ownerId ≠ some parent.id)
    (edge : d ∈ wired.deps) (into : d.dependentId = r.id) : ∃ e ∈ db.deps, SameEnds d e := by
  rcases applyEdges_mem stages.wire edge with ⟨p, listed, ends, -⟩ | ⟨kept, -⟩
  · obtain ⟨⟨x, there, same, owned⟩, -⟩ := stages.ends listed
    rw [applyEdges_resources stages.wire] at here
    obtain ⟨m, between, row⟩ := composeChildren_follows _ _ _ _ _ r here
    have ids : x.id = m.id := by
      rw [same, (ends_eq ends).1, into, row.id]
    rw [row.ownerId, ← eq_of_pk resource_primary there between ids] at other
    exact absurd owned other
  · have before := stages.upsert_effects.edges (fun h => h rfl)
    obtain ⟨e, stored, same⟩ := stages.prune_effects.edges (fun h => h) d kept
    obtain ⟨e', stored', same'⟩ := before e stored
    exact ⟨e', stored', same.trans same'⟩

omit stages in
/-- **A compose leaves its children in place**, whichever edges it emits, and the rest
alone. -/
theorem compose_covered (reachable : Reachable db) (claimed : t ∈ db.tasks)
    (done : applyComposeResult db env t out pol = some db') (shaped : WellShaped db')
    (covered : Covered db) : Covered db' := by
  intro r' afterR active d edge into u' afterU of_
  obtain ⟨parent, upserted, produced, wired, flowed, stages, flow, ⟨follows, edges⟩, -⟩ :=
    applyComposeResult_flows claimed done
  have sameEdges : db'.deps = wired.deps := edges.trans (patchSpecs_deps flow)
  have shape := shaped r' afterR active
  rw [sameEdges] at edge shape
  obtain ⟨rf, middleR, rowR⟩ := follows r' afterR
  obtain ⟨uf, middleU, rowU⟩ := follows u' afterU
  have shape : Shaped wired.deps.rows rf := by
    unfold Shaped at shape ⊢
    rw [← rowR.id, ← rowR.spec]
    exact shape
  obtain ⟨r, here, same, active, u, there, same', pass⟩ :=
    applyValueFlows_in_place flow middleR middleU edge (into.trans rowR.id) (rowU.id.symm.trans of_)
      (rowR.active active) shape
  have into : d.dependentId = r.id := into.trans (rowR.id.trans same.symm)
  have of_ : u.id = d.dependencyId := same'.trans (rowU.id.symm.trans of_)
  have placed : flowsInPlace d.valueFlows uf rf = true := by
    apply pass
    by_cases child : r.ownerId = some parent.id
    · by_cases none : d.valueFlows = []
      · right
        simp [flowsInPlace, none]
      · exact .inl (stages.child_flows here child edge into none)
    · -- neither end of the edge is a child, so the compose did not touch it
      right
      obtain ⟨own, lineage⟩ := reachable.lineage
      obtain ⟨own', ⟨-, wiredLineage⟩, -, -⟩ := stages.lineage reachable.named lineage
      obtain ⟨p, dependent, dependency⟩ := wiredLineage.edges d edge
      have siblings : u.ownerId = r.ownerId := by
        rw [wiredLineage.rows u there, wiredLineage.rows r here, of_, ← into, dependency, dependent]
      obtain ⟨r₀, here₀, fadesR⟩ := stages.stranger here child
      obtain ⟨u₀, there₀, fadesU⟩ := stages.stranger there (siblings ▸ child)
      obtain ⟨e, stored, ends⟩ := stages.stranger_edge here child edge into
      have before := covered r₀ here₀ (fadesR.active active) e stored
        (by rw [← ends.dependentId, into, fadesR.id]) u₀ there₀
        (by rw [← ends.dependencyId, ← of_, fadesU.id])
      rw [ends.valueFlows]
      refine flowsInPlace.of_rows before (fun synced => ⟨?_, fadesU.status⟩) fadesR.id fadesR.spec
      rw [fadesU.generation, fadesU.syncedGen] at synced
      exact synced
  refine flowsInPlace.of_rows placed (fun synced => ⟨?_, rowU.status⟩) rowR.id rowR.spec
  rw [rowU.generation, rowU.syncedGen] at synced
  exact synced

end Compose

/-! ## Drain -/

section Drain

variable {results : List OutboxRow}

/-- What the changed statuses of a batch yield. -/
def substitutions (db : Db) (results : List OutboxRow) : List FlowPatch :=
  (flowSources db results).flatMap fun src =>
    (db.deps.rows.filter fun d => d.dependencyId = src.1).flatMap fun d =>
      d.valueFlows.filterMap (flowPatch d.dependentId src.2)

theorem mem_substitutions : p ∈ substitutions db results ↔ ∃ src ∈ flowSources db results, ∃ d ∈ db.deps,
      d.dependencyId = src.1 ∧ ∃ flow ∈ d.valueFlows, flowPatch d.dependentId src.2 flow = some p := by
  simp only [substitutions, mem_flatMap, mem_filter, mem_filterMap, decide_eq_true_eq, mem_rows, and_assoc]

/-- A source is a successful reconcile whose status some edge reads and the row lacks. -/
theorem mem_flowSources {id : Uuid} :
    (id, status) ∈ flowSources db results ↔ ∃ o ∈ results, o.taskType = .reconcile ∧
      o.succeeded = true ∧ o.resourceId = id ∧ o.payload = some status ∧
      (∃ u ∈ db.resources, u.id = id ∧ u.status ≠ some status) ∧
      ∃ d ∈ db.deps, d.dependencyId = id ∧ d.valueFlows ≠ [] := by
  have picked (o : OutboxRow) (payload : Json) : (decide (o.taskType = .reconcile) && o.succeeded
      && ((db.resource? o.resourceId).any fun r => r.status ≠ some payload)
      && (db.deps.rows.any fun d => d.dependencyId = o.resourceId && !d.valueFlows.isEmpty)) = true ↔
      (o.taskType = .reconcile ∧ o.succeeded = true) ∧
        (∃ u ∈ db.resources, u.id = o.resourceId ∧ u.status ≠ some payload) ∧
        ∃ d ∈ db.deps, d.dependencyId = o.resourceId ∧ d.valueFlows ≠ [] := by
    simp only [Bool.and_eq_true, decide_eq_true_eq, Option.any_eq_true, List.any_eq_true,
      Bool.not_eq_true', List.isEmpty_eq_false_iff, Db.resource?, Table.lookup_eq_some resource_primary,
      mem_rows, and_assoc]
  rw [flowSources, mem_dedup, mem_filterMap]
  constructor
  · rintro ⟨o, listed, made⟩
    obtain ⟨payload, held, made⟩ := bind_eq_some_iff.mp made
    split at made
    · rename_i facts
      obtain ⟨⟨type, succeeded⟩, row, edge⟩ := (picked o payload).mp facts
      cases made
      exact ⟨o, listed, type, succeeded, rfl, held, row, edge⟩
    · cases made
  · rintro ⟨o, listed, type, succeeded, rfl, held, row, edge⟩
    refine ⟨o, listed, bind_eq_some_iff.mpr ⟨status, held, ?_⟩⟩
    rw [if_pos ((picked o status).mpr ⟨⟨type, succeeded⟩, row, edge⟩)]

theorem resultFor_keeps (row : r' = (resultFor results r).elim r (applyResult s · r)) :
    r'.id = r.id ∧ r'.spec = r.spec ∧ r'.active = r.active := by
  subst row
  cases resultFor results r <;> exact ⟨rfl, rfl, rfl⟩

theorem source_status (single : Single results)
    (row : u' = (resultFor results u).elim u (applyResult s · u)) {o : OutboxRow} (listed : o ∈ results)
    (type : o.taskType = .reconcile) (succeeded : o.succeeded = true) (of_ : o.resourceId = u.id)
    (payload : o.payload = some status) (differs : u.status ≠ some status) : u'.status = some status := by
  have changes : changesRow o u = true := by
    simp [changesRow, succeeded, payload, differs]
  cases found : resultFor results u with
  | none =>
    have unmatched := find?_eq_none.mp found o listed
    simp [type, of_, changes] at unmatched
  | some o' =>
    obtain ⟨listed', type', of_'⟩ := resultFor_listed found
    obtain rfl := single o' listed' o listed type' type (of_'.trans of_.symm)
    rw [row, found, elim_some, applyResult, succeeded, payload]
    rfl

theorem changed_source {mid : Db} (row : u' = (resultFor results u).elim u (applyResult mid · u))
    (there : ∃ v ∈ s.resources, v.id = u.id ∧ v.status = u.status) (edge : d ∈ s.deps)
    (of_ : u.id = d.dependencyId) (some_ : d.valueFlows ≠ []) (held : u'.status = some status)
    (changed : u'.status ≠ u.status) : (u.id, status) ∈ flowSources s results := by
  cases found : resultFor results u with
  | none =>
    rw [row, found] at changed
    exact absurd rfl changed
  | some o =>
    obtain ⟨listed, type, mine⟩ := resultFor_listed found
    rw [row, found, elim_some] at held changed
    simp only [applyResult] at held changed
    split at held
    · rename_i success
      rw [Bool.and_eq_true] at success
      rw [if_pos (by simp [success.1, success.2])] at changed
      obtain ⟨v, here, same, status'⟩ := there
      refine mem_flowSources.mpr ⟨o, listed, type, success.1, mine, held, ⟨v, here, same, ?_⟩, d, edge,
        of_.symm, some_⟩
      rw [status', ← held]
      exact Ne.symm changed
    · rename_i kept
      rw [if_neg kept] at changed
      exact absurd rfl changed

/-- A row that lagged and is synced with the status it had got a result that says so. -/
theorem resynced_by {mid : Db} {v : Resource} (row : u' = (resultFor results v).elim v (applyResult mid · v))
    (id : v.id = u.id) (status : v.status = u.status) (syncedGen : v.syncedGen = u.syncedGen)
    (grows : u.generation ≤ v.generation) (lagging : u.syncedGen < u.generation) (kept : u'.status = u.status)
    (synced : u'.generation ≤ u'.syncedGen) : ∃ o ∈ results, resyncs o u = true := by
  cases found : resultFor results v with
  | none =>
    rw [found, elim_none] at row
    subst row
    omega
  | some o =>
    obtain ⟨listed, type, mine⟩ := resultFor_listed found
    rw [found, elim_some] at row
    subst row
    simp only [applyResult] at synced kept
    refine ⟨o, listed, ?_⟩
    simp only [resyncs, Bool.and_eq_true, Bool.or_eq_true, decide_eq_true_eq]
    by_cases advances : (o.succeeded && o.advanceSyncedGen) = true
    · rw [if_pos advances] at synced
      rw [Bool.and_eq_true] at advances
      refine ⟨⟨⟨⟨⟨⟨type, mine.trans id⟩, advances.1⟩, advances.2⟩, lagging⟩, by omega⟩, ?_⟩
      cases held : o.payload with
      | none => exact .inl rfl
      | some payload =>
        rw [if_pos (by rw [advances.1, held]; rfl), held] at kept
        exact .inr kept
    · rw [if_neg advances] at synced
      omega

/-- **A drain leaves in place what it changed**, and what was; `resynced` is what it does
not look at. -/
theorem drain_covered {scan rowScan : Scan Uuid} {n : Nat} {range : ShardRange}
    (done : drainOutboxBatch db scan rowScan order n range = some db')
    (single : Single (popped db scan n range)) (shaped : WellShaped db) (covered : Covered db)
    (resynced : ∀ o ∈ popped db scan n range, ∀ u ∈ db.resources.rows, resyncs o u = true →
      ∀ r ∈ db.resources.rows, r.active = true → ∀ d ∈ db.deps.rows, d.dependentId = r.id →
        u.id = d.dependencyId → flowsInPlace d.valueFlows { u with syncedGen := u.generation } r = true) :
    Covered db' := by
  by_cases none : popped db scan n range = []
  · obtain rfl := drainOutboxBatch_none none done
    exact covered
  obtain ⟨mid, substituted, recorded⟩ := drainOutboxBatch_some none done
  obtain ⟨conditions, -, rfl⟩ := map_eq_some_iff.mp recorded
  intro r' afterR active d edge into u' afterU of_
  have follows := drainTeardowns_follows db rowScan (popped db scan n range)
  have edge' : d ∈ (drainTeardowns db rowScan (popped db scan n range)).deps := by
    rw [← patchSpecs_deps substituted, ← (updateResources_only mid _ _ _).deps]
    exact edge
  have torn := drainTeardowns_effects (drainable_rooted (popped db scan n range) db) rowScan
    popped_waiting popped_nodup
  obtain ⟨e, stored, ends⟩ := torn.edges (fun h => h) d edge'
  -- the dependent, back to where the drain found it
  obtain ⟨r₂, midR, resultR⟩ := applyResults_row afterR
  obtain ⟨idR, specR, activeR⟩ := resultFor_keeps resultR
  unfold substitute at substituted
  obtain ⟨r₁, hereR, patchedR⟩ := patchSpecs_row substituted midR
  obtain ⟨r, beforeR, fadesR⟩ := follows r₁ hereR
  have active₁ : r₁.active = true := by rw [← patchedR.active, ← activeR, active]
  have into : d.dependentId = r₁.id := by rw [into, idR, patchedR.id]
  -- and the upstream
  obtain ⟨u₂, midU, resultU⟩ := applyResults_row afterU
  obtain ⟨idU, -, -⟩ := resultFor_keeps resultU
  obtain ⟨u₁, hereU, patchedU⟩ := patchSpecs_row substituted midU
  obtain ⟨u, beforeU, fadesU⟩ := follows u₁ hereU
  have of₂ : u₂.id = d.dependencyId := idU.symm.trans of_
  have status₂ : u₂.status = u.status := patchedU.status.trans fadesU.status
  rw [flowsInPlace_iff]
  intro synced status held flow listed p yields
  rw [idR, patchedR.id] at yields
  rw [specR]
  refine pass_in_place patchedR hereR active₁ (.inl ?_) stored (ends.dependentId ▸ into)
    (ends.valueFlows ▸ listed) yields ?_ ?_
  · -- in shape, as before the drain
    have shape := shaped r beforeR (fadesR.active active₁)
    unfold Shaped at shape ⊢
    rw [fadesR.id, fadesR.spec]
    exact shape
  · -- a source that feeds the same edge is what the upstream now has
    intro q candidate of_q
    obtain ⟨src, source, d', edge', from_', g, listed', yields'⟩ := mem_substitutions.mp candidate
    obtain ⟨e', stored', ends'⟩ := torn.edges (fun h => h) d' edge'
    have into' : d'.dependentId = r₁.id := (flowPatch_dependent yields').symm.trans of_q
    refine ⟨e', stored', ends'.dependentId ▸ into', g, ends'.valueFlows ▸ listed', src.2, into' ▸ yields', ?_⟩
    rintro rfl
    have same : u₂.id = src.1 := by
      rw [of₂, ends.dependencyId, ← ends'.dependencyId, from_']
    obtain ⟨o, drained, type, succeeded, of_o, payload, ⟨v, hereV, idV, differs⟩, -⟩ :=
      mem_flowSources.mp source
    obtain rfl := eq_of_pk resource_primary hereV hereU (by rw [idV, ← same, patchedU.id])
    rw [← patchedU.status] at differs
    have now := source_status single resultU drained type succeeded (of_o.trans same.symm) payload differs
    rw [held] at now
    exact (some.inj now).symm
  · by_cases kept : u'.status = u.status
    · -- it was there: the upstream had this status, and was synced with it or is again
      right
      have of₀ : u.id = e.dependencyId := by rw [← fadesU.id, ← patchedU.id, of₂, ends.dependencyId]
      have into₀ : e.dependentId = r.id := by rw [← ends.dependentId, into, fadesR.id]
      rw [fadesR.id] at yields
      rw [fadesR.spec]
      have listed₀ : flow ∈ e.valueFlows := ends.valueFlows ▸ listed
      rcases Nat.lt_or_ge u.syncedGen u.generation with lagging | wasSynced
      · obtain ⟨o, drained, again⟩ := resynced_by resultU (patchedU.id.trans fadesU.id) status₂
          (patchedU.syncedGen.trans fadesU.syncedGen) (fadesU.generation ▸ patchedU.generation) lagging kept synced
        have before := resynced o drained u beforeU again r beforeR (fadesR.active active₁) e stored into₀ of₀
        exact flowsInPlace_iff.mp before (Nat.le_refl _) status (kept ▸ held) flow listed₀ p yields
      · have before := covered r beforeR (fadesR.active active₁) e stored into₀ u beforeU of₀
        exact flowsInPlace_iff.mp before wasSynced status (kept ▸ held) flow listed₀ p yields
    · left
      have some_ : d.valueFlows ≠ [] := ne_nil_of_mem listed
      have source := changed_source resultU ⟨u₁, hereU, patchedU.id.symm, patchedU.status.symm⟩ edge' of₂
        some_ held (status₂ ▸ kept)
      exact mem_substitutions.mpr ⟨_, source, d, edge', of₂.symm, flow, listed, into ▸ yields⟩

end Drain

/-! ## Every step -/

theorem respects_given : Respects Label.Undrained fun u u' =>
    u'.status = u.status ∧ u'.syncedGen = u.syncedGen ∧ u.generation ≤ u'.generation where
  refl _ := ⟨rfl, rfl, Nat.le_refl _⟩
  trans ab bc := ⟨bc.1.trans ab.1, bc.2.1.trans ab.2.1, ab.2.2.trans bc.2.2⟩
  quiet q := ⟨q.status, q.syncedGen, q.generation.ge⟩
  row {k _ a b} ok _ step := by
    cases k with
    | write =>
      refine ⟨Written.status step, Written.syncedGen step, ?_⟩
      rw [Written.generation step]
      exact Nat.le_succ _
    | result results => exact ok.elim
    | _ =>
      have same := step.sameAxes trivial
      exact ⟨same.status, same.syncedGen, same.generation.ge⟩

/-- Where the row is from: one that was active with this spec, or that the action brings. -/
def From (db : Db) (a : Action) (r' : Resource) : Prop :=
  ∃ r ∈ db.resources, r.id = r'.id ∧ ((r.active = true ∧ r'.spec = r.spec) ∨ a.brings db r = some r'.spec)

/-- An action that neither composes nor drains leaves in place what it leaves alone. -/
theorem command_covered (reachable : Reachable db) {a : Action} (undrained : a.Undrained)
    (rooted : a.Rooted) (covered : Covered db) (watched : Watched db a)
    (rows : ∀ r' ∈ (step db a).resources, r'.active = true → Stored db r'.id → From db a r') :
    Covered (step db a) := by
  intro r' afterR active d edge into u' afterU of_
  have run := step_undrained db undrained
  obtain ⟨e, stored, ends⟩ := (step_rooted db rooted).edges (fun h => h) d edge
  -- both ends of an edge are of rows that were inserted before
  obtain ⟨own, lineage⟩ := reachable.lineage
  obtain ⟨p, dependent, dependency⟩ := lineage.edges e stored
  have knownR : db.Drawn r'.id := by
    rw [← into, ends.dependentId]
    exact lineage.drawn _ _ dependent
  have knownU : db.Drawn u'.id := by
    rw [of_, ends.dependencyId]
    exact lineage.drawn _ _ dependency
  obtain ⟨r₀, before₀, same₀, -⟩ := run.tracks respects_true afterR knownR
  obtain ⟨r, beforeR, same, kept⟩ := rows r' afterR active ⟨r₀, before₀, same₀⟩
  obtain ⟨u, beforeU, same', status, syncedGen, grows⟩ := run.tracks respects_given afterU knownU
  have into : e.dependentId = r.id := by rw [← ends.dependentId, into, same]
  have of_ : u.id = e.dependencyId := by rw [same', of_, ends.dependencyId]
  have upstream (synced : u'.generation ≤ u'.syncedGen) : u.generation ≤ u.syncedGen ∧ u'.status = u.status :=
    ⟨by omega, status⟩
  rw [ends.valueFlows]
  rcases kept with ⟨active, spec⟩ | brought
  · exact flowsInPlace.of_rows (covered r beforeR active e stored into u beforeU of_) upstream same.symm spec
  · have flows := watched.brought r beforeR _ brought e stored into u beforeU of_
    exact flowsInPlace.of_rows flows upstream same.symm rfl

theorem From.unchanged {a : Action} (here : r ∈ db.resources) (active : r.active = true) : From db a r :=
  ⟨r, here, rfl, .inl ⟨active, rfl⟩⟩

theorem From.updated {a : Action} {p : Resource → Bool} {f : Resource → Resource}
    {keeps : ∀ r, Keyed.key (f r) = Keyed.key r}
    (each : ∀ r, p r = true → (f r).active = true →
      (r.active = true ∧ (f r).spec = r.spec) ∨ a.brings db r = some (f r).spec)
    (after : r' ∈ (updateResources db p f keeps).resources) (active : r'.active = true) : From db a r' := by
  obtain ⟨r, here, rfl⟩ := mem_updateResources.mp after
  split at active <;> rename_i chosen
  · rw [if_pos chosen]
    exact ⟨r, here, (congrArg (·.1) (keeps r)).symm, each r chosen active⟩
  · rw [if_neg chosen]
    exact .unchanged here active

theorem idle_from {a : Action} (idle : a.Idle) (after : r' ∈ (step db a).resources)
    (active : r'.active = true) : From db a r' := by
  obtain ⟨r, here, row⟩ := step_idles db idle r' after
  exact ⟨r, here, row.id.symm, .inl ⟨row.active active, row.spec⟩⟩

theorem applySpec_from {args : ApplySpec} (after : r' ∈ (step db (.applySpec args)).resources)
    (active : r'.active = true) (known : Stored db r'.id) : From db (.applySpec args) r' := by
  simp only [step] at after
  cases done : applySpec db args with
  | none =>
    rw [done] at after
    exact .unchanged after active
  | some db' =>
    rw [done, getD_some] at after
    have committed : (applySpec db args).isSome = true := by rw [done]; rfl
    obtain ⟨config, -, ⟨mid, r, created, -, rfl⟩ | ⟨prev, found, ⟨-, rfl⟩ | ⟨-, mid, r, write, rfl⟩⟩⟩ :=
      applySpec_cases done
    · rw [(created_only mid r).resources] at after
      obtain ⟨rfl, free, unlogged, rfl⟩ := createRoot_cases created
      rcases (mem_push free).mp after with rfl | old
      · obtain ⟨s, here, same⟩ := known
        exact absurd ⟨s, here, .inl same⟩ free
      · exact .unchanged old active
    · exact .unchanged after active
    · rw [(created_only mid r).resources] at after
      obtain ⟨-, versions, rfl, -⟩ := overwriteRoot_cases write
      obtain ⟨stored, key⟩ := mem_of_lookup found
      rcases (mem_rewriteRoot stored).mp after with rfl | ⟨old, -⟩
      · have row := overwrittenRow_overwrites db args config prev
        have active₀ : prev.active = true := by
          rwa [Resource.active, row.frozen, row.marked] at active
        refine ⟨prev, stored, row.id.symm, ?_⟩
        rw [row.spec]
        by_cases differs : prev.spec = args.spec
        · exact .inl ⟨active₀, differs.symm⟩
        · obtain ⟨kind, name⟩ := Prod.mk.inj key
          have named : prev.ref = ⟨args.kind, args.name⟩ := by rw [Resource.ref, kind, name]
          exact .inr (by simp [Action.brings, active₀, named, differs, committed])
      · exact .unchanged old active

theorem flip_from {id : Uuid} {old new : Nat} {spec : Json}
    (after : r' ∈ (step db (.flipResourceKindVersion id old new spec)).resources) (active : r'.active = true) :
    From db (.flipResourceKindVersion id old new spec) r' := by
  simp only [step, flipResourceKindVersion] at after
  split at after
  · exact .unchanged after active
  · rename_i version
    split at after
    · simp only [getD_some, (scheduleEligible_only _ _).resources] at after
      refine .updated (fun r flips active => ?_) after active
      by_cases differs : r.spec = spec
      · exact .inl ⟨active, differs.symm⟩
      · exact .inr (by simp [Action.brings, flips, differs, version])
    · exact .unchanged after active

theorem rollback_from {id : Uuid} {gen : Nat} (after : r' ∈ (step db (.rollbackToSpec id gen)).resources)
    (active : r'.active = true) : From db (.rollbackToSpec id gen) r' := by
  simp only [step, rollbackToSpec] at after
  split at after
  · exact .unchanged after active
  · rename_i target logged
    split at after
    · rw [(scheduleEligible_only _ _).resources] at after
      refine .updated (fun r rolls active => .inr ?_) after active
      simp only [Bool.and_eq_true, decide_eq_true_eq] at rolls
      have active : r.active = true := active
      simp [Action.brings, active, rolls.1, logged, Ne.symm rolls.2]
    · exact .unchanged after active

theorem thaw_from {id : Uuid} (after : r' ∈ (step db (.unquarantineResource id)).resources)
    (active : r'.active = true) : From db (.unquarantineResource id) r' := by
  simp only [step, unquarantineResource] at after
  split at after
  · rw [(scheduleEligible_only _ _).resources] at after
    refine .updated (fun r thaws active => .inr ?_) after active
    simp only [Bool.and_eq_true, decide_eq_true_eq] at thaws
    rw [Resource.active, Bool.and_eq_true] at active
    have unmarked : (!r.marked) = true := active.2
    simp [Action.brings, thaws.1, thaws.2, unmarked]
  · exact .unchanged after active

/-- **A watched step keeps every active row in place.** -/
theorem step_covered (reachable : Reachable db) {a : Action} (watched : Watched db a)
    (shaped : WellShaped db) (covered : Covered db) : Covered (step db a) := by
  have single := watched.single
  have reshaped := watched.shaped
  cases a with
  | applyComposeResult env t out pol =>
    revert reshaped
    exact submitCompose_cases (fun _ => covered)
      fun _ claimed done reshaped => compose_covered reachable claimed done reshaped covered
  | applyValueFlowsForDependents order ids =>
    revert reshaped
    exact getD_cases (fun _ => covered) fun _ done reshaped => applyValueFlows_covered done reshaped covered
  | drainOutboxBatch scan rowScan order n range =>
    exact getD_cases covered fun _ done => drain_covered done single shaped covered watched.resynced
  | applySpec args => exact command_covered reachable trivial trivial covered watched fun _ => applySpec_from
  | flipResourceKindVersion id old new spec =>
    exact command_covered reachable trivial trivial covered watched fun _ after active _ => flip_from after active
  | rollbackToSpec id gen =>
    exact command_covered reachable trivial trivial covered watched fun _ after active _ =>
      rollback_from after active
  | unquarantineResource id =>
    exact command_covered reachable trivial trivial covered watched fun _ after active _ => thaw_from after active
  | _ =>
    exact command_covered reachable trivial trivial covered watched fun _ after active _ =>
      idle_from trivial after active

/-! ## What a call queues -/

theorem eligible_active (h : eligible db r = true) : r.active = true := by
  simp only [eligible, Bool.and_eq_true, Bool.not_eq_true'] at h
  rw [Resource.active, h.1.1.1.1.2, h.1.1.1.2]
  rfl

/-- **Scheduled with its values.**  In every state that watched steps reach, whatever the
candidates: an eligible row has in its spec what its synced upstreams give, and the work
that `schedule_eligible` queues is a snapshot of such a row.  A call inside a step sees the
rows and edges the step ends with. -/
theorem flows_in_place {actions : List Action} (along : Along Watched Db.empty actions)
    (reached : run Db.empty actions = db) (ids : List Uuid) :
    (∀ r ∈ db.resources, r.id ∈ ids → eligible db r = true → InPlace db r) ∧
    ∀ w ∈ (scheduleEligible db ids).workQueue, w ∉ db.workQueue →
      ∃ r ∈ db.resources, Snapshots w r ∧ InPlace db r := by
  have kept : WellShaped db ∧ Covered db := by
    rw [← reached]
    refine Along.keeps (I := fun s => WellShaped s ∧ Covered s) (fun db a reachable watched before =>
      ⟨watched.shaped, step_covered reachable watched before.1 before.2⟩) .empty along ⟨?_, ?_⟩
    · intro r here
      exact absurd here (notMem_empty r)
    · intro r here
      exact absurd here (notMem_empty r)
  refine ⟨fun r here _ ready => kept.2 r here (eligible_active ready), fun w after new => ?_⟩
  rcases scheduleEligible_mem after with old | ⟨r, here, -, ready, snap⟩
  · exact absurd old new
  · exact ⟨r, here, snap, kept.2 r here (eligible_active ready)⟩

end Steps

/-- The action on every row of `kind`. -/
def onKind (kind : String) (action : Uuid → Action) (db : Db) : List Action :=
  (db.resources.rows.filter (·.kind = kind)).map fun r => action r.id

/-- The network reports its zone; the machine is quarantined and brought back, and the network
reports the same zone for its next generation. -/
def zonedAgain (out : ComposeOutput) : Script :=
  zoned out ++ [onKind "vm" .quarantineResource, onKind "vm" .unquarantineResource, onKind "net" .reconcile,
    fun _ => [claimAll "b" "net" .reconcile], returns "net" inZone]

/-- The machine is scheduled with the zone. -/
theorem flows_in_place_zone : letI := counting
    let out := zoneOutput "/zone" (.obj []) (.obj [])
    let db := run Db.empty ((zonedAgain out).play Db.empty)
    ∃ r ∈ db.resources.rows, eligible db r = true ∧ r.spec = .obj [("zone", .str "a")] ∧ InPlace db r := by
  intro out db
  have along : letI := counting
      Along Watched Db.empty ((zonedAgain out).play Db.empty) := by
    decide +kernel
  have facts : letI := counting
      ∃ r ∈ db.resources.rows, eligible db r = true ∧ r.spec = .obj [("zone", .str "a")] := by
    decide +kernel
  obtain ⟨r, here, ready, spec⟩ := facts
  have placed := (@flows_in_place counting db _ along rfl [r.id]).1 r here (mem_singleton.mpr rfl) ready
  exact ⟨r, here, ready, spec, placed⟩

/-- Work of an eligible row is queued without a value that a synced upstream gives. -/
def Missed (db : Db) : Prop :=
  ∃ r ∈ db.resources.rows, eligible db r = true ∧ ¬ InPlace db r ∧
    ∃ w ∈ db.workQueue.rows, w.resourceId = r.id ∧ w.generation = r.generation ∧ w.spec = some r.spec
deriving Decidable

/-- The machine is quarantined while the network reports its zone. -/
def thawedLate (out : ComposeOutput) : Script :=
  [fun _ => [applyRoot "app" "a", claimAll "b" "app" .reconcile],
    composes "app" noGrace leafFinalizer out, onKind "vm" .quarantineResource,
    fun _ => drainRechecks ++ [claimAll "b" "net" .reconcile], returns "net" inZone,
    onKind "vm" .unquarantineResource]

/-- Network and machine settle, are both given another spec, and the network reports its
zone again. -/
def recomposed (first second : ComposeOutput) : Script :=
  [fun _ => [applyRoot "app" "a", claimAll "b" "app" .reconcile],
    composes "app" noGrace leafFinalizer first, returns "app" success,
    fun _ => drainRechecks ++ [claimAll "b" "net" .reconcile], returns "net" inZone,
    fun _ => [claimAll "b" "vm" .reconcile], returns "vm" success,
    fun _ => [.applySpec ⟨"app", 1, "a", .obj [("size", .num 2)], .obj [], ""⟩, claimAll "b" "app" .reconcile],
    composes "app" noGrace leafFinalizer second,
    fun _ => drainRechecks ++ [claimAll "b" "net" .reconcile], returns "net" inZone]

/-- The output with other specs for network and machine. -/
def resized : ComposeOutput :=
  ⟨[⟨"net", 1, "n", .obj [("size", .num 2)], .obj []⟩, ⟨"vm", 1, "v", .obj [("size", .num 2)], .obj []⟩],
    [⟨⟨"vm", "v"⟩, ⟨"net", "n"⟩, [⟨"/zone", "/zone"⟩]⟩], []⟩

/-- The network's result waits while its queue row expires; the row is queued again, and
both results are drained together. -/
def reportedTwice (out : ComposeOutput) : Script :=
  [fun _ => [applyRoot "app" "a", claimAll "b" "app" .reconcile], composes "app" noGrace leafFinalizer out,
    fun _ => drainRechecks ++ [claimAll "b" "net" .reconcile],
    fun db => (db.tasks.filter (·.kind = "net")).map fun t => .appendOutbox (inZone t),
    fun _ => [.workQueueReleaseBroker Scan.plain "b", .tick 1,
      .deleteUnclaimedWork Scan.plain 0 10 ShardRange.full, .requeueFailedAndPending 0 10 [0],
      claimAll "b" "net" .reconcile],
    returns "net" fun t => { success t with payload := some (.obj [("zone", .str "b")]) }]

/-- A machine thawed after its network reported, one rewritten while its network lags, one
whose zone belongs in an object it does not have, and one whose network reports twice in a
batch: each is queued without the zone its synced network has. -/
theorem flows_missed : letI := counting
    let out := zoneOutput "/zone" (.obj []) (.obj [])
    ∀ script ∈ [thawedLate out, recomposed out resized,
        zoned (zoneOutput "/net/zone" (.obj []) (.obj [])), reportedTwice out],
      Reachable (run Db.empty (script.play Db.empty)) ∧ Missed (run Db.empty (script.play Db.empty)) := by
  intro out script listed
  refine ⟨⟨_, rfl⟩, ?_⟩
  have missed : letI := counting
      ([thawedLate out, recomposed out resized,
        zoned (zoneOutput "/net/zone" (.obj []) (.obj [])), reportedTwice out].all fun script =>
          decide (Missed (run Db.empty (script.play Db.empty)))) = true := by
    decide +kernel
  exact of_decide_eq_true (all_eq_true.mp missed script listed)

end Converge.Kernel
