/-
# Kernel.Flows -- values that flow along edges, and rows no write touches

An edge names fields of its dependency's status and where they go in its dependent's
spec.  `flowsInPlace` says that what a synced dependency has to give is there.

Most statements leave spec, status and counters of every row alone, and bring no row back
that was set aside; `Follows` says so of a statement, and composes.  A batch of patches
writes specs: `Patched.in_place` says when a value is where a pass wants it.
-/
import Converge.Kernel.JsonPath
import Converge.Kernel.Graph
import Converge.Kernel.Frames

namespace Converge.Kernel

open Converge.Theory List Table Option

set_option autoImplicit false
set_option linter.unusedSectionVars false

variable {p : FlowPatch} {produced : List ResourceDep} {r r' : Resource} {d : ResourceDep}
    {parent : Uuid}

/-! ## Flows in place -/

/-- What the flows give from `u`, if it is synced, is in the spec of `r`. -/
def flowsInPlace (flows : List ValueFlow) (u r : Resource) : Bool :=
  u.syncedGen < u.generation || u.status.all fun status => flows.all fun flow =>
    (flowPatch r.id status flow).all fun p => r.spec.get? p.patch.path = some p.patch.value

theorem flowsInPlace_iff {flows : List ValueFlow} {u : Resource} :
    flowsInPlace flows u r = true ↔ (u.generation ≤ u.syncedGen → ∀ status, u.status = some status →
      ∀ flow ∈ flows, ∀ p, flowPatch r.id status flow = some p →
        r.spec.get? p.patch.path = some p.patch.value) := by
  simp only [flowsInPlace, Bool.or_eq_true, decide_eq_true_eq, Option.all_eq_true, List.all_eq_true,
    ← Nat.not_lt, or_iff_not_imp_left]

theorem flowPatch_dependent {id : Uuid} {status : Json} {flow : ValueFlow}
    (yields : flowPatch id status flow = some p) : p.dependentId = id := by
  obtain ⟨v, -, rfl⟩ := map_eq_some_iff.mp yields
  rfl

/-- What the edges of some dependents yield from synced upstreams. -/
def flowCandidates (db : Db) (ids : List Uuid) : List FlowPatch :=
  (db.deps.rows.filter fun d => d.dependentId ∈ ids).flatMap fun d =>
    match db.resource? d.dependencyId with
    | some u =>
      if u.generation ≤ u.syncedGen then
        u.status.elim [] fun status => d.valueFlows.filterMap (flowPatch d.dependentId status)
      else []
    | none => []

theorem applyValueFlows_eq [Postgres] (db : Db) (order : Nat → Nat) (ids : List Uuid) :
    applyValueFlowsForDependents db order ids =
      patchSpecs db (shuffle order ((flowCandidates db ids).filter (·.applicable db))) :=
  rfl

theorem mem_flowCandidates {db : Db} {ids : List Uuid} :
    p ∈ flowCandidates db ids ↔ ∃ d ∈ db.deps, d.dependentId ∈ ids ∧
      ∃ u ∈ db.resources, u.id = d.dependencyId ∧ u.generation ≤ u.syncedGen ∧
        ∃ status, u.status = some status ∧ ∃ flow ∈ d.valueFlows,
          flowPatch d.dependentId status flow = some p := by
  simp only [flowCandidates, mem_flatMap, mem_filter, decide_eq_true_eq, mem_rows]
  constructor
  · rintro ⟨d, ⟨here, picked⟩, yields⟩
    refine ⟨d, here, picked, ?_⟩
    split at yields
    · rename_i u found
      obtain ⟨stored, same⟩ := mem_of_lookup found
      split at yields
      · rename_i synced
        cases held : u.status with
        | none =>
          rw [held] at yields
          cases yields
        | some status =>
          rw [held, elim_some, mem_filterMap] at yields
          exact ⟨u, stored, same, synced, status, held, yields⟩
      · cases yields
    · cases yields
  · rintro ⟨d, here, picked, u, stored, same, synced, status, held, flow, listed, yields⟩
    refine ⟨d, ⟨here, picked⟩, ?_⟩
    rw [Db.resource?, (lookup_eq_some resource_primary).mpr ⟨stored, same⟩]
    simp only [if_pos synced, held, elim_some, mem_filterMap]
    exact ⟨flow, listed, yields⟩

theorem applicable_iff {db : Db} : p.applicable db = true ↔
    ∃ r ∈ db.resources, r.id = p.dependentId ∧ r.spec.get? p.patch.path ≠ some p.patch.value ∧
      r.frozen = false := by
  simp only [FlowPatch.applicable, Option.any_eq_true, Db.resource?, Bool.and_eq_true,
    decide_eq_true_eq, Bool.not_eq_true', Table.lookup_eq_some resource_primary]
  constructor
  · rintro ⟨r, ⟨here, same⟩, differs, thawed⟩
    exact ⟨r, here, same, differs, thawed⟩
  · rintro ⟨r, here, same, differs, thawed⟩
    exact ⟨r, ⟨here, same⟩, differs, thawed⟩

/-! ## Rows left alone -/

/-- Neither frozen nor marked: a row that can be scheduled, and that flows go into. -/
def Resource.active (r : Resource) : Bool := !r.frozen && !r.marked

/-- Nothing a flow reads or a reconcile acts on has changed. -/
structure SameContent (r r' : Resource) : Prop extends SameRow r r' where
  kindVersion : r'.kindVersion = r.kindVersion
  spec : r'.spec = r.spec
  status : r'.status = r.status
  generation : r'.generation = r.generation
  syncedGen : r'.syncedGen = r.syncedGen

namespace SameContent

variable {r r' r'' : Resource}

theorem refl (r : Resource) : SameContent r r :=
  ⟨⟨rfl, rfl, rfl, rfl, rfl⟩, rfl, rfl, rfl, rfl, rfl⟩

theorem trans (first : SameContent r r') (second : SameContent r' r'') : SameContent r r'' where
  id := second.id.trans first.id
  kind := second.kind.trans first.kind
  name := second.name.trans first.name
  ownerId := second.ownerId.trans first.ownerId
  rootId := second.rootId.trans first.rootId
  kindVersion := second.kindVersion.trans first.kindVersion
  spec := second.spec.trans first.spec
  status := second.status.trans first.status
  generation := second.generation.trans first.generation
  syncedGen := second.syncedGen.trans first.syncedGen

end SameContent

/-- The content is the same, and a row that was set aside stays so. -/
structure Fades (r r' : Resource) : Prop extends SameContent r r' where
  active : r'.active = true → r.active = true

instance : IsPreorder Resource SameContent where
  refl := .refl
  trans _ _ _ := .trans

instance : IsPreorder Resource Fades where
  refl r := ⟨.refl r, id⟩
  trans _ _ _ first second :=
    ⟨first.toSameContent.trans second.toSameContent, first.active ∘ second.active⟩

section Follows

variable [Postgres] {db db' db'' : Db} {R : Resource → Resource → Prop}

/-- Every row left is a row there was, as `R` relates the two. -/
def Follows (R : Resource → Resource → Prop) (db db' : Db) : Prop :=
  ∀ r' ∈ db'.resources, ∃ r ∈ db.resources, R r r'

namespace Follows

theorem mono {S : Resource → Resource → Prop} (sub : ∀ {r r'}, R r r' → S r r')
    (follows : Follows R db db') : Follows S db db' := by
  intro r' after
  obtain ⟨r, here, row⟩ := follows r' after
  exact ⟨r, here, sub row⟩

theorem content (follows : Follows Fades db db') : Follows SameContent db db' :=
  follows.mono Fades.toSameContent

variable [IsPreorder Resource R]

theorem of_eq (rows : db'.resources = db.resources) : Follows R db db' :=
  fun r' after => ⟨r', rows ▸ after, refl_of R r'⟩

theorem trans (first : Follows R db db') (second : Follows R db' db'') : Follows R db db'' := by
  intro r'' after
  obtain ⟨r', between, row'⟩ := second r'' after
  obtain ⟨r, here, row⟩ := first r' between
  exact ⟨r, here, trans_of R row row'⟩

theorem updateResources {p : Resource → Bool} {f : Resource → Resource}
    {keeps : ∀ r, Keyed.key (f r) = Keyed.key r} (each : ∀ r, p r = true → R r (f r)) :
    Follows R db (updateResources db p f keeps) := by
  intro r' after
  obtain ⟨r, here, rfl⟩ := mem_updateResources.mp after
  refine ⟨r, here, ?_⟩
  split
  · exact each r (by assumption)
  · exact refl_of R r

theorem delete (ids : List Uuid) : Follows Fades db (deleteResources db ids) := by
  intro r' after
  obtain ⟨r, here, -, rfl | rfl⟩ := mem_deleteResources after
  · exact ⟨r', here, refl_of Fades r'⟩
  · refine ⟨r, here, ?_, id⟩
    constructor <;> first | rfl | (constructor <;> rfl)

end Follows

theorem markRow_fades (db : Db) (r : Resource) : Fades r (markRow db r) := by
  refine ⟨?_, fun active => ?_⟩
  · constructor <;> first | rfl | (constructor <;> rfl)
  · cases active

theorem sweepRounds_follows (maxRows : Nat) (range : ShardRange) (fuel : Nat) (scans : Nat → Scan Uuid)
    (total : Nat) (db : Db) : Follows Fades db (sweepRounds maxRows range fuel scans total db) := by
  induction fuel generalizing total db with
  | zero => exact .of_eq rfl
  | succ fuel ih =>
    have queued : Follows Fades db (sweepEnqueue db (scans fuel) maxRows range) :=
      .of_eq (enqueueAll_only _ _ _).resources
    have swept : Follows Fades db (sweepDelete (sweepEnqueue db (scans fuel) maxRows range)
        (scans fuel) maxRows range) := queued.trans (.delete _)
    simp only [sweepRounds]
    split
    · exact swept
    · exact swept.trans (ih _ _)

theorem requestResourceDeletion_follows (db : Db) (scans : Nat → Scan Uuid) (id : Uuid) :
    Follows Fades db (requestResourceDeletion db scans id) := by
  unfold requestResourceDeletion
  split
  · refine Follows.trans ?_ (sweepRounds_follows _ _ _ _ _ _)
    exact .updateResources fun r _ => markRow_fades db r
  · exact .of_eq rfl

theorem softDelete_follows (db : Db) (scans : Uuid → Nat → Scan Uuid) (stale : List Resource) :
    Follows Fades db (softDelete db scans stale) := by
  induction stale generalizing db with
  | nil => exact .of_eq rfl
  | cons e rest ih => exact (requestResourceDeletion_follows db (scans e.id) e.id).trans (ih _)

theorem markChildrenOrphaned_follows (db : Db) (pol : ComposePolicy) (stale : List Resource) :
    Follows Fades db (markChildrenOrphaned db pol stale) := by
  refine .updateResources fun r graced => ⟨?_, fun active => ?_⟩
  · constructor <;> first | rfl | (constructor <;> rfl)
  · -- the grace freezes the row
    simp only [Bool.and_eq_true] at graced
    obtain ⟨seconds, found⟩ := isSome_iff_exists.mp graced.1.1
    simp [Resource.active, Resource.frozen, found] at active

theorem pruneChildren_follows (db : Db) (scans : Uuid → Nat → Scan Uuid) (pol : ComposePolicy)
    (stale : List Resource) : Follows Fades db (pruneChildren db scans pol stale) :=
  ((softDelete_follows _ _ _).trans (markChildrenOrphaned_follows _ _ _)).trans (.delete _)

theorem clearOrphanMarks_row {existing : List Resource} {children : List ChildSpec}
    (after : r' ∈ (clearOrphanMarks db existing children).resources) :
    ∃ r ∈ db.resources, SameContent r r' ∧ (r' = r ∨ ∃ e ∈ existing, e.id = r.id) := by
  obtain ⟨r, here, rfl⟩ := mem_updateResources.mp after
  refine ⟨r, here, ?_⟩
  split
  · rename_i back
    simp only [Bool.and_eq_true, decide_eq_true_eq] at back
    obtain ⟨e, listed, same⟩ := mem_map.mp back.1
    refine ⟨?_, .inr ⟨e, mem_of_mem_filter listed, same⟩⟩
    constructor <;> first | rfl | (constructor <;> rfl)
  · exact ⟨.refl r, .inl rfl⟩

theorem clearOrphanMarks_follows (db : Db) (existing : List Resource) (children : List ChildSpec) :
    Follows SameContent db (clearOrphanMarks db existing children) := by
  intro r' after
  obtain ⟨r, here, same, -⟩ := clearOrphanMarks_row after
  exact ⟨r, here, same⟩

theorem composeChildren_follows (db : Db) (env : ComposeEnv) (pol : ComposePolicy) (existing : List Resource)
    (out : ComposeOutput) : Follows SameContent db (composeChildren db env pol existing out) :=
  (pruneChildren_follows _ _ _ _).content.trans (clearOrphanMarks_follows _ _ _)

theorem applyEdges_resources
    (done : applyEdges db parent produced = some db') : db'.resources = db.resources := by
  obtain ⟨t, rfl⟩ := applyEdges_only done
  rfl

theorem deleteConfigs_follows (db : Db) (p : ProviderConfig → Bool) :
    Follows Fades db (deleteConfigs db p) := by
  intro r' after
  unfold deleteConfigs at after
  simp only [mem_updateWhere] at after
  obtain ⟨r, here, rfl⟩ := after
  refine ⟨r, here, ?_⟩
  split
  · refine ⟨?_, id⟩
    constructor <;> first | rfl | (constructor <;> rfl)
  · exact refl_of Fades r

theorem applyComposedConfigs_follows {owner : Uuid} {configs : List ProviderConfigSpec}
    (done : applyComposedConfigs db owner configs = some db') : Follows Fades db db' ∧ db'.deps = db.deps := by
  obtain ⟨t, n, p, -, rfl⟩ := applyComposedConfigs_only done
  refine ⟨Follows.trans ?_ (deleteConfigs_follows _ _), rfl⟩
  exact .of_eq rfl

theorem stampComposedGen_follows {t : WorkTask} (done : stampComposedGen db t = some db') :
    Follows Fades db db' ∧ db'.deps = db.deps := by
  unfold stampComposedGen at done
  split at done
  · cases done
    refine ⟨.updateResources fun r _ => ⟨?_, id⟩, (updateResources_only _ _ _ _).deps⟩
    constructor <;> first | rfl | (constructor <;> rfl)
  · cases done

theorem drainTeardowns_follows (db : Db) (rowScan : Scan Uuid) (results : List OutboxRow) :
    Follows Fades db (drainTeardowns db rowScan results) := by
  have taken : Follows Fades db (finalizeOperations (takeResults db results) results) := .of_eq rfl
  have stripped : Follows Fades db
      (stripFinalizers (finalizeOperations (takeResults db results) results) results) := by
    refine taken.trans (.updateResources fun r _ => ⟨?_, id⟩)
    constructor <;> first | rfl | (constructor <;> rfl)
  exact (stripped.trans (.delete _)).trans (.of_eq (requeueTeardowns_only _ _).resources)

end Follows

/-! ## Actions that leave specs alone -/

section Idle

variable [Postgres]

/-- The row has its version and spec, and one that was set aside stays so. -/
structure Idles (r r' : Resource) : Prop where
  id : r'.id = r.id
  ownerId : r'.ownerId = r.ownerId
  kind : r'.kind = r.kind
  kindVersion : r'.kindVersion = r.kindVersion
  spec : r'.spec = r.spec
  active : r'.active = true → r.active = true

theorem Fades.idles (fades : Fades r r') : Idles r r' :=
  ⟨fades.id, fades.ownerId, fades.kind, fades.kindVersion, fades.spec, fades.active⟩

instance : IsPreorder Resource Idles where
  refl _ := ⟨rfl, rfl, rfl, rfl, rfl, id⟩
  trans _ _ _ first second := ⟨second.id.trans first.id, second.ownerId.trans first.ownerId,
    second.kind.trans first.kind, second.kindVersion.trans first.kindVersion,
    second.spec.trans first.spec, first.active ∘ second.active⟩

/-- The action neither writes specs nor lifts a quarantine. -/
def Action.Idle : Action → Prop
  | .applySpec _ | .flipResourceKindVersion _ _ _ _ | .rollbackToSpec _ _ | .unquarantineResource _
  | .applyComposeResult _ _ _ _ | .applyValueFlowsForDependents _ _ | .drainOutboxBatch _ _ _ _ _ => False
  | _ => True

theorem step_idles (db : Db) {a : Action} (idle : a.Idle) : Follows Idles db (step db a) := by
  cases a with
  | applySpec | flipResourceKindVersion | rollbackToSpec | unquarantineResource | applyComposeResult
  | applyValueFlowsForDependents | drainOutboxBatch => exact idle.elim
  | reconcile id =>
    refine Follows.trans (.updateResources fun r _ => ?_) (.of_eq (scheduleEligible_only _ _).resources)
    exact ⟨rfl, rfl, rfl, rfl, rfl, fun active => active⟩
  | quarantineResource id =>
    simp only [step, quarantineResource]
    split
    · refine Follows.trans (.updateResources fun r _ => ?_) (.of_eq rfl)
      exact ⟨rfl, rfl, rfl, rfl, rfl, fun frozen => absurd frozen Bool.false_ne_true⟩
    · exact .of_eq rfl
  | requestResourceDeletion scans id => exact (requestResourceDeletion_follows db scans id).mono Fades.idles
  | createOperation id verb input =>
    refine getD_cases (.of_eq rfl) fun _ done => ?_
    obtain ⟨_, _, _, _, -, -, -, -, -, rfl⟩ := createOperation_spec done
    exact .of_eq rfl
  | upsertProviderConfig c =>
    exact getD_cases (.of_eq rfl) fun _ done => .of_eq (upsertProviderConfig_resources done)
  | deleteProviderConfig name => exact (deleteConfigs_follows db _).mono Fades.idles
  | upsertKindManifest m =>
    simp only [step, upsertKindManifest]
    split
    · exact .of_eq rfl
    · simp only [getD_some]
      split
      · refine Follows.trans (.of_eq rfl) (.updateResources fun r _ => ?_)
        exact ⟨rfl, rfl, rfl, rfl, rfl, id⟩
      · exact .of_eq rfl
  | deleteKindManifest kind version =>
    simp only [step, deleteKindManifest]
    split
    · exact .of_eq rfl
    · split
      · exact .of_eq rfl
      · exact (deleteConfigs_follows db _).mono Fades.idles
  | appendOutbox o =>
    simp only [step, submitResult, appendOutbox]
    split
    · split <;> exact .of_eq rfl
    · exact .of_eq rfl
  | drainRollupRechecks | drainScheduleRechecks | requeueFailedAndPending =>
    exact .of_eq (scheduleEligible_only _ _).resources
  | requeueForResync kind secs n shards recompose =>
    refine Follows.trans (.updateResources fun r _ => ?_)
      (.of_eq (OnlySchedules.foldl (enqueueNew_only .reconcile) _ _).resources)
    exact ⟨rfl, rfl, rfl, rfl, rfl, id⟩
  | sweepDeletable scans n range => exact (sweepRounds_follows _ _ _ _ _ _).mono Fades.idles
  | sweepExpiredOrphans scan n range =>
    refine Follows.mono Fades.idles (Follows.trans (Follows.trans (.updateResources fun r _ => markRow_fades db r)
      (.of_eq (OnlySchedules.foldl (enqueueNew_only .delete) _ _).resources)) (.delete _))
  | _ => exact .of_eq rfl

end Idle

/-! ## Rows a batch of patches writes -/

section Patches

variable [Postgres] {db db' : Db} {patches : List FlowPatch}

/-- A row before and after a batch of patches. -/
structure Patched (patches : List FlowPatch) (r r' : Resource) : Prop where
  id : r'.id = r.id
  spec : jsonbSetMany r.spec (patchesFor patches r.id) = some r'.spec
  status : r'.status = r.status
  syncedGen : r'.syncedGen = r.syncedGen
  active : r'.active = r.active
  generation : r.generation ≤ r'.generation

theorem patchSpecs_row (done : patchSpecs db patches = some db')
    (after : r' ∈ db'.resources) : ∃ r ∈ db.resources, Patched patches r r' := by
  unfold patchSpecs at done
  split at done
  · rename_i all
    cases done
    obtain ⟨r, here, rfl⟩ := mem_updateResources.mp after
    refine ⟨r, here, ?_⟩
    obtain ⟨spec, set⟩ := isSome_iff_exists.mp (all_eq_true.mp all r here)
    split
    · refine ⟨rfl, ?_, rfl, rfl, rfl, Nat.le_succ _⟩
      rw [set]
      rfl
    · rename_i none
      have none : patchesFor patches r.id = [] := by simpa using none
      refine ⟨rfl, ?_, rfl, rfl, rfl, Nat.le_refl _⟩
      rw [none]
      rfl
  · cases done

theorem patchSpecs_deps (done : patchSpecs db patches = some db') : db'.deps = db.deps := by
  obtain ⟨t, only⟩ := patchSpecs_only done
  exact only.deps

theorem patchSpecs_nil (done : patchSpecs db [] = some db') : Follows SameContent db db' := by
  unfold patchSpecs at done
  split at done
  · cases done
    exact .updateResources fun r patched => absurd patched (by simp [patchesFor])
  · cases done

theorem mem_patchesFor {id : Uuid} {p : Patch} :
    p ∈ patchesFor patches id ↔ ∃ q ∈ patches, q.dependentId = id ∧ q.patch = p := by
  simp only [patchesFor, List.mem_map, List.mem_filter, decide_eq_true_eq, and_assoc]

/-- Whether a path is open is not changed by patches there or apart from it. -/
theorem Patched.opens {path : List String} (patched : Patched patches r r')
    (near : ∀ q ∈ patches, q.dependentId = r.id → q.patch.path = path ∨ Json.apart q.patch.path path = true) :
    r'.spec.opens path = r.spec.opens path := by
  refine opens_jsonbSetMany (fun p listed => ?_) patched.spec
  obtain ⟨q, inBatch, same, rfl⟩ := mem_patchesFor.mp listed
  exact near q inBatch same

/-- **What a pass wants in place is in place after it**: it is a candidate of the pass, or
was there before; the path is open, and the other candidates are apart from it. -/
theorem Patched.in_place {order : Nat → Nat} {candidates : List FlowPatch}
    (patched : Patched (shuffle order (candidates.filter (·.applicable db))) r r')
    (here : r ∈ db.resources) (thawed : r.frozen = false) (of_ : p.dependentId = r.id)
    (open_ : r.spec.opens p.patch.path = true)
    (near : ∀ q ∈ candidates, q.dependentId = r.id →
      q.patch = p.patch ∨ Json.apart q.patch.path p.patch.path = true)
    (there : p ∈ candidates ∨ r.spec.get? p.patch.path = some p.patch.value) :
    r'.spec.get? p.patch.path = some p.patch.value := by
  have batch {q : FlowPatch} : q ∈ shuffle order (candidates.filter (·.applicable db)) ↔
      q ∈ candidates ∧ q.applicable db = true := by
    rw [mem_shuffle, mem_filter]
  refine get?_jsonbSetMany open_ (fun x listed => ?_) ?_ patched.spec
  · obtain ⟨q, inBatch, same, rfl⟩ := mem_patchesFor.mp listed
    exact near q (batch.mp inBatch).1 same
  · by_cases held : r.spec.get? p.patch.path = some p.patch.value
    · exact .inr held
    · have candidate := there.resolve_right held
      have applies : p.applicable db = true :=
        applicable_iff.mpr ⟨r, here, of_.symm, held, thawed⟩
      exact .inl (mem_patchesFor.mpr ⟨p, batch.mpr ⟨candidate, applies⟩, of_, rfl⟩)

end Patches

/-! ## Edges and their flows after a compose -/

section Edges

variable [Postgres] {db db' : Db}

theorem applyEdges_flows (done : applyEdges db parent produced = some db') (after : d ∈ db'.deps)
    (child : depsByOwner db parent d = true) :
    ∃ p ∈ produced, p.ends = d.ends ∧ p.valueFlows = d.valueFlows :=
  (applyEdges_mem done after).resolve_right fun kept => nomatch child.symm.trans kept.2

/-- A compose that commits: its stages, the flows into its dependents, and what follows,
which leaves the content of all rows. -/
theorem applyComposeResult_flows {env : ComposeEnv} {t : WorkTask} {out : ComposeOutput} {pol : ComposePolicy}
    (claimed : t ∈ db.tasks) (done : applyComposeResult db env t out pol = some db') :
    ∃ parent upserted produced wired flowed, ComposeStages db env t out pol parent upserted produced wired ∧
        applyValueFlowsForDependents wired env.flowOrder (flowingDependents produced) = some flowed ∧
        (Follows Fades flowed db' ∧ db'.deps = flowed.deps) ∧ Effects Label.Calm flowed db' := by
  obtain ⟨⟨mid, ids⟩, body, rest⟩ := bind_eq_some_iff.mp done
  obtain ⟨stamped, stamp, rfl⟩ := map_eq_some_iff.mp rest
  have stamps := stampComposedGen_effects
    ((composeBody_effects (Composable.plain db) body).tasks_subset claimed) stamp
  obtain ⟨parent, upserted, produced, wired, flowed, stages, flow, configs⟩ := composeBody_cases body
  refine ⟨parent, upserted, produced, wired, flowed, stages, flow, ?_, ?_⟩
  · obtain ⟨configured, edges⟩ := applyComposedConfigs_follows configs
    obtain ⟨stampedRows, edges'⟩ := stampComposedGen_follows stamp
    exact ⟨(configured.trans stampedRows).trans (.of_eq rfl), edges'.trans edges⟩
  · refine ((applyComposedConfigs_effects configs).trans stamps).trans ?_
    exact effects_aux ⟨rfl, rfl, rfl, rfl, rfl, rfl, Nat.le_refl _, rfl, rfl, fun _ => .inl⟩

end Edges

end Converge.Kernel
