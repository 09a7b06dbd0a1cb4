/-
# Guarantees.RecomposeChurn -- a compose that emits what is there already

A composer emits clean specs; what flowed in from upstreams is only in the rows.  The
compose therefore compares with the flowed fields cleared, and skips a child that is the
same apart from them.  A child that is not skipped is written with the emitted spec,
which is another one than the stored one as soon as something flowed in.

`recompose_keeps_children` says exactly when a compose over filled children changes none
of them: if no child that is still there after it was found changed with another spec or
version (`rewrites`).  Labels count as a change; so does a flowed field the two sides
place differently (`recompose_churns`).
-/
import Converge.Kernel.Flows
import Converge.Guarantees.ComposeEmitted

namespace Converge.Kernel

open Converge.Theory List Table Option

set_option autoImplicit false
set_option linter.unusedSectionVars false

variable {c : ChildSpec} {order : Nat → Nat} {e r r' : Resource} {parent : Uuid}

/-! ## The diff -/

/-- The emitted spec the diff finds changed for the row, if there is one. -/
def changedSpec (out : ComposeOutput) (e : Resource) : Option ChildSpec :=
  out.children.find? fun c => c.ref = e.ref && !childUnchanged out.edges e c

/-- The update of the children writes the row. -/
def rewrites (out : ComposeOutput) (e : Resource) : Bool :=
  !e.marked && (changedSpec out e).any fun c => e.spec ≠ c.spec || e.kindVersion ≠ c.kindVersion

/-- The paths at which `jsonb_set` writes what flows into a child. -/
def filledPaths (edges : List DepEdge) (ref : ResourceRef) : List (List String) :=
  (edges.filter (·.dependent = ref)).flatMap fun e => e.values.map fun v => pointerToPath v.depField

/-- The row of an emitted child: its version, and its spec with values written at flowed
fields. -/
structure FilledChild (db : Db) (parent : Uuid) (edges : List DepEdge) (c : ChildSpec)
    (e : Resource) : Prop where
  here : e ∈ db.resources
  owned : e.ownerId = some parent
  ref : e.ref = c.ref
  kindVersion : e.kindVersion = c.kindVersion
  spec : ∃ patches : List Patch, (∀ p ∈ patches, p.path ∈ filledPaths edges c.ref) ∧
    jsonbSetMany c.spec patches = some e.spec

/-- The children of the output exist, and what flows from synced ones is in place. -/
structure Filled (db : Db) (parent : Uuid) (out : ComposeOutput) : Prop where
  stored : ∀ c ∈ out.children, ∃ e, FilledChild db parent out.edges c e
  flowed : ∀ edge ∈ out.edges, ∀ u ∈ db.resources, ∀ e ∈ db.resources,
    u.ownerId = some parent → e.ownerId = some parent → u.ref = edge.dependency →
      e.ref = edge.dependent → flowsInPlace edge.values u e = true

/-- The row differs from the emitted child by flowed fields alone, and both sides agree on
which these are. -/
structure SameButFlowed (edges : List DepEdge) (c : ChildSpec) (e : Resource) : Prop where
  labels : e.labels = c.labels
  kindVersion : e.kindVersion = c.kindVersion
  pointers : ∀ edge ∈ edges, edge.dependent = c.ref → ∀ v ∈ edge.values,
    pointerSegments v.depField = pointerToPath v.depField
  normal : c.spec.Normal
  decodes : c.spec.decoded?.isSome = true
  spec : Json.FilledIn (filledPaths edges c.ref) c.spec e.spec

theorem flowedPaths_eq {edges : List DepEdge} {ref : ResourceRef}
    (pointers : ∀ edge ∈ edges, edge.dependent = ref → ∀ v ∈ edge.values,
      pointerSegments v.depField = pointerToPath v.depField) :
    flowedPaths edges ref = filledPaths edges ref := by
  refine flatMap_congr fun edge listed => ?_
  obtain ⟨here, same⟩ := mem_filter.mp listed
  exact map_congr_left fun v h => pointers edge here (of_decide_eq_true same) v h

theorem SameButFlowed.unchanged {edges : List DepEdge}
    (same : SameButFlowed edges c e) : childUnchanged edges e c = true := by
  unfold childUnchanged
  rw [flowedPaths_eq same.pointers, specsMatch_of_filledIn same.spec same.normal same.decodes,
    decide_eq_true same.labels, decide_eq_true same.kindVersion]
  rfl

section Recompose

variable [Postgres] {db db' : Db} {env : ComposeEnv} {t : WorkTask} {out : ComposeOutput}
  {pol : ComposePolicy}

/-! ## What the update writes -/

theorem existingByRef_some (found : existingByRef (shuffle order (existingChildren db parent)) c = some e) :
    e ∈ db.resources ∧ e.ownerId = some parent ∧ e.ref = c.ref := by
  have matched : e.ref = c.ref := by simpa using find?_some found
  obtain ⟨here, owned⟩ := mem_filter.mp (mem_shuffle.mp (mem_of_find?_eq_some found))
  exact ⟨here, of_decide_eq_true owned, matched⟩

theorem existingByRef_eq (here : e ∈ db.resources) (owned : e.ownerId = some parent) (ref : e.ref = c.ref) :
    existingByRef (shuffle order (existingChildren db parent)) c = some e := by
  have listed : e ∈ shuffle order (existingChildren db parent) :=
    mem_shuffle.mpr (mem_filter.mpr ⟨here, decide_eq_true owned⟩)
  cases found : existingByRef (shuffle order (existingChildren db parent)) c with
  | none => exact absurd (decide_eq_true ref) (find?_eq_none.mp found e listed)
  | some e' =>
    obtain ⟨here', -, ref'⟩ := existingByRef_some found
    rw [Resource.eq_of_ref here' here (ref'.trans ref.symm)]

section Declared

variable {parent : Uuid} {order : Nat → Nat}

theorem declared_eq (here : e ∈ db.resources) (owned : e.ownerId = some parent) (ref : c.ref = e.ref) :
    ((existingByRef (shuffle order (existingChildren db parent)) c).filter
      fun e => !childUnchanged out.edges e c).map (·, c) =
      if childUnchanged out.edges e c then none else some (e, c) := by
  rw [existingByRef_eq here owned ref.symm, filter_some]
  cases childUnchanged out.edges e c <;> rfl

theorem declFor_child (here : e ∈ db.resources) (owned : e.ownerId = some parent) :
    declFor (changedChildren (shuffle order (existingChildren db parent)) out) e = changedSpec out e := by
  have declared (c : ChildSpec) : (((existingByRef (shuffle order (existingChildren db parent)) c).filter
        fun e => !childUnchanged out.edges e c).map (·, c)).any (fun d => d.1.id = e.id) =
        (decide (c.ref = e.ref) && !childUnchanged out.edges e c) := by
    by_cases ref : c.ref = e.ref
    · rw [declared_eq here owned ref, decide_eq_true ref]
      cases childUnchanged out.edges e c <;> simp
    · rw [decide_eq_false ref, Bool.false_and, Option.any_eq_false]
      intro d found
      obtain ⟨e', kept, rfl⟩ := map_eq_some_iff.mp found
      obtain ⟨here', -, ref'⟩ := existingByRef_some (filter_eq_some_iff.mp kept).1
      refine decide_eq_false fun same => ref ?_
      rw [eq_of_pk resource_primary here' here same] at ref'
      exact ref'.symm
  unfold declFor changedChildren changedSpec
  rw [find?_filterMap]
  simp only [declared]
  cases found : out.children.find? fun c => decide (c.ref = e.ref) && !childUnchanged out.edges e c with
  | none => rfl
  | some c =>
    have matched := find?_some found
    simp only [Bool.and_eq_true, decide_eq_true_eq, Bool.not_eq_true'] at matched
    rw [bind_some, declared_eq here owned matched.1, if_neg (by simp [matched.2])]
    rfl

theorem declFor_listed
    (declared : declFor (changedChildren (shuffle order (existingChildren db parent)) out) r = some c) :
    ∃ e ∈ db.resources, e.ownerId = some parent ∧ e.id = r.id := by
  obtain ⟨d, found, -⟩ := map_eq_some_iff.mp declared
  have same := find?_some found
  obtain ⟨c, -, row⟩ := mem_filterMap.mp (mem_of_find?_eq_some found)
  obtain ⟨e, kept, rfl⟩ := map_eq_some_iff.mp row
  obtain ⟨here, owned, -⟩ := existingByRef_some (filter_eq_some_iff.mp kept).1
  exact ⟨e, here, owned, of_decide_eq_true same⟩

theorem declFor_other (here : r ∈ db.resources) (other : r.ownerId ≠ some parent) :
    declFor (changedChildren (shuffle order (existingChildren db parent)) out) r = none := by
  cases declared : declFor (changedChildren (shuffle order (existingChildren db parent)) out) r with
  | none => rfl
  | some c =>
    obtain ⟨e, there, owned, same⟩ := declFor_listed declared
    rw [eq_of_pk resource_primary there here same] at owned
    exact absurd owned other

/-- A row after the update of the children: written, or with its content. -/
inductive Upserted (parent : Uuid) (out : ComposeOutput) (r r' : Resource) : Prop
  | written (owned : r.ownerId = some parent) (rewritten : rewrites out r = true)
      (same : SameRow r r') (generation : r'.generation = r.generation + 1)
  | kept (unwritten : r.ownerId = some parent → rewrites out r = false) (same : SameContent r r')

theorem Upserted.sameRow (upserted : Upserted parent out r r') : SameRow r r' := by
  cases upserted with
  | written _ _ same _ => exact same
  | kept _ same => exact same.toSameRow

theorem updateChildren_row (after : r' ∈ (updateChildren db
      (changedChildren (shuffle order (existingChildren db parent)) out)).resources) :
    ∃ r ∈ db.resources, Upserted parent out r r' := by
  unfold updateChildren at after
  simp only [mem_updateWhere] at after
  obtain ⟨mid, between, labelled⟩ := after
  -- labels are no content
  have relabelled : SameContent mid r' := by
    rw [← labelled]
    split <;> constructor <;> first | rfl | (constructor <;> rfl)
  obtain ⟨r, here, wrote⟩ := mem_updateResources.mp between
  refine ⟨r, here, ?_⟩
  by_cases owned : r.ownerId = some parent
  · rw [declFor_child here owned] at wrote
    change (if rewrites out r = true then _ else r) = mid at wrote
    by_cases rewritten : rewrites out r = true
    · obtain ⟨c, changed, -⟩ := any_eq_true _ _ |>.mp (Bool.and_eq_true_iff.mp rewritten).2
      rw [if_pos rewritten, changed, elim_some] at wrote
      refine .written owned rewritten ?_ ?_
      · rw [← wrote] at relabelled
        exact ⟨relabelled.id, relabelled.kind, relabelled.name, relabelled.ownerId, relabelled.rootId⟩
      · rw [relabelled.generation, ← wrote]
        rfl
    · rw [if_neg rewritten] at wrote
      rw [← wrote] at relabelled
      exact .kept (fun _ => (Bool.not_eq_true _).mp rewritten) relabelled
  · rw [declFor_other here owned, any_none, Bool.and_false] at wrote
    rw [← wrote] at relabelled
    exact .kept (fun child => absurd child owned) relabelled

end Declared

/-! ## The compose -/

section Stages

variable {parent : Resource} {upserted wired : Db} {produced : List ResourceDep}
  (stages : ComposeStages db env t out pol parent upserted produced wired)

include stages

theorem ComposeStages.upserted_row (filled : Filled db t.resourceId out) (after : r' ∈ upserted.resources) :
    ∃ r ∈ db.resources, Upserted t.resourceId out r r' := by
  have none : newChildren (shuffle env.childOrder (existingChildren db parent.id)) out.children = [] := by
    refine filter_eq_nil_iff.mpr fun c listed new => ?_
    obtain ⟨e, child⟩ := filled.stored c listed
    rw [stages.parent_id, existingByRef_eq child.here child.owned child.ref] at new
    cases new
  have upsert := stages.upsert
  unfold batchUpsertChildren at upsert
  rw [none] at upsert
  obtain ⟨same, made, rfl⟩ := map_eq_some_iff.mp upsert
  cases made
  rw [stages.parent_id] at after
  exact updateChildren_row after

theorem ComposeStages.wired_row (filled : Filled db t.resourceId out) (after : r' ∈ wired.resources) :
    ∃ r ∈ db.resources, r.id = r'.id ∧ ∃ u ∈ upserted.resources, SameContent u r' ∧
      Upserted t.resourceId out r u := by
  obtain ⟨u, between, same⟩ :=
    composeChildren_follows _ _ _ _ _ r' (applyEdges_resources stages.wire ▸ after)
  obtain ⟨r, here, row⟩ := stages.upserted_row filled between
  exact ⟨r, here, row.sameRow.id.symm.trans same.id.symm, u, between, same, row⟩

theorem ComposeStages.child_row (filled : Filled db t.resourceId out)
    (settled : ∀ e ∈ db.resources, Emits t out e → Stored wired e.id → rewrites out e = false)
    {ref : ResourceRef} (after : r' ∈ wired.resources)
    (resolved : refToId upserted parent.id out.children ref = some r'.id) :
    ∃ e ∈ db.resources, e.ownerId = some t.resourceId ∧ e.ref = ref ∧ SameContent e r' := by
  obtain ⟨⟨c, emitted, sameRef⟩, x, there, sameId, refX, ownedX⟩ := refToId_row resolved
  obtain ⟨r, here, idR, u, between, same, row⟩ := stages.wired_row filled after
  obtain rfl := eq_of_pk resource_primary between there (same.id.symm.trans sameId.symm)
  have refR : r.ref = ref := by
    rw [← refX, Resource.ref, Resource.ref, row.sameRow.kind, row.sameRow.name]
  have ownedR : r.ownerId = some t.resourceId := by
    rw [← row.sameRow.ownerId, ownedX, stages.parent_id]
  have unwritten := settled r here ⟨ownedR, c, emitted, sameRef.trans refR.symm⟩ ⟨r', after, idR.symm⟩
  cases row with
  | written _ rewritten _ _ =>
    rw [unwritten] at rewritten
    cases rewritten
  | kept _ kept => exact ⟨r, here, ownedR, refR, kept.trans same⟩

/-- What flows into children that were not written is in place. -/
theorem ComposeStages.flows_idle (filled : Filled db t.resourceId out)
    (settled : ∀ e ∈ db.resources, Emits t out e → Stored wired e.id → rewrites out e = false) {flowed : Db}
    (flow : applyValueFlowsForDependents wired order (flowingDependents produced) = some flowed) :
    Follows SameContent wired flowed := by
  rw [applyValueFlows_eq, filter_eq_nil_iff.mpr] at flow
  · exact patchSpecs_nil flow
  intro p listed applicable
  obtain ⟨d, stored, flowing, u, thereU, idU, synced, status, held, flow, flowListed, yields⟩ :=
    mem_flowCandidates.mp listed
  obtain ⟨r, thereR, idR, differs, -⟩ := applicable_iff.mp applicable
  rw [flowPatch_dependent yields] at idR
  -- the edge is an emitted one, between two children
  have child : depsByOwner (composeChildren upserted env pol
      (shuffle env.childOrder (existingChildren db parent.id)) out) parent.id d = true := by
    obtain ⟨q, flows, same⟩ := mem_map.mp (mem_dedup.mp flowing)
    obtain ⟨edge, -, resolved, -⟩ := resolveEdges_mem stages.resolve (mem_filter.mp flows).1
    rw [same, ← idR] at resolved
    obtain ⟨e, -, owned, -, content⟩ := stages.child_row filled settled thereR resolved
    obtain ⟨table, wires⟩ := applyEdges_only stages.wire
    rw [wires] at thereR
    rw [depsByOwner, Db.resource?, ← idR, lookup_of_mem resource_primary thereR]
    exact decide_eq_true (by rw [content.ownerId, owned, stages.parent_id])
  obtain ⟨produced', listed', ends, flows⟩ := applyEdges_flows stages.wire stored child
  obtain ⟨edge, emitted, dependent, dependency, values⟩ := resolveEdges_mem stages.resolve listed'
  obtain ⟨endR, endU⟩ := ends_eq ends
  rw [endR, ← idR] at dependent
  rw [endU, ← idU] at dependency
  obtain ⟨e, hereE, ownedE, refE, sameE⟩ := stages.child_row filled settled thereR dependent
  obtain ⟨v, hereV, ownedV, refV, sameV⟩ := stages.child_row filled settled thereU dependency
  have placed := flowsInPlace_iff.mp (filled.flowed edge emitted v hereV e hereE ownedV ownedE refV refE)
  rw [sameE.spec] at differs
  refine differs (placed ?_ status ?_ flow ?_ p ?_)
  · rw [← sameV.generation, ← sameV.syncedGen]
    exact synced
  · rw [← sameV.status]
    exact held
  · rw [← values, flows]
    exact flowListed
  · rw [← sameE.id, idR]
    exact yields

end Stages

/-- **When a compose over filled children changes none of them.**  Take any compose that
commits in a reachable state where the children of its output exist, with what flows from
synced upstreams in place.  It changes neither the spec nor the generation of any of these
children exactly if it writes none that is still there after it.

A child is not written if its row differs from what is emitted by flowed fields alone:
the labels are the same, both sides read the pointers of its flows alike, and no path of
a flow meets an array. -/
theorem recompose_keeps_children (reachable : Reachable db) (claimed : t ∈ db.tasks ∧ t.taskType = .reconcile)
    (done : applyComposeResult db env t out pol = some db') (filled : Filled db t.resourceId out) :
    ((∀ e ∈ db.resources, Emits t out e → ∀ e' ∈ db'.resources, e'.id = e.id →
        e'.generation = e.generation ∧ e'.spec = e.spec) ↔
      ∀ e ∈ db.resources, Emits t out e → Stored db' e.id → rewrites out e = false) ∧
    ∀ e, (∀ c ∈ out.children, c.ref = e.ref → SameButFlowed out.edges c e) → rewrites out e = false := by
  obtain ⟨parent, upserted, produced, wired, flowed, stages, flow, ⟨follows, -⟩, calm⟩ :=
    applyComposeResult_flows claimed.1 done
  have after : Effects Label.Wrote wired db' :=
    (applyValueFlows_effects (Writable.wrote wired) flow).trans (calm.mono fun _ => Label.Calm.wrote)
  refine ⟨⟨fun kept e here emits stored => ?_, fun unwritten e here emits e' last same => ?_⟩,
    fun e flowed => ?_⟩
  · -- a write is a generation, and generations only grow
    by_contra rewritten
    obtain ⟨e', last, same⟩ := stored
    obtain ⟨f, middle, sameF⟩ := follows e' last
    have drawn : wired.Drawn f.id := by
      rw [← sameF.id, same]
      exact (reachable.named e here).mono (stages.effects (Composable.plain db)).drawn_le
    obtain ⟨w, between, sameW, grows⟩ :=
      (applyValueFlows_effects (Writable.wrote wired) flow).tracks respects_grows middle drawn
    obtain ⟨r, there, idR, u, -, content, row⟩ := stages.wired_row filled between
    obtain rfl := eq_of_pk resource_primary there here (idR.trans (sameW.trans (sameF.id.symm.trans same)))
    cases row with
    | written _ _ _ generation =>
      have unchanged := (kept r here emits e' last same).1
      rw [sameF.generation] at unchanged
      rw [content.generation] at grows
      omega
    | kept unwritten _ => exact rewritten (unwritten emits.owned)
  · have settled : ∀ e ∈ db.resources, Emits t out e → Stored wired e.id → rewrites out e = false :=
      fun e here emits stored => unwritten e here emits
        (Effects.mild_stored (after.mono fun _ => Label.Wrote.mild) stored)
    obtain ⟨r', between, same'⟩ := (stages.flows_idle filled settled flow).trans follows.content e' last
    obtain ⟨r, there, idR, u, -, content, row⟩ := stages.wired_row filled between
    obtain rfl := eq_of_pk resource_primary there here (idR.trans (same'.id.symm.trans same))
    cases row with
    | written _ rewritten _ _ =>
      rw [unwritten r here emits ⟨e', last, same⟩] at rewritten
      cases rewritten
    | kept _ kept =>
      have all := (kept.trans content).trans same'
      exact ⟨all.generation, all.spec⟩
  · have none : changedSpec out e = none := by
      refine find?_eq_none.mpr fun c listed changed => ?_
      simp only [Bool.and_eq_true, decide_eq_true_eq, Bool.not_eq_true'] at changed
      rw [(flowed c listed changed.1).unchanged] at changed
      cases changed.2
    rw [rewrites, none, any_none, Bool.and_false]

end Recompose

/-- `Filled`, as a check of the rows, given the values written into each child. -/
def FilledWith (values : ChildSpec → List Patch) (db : Db) (parent : Uuid) (out : ComposeOutput) : Prop :=
  (∀ c ∈ out.children, (∀ p ∈ values c, p.path ∈ filledPaths out.edges c.ref) ∧
    ∃ e ∈ db.resources.rows, e.ownerId = some parent ∧ e.ref = c.ref ∧
      e.kindVersion = c.kindVersion ∧ jsonbSetMany c.spec (values c) = some e.spec) ∧
  ∀ edge ∈ out.edges, ∀ u ∈ db.resources.rows, ∀ e ∈ db.resources.rows,
    u.ownerId = some parent → e.ownerId = some parent → u.ref = edge.dependency →
      e.ref = edge.dependent → flowsInPlace edge.values u e = true
deriving Decidable

theorem FilledWith.filled {values : ChildSpec → List Patch} {db : Db} {out : ComposeOutput}
    (rows : FilledWith values db parent out) : Filled db parent out where
  stored c listed := by
    obtain ⟨paths, e, here, owned, ref, version, spec⟩ := rows.1 c listed
    exact ⟨e, here, owned, ref, version, values c, paths, spec⟩
  flowed := rows.2

/-- A network and a machine whose zone comes from the network, at `pointer`. -/
def zoneOutput (pointer : String) (spec labels : Json) : ComposeOutput :=
  ⟨[child "net" "n", ⟨"vm", 1, "v", spec, labels⟩], [⟨⟨"vm", "v"⟩, ⟨"net", "n"⟩, [⟨pointer, "/zone"⟩]⟩], []⟩

/-- What the network reports. -/
def inZone (t : WorkTask) : OutboxRow :=
  { success t with payload := some (.obj [("zone", .str "a")]) }

/-- The root composes both, and the network reports its zone. -/
def zoned (out : ComposeOutput) : Script :=
  [fun _ => [applyRoot "app" "a", claimAll "b" "app" .reconcile], composes "app" noGrace leafFinalizer out,
    fun _ => drainRechecks ++ [claimAll "b" "net" .reconcile], returns "net" inZone]

/-- The zone as written at `path`. -/
def zoneAt (path : List String) (c : ChildSpec) : List Patch :=
  if c.kind = "vm" then [⟨path, .str "a"⟩] else []

/-- The same output again leaves the machine as it is, its zone included. -/
theorem recompose_keeps_children_zone : letI := counting
    let out := zoneOutput "/zone" (.obj []) (.obj [])
    let db := run Db.empty ((zoned out).play Db.empty)
    let env : ComposeEnv := ⟨id, id, fun _ _ => Scan.plain⟩
    let pol : ComposePolicy := ⟨fun kind _ => noGrace kind, fun kind _ => leafFinalizer kind⟩
    ∃ t ∈ db.tasks, ∃ db', applyComposeResult db env t out pol = some db' ∧
      (∃ e ∈ db.resources.rows, Emits t out e ∧ e.spec = .obj [("zone", .str "a")]) ∧
      ∀ e ∈ db.resources, Emits t out e → ∀ e' ∈ db'.resources, e'.id = e.id →
        e'.generation = e.generation ∧ e'.spec = e.spec := by
  intro out db env pol
  have facts : letI := counting
      ∃ t ∈ db.tasks, t.taskType = .reconcile ∧ (applyComposeResult db env t out pol).isSome = true ∧
        (∃ e ∈ db.resources.rows, (e.ownerId = some t.resourceId ∧ ∃ c ∈ out.children, c.ref = e.ref) ∧
          e.spec = .obj [("zone", .str "a")]) ∧
        FilledWith (zoneAt ["zone"]) db t.resourceId out ∧
        ∀ e ∈ db.resources.rows, rewrites out e = false := by
    decide +kernel
  obtain ⟨t, claimed, type, commits, ⟨e, here, ⟨owned, listed⟩, spec⟩, filled, unwritten⟩ := facts
  obtain ⟨db', done⟩ := isSome_iff_exists.mp commits
  refine ⟨t, claimed, db', done, ⟨e, here, ⟨owned, listed⟩, spec⟩, ?_⟩
  have reachable : @Reachable counting db := ⟨_, rfl⟩
  exact (@recompose_keeps_children counting _ _ _ _ _ _ reachable ⟨claimed, type⟩ done
    filled.filled).1.mpr fun e here _ _ => unwritten e here

/-- A compose of `out` over filled children writes one of them twice. -/
def Churns [Postgres] (db : Db) (out : ComposeOutput) : Prop :=
  ∃ t ∈ db.tasks, Filled db t.resourceId out ∧ ∃ db', applyComposeResult db
    ⟨id, id, fun _ _ => Scan.plain⟩ t out
    ⟨fun kind _ => noGrace kind, fun kind _ => leafFinalizer kind⟩ = some db' ∧
      ∃ e ∈ db.resources, Emits t out e ∧ ∃ e' ∈ db'.resources, e'.id = e.id ∧ e'.generation = e.generation + 2

theorem Churns.of_rows [Postgres] {db : Db} {out : ComposeOutput} (values : ChildSpec → List Patch)
    (rows : ∃ t ∈ db.tasks, FilledWith values db t.resourceId out ∧
      ((applyComposeResult db ⟨id, id, fun _ _ => Scan.plain⟩ t out
        ⟨fun kind _ => noGrace kind, fun kind _ => leafFinalizer kind⟩).any fun db' =>
          decide (∃ e ∈ db.resources.rows, (e.ownerId = some t.resourceId ∧ ∃ c ∈ out.children, c.ref = e.ref) ∧
              ∃ e' ∈ db'.resources.rows, e'.id = e.id ∧ e'.generation = e.generation + 2)) = true) :
    Churns db out := by
  obtain ⟨t, claimed, filled, written⟩ := rows
  obtain ⟨db', done, row⟩ := any_eq_true _ _ |>.mp written
  obtain ⟨e, here, ⟨owned, listed⟩, e', after, same, generation⟩ := of_decide_eq_true row
  exact ⟨t, claimed, filled.filled, db', done, e, here, ⟨owned, listed⟩, e', after, same, generation⟩

/-- The machine has its zone in place.  With one more label it is written twice, the first
time without its zone; and where the zone is the first of a list, the same output again
writes it twice as well. -/
theorem recompose_churns : letI := counting
    (let out := zoneOutput "/zone" (.obj []) (.obj [])
      let db := run Db.empty ((zoned out).play Db.empty)
      Reachable db ∧ Churns db (zoneOutput "/zone" (.obj []) (.obj [("team", .str "b")]))) ∧
    (let out := zoneOutput "/zones/0" (.obj [("zones", .arr [.null])]) (.obj [])
      let db := run Db.empty ((zoned out).play Db.empty)
      Reachable db ∧ Churns db out) := by
  refine ⟨⟨⟨_, rfl⟩, ?_⟩, ⟨_, rfl⟩, ?_⟩
  · apply @Churns.of_rows counting _ _ (zoneAt ["zone"])
    decide +kernel
  · apply @Churns.of_rows counting _ _ (zoneAt ["zones", "0"])
    decide +kernel

end Converge.Kernel
