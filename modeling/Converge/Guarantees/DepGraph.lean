/-
# Guarantees.DepGraph -- the stored edges are those the last compose emitted

Three things are meant to hold of `resource_deps`: no cycle, both ends under one owner, and
after a compose of a parent exactly the emitted edges among its children, with the emitted
flows.

The first holds in every reachable state (`Reachable.deps_acyclic`).  The others fail with one
compose: it resolves its edges before it prunes, and the deletion request of a dropped child
sweeps marked rows away, emitted children included.  The edges of such a child are written
after the trigger that clears edges has run, and stay without their row (`edge_outlives_row`).

A compose keeps the graph if no end of an emitted edge is such a row (`KeepsEnds`): nothing is
requested to be deleted, or the row has a finalizer to run, or no request reaches it.
-/
import Converge.Kernel.DepOrder
import Converge.Kernel.Flows
import Converge.Guarantees.ComposeEmitted

namespace Converge.Kernel

open Converge.Theory List Table

set_option autoImplicit false
set_option linter.unusedSectionVars false

section DepGraph

variable [Postgres] {db db' : Db} {id : Uuid}

/-! ## What is emitted is written -/

/-- An upsert of edges loses none and writes those declared. -/
theorem batchUpsertDeps_has {decls : List ResourceDep} (done : batchUpsertDeps db decls = some db')
    {ends : Uuid × Uuid} (known : (∃ e ∈ db.deps, e.ends = ends) ∨ ∃ p ∈ decls, p.ends = ends) :
    ∃ d ∈ db'.deps, d.ends = ends := by
  unfold batchUpsertDeps at done
  split at done
  · cases done
    simp only
    generalize db.deps = table at known ⊢
    clear * - known
    induction decls generalizing table with
    | nil => exact known.resolve_right (by simp)
    | cons p rest ih =>
      refine ih _ ?_
      have kept {e : ResourceDep} (here : e ∈ table) : ∃ e' ∈ (table.updateWhere
          (fun d => d.ends = p.ends) (fun d => { d with valueFlows := p.valueFlows })
          (fun _ => rfl)).insertNew p, e'.ends = e.ends := by
        refine ⟨_, mem_insertNew.mpr (.inl (mem_updateWhere.mpr ⟨e, here, rfl⟩)), ?_⟩
        split <;> rfl
      rcases known with ⟨e, here, same⟩ | ⟨q, listed, same⟩
      · obtain ⟨e', after, ends⟩ := kept here
        exact .inl ⟨e', after, ends.trans same⟩
      · rcases mem_cons.mp listed with rfl | later
        · by_cases taken : Table.Occupied (table.updateWhere (fun d => d.ends = q.ends)
              (fun d => { d with valueFlows := q.valueFlows }) (fun _ => rfl)) q
          · obtain ⟨b, stored, clash⟩ := taken
            exact .inl ⟨b, mem_insertNew.mpr (.inl stored), Eq.trans clash same⟩
          · exact .inl ⟨q, mem_insertNew.mpr (.inr ⟨rfl, taken⟩), same⟩
        · exact .inr ⟨q, later, same⟩
  · cases done

theorem applyEdges_has {parent : Uuid} {produced : List ResourceDep}
    (done : applyEdges db parent produced = some db') {p : ResourceDep} (listed : p ∈ produced) :
    ∃ d ∈ db'.deps, d.ends = p.ends := by
  unfold applyEdges at done
  split at done
  · cases done
  · refine batchUpsertDeps_has done ?_
    by_cases declared : p ∈ depDecls db parent produced
    · exact .inr ⟨p, declared, rfl⟩
    · -- not declared: an edge of these ends is stored, and the prune leaves it
      have stored : ∃ d ∈ db.deps, d.ends = p.ends := by
        by_contra none
        refine declared (mem_filter.mpr ⟨listed, ?_⟩)
        rw [Bool.not_eq_true', any_eq_false]
        intro d here same
        simp only [Bool.and_eq_true, decide_eq_true_eq] at same
        exact none ⟨d, here, same.1.2⟩
      obtain ⟨d, here, same⟩ := stored
      refine .inl ⟨d, mem_deleteWhere.mpr ⟨here, ?_⟩, same⟩
      rw [same, decide_eq_false (not_not.mpr (mem_map.mpr ⟨p, listed, rfl⟩)), Bool.and_false]

theorem refToId_inj {parent : Uuid} {children : List ChildSpec} {ref ref' : ResourceRef}
    (found : refToId db parent children ref = some id)
    (found' : refToId db parent children ref' = some id) : ref = ref' := by
  obtain ⟨-, r, here, same, name, -⟩ := refToId_row found
  obtain ⟨-, s, there, same', name', -⟩ := refToId_row found'
  obtain rfl := eq_of_pk resource_primary here there (same.trans same'.symm)
  exact name.symm.trans name'

/-! ## Rows a deletion request spares -/

/-- The finalizers a row has once it is marked. -/
def markedFinalizers (db : Db) (r : Resource) : List String :=
  if r.marked then r.finalizers else (markRow db r).finalizers

/-- The row is there, and has a finalizer to run before it goes. -/
def Guarded (db : Db) (id : Uuid) : Prop :=
  ∃ r ∈ db.resources, r.id = id ∧ markedFinalizers db r ≠ []

theorem Guarded.congr (rows : db'.resources = db.resources) (configs : db'.kindConfig = db.kindConfig)
    (guarded : Guarded db id) : Guarded db' id := by
  obtain ⟨r, here, same, open_⟩ := guarded
  refine ⟨r, rows ▸ here, same, ?_⟩
  unfold markedFinalizers markRow Db.kindFinalizer Db.kindConfig? at open_ ⊢
  rwa [configs]

theorem Guarded.draining {r : Resource} (here : r ∈ db.resources) (marked : r.marked = true)
    (open_ : markedFinalizers db r ≠ []) : Draining db r.id := by
  rw [markedFinalizers, if_pos marked] at open_
  exact ⟨r, here, rfl, marked, by simpa using open_⟩

theorem Draining.guarded (draining : Draining db id) : Guarded db id := by
  obtain ⟨r, here, same, marked, open_⟩ := draining
  refine ⟨r, here, same, ?_⟩
  rw [markedFinalizers, if_pos marked]
  simpa using open_

theorem SweepStep.guarded (step : SweepStep db db') (guarded : Guarded db id) : Guarded db' id := by
  obtain ⟨r, here, rfl, open_⟩ := guarded
  by_cases marked : r.marked = true
  · exact (step.draining (Guarded.draining here marked open_)).guarded
  · cases step with
    | mark seed =>
      rw [markedFinalizers, if_neg marked] at open_
      refine ⟨_, mem_markRows.mpr ⟨r, here, rfl⟩, ?_⟩
      split
      · refine ⟨rfl, ?_⟩
        rwa [markedFinalizers, if_pos (show (markRow db r).marked = true from rfl)]
      · refine ⟨rfl, ?_⟩
        rw [markedFinalizers, if_neg marked]
        exact open_
    | @schedule before seed =>
      have only := cascadeMark_only before seed
      exact Guarded.congr only.resources only.kindConfig ⟨r, here, rfl, open_⟩
    | enqueue scan n range =>
      have only := sweepEnqueue_only db scan n range
      exact Guarded.congr only.resources only.kindConfig ⟨r, here, rfl, open_⟩
    | remove scan n range =>
      rw [Bool.not_eq_true] at marked
      obtain ⟨⟨r', after, same⟩, -⟩ := live_swept.mpr ((live_of_mem here).mpr marked)
      refine ⟨r', after, same, ?_⟩
      obtain ⟨r₀, here₀, -, rfl | rfl⟩ := mem_deleteResources after
      · obtain rfl := eq_of_pk resource_primary here₀ here same
        exact open_
      · obtain rfl := eq_of_pk resource_primary here₀ here same
        exact open_

/-- What the deletion requests of the children `soft` leave of a row: there are none, or it has
a finalizer to run, or no mark reaches it. -/
def Spared (db : Db) (soft : List Resource) (r : Resource) : Prop :=
  soft = [] ∨ markedFinalizers db r ≠ [] ∨ r.marked = false ∧ ∀ e ∈ soft, r.id ∉ markTree db e.id
deriving Decidable

theorem softDelete_spares {scans : Uuid → Nat → Scan Uuid} {soft : List Resource} {r : Resource}
    (here : r ∈ db.resources) (spared : Spared db soft r) : Stored (softDelete db scans soft) r.id := by
  rcases spared with none | open_ | ⟨unmarked, apart⟩
  · rw [none]
    exact ⟨r, here, rfl⟩
  · have kept := (softTrace_chain scans soft db).induction (fun s => Guarded s r.id) _
      (fun _ _ step => step.guarded) (fun _ => ⟨r, here, rfl, open_⟩)
    have last := kept _ getLastD_mem_cons
    rw [softTrace_last] at last
    obtain ⟨r', after, same, -⟩ := last
    exact ⟨r', after, same⟩
  · have live : ∀ s ∈ db :: softTrace scans soft db, Live s r.id :=
      softTrace_live ((live_of_mem here).mpr unmarked)
        fun e listed path => apart e listed (mem_markTree.mpr path)
    have last := live _ getLastD_mem_cons
    rw [softTrace_last] at last
    exact last.1

/-! ## The graph after a compose -/

/-- A stored child of `parent` with this reference. -/
def ChildNamed (db : Db) (parent : Uuid) (ref : ResourceRef) (id : Uuid) : Prop :=
  ∃ r ∈ db.resources, r.id = id ∧ r.ref = ref ∧ r.ownerId = some parent

/-- The edges whose dependent is a child of `parent` are `edges`, with their flows. -/
structure WiredAs (db : Db) (parent : Uuid) (edges : List DepEdge) : Prop where
  emitted : ∀ e ∈ edges, ∃ d ∈ db.deps, d.valueFlows = e.values ∧
    ChildNamed db parent e.dependent d.dependentId ∧
    ChildNamed db parent e.dependency d.dependencyId
  only : ∀ d ∈ db.deps, (∃ r ∈ db.resources, r.id = d.dependentId ∧ r.ownerId = some parent) →
    ∃ e ∈ edges, d.valueFlows = e.values ∧ ChildNamed db parent e.dependent d.dependentId ∧
      ChildNamed db parent e.dependency d.dependencyId

/-- Both ends of every edge are stored. -/
def EndsStored (db : Db) : Prop := ∀ d ∈ db.deps, Stored db d.dependentId ∧ Stored db d.dependencyId

/-- The rows that the emitted edges name are spared by the deletion requests of the compose. -/
def ComposeKeepsEnds (db : Db) (env : ComposeEnv) (t : WorkTask) (out : ComposeOutput)
    (pol : ComposePolicy) : Prop :=
  ∀ upserted ∈ upsertedBy db env t out, ∀ r ∈ upserted.resources, r.ownerId = some t.resourceId →
    (∃ e ∈ out.edges, e.dependent = r.ref ∨ e.dependency = r.ref) →
      Spared upserted (softStale pol (droppedBy db env t out)) r
deriving Decidable

theorem Effects.endsStored {allow : Label → Prop} (run : Effects allow db db')
    (kept : ¬ allow .rewire) (stored : EndsStored db) : EndsStored db' := by
  intro d listed
  obtain ⟨⟨e, here, dependent, dependency⟩, staysA, staysB⟩ := run.edge kept ⟨d, listed, rfl, rfl⟩
  obtain ⟨storedA, storedB⟩ := stored e here
  exact ⟨staysA (dependent ▸ storedA), staysB (dependency ▸ storedB)⟩

section Stages

variable {env : ComposeEnv} {t : WorkTask} {out : ComposeOutput} {pol : ComposePolicy}
  {parent r : Resource} {upserted wired : Db} {produced : List ResourceDep}
  {own : Uuid → Option Uuid}
  (stages : ComposeStages db env t out pol parent upserted produced wired)

include stages

theorem ComposeStages.spared_stored (named : Named db) (lineage : Lineage db own)
    (here : r ∈ upserted.resources) (emits : Emits t out r)
    (spared : Spared upserted (softStale pol (droppedBy db env t out)) r) :
    Stored (composeChildren upserted env pol
      (shuffle env.childOrder (existingChildren db parent.id)) out) r.id := by
  have soft : Stored (softDelete upserted env.scans (softStale pol (droppedBy db env t out))) r.id :=
    softDelete_spares here spared
  have graced : Stored (gracedBy upserted env.scans pol (droppedBy db env t out)) r.id :=
    Effects.mild_stored ((markChildrenOrphaned_effects _ _ _).mono fun _ => Label.Calm.mild) soft
  have pruned : Stored (pruneChildren upserted env.scans pol (droppedBy db env t out)) r.id :=
    stored_deleteResources.mpr ⟨graced, stages.emitted_stays named lineage here emits⟩
  rw [composeChildren, stages.dropped_eq]
  exact Effects.mild_stored ((clearOrphanMarks_effects _ _ _).mono fun _ => Label.Calm.mild) pruned

theorem ComposeStages.end_stored (named : Named db) (lineage : Lineage db own)
    (keeps : ComposeKeepsEnds db env t out pol) {e : DepEdge} (listed : e ∈ out.edges)
    {ref : ResourceRef} (isEnd : e.dependent = ref ∨ e.dependency = ref)
    (found : refToId upserted parent.id out.children ref = some id) : Stored wired id := by
  obtain ⟨emitted, r, here, rfl, rfl, owned⟩ := refToId_row found
  rw [stages.parent_id] at owned
  have spared := keeps upserted stages.upserted_eq r here owned ⟨e, listed, isEnd⟩
  rw [Stored, applyEdges_resources stages.wire]
  exact stages.spared_stored named lineage here ⟨owned, emitted⟩ spared

theorem ComposeStages.ends_stored (named : Named db) (lineage : Lineage db own)
    (keeps : ComposeKeepsEnds db env t out pol) (stored : EndsStored db) : EndsStored wired := by
  have pruned := Effects.endsStored stages.prune_effects (fun h => h)
    (Effects.endsStored stages.upsert_effects (fun h => h rfl) stored)
  intro d listed
  rcases applyEdges_mem stages.wire listed with ⟨p, mem, ends, -⟩ | ⟨old, -⟩
  · obtain ⟨e, emitted, resolves⟩ := resolveEdges_mem stages.resolve mem
    obtain ⟨dependent, dependency⟩ := ends_eq ends
    rw [← dependent, ← dependency]
    exact ⟨stages.end_stored named lineage keeps emitted (.inl rfl) resolves.dependent,
      stages.end_stored named lineage keeps emitted (.inr rfl) resolves.dependency⟩
  · rw [Stored, Stored, applyEdges_resources stages.wire]
    exact pruned d old

theorem ComposeStages.named_after (named : Named db) (wrote : Effects Label.Wrote wired db')
    {ref : ResourceRef} (found : refToId upserted parent.id out.children ref = some id)
    (stored : Stored wired id) : ChildNamed db' t.resourceId ref id := by
  obtain ⟨-, r, here, rfl, rfl, owned⟩ := refToId_row found
  obtain ⟨r', after, same⟩ := Effects.mild_stored (wrote.mono fun _ => Label.Wrote.mild) stored
  have all : Effects (fun _ => True) upserted db' :=
    stages.rest_effects (fun _ _ => trivial) (fun _ _ => trivial) trivial wrote
  obtain ⟨r₀, here₀, same₀, row⟩ := Effects.tracks respects_sameRow all after
    (same ▸ stages.named_upserted named r here)
  obtain rfl := eq_of_pk resource_primary here₀ here (same₀.trans same)
  refine ⟨r', after, same, ?_, ?_⟩
  · rw [Resource.ref, Resource.ref, row.kind, row.name]
  · rw [row.ownerId, owned, stages.parent_id]

theorem ComposeStages.edge_emitted {d : ResourceDep} (listed : d ∈ wired.deps)
    (child : ∃ r ∈ wired.resources, r.id = d.dependentId ∧ r.ownerId = some t.resourceId) :
    ∃ p ∈ produced, (p.ends = d.ends ∧ p.valueFlows = d.valueFlows) ∧
      ∃ e ∈ out.edges, Resolves (refToId upserted parent.id out.children) e p := by
  obtain ⟨r, here, same, owned⟩ := child
  rw [applyEdges_resources stages.wire] at here
  rw [← stages.parent_id] at owned
  obtain ⟨p, mem, facts⟩ := applyEdges_flows stages.wire listed (depsByOwner_of_mem here same owned)
  exact ⟨p, mem, facts, resolveEdges_mem stages.resolve mem⟩

/-- **A compose that keeps its ends leaves exactly the edges it emits.** -/
theorem ComposeStages.wiredAs (named : Named db) (lineage : Lineage db own)
    (keeps : ComposeKeepsEnds db env t out pol) (wrote : Effects Label.Wrote wired db')
    (edges : db'.deps = wired.deps) (once : (out.edges.map fun e => (e.dependent, e.dependency)).Nodup) :
    WiredAs db' t.resourceId out.edges := by
  have names {e : DepEdge} (emitted : e ∈ out.edges) {p : ResourceDep}
      (resolves : Resolves (refToId upserted parent.id out.children) e p) :
      (Stored wired p.dependentId ∧ ChildNamed db' t.resourceId e.dependent p.dependentId) ∧
        ChildNamed db' t.resourceId e.dependency p.dependencyId := by
    have storedA := stages.end_stored named lineage keeps emitted (.inl rfl) resolves.dependent
    have storedB := stages.end_stored named lineage keeps emitted (.inr rfl) resolves.dependency
    exact ⟨⟨storedA, stages.named_after named wrote resolves.dependent storedA⟩,
      stages.named_after named wrote resolves.dependency storedB⟩
  have namedWired : Named wired :=
    Steps.keeps (fun _ effect => effect.named) (stages.effects (Composable.plain db)) named
  have back {r' : Resource} (after : r' ∈ db'.resources) (drawn : wired.Drawn r'.id)
      (owned : r'.ownerId = some t.resourceId) :
      ∃ r ∈ wired.resources, r.id = r'.id ∧ r.ownerId = some t.resourceId := by
    obtain ⟨r, here, same, row⟩ := Effects.tracks respects_sameRow wrote after drawn
    exact ⟨r, here, same, row.ownerId.symm.trans owned⟩
  constructor
  · intro e emitted
    obtain ⟨p, mem, resolves⟩ := forall₂_left (resolveEdges_each stages.resolve) emitted
    obtain ⟨⟨⟨r, here, same⟩, childA⟩, childB⟩ := names emitted resolves
    obtain ⟨d, listed, ends⟩ := applyEdges_has stages.wire mem
    obtain ⟨dependent, dependency⟩ := ends_eq ends
    obtain ⟨r', after, same', -, owned'⟩ := childA
    have child := back after (same' ▸ same ▸ namedWired r here) owned'
    rw [same', ← dependent] at child
    obtain ⟨p', mem', ⟨ends', flows⟩, -⟩ := stages.edge_emitted listed child
    have distinct := (resolveEdges_nodup (fun _ _ _ => refToId_inj) stages.resolve).mp once
    obtain rfl : p' = p := inj_on_of_nodup_map distinct mem' mem (ends'.trans ends)
    refine ⟨d, edges ▸ listed, flows.symm.trans resolves.flows, ?_⟩
    rw [dependent, dependency]
    exact ⟨(names emitted resolves).1.2, childB⟩
  · rintro d listed ⟨r', after, same, owned⟩
    rw [edges] at listed
    have drawn : wired.Drawn r'.id := by
      obtain ⟨own', ⟨-, lineageW⟩, -⟩ := stages.lineage named lineage
      obtain ⟨p, dependent, -⟩ := lineageW.edges d listed
      rw [same]
      exact lineageW.drawn _ _ dependent
    have child := back after drawn owned
    rw [same] at child
    obtain ⟨p, -, ⟨ends, flows⟩, e, emitted, resolves⟩ := stages.edge_emitted listed child
    obtain ⟨⟨-, childA⟩, childB⟩ := names emitted resolves
    obtain ⟨dependent, dependency⟩ := ends_eq ends
    refine ⟨e, emitted, flows.symm.trans resolves.flows, ?_⟩
    rw [← dependent, ← dependency]
    exact ⟨childA, childB⟩

end Stages

/-! ## Over a run -/

/-- No cycle, and every edge between two stored children of one owner. -/
structure SoundDeps (db : Db) : Prop where
  acyclic : Blocking.Acyclic (HasEdge db)
  siblings : ∀ d ∈ db.deps, ∃ r ∈ db.resources, ∃ s ∈ db.resources,
    r.id = d.dependentId ∧ s.id = d.dependencyId ∧ ∃ p, r.ownerId = some p ∧ s.ownerId = some p

/-- If the step is a compose, it spares the rows its edges name. -/
def KeepsEnds (db : Db) : Action → Prop
  | .applyComposeResult env t out pol => ComposeKeepsEnds db env t out pol
  | _ => True

instance (db : Db) (a : Action) : Decidable (KeepsEnds db a) := by
  induction a using Action.casesOn <;> dsimp only [KeepsEnds] <;> infer_instance

/-- The graph is sound after the step, and, if the step is a compose that commits and emits no
pair twice, among the children of its parent the one emitted. -/
structure DepsFollow (db : Db) (a : Action) : Prop where
  sound : SoundDeps (step db a)
  wired : ∀ env t out pol, a = .applyComposeResult env t out pol →
    t ∈ db.tasks → t.taskType = .reconcile → (applyComposeResult db env t out pol).isSome →
    (out.edges.map fun e => (e.dependent, e.dependency)).Nodup → WiredAs (step db a) t.resourceId out.edges

theorem Reachable.soundDeps (reachable : Reachable db) (stored : EndsStored db) : SoundDeps db := by
  refine ⟨reachable.deps_acyclic, fun d listed => ?_⟩
  obtain ⟨own, lineage⟩ := reachable.lineage
  obtain ⟨⟨r, here, same⟩, s, there, same'⟩ := stored d listed
  obtain ⟨p, ownA, ownB⟩ := lineage.edges d listed
  refine ⟨r, here, s, there, same, same', p, ?_, ?_⟩
  · rw [lineage.rows r here, same, ownA]
  · rw [lineage.rows s there, same', ownB]

/-- What a committed compose leaves of the graph. -/
theorem compose_graph {env : ComposeEnv} {t : WorkTask} {out : ComposeOutput} {pol : ComposePolicy}
    (reachable : Reachable db) (claimed : t ∈ db.tasks)
    (done : applyComposeResult db env t out pol = some db') (keeps : ComposeKeepsEnds db env t out pol)
    (stored : EndsStored db) : EndsStored db' ∧ ((out.edges.map fun e => (e.dependent, e.dependency)).Nodup →
      WiredAs db' t.resourceId out.edges) := by
  obtain ⟨own, lineage⟩ := reachable.lineage
  obtain ⟨parent, upserted, produced, wired, flowed, stages, flow, ⟨-, edges⟩, calm⟩ :=
    applyComposeResult_flows claimed done
  have wrote : Effects Label.Wrote wired db' :=
    (applyValueFlows_effects (.wrote wired) flow).trans (calm.mono fun _ => Label.Calm.wrote)
  refine ⟨?_, fun once => ?_⟩
  · exact wrote.endsStored (fun h => h) (stages.ends_stored reachable.named lineage keeps stored)
  · exact stages.wiredAs reachable.named lineage keeps wrote (edges.trans (patchSpecs_deps flow)) once

theorem step_graph (reachable : Reachable db) {a : Action} (keeps : KeepsEnds db a)
    (stored : EndsStored db) : EndsStored (step db a) ∧ DepsFollow db a := by
  suffices graph : EndsStored (step db a) ∧ ∀ env t out pol, a = .applyComposeResult env t out pol →
      t ∈ db.tasks → t.taskType = .reconcile → (applyComposeResult db env t out pol).isSome →
      (out.edges.map fun e => (e.dependent, e.dependency)).Nodup →
        WiredAs (step db a) t.resourceId out.edges from
    ⟨graph.1, (reachable.step a).soundDeps graph.1, graph.2⟩
  by_cases rooted : a.Rooted
  · refine ⟨(step_rooted db rooted).endsStored (fun h => h) stored, ?_⟩
    rintro env t out pol rfl
    exact rooted.elim
  · cases a with
    | applyComposeResult env t out pol =>
      change EndsStored (submitCompose db env t out pol) ∧ _
      unfold submitCompose
      split
      next held =>
        cases done : applyComposeResult db env t out pol with
        | none => exact ⟨stored, by rintro _ _ _ _ ⟨⟩ - - some; simp [done] at some⟩
        | some db' =>
          obtain ⟨ends, wired⟩ := compose_graph reachable held.1 done keeps stored
          refine ⟨ends, ?_⟩
          rintro _ _ _ _ ⟨⟩ - - - once
          have result : step db (.applyComposeResult env t out pol) = db' := by
            change submitCompose db env t out pol = db'
            rw [submitCompose, if_pos held, done]
            rfl
          rw [result]
          exact wired once
      next idle =>
        refine ⟨stored, ?_⟩
        rintro _ _ _ _ ⟨⟩ claimed type
        exact absurd ⟨claimed, type⟩ idle
    | _ => exact absurd trivial rooted

theorem run_graph {actions : List Action} (reachable : Reachable db)
    (along : Along KeepsEnds db actions) (stored : EndsStored db) : Along DepsFollow db actions := by
  induction actions generalizing db with
  | nil => trivial
  | cons a rest ih =>
    obtain ⟨next, follows⟩ := step_graph reachable along.1 stored
    exact ⟨follows, ih (reachable.step a) along.2 next⟩

/-- **The stored edges never form a cycle; and in a run whose composes spare the rows their edges
name, every edge joins two children of one owner, and every compose leaves those it emits.** -/
theorem edges_as_emitted : (∀ db, Reachable db → Blocking.Acyclic (HasEdge db)) ∧
      ∀ actions, Along KeepsEnds Db.empty actions → Along DepsFollow Db.empty actions := by
  refine ⟨fun db reachable => reachable.deps_acyclic, fun actions along => ?_⟩
  exact run_graph .empty along fun d listed => absurd listed (notMem_empty d)

end DepGraph

/-- A root with a network and a machine that depends on it moves the machine to a disk, and
drops the network.  The machine is marked with the network, and stays for its finalizer. -/
def moved : List Action :=
  composing "app" noGrace (· ++ "/destroy")
    ⟨[child "vm" "v", child "disk" "d"], [⟨⟨"vm", "v"⟩, ⟨"disk", "d"⟩, []⟩], []⟩ (rebuilt networkTree)

theorem edges_as_emitted_moved : letI := counting
    Along DepsFollow Db.empty moved ∧ (run Db.empty networkTree).deps.rows.map (·.ends) = [(3, 2)] ∧
        (run Db.empty moved).deps.rows.map (·.ends) = [(3, 4)] := by
  have facts : letI := counting
      Along KeepsEnds Db.empty moved ∧ (run Db.empty networkTree).deps.rows.map (·.ends) = [(3, 2)] ∧
          (run Db.empty moved).deps.rows.map (·.ends) = [(3, 4)] := by
    decide +kernel
  exact ⟨(@edges_as_emitted counting).2 moved facts.1, facts.2⟩

def remounting : ComposeOutput :=
  ⟨[child "mount" "m", child "disk" "d"], [⟨⟨"mount", "m"⟩, ⟨"disk", "d"⟩, []⟩], []⟩

/-- A mount has no finalizer: it is gone when the compose commits, and its new edge is there. -/
theorem edge_outlives_row : letI := counting
    let before := run Db.empty (rebuilt mountTree)
    let after := run Db.empty (composing "app" noGrace leafFinalizer remounting (rebuilt mountTree))
    (before.deps.rows.map (·.ends) = [(3, 2)] ∧ after.deps.rows.map (·.ends) = [(3, 4)]) ∧
      ¬ SoundDeps after ∧ ¬ WiredAs after 0 remounting.edges := by
  intro before after
  have facts : (before.deps.rows.map (·.ends) = [(3, 2)] ∧ after.deps.rows.map (·.ends) = [(3, 4)]) ∧
      (∃ d ∈ after.deps.rows, d.dependentId = 3) ∧
        (∀ d ∈ after.deps.rows, d.dependentId = 3) ∧ ∀ r ∈ after.resources.rows, r.id ≠ 3 := by
    decide +kernel
  obtain ⟨moved, ⟨d, listed, mount⟩, all, gone⟩ := facts
  refine ⟨moved, fun sound => ?_, fun wired => ?_⟩
  · obtain ⟨r, here, -, -, same, -⟩ := sound.siblings d listed
    exact gone r here (same.trans mount)
  · obtain ⟨d', listed', -, ⟨r, here, same, -⟩, -⟩ :=
      wired.emitted _ (mem_singleton.mpr rfl : _ ∈ remounting.edges)
    exact gone r here (same.trans (all d' listed'))

end Converge.Kernel
