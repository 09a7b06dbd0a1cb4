/-
# Kernel.Graph -- the forest of owners, and edges between siblings

Edges carry no foreign key, so an edge may name a row that is gone: a compose resolves
its edges before it prunes and writes them after.  What still holds of every edge is
said of ids and not of rows.  `Lineage` remembers for each id the owner its row was
inserted under: the rows that are left agree with it, both ends of an edge have one
owner, and an owner is drawn before what it owns.

Every reachable state has a lineage (`Reachable.lineage`).  So owners form a forest, a
root has no edges, and a mark that starts at a child never climbs to its parent.

A DELETE cascades, so the owner of a stored row is stored, and the root a row names is
that of its owner (`Reachable.family`).
-/
import Converge.Kernel.Teardown

namespace Converge.Kernel

open Converge.Theory List Table Option

set_option autoImplicit false
set_option linter.unusedSectionVars false

variable [Postgres] {db db' : Db} {own : Uuid → Option Uuid}
variable {children : List ChildSpec} {produced decls : List ResourceDep} {r : Resource} {d : ResourceDep}
    {a b c id parent root : Uuid}

/-! ## Ids in the order they were drawn -/

def Earlier (a b : Uuid) : Prop :=
  ∃ m n, m < n ∧ Postgres.randomUuid m = a ∧ Postgres.randomUuid n = b

theorem Earlier.trans (ab : Earlier a b) (bc : Earlier b c) : Earlier a c := by
  obtain ⟨m, n, lt, rfl, rfl⟩ := ab
  obtain ⟨n', k, lt', same, rfl⟩ := bc
  obtain rfl := Postgres.randomUuid_injective same
  exact ⟨m, k, lt.trans lt', rfl, rfl⟩

theorem Earlier.irrefl (a : Uuid) : ¬ Earlier a a := by
  rintro ⟨m, n, lt, rfl, same⟩
  obtain rfl := Postgres.randomUuid_injective same
  exact Nat.lt_irrefl _ lt

theorem Earlier.wellFounded : WellFounded Earlier := by
  have drawn : ∀ n, Acc Earlier (Postgres.randomUuid n) := by
    intro n
    induction n using Nat.strong_induction_on with
    | _ n ih =>
      refine Acc.intro _ ?_
      rintro a ⟨m, k, lt, rfl, same⟩
      obtain rfl := Postgres.randomUuid_injective same
      exact ih m lt
  refine ⟨fun b => Acc.intro b ?_⟩
  rintro a ⟨m, n, lt, rfl, rfl⟩
  exact drawn m

theorem Db.Drawn.earlier (drawn : db.Drawn a) : Earlier a (Postgres.randomUuid db.drawn) := by
  obtain ⟨m, lt, rfl⟩ := drawn
  exact ⟨m, db.drawn, lt, rfl, rfl⟩

/-! ## Lineage -/

/-- `own` is the owner each id was inserted under, also of rows that are gone. -/
structure Lineage (db : Db) (own : Uuid → Option Uuid) : Prop where
  rows : ∀ r ∈ db.resources, r.ownerId = own r.id
  edges : ∀ d ∈ db.deps, ∃ p, own d.dependentId = some p ∧ own d.dependencyId = some p
  drawn : ∀ a b, own b = some a → db.Drawn b
  earlier : ∀ a b, own b = some a → Earlier a b

namespace Lineage

theorem empty : Lineage Db.empty fun _ => none where
  rows r here := absurd here (notMem_empty r)
  edges d here := absurd here (notMem_empty d)
  drawn _ _ h := by cases h
  earlier _ _ h := by cases h

theorem of_le (lineage : Lineage db own) (rows : ∀ r' ∈ db'.resources, ∃ r ∈ db.resources, SameRow r r')
    (edges : ∀ d' ∈ db'.deps, ∃ d ∈ db.deps, SameEnds d' d) (le : db.drawn ≤ db'.drawn) : Lineage db' own where
  rows r' after := by
    obtain ⟨r, here, same⟩ := rows r' after
    rw [same.ownerId, same.id]
    exact lineage.rows r here
  edges d' after := by
    obtain ⟨d, here, ends⟩ := edges d' after
    rw [ends.dependentId, ends.dependencyId]
    exact lineage.edges d here
  drawn a b h := (lineage.drawn a b h).mono le
  earlier := lineage.earlier

theorem insert (lineage : Lineage db own) (named : Named db) (born : Born db r)
    (free : ¬ db.resources.Occupied r) :
    Lineage { db with resources := db.resources.push r free, drawn := db.drawn + 1 }
      (Function.update own r.id r.ownerId) := by
  have new : ¬ db.Drawn r.id := by
    rw [born.id]
    exact not_drawn_next db
  have old {id : Uuid} (drawn : db.Drawn id) : Function.update own r.id r.ownerId id = own id := by
    refine Function.update_of_ne ?_ _ _
    rintro rfl
    exact new drawn
  refine ⟨fun s after => ?_, fun d here => ?_, fun a b h => ?_, fun a b h => ?_⟩
  · rcases (mem_push free).mp after with rfl | here
    · rw [Function.update_self]
    · rw [old (named s here)]
      exact lineage.rows s here
  · obtain ⟨p, dependent, dependency⟩ := lineage.edges d here
    rw [old (lineage.drawn _ _ dependent), old (lineage.drawn _ _ dependency)]
    exact ⟨p, dependent, dependency⟩
  · by_cases same : b = r.id
    · subst same
      exact ⟨db.drawn, Nat.lt_succ_self _, born.id.symm⟩
    · rw [Function.update_of_ne same] at h
      exact (lineage.drawn a b h).mono (Nat.le_succ _)
  · by_cases same : b = r.id
    · subst same
      rw [Function.update_self] at h
      obtain ⟨p, here, rfl, -⟩ := born.owner a h
      rw [born.id]
      exact (named p here).earlier
    · rw [Function.update_of_ne same] at h
      exact lineage.earlier a b h

end Lineage

/-- Only a rewiring may break the lineage; an insert extends it. -/
theorem Effect.lineage {l : Label} (kept : l ≠ .rewire) (effect : Effect l db db') (named : Named db)
    (lineage : Lineage db own) : ∃ own', Lineage db' own' ∧ ∀ id, db.Drawn id → own' id = own id := by
  have same (rows : ∀ r' ∈ db'.resources, ∃ r ∈ db.resources, SameRow r r')
      (edges : ∀ d' ∈ db'.deps, ∃ d ∈ db.deps, SameEnds d' d) :
      ∃ own', Lineage db' own' ∧ ∀ id, db.Drawn id → own' id = own id :=
    ⟨own, lineage.of_le rows edges effect.drawn_le, fun _ _ => rfl⟩
  have sameRow : ∀ r : Resource, SameRow r r := fun _ => ⟨rfl, rfl, rfl, rfl, rfl⟩
  cases effect with
  | aux core =>
    exact same (fun r h => ⟨r, core.resources ▸ h, sameRow r⟩) fun d h => ⟨d, core.deps ▸ h, .refl d⟩
  | insert r born free =>
    refine ⟨_, lineage.insert named born free, fun id drawn => Function.update_of_ne ?_ _ _⟩
    rintro rfl
    rw [born.id] at drawn
    exact not_drawn_next db drawn
  | row k p f keeps rows =>
    refine same (fun r' after => ?_) fun d h => ⟨d, h, .refl d⟩
    rw [mem_updateWhere] at after
    obtain ⟨r, here, rfl⟩ := after
    refine ⟨r, here, ?_⟩
    split
    · exact (rows r here (by assumption)).same
    · exact sameRow r
  | delete ids =>
    refine same (fun r' after => ?_) fun d h => ⟨d, (mem_deps_deleteResources.mp h).1, .refl d⟩
    obtain ⟨r, here, -, rfl | rfl⟩ := mem_deleteResources after
    · exact ⟨_, here, sameRow _⟩
    · exact ⟨r, here, rfl, rfl, rfl, rfl, rfl⟩
  | relabel t ends => exact same (fun r h => ⟨r, h, sameRow r⟩) ends
  | rewire t => exact absurd rfl kept
  | _ => exact same (fun r h => ⟨r, h, sameRow r⟩) fun d h => ⟨d, h, .refl d⟩

theorem Effects.lineage {allow : Label → Prop} (run : Effects allow db db') (kept : ¬ allow .rewire)
    (named : Named db) (lineage : Lineage db own) :
    ∃ own', Lineage db' own' ∧ ∀ id, db.Drawn id → own' id = own id := by
  refine (Steps.keeps (I := fun s => (Named s ∧ db.drawn ≤ s.drawn) ∧
    ∃ own', Lineage s own' ∧ ∀ id, db.Drawn id → own' id = own id) ?_ run
    ⟨⟨named, Nat.le_refl _⟩, own, lineage, fun _ _ => rfl⟩).2
  rintro l a b ok effect ⟨⟨named, le⟩, mid, before, agree⟩
  have noRewire : l ≠ .rewire := by
    rintro rfl
    exact kept ok
  obtain ⟨own', after, agree'⟩ := effect.lineage noRewire named before
  refine ⟨⟨effect.named named, le.trans effect.drawn_le⟩, own', after, fun id drawn => ?_⟩
  rw [agree' id (drawn.mono le), agree id drawn]

/-! ## The children of a compose -/

/-- A row a compose inserts for `c`. -/
structure Inserted (db : Db) (parent : Uuid) (c : ChildSpec) (r : Resource) : Prop where
  ref : r.ref = c.ref
  ownerId : r.ownerId = some parent
  unmarked : r.marked = false
  config : r.providerConfigId = none
  new : ¬ db.Drawn r.id

section

variable (done : children.foldlM (insertChild parent root) db = some db')

include done

theorem insertChildren_spec :
    ∃ rows t n, db' = { db with resources := t, drawn := n } ∧
      List.Forall₂ (Inserted db parent) children rows ∧ ∀ r, r ∈ t ↔ r ∈ rows ∨ r ∈ db.resources := by
  induction children generalizing db with
  | nil =>
    cases done
    exact ⟨[], _, _, rfl, .nil, fun r => by simp⟩
  | cons c rest ih =>
    obtain ⟨mid, each, later⟩ := bind_eq_some_iff.mp done
    obtain ⟨t, inserted, rfl⟩ := map_eq_some_iff.mp each
    obtain ⟨free, rfl⟩ := push_of_insert? inserted
    obtain ⟨rows, t, n, rfl, more, mem⟩ := ih later
    refine ⟨freshResource db (Postgres.randomUuid db.drawn) c.kind c.kindVersion c.name c.spec c.labels
      (some parent) (some root) none :: rows, t, n, rfl,
      .cons ⟨rfl, rfl, rfl, rfl, not_drawn_next db⟩ (more.imp fun _ _ r => ?_), fun r => ?_⟩
    · exact ⟨r.ref, r.ownerId, r.unmarked, r.config, fun drawn => r.new (drawn.mono (Nat.le_succ _))⟩
    · rw [mem, mem_push free, mem_cons]
      exact or_left_comm.trans or_assoc.symm

theorem insertChildren_mem
    (after : r ∈ db'.resources) : r ∈ db.resources ∨ ∃ c ∈ children, Inserted db parent c r := by
  obtain ⟨rows, t, n, rfl, each, mem⟩ := insertChildren_spec done
  exact ((mem r).mp after).symm.imp_right fun new => forall₂_right each new

theorem insertChildren_keeps
    (here : r ∈ db.resources) : r ∈ db'.resources := by
  obtain ⟨rows, t, n, rfl, -, mem⟩ := insertChildren_spec done
  exact (mem r).mpr (.inr here)

theorem insertChildren_row {c : ChildSpec}
    (listed : c ∈ children) : ∃ r ∈ db'.resources, Inserted db parent c r := by
  obtain ⟨rows, t, n, rfl, each, mem⟩ := insertChildren_spec done
  obtain ⟨r, new, row⟩ := forall₂_left each listed
  exact ⟨r, (mem r).mpr (.inl new), row⟩

end

/-! ## The edges of a compose -/

/-- An edge by id. -/
structure Resolves (refToId : ResourceRef → Option Uuid) (e : DepEdge) (p : ResourceDep) : Prop where
  dependent : refToId e.dependent = some p.dependentId
  dependency : refToId e.dependency = some p.dependencyId
  flows : p.valueFlows = e.values

section Resolve

variable {refToId : ResourceRef → Option Uuid} {edges : List DepEdge} {produced : List ResourceDep}

theorem resolveEdges_each (done : resolveEdges refToId edges = some produced) :
    List.Forall₂ (Resolves refToId) edges produced := by
  unfold resolveEdges at done
  induction edges generalizing produced with
  | nil =>
    cases done
    exact .nil
  | cons e rest ih =>
    rw [mapM_cons] at done
    obtain ⟨q, first, done⟩ := bind_eq_some_iff.mp done
    obtain ⟨later, others, done⟩ := bind_eq_some_iff.mp done
    cases done
    refine .cons ?_ (ih others)
    obtain ⟨dependent, found, first⟩ := bind_eq_some_iff.mp first
    obtain ⟨dependency, found', first⟩ := bind_eq_some_iff.mp first
    split at first
    · cases first
    · cases first
      exact ⟨found, found', rfl⟩

theorem resolveEdges_mem (done : resolveEdges refToId edges = some produced) {p : ResourceDep}
    (listed : p ∈ produced) : ∃ e ∈ edges, Resolves refToId e p :=
  forall₂_right (resolveEdges_each done) listed

theorem resolveEdges_nodup (inj : ∀ ref ref' id, refToId ref = some id → refToId ref' = some id → ref = ref')
    (done : resolveEdges refToId edges = some produced) :
    (edges.map fun e => (e.dependent, e.dependency)).Nodup ↔ (produced.map (·.ends)).Nodup := by
  let pairs (refs : ResourceRef × ResourceRef) (ends : Uuid × Uuid) : Prop :=
    refToId refs.1 = some ends.1 ∧ refToId refs.2 = some ends.2
  have unique : Relator.BiUnique pairs := by
    constructor
    · intro refs ends refs' one other
      exact Prod.ext (inj _ _ _ one.1 other.1) (inj _ _ _ one.2 other.2)
    · intro refs ends ends' one other
      exact Prod.ext (some.inj (one.1.symm.trans other.1)) (some.inj (one.2.symm.trans other.2))
  refine rel_nodup unique ?_
  rw [forall₂_map_left_iff, forall₂_map_right_iff]
  exact (resolveEdges_each done).imp fun _ _ resolves => ⟨resolves.dependent, resolves.dependency⟩

end Resolve

theorem refToId_row {ref : ResourceRef} (found : refToId db parent children ref = some id) :
    (∃ c ∈ children, c.ref = ref) ∧ ∃ r ∈ db.resources, r.id = id ∧ r.ref = ref ∧ r.ownerId = some parent := by
  unfold refToId at found
  split at found
  · rename_i emitted
    simp only [List.any_eq_true, decide_eq_true_eq] at emitted
    obtain ⟨r, kept, same⟩ := map_eq_some_iff.mp found
    obtain ⟨listed, owned⟩ := filter_eq_some_iff.mp kept
    obtain ⟨here, key⟩ := mem_of_lookup listed
    exact ⟨emitted, r, here, same, key, of_decide_eq_true owned⟩
  · cases found

theorem ends_eq {e : ResourceDep} (same : d.ends = e.ends) :
    d.dependentId = e.dependentId ∧ d.dependencyId = e.dependencyId :=
  ⟨congrArg Prod.fst same, congrArg Prod.snd same⟩

theorem depsByOwner_of_mem (here : r ∈ db.resources) (same : r.id = d.dependentId)
    (owned : r.ownerId = some parent) : depsByOwner db parent d = true := by
  rw [depsByOwner, ← same, Db.resource?, lookup_of_mem resource_primary here]
  exact decide_eq_true owned

theorem batchUpsertDeps_flows (done : batchUpsertDeps db decls = some db') (after : d ∈ db'.deps) :
    (∃ p ∈ decls, p.ends = d.ends ∧ p.valueFlows = d.valueFlows) ∨
      d ∈ db.deps ∧ ∀ p ∈ decls, p.ends ≠ d.ends := by
  unfold batchUpsertDeps at done
  split at done
  · cases done
    generalize db.deps = table at after ⊢
    clear * - after
    induction decls generalizing table with
    | nil => exact .inr ⟨after, by simp⟩
    | cons p rest ih =>
      rcases ih _ after with ⟨q, listed, same⟩ | ⟨here, other⟩
      · exact .inl ⟨q, .tail _ listed, same⟩
      · rcases mem_insertNew.mp here with old | ⟨rfl, -⟩
        · rw [mem_updateWhere] at old
          obtain ⟨e, before, rfl⟩ := old
          by_cases same : e.ends = p.ends
          · refine .inl ⟨p, .head _, ?_⟩
            rw [if_pos (decide_eq_true same)]
            exact ⟨same.symm, rfl⟩
          · rw [if_neg (by simpa using same)] at other ⊢
            refine .inr ⟨before, fun q listed => ?_⟩
            rcases mem_cons.mp listed with rfl | later
            · exact Ne.symm same
            · exact other q later
        · exact .inl ⟨_, .head _, rfl, rfl⟩
  · cases done

/-- After a compose an edge is an emitted one, with the emitted flows, or was there, of a row
that is no child of the parent. -/
theorem applyEdges_mem (done : applyEdges db parent produced = some db') (after : d ∈ db'.deps) :
    (∃ p ∈ produced, p.ends = d.ends ∧ p.valueFlows = d.valueFlows) ∨
      d ∈ db.deps ∧ depsByOwner db parent d = false := by
  unfold applyEdges at done
  split at done
  · cases done
  rcases batchUpsertDeps_flows done after with ⟨p, listed, same⟩ | ⟨kept, undeclared⟩
  · exact .inl ⟨p, mem_of_mem_filter listed, same⟩
  obtain ⟨here, stays⟩ := mem_deleteWhere.mp kept
  cases child : depsByOwner db parent d with
  | false => exact .inr ⟨here, rfl⟩
  | true =>
    rw [child, Bool.true_and, decide_eq_false_iff_not, not_not] at stays
    obtain ⟨p, listed, same⟩ := mem_map.mp stays
    refine .inl ⟨p, listed, same, ?_⟩
    -- not declared again: the edge stored has these flows already
    by_contra differs
    refine undeclared p (mem_filter.mpr ⟨listed, ?_⟩) same
    rw [Bool.not_eq_true', List.any_eq_false]
    intro e stored matches_
    simp only [Bool.and_eq_true, decide_eq_true_eq] at matches_
    obtain ⟨⟨-, ends⟩, flows⟩ := matches_
    obtain rfl := eq_of_clashes here stored (same.symm.trans ends.symm)
    exact differs flows.symm

theorem Lineage.wire (lineage : Lineage db own)
    (emitted : ∀ p ∈ produced, own p.dependentId = some parent ∧ own p.dependencyId = some parent)
    (done : applyEdges db parent produced = some db') : Lineage db' own := by
  have edges : ∀ d ∈ db'.deps, ∃ p, own d.dependentId = some p ∧ own d.dependencyId = some p := by
    intro d after
    rcases applyEdges_mem done after with ⟨p, listed, same, -⟩ | ⟨here, -⟩
    · obtain ⟨dependent, dependency⟩ := ends_eq same
      rw [← dependent, ← dependency]
      exact ⟨parent, emitted p listed⟩
    · exact lineage.edges d here
  obtain ⟨t, rfl⟩ := applyEdges_only done
  exact ⟨lineage.rows, edges, lineage.drawn, lineage.earlier⟩

section Compose

variable {env : ComposeEnv} {t : WorkTask} {out : ComposeOutput} {pol : ComposePolicy}
  {parent : Resource} {upserted wired : Db} {produced : List ResourceDep}
  (stages : ComposeStages db env t out pol parent upserted produced wired)

include stages

theorem ComposeStages.upsert_effects : Effects (· ≠ .rewire) db upserted := by
  have ok : Writable (· ≠ .rewire) db :=
    .of_all (fun l calm same => by subst same; exact calm) (fun h => by cases h) fun _ _ h => by cases h
  exact batchUpsertChildren_effects ok (fun h => by cases h) stages.present stages.upsert

theorem ComposeStages.prune_effects : Effects Label.Sweeps upserted (composeChildren upserted env pol
    (shuffle env.childOrder (existingChildren db parent.id)) out) :=
  (pruneChildren_effects _ _ _ _).trans ((clearOrphanMarks_effects _ _ _).mono fun _ => Label.Calm.sweeps)

/-- What follows the upsert: pruning, the edges, and what they let flow. -/
theorem ComposeStages.rest_effects {allow : Label → Prop} (sweeps : ∀ l, l.Sweeps → allow l)
    (writes : ∀ l, l.Wrote → allow l) (rewires : allow .rewire) (wrote : Effects Label.Wrote wired db') :
    Effects allow upserted db' :=
  (stages.prune_effects.mono sweeps).trans ((applyEdges_effects rewires stages.wire).trans (wrote.mono writes))

/-- The ends of an emitted edge are rows of the parent's children, as the upsert left
them. -/
theorem ComposeStages.ends {p : ResourceDep} (listed : p ∈ produced) :
    (∃ r ∈ upserted.resources, r.id = p.dependentId ∧ r.ownerId = some parent.id) ∧
      ∃ r ∈ upserted.resources, r.id = p.dependencyId ∧ r.ownerId = some parent.id := by
  obtain ⟨e, -, dependent, dependency, -⟩ := resolveEdges_mem stages.resolve listed
  obtain ⟨-, r, here, same, -, owned⟩ := refToId_row dependent
  obtain ⟨-, s, there, same', -, owned'⟩ := refToId_row dependency
  exact ⟨⟨r, here, same, owned⟩, s, there, same', owned'⟩

/-- The lineage before and after the edges of a compose is one, and it has the emitted
dependents under the parent. -/
theorem ComposeStages.lineage (named : Named db) (lineage : Lineage db own) :
    ∃ own', (Lineage (composeChildren upserted env pol
        (shuffle env.childOrder (existingChildren db parent.id)) out) own' ∧ Lineage wired own') ∧
      (∀ id, db.Drawn id → own' id = own id) ∧
      ∀ p ∈ produced, own' p.dependentId = some parent.id := by
  have upsert := stages.upsert_effects
  obtain ⟨mid, before, agree⟩ := upsert.lineage (fun h => h rfl) named lineage
  have namedMid : Named upserted := Steps.keeps (fun _ effect => effect.named) upsert named
  obtain ⟨own', after, agree'⟩ := stages.prune_effects.lineage (fun h => h) namedMid before
  have emitted : ∀ p ∈ produced,
      own' p.dependentId = some parent.id ∧ own' p.dependencyId = some parent.id := by
    intro p listed
    obtain ⟨⟨r, here, same, owned⟩, s, there, same', owned'⟩ := stages.ends listed
    have dependent := before.rows r here
    have dependency := before.rows s there
    rw [← agree' _ (namedMid r here), owned] at dependent
    rw [← agree' _ (namedMid s there), owned'] at dependency
    exact ⟨same ▸ dependent.symm, same' ▸ dependency.symm⟩
  refine ⟨own', ⟨after, after.wire emitted stages.wire⟩, fun id drawn => ?_, fun p h => (emitted p h).1⟩
  rw [agree' id (drawn.mono upsert.drawn_le), agree id drawn]

end Compose

theorem step_lineage (named : Named db) (lineage : Lineage db own) (a : Action) :
    ∃ own', Lineage (step db a) own' ∧ ∀ id, db.Drawn id → own' id = own id := by
  by_cases rooted : a.Rooted
  · exact (step_rooted db rooted).lineage (fun h => h) named lineage
  · cases a with
    | applyComposeResult env t out pol =>
      refine submitCompose_cases (P := fun s => ∃ own', Lineage s own' ∧ ∀ id, db.Drawn id → own' id = own id)
        ⟨own, lineage, fun _ _ => rfl⟩ fun last claimed done => ?_
      obtain ⟨parent, upserted, produced, wired, stages, wrote⟩ := applyComposeResult_parts claimed done
      obtain ⟨mid, ⟨-, before⟩, agree, -⟩ := stages.lineage named lineage
      have wires := stages.effects (Composable.plain db)
      obtain ⟨own', after, agree'⟩ := wrote.lineage (fun h => h)
        (Steps.keeps (fun _ effect => effect.named) wires named) before
      refine ⟨own', after, fun id drawn => ?_⟩
      rw [agree' id (drawn.mono wires.drawn_le), agree id drawn]
    | _ => exact absurd trivial rooted

theorem Reachable.lineage (reachable : Reachable db) : ∃ own, Lineage db own := by
  have both : Named db ∧ ∃ own, Lineage db own := by
    refine reachable.induction (I := fun s => Named s ∧ ∃ own, Lineage s own)
      ⟨fun r here => absurd here (notMem_empty r), _, .empty⟩ ?_
    rintro db a ⟨named, own, lineage⟩
    obtain ⟨own', after, -⟩ := step_lineage named lineage a
    exact ⟨Steps.keeps (fun _ effect => effect.named) (step_effects db a) named, own', after⟩
  exact both.2

/-! ## What a lineage forbids -/

/-- `b` is below `a` in the forest of owners. -/
def Below (own : Uuid → Option Uuid) : Uuid → Uuid → Prop :=
  Relation.TransGen fun a b => own b = some a

namespace Lineage

variable (lineage : Lineage db own)

include lineage

theorem below_earlier (below : Below own a b) : Earlier a b := by
  induction below with
  | single step => exact lineage.earlier _ _ step
  | tail _ step ih => exact ih.trans (lineage.earlier _ _ step)

theorem owns (owned : Owns db a b) : own b = some a := by
  obtain ⟨r, here, rfl, owner⟩ := owned
  rw [← lineage.rows r here, owner]

/-- What a mark spreads to stays below the owner of where it started: an edge leads to a
sibling, an owner to what it owns. -/
theorem below_spreads (below : Below own a b) (spreads : Spreads db b c) : Below own a c := by
  rcases spreads with owned | ⟨d, here, rfl, rfl⟩
  · exact below.tail (lineage.owns owned)
  · obtain ⟨p, dependent, dependency⟩ := lineage.edges d here
    obtain ⟨q, path, last⟩ := Relation.TransGen.tail'_iff.mp below
    obtain rfl := some.inj (last.symm.trans dependency)
    exact Relation.TransGen.tail'_iff.mpr ⟨q, path, dependent⟩

theorem below_path (below : Below own a b) (path : Relation.ReflTransGen (Spreads db) b c) : Below own a c := by
  induction path with
  | refl => exact below
  | tail _ step ih => exact lineage.below_spreads ih step

theorem never_climbs (owned : own b = some a) : ¬ Relation.ReflTransGen (Spreads db) b a := fun path =>
  Earlier.irrefl a (lineage.below_earlier (lineage.below_path (.single owned) path))

theorem sibling_stays {ids : List Uuid} {p : Uuid} (child : own id = some p)
    (others : ∀ s ∈ ids, own s = some p ∧ s ≠ id) : id ∉ cascaded db ids := by
  intro gone
  obtain ⟨s, named, -, path⟩ := mem_cascaded.mp gone
  obtain ⟨owned, ne⟩ := others s named
  rcases Relation.ReflTransGen.cases_tail path with same | ⟨q, above, last⟩
  · exact ne same.symm
  · obtain rfl := some.inj ((lineage.owns last).symm.trans child)
    exact lineage.never_climbs owned (Relation.ReflTransGen.mono (fun _ _ => Or.inl) _ _ above)

theorem root_edgeless (here : r ∈ db.resources) (root : r.ownerId = none) (listed : d ∈ db.deps) :
    d.dependentId ≠ r.id ∧ d.dependencyId ≠ r.id := by
  obtain ⟨p, dependent, dependency⟩ := lineage.edges d listed
  have none := (lineage.rows r here).symm.trans root
  constructor
  · intro same
    rw [same, none] at dependent
    cases dependent
  · intro same
    rw [same, none] at dependency
    cases dependency

end Lineage

/-! ## Roots -/

/-- Every row's owner is stored and in the same tree; a row without owner is a root. -/
structure Family (db : Db) : Prop where
  owner : ∀ r ∈ db.resources, ∀ o, r.ownerId = some o →
    ∃ p ∈ db.resources, p.id = o ∧ r.rootId = some (p.rootId.getD p.id)
  root : ∀ r ∈ db.resources, r.ownerId = none → r.rootId = none

namespace Family

theorem of_rows (family : Family db) (rows : ∀ r' ∈ db'.resources, ∃ r ∈ db.resources, SameRow r r')
    (owners : ∀ r' ∈ db'.resources, ∀ p ∈ db.resources, r'.ownerId = some p.id →
      ∃ p' ∈ db'.resources, SameRow p p') : Family db' where
  owner r' after o owned := by
    obtain ⟨r, here, same⟩ := rows r' after
    obtain ⟨p, stored, rfl, root⟩ := family.owner r here o (same.ownerId ▸ owned)
    obtain ⟨p', stored', row⟩ := owners r' after p stored owned
    refine ⟨p', stored', row.id, ?_⟩
    rw [same.rootId, root, row.rootId, row.id]
  root r' after top := by
    obtain ⟨r, here, same⟩ := rows r' after
    rw [same.rootId]
    exact family.root r here (same.ownerId ▸ top)

theorem insert (family : Family db) (born : Born db r) (free : ¬ db.resources.Occupied r) :
    Family { db with resources := db.resources.push r free, drawn := db.drawn + 1 } where
  owner s after o owned := by
    rcases (mem_push free).mp after with rfl | here
    · obtain ⟨p, stored, facts⟩ := born.owner o owned
      exact ⟨p, (mem_push free).mpr (.inr stored), facts⟩
    · obtain ⟨p, stored, facts⟩ := family.owner s here o owned
      exact ⟨p, (mem_push free).mpr (.inr stored), facts⟩
  root s after top := by
    rcases (mem_push free).mp after with rfl | here
    · exact born.root top
    · exact family.root s here top

theorem siblings (family : Family db) {s : Resource} (here : r ∈ db.resources) (there : s ∈ db.resources)
    {o : Uuid} (owned : r.ownerId = some o) (owned' : s.ownerId = some o) : r.rootId = s.rootId := by
  obtain ⟨p, stored, same, root⟩ := family.owner r here o owned
  obtain ⟨q, stored', same', root'⟩ := family.owner s there o owned'
  obtain rfl := eq_of_pk resource_primary stored stored' (same.trans same'.symm)
  rw [root, root']

theorem owned (family : Family db) (here : r ∈ db.resources)
    (rooted : r.rootId = some id) : r.ownerId ≠ none := by
  intro top
  rw [family.root r here top] at rooted
  cases rooted

end Family

theorem Effect.family {l : Label} (effect : Effect l db db') (family : Family db) : Family db' := by
  have sameRow : ∀ r : Resource, SameRow r r := fun _ => ⟨rfl, rfl, rfl, rfl, rfl⟩
  cases effect with
  | aux core =>
    exact family.of_rows (fun r h => ⟨r, core.resources ▸ h, sameRow r⟩)
      fun _ _ p h _ => ⟨p, core.resources ▸ h, sameRow p⟩
  | insert r born free => exact family.insert born free
  | row k p f keeps rows =>
    have row {r : Resource} (here : r ∈ db.resources) : SameRow r (if p r then f r else r) := by
      split
      · exact (rows r here (by assumption)).same
      · exact sameRow r
    refine family.of_rows (fun r' after => ?_) fun r' _ s stored _ => ?_
    · rw [mem_updateWhere] at after
      obtain ⟨r, here, rfl⟩ := after
      exact ⟨r, here, row here⟩
    · show ∃ p' ∈ db.resources.updateWhere p f keeps, SameRow s p'
      exact ⟨_, mem_updateWhere.mpr ⟨s, stored, rfl⟩, row stored⟩
  | delete ids =>
    refine family.of_rows (fun r' after => ?_) fun r' after p stored owned => ?_
    · obtain ⟨r, here, -, rfl | rfl⟩ := mem_deleteResources after
      · exact ⟨_, here, sameRow _⟩
      · exact ⟨r, here, rfl, rfl, rfl, rfl, rfl⟩
    · -- the row is kept, so its owner is: a DELETE takes what an owner owns
      obtain ⟨r, here, node, out⟩ := deleteResources_rows after
      have keeps : p.id ∉ cascaded db ids := by
        intro gone
        obtain ⟨s, named, there, path⟩ := mem_cascaded.mp gone
        refine out (mem_cascaded.mpr ⟨s, named, there, path.tail ?_⟩)
        exact ⟨r, here, rfl, node.ownerId ▸ owned⟩
      unfold deleteResources
      simp only [mem_updateWhere]
      refine ⟨_, ⟨p, mem_deleteWhere.mpr ⟨stored, decide_eq_false keeps⟩, rfl⟩, ?_⟩
      split
      · exact ⟨rfl, rfl, rfl, rfl, rfl⟩
      · exact sameRow p
  | _ => exact family.of_rows (fun r h => ⟨r, h, sameRow r⟩) fun _ _ p h _ => ⟨p, h, sameRow p⟩

theorem Reachable.family (reachable : Reachable db) : Family db := by
  refine reachable.induction
    ⟨fun r here => absurd here (notMem_empty r), fun r here => absurd here (notMem_empty r)⟩
    fun db a family => ?_
  exact Steps.keeps (fun _ effect => effect.family) (step_effects db a) family

/-- **The rows of a run are trees.**  No row is below itself; each is below one without owner, the
one its `root_id` leads to. -/
theorem owned_in_trees (actions : List Action) :
    let db := run Db.empty actions
    WellFounded (Owns db) ∧ ∀ r ∈ db.resources, ∃ top ∈ db.resources, top.ownerId = none ∧
      r.rootId.getD r.id = top.id ∧ Relation.ReflTransGen (Owns db) top.id r.id := by
  have reachable : Reachable (run Db.empty actions) := ⟨actions, rfl⟩
  obtain ⟨own, lineage⟩ := reachable.lineage
  have earlier : Subrelation (Owns (run Db.empty actions)) Earlier :=
    fun owns => lineage.earlier _ _ (lineage.owns owns)
  refine ⟨earlier.wf Earlier.wellFounded, fun r here => ?_⟩
  -- up the owners, each drawn before what it owns
  induction id : r.id using Earlier.wellFounded.induction generalizing r with
  | _ _ up =>
    subst id
    cases owned : r.ownerId with
    | none => exact ⟨r, here, owned, by rw [reachable.family.root r here owned]; rfl, .refl⟩
    | some o =>
      obtain ⟨p, stored, rfl, root⟩ := reachable.family.owner r here o owned
      have owns : Owns _ p.id r.id := ⟨r, here, rfl, owned⟩
      obtain ⟨top, there, ownerless, same, path⟩ := up p.id (earlier owns) p stored rfl
      exact ⟨top, there, ownerless, by rw [root, ← same]; rfl, path.tail owns⟩

end Converge.Kernel
