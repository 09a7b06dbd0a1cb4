/-
# Guarantees.MarkClosure -- no unmarked row under a mark

The ordered teardown rests on one fact: what waits for a marked row is marked.  The fence of a
compose reads the claim and the generation of its task and not the mark of the parent: a
compose that was claimed before the request may commit after it.  It then inserts unmarked
children under a marked parent, or draws an edge from a live child to a marked one.

`marks_stay_closed`: nothing else opens the marks.  They are closed in every state of a run
whose composes insert no child under a marked parent, and emit no edge from a child that is
to live to one that is marked or that their own deletion requests mark, and whose orphan
sweeps mark no orphan that a row to live waits behind.
-/
import Converge.Guarantees.ComposeEmitted

namespace Converge.Kernel

open Converge.Theory List Table Option

set_option autoImplicit false
set_option linter.unusedSectionVars false

section Closure

variable [Postgres] {db db' : Db} {own : Uuid → Option Uuid}

/-- No row without a mark has an owner or a dependency with one. -/
def MarksClosed (db : Db) : Prop :=
  ∀ r ∈ db.resources, r.marked = false → (∀ p, r.ownerId = some p → ¬ Marked db p) ∧
      ∀ d ∈ db.deps, d.dependentId = r.id → ¬ Marked db d.dependencyId

theorem marksClosed_iff : MarksClosed db ↔ Closed db := by
  constructor
  · intro closed a b marked waits
    by_contra unmarked
    have live {r : Resource} (here : r ∈ db.resources) (same : r.id = b) : r.marked = false := by
      rwa [← same, marked_of_mem here, Bool.not_eq_true] at unmarked
    rcases waits with ⟨r, here, same, owned⟩ | ⟨⟨r, here, same⟩, d, listed, rfl, dependent⟩
    · exact (closed r here (live here same)).1 a owned marked
    · exact (closed r here (live here same)).2 d listed (dependent.trans same.symm) marked
  · intro closed r here unmarked
    have live : ¬ Marked db r.id := by
      rw [marked_of_mem here, unmarked]
      exact fun h => nomatch h
    refine ⟨fun p owned marked => ?_, fun d listed dependent marked => ?_⟩
    · exact live (closed p r.id marked (.inl ⟨r, here, rfl, owned⟩))
    · exact live (closed _ r.id marked (.inr ⟨⟨r, here, rfl⟩, d, listed, rfl, dependent⟩))

/-! ## What keeps the marks closed -/

namespace Closed

section

variable (closed : Closed db)

include closed

theorem of_eq (rows : db'.resources = db.resources)
    (edges : db'.deps = db.deps) : Closed db' := by
  simp only [Closed, Marked, Waits, Blocking.Waits, Owns, Depends, Stored, rows, edges]
  exact closed

theorem sameTree (same : SameTree db db') (lineage : Lineage db' own) : Closed db' := by
  intro a b marked waits
  rw [same.marked] at marked ⊢
  refine closed a b marked (waits.imp same.owns ?_)
  rintro ⟨⟨r', after, rfl⟩, d', listed, rfl, dependent⟩
  obtain ⟨d, here, ends⟩ := same.edges d' listed
  rcases same.rows r' after with ⟨r, stored, node⟩ | ⟨-, root, -⟩
  · refine ⟨⟨r, stored, node.id.symm⟩, d, here, ends.dependencyId.symm, ?_⟩
    rw [← ends.dependentId, dependent]
  · exact absurd dependent (lineage.root_edgeless after root listed).1

theorem sweep (step : SweepStep db db') : Closed db' := by
  cases step with
  | mark id => exact closed.mark id
  | schedule id => exact closed.of_eq (cascadeMark_only _ id).resources (cascadeMark_only _ id).deps
  | enqueue scan n range =>
    have only := sweepEnqueue_only db scan n range
    exact closed.of_eq only.resources only.deps
  | remove scan n range => exact closed.delete _

theorem sweeps {l : List Db} (chain : (db :: l).IsChain SweepStep) :
    Closed (l.getLastD db) :=
  (chain_keeps (S := SweepStep) (fun _ _ step h => ⟨h.sweep step, step⟩) chain closed).2

theorem effects (run : Effects Label.Tame db db') (named : Named db)
    (lineage : Lineage db own) : Closed db' := by
  obtain ⟨own', after, -⟩ := run.lineage (fun h => h) named lineage
  exact closed.sameTree (run.tame fun _ h => h).1 after

theorem drain (named : Named db) (lineage : Lineage db own)
    {scan rowScan : Scan Uuid} {order : Nat → Nat} {n : Nat} {range : ShardRange}
    (done : drainOutboxBatch db scan rowScan order n range = some db') : Closed db' := by
  by_cases none : popped db scan n range = []
  · obtain rfl := drainOutboxBatch_none none done
    exact closed
  · have waiting : ∀ o ∈ popped db scan n range, o ∈ db.workOutbox := popped_waiting
    have stripped := closed.effects (stripped_effects waiting popped_nodup) named lineage
    have removed : Closed (removeTornDown _ rowScan (popped db scan n range)) := stripped.delete _
    have requeued := requeueTeardowns_only (removeTornDown
      (stripFinalizers (finalizeOperations (takeResults db (popped db scan n range))
        (popped db scan n range)) (popped db scan n range)) rowScan (popped db scan n range))
      (popped db scan n range)
    have torn : Effects Label.Rooted db (drainTeardowns db rowScan (popped db scan n range)) :=
      drainTeardowns_effects (drainable_rooted _ _) rowScan waiting popped_nodup
    obtain ⟨own', after, -⟩ := torn.lineage (fun h => h) named lineage
    refine (removed.of_eq requeued.resources requeued.deps).effects
      (drained_effects (Writable.tame _) trivial (fun _ _ => trivial) none done) ?_ after
    exact Steps.keeps (fun _ effect => effect.named) torn named

end

end Closed

/-! ## The orphan sweep -/

section Orphans

variable {scan : Scan Uuid} {n : Nat} {range : ShardRange}

theorem marked_orphansQueued {id : Uuid} : Marked (orphansQueued db scan n range) id ↔
    Marked db id ∨ ∃ r ∈ softOrphans db scan n range, r.id = id := by
  simp only [Marked, orphansQueued_rows, mem_updateWhere]
  constructor
  · rintro ⟨r', ⟨r, here, rfl⟩, same, marked⟩
    by_cases picked : r.id ∈ (softOrphans db scan n range).map (·.id)
    · rw [if_pos (decide_eq_true picked)] at same
      obtain ⟨s, soft, sameS⟩ := mem_map.mp picked
      exact .inr ⟨s, soft, sameS.trans same⟩
    · rw [if_neg (by simpa only [decide_eq_true_eq] using picked)] at same marked
      exact .inl ⟨r, here, same, marked⟩
  · intro h
    have : ∃ r ∈ db.resources, r.id = id ∧
        (r.marked = true ∨ r.id ∈ (softOrphans db scan n range).map (·.id)) := by
      rcases h with ⟨r, here, same, marked⟩ | ⟨r, soft, same⟩
      · exact ⟨r, here, same, .inl marked⟩
      · exact ⟨r, (picked_orphan (mem_filter.mp soft).1).1, same, .inr (mem_map_of_mem soft)⟩
    obtain ⟨r, here, same, marks⟩ := this
    refine ⟨_, ⟨r, here, rfl⟩, ?_⟩
    split
    · exact ⟨same, rfl⟩
    · rename_i out
      exact ⟨same, marks.resolve_right fun inside => out (decide_eq_true inside)⟩

theorem waits_orphansQueued {a b : Uuid} : Waits (orphansQueued db scan n range) a b ↔ Waits db a b := by
  simp only [Waits, Blocking.Waits, Depends, orphansQueued_stored, orphansQueued_deps,
    owns_update (markRow_key db) (orphansQueued_rows db scan n range) (markRow_place db)]

/-- What waits behind an orphan that a sweep marks and keeps is marked already, or marked or
removed by the same sweep. -/
def OrphansClosed (db : Db) (scan : Scan Uuid) (n : Nat) (range : ShardRange) : Prop :=
  ∀ r ∈ softOrphans db scan n range, r.id ∉ cascaded db ((hardOrphans db scan n range).map (·.id)) →
    ∀ b, Waits db r.id b → Marked db b ∨ (∃ s ∈ softOrphans db scan n range, s.id = b) ∨
      b ∈ cascaded db ((hardOrphans db scan n range).map (·.id))

theorem mem_cascaded_orphansQueued {ids : List Uuid} {id : Uuid} :
    id ∈ cascaded (orphansQueued db scan n range) ids ↔ id ∈ cascaded db ids := by
  have owns : Owns (orphansQueued db scan n range) = Owns db := by
    funext a b
    exact propext (owns_update (markRow_key db) (orphansQueued_rows db scan n range) (markRow_place db))
  rw [mem_cascaded, mem_cascaded, owns]
  simp only [orphansQueued_stored]

theorem closed_orphans (closed : Closed db) (ok : OrphansClosed db scan n range) :
    Closed (sweepExpiredOrphans db scan n range) := by
  intro a b marked waits
  obtain ⟨-, stays⟩ := stored_deleteResources.mp (stored_of_waits waits)
  obtain ⟨mark, out⟩ := marked_deleteResources.mp marked
  have before := waits_orphansQueued.mp (waits_deleteResources waits)
  refine marked_deleteResources.mpr ⟨marked_orphansQueued.mpr ?_, stays⟩
  rcases marked_orphansQueued.mp mark with old | ⟨r, soft, rfl⟩
  · exact .inl (closed a b old before)
  · rcases ok r soft (fun gone => out (mem_cascaded_orphansQueued.mpr gone)) b before with old | soft | gone
    · exact .inl old
    · exact .inr soft
    · exact absurd (mem_cascaded_orphansQueued.mpr gone) stays

end Orphans

/-! ## The compose -/

section Compose

variable {env : ComposeEnv} {t : WorkTask} {out : ComposeOutput} {pol : ComposePolicy}

/-- An emitted child that has no row under the parent yet. -/
def NewChild (db : Db) (t : WorkTask) (c : ChildSpec) : Prop :=
  ∀ r ∈ db.resources, r.ownerId = some t.resourceId → r.ref ≠ c.ref

theorem mem_newChildren {order : Nat → Nat} {parent : Uuid} {children : List ChildSpec}
    {c : ChildSpec} : c ∈ newChildren (shuffle order (existingChildren db parent)) children ↔
      c ∈ children ∧ ∀ r ∈ db.resources, r.ownerId = some parent → r.ref ≠ c.ref := by
  simp only [newChildren, existingByRef, mem_filter, isNone_iff_eq_none,
    find?_eq_none, mem_shuffle, existingChildren, decide_eq_true_eq, and_imp, mem_rows]

/-- The compose adds no child to a marked parent.  With the emitted children in place, take an
edge it emits whose dependency is marked, or reached by the mark tree of a dropped child
whose deletion it requests: then the dependent is marked as well, or waits behind such a
child along unmarked rows. -/
structure ComposesClosed (db : Db) (env : ComposeEnv) (t : WorkTask) (out : ComposeOutput)
    (pol : ComposePolicy) : Prop where
  children : (∃ c ∈ out.children, NewChild db t c) → ¬ Marked db t.resourceId
  edges : ∀ upserted ∈ upsertedBy db env t out, ∀ e ∈ out.edges,
    ∀ a ∈ upserted.resources, Emits t out a → a.ref = e.dependent →
    ∀ b ∈ upserted.resources, Emits t out b → b.ref = e.dependency →
      (b.marked = true ∨ ∃ s ∈ softStale pol (droppedBy db env t out), b.id ∈ markTree upserted s.id) →
        a.marked = true ∨
          ∃ s ∈ softStale pol (droppedBy db env t out), Relation.ReflTransGen (Drags upserted) s.id a.id

/-- New edges leave the marks closed if they do; those of other parents' children are old
ones. -/
theorem Closed.rewire {wired : Db} {parent : Uuid} {produced : List ResourceDep}
    (closed : Closed db) (wire : applyEdges db parent produced = some wired) (named : Named wired)
    (lineage : Lineage wired own) (wrote : Effects Label.Wrote wired db')
    (edges : ∀ p ∈ produced, Marked db' p.dependencyId → Stored db' p.dependentId →
      Marked db' p.dependentId) : Closed db' := by
  have tree := (wrote.tame fun _ => Label.Wrote.tame).1
  obtain ⟨own', after, -⟩ := wrote.lineage (fun h => h) named lineage
  obtain ⟨table, same⟩ := applyEdges_only wire
  have rows := congrArg Db.resources same
  have marks {id : Uuid} : Marked db' id ↔ Marked db id := by
    rw [tree.marked]
    simp only [Marked, rows]
  intro a b marked waits
  rcases waits with owns | ⟨⟨r', stored, rfl⟩, d', listed', rfl, dependent⟩
  · obtain ⟨r, here, owned⟩ := tree.owns owns
    rw [marks] at marked ⊢
    exact closed a b marked (.inl ⟨r, rows ▸ here, owned⟩)
  · obtain ⟨d, listed, ends⟩ := tree.edges d' listed'
    rcases applyEdges_mem wire listed with ⟨p, new, sameEnds, -⟩ | ⟨old, -⟩
    · obtain ⟨sameA, sameB⟩ := ends_eq sameEnds
      rw [ends.dependencyId, ← sameB] at marked
      rw [ends.dependentId, ← sameA] at dependent
      rw [← dependent]
      exact edges p new marked ⟨r', stored, dependent.symm⟩
    · rw [marks] at marked ⊢
      rcases tree.rows r' stored with ⟨r, here, node⟩ | ⟨-, root, -⟩
      · exact closed _ r'.id marked (.inr ⟨⟨r, rows ▸ here, node.id.symm⟩, d, old,
          ends.dependencyId.symm, ends.dependentId.symm.trans dependent⟩)
      · exact absurd dependent (after.root_edgeless stored root listed').1

section Stages

variable {parent : Resource} {upserted wired : Db} {produced : List ResourceDep}
  (stages : ComposeStages db env t out pol parent upserted produced wired)

include stages

theorem ComposeStages.new_row (named : Named db) {c : ChildSpec} (listed : c ∈ out.children)
    (new : NewChild db t c) :
    ∃ r ∈ upserted.resources, r.ref = c.ref ∧ r.ownerId = some t.resourceId ∧ ¬ Stored db r.id := by
  obtain ⟨inserted, insert, rfl⟩ := map_eq_some_iff.mp stages.upsert
  rw [stages.parent_id] at insert
  obtain ⟨r, here, row₀⟩ := insertChildren_row insert (mem_newChildren.mpr ⟨listed, new⟩)
  have update := updateChildren_effects (Writable.wrote inserted)
    (changedChildren (shuffle env.childOrder (existingChildren db parent.id)) out)
  have drawn : inserted.Drawn r.id := by
    have effects : Effects (fun _ => True) db inserted := insertChildren_effects trivial
      ⟨parent, (mem_of_lookup stages.found).1, stages.parent_id, stages.parent_id ▸ rfl⟩ insert
    exact Steps.keeps (fun _ effect => effect.named) effects named r here
  obtain ⟨r', after, same⟩ :=
    Effects.mild_stored (update.mono fun _ => Label.Wrote.mild) ⟨r, here, rfl⟩
  obtain ⟨r₀, here₀, same₀, row⟩ := Effects.tracks respects_sameRow update after (same ▸ drawn)
  obtain rfl := eq_of_pk resource_primary here₀ here (same₀.trans same)
  refine ⟨r', after, ?_, row.ownerId.trans row₀.ownerId, ?_⟩
  · rw [← row₀.ref, Resource.ref, Resource.ref, row.kind, row.name]
  · rintro ⟨s, stored, sameS⟩
    exact row₀.new (same ▸ sameS ▸ named s stored)

/-- Children inserted under an unmarked parent leave the marks closed. -/
theorem ComposeStages.closed_upserted (named : Named db) (lineage : Lineage db own) (closed : Closed db)
    (children : (∃ c ∈ out.children, NewChild db t c) → ¬ Marked db t.resourceId) : Closed upserted := by
  obtain ⟨own', after, -⟩ := stages.upsert_effects.lineage (fun h => h rfl) named lineage
  obtain ⟨inserted, insert, rfl⟩ := map_eq_some_iff.mp stages.upsert
  rw [stages.parent_id] at insert
  have marks {id : Uuid} (marked : Marked inserted id) : Marked db id := by
    obtain ⟨r, here, same, mark⟩ := marked
    rcases insertChildren_mem insert here with old | ⟨_, _, row⟩
    · exact ⟨r, old, same, mark⟩
    · rw [row.unmarked] at mark
      cases mark
  have kept {id : Uuid} (marked : Marked db id) : Marked inserted id := by
    obtain ⟨r, here, rest⟩ := marked
    exact ⟨r, insertChildren_keeps insert here, rest⟩
  have middle : Closed inserted := by
    intro a b marked waits
    refine kept ?_
    rcases waits with ⟨r, here, rfl, owned⟩ | ⟨⟨r, here, rfl⟩, d, listed, rfl, dependent⟩
    · rcases insertChildren_mem insert here with old | ⟨c, emitted, row⟩
      · exact closed a r.id (marks marked) (.inl ⟨r, old, rfl, owned⟩)
      · obtain ⟨listed, new⟩ := mem_newChildren.mp emitted
        obtain rfl := some.inj (owned.symm.trans row.ownerId)
        exact absurd (marks marked) (children ⟨c, listed, new⟩)
    · rw [insertChildren_deps insert] at listed
      rcases insertChildren_mem insert here with old | ⟨_, _, row⟩
      · exact closed _ r.id (marks marked) (.inr ⟨⟨r, old, rfl⟩, d, listed, rfl, dependent⟩)
      · obtain ⟨p, owner, -⟩ := lineage.edges d listed
        exact absurd (dependent ▸ lineage.drawn _ _ owner) row.new
  exact middle.sameTree ((updateChildren_effects (Writable.wrote _) _).tame fun _ => Label.Wrote.tame).1 after

theorem ComposeStages.closed_pruned (named : Named db) (lineage : Lineage db own)
    (closed : Closed upserted) : Closed (composeChildren upserted env pol
      (shuffle env.childOrder (existingChildren db parent.id)) out) := by
  have namedU := stages.named_upserted named
  obtain ⟨mid, before, -⟩ := stages.upsert_effects.lineage (fun h => h rfl) named lineage
  let stale := dropped (shuffle env.childOrder (existingChildren db parent.id)) out
  have soft := softDelete_effects upserted env.scans (softStale pol stale)
  have requested : Closed (softDelete upserted env.scans (softStale pol stale)) := by
    rw [← softTrace_last]
    exact closed.sweeps (softTrace_chain _ _ _)
  obtain ⟨own', afterSoft, -⟩ := soft.lineage (fun h => h) namedU before
  have namedSoft := Steps.keeps (fun _ effect => effect.named) soft namedU
  have graced := requested.effects
    ((markChildrenOrphaned_effects _ pol stale).mono fun _ => Label.Calm.tame) namedSoft afterSoft
  have prune := pruneChildren_effects upserted env.scans pol stale
  obtain ⟨own'', afterPrune, -⟩ := prune.lineage (fun h => h) namedU before
  exact (graced.delete (hardStale pol stale)).effects
    ((clearOrphanMarks_effects _ _ _).mono fun _ => Label.Calm.tame)
    (Steps.keeps (fun _ effect => effect.named) prune namedU) afterPrune

end Stages

/-- **A compose keeps the marks closed.** -/
theorem compose_closed (named : Named db) (lineage : Lineage db own) (closed : Closed db)
    (claimed : t ∈ db.tasks) (done : applyComposeResult db env t out pol = some db')
    (ok : ComposesClosed db env t out pol) : Closed db' := by
  obtain ⟨parent, upserted, produced, wired, stages, wrote⟩ := applyComposeResult_parts claimed done
  have pruned := stages.closed_pruned named lineage (stages.closed_upserted named lineage closed ok.children)
  obtain ⟨own', ⟨-, lineageW⟩, -, -⟩ := stages.lineage named lineage
  have namedWired := Steps.keeps (fun _ effect => effect.named) (stages.effects (Composable.plain db)) named
  refine pruned.rewire stages.wire namedWired lineageW wrote fun p listed marked stored => ?_
  -- the ends of an emitted edge, with the children in place
  obtain ⟨e, edge, dependent, dependency, -⟩ := resolveEdges_mem stages.resolve listed
  obtain ⟨⟨c, childA, refA'⟩, a, hereA, sameA, refA, ownedA⟩ := refToId_row dependent
  obtain ⟨⟨c', childB, refB'⟩, b, hereB, sameB, refB, ownedB⟩ := refToId_row dependency
  rw [stages.parent_id] at ownedA ownedB
  have emitsA : Emits t out a := ⟨ownedA, c, childA, refA'.trans refA.symm⟩
  have emitsB : Emits t out b := ⟨ownedB, c', childB, refB'.trans refB.symm⟩
  rw [← sameA] at stored ⊢
  rw [← sameB] at marked
  have falls : b.marked = true ∨
      ∃ s ∈ softStale pol (droppedBy db env t out), b.id ∈ markTree upserted s.id := by
    by_contra none
    rw [not_or, Bool.not_eq_true] at none
    have live := stages.live_throughout named lineage hereB emitsB none.1
      (fun s soft path => none.2 ⟨s, soft, mem_markTree.mpr path⟩) wrote done db' (stages.last_mem done)
    exact live.2 marked
  have dead : ¬ Live db' a.id := by
    rcases ok.edges upserted stages.upserted_eq e edge a hereA emitsA refA b hereB emitsB refB falls with
      marked | ⟨s, soft, path⟩
    · have rest := stages.rest_effects (fun _ => Label.Sweeps.plain) (fun _ => Label.Wrote.plain) trivial wrote
      intro live
      have before := rest.live_back (stages.named_upserted named a hereA) live
      rw [live_of_mem hereA, marked] at before
      cases before
    · exact stages.dead_after named hereA wrote (softDelete_drags soft path)
  by_contra unmarked
  exact dead ⟨stored, unmarked⟩

end Compose

/-! ## Runs -/

/-- What a step needs to keep the marks closed. -/
def KeepsMarksClosed (db : Db) : Action → Prop
  | .applyComposeResult env t out pol =>
    (t ∈ db.tasks ∧ t.taskType = .reconcile) → (applyComposeResult db env t out pol).isSome →
      ComposesClosed db env t out pol
  | .sweepExpiredOrphans scan n range => OrphansClosed db scan n range
  | _ => True

/-- It is met by steps that sweep no orphans, if every compose that commits drops nothing and
either nothing is marked or all it emits is there, and marked. -/
def PlainlyClosed (db : Db) : Action → Prop
  | .applyComposeResult env t out pol => (applyComposeResult db env t out pol).isSome →
    droppedBy db env t out = [] ∧
      ((∀ r ∈ db.resources.rows, r.marked = false) ∨
        ∀ c ∈ out.children, ∃ r ∈ db.resources.rows, r.ownerId = some t.resourceId ∧ r.ref = c.ref) ∧
      ∀ upserted ∈ upsertedBy db env t out, (∀ r ∈ upserted.resources.rows, r.marked = false) ∨
        ∀ r ∈ upserted.resources.rows, r.ownerId = some t.resourceId → r.marked = true
  | .sweepExpiredOrphans _ _ _ => False
  | _ => True

instance (db : Db) (a : Action) : Decidable (PlainlyClosed db a) := by
  induction a using Action.casesOn <;> dsimp only [PlainlyClosed] <;> infer_instance

theorem PlainlyClosed.keeps {a : Action} (plain : PlainlyClosed db a) : KeepsMarksClosed db a := by
  cases a with
  | applyComposeResult env t out pol =>
    intro _ committed
    obtain ⟨drops, children, rows⟩ := plain committed
    refine ⟨?_, fun upserted found e _ a hereA emits _ b hereB _ _ falls => ?_⟩
    · rintro ⟨c, listed, new⟩ ⟨r, here, -, mark⟩
      rcases children with unmarked | old
      · rw [unmarked r here] at mark
        cases mark
      · obtain ⟨s, there, owned, ref⟩ := old c listed
        exact new s there owned ref
    · rcases rows upserted found with unmarked | marked
      · rcases falls with mark | ⟨s, soft, -⟩
        · rw [unmarked b hereB] at mark
          cases mark
        · rw [drops] at soft
          cases soft
      · exact .inl (marked a hereA emits.owned)
  | sweepExpiredOrphans _ _ _ => exact plain.elim
  | _ => trivial

theorem step_closed (reachable : Reachable db) (closed : Closed db) (a : Action)
    (ok : KeepsMarksClosed db a) : Closed (step db a) := by
  obtain ⟨own, lineage⟩ := reachable.lineage
  have named := reachable.named
  have tame (tame : a.Tame) : Closed (step db a) := closed.effects (step_tame db tame) named lineage
  cases a with
  | requestResourceDeletion scans id =>
    simp only [step, ← requestTrace_last]
    exact closed.sweeps (requestTrace_chain db scans id)
  | sweepDeletable scans n range =>
    simp only [step, sweepDeletable, ← sweepTrace_last]
    exact closed.sweeps (sweepTrace_chain _ _ _ _ _ db)
  | drainOutboxBatch scan rowScan order n range =>
    exact getD_cases closed fun _ done => closed.drain named lineage done
  | sweepExpiredOrphans scan n range => exact closed_orphans closed ok
  | applyComposeResult env t out pol =>
    simp only [step, submitCompose]
    split
    next claimed =>
      refine getD_cases closed fun _ done => ?_
      exact compose_closed named lineage closed claimed.1 done (ok claimed (by rw [done]; rfl))
    next => exact closed
  | _ => exact tame trivial

/-- **The marks stay closed.**  In every run from the empty database whose steps meet the
condition, no state reached has an unmarked row with a marked owner or a marked
dependency. -/
theorem marks_stay_closed (actions : List Action) (along : Along KeepsMarksClosed Db.empty actions) :
    Along (fun db a => MarksClosed (step db a)) Db.empty actions := by
  refine along.meets (I := Closed) (fun db a reachable closed ok => ?_) .empty ?_
  · have next := step_closed reachable closed a ok
    exact ⟨next, marksClosed_iff.mpr next⟩
  · rintro a b ⟨r, here, -⟩
    exact absurd here (notMem_empty r)

end Closure

def claimedRoot : List Action :=
  [seedKind "app" (some "app/destroy"), seedKind "net" (some "net/destroy"), applyRoot "app" "a",
    claimAll "b" "app" .reconcile]

def requestRoot : Action := .requestResourceDeletion (fun _ => Scan.plain) 0

def networkAndMachine : ComposeOutput :=
  ⟨[child "net" "n", child "vm" "v"], [⟨⟨"vm", "v"⟩, ⟨"net", "n"⟩, []⟩], []⟩

/-- The root composes both, the network is deleted, and the root composes both again. -/
def networkThenRequest : List Action :=
  composing "app" noGrace leafFinalizer networkAndMachine
    (networkTree ++ [.requestResourceDeletion (fun _ => Scan.plain) 2])

/-- The machine was marked with the network, so the edge that is emitted again leaves the
marks closed. -/
theorem marks_stay_closed_network : letI := counting
    let db := run Db.empty networkThenRequest
    Along (fun db a => MarksClosed (step db a)) Db.empty networkThenRequest ∧
      db.resources.rows.map (fun r => (r.name, r.marked)) = [("v", true), ("n", true), ("a", false)] ∧
      db.deps.rows.map (·.ends) = [(3, 2)] := by
  intro db
  have facts : letI := counting
      Along PlainlyClosed Db.empty networkThenRequest ∧
      db.resources.rows.map (fun r => (r.name, r.marked)) = [("v", true), ("n", true), ("a", false)] ∧
      db.deps.rows.map (·.ends) = [(3, 2)] := by
    decide +kernel
  obtain ⟨plain, rest⟩ := facts
  refine ⟨@marks_stay_closed counting _ ?_, rest⟩
  exact @Along.mono counting _ _ _ _ (@PlainlyClosed.keeps counting) plain

/-- The root is deleted while its compose is running, and the compose commits: the machine
it inserts is not marked, its owner is.  Or only the network is deleted meanwhile, and the
compose adds a machine that depends on it. -/
theorem marks_left_open : letI := counting
    (let db := run Db.empty
        (composing "app" noGrace leafFinalizer ⟨[child "vm" "v"], [], []⟩ (claimedRoot ++ [requestRoot]))
      ∃ v ∈ db.resources.rows, v.marked = false ∧
        ∃ a ∈ db.resources.rows, v.ownerId = some a.id ∧ a.marked = true) ∧
    (let db := run Db.empty
        (composing "app" noGrace leafFinalizer networkAndMachine
          (rebuilt (composing "app" noGrace leafFinalizer ⟨[child "net" "n"], [], []⟩ claimedRoot) ++
            [.requestResourceDeletion (fun _ => Scan.plain) 2]))
      ∃ v ∈ db.resources.rows, v.marked = false ∧ ∃ d ∈ db.deps.rows, d.dependentId = v.id ∧
          ∃ n ∈ db.resources.rows, n.id = d.dependencyId ∧ n.marked = true) := by
  decide +kernel

end Converge.Kernel
