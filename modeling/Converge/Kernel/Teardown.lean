/-
# Kernel.Teardown -- the tree of resources, and what waits for what

A row waits for the rows it owns and for the rows that depend on it.  The gate of a
sweep looks at every owned row but only at *marked* dependents, so by itself it says
nothing about an unmarked one.  `InOrder` closes the gap: the marks are closed under
waiting, hence a row that passes the gate waits for nothing (`Closed.clear_of_gate`),
and a row whose teardown has been dispatched waits for nothing ever after.

`SameTree` is what a step does that neither marks, removes nor rewires: rows keep their
owner and mark, new rows are roots, edges keep their ends.  Every tame effect is such a
step (`Effects.sameTree`) and dispatches no teardown (`Effects.underway`).
-/
import Converge.Theory.Blocking
import Converge.Kernel.Rows

namespace Converge.Kernel

open Converge.Theory List Table

set_option autoImplicit false
set_option linter.unusedSectionVars false

variable [Postgres] {db db' : Db}
variable {l : Label} {allow : Label → Prop} {ids : List Uuid} {r r' : Resource} {a b id : Uuid}

/-! ## The tree -/

def Stored (db : Db) (id : Uuid) : Prop := ∃ r ∈ db.resources, r.id = id
deriving Decidable

def Marked (db : Db) (id : Uuid) : Prop := ∃ r ∈ db.resources, r.id = id ∧ r.marked = true
deriving Decidable

def Owns (db : Db) (a b : Uuid) : Prop := ∃ r ∈ db.resources, r.id = b ∧ r.ownerId = some a

def Depends (db : Db) (a b : Uuid) : Prop :=
  Stored db b ∧ ∃ d ∈ db.deps, d.dependencyId = a ∧ d.dependentId = b

/-- Row `b` must go before `a` does. -/
abbrev Waits (db : Db) : Uuid → Uuid → Prop := Blocking.Waits (Owns db) (Depends db)

/-- No row owned by `id` and no row depending on it is left. -/
def Clear (db : Db) (id : Uuid) : Prop := ∀ b, ¬ Owns db id b ∧ ¬ Depends db id b

/-- Every edge has its dependent. -/
def Linked (db : Db) : Prop := ∀ d ∈ db.deps, Stored db d.dependentId

theorem clear_iff : Clear db id ↔ ∀ b, ¬ Waits db id b := by
  simp only [Clear, Waits, Blocking.Waits, not_or]

theorem stored_of_waits (waits : Waits db a b) : Stored db b := by
  rcases waits with ⟨r, here, same, -⟩ | ⟨stored, -⟩
  · exact ⟨r, here, same⟩
  · exact stored

theorem Marked.stored (h : Marked db id) : Stored db id := by
  obtain ⟨r, here, same, -⟩ := h
  exact ⟨r, here, same⟩

theorem marked_of_mem (here : r ∈ db.resources) : Marked db r.id ↔ r.marked = true := by
  constructor
  · rintro ⟨s, stored, same, marked⟩
    rwa [← eq_of_pk resource_primary stored here same]
  · exact fun marked => ⟨r, here, rfl, marked⟩

theorem resource_marked : (db.resource? id).any (·.marked) = true ↔ Marked db id := by
  rw [Option.any_eq_true]
  constructor
  · rintro ⟨r, found, marked⟩
    obtain ⟨here, same⟩ := mem_of_lookup found
    exact ⟨r, here, same, marked⟩
  · rintro ⟨r, here, rfl, marked⟩
    exact ⟨r, lookup_of_mem resource_primary here, marked⟩

theorem hasChild_iff : hasChild db id = true ↔ ∃ b, Owns db id b := by
  simp only [hasChild, any_eq_true, decide_eq_true_eq]
  constructor
  · rintro ⟨c, here, owned⟩
    exact ⟨c.id, c, here, rfl, owned⟩
  · rintro ⟨b, c, here, -, owned⟩
    exact ⟨c, here, owned⟩

theorem hasMarkedDependent_iff : hasMarkedDependent db id = true ↔ ∃ b, Depends db id b ∧ Marked db b := by
  simp only [hasMarkedDependent, any_eq_true, Bool.and_eq_true, decide_eq_true_eq, resource_marked]
  constructor
  · rintro ⟨d, here, rfl, marked⟩
    exact ⟨d.dependentId, ⟨marked.stored, d, here, rfl, rfl⟩, marked⟩
  · rintro ⟨b, ⟨-, d, here, rfl, rfl⟩, marked⟩
    exact ⟨d, here, rfl, marked⟩

theorem unblocked_iff : unblocked db r = true ↔
    r.marked = true ∧ ∀ b, ¬ Owns db r.id b ∧ (Depends db r.id b → ¬ Marked db b) := by
  simp only [unblocked, Bool.and_eq_true, Bool.not_eq_true', ← Bool.not_eq_true, hasChild_iff,
    hasMarkedDependent_iff, not_exists, not_and, and_assoc, forall_and]

/-! ## Steps that leave the tree alone -/

structure SameNode (r r' : Resource) : Prop where
  id : r'.id = r.id
  ownerId : r'.ownerId = r.ownerId
  marked : r'.marked = r.marked

theorem SameNode.refl (r : Resource) : SameNode r r := ⟨rfl, rfl, rfl⟩

theorem SameNode.trans {a b c : Resource} (ab : SameNode a b) (bc : SameNode b c) : SameNode a c :=
  ⟨bc.id.trans ab.id, bc.ownerId.trans ab.ownerId, bc.marked.trans ab.marked⟩

/-- The rows keep their place and mark, new rows are roots, edges keep their ends. -/
structure SameTree (db db' : Db) : Prop where
  rows : ∀ r' ∈ db'.resources, (∃ r ∈ db.resources, SameNode r r') ∨
    (¬ Stored db r'.id ∧ r'.ownerId = none ∧ r'.marked = false)
  kept : ∀ r ∈ db.resources, ∃ r' ∈ db'.resources, SameNode r r'
  edges : ∀ d' ∈ db'.deps, ∃ d ∈ db.deps, SameEnds d' d

namespace SameTree

theorem of_eq (rows : db'.resources = db.resources) (edges : db'.deps = db.deps) : SameTree db db' where
  rows r' here := .inl ⟨r', rows ▸ here, .refl r'⟩
  kept r here := ⟨r, rows ▸ here, .refl r⟩
  edges d here := ⟨d, edges ▸ here, .refl d⟩

theorem refl (db : Db) : SameTree db db := of_eq rfl rfl

theorem stored (same : SameTree db db') (h : Stored db id) : Stored db' id := by
  obtain ⟨r, here, rfl⟩ := h
  obtain ⟨r', here', node⟩ := same.kept r here
  exact ⟨r', here', node.id⟩

theorem trans {a b c : Db} (ab : SameTree a b) (bc : SameTree b c) : SameTree a c where
  rows r'' here'' := by
    rcases bc.rows r'' here'' with ⟨r', here', node'⟩ | ⟨new, root⟩
    · rcases ab.rows r' here' with ⟨r, here, node⟩ | ⟨new, owner, unmarked⟩
      · exact .inl ⟨r, here, node.trans node'⟩
      · refine .inr ⟨?_, node'.ownerId.trans owner, node'.marked.trans unmarked⟩
        rwa [node'.id]
    · exact .inr ⟨fun h => new (ab.stored h), root⟩
  kept r here := by
    obtain ⟨r', here', node⟩ := ab.kept r here
    obtain ⟨r'', here'', node'⟩ := bc.kept r' here'
    exact ⟨r'', here'', node.trans node'⟩
  edges d here := by
    obtain ⟨d', here', ends'⟩ := bc.edges d here
    obtain ⟨d₀, here₀, ends⟩ := ab.edges d' here'
    exact ⟨d₀, here₀, ends'.trans ends⟩

section

variable (same : SameTree db db')

include same

theorem owns (h : Owns db' a b) : Owns db a b := by
  obtain ⟨r', here', rfl, owned⟩ := h
  rcases same.rows r' here' with ⟨r, here, node⟩ | ⟨-, root, -⟩
  · exact ⟨r, here, node.id.symm, node.ownerId ▸ owned⟩
  · rw [root] at owned
    cases owned

theorem depends (linked : Linked db) (h : Depends db' a b) : Depends db a b := by
  obtain ⟨-, d', here', rfl, rfl⟩ := h
  obtain ⟨d, here, ends⟩ := same.edges d' here'
  exact ⟨ends.dependentId ▸ linked d here, d, here, ends.dependencyId.symm, ends.dependentId.symm⟩

theorem waits (linked : Linked db) (h : Waits db' a b) : Waits db a b :=
  h.imp same.owns (same.depends linked)

theorem clear (linked : Linked db) (h : Clear db id) : Clear db' id :=
  fun b => ⟨fun owned => (h b).1 (same.owns owned), fun dependent => (h b).2 (same.depends linked dependent)⟩

theorem marked : Marked db' id ↔ Marked db id := by
  constructor
  · rintro ⟨r', here', rfl, mark⟩
    rcases same.rows r' here' with ⟨r, here, node⟩ | ⟨-, -, unmarked⟩
    · exact ⟨r, here, node.id.symm, node.marked ▸ mark⟩
    · rw [unmarked] at mark
      cases mark
  · rintro ⟨r, here, rfl, mark⟩
    obtain ⟨r', here', node⟩ := same.kept r here
    exact ⟨r', here', node.id, node.marked.trans mark⟩

theorem linked (linked : Linked db) : Linked db' := by
  intro d' here'
  obtain ⟨d, here, ends⟩ := same.edges d' here'
  rw [ends.dependentId]
  exact same.stored (linked d here)

end

end SameTree

/-! ## Tame effects -/

/-- The effects that leave the tree alone and dispatch no teardown. -/
def Label.Tame : Label → Prop
  | .insert owner => owner = none
  | .delete | .rewire | .row .mark | .enqueue .teardown => False
  | _ => True

theorem Label.Wrote.tame (h : l.Wrote) : l.Tame := by
  cases l with
  | insert owner | delete | rewire => exact h
  | row k => cases k <;> first | exact trivial | exact h
  | enqueue cause => cases cause <;> first | exact trivial | exact h
  | _ => trivial

theorem Label.Calm.tame (h : l.Calm) : l.Tame :=
  h.wrote.tame

theorem Writable.tame (db : Db) : Writable Label.Tame db :=
  .of_all (fun _ => Label.Calm.tame) trivial fun _ _ => trivial

theorem RowStep.node {k : RowKind} (tame : (Label.row k).Tame) (h : RowStep db r r' k) : SameNode r r' := by
  refine ⟨h.same.id, h.same.ownerId, ?_⟩
  cases k with
  | quiet => rw [Resource.marked, Resource.marked, Quiet.deletionRequestedAt h]
  | write => rw [Resource.marked, Resource.marked, Written.deletionRequestedAt h]
  | mark => exact tame.elim
  | thaw id =>
    obtain ⟨-, rfl⟩ := h
    rfl
  | stamp =>
    obtain ⟨t, -, -, rfl⟩ := h
    rfl
  | strip results =>
    obtain ⟨o, -, f, -, rfl⟩ := h
    rfl
  | result results =>
    obtain ⟨o, -, -, rfl⟩ := h
    rfl

theorem Effect.sameTree (tame : l.Tame) (effect : Effect l db db') : SameTree db db' := by
  cases effect with
  | aux same => exact .of_eq same.resources same.deps
  | insert r born free =>
    refine ⟨fun r' here' => ?_, fun s here => ?_, fun d here => ⟨d, here, .refl d⟩⟩
    · rcases (mem_push free).mp here' with rfl | old
      · refine .inr ⟨?_, tame, ?_⟩
        · rintro ⟨s, stored, same⟩
          exact free ⟨s, stored, resource_primary s r' same⟩
        · rw [Resource.marked, born.deletionRequestedAt]
          rfl
      · exact .inl ⟨r', old, .refl r'⟩
    · exact ⟨s, (mem_push free).mpr (.inr here), .refl s⟩
  | row k p f keeps rows =>
    have node : ∀ r ∈ db.resources, SameNode r (if p r = true then f r else r) := by
      intro r here
      split
      · exact (rows r here (by assumption)).node tame
      · exact .refl r
    refine ⟨fun r' here' => ?_, fun r here => ?_, fun d here => ⟨d, here, .refl d⟩⟩
    · rw [mem_updateWhere] at here'
      obtain ⟨r, here, rfl⟩ := here'
      exact .inl ⟨r, here, node r here⟩
    · refine ⟨_, ?_, node r here⟩
      rw [mem_updateWhere]
      exact ⟨r, here, rfl⟩
  | delete ids => exact tame.elim
  | relabel t same =>
    exact ⟨fun r here => .inl ⟨r, here, .refl r⟩, fun r here => ⟨r, here, .refl r⟩, same⟩
  | rewire t => exact tame.elim
  | _ => exact .of_eq rfl rfl

/-- A teardown of `id` is queued, handed out or reported. -/
def Underway (db : Db) (id : Uuid) : Prop :=
  (∃ q ∈ db.workQueue, q.taskType = .delete ∧ q.resourceId = id) ∨
  (∃ t ∈ db.tasks, t.taskType = .delete ∧ t.resourceId = id) ∨
  ∃ o ∈ db.workOutbox, o.taskType = .delete ∧ o.resourceId = id

/-- A teardown gets underway when a marked row is queued for it. -/
theorem Effect.underway_from (effect : Effect l db db')
    (h : Underway db' id) : Underway db id ∨ l = .enqueue .teardown ∧ Marked db id := by
  rcases h with ⟨q', listed, type, same⟩ | handed | reported
  · rcases effect.queue listed with ⟨cause, rfl, new, -⟩ | ⟨q, here, key⟩
    · obtain ⟨r, here, snap, takes⟩ := new.snapshot
      obtain rfl := Cause.eq_teardown (new.taskType.symm.trans type)
      exact .inr ⟨rfl, r, here, snap.resourceId.symm.trans same, takes⟩
    · obtain ⟨-, resource, sameType⟩ := queue_key key
      exact .inl (.inl ⟨q, here, sameType.trans type, resource.trans same⟩)
  · refine .inl ?_
    cases effect with
    | aux core => exact .inr (.inl (core.tasks ▸ handed))
    | claim scan b =>
      -- a task handed out is of a row that was queued
      obtain ⟨t, listed, type, same⟩ := handed
      rcases mem_tasks_claim.mp listed with ⟨q, taken, rfl⟩ | old
      · exact .inl ⟨q, (mem_takenRows taken).1, type, same⟩
      · exact .inr (.inl ⟨t, old, type, same⟩)
    | _ => exact .inr (.inl handed)
  · refine .inl ?_
    cases effect with
    | aux core => exact .inr (.inr (core.workOutbox ▸ reported))
    | append o claimed token free =>
      obtain ⟨o', listed, type, same⟩ := reported
      rcases (mem_push free).mp listed with rfl | old
      · exact .inr (.inl ⟨o'.task, claimed, type, same⟩)
      · exact .inr (.inr ⟨o', old, type, same⟩)
    | pop results waiting distinct =>
      obtain ⟨o, listed, rest⟩ := reported
      exact .inr (.inr ⟨o, (mem_deleteWhere.mp listed).1, rest⟩)
    | _ => exact .inr (.inr reported)

theorem Effect.underway (tame : l.Tame) (effect : Effect l db db') (h : Underway db' id) : Underway db id := by
  refine (effect.underway_from h).resolve_right ?_
  rintro ⟨rfl, -⟩
  exact tame

/-- A step that leaves the tree alone and dispatches teardowns of clear rows at most. -/
structure Dispatches (db db' : Db) : Prop where
  tree : SameTree db db'
  underway : ∀ id, Underway db' id → Underway db id ∨ Clear db id

theorem Effects.tame (run : Effects allow db db') (tame : ∀ l, allow l → l.Tame) :
    SameTree db db' ∧ ∀ id, Underway db' id → Underway db id := by
  refine Steps.keeps (I := fun s => SameTree db s ∧ ∀ id, Underway s id → Underway db id) ?_ run
    ⟨.refl db, fun _ h => h⟩
  intro l a b ok effect before
  exact ⟨before.1.trans (effect.sameTree (tame l ok)), fun id h => before.2 id (effect.underway (tame l ok) h)⟩

theorem Effects.delete_queued (run : Effects allow db db') (none : ¬ allow (.enqueue .teardown))
    {q' : WorkQueueRow} (after : q' ∈ db'.workQueue) (type : q'.taskType = .delete) :
    ∃ q ∈ db.workQueue, q.id = q'.id ∧ q.resourceId = q'.resourceId ∧ q.taskType = .delete := by
  refine Steps.keeps (I := fun s => ∀ q' ∈ s.workQueue, q'.taskType = .delete → ∃ q ∈ db.workQueue,
    q.id = q'.id ∧ q.resourceId = q'.resourceId ∧ q.taskType = .delete) ?_ run
    (fun q here type => ⟨q, here, rfl, rfl, type⟩) q' after type
  intro l a b ok effect before q' after type
  rcases effect.queue after with ⟨cause, rfl, new, -⟩ | ⟨q, here, key⟩
  · obtain rfl := Cause.eq_teardown (new.taskType.symm.trans type)
    exact absurd ok none
  · obtain ⟨id, resource, sameType⟩ := queue_key key
    obtain ⟨p, there, pid, presource, ptype⟩ := before q here (sameType.trans type)
    exact ⟨p, there, pid.trans id, presource.trans resource, ptype⟩

theorem Effects.dispatches (run : Effects allow db db') (tame : ∀ l, allow l → l.Tame) : Dispatches db db' :=
  ⟨(run.tame tame).1, fun id h => .inl ((run.tame tame).2 id h)⟩

/-- The actions that mark nothing, remove nothing and tear nothing down. -/
def Action.Tame : Action → Prop
  | .requestResourceDeletion _ _ | .sweepDeletable _ _ _ | .sweepExpiredOrphans _ _ _ => False
  | .applyComposeResult _ _ _ _ | .drainOutboxBatch _ _ _ _ _ => False
  | _ => True

theorem Action.Tame.allows {a : Action} (tame : a.Tame) (ok : a.allows db l) : l.Tame := by
  cases a with
  | requestResourceDeletion _ _ | sweepDeletable _ _ _ | sweepExpiredOrphans _ _ _
  | applyComposeResult _ _ _ _ | drainOutboxBatch _ _ _ _ _ => exact tame.elim
  | _ =>
    cases l with
    | insert owner | delete | rewire => first | exact ok | exact ok.elim | cases ok
    | row k => cases k <;> first | exact trivial | exact ok | cases ok
    | enqueue cause => cases cause <;> first | exact trivial | exact ok | cases ok
    | _ => trivial

theorem step_tame (db : Db) {a : Action} (tame : a.Tame) : Effects Label.Tame db (step db a) :=
  (step_effects db a).mono fun _ => tame.allows

/-! ## Removing -/

theorem mem_ownedBy : b ∈ ownedBy db a ↔ Owns db a b := by
  simp only [ownedBy, mem_map, mem_filter, decide_eq_true_eq, Owns]
  constructor
  · rintro ⟨r, ⟨here, owned⟩, same⟩
    exact ⟨r, here, same, owned⟩
  · rintro ⟨r, here, same, owned⟩
    exact ⟨r, ⟨here, owned⟩, same⟩

/-- A DELETE removes the stored rows it names and everything below them. -/
theorem mem_cascaded : id ∈ cascaded db ids ↔
    ∃ s ∈ ids, Stored db s ∧ Relation.ReflTransGen (Owns db) s id := by
  have stays : ∀ a ∈ db.resources.rows.map (·.id), ownedBy db a ⊆ db.resources.rows.map (·.id) := by
    intro a _ b owned
    obtain ⟨r, here, same, -⟩ := mem_ownedBy.mp owned
    exact mem_map.mpr ⟨r, here, same⟩
  have rule : (fun a b => b ∈ ownedBy db a) = Owns db := by
    funext a b
    exact propext mem_ownedBy
  rw [cascaded, mem_reachFrom stays (filter_subset_self _) (by simp)]
  simp only [Reaches, rule, mem_filter, mem_map, decide_eq_true_eq]
  constructor
  · rintro ⟨s, ⟨⟨r, here, same⟩, named⟩, path⟩
    exact ⟨s, named, ⟨r, here, same⟩, path⟩
  · rintro ⟨s, named, ⟨r, here, same⟩, path⟩
    exact ⟨s, ⟨⟨r, here, same⟩, named⟩, path⟩

theorem cascaded_childless
    (childless : ∀ s ∈ ids, ∀ b, ¬ Owns db s b) (gone : id ∈ cascaded db ids) : id ∈ ids := by
  obtain ⟨s, named, -, path⟩ := mem_cascaded.mp gone
  cases path.cases_head with
  | inl same => exact same ▸ named
  | inr below =>
    obtain ⟨c, owned, -⟩ := below
    exact absurd owned (childless s named c)

theorem deleteResources_rows (after : r' ∈ (deleteResources db ids).resources) :
    ∃ r ∈ db.resources, SameNode r r' ∧ r.id ∉ cascaded db ids := by
  obtain ⟨r, here, out, rfl | rfl⟩ := mem_deleteResources after
  · exact ⟨r', here, .refl r', out⟩
  · exact ⟨r, here, ⟨rfl, rfl, rfl⟩, out⟩

theorem deleteResources_keeps (here : r ∈ db.resources) (out : r.id ∉ cascaded db ids) :
    ∃ r' ∈ (deleteResources db ids).resources, SameNode r r' := by
  unfold deleteResources
  simp only [mem_updateWhere]
  refine ⟨_, ⟨r, mem_deleteWhere.mpr ⟨here, decide_eq_false out⟩, rfl⟩, ?_⟩
  split
  · exact ⟨rfl, rfl, rfl⟩
  · exact .refl r

theorem stored_deleteResources : Stored (deleteResources db ids) id ↔ Stored db id ∧ id ∉ cascaded db ids := by
  constructor
  · rintro ⟨r', after, rfl⟩
    obtain ⟨r, here, node, out⟩ := deleteResources_rows after
    exact ⟨⟨r, here, node.id.symm⟩, node.id ▸ out⟩
  · rintro ⟨⟨r, here, rfl⟩, out⟩
    obtain ⟨r', after, node⟩ := deleteResources_keeps here out
    exact ⟨r', after, node.id⟩

theorem mem_deps_deleteResources {d : ResourceDep} :
    d ∈ (deleteResources db ids).deps ↔ d ∈ db.deps ∧ d.dependentId ∉ cascaded db ids ∧
      d.dependencyId ∉ cascaded db ids := by
  simp only [deleteResources, mem_deleteWhere, Bool.or_eq_false_iff, decide_eq_false_iff_not]

theorem marked_deleteResources : Marked (deleteResources db ids) id ↔ Marked db id ∧ id ∉ cascaded db ids := by
  constructor
  · rintro ⟨r', after, rfl, marked⟩
    obtain ⟨r, here, node, out⟩ := deleteResources_rows after
    exact ⟨⟨r, here, node.id.symm, node.marked ▸ marked⟩, node.id ▸ out⟩
  · rintro ⟨⟨r, here, rfl, marked⟩, out⟩
    obtain ⟨r', after, node⟩ := deleteResources_keeps here out
    exact ⟨r', after, node.id, node.marked.trans marked⟩

theorem owns_deleteResources (h : Owns (deleteResources db ids) a b) : Owns db a b := by
  obtain ⟨r', after, rfl, owned⟩ := h
  obtain ⟨r, here, node, -⟩ := deleteResources_rows after
  exact ⟨r, here, node.id.symm, node.ownerId ▸ owned⟩

theorem depends_deleteResources (h : Depends (deleteResources db ids) a b) : Depends db a b := by
  obtain ⟨stored, d, listed, ends⟩ := h
  exact ⟨(stored_deleteResources.mp stored).1, d, (mem_deps_deleteResources.mp listed).1, ends⟩

theorem waits_deleteResources (h : Waits (deleteResources db ids) a b) : Waits db a b :=
  h.imp owns_deleteResources depends_deleteResources

theorem underway_deleteResources (h : Underway (deleteResources db ids) id) : Underway db id := by
  rcases h with ⟨q, listed, rest⟩ | rest
  · exact .inl ⟨q, (mem_deleteWhere.mp listed).1, rest⟩
  · exact .inr rest

/-! ## Updating in place -/

section InPlace

variable {p : Resource → Bool} {f : Resource → Resource} (keeps : ∀ r, Keyed.key (f r) = Keyed.key r)
  (rows : db'.resources = db.resources.updateWhere p f keeps)
  (place : ∀ r, (f r).id = r.id ∧ (f r).ownerId = r.ownerId)

include keeps rows place

theorem mem_of_update (here : r ∈ db.resources) :
    ∃ r' ∈ db'.resources, r'.id = r.id ∧ r'.ownerId = r.ownerId := by
  refine ⟨if p r = true then f r else r, ?_, ?_⟩
  · rw [rows, mem_updateWhere]
    exact ⟨r, here, rfl⟩
  · split
    · exact place r
    · exact ⟨rfl, rfl⟩

theorem mem_before_update (after : r' ∈ db'.resources) :
    ∃ r ∈ db.resources, r'.id = r.id ∧ r'.ownerId = r.ownerId := by
  rw [rows, mem_updateWhere] at after
  obtain ⟨r, here, rfl⟩ := after
  refine ⟨r, here, ?_⟩
  split
  · exact place r
  · exact ⟨rfl, rfl⟩

theorem stored_update : Stored db' id ↔ Stored db id := by
  constructor
  · rintro ⟨r', after, rfl⟩
    obtain ⟨r, here, same, -⟩ := mem_before_update keeps rows place after
    exact ⟨r, here, same.symm⟩
  · rintro ⟨r, here, rfl⟩
    obtain ⟨r', after, same, -⟩ := mem_of_update keeps rows place here
    exact ⟨r', after, same⟩

theorem owns_update : Owns db' a b ↔ Owns db a b := by
  constructor
  · rintro ⟨r', after, rfl, owned⟩
    obtain ⟨r, here, same, owner⟩ := mem_before_update keeps rows place after
    exact ⟨r, here, same.symm, owner ▸ owned⟩
  · rintro ⟨r, here, rfl, owned⟩
    obtain ⟨r', after, same, owner⟩ := mem_of_update keeps rows place here
    exact ⟨r', after, same, owner.trans owned⟩

theorem clear_update (edges : db'.deps = db.deps) : Clear db' id ↔ Clear db id := by
  simp only [Clear, Depends, owns_update keeps rows place, stored_update keeps rows place, edges]

end InPlace

/-! ## Marking -/

theorem mem_dependentsOf : b ∈ dependentsOf db a ↔ ∃ d ∈ db.deps, d.dependencyId = a ∧ d.dependentId = b := by
  simp only [dependentsOf, mem_map, mem_filter, decide_eq_true_eq, mem_rows, and_assoc]

/-- A mark of `a` goes on to `b`: it owns it, or an edge has `b` depend on it. -/
def Spreads (db : Db) (a b : Uuid) : Prop :=
  Owns db a b ∨ ∃ d ∈ db.deps, d.dependencyId = a ∧ d.dependentId = b

theorem mem_spreadsTo : b ∈ spreadsTo db a ↔ Spreads db a b := by
  rw [spreadsTo, mem_append, mem_ownedBy, mem_dependentsOf, Spreads]

theorem Spreads.of_waits (waits : Waits db a b) : Spreads db a b :=
  waits.imp id And.right

theorem mem_markTree : a ∈ markTree db id ↔ Relation.ReflTransGen (Spreads db) id a := by
  let univ := id :: (db.resources.rows.map (·.id) ++ db.deps.rows.map (·.dependentId))
  have stays : ∀ a ∈ univ, spreadsTo db a ⊆ univ := by
    intro a _ b spread
    refine .tail _ (mem_append.mpr ?_)
    rcases mem_spreadsTo.mp spread with ⟨r, here, same, -⟩ | ⟨d, here, -, same⟩
    · exact .inl (mem_map.mpr ⟨r, here, same⟩)
    · exact .inr (mem_map.mpr ⟨d, here, same⟩)
  have enough : univ.length ≤ 1 + db.resources.rows.length + db.deps.rows.length := by
    simp only [univ, length_cons, length_append, length_map]
    omega
  have rule : (fun a b => b ∈ spreadsTo db a) = Spreads db := by
    funext a b
    exact propext mem_spreadsTo
  have seed : [id] ⊆ univ := cons_subset.mpr ⟨.head _, nil_subset _⟩
  rw [markTree, mem_reachFrom stays seed enough]
  simp only [Reaches, rule, mem_singleton, exists_eq_left]

/-- The tree of a mark holds everything its members wait for. -/
theorem markTree_closed (inside : a ∈ markTree db id) (waits : Waits db a b) : b ∈ markTree db id :=
  mem_markTree.mpr ((mem_markTree.mp inside).tail (.of_waits waits))

theorem markRow_key (db : Db) (r : Resource) : Keyed.key (markRow db r) = Keyed.key r := rfl

/-- The rows of a mark alone, before anything is scheduled. -/
def markRows (db : Db) (id : Uuid) : Db :=
  { db with
    resources := db.resources.updateWhere (fun r => r.id ∈ markTree db id && !r.marked)
      (markRow db) (markRow_key db) }

theorem mem_markRows : r' ∈ (markRows db id).resources ↔
    ∃ r ∈ db.resources, r' = if r.id ∈ markTree db id && !r.marked then markRow db r else r := by
  unfold markRows
  rw [mem_updateWhere]
  simp only [eq_comm]

theorem markRows_node (db : Db) (id : Uuid) (r : Resource) :
    let r' := if r.id ∈ markTree db id && !r.marked then markRow db r else r
    r'.id = r.id ∧ r'.ownerId = r.ownerId ∧ (r'.marked = true ↔ r.marked = true ∨ r.id ∈ markTree db id) := by
  intro r'
  simp only [r']
  split
  · rename_i picked
    simp only [Bool.and_eq_true, decide_eq_true_eq] at picked
    exact ⟨rfl, rfl, fun _ => .inr picked.1, fun _ => rfl⟩
  · rename_i left
    simp only [Bool.and_eq_true, decide_eq_true_eq, Bool.not_eq_true', not_and, Bool.not_eq_false] at left
    exact ⟨rfl, rfl, .inl, fun h => h.elim (fun m => m) left⟩

theorem markRow_not_stirs (db : Db) (r : Resource) : ¬ Updated.Stirs ⟨r, markRow db r⟩ :=
  not_stirs (Nat.le_refl _) rfl rfl id

theorem markRow_place (db : Db) (r : Resource) :
    (markRow db r).id = r.id ∧ (markRow db r).ownerId = r.ownerId :=
  ⟨rfl, rfl⟩

theorem stored_markRows : Stored (markRows db id) a ↔ Stored db a :=
  stored_update (markRow_key db) rfl (markRow_place db)

theorem marked_markRows : Marked (markRows db id) a ↔ Marked db a ∨ (Stored db a ∧ a ∈ markTree db id) := by
  constructor
  · rintro ⟨r', after, rfl, marked⟩
    obtain ⟨r, here, rfl⟩ := mem_markRows.mp after
    obtain ⟨same, -, mark⟩ := markRows_node db id r
    rw [same]
    exact (mark.mp marked).imp (fun m => ⟨r, here, rfl, m⟩) fun m => ⟨⟨r, here, rfl⟩, m⟩
  · intro h
    have : ∃ r ∈ db.resources, r.id = a ∧ (r.marked = true ∨ r.id ∈ markTree db id) := by
      rcases h with ⟨r, here, rfl, marked⟩ | ⟨⟨r, here, rfl⟩, inside⟩
      · exact ⟨r, here, rfl, .inl marked⟩
      · exact ⟨r, here, rfl, .inr inside⟩
    obtain ⟨r, here, rfl, mark⟩ := this
    obtain ⟨same, -, marked⟩ := markRows_node db id r
    exact ⟨_, mem_markRows.mpr ⟨r, here, rfl⟩, same, marked.mpr mark⟩

theorem owns_markRows (h : Owns (markRows db id) a b) : Owns db a b :=
  (owns_update (markRow_key db) rfl (markRow_place db)).mp h

theorem depends_markRows (h : Depends (markRows db id) a b) : Depends db a b :=
  ⟨stored_markRows.mp h.1, h.2⟩

theorem waits_markRows (h : Waits (markRows db id) a b) : Waits db a b :=
  h.imp owns_markRows depends_markRows

theorem cascadeOnReadyChange_still {updated : List Updated} (still : ∀ u ∈ updated, ¬ u.Stirs) :
    cascadeOnReadyChange db updated = db := by
  have upgraded : updated.filter (·.upgraded) = [] :=
    filter_eq_nil_iff.mpr fun u listed up => still u listed (.inr up)
  have demoted : updated.filter (·.demoted) = [] :=
    filter_eq_nil_iff.mpr fun u listed down => still u listed (.inl down)
  simp [cascadeOnReadyChange, upgraded, demoted, onUpgraded, onDemoted, scheduleEligible, armRollupRecheck, repend,
    byId]

theorem cascadeMark_eq (db : Db) (id : Uuid) : cascadeMarkForDeletion db id = markRows db id := by
  refine cascadeOnReadyChange_still fun u listed => ?_
  obtain ⟨r, -, rfl⟩ := mem_map.mp listed
  exact markRow_not_stirs db r

theorem cascadeMark_schedules (db : Db) (id : Uuid) :
    Effects Label.Calm (markRows db id) (cascadeMarkForDeletion db id) := by
  rw [cascadeMark_eq]
  exact .refl

theorem cascadeMark_only (db : Db) (id : Uuid) :
    OnlySchedules (markRows db id) (cascadeMarkForDeletion db id) := by
  rw [cascadeMark_eq]
  exact .refl _

theorem spreads_markRows : Spreads (markRows db id) a b ↔ Spreads db a b := by
  have owns : Owns (markRows db id) a b ↔ Owns db a b := owns_update (markRow_key db) rfl (markRow_place db)
  exact or_congr_left owns

theorem markRows_again (db : Db) (id : Uuid) : markRows (markRows db id) id = markRows db id := by
  have tree (a : Uuid) : a ∈ markTree (markRows db id) id ↔ a ∈ markTree db id := by
    have same : Spreads (markRows db id) = Spreads db := by
      funext a b
      exact propext spreads_markRows
    rw [mem_markTree, mem_markTree, same]
  have none : ∀ r' ∈ (markRows db id).resources,
      ¬ (r'.id ∈ markTree (markRows db id) id && !r'.marked) = true := by
    intro r' after picked
    simp only [Bool.and_eq_true, decide_eq_true_eq, Bool.not_eq_true', tree] at picked
    obtain ⟨r, here, rfl⟩ := mem_markRows.mp after
    obtain ⟨same, -, marked⟩ := markRows_node db id r
    rw [same] at picked
    exact Bool.false_ne_true (picked.2.symm.trans (marked.mpr (.inr picked.1)))
  unfold markRows at none ⊢
  rw [updateWhere_of_none none]

/-- **A mark is exact.**  Among the stored rows, the unmarked ones that the start leads to are marked, with
the finalizer of their kind and without a freeze; the other rows and the other tables stay; a second
call changes nothing. -/
theorem mark_exact (db : Db) (id : Uuid) :
    let after := cascadeMarkForDeletion db id
    let reached := fun r : Resource => Relation.ReflTransGen (Spreads db) id r.id
    (∀ r', r' ∈ after.resources ↔ ∃ r ∈ db.resources, (r.marked = false ∧ reached r ∧ r' = { r with
        deletionRequestedAt := some db.now
        frozenUntil := none
        finalizers := (db.kindFinalizer r).elim r.finalizers ([·])
        updatedAt := db.now }) ∨
      (¬ (r.marked = false ∧ reached r) ∧ r' = r)) ∧
    after = { db with resources := after.resources } ∧ cascadeMarkForDeletion after id = after := by
  intro after reached
  have eq : after = markRows db id := cascadeMark_eq db id
  refine ⟨fun r' => ?_, by rw [eq]; rfl, by rw [cascadeMark_eq, eq, markRows_again]⟩
  rw [eq, mem_markRows]
  refine exists_congr fun r => and_congr_right fun _ => ?_
  have picked : (r.id ∈ markTree db id && !r.marked) = true ↔ r.marked = false ∧ reached r := by
    simp [mem_markTree, reached, and_comm]
  by_cases chosen : r.marked = false ∧ reached r
  · rw [if_pos (picked.mpr chosen)]
    exact ⟨fun same => .inl ⟨chosen.1, chosen.2, same⟩, fun h => h.elim (·.2.2) fun h => absurd chosen h.1⟩
  · rw [if_neg (mt picked.mp chosen)]
    exact ⟨fun same => .inr ⟨chosen, same⟩, fun h => h.elim (fun h => absurd ⟨h.1, h.2.1⟩ chosen) (·.2)⟩

/-! ## Steps of a teardown -/

theorem mem_enqueueAll {taskType : TaskType} {rows : List Resource} {q : WorkQueueRow}
    (after : q ∈ (rows.foldl (enqueueNew taskType) db).workQueue) : q ∈ db.workQueue ∨
      ∃ r ∈ rows, q.taskType = taskType ∧ q.resourceId = r.id ∧ ¬ db.Drawn q.id := by
  induction rows generalizing db with
  | nil => exact .inl after
  | cons r rest ih =>
    rcases ih after with old | ⟨s, listed, type, same, new⟩
    · rcases mem_insertNew.mp old with older | ⟨rfl, -⟩
      · exact .inl older
      · exact .inr ⟨r, .head _, rfl, rfl, not_drawn_next db⟩
    · refine .inr ⟨s, .tail _ listed, type, same, fun drawn => new ?_⟩
      exact drawn.mono (Nat.le_succ _)

theorem enqueueAll_only (taskType : TaskType) (rows : List Resource) (db : Db) :
    OnlySchedules db (rows.foldl (enqueueNew taskType) db) :=
  OnlySchedules.foldl (enqueueNew_only taskType) rows db

theorem enqueueAll_dispatches {rows : List Resource} (clear : ∀ r ∈ rows, Clear db r.id) :
    Dispatches db (rows.foldl (enqueueNew .delete) db) := by
  have only := enqueueAll_only .delete rows db
  refine ⟨.of_eq only.resources only.deps, ?_⟩
  rintro id (⟨q, listed, type, rfl⟩ | ⟨t, listed, rest⟩ | ⟨o, listed, rest⟩)
  · rcases mem_enqueueAll listed with old | ⟨r, listed, -, same, -⟩
    · exact .inl (.inl ⟨q, old, type, rfl⟩)
    · exact .inr (same ▸ clear r listed)
  · exact .inl (.inr (.inl ⟨t, only.tasks ▸ listed, rest⟩))
  · exact .inl (.inr (.inr ⟨o, only.workOutbox ▸ listed, rest⟩))

/-- What the statements of a teardown do. -/
inductive TreeStep : Db → Db → Prop
  | dispatch {db db' : Db} (step : Dispatches db db') : TreeStep db db'
  | mark {db : Db} (id : Uuid) : TreeStep db (markRows db id)
  | remove {db : Db} (ids : List Uuid) (clear : ∀ id ∈ ids, Clear db id) : TreeStep db (deleteResources db ids)

/-- Marks are closed under waiting, and a row whose teardown is underway waits for
nothing. -/
structure InOrder (db : Db) : Prop where
  linked : Linked db
  closed : ∀ a b, Marked db a → Waits db a b → Marked db b
  clear : ∀ id, Underway db id → Clear db id

/-- What waits for a marked row is marked. -/
def Closed (db : Db) : Prop := ∀ a b, Marked db a → Waits db a b → Marked db b

theorem Closed.mark (closed : Closed db) (id : Uuid) : Closed (markRows db id) := by
  intro a b marked waits
  have before := waits_markRows waits
  rw [marked_markRows] at marked ⊢
  rcases marked with old | ⟨-, inside⟩
  · exact .inl (closed a b old before)
  · exact .inr ⟨stored_of_waits before, markTree_closed inside before⟩

theorem Closed.delete (closed : Closed db) (ids : List Uuid) : Closed (deleteResources db ids) := by
  intro a b marked waits
  rw [marked_deleteResources] at marked ⊢
  refine ⟨closed a b marked.1 (waits_deleteResources waits), ?_⟩
  exact (stored_deleteResources.mp (stored_of_waits waits)).2

/-- **The gate is enough.**  A row that passes it waits for nothing, marked or not. -/
theorem Closed.clear_of_gate (closed : Closed db) (here : r ∈ db.resources) (gate : unblocked db r = true) :
    Clear db r.id := by
  obtain ⟨marked, free⟩ := unblocked_iff.mp gate
  intro b
  refine ⟨(free b).1, fun dependent => (free b).2 dependent ?_⟩
  exact closed r.id b ((marked_of_mem here).mpr marked) (.inr dependent)

theorem Clear.of_le (clear : Clear db id) (le : ∀ b, Waits db' id b → Waits db id b) : Clear db' id := by
  rw [clear_iff] at clear ⊢
  exact fun b h => clear b (le b h)

theorem TreeStep.inOrder (step : TreeStep db db') (good : InOrder db) : InOrder db' := by
  cases step with
  | dispatch step =>
    refine ⟨step.tree.linked good.linked, fun a b marked waits => ?_, fun id h => ?_⟩
    · rw [step.tree.marked] at marked ⊢
      exact good.closed a b marked (step.tree.waits good.linked waits)
    · refine step.tree.clear good.linked ?_
      exact (step.underway id h).elim (good.clear id) fun clear => clear
  | mark id =>
    exact ⟨fun d here => stored_markRows.mpr (good.linked d here), Closed.mark good.closed id,
      fun c h => (good.clear c h).of_le fun b => waits_markRows⟩
  | remove ids clear =>
    refine ⟨fun d here => ?_, Closed.delete good.closed ids,
      fun c h => (good.clear c (underway_deleteResources h)).of_le fun b => waits_deleteResources⟩
    obtain ⟨listed, dependent, -⟩ := mem_deps_deleteResources.mp here
    exact stored_deleteResources.mpr ⟨good.linked d listed, dependent⟩

/-! ## Forests -/

/-- The rows form a forest, and the edges are acyclic and join siblings. -/
structure Forest (db : Db) : Prop where
  owned : ∀ a b, Owns db a b → Stored db a
  acyclic : Blocking.Acyclic (Owns db)
  siblings : ∀ d ∈ db.deps, ∃ r ∈ db.resources, ∃ s ∈ db.resources,
    r.id = d.dependentId ∧ s.id = d.dependencyId ∧ r.ownerId = s.ownerId
  ordered : Blocking.Acyclic (Depends db)

theorem Forest.linked (forest : Forest db) : Linked db := by
  intro d here
  obtain ⟨r, stored, -, -, same, -⟩ := forest.siblings d here
  exact ⟨r, stored, same⟩

/-- No row waits for itself, through any chain of rows. -/
theorem Forest.waits_acyclic (forest : Forest db) : Blocking.Acyclic (Waits db) := by
  refine Blocking.acyclic_waits forest.acyclic forest.ordered ?_
  rintro a b ⟨-, d, here, rfl, rfl⟩ p
  obtain ⟨r, hr, s, hs, dependent, dependency, same⟩ := forest.siblings d here
  have owner : ∀ x ∈ db.resources, Owns db p x.id ↔ x.ownerId = some p := by
    intro x hx
    constructor
    · rintro ⟨y, hy, eq, owned⟩
      rwa [← eq_of_pk resource_primary hy hx eq]
    · exact fun owned => ⟨x, hx, rfl, owned⟩
  rw [← dependent, ← dependency, owner r hr, owner s hs, same]

theorem Forest.of_ascending (owners : ∀ r ∈ db.resources.rows, ∀ p ∈ r.ownerId,
      p < r.id ∧ ∃ s ∈ db.resources.rows, s.id = p)
    (edges : ∀ d ∈ db.deps.rows, d.dependencyId < d.dependentId ∧
      ∃ r ∈ db.resources.rows, ∃ s ∈ db.resources.rows,
        r.id = d.dependentId ∧ s.id = d.dependencyId ∧ r.ownerId = s.ownerId) : Forest db where
  owned a b owns := by
    obtain ⟨r, here, -, owned⟩ := owns
    exact (owners r here a owned).2
  acyclic := by
    refine Blocking.acyclic_of_rank (fun a => a) ?_
    rintro a b ⟨r, here, rfl, owned⟩
    exact (owners r here a owned).1
  siblings d here := (edges d here).2
  ordered := by
    refine Blocking.acyclic_of_rank (fun a => a) ?_
    rintro a b ⟨-, d, here, rfl, rfl⟩
    exact (edges d here).1

theorem Forest.of_le (forest : Forest db) (owns : ∀ a b, Owns db' a b → Owns db a b)
    (depends : ∀ a b, Depends db' a b → Depends db a b)
    (owners : ∀ a b, Owns db' a b → Stored db a → Stored db' a)
    (edges : ∀ d' ∈ db'.deps, ∃ d ∈ db.deps, SameEnds d' d ∧ ∀ r ∈ db.resources,
      r.id = d.dependentId ∨ r.id = d.dependencyId →
        ∃ r' ∈ db'.resources, r'.id = r.id ∧ r'.ownerId = r.ownerId) :
    Forest db' where
  owned a b h := owners a b h (forest.owned a b (owns a b h))
  acyclic := forest.acyclic.of_le owns
  siblings d' here' := by
    obtain ⟨d, here, ends, kept⟩ := edges d' here'
    obtain ⟨r, hr, s, hs, dependent, dependency, same⟩ := forest.siblings d here
    obtain ⟨r', hr', idr, ownr⟩ := kept r hr (.inl dependent)
    obtain ⟨s', hs', ids, owns⟩ := kept s hs (.inr dependency)
    refine ⟨r', hr', s', hs', ?_, ?_, ?_⟩
    · rw [idr, dependent, ends.dependentId]
    · rw [ids, dependency, ends.dependencyId]
    · rw [ownr, owns, same]
  ordered := forest.ordered.of_le depends

theorem TreeStep.forest (step : TreeStep db db') (forest : Forest db) : Forest db' := by
  cases step with
  | dispatch step =>
    refine forest.of_le (fun a b => step.tree.owns) (fun a b => step.tree.depends forest.linked)
      (fun a b _ => step.tree.stored) fun d' here' => ?_
    obtain ⟨d, here, ends⟩ := step.tree.edges d' here'
    refine ⟨d, here, ends, fun r hr _ => ?_⟩
    obtain ⟨r', after, node⟩ := step.tree.kept r hr
    exact ⟨r', after, node.id, node.ownerId⟩
  | mark id =>
    refine forest.of_le (fun a b => owns_markRows) (fun a b => depends_markRows)
      (fun a b _ => stored_markRows.mpr) fun d here => ⟨d, here, .refl d, fun r hr _ => ?_⟩
    obtain ⟨same, owner, -⟩ := markRows_node db id r
    exact ⟨_, mem_markRows.mpr ⟨r, hr, rfl⟩, same, owner⟩
  | remove ids clear =>
    refine forest.of_le (fun a b => owns_deleteResources) (fun a b => depends_deleteResources) ?_ ?_
    · intro a b owned stored
      refine stored_deleteResources.mpr ⟨stored, fun gone => ?_⟩
      -- a removed owner takes its children along
      obtain ⟨s, named, there, path⟩ := mem_cascaded.mp gone
      have child : b ∈ cascaded db ids :=
        mem_cascaded.mpr ⟨s, named, there, path.tail (owns_deleteResources owned)⟩
      exact (stored_deleteResources.mp (stored_of_waits (.inl owned))).2 child
    · intro d here
      obtain ⟨listed, dependent, dependency⟩ := mem_deps_deleteResources.mp here
      refine ⟨d, listed, .refl d, fun r hr ends => ?_⟩
      have out : r.id ∉ cascaded db ids := by
        rcases ends with same | same <;> rwa [same]
      obtain ⟨r', after, node⟩ := deleteResources_keeps hr out
      exact ⟨r', after, node.id, node.ownerId⟩

end Converge.Kernel
