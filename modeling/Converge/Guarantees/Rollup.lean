/-
# Guarantees.Rollup -- whom a rollup waits for

A reconcile of a kind with a rollup reaction asks whether its descendants are settled,
advances only if they are, and hands the list of them to the rollup.  Both queries find
the descendants by `root_id`.  A compose stamps a new child with the root of its parent,
so the column names the top of the tree at every depth.

For a root the two queries therefore see exactly what it owns, through any number of
levels (`rooted_iff`).  For a composite that itself has an owner they see nothing: its
gate is open from the start, and its rollup is handed an empty list.

`rollup_sees_owned` says that this is the exact line.
-/
import Converge.Kernel.Reactions
import Converge.Kernel.Graph

namespace Converge.Kernel

open Converge.Theory List Table Option

set_option autoImplicit false
set_option linter.unusedSectionVars false

/-- Synced, failed for its generation, set aside, or being deleted. -/
def Settled (d : Resource) : Prop :=
  d.generation ≤ d.syncedGen ∨ d.failureGen = d.generation ∨ d.frozen = true ∨ d.marked = true
deriving Decidable

theorem settled_iff {d : Resource} : Settled d ↔ unsettled d = false := by
  rw [← Bool.not_eq_true, ← not_iff_not]
  simp only [Settled, unsettled, not_or, Nat.not_le, Bool.not_eq_true, Bool.and_eq_true,
    decide_eq_true_eq, ne_eq, Bool.not_eq_true']
  tauto

section Rollup

variable [Postgres] {db : Db} {id : Uuid} {d : Resource} {env : ReactionEnv}

/-- `b` is owned by `a`, directly or through what `a` owns. -/
def OwnsBelow (db : Db) : Uuid → Uuid → Prop := Relation.TransGen (Owns db)

/-- No row of that id has an owner. -/
def IsRoot (db : Db) (id : Uuid) : Prop := ∀ r ∈ db.resources, r.id = id → r.ownerId = none

/-! ## What `root_id` says -/

theorem rooted_owned (reachable : Reachable db) (here : d ∈ db.resources)
    (rooted : d.rootId = some id) : OwnsBelow db id d.id ∧ IsRoot db id := by
  obtain ⟨own, lineage⟩ := reachable.lineage
  have family := reachable.family
  -- owners are drawn before what they own
  induction h : d.id using Earlier.wellFounded.induction generalizing d with
  | _ b ih =>
    subst h
    obtain ⟨o, owned⟩ := ne_none_iff_exists'.mp (family.owned here rooted)
    obtain ⟨p, stored, rfl, root⟩ := family.owner d here o owned
    have last : Owns db p.id d.id := ⟨d, here, rfl, owned⟩
    rw [rooted, some.injEq] at root
    cases stamp : p.rootId with
    | some top =>
      rw [stamp] at root
      subst root
      have above := ih p.id (lineage.earlier _ _ (lineage.owns last)) stored stamp rfl
      exact ⟨above.1.tail last, above.2⟩
    | none =>
      rw [stamp] at root
      subst root
      refine ⟨.single last, fun r there same => ?_⟩
      obtain rfl := eq_of_pk resource_primary there stored same
      by_contra nested
      obtain ⟨o', owner⟩ := ne_none_iff_exists'.mp nested
      obtain ⟨q, -, -, stamped⟩ := family.owner r there o' owner
      rw [stamp] at stamped
      cases stamped

theorem owned_rooted (reachable : Reachable db) (top : IsRoot db id) {b : Uuid}
    (below : OwnsBelow db id b) : ∃ d ∈ db.resources, d.id = b ∧ d.rootId = some id := by
  have family := reachable.family
  induction below with
  | single last =>
    obtain ⟨d, here, rfl, owned⟩ := last
    obtain ⟨p, stored, rfl, root⟩ := family.owner d here _ owned
    rw [family.root p stored (top p stored rfl)] at root
    exact ⟨d, here, rfl, root⟩
  | tail _ last ih =>
    obtain ⟨d, here, rfl, owned⟩ := last
    obtain ⟨c, stored, rfl, rooted⟩ := ih
    obtain ⟨p, stored', same, root⟩ := family.owner d here _ owned
    obtain rfl := eq_of_pk resource_primary stored' stored same
    rw [rooted] at root
    exact ⟨d, here, rfl, root⟩

/-- **The stamp of a root marks exactly what it owns.** -/
theorem rooted_iff (reachable : Reachable db) (top : IsRoot db id)
    (here : d ∈ db.resources) : d.rootId = some id ↔ OwnsBelow db id d.id := by
  constructor
  · exact fun rooted => (rooted_owned reachable here rooted).1
  · intro below
    obtain ⟨d', here', same, rooted⟩ := owned_rooted reachable top below
    obtain rfl := eq_of_pk resource_primary here' here same
    exact rooted

theorem mem_listDescendants : d ∈ listDescendants db id ↔ d ∈ db.resources ∧ d.rootId = some id := by
  rw [listDescendants, mem_filter, decide_eq_true_eq]
  rfl

theorem descendantsSettled_iff :
    descendantsSettled db id = true ↔ ∀ d ∈ db.resources, d.rootId = some id → Settled d := by
  simp only [descendantsSettled, Bool.not_eq_true', List.any_eq_false, Bool.and_eq_true,
    decide_eq_true_eq, settled_iff, not_and, Bool.not_eq_true]
  exact Iff.rfl

/-! ## The reconcile -/

/-- The gate of the run reads `db`. -/
def ReactionEnv.GatesOn (env : ReactionEnv) (db : Db) (id : Uuid) : Prop :=
  ∀ settled, env.settled = .ok settled → settled = descendantsSettled db id

/-- The run lists its descendants from `db`. -/
def ReactionEnv.ListsFrom (env : ReactionEnv) (db : Db) (id : Uuid) : Prop :=
  ∀ rows, env.descendants = .ok rows → rows = listDescendants db id

/-- The reconcile advances only once everything its resource owns is settled. -/
def AdvancesSettled (db : Db) (m : ManifestDoc) (t : WorkTask) (env : ReactionEnv) : Prop :=
  ∀ row, recorded m t env (reactReconcile m t env) = some row → row.succeeded = true →
    row.advanceSyncedGen = true → ∀ d ∈ db.resources, OwnsBelow db t.resourceId d.id → Settled d

/-- The rollup is handed exactly what the resource owns, each row once. -/
def ListsOwned (db : Db) (m : ManifestDoc) (t : WorkTask) (env : ReactionEnv) : Prop :=
  ∀ rx req raised, .reacted .rollupReaction rx req raised ∈ (reactReconcile m t env).log →
    req.descendants.Nodup ∧ ∀ d, d ∈ req.descendants ↔ d ∈ db.resources ∧ OwnsBelow db t.resourceId d.id

theorem AdvancesSettled.of_gate {m : ManifestDoc} {t : WorkTask}
    (declares : m.rollupReaction.isSome = true) (reads : env.GatesOn db t.resourceId)
    (sees : ∀ d ∈ db.resources, OwnsBelow db t.resourceId d.id → d.rootId = some t.resourceId) :
    AdvancesSettled db m t env := by
  intro row found succeeded advances d here below
  obtain ⟨rollup, declared⟩ := isSome_iff_exists.mp declares
  obtain ⟨-, g₁, g, advance, -, -, rolled, rfl⟩ :=
    reactReconcile_ok (recorded_success found succeeded)
  obtain rfl : advance = true := advances
  have gate := reads true (rollupStage_settled declared rolled)
  exact descendantsSettled_iff.mp gate.symm d here (sees d here below)

theorem ListsOwned.of_list {m : ManifestDoc} {t : WorkTask} (reads : env.ListsFrom db t.resourceId)
    (sees : ∀ d ∈ db.resources, d.rootId = some t.resourceId ↔ OwnsBelow db t.resourceId d.id) :
    ListsOwned db m t env := by
  intro rx req raised sent
  have read : env.descendants = .ok req.descendants := by
    rcases reactReconcile_logs _ sent with passed | ⟨_, -, stopped⟩
    · cases passed with
      | reacted _ listed _ => exact listed rfl
    · cases stopped with
      | reactFailed _ _ listed _ => exact listed rfl
  rw [reads _ read]
  have once : db.resources.rows.Nodup :=
    db.resources.unique.imp fun apart same => apart (resource_primary _ _ (congrArg Resource.id same))
  refine ⟨once.filter _, fun d => ?_⟩
  rw [mem_listDescendants]
  exact and_congr_right fun here => sees d here

/-! ## Where the two queries fall short -/

def cellManifest : ManifestDoc :=
  ⟨"cell", 1, [⟨"compose", .specChange, [.children, .edges, .configs, .status, .conditions], "", ""⟩,
    ⟨"roll", .childrenSettled, [.status, .conditions], "", ""⟩], "", 0, 0, 0, false, 0, 0, false⟩

/-- A first reconcile of resource `id`. -/
def firstTask (id : Uuid) : WorkTask :=
  ⟨0, id, "cell", 1, .reconcile, none, 1, none, none, none, 0, 1⟩

theorem smooth_requests (id : Uuid) (rows : List Resource) :
    ∃ rx req raised, .reacted .rollupReaction rx req raised ∈
      (reactReconcile cellManifest (firstTask id) (smooth 1 true rows)).log ∧ req.descendants = rows :=
  ⟨_, _, _, mem_of_getElem? (i := 3) rfl, rfl⟩

theorem not_root_list (reachable : Reachable db) (nested : ¬ IsRoot db id) : listDescendants db id = [] := by
  rw [eq_nil_iff_forall_not_mem]
  intro d listed
  obtain ⟨here, rooted⟩ := mem_listDescendants.mp listed
  exact nested (rooted_owned reachable here rooted).2

/-- **A rollup waits for what its resource owns, and is handed exactly that, if the resource
is a root or owns nothing; and only then.**  The gate and the list may be read in different
states of a run; each is quantified over every state reached. -/
theorem rollup_sees_owned (reachable : Reachable db) (id : Uuid) :
    (∀ (m : ManifestDoc) (t : WorkTask) (env : ReactionEnv), m.rollupReaction.isSome = true →
      t.resourceId = id → (env.GatesOn db id → AdvancesSettled db m t env) ∧
          (env.ListsFrom db id → ListsOwned db m t env)) ↔
      IsRoot db id ∨ ∀ b, ¬ Owns db id b := by
  constructor
  · intro sound
    by_contra open_
    obtain ⟨nested, owner⟩ := not_or.mp open_
    obtain ⟨b, owned⟩ := not_forall_not.mp owner
    have lists := (sound cellManifest (firstTask id) (smooth 1 true (listDescendants db id)) rfl rfl).2
      fun rows read => (Except.ok.inj read).symm
    obtain ⟨rx, req, raised, sent, rows⟩ := smooth_requests id (listDescendants db id)
    obtain ⟨d, here, rfl, owns⟩ := owned
    have handed : d ∈ req.descendants :=
      ((lists rx req raised sent).2 d).mpr ⟨here, .single ⟨d, here, rfl, owns⟩⟩
    rw [rows, not_root_list reachable nested] at handed
    cases handed
  · rintro exact_ m t env declares rfl
    have sees : ∀ d ∈ db.resources, d.rootId = some t.resourceId ↔ OwnsBelow db t.resourceId d.id := by
      rcases exact_ with top | nothing
      · exact fun d here => rooted_iff reachable top here
      · intro d here
        have none : ¬ OwnsBelow db t.resourceId d.id := fun below => by
          obtain ⟨b, first, -⟩ := Relation.TransGen.head'_iff.mp below
          exact nothing b first
        exact iff_of_false (fun rooted => none (rooted_owned reachable here rooted).1) none
    exact ⟨fun reads => .of_gate declares reads fun d here => (sees d here).mpr,
      fun reads => .of_list reads sees⟩

end Rollup

/-- A root composes a cell, and the cell a machine. -/
def nested : Script :=
  [fun _ => [applyRoot "app" "a", claimAll "b" "app" .reconcile],
    composes "app" noGrace leafFinalizer ⟨[child "cell" "c"], [], []⟩, returns "app" partly,
    fun _ => drainRechecks ++ [claimAll "b" "cell" .reconcile],
    composes "cell" noGrace leafFinalizer ⟨[child "vm" "v"], [], []⟩]

/-- The root of the nested composition waits for the machine of the cell. -/
theorem rollup_sees_owned_root : letI := counting
    let db := run Db.empty (nested.play Db.empty)
    (∃ v ∈ db.resources.rows, v.name = "v" ∧ v.ownerId ≠ some 0 ∧ v.rootId = some 0) ∧
      ∀ (m : ManifestDoc) (t : WorkTask) (env : ReactionEnv), m.rollupReaction.isSome = true →
        t.resourceId = 0 → (env.GatesOn db 0 → AdvancesSettled db m t env) ∧
          (env.ListsFrom db 0 → ListsOwned db m t env) := by
  intro db
  have reachable : @Reachable counting db := ⟨_, rfl⟩
  have facts : letI := counting
      (∃ v ∈ db.resources.rows, v.name = "v" ∧ v.ownerId ≠ some 0 ∧ v.rootId = some 0) ∧
        ∀ r ∈ db.resources.rows, r.id = 0 → r.ownerId = none := by
    decide +kernel
  exact ⟨facts.1, (@rollup_sees_owned counting db reachable 0).mpr (.inl facts.2)⟩

/-- The cell asks for its descendants while its machine waits to be run: it finds none, rolls
up an empty list, and its result advances it to its generation. -/
theorem rollup_skips_owned : letI := counting
    let db := run Db.empty (nested.play Db.empty)
    ∃ t ∈ db.tasks, t.kind = "cell" ∧
      let env := smooth ((db.resource? t.resourceId).elim 0 (·.composedGen))
        (descendantsSettled db t.resourceId) (listDescendants db t.resourceId)
      let row := recorded cellManifest t env (reactReconcile cellManifest t env)
      env.settled = .ok true ∧ env.descendants = .ok [] ∧ row = some (reconcileRow t ⟨none, []⟩ true) ∧
        let after := run db [.appendOutbox (reconcileRow t ⟨none, []⟩ true), drainAll]
        (∃ c ∈ after.resources.rows, c.id = t.resourceId ∧ c.syncedGen = c.generation) ∧
          ∃ v ∈ after.resources.rows, v.ownerId = some t.resourceId ∧ ¬ Settled v := by
  decide +kernel

end Converge.Kernel
