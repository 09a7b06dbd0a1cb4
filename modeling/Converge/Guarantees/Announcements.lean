/-
# Guarantees.Announcements -- which transitions are announced

A binding watches one of five transitions of a kind.  Three of them are found by the trigger
on `resources`, among the rows of one UPDATE; `created` is announced by the apply, and no
statement announces `deleted`.

* `update_announces_down`: for every UPDATE and every set of bindings, each row that turns
  unhealthy or newly fails is announced once and as what happened to it, exactly if (1) some
  row that goes down in the same UPDATE has a root, and (2) no row turns unhealthy that had
  failed before.  `root_failure_unheard` has a root that fails alone.
* `step_announces_life`: a statement announces each creation and each removal once and
  nothing else as one, exactly if it removes no watched row, creates no watched row except as
  an apply, and is not an apply whose change of a row a binding would take for a creation.
  `creations_misheard` shows all three.
-/
import Converge.Kernel.Lifecycle
import Converge.Kernel.Rows

namespace Converge.Kernel

open Converge.Theory List Table

set_option autoImplicit false
set_option linter.unusedSectionVars false

variable {args : ApplySpec} {mid : Db} {d : LifecycleDelivery} {r : Resource} {p : Resource → Bool}
    {f : Resource → Resource} {u : Updated}

/-! ## Emitting -/

section Emission

variable [Postgres] {db : Db} {k : DeliveryKey}

/-- A delivery waits under this key. -/
def Db.Awaits (db : Db) (k : DeliveryKey) : Prop := ∃ d ∈ db.lifecycleOutbox, d.pk = k

/-- The key of a delivery of `r` to some binding that watches it. -/
def Sends (db : Db) (transition : Transition) (r : Resource) (k : DeliveryKey) : Prop :=
  ∃ b ∈ db.reactorBindings.rows, b.watches transition r = true ∧ k = (r.id, transition, r.generation, b.name)

theorem waits_insertNew {t : Table LifecycleDelivery} :
    (∃ e ∈ t.insertNew d, e.pk = k) ↔ (∃ e ∈ t, e.pk = k) ∨ k = d.pk := by
  constructor
  · rintro ⟨e, listed, rfl⟩
    rcases mem_insertNew.mp listed with old | ⟨rfl, -⟩
    · exact .inl ⟨e, old, rfl⟩
    · exact .inr rfl
  · rintro (⟨e, old, same⟩ | rfl)
    · exact ⟨e, mem_insertNew.mpr (.inl old), same⟩
    · by_cases taken : t.Occupied d
      · obtain ⟨e, old, clash⟩ := taken
        exact ⟨e, mem_insertNew.mpr (.inl old), clash⟩
      · exact ⟨d, mem_insertNew.mpr (.inr ⟨rfl, taken⟩), rfl⟩

theorem emit_awaits {transition : Transition} :
    (emit transition db r).Awaits k ↔ db.Awaits k ∨ Sends db transition r k := by
  have each (bindings : List ReactorBinding) (t : Table LifecycleDelivery) : (∃ e ∈ bindings.foldl
          (fun t b => t.insertNew ⟨r.id, r.kind, transition, r.generation, b.name⟩) t, e.pk = k) ↔
        (∃ e ∈ t, e.pk = k) ∨ ∃ b ∈ bindings, k = (r.id, transition, r.generation, b.name) := by
    induction bindings generalizing t with
    | nil => simp only [foldl_nil, not_mem_nil, false_and, exists_false, or_false]
    | cons b rest ih =>
      rw [foldl_cons, ih, waits_insertNew, or_assoc]
      simp only [mem_cons, exists_eq_or_imp, LifecycleDelivery.pk]
  refine (each _ _).trans (or_congr_right ?_)
  simp only [Sends, mem_filter, and_assoc]

theorem foldl_emit_awaits (transition : Resource → Transition) {rows : List Resource} :
    (rows.foldl (fun db r => emit (transition r) db r) db).Awaits k ↔
      db.Awaits k ∨ ∃ r ∈ rows, Sends db (transition r) r k := by
  induction rows generalizing db with
  | nil => simp only [foldl_nil, not_mem_nil, false_and, exists_false, or_false]
  | cons r rest ih =>
    rw [foldl_cons, ih, emit_awaits, or_assoc]
    have same (r' : Resource) :
        Sends (emit (transition r) db r) (transition r') r' k ↔ Sends db (transition r') r' k := Iff.rfl
    simp only [same, mem_cons, exists_eq_or_imp]

theorem foldl_outbox {α : Type} {f : Db → α → Db}
    (each : ∀ db a, (f db a).lifecycleOutbox = db.lifecycleOutbox) (xs : List α) (db : Db) :
    (xs.foldl f db).lifecycleOutbox = db.lifecycleOutbox := by
  induction xs generalizing db with
  | nil => rfl
  | cons x xs ih => exact (ih _).trans (each db x)

theorem scheduleEligible_outbox (db : Db) (ids : List Uuid) :
    (scheduleEligible db ids).lifecycleOutbox = db.lifecycleOutbox :=
  foldl_outbox (f := enqueueEligible) (fun _ _ => rfl) _ _

theorem repend_outbox (db : Db) (ids : List Uuid) (p : Resource → Bool) :
    (repend db ids p).lifecycleOutbox = db.lifecycleOutbox :=
  foldl_outbox (f := enqueueNew .reconcile) (fun _ _ => rfl) _ _

theorem onUpgraded_awaits {upgraded : List Resource} :
    (onUpgraded db upgraded).Awaits k ↔ db.Awaits k ∨ ∃ r ∈ upgraded, Sends db .synced r k := by
  unfold onUpgraded
  rw [foldl_emit_awaits fun _ => .synced]
  simp only [Db.Awaits, Sends, repend_outbox, armRollupRecheck, scheduleEligible_outbox,
    (repend_only _ _ _).reactorBindings, (scheduleEligible_only _ _).reactorBindings]

theorem onDemoted_awaits {demoted : List Resource} : (onDemoted db demoted).Awaits k ↔ db.Awaits k ∨
      (∃ r ∈ demoted, r.rootId ≠ none) ∧ ∃ r ∈ demoted, Sends db (demotion r) r k := by
  have rooted : demoted.filterMap (·.rootId) = [] ↔ ¬ ∃ r ∈ demoted, r.rootId ≠ none := by
    simp only [filterMap_eq_nil_iff, not_exists, not_and, not_not]
  unfold onDemoted
  simp only [rooted]
  split
  · rename_i alone
    exact ⟨.inl, fun h => h.elim id fun later => absurd later.1 alone⟩
  · rename_i some_
    rw [foldl_emit_awaits demotion]
    simp only [Db.Awaits, Sends, repend_outbox, (repend_only _ _ _).reactorBindings, not_not.mp some_, true_and]

/-- **What one UPDATE announces.** -/
theorem cascade_awaits {updated : List Updated} : (cascadeOnReadyChange db updated).Awaits k ↔ db.Awaits k ∨
      (∃ u ∈ updated, u.upgraded = true ∧ Sends db .synced u.new k) ∨
      (∃ u ∈ updated, u.demoted = true ∧ u.new.rootId ≠ none) ∧
        ∃ u ∈ updated, u.demoted = true ∧ Sends db (demotion u.new) u.new k := by
  have rows (q : Updated → Bool) (P : Resource → Prop) :
      (∃ r ∈ (updated.filter q).map (·.new), P r) ↔ ∃ u ∈ updated, q u = true ∧ P u.new := by
    constructor
    · rintro ⟨r, listed, holds⟩
      obtain ⟨u, found, rfl⟩ := mem_map.mp listed
      obtain ⟨here, chosen⟩ := mem_filter.mp found
      exact ⟨u, here, chosen, holds⟩
    · rintro ⟨u, here, chosen, holds⟩
      exact ⟨u.new, mem_map.mpr ⟨u, mem_filter.mpr ⟨here, chosen⟩, rfl⟩, holds⟩
  unfold cascadeOnReadyChange
  rw [onDemoted_awaits, onUpgraded_awaits, or_assoc, rows, rows, rows]
  simp only [Sends, (onUpgraded_only _ _).reactorBindings]

/-- The rows an UPDATE touches. -/
def touched (db : Db) (p : Resource → Bool) (f : Resource → Resource) : List Updated :=
  (db.resources.rows.filter p).map fun r => ⟨r, f r⟩

theorem updateResources_awaits {keeps : ∀ r, Keyed.key (f r) = Keyed.key r} :
    (updateResources db p f keeps).Awaits k ↔ db.Awaits k ∨
      (∃ u ∈ touched db p f, u.upgraded = true ∧ Sends db .synced u.new k) ∨
      (∃ u ∈ touched db p f, u.demoted = true ∧ u.new.rootId ≠ none) ∧
        ∃ u ∈ touched db p f, u.demoted = true ∧ Sends db (demotion u.new) u.new k :=
  cascade_awaits

end Emission

/-! ## Going down -/

section Down

variable [Postgres] {db : Db} {k : DeliveryKey}

/-- What is to be announced of the row: that it failed, or else that it turned unhealthy. -/
def Updated.owes (u : Updated) : Option Transition :=
  if u.newlyFailed then some .failed
  else if !u.new.healthOk && u.old.healthOk then some .degraded
  else none

/-- Some row is to be announced under this key. -/
def Owed (db : Db) (updated : List Updated) (k : DeliveryKey) : Prop :=
  ∃ u ∈ updated, ∃ transition, u.owes = some transition ∧ Sends db transition u.new k

/-- Under every key that is owed one delivery waits afterwards, and no other delivery of these
transitions is new. -/
structure AnnouncesDown (db db' : Db) (updated : List Updated) : Prop where
  once : ∀ k, Owed db updated k → ∃! d, d ∈ db'.lifecycleOutbox ∧ d.pk = k
  others : ∀ d ∈ db'.lifecycleOutbox, d.transition = .degraded ∨ d.transition = .failed →
    d ∈ db.lifecycleOutbox ∨ Owed db updated d.pk

/-- If any row goes down, one with a root does; and what goes down as a failed row failed just
now. -/
def Heard (updated : List Updated) : Prop :=
  ∀ u ∈ updated, u.demoted = true → (∃ v ∈ updated, v.demoted = true ∧ v.new.rootId ≠ none) ∧
      (u.new.failureGen = u.new.generation → u.newlyFailed = true)
deriving Decidable

theorem owes_isSome : u.demoted = true ↔ ∃ transition, u.owes = some transition := by
  unfold Updated.owes Updated.demoted
  cases u.newlyFailed <;> cases u.new.healthOk <;> cases u.old.healthOk <;> simp

theorem owes_down {transition : Transition} (owes : u.owes = some transition) :
    transition = .degraded ∨ transition = .failed := by
  unfold Updated.owes at owes
  split at owes
  · exact .inr (Option.some.inj owes).symm
  · split at owes
    · exact .inl (Option.some.inj owes).symm
    · cases owes

/-- The transition the trigger picks is the one owed, unless the row had failed before. -/
theorem owes_eq (down : u.demoted = true) :
    u.owes = some (demotion u.new) ↔ (u.new.failureGen = u.new.generation → u.newlyFailed = true) := by
  have failed (new : u.newlyFailed = true) : u.new.failureGen = u.new.generation := by
    exact of_decide_eq_true (Bool.and_eq_true _ _ ▸ new).1
  unfold Updated.owes demotion
  cases new : u.newlyFailed with
  | true => simp [failed new]
  | false =>
    rw [Updated.demoted, new, Bool.or_false] at down
    rw [down]
    by_cases at_ : u.new.failureGen = u.new.generation
    · simp [at_]
    · simp [at_]

theorem touched_unique (keeps : ∀ r, Keyed.key (f r) = Keyed.key r) {v : Updated} (hu : u ∈ touched db p f)
    (hv : v ∈ touched db p f) (same : u.new.id = v.new.id) : u = v := by
  obtain ⟨r, listed, rfl⟩ := mem_map.mp hu
  obtain ⟨r', listed', rfl⟩ := mem_map.mp hv
  have id (r : Resource) : (f r).id = r.id := congrArg (·.1) (keeps r)
  have ids : r.id = r'.id := (id r).symm.trans (same.trans (id r'))
  rw [eq_of_pk resource_primary (mem_filter.mp listed).1 (mem_filter.mp listed').1 ids]

/-- A binding that watches every row like `r` on one transition. -/
def watcher (transition : Transition) (r : Resource) : ReactorBinding :=
  ⟨"watcher", r.kind, none, transition, Json.empty, "reactor", none, true⟩

theorem watcher_watches (transition : Transition) (r : Resource) :
    (watcher transition r).watches transition r = true := by
  simp [watcher, ReactorBinding.watches]

/-- **What goes down is announced exactly if** it is heard. -/
theorem update_announces_down (db : Db) (p : Resource → Bool) (f : Resource → Resource)
    (keeps : ∀ r, Keyed.key (f r) = Keyed.key r) : (∀ bindings outbox,
      let before := { db with reactorBindings := bindings, lifecycleOutbox := outbox }
      AnnouncesDown before (updateResources before p f keeps) (touched db p f)) ↔
      Heard (touched db p f) := by
  constructor
  · intro announces u listed down
    obtain ⟨transition, owes⟩ := owes_isSome.mp down
    -- the UPDATE in a database with one binding, for this row, and nothing waiting
    let before := { db with
      reactorBindings := ⟨[watcher transition u.new], pairwise_singleton ..⟩
      lifecycleOutbox := ∅ }
    let key : DeliveryKey := (u.new.id, transition, u.new.generation, "watcher")
    have sends : Sends before transition u.new key :=
      ⟨_, mem_singleton_self _, watcher_watches _ _, rfl⟩
    obtain ⟨d, ⟨waits, same⟩, -⟩ := (announces _ ∅).once key ⟨u, listed, transition, owes, sends⟩
    rcases updateResources_awaits.mp ⟨d, waits, same⟩ with
      ⟨e, none_, -⟩ | ⟨v, -, -, b, -, -, other⟩ | ⟨rooted, v, listed', down', b, -, -, other⟩
    · exact absurd none_ (notMem_empty e)
    · have synced : transition = .synced := congrArg (·.2.1) other
      rcases owes_down owes with rfl | rfl <;> cases synced
    · refine ⟨rooted, ?_⟩
      obtain rfl := touched_unique keeps listed listed' (congrArg (·.1) other)
      have picked : transition = demotion u.new := congrArg (·.2.1) other
      exact (owes_eq down).mp (picked ▸ owes)
  · intro heard bindings outbox before
    have kept : Announces before (updateResources before p f keeps) := updateResources_announces
    constructor
    · rintro k ⟨u, listed, transition, owes, sends⟩
      have down := owes_isSome.mpr ⟨transition, owes⟩
      obtain ⟨rooted, fresh⟩ := heard u listed down
      have picked : transition = demotion u.new :=
        Option.some.inj (owes.symm.trans ((owes_eq down).mpr fresh))
      rw [picked] at sends
      have waiting : (updateResources before p f keeps).Awaits k :=
        updateResources_awaits.mpr (.inr (.inr ⟨rooted, u, listed, down, sends⟩))
      obtain ⟨d, waits, same⟩ := waiting
      refine ⟨d, ⟨waits, same⟩, ?_⟩
      rintro e ⟨waits', same'⟩
      exact eq_of_pk delivery_primary waits' waits (same'.trans same.symm)
    · intro d waits down
      rcases updateResources_awaits.mp ⟨d, waits, rfl⟩ with
        ⟨e, old, same⟩ | ⟨v, -, -, b, -, -, other⟩ | ⟨-, u, listed, down', sends⟩
      · left
        rw [← eq_of_pk delivery_primary (kept.kept e old) waits same]
        exact old
      · have synced : d.transition = .synced := congrArg (·.2.1) other
        rw [synced] at down
        rcases down with h | h <;> cases h
      · exact .inr ⟨u, listed, _, (owes_eq down').mpr (heard u listed down').2, sends⟩

end Down

/-- Tell a pager about `kind`. -/
def paging (name kind : String) (transition : Transition) : Action :=
  .upsertReactorBinding ⟨name, kind, none, transition, .obj [], "pager", none, true⟩

def networked : Script :=
  [fun _ => [applyRoot "app" "a", claimAll "b" "app" .reconcile],
    composes "app" noGrace (fun _ => "") ⟨[child "net" "n"], [], []⟩]

/-- The network turns unhealthy, and whoever watches it hears of it. -/
theorem announces_down_network : letI := counting
    let db := run Db.empty (networked.play Db.empty)
    let sick (r : Resource) : Resource := { r with healthOk := false }
    (∃ u ∈ touched db (·.kind = "net") sick, u.owes = some .degraded) ∧ ∀ bindings outbox,
        let before := { db with reactorBindings := bindings, lifecycleOutbox := outbox }
        AnnouncesDown before (updateResources before (·.kind = "net") sick (fun _ => rfl))
          (touched db (·.kind = "net") sick) := by
  intro db sick
  have facts : letI := counting
      (∃ u ∈ touched db (·.kind = "net") sick, u.owes = some .degraded) ∧
        Heard (touched db (·.kind = "net") sick) := by
    decide +kernel
  exact ⟨facts.1, (@update_announces_down counting db _ sick fun _ => rfl).mpr facts.2⟩

/-- A root that fails for good, or turns unhealthy, with nothing else in its batch: the bindings
that watch it hear nothing. -/
theorem root_failure_unheard : letI := counting
    let sick (t : WorkTask) : OutboxRow := { success t with healthOk := some false }
    ∀ case ∈ [(rejected, Transition.failed), (sick, Transition.degraded)],
      let script : Script :=
        [fun _ => [paging "failures" "app" .failed, paging "outages" "app" .degraded,
            applyRoot "app" "a", claimAll "b" "app" .reconcile],
          fun db => db.tasks.map fun t => .appendOutbox (case.1 t)]
      let before := run Db.empty (script.play Db.empty)
      let after := step before drainAll
      ∃ r ∈ before.resources.rows, ∃ r' ∈ after.resources.rows, r.id = r'.id ∧
        (Updated.mk r r').owes = some case.2 ∧
        (∃ b ∈ before.reactorBindings.rows, b.watches case.2 r' = true) ∧
        after.lifecycleOutbox.rows = [] := by
  decide +kernel

/-! ## Coming and going -/

section Life

variable [Postgres] {db db' : Db} {a : Action} {config : Option Uuid}

def createdBy (db : Db) (a : Action) : List Resource :=
  (step db a).resources.rows.filter fun r' => db.resources.rows.all (·.id ≠ r'.id)

def removedBy (db : Db) (a : Action) : List Resource :=
  db.resources.rows.filter fun r => (step db a).resources.rows.all (·.id ≠ r.id)

/-- `d` announces `transition` of the resource to the binding, at whatever generation. -/
def LifecycleDelivery.Tells (d : LifecycleDelivery) (transition : Transition) (r : Resource)
    (b : ReactorBinding) : Prop :=
  d.resourceId = r.id ∧ d.transition = transition ∧ d.bindingName = b.name

/-- One delivery for each creation and removal and each binding that watches it, and no other
delivery of these transitions. -/
structure AnnouncesLife (db : Db) (a : Action) : Prop where
  creation : ∀ r ∈ createdBy db a, ∀ b ∈ db.reactorBindings.rows, b.watches .created r = true →
    ∃! d, d ∈ (step db a).lifecycleOutbox ∧ d.Tells .created r b
  removal : ∀ r ∈ removedBy db a, ∀ b ∈ db.reactorBindings.rows, b.watches .deleted r = true →
    ∃! d, d ∈ (step db a).lifecycleOutbox ∧ d.Tells .deleted r b
  nothingElse : ∀ d ∈ (step db a).lifecycleOutbox,
    d.transition = .created ∨ d.transition = .deleted → d ∈ db.lifecycleOutbox ∨
      (∃ r ∈ createdBy db a, ∃ b ∈ db.reactorBindings.rows, b.watches .created r = true ∧
        d.Tells .created r b) ∨
      ∃ r ∈ removedBy db a, ∃ b ∈ db.reactorBindings.rows, b.watches .deleted r = true ∧ d.Tells .deleted r b

/-- The existing row an apply changes, as it reports it. -/
def reapplied (db : Db) (args : ApplySpec) : Option Resource :=
  if args.kindVersion < 1 then none
  else
    (resolveConfig db args).bind fun config =>
      (db.resources.lookup (fun r => (r.kind, r.name)) (args.kind, args.name)).bind fun prev =>
        if prev.spec = args.spec ∧ prev.providerConfigId = config ∧ prev.labels = args.labels then
          none
        else (overwriteRoot db args config prev).map (·.2)

/-- No delivery tells of a removal, and those that tell of a creation are of a known id. -/
def Posted (db : Db) : Prop :=
  ∀ d ∈ db.lifecycleOutbox, d.transition ≠ .deleted ∧ (d.transition = .created → db.Drawn d.resourceId)

/-- What an apply does: nothing, a new root, or a change of an existing row. -/
theorem applySpec_reapplied (done : applySpec db args = some db') : (db' = db ∧ reapplied db args = none) ∨
      (∃ config mid r, createRoot db args config = some (mid, r) ∧ reapplied db args = none ∧
        db' = emit .created (scheduleEligible mid [r.id]) r) ∨
      ∃ config prev mid r, prev ∈ db.resources ∧ overwriteRoot db args config prev = some (mid, r) ∧
        reapplied db args = some r ∧ db' = emit .created (scheduleEligible mid [r.id]) r := by
  have served : ¬ args.kindVersion < 1 := by
    intro unserved
    rw [applySpec, if_pos unserved] at done
    cases done
  obtain ⟨config, resolved, cases_⟩ := applySpec_cases done
  have start : reapplied db args =
      (db.resources.lookup (fun r => (r.kind, r.name)) (args.kind, args.name)).bind fun prev =>
        if prev.spec = args.spec ∧ prev.providerConfigId = config ∧ prev.labels = args.labels then
          none
        else (overwriteRoot db args config prev).map (·.2) := by
    rw [reapplied, if_neg served, resolved, Option.bind_some]
  rcases cases_ with ⟨mid, r, create, missing, rfl⟩ | ⟨prev, found, ⟨same, rfl⟩ | ⟨differs, mid, r, write, rfl⟩⟩
  · rw [missing] at start
    exact .inr (.inl ⟨config, mid, r, create, start, rfl⟩)
  · rw [found, Option.bind_some, if_pos same] at start
    exact .inl ⟨rfl, start⟩
  · rw [found, Option.bind_some, if_neg differs, write] at start
    exact .inr (.inr ⟨config, prev, mid, r, (mem_of_lookup found).1, write, start, rfl⟩)

theorem applySpec_of_reapplied (changed : reapplied db args = some r) : applySpec db args ≠ none := by
  unfold reapplied at changed
  unfold applySpec
  split at changed
  · cases changed
  · rename_i served
    obtain ⟨config, resolved, rest⟩ := Option.bind_eq_some_iff.mp changed
    obtain ⟨prev, found, rest⟩ := Option.bind_eq_some_iff.mp rest
    rw [if_neg served, resolved, Option.bind_some, found]
    simp only
    split at rest
    · cases rest
    · rename_i differs
      obtain ⟨written, write, -⟩ := Option.map_eq_some_iff.mp rest
      rw [if_neg differs, write]
      exact Option.some_ne_none _

theorem createRoot_new (create : createRoot db args config = some (mid, r)) :
    (∀ r', r' ∈ mid.resources ↔ r' = r ∨ r' ∈ db.resources) ∧
      (∀ r₀ ∈ db.resources, r₀.id ≠ r.id) ∧ mid.reactorBindings = db.reactorBindings := by
  obtain ⟨rfl, free, unlogged, rfl⟩ := createRoot_cases create
  exact ⟨fun r' => mem_push free, fun r₀ here same => free ⟨r₀, here, .inl same⟩, rfl⟩

theorem ids_updateWhere {t : Table Resource} (keeps : ∀ r, Keyed.key (f r) = Keyed.key r) {id : Uuid} :
    (∃ r' ∈ t.updateWhere p f keeps, r'.id = id) ↔ ∃ r ∈ t, r.id = id := by
  have same (r : Resource) : (if p r then f r else r).id = r.id := by
    split
    · exact congrArg (·.1) (keeps r)
    · rfl
  constructor
  · rintro ⟨r', after, rfl⟩
    rw [mem_updateWhere] at after
    obtain ⟨r, here, rfl⟩ := after
    exact ⟨r, here, (same r).symm⟩
  · rintro ⟨r, here, rfl⟩
    exact ⟨_, mem_updateWhere.mpr ⟨r, here, rfl⟩, same r⟩

theorem overwriteRoot_ids {prev : Resource} (write : overwriteRoot db args config prev = some (mid, r)) :
    r.id = prev.id ∧ (∀ id, (∃ r' ∈ mid.resources, r'.id = id) ↔ ∃ r' ∈ db.resources, r'.id = id) ∧
      mid.reactorBindings = db.reactorBindings := by
  obtain ⟨same, versions, rfl, -⟩ := overwriteRoot_cases write
  refine ⟨same, fun id => ?_, (updateResources_only _ _ _ _).reactorBindings⟩
  simp only [rewriteRoot, (updateResources_only _ _ _ _).resources]
  refine (ids_updateWhere ?_).trans (ids_updateWhere ?_)
  exact fun _ => rfl

/-- Statements other than an apply tell of no creation and no removal. -/
theorem step_other_outbox (other : ∀ args, a ≠ .applySpec args) (after : d ∈ (step db a).lifecycleOutbox)
    (tells : d.transition = .created ∨ d.transition = .deleted) : d ∈ db.lifecycleOutbox := by
  suffices d ∈ db.lifecycleOutbox ∨ d.transition.Cascades by
    rcases this with old | cascades
    · exact old
    · rcases tells with same | same <;>
        · rw [same] at cascades
          exact cascades.elim
  cases a with
  | applySpec args => exact absurd rfl (other args)
  | upsertKindManifest m =>
    simp only [step, upsertKindManifest] at after
    split at after
    · exact .inl after
    · split at after
      · rcases updateResources_announces.added d after with old | cascades
        · exact .inl old
        · exact .inr cascades
      · exact .inl after
  | deleteKindManifest kind version =>
    simp only [step, deleteKindManifest] at after
    split at after
    · exact .inl after
    · split at after
      · exact .inl after
      · exact .inl after
  | _ =>
    refine (step_announces db ?_).added d after
    trivial

/-- `db'` follows `db` and tells every binding that watches `r` of its creation. -/
structure TellsOf (db db' : Db) (r : Resource) : Prop where
  waits : ∀ b ∈ db.reactorBindings.rows, b.watches .created r = true →
    db'.Awaits (r.id, .created, r.generation, b.name)
  told : ∀ d ∈ db'.lifecycleOutbox, d.transition = .created ∨ d.transition = .deleted →
    d ∈ db.lifecycleOutbox ∨ ∃ b ∈ db.reactorBindings.rows, b.watches .created r = true ∧
      d = ⟨r.id, r.kind, .created, r.generation, b.name⟩

theorem emit_tells {ids : List Uuid} (announces : Announces db mid)
    (bindings : mid.reactorBindings = db.reactorBindings) :
    TellsOf db (emit .created (scheduleEligible mid ids) r) r := by
  have bound := (scheduleEligible_only mid ids).reactorBindings.trans bindings
  constructor
  · intro b here watches
    exact emit_awaits.mpr (.inr ⟨b, bound ▸ here, watches, rfl⟩)
  · intro d after tells
    rcases mem_deliveries after with before | ⟨b, chosen, rfl⟩
    · rw [scheduleEligible_outbox] at before
      rcases announces.added d before with old | cascades
      · exact .inl old
      · rcases tells with same | same <;>
          · rw [same] at cascades
            exact cascades.elim
    · rw [bound] at chosen
      exact .inr ⟨b, (mem_filter.mp chosen).1, (mem_filter.mp chosen).2, rfl⟩

/-- An apply leaves the database, creates a root nobody knew and tells of it, or changes a row
it finds and tells of that. -/
theorem step_apply (db : Db) (args : ApplySpec) :
    let db' := step db (.applySpec args)
    (db' = db ∧ reapplied db args = none) ∨ ∃ r, TellsOf db db' r ∧
        ((reapplied db args = none ∧ (∀ r₀ ∈ db.resources, r₀.id ≠ r.id) ∧
            ∀ r', r' ∈ db'.resources ↔ r' = r ∨ r' ∈ db.resources) ∨
          (reapplied db args = some r ∧ (∃ prev ∈ db.resources, prev.id = r.id) ∧
            ∀ id, (∃ r' ∈ db'.resources, r'.id = id) ↔ ∃ r' ∈ db.resources, r'.id = id)) := by
  intro db'
  cases done : applySpec db args with
  | none =>
    left
    have stays : db' = db := by
      simp only [db', step, done]
      rfl
    refine ⟨stays, ?_⟩
    by_contra some_
    obtain ⟨r, changed⟩ := Option.ne_none_iff_exists'.mp some_
    exact applySpec_of_reapplied changed done
  | some after =>
    have stepped : db' = after := by
      simp only [db', step, done]
      rfl
    rw [stepped]
    rcases applySpec_reapplied done with ⟨same, kept⟩ | ⟨config, mid, r, create, new, rfl⟩ |
      ⟨config, prev, mid, r, here, write, changed, rfl⟩
    · exact .inl ⟨same, kept⟩
    · obtain ⟨rows, free, bindings⟩ := createRoot_new create
      refine .inr ⟨r, emit_tells (createRoot_announces create) bindings, .inl ⟨new, free, ?_⟩⟩
      rw [(created_only _ _).resources]
      exact rows
    · obtain ⟨same, ids, bindings⟩ := overwriteRoot_ids write
      refine .inr ⟨r, emit_tells (overwriteRoot_announces write) bindings,
        .inr ⟨changed, ⟨prev, here, same.symm⟩, ?_⟩⟩
      rw [(created_only _ _).resources]
      exact ids

theorem Posted.step (posted : Posted db) (named : Named (step db a)) : Posted (step db a) := by
  have grows := Effects.drawn_le (step_effects db a)
  have kept {d : LifecycleDelivery} (old : d ∈ db.lifecycleOutbox) :
      d.transition ≠ .deleted ∧ (d.transition = .created → (Kernel.step db a).Drawn d.resourceId) :=
    ⟨(posted d old).1, fun created => ((posted d old).2 created).mono grows⟩
  have told {d : LifecycleDelivery} (after : d ∈ (Kernel.step db a).lifecycleOutbox)
      (tells : d.transition = .created ∨ d.transition = .deleted) :
      d.transition ≠ .deleted ∧ (d.transition = .created → (Kernel.step db a).Drawn d.resourceId) := by
    cases a with
    | applySpec args =>
      rcases step_apply db args with ⟨same, -⟩ | ⟨r, news, rows⟩
      · exact kept (same ▸ after)
      · rcases news.told d after tells with old | ⟨b, -, -, rfl⟩
        · exact kept old
        · refine ⟨nofun, fun _ => ?_⟩
          -- the row told of is stored under its id
          rcases rows with ⟨-, -, rows⟩ | ⟨-, there, ids⟩
          · exact named r ((rows r).mpr (.inl rfl))
          · obtain ⟨r', stored, id⟩ := (ids r.id).mpr there
            exact id ▸ named r' stored
    | _ => exact kept (step_other_outbox (by nofun) after tells)
  intro d after
  by_cases tells : d.transition = .created ∨ d.transition = .deleted
  · exact told after tells
  · exact ⟨fun same => tells (.inr same), fun same => absurd (.inl same) tells⟩

theorem Reachable.posted (reachable : Reachable db) : Posted db := by
  obtain ⟨actions, rfl⟩ := reachable
  suffices ∀ db, Reachable db → Posted db → Posted (Kernel.run db actions) from
    this _ .empty fun d none_ => absurd none_ (notMem_empty d)
  induction actions with
  | nil => exact fun _ _ posted => posted
  | cons a rest ih =>
    exact fun db reachable posted => ih _ (reachable.step a) (posted.step (reachable.step a).named)

theorem mem_createdBy : r ∈ createdBy db a ↔ r ∈ (step db a).resources ∧ ∀ r₀ ∈ db.resources, r₀.id ≠ r.id := by
  simp only [createdBy, mem_filter, all_eq_true, decide_eq_true_eq]
  rfl

theorem created_untold (reachable : Reachable db) {b : ReactorBinding} (created : r ∈ createdBy db a)
    (tells : d.Tells .created r b) :
    d ∉ db.lifecycleOutbox := by
  intro old
  obtain ⟨after, new⟩ := mem_createdBy.mp created
  have known : db.Drawn r.id := tells.1 ▸ (reachable.posted d old).2 tells.2.1
  obtain ⟨r₀, here, same, -⟩ := Effects.tracks (respects_true : Respects (fun _ => True) _)
    (Steps.mono (fun _ _ => trivial) (step_effects db a)) after known
  exact new r₀ here same

/-- No watched row is removed. -/
def SparesWatched (db : Db) (a : Action) : Prop :=
  ∀ r ∈ removedBy db a, ∀ b ∈ db.reactorBindings.rows, b.watches .deleted r = false
deriving Decidable

theorem removal_iff (posted : Posted (step db a)) :
    (∀ r ∈ removedBy db a, ∀ b ∈ db.reactorBindings.rows, b.watches .deleted r = true →
      ∃! d, d ∈ (step db a).lifecycleOutbox ∧ d.Tells .deleted r b) ↔ SparesWatched db a := by
  constructor
  · intro told r removed b bound
    refine Bool.eq_false_iff.mpr fun watches => ?_
    obtain ⟨d, ⟨waits, tells⟩, -⟩ := told r removed b bound watches
    exact (posted d waits).1 tells.2.1
  · intro unwatched r removed b bound watches
    rw [unwatched r removed b bound] at watches
    cases watches

theorem other_announces_life (reachable : Reachable db) (other : ∀ args, a ≠ .applySpec args) :
    AnnouncesLife db a ↔ SparesWatched db a ∧
      ∀ r ∈ createdBy db a, ∀ b ∈ db.reactorBindings.rows, b.watches .created r = false := by
  have posted := (reachable.step a).posted
  constructor
  · rintro ⟨creation, removal, -⟩
    refine ⟨(removal_iff posted).mp removal, fun r created b bound => ?_⟩
    refine Bool.eq_false_iff.mpr fun watches => ?_
    obtain ⟨d, ⟨waits, tells⟩, -⟩ := creation r created b bound watches
    exact created_untold reachable created tells (step_other_outbox other waits (.inl tells.2.1))
  · rintro ⟨spares, unwatched⟩
    refine ⟨?_, (removal_iff posted).mpr spares, ?_⟩
    · intro r created b bound watches
      rw [unwatched r created b bound] at watches
      cases watches
    · exact fun d waits tells => .inl (step_other_outbox other waits tells)

/-- An apply tells of the root it creates, once; and of the row it changes as well. -/
theorem apply_announces_life (reachable : Reachable db) (args : ApplySpec) :
    AnnouncesLife db (.applySpec args) ↔ SparesWatched db (.applySpec args) ∧
      ∀ r ∈ (reapplied db args).toList, ∀ b ∈ db.reactorBindings.rows, b.watches .created r = true →
        ∃ d ∈ db.lifecycleOutbox.rows, d.pk = (r.id, .created, r.generation, b.name) := by
  have posted := (reachable.step (.applySpec args)).posted
  constructor
  · rintro ⟨-, removal, nothingElse⟩
    refine ⟨(removal_iff posted).mp removal, fun r changed b bound watches => ?_⟩
    rcases step_apply db args with ⟨-, none_⟩ | ⟨r', news, ⟨none_, -⟩ | ⟨some_, ⟨prev, here, id⟩, -⟩⟩
    · rw [none_] at changed
      cases changed
    · rw [none_] at changed
      cases changed
    · rw [some_] at changed
      obtain rfl := mem_singleton.mp changed
      obtain ⟨d, waits, key⟩ := news.waits b bound watches
      have told : d.transition = .created := congrArg (·.2.1) key
      rcases nothingElse d waits (.inl told) with old | ⟨r', created, b', -, -, tells⟩ |
        ⟨r', -, b', -, -, tells⟩
      · exact ⟨d, old, key⟩
      · -- the row is not new
        have target : d.resourceId = r.id := congrArg (·.1) key
        have same : prev.id = r'.id := id.trans (target.symm.trans tells.1)
        exact absurd same ((mem_createdBy.mp created).2 prev here)
      · exact absurd tells.2.1 (posted d waits).1
  · rintro ⟨spares, unheard⟩
    refine ⟨?_, (removal_iff posted).mpr spares, ?_⟩
    · intro r created b bound watches
      obtain ⟨after, new⟩ := mem_createdBy.mp created
      rcases step_apply db args with ⟨same, -⟩ | ⟨r', news, ⟨-, -, rows⟩ | ⟨-, -, ids⟩⟩
      · rw [same] at after
        exact absurd rfl (new r after)
      · rcases (rows r).mp after with rfl | old
        · have only {d : LifecycleDelivery} (waits : d ∈ (step db (.applySpec args)).lifecycleOutbox)
              (tells : d.Tells .created r b) : d = ⟨r.id, r.kind, .created, r.generation, b.name⟩ := by
            rcases news.told d waits (.inl tells.2.1) with old | ⟨b', -, -, rfl⟩
            · exact absurd old (created_untold reachable created tells)
            · rw [← tells.2.2]
          obtain ⟨d, waits, key⟩ := news.waits b bound watches
          have tells : d.Tells .created r b :=
            ⟨congrArg (·.1) key, congrArg (·.2.1) key, congrArg (·.2.2.2) key⟩
          exact ⟨d, ⟨waits, tells⟩, fun e h => (only h.1 h.2).trans (only waits tells).symm⟩
        · exact absurd rfl (new r old)
      · obtain ⟨r₀, here, id⟩ := (ids r.id).mp ⟨r, after, rfl⟩
        exact absurd id (new r₀ here)
    · intro d waits tells
      rcases step_apply db args with ⟨same, -⟩ | ⟨r, news, rows⟩
      · exact .inl (same ▸ waits)
      · rcases news.told d waits tells with old | ⟨b, bound, watches, rfl⟩
        · exact .inl old
        · rcases rows with ⟨-, free, rows⟩ | ⟨some_, -, -⟩
          · have created := mem_createdBy.mpr ⟨(rows r).mpr (.inl rfl), free⟩
            exact .inr (.inl ⟨r, created, b, bound, watches, rfl, rfl, rfl⟩)
          · -- the delivery waited before
            obtain ⟨e, old, key⟩ := unheard r (some_ ▸ mem_singleton_self r) b bound watches
            have kept := step_keeps_deliveries db (.applySpec args) old
            rw [← eq_of_pk delivery_primary kept waits key]
            exact .inl old

/-- No watched row is removed; what a statement other than an apply creates is not watched;
and no binding newly hears of the creation of a row that an apply changes. -/
def Hearable (db : Db) (a : Action) : Prop :=
  SparesWatched db a ∧ match a with
    | .applySpec args => ∀ r ∈ (reapplied db args).toList, ∀ b ∈ db.reactorBindings.rows,
        b.watches .created r = true →
          ∃ d ∈ db.lifecycleOutbox.rows, d.pk = (r.id, .created, r.generation, b.name)
    | _ => ∀ r ∈ createdBy db a, ∀ b ∈ db.reactorBindings.rows, b.watches .created r = false

instance (db : Db) (a : Action) : Decidable (Hearable db a) := by
  induction a using Action.casesOn <;> dsimp only [Hearable] <;> infer_instance

/-- **A statement announces creations and removals exactly if** it is hearable. -/
theorem step_announces_life (reachable : Reachable db) (a : Action) : AnnouncesLife db a ↔ Hearable db a := by
  cases a with
  | applySpec args => exact apply_announces_life reachable args
  | _ => exact other_announces_life reachable (by nofun)

end Life

/-- A new root is announced. -/
theorem announces_life_root : letI := counting
    let db := run Db.empty [paging "arrivals" "app" .created, paging "losses" "app" .deleted]
    AnnouncesLife db (applyRoot "app" "a") ∧
      (step db (applyRoot "app" "a")).lifecycleOutbox.rows.length = 1 := by
  intro db
  have reachable : @Reachable counting db := ⟨_, rfl⟩
  have facts : letI := counting
      Hearable db (applyRoot "app" "a") ∧ (step db (applyRoot "app" "a")).lifecycleOutbox.rows.length = 1 := by
    decide +kernel
  exact ⟨(@step_announces_life counting db reachable _).mpr facts.1, facts.2⟩

def arrived : List Action :=
  [paging "networks" "net" .created, paging "arrivals" "app" .created, paging "losses" "app" .deleted,
    applyRoot "app" "a", claimAll "b" "app" .reconcile]

/-- Nobody hears of the network that the root composes, nor of the removal of the root; and its
next spec is announced as another creation. -/
theorem creations_misheard : letI := counting
    let db := run Db.empty arrived
    let composed := run db (composes "app" noGrace (fun _ => "") ⟨[child "net" "n"], [], []⟩ db)
    let removed := step db (.requestResourceDeletion (fun _ => Scan.plain) 0)
    let again := step db (.applySpec ⟨"app", 1, "a", .obj [("size", .str "big")], .obj [], ""⟩)
    (∃ r ∈ composed.resources.rows, (∀ r₀ ∈ db.resources.rows, r₀.id ≠ r.id) ∧
        (∃ b ∈ db.reactorBindings.rows, b.watches .created r = true) ∧
        ∀ d ∈ composed.lifecycleOutbox.rows, d.resourceId ≠ r.id) ∧
      ((∃ r ∈ db.resources.rows, ∃ b ∈ db.reactorBindings.rows, b.watches .deleted r = true) ∧
        removed.resources.rows = [] ∧ ∀ d ∈ removed.lifecycleOutbox.rows, d.transition ≠ .deleted) ∧
      again.resources.rows.length = 1 ∧
      (again.lifecycleOutbox.rows.filter (·.transition = .created)).length = 2 := by
  decide +kernel

end Converge.Kernel
