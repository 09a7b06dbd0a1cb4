/-
# Kernel.Frames -- what functions leave alone outside the core tables

`Effects` follows resources, edges, queue and outbox.  The tables it calls `aux` are
followed here, function by function:

* `Announces`: manifests stay, no delivery is taken back, and a new one is for a row that
  was synced, degraded or failed.  Every function has it but three: an apply also
  announces what it wrote as created, and a publish or the removal of a kind writes
  manifests.
* `Ordinary`: moreover no row is added, none changes its kind version or its config for
  another, and no config goes while a row refers to it.  Outside are the apply, the flip,
  the compose, and the writers of configs.

`step_announces` has the last word for a whole action.
-/
import Converge.Kernel.StepEffects

namespace Converge.Kernel

open Converge.Theory List Table Option

set_option autoImplicit false
set_option linter.unusedSectionVars false

variable [Postgres] {db db' : Db}
variable {a : ApplySpec} {b : Db} {r r' : Resource} {transition : Transition} {α : Type}
    {id owner parent root : Uuid} {bindings : List ReactorBinding} {t : Table LifecycleDelivery}
    {d : LifecycleDelivery} {config : Option Uuid} {order : Nat → Nat} {out : ComposeOutput}
    {c : ProviderConfig}

/-- The transitions the trigger on resources announces. -/
def Transition.Cascades : Transition → Prop
  | .synced | .degraded | .failed => True
  | .created | .deleted => False

structure Announces (db db' : Db) : Prop where
  kindManifest : db'.kindManifest = db.kindManifest
  kept : ∀ d ∈ db.lifecycleOutbox, d ∈ db'.lifecycleOutbox
  added : ∀ d ∈ db'.lifecycleOutbox, d ∈ db.lifecycleOutbox ∨ d.transition.Cascades

namespace Announces

theorem of_eq (kindManifest : db'.kindManifest = db.kindManifest)
    (outbox : db'.lifecycleOutbox = db.lifecycleOutbox) : Announces db db' :=
  ⟨kindManifest, fun _ h => outbox ▸ h, fun _ h => .inl (outbox ▸ h)⟩

theorem refl (db : Db) : Announces db db := of_eq rfl rfl

theorem trans {a c : Db} (first : Announces a b) (second : Announces b c) : Announces a c := by
  refine ⟨second.kindManifest.trans first.kindManifest, fun d h => second.kept d (first.kept d h), ?_⟩
  intro d h
  rcases second.added d h with before | new
  · exact first.added d before
  · exact .inr new

theorem foldlM {f : Db → α → Option Db} (each : ∀ {a b x}, f a x = some b → Announces a b) {xs : List α}
    {a : Db} (done : xs.foldlM f a = some b) : Announces a b := by
  induction xs generalizing a with
  | nil =>
    cases done
    exact refl _
  | cons x rest ih =>
    obtain ⟨mid, first, later⟩ := bind_eq_some_iff.mp done
    exact (each first).trans (ih later)

end Announces

/-- `r'` is `r` with its kind version, and with its config or none. -/
structure SameRef (r r' : Resource) : Prop where
  id : r'.id = r.id
  kind : r'.kind = r.kind
  kindVersion : r'.kindVersion = r.kindVersion
  config : r'.providerConfigId = r.providerConfigId ∨ r'.providerConfigId = none

theorem SameRef.refl (r : Resource) : SameRef r r := ⟨rfl, rfl, rfl, .inl rfl⟩

theorem SameRef.trans {a b c : Resource} (first : SameRef a b) (second : SameRef b c) : SameRef a c := by
  refine ⟨second.id.trans first.id, second.kind.trans first.kind,
    second.kindVersion.trans first.kindVersion, ?_⟩
  rcases second.config with same | gone
  · rw [same]
    exact first.config
  · exact .inr gone

theorem SameRef.before (same : SameRef r r')
    (refers : r'.providerConfigId = some id) : r.providerConfigId = some id := by
  rcases same.config with kept | gone
  · exact kept.symm.trans refers
  · rw [gone] at refers
    cases refers

structure Ordinary (db db' : Db) : Prop extends Announces db db' where
  rows : ∀ r' ∈ db'.resources, ∃ r ∈ db.resources, SameRef r r'
  configs : ∀ r' ∈ db'.resources, ∀ c ∈ db.providerconfigs, r'.providerConfigId = some c.id →
    c ∈ db'.providerconfigs

namespace Ordinary

theorem of_rows (announces : Announces db db') (rows : ∀ r' ∈ db'.resources, ∃ r ∈ db.resources, SameRef r r')
    (configs : db'.providerconfigs = db.providerconfigs) : Ordinary db db' :=
  ⟨announces, rows, fun _ _ _ here _ => configs ▸ here⟩

theorem of_eq (resources : db'.resources = db.resources) (configs : db'.providerconfigs = db.providerconfigs)
    (kindManifest : db'.kindManifest = db.kindManifest) (outbox : db'.lifecycleOutbox = db.lifecycleOutbox) :
    Ordinary db db' :=
  of_rows (.of_eq kindManifest outbox) (fun r h => ⟨r, resources ▸ h, .refl r⟩) configs

theorem refl (db : Db) : Ordinary db db := of_eq rfl rfl rfl rfl

theorem trans {a c : Db} (first : Ordinary a b) (second : Ordinary b c) : Ordinary a c := by
  refine ⟨first.toAnnounces.trans second.toAnnounces, ?_, ?_⟩
  · intro r'' here
    obtain ⟨r', here', same'⟩ := second.rows r'' here
    obtain ⟨r, here, same⟩ := first.rows r' here'
    exact ⟨r, here, same.trans same'⟩
  · intro r'' here config stored refers
    obtain ⟨r', here', same'⟩ := second.rows r'' here
    exact second.configs r'' here config (first.configs r' here' config stored (same'.before refers))
      refers

theorem foldl {f : Db → α → Db} (each : ∀ db x, Ordinary db (f db x)) (xs : List α)
    (db : Db) : Ordinary db (xs.foldl f db) := by
  induction xs generalizing db with
  | nil => exact refl db
  | cons x rest ih => exact (each db x).trans (ih (f db x))

end Ordinary

/-! ## Scheduling and the trigger -/

theorem enqueueAll_ordinary (taskType : TaskType) (rows : List Resource) (db : Db) :
    Ordinary db (rows.foldl (enqueueNew taskType) db) :=
  .foldl (f := enqueueNew taskType) (fun _ _ => .of_eq rfl rfl rfl rfl) rows db

theorem scheduleEligible_ordinary (db : Db) (ids : List Uuid) : Ordinary db (scheduleEligible db ids) :=
  .foldl (f := enqueueEligible) (fun _ _ => .of_eq rfl rfl rfl rfl) _ _

theorem repend_ordinary (db : Db) (ids : List Uuid) (p : Resource → Bool) : Ordinary db (repend db ids p) :=
  enqueueAll_ordinary .reconcile _ _

theorem armRollupRecheck_ordinary (db : Db) (roots : List Uuid) :
    Ordinary db (armRollupRecheck db roots) := .of_eq rfl rfl rfl rfl

theorem mem_deliveries :
    d ∈ bindings.foldl (fun t b => t.insertNew ⟨r.id, r.kind, transition, r.generation, b.name⟩) t →
      d ∈ t ∨ ∃ b ∈ bindings, d = ⟨r.id, r.kind, transition, r.generation, b.name⟩ := by
  induction bindings generalizing t with
  | nil => exact .inl
  | cons b rest ih =>
    intro listed
    rcases ih listed with before | ⟨b', later, rfl⟩
    · rcases mem_insertNew.mp before with old | ⟨rfl, -⟩
      · exact .inl old
      · exact .inr ⟨b, .head _, rfl⟩
    · exact .inr ⟨b', .tail _ later, rfl⟩

theorem mem_deliveries_of_mem (here : d ∈ t) :
    d ∈ bindings.foldl (fun t b => t.insertNew ⟨r.id, r.kind, transition, r.generation, b.name⟩) t := by
  induction bindings generalizing t with
  | nil => exact here
  | cons b rest ih => exact ih (mem_insertNew.mpr (.inl here))

theorem emit_ordinary (cascades : transition.Cascades) (db : Db)
    (r : Resource) : Ordinary db (emit transition db r) := by
  refine .of_rows ⟨rfl, fun _ => mem_deliveries_of_mem, ?_⟩ (fun r h => ⟨r, h, .refl r⟩) rfl
  intro d listed
  rcases mem_deliveries listed with old | ⟨b, -, rfl⟩
  · exact .inl old
  · exact .inr cascades

theorem demotion_cascades (r : Resource) : (demotion r).Cascades := by
  unfold demotion
  split <;> trivial

theorem onUpgraded_ordinary (db : Db) (upgraded : List Resource) : Ordinary db (onUpgraded db upgraded) :=
  (((scheduleEligible_ordinary _ _).trans (armRollupRecheck_ordinary _ _)).trans (repend_ordinary _ _ _)).trans
    (.foldl (emit_ordinary (show Transition.synced.Cascades from trivial)) _ _)

theorem onDemoted_ordinary (db : Db) (demoted : List Resource) : Ordinary db (onDemoted db demoted) := by
  unfold onDemoted
  simp only
  split
  · exact .refl db
  · exact (repend_ordinary _ _ _).trans (.foldl (fun db r => emit_ordinary (demotion_cascades r) db r) _ _)

theorem cascade_ordinary (db : Db) (updated : List Updated) : Ordinary db (cascadeOnReadyChange db updated) :=
  (onUpgraded_ordinary _ _).trans (onDemoted_ordinary _ _)

section Update

variable {p : Resource → Bool} {f : Resource → Resource} {keeps : ∀ r, Keyed.key (f r) = Keyed.key r}

theorem updateResources_announces : Announces db (updateResources db p f keeps) := by
  refine Announces.trans (b := { db with resources := db.resources.updateWhere p f keeps }) (.of_eq rfl rfl) ?_
  exact (cascade_ordinary _ _).toAnnounces

theorem rows_updateWhere (same : ∀ r, p r = true → SameRef r (f r))
    (after : r' ∈ db.resources.updateWhere p f keeps) : ∃ r ∈ db.resources, SameRef r r' := by
  rw [mem_updateWhere] at after
  obtain ⟨r, here, rfl⟩ := after
  refine ⟨r, here, ?_⟩
  split
  · exact same r ‹_›
  · exact .refl r

theorem updateResources_ordinary (same : ∀ r, p r = true → SameRef r (f r)) :
    Ordinary db (updateResources db p f keeps) := by
  refine Ordinary.trans ?_ (cascade_ordinary _ _)
  refine .of_rows (.of_eq rfl rfl) ?_ rfl
  intro r' after
  have stored : r' ∈ db.resources.updateWhere p f keeps := after
  exact rows_updateWhere same stored

end Update

theorem patchSpecs_ordinary {patches : List FlowPatch} (done : patchSpecs db patches = some db') :
    Ordinary db db' := by
  unfold patchSpecs at done
  split at done
  · cases done
    exact updateResources_ordinary fun r _ => ⟨rfl, rfl, rfl, .inl rfl⟩
  · cases done

theorem applyValueFlows_ordinary {ids : List Uuid}
    (done : applyValueFlowsForDependents db order ids = some db') : Ordinary db db' :=
  patchSpecs_ordinary done

/-! ## Removing -/

theorem clear_ordinary {p : ProviderConfig → Bool} {q : Resource → Bool} {gone : List Uuid}
    (listed : ∀ c ∈ db.providerconfigs, p c = true → c.id ∈ gone)
    (clear : ∀ r : Resource, Keyed.key { r with providerConfigId := none } = Keyed.key r)
    (manifest : db'.kindManifest = db.kindManifest)
    (outbox : db'.lifecycleOutbox = db.lifecycleOutbox)
    (resources : db'.resources = (db.resources.deleteWhere q).updateWhere
      (fun r => r.providerConfigId.any (· ∈ gone)) (fun r => { r with providerConfigId := none }) clear)
    (configs : db'.providerconfigs = db.providerconfigs.deleteWhere p) : Ordinary db db' := by
  refine ⟨.of_eq manifest outbox, ?_, ?_⟩
  · intro r' after
    rw [resources, mem_updateWhere] at after
    obtain ⟨r, here, rfl⟩ := after
    refine ⟨r, (mem_deleteWhere.mp here).1, ?_⟩
    split
    · exact ⟨rfl, rfl, rfl, .inr rfl⟩
    · exact .refl r
  · intro r' after c here refers
    rw [resources, mem_updateWhere] at after
    obtain ⟨r, -, rfl⟩ := after
    rw [configs, mem_deleteWhere]
    refine ⟨here, Bool.eq_false_iff.mpr fun removed => ?_⟩
    have named := listed c here removed
    split at refers
    · cases refers
    · rename_i untouched
      rw [refers, any_some, decide_eq_true named] at untouched
      exact untouched rfl

theorem deleteResources_ordinary (db : Db) (ids : List Uuid) : Ordinary db (deleteResources db ids) := by
  refine clear_ordinary ?_ (fun _ => rfl) rfl rfl rfl rfl
  intro c here removed
  exact mem_map.mpr ⟨c, mem_filter.mpr ⟨here, removed⟩, rfl⟩

theorem deleteConfigs_ordinary (db : Db) (p : ProviderConfig → Bool) : Ordinary db (deleteConfigs db p) := by
  have listed (c : ProviderConfig) (here : c ∈ db.providerconfigs) (removed : p c = true) :
      c.id ∈ (db.providerconfigs.rows.filter p).map (·.id) :=
    mem_map.mpr ⟨c, mem_filter.mpr ⟨here, removed⟩, rfl⟩
  refine clear_ordinary (q := fun _ => false) listed (fun _ => rfl) rfl rfl ?_ rfl
  have all : db.resources.deleteWhere (fun _ => false) = db.resources := by
    simp only [Table.deleteWhere, Bool.not_false, filter_true]
  rw [all]
  rfl

theorem cascadeMark_ordinary (db : Db) (id : Uuid) : Ordinary db (cascadeMarkForDeletion db id) :=
  updateResources_ordinary fun _ _ => ⟨rfl, rfl, rfl, .inl rfl⟩

theorem sweepRounds_ordinary (maxRows : Nat) (range : ShardRange) (fuel : Nat) (scans : Nat → Scan Uuid)
    (total : Nat) (db : Db) : Ordinary db (sweepRounds maxRows range fuel scans total db) := by
  induction fuel generalizing total db with
  | zero => exact .refl db
  | succ fuel ih =>
    have round : Ordinary db (sweepDelete (sweepEnqueue db (scans fuel) maxRows range) (scans fuel)
        maxRows range) :=
      (enqueueAll_ordinary .delete _ _).trans (deleteResources_ordinary _ _)
    simp only [sweepRounds]
    split
    · exact round
    · exact round.trans (ih _ _)

theorem requestResourceDeletion_ordinary (db : Db) (scans : Nat → Scan Uuid) (id : Uuid) :
    Ordinary db (requestResourceDeletion db scans id) := by
  unfold requestResourceDeletion
  split
  · exact (cascadeMark_ordinary _ _).trans (sweepRounds_ordinary _ _ _ _ _ _)
  · exact .refl db

theorem sweepExpiredOrphans_ordinary (db : Db) (scan : Scan Uuid) (n : Nat) (range : ShardRange) :
    Ordinary db (sweepExpiredOrphans db scan n range) := by
  refine Ordinary.trans ?_ (deleteResources_ordinary _ _)
  refine Ordinary.trans ?_ (enqueueAll_ordinary .delete _ _)
  exact updateResources_ordinary fun _ _ => ⟨rfl, rfl, rfl, .inl rfl⟩

/-! ## Queue and drain -/

theorem requeueForResync_ordinary (db : Db) (kind : String) (secs n : Nat) (shards : List Nat)
    (recompose : Bool) : Ordinary db (requeueForResync db kind secs n shards recompose) := by
  refine Ordinary.trans ?_ (enqueueAll_ordinary .reconcile _ _)
  exact updateResources_ordinary fun _ _ => ⟨rfl, rfl, rfl, .inl rfl⟩

theorem appendOutbox_ordinary (db : Db) (o : OutboxRow) : Ordinary db (appendOutbox db o) := by
  unfold appendOutbox
  split
  · exact .of_eq rfl rfl rfl rfl
  · exact .refl db

theorem drainTeardowns_ordinary (db : Db) (rowScan : Scan Uuid) (results : List OutboxRow) :
    Ordinary db (drainTeardowns db rowScan results) := by
  refine Ordinary.trans (b := finalizeOperations (takeResults db results) results) (.of_eq rfl rfl rfl rfl) ?_
  refine Ordinary.trans (b := stripFinalizers (finalizeOperations (takeResults db results) results)
    results) (updateResources_ordinary fun _ _ => ⟨rfl, rfl, rfl, .inl rfl⟩) ?_
  exact (deleteResources_ordinary _ _).trans (enqueueAll_ordinary .delete _ _)

theorem applyResults_ordinary (db : Db) (results : List OutboxRow) : Ordinary db (applyResults db results) := by
  refine updateResources_ordinary fun r _ => ?_
  cases resultFor results r with
  | none => exact .refl r
  | some o => exact ⟨rfl, rfl, rfl, .inl rfl⟩

theorem drainOutboxBatch_ordinary {scan rowScan : Scan Uuid} {n : Nat}
    {range : ShardRange} (done : drainOutboxBatch db scan rowScan order n range = some db') :
    Ordinary db db' := by
  simp only [drainOutboxBatch] at done
  split at done
  · cases done
    exact .refl db
  · obtain ⟨flowed, flows, rest⟩ := bind_eq_some_iff.mp done
    obtain ⟨s, -, rfl⟩ := map_eq_some_iff.mp rest
    refine (drainTeardowns_ordinary db rowScan _).trans ((patchSpecs_ordinary flows).trans ?_)
    exact (applyResults_ordinary flowed _).trans (.of_eq rfl rfl rfl rfl)

/-! ## Commands -/

theorem reconcile_ordinary (db : Db) (id : Uuid) : Ordinary db (reconcile db id) := by
  refine Ordinary.trans ?_ (scheduleEligible_ordinary _ _)
  exact updateResources_ordinary fun _ _ => ⟨rfl, rfl, rfl, .inl rfl⟩

theorem rollbackToSpec_ordinary (db : Db) (id : Uuid) (gen : Nat) : Ordinary db (rollbackToSpec db id gen) := by
  unfold rollbackToSpec
  split
  · exact .refl db
  · split
    · refine Ordinary.trans ?_ (scheduleEligible_ordinary _ _)
      exact updateResources_ordinary fun _ _ => ⟨rfl, rfl, rfl, .inl rfl⟩
    · exact .refl db

theorem quarantineResource_ordinary (db : Db) (id : Uuid) : Ordinary db (quarantineResource db id) := by
  simp only [quarantineResource]
  split
  · refine Ordinary.trans (b := updateResources db _ _ _) ?_ (.of_eq rfl rfl rfl rfl)
    exact updateResources_ordinary fun _ _ => ⟨rfl, rfl, rfl, .inl rfl⟩
  · exact .refl db

theorem unquarantineResource_ordinary (db : Db) (id : Uuid) : Ordinary db (unquarantineResource db id) := by
  simp only [unquarantineResource]
  split
  · refine Ordinary.trans ?_ (scheduleEligible_ordinary _ _)
    exact updateResources_ordinary fun _ _ => ⟨rfl, rfl, rfl, .inl rfl⟩
  · exact .refl db

theorem createOperation_ordinary {verb : String} {input : Json}
    (done : createOperation db id verb input = some db') : Ordinary db db' := by
  obtain ⟨op, w, free, slot, -, -, -, -, -, rfl⟩ := createOperation_spec done
  exact .of_eq rfl rfl rfl rfl

theorem flip_announces {old new : Nat} {spec : Json}
    (done : flipResourceKindVersion db id old new spec = some db') : Announces db db' := by
  unfold flipResourceKindVersion at done
  split at done
  · cases done
  · split at done
    · cases done
      exact (updateResources_announces.trans (scheduleEligible_ordinary _ _).toAnnounces).trans (.of_eq rfl rfl)
    · cases done
      exact .refl db

theorem upsertProviderConfig_announces (done : upsertProviderConfig db c = some db') : Announces db db' := by
  unfold upsertProviderConfig at done
  split at done <;>
  · obtain ⟨t, -, rfl⟩ := map_eq_some_iff.mp done
    exact .of_eq rfl rfl

theorem upsertProviderConfig_resources
    (done : upsertProviderConfig db c = some db') : db'.resources = db.resources := by
  unfold upsertProviderConfig at done
  split at done <;>
  · obtain ⟨t, -, rfl⟩ := map_eq_some_iff.mp done
    rfl

theorem createRoot_announces (done : createRoot db a config = some (db', r)) : Announces db db' := by
  obtain ⟨-, free, unlogged, rfl⟩ := createRoot_cases done
  exact .of_eq rfl rfl

theorem overwriteRoot_announces {prev : Resource}
    (done : overwriteRoot db a config prev = some (db', r)) : Announces db db' := by
  obtain ⟨-, versions, rfl, -⟩ := overwriteRoot_cases done
  have labelled : Announces db (setLabels db prev.id a.labels) := .of_eq rfl rfl
  exact (labelled.trans updateResources_announces).trans (.of_eq rfl rfl)

/-! ## Compose -/

theorem insertChild_announces {c : ChildSpec}
    (done : insertChild parent root db c = some db') : Announces db db' := by
  obtain ⟨t, -, rfl⟩ := map_eq_some_iff.mp done
  exact .of_eq rfl rfl

/-- What becomes of a row where children are rewritten: one that is declared, and not marked,
takes the version of its declaration. -/
structure Redeclared (decls : List (Resource × ChildSpec)) (r r' : Resource) : Prop where
  id : r'.id = r.id
  kind : r'.kind = r.kind
  ownerId : r'.ownerId = r.ownerId
  config : r'.providerConfigId = r.providerConfigId
  kindVersion : r'.kindVersion = if r.marked then r.kindVersion
    else (declFor decls r).elim r.kindVersion (·.kindVersion)
  spec : declFor decls r = none → r'.spec = r.spec

theorem mem_updateChildren {decls : List (Resource × ChildSpec)}
    (after : r' ∈ (updateChildren db decls).resources) : ∃ r ∈ db.resources, Redeclared decls r r' := by
  have labelled {r w : Resource} (row : Redeclared decls r w) (labels : Json) (p : Bool) :
      Redeclared decls r (if p then { w with labels := labels } else w) := by
    cases p
    · exact row
    · exact ⟨row.id, row.kind, row.ownerId, row.config, row.kindVersion, row.spec⟩
  simp only [updateChildren, mem_updateWhere] at after
  obtain ⟨written, there, rfl⟩ := after
  obtain ⟨r, here, rfl⟩ := mem_updateResources.mp there
  refine ⟨r, here, labelled ?_ _ _⟩
  split <;> rename_i chosen
  · obtain ⟨unmarked, differs⟩ := (Bool.and_eq_true _ _).mp chosen
    obtain ⟨c, declared, -⟩ := (any_eq_true _ _).mp differs
    rw [declared]
    refine ⟨rfl, rfl, rfl, rfl, ?_, fun none_ => ?_⟩
    · rw [(Bool.not_eq_true' _).mp unmarked, declared]
      rfl
    · rw [declared] at none_
      cases none_
  · refine ⟨rfl, rfl, rfl, rfl, ?_, fun _ => rfl⟩
    cases marked : r.marked with
    | true => rfl
    | false =>
      cases declared : declFor decls r with
      | none => rfl
      | some c =>
        rw [marked, declared] at chosen
        simp only [Bool.not_false, Bool.true_and, any_some, Bool.or_eq_true,
          decide_eq_true_eq, not_or, not_not] at chosen
        exact chosen.2

theorem updateChildren_announces (db : Db) (decls : List (Resource × ChildSpec)) :
    Announces db (updateChildren db decls) :=
  updateResources_announces.trans (.of_eq rfl rfl)

theorem batchUpsertChildren_announces {existing : List Resource}
    (done : batchUpsertChildren db parent root existing out = some db') : Announces db db' := by
  obtain ⟨inserted, insert, rfl⟩ := map_eq_some_iff.mp done
  exact (Announces.foldlM insertChild_announces insert).trans (updateChildren_announces _ _)

theorem composeChildren_ordinary (db : Db) (env : ComposeEnv) (pol : ComposePolicy) (existing : List Resource)
    (out : ComposeOutput) : Ordinary db (composeChildren db env pol existing out) := by
  have soft (stale : List Resource) : Ordinary db (softDelete db env.scans stale) :=
    .foldl (fun _ _ => requestResourceDeletion_ordinary _ _ _) _ _
  have graced (db : Db) (stale : List Resource) : Ordinary db (markChildrenOrphaned db pol stale) :=
    updateResources_ordinary fun _ _ => ⟨rfl, rfl, rfl, .inl rfl⟩
  have adopted (db : Db) : Ordinary db (clearOrphanMarks db existing out.children) :=
    updateResources_ordinary fun _ _ => ⟨rfl, rfl, rfl, .inl rfl⟩
  refine Ordinary.trans ?_ (adopted _)
  refine Ordinary.trans ?_ (deleteResources_ordinary _ _)
  exact (soft _).trans (graced _ _)

theorem applyEdges_ordinary {produced : List ResourceDep}
    (done : applyEdges db parent produced = some db') : Ordinary db db' := by
  obtain ⟨t, rfl⟩ := applyEdges_only done
  exact .of_eq rfl rfl rfl rfl

theorem applyComposedConfigs_announces {configs : List ProviderConfigSpec}
    (done : applyComposedConfigs db owner configs = some db') : Announces db db' := by
  obtain ⟨t, n, p, -, rfl⟩ := applyComposedConfigs_only done
  refine Announces.trans ?_ (deleteConfigs_ordinary _ _).toAnnounces
  exact .of_eq rfl rfl

theorem stampComposedGen_ordinary {t : WorkTask} (done : stampComposedGen db t = some db') :
    Ordinary db db' := by
  unfold stampComposedGen at done
  split at done
  · cases done
    exact updateResources_ordinary fun _ _ => ⟨rfl, rfl, rfl, .inl rfl⟩
  · cases done

theorem applyComposeResult_announces {env : ComposeEnv} {t : WorkTask}
    {pol : ComposePolicy} (done : applyComposeResult db env t out pol = some db') : Announces db db' := by
  obtain ⟨⟨body, ids⟩, composed, rest⟩ := bind_eq_some_iff.mp done
  obtain ⟨stamped, stamp, rfl⟩ := map_eq_some_iff.mp rest
  refine Announces.trans ?_ ((stampComposedGen_ordinary stamp).toAnnounces.trans (.of_eq rfl rfl))
  obtain ⟨parent, upserted, produced, wired, flowed, stages, flows, configs⟩ :=
    composeBody_cases composed
  refine (batchUpsertChildren_announces stages.upsert).trans ?_
  refine ((composeChildren_ordinary _ env pol _ out).trans
    (applyEdges_ordinary stages.wire)).toAnnounces.trans ?_
  exact (applyValueFlows_ordinary flows).toAnnounces.trans (applyComposedConfigs_announces configs)

/-! ## Actions -/

/-- The actions that are outside `Announces`. -/
def Action.Announced : Action → Prop
  | .applySpec _ | .upsertKindManifest _ | .deleteKindManifest _ _ => False
  | _ => True

/-- The actions that are outside `Ordinary`. -/
def Action.Referring : Action → Prop
  | .applySpec _ | .flipResourceKindVersion _ _ _ _ | .upsertProviderConfig _
  | .applyComposeResult _ _ _ _ | .upsertKindManifest _ | .deleteKindManifest _ _ => True
  | _ => False

theorem step_ordinary (db : Db) {a : Action} (other : ¬ a.Referring) : Ordinary db (step db a) := by
  cases a with
  | applySpec _ | flipResourceKindVersion _ _ _ _ | upsertProviderConfig _ | applyComposeResult _ _ _ _
  | upsertKindManifest _ | deleteKindManifest _ _ => exact absurd trivial other
  | reconcile id => exact reconcile_ordinary db id
  | rollbackToSpec id gen => exact rollbackToSpec_ordinary db id gen
  | quarantineResource id => exact quarantineResource_ordinary db id
  | unquarantineResource id => exact unquarantineResource_ordinary db id
  | requestResourceDeletion scans id => exact requestResourceDeletion_ordinary db scans id
  | createOperation id verb input => exact getD_cases (.refl db) fun _ => createOperation_ordinary
  | deleteProviderConfig name => exact deleteConfigs_ordinary db _
  | appendOutbox o =>
    simp only [step, submitResult]
    split
    · exact appendOutbox_ordinary db o
    · exact .refl db
  | applyValueFlowsForDependents order ids => exact getD_cases (.refl db) fun _ => applyValueFlows_ordinary
  | drainOutboxBatch scan rowScan order n range => exact getD_cases (.refl db) fun _ => drainOutboxBatch_ordinary
  | drainRollupRechecks scan n range | drainScheduleRechecks scan n range =>
    exact (scheduleEligible_ordinary _ _).trans (.of_eq rfl rfl rfl rfl)
  | requeueFailedAndPending secs n shards => exact scheduleEligible_ordinary _ _
  | requeueForResync kind secs n shards recompose =>
    exact requeueForResync_ordinary db kind secs n shards recompose
  | sweepDeletable scans n range => exact sweepRounds_ordinary _ _ _ _ _ _
  | sweepExpiredOrphans scan n range => exact sweepExpiredOrphans_ordinary db scan n range
  | _ => exact .of_eq rfl rfl rfl rfl

theorem step_announces (db : Db) {a : Action} (other : a.Announced) : Announces db (step db a) := by
  cases a with
  | applySpec _ | upsertKindManifest _ | deleteKindManifest _ _ => exact other.elim
  | flipResourceKindVersion id old new spec => exact getD_cases (.refl db) fun _ => flip_announces
  | upsertProviderConfig c => exact getD_cases (.refl db) fun _ => upsertProviderConfig_announces
  | applyComposeResult env t out pol =>
    exact submitCompose_cases (.refl db) fun _ _ => applyComposeResult_announces
  | _ =>
    refine (step_ordinary db ?_).toAnnounces
    exact not_false

end Converge.Kernel
