/-
# Guarantees.ConfigMatch -- a row and its config are of one type

A provider config is written for one kind at one version.  The apply checks that: it resolves
a config only for the kind and version of the request.  Five statements then write one side of
a reference without looking at the other: the apply itself, on a row that keeps its own
version; the flip; the compose, which changes the versions of children and the types of the
configs its parent owns; and the upsert of a config.

`versionGiven`, `configGiven` and `typeGiven` read off a request what it makes of a row, of
its reference and of a config.
`references_match` is exact: in the states of a run every row matches its config if and only
if every step gives one type to both ends of each reference it leaves.

`references_diverge` has a run for each of the five.
-/
import Converge.Kernel.Frames
import Converge.Kernel.Graph

namespace Converge.Kernel

open Converge.Theory List Table Option

set_option autoImplicit false
set_option linter.unusedSectionVars false

variable {a : ApplySpec} {b c : Db} {configs decls : List ProviderConfigSpec} {id owner : Uuid}

def Resource.type (r : Resource) : String × Nat := (r.kind, r.kindVersion)

/-- Every reference is to a stored config of the type of the row. -/
def Matched (db : Db) : Prop :=
  ∀ r ∈ db.resources, ∀ id, r.providerConfigId = some id → ∃ c ∈ db.providerconfigs, c.id = id ∧ c.type = r.type

/-! ## What requests make of rows and configs -/

section Given

variable [Postgres]

/-- The compose is that of a claimed task and commits. -/
def composeCommits (db : Db) (env : ComposeEnv) (t : WorkTask) (out : ComposeOutput)
    (pol : ComposePolicy) : Bool :=
  t ∈ db.tasks && t.taskType = .reconcile && (applyComposeResult db env t out pol).isSome

/-- The version a compose gives to a row: that of its declaration, if it writes the row. -/
def composedVersion (db : Db) (env : ComposeEnv) (parent : Uuid) (out : ComposeOutput) (r : Resource) : Nat :=
  if r.marked then r.kindVersion
  else
    (declFor (changedChildren (shuffle env.childOrder (existingChildren db parent)) out) r).elim
      r.kindVersion (·.kindVersion)

/-- The type a compose gives to a config: that of its declaration, if the parent owns it. -/
def composedType (parent : Uuid) (configs : List ProviderConfigSpec) (c : ProviderConfig) : String × Nat :=
  if c.ownerId = some parent then
    ((configs.find? (·.name = c.name)).map (·.type)).getD c.type
  else c.type

def versionGiven (db : Db) (a : Action) (r : Resource) : Nat :=
  match a with
  | .flipResourceKindVersion id old new _ =>
    if new ≠ 0 && flippable id old r then new else r.kindVersion
  | .applyComposeResult env t out pol =>
    if composeCommits db env t out pol then composedVersion db env t.resourceId out r
    else r.kindVersion
  | _ => r.kindVersion

def typeGiven (db : Db) (a : Action) (c : ProviderConfig) : String × Nat :=
  match a with
  | .upsertProviderConfig n =>
    if n.name = c.name && (upsertProviderConfig db n).isSome then n.type else c.type
  | .applyComposeResult env t out pol =>
    if composeCommits db env t out pol then composedType t.resourceId out.configs c else c.type
  | _ => c.type

/-- The config of a row once the apply is done with `config`. -/
def ApplySpec.attaches (a : ApplySpec) (config : Option Uuid) (r : Resource) : Option Uuid :=
  if r.ref = ⟨a.kind, a.name⟩ then config else r.providerConfigId

def configGiven (db : Db) (a : Action) (r : Resource) : Option Uuid :=
  match a with
  | .applySpec args =>
    if (applySpec db args).isSome then args.attaches (resolveConfig db args).join r else r.providerConfigId
  | _ => r.providerConfigId

/-- A row that the step leaves, and leaves with a config, is given one type with the config it
is given. -/
def JoinsTypes (db : Db) (a : Action) : Prop :=
  ∀ r ∈ db.resources.rows, ∀ r' ∈ (step db a).resources.rows, r'.id = r.id → r'.providerConfigId ≠ none →
    ∀ c ∈ db.providerconfigs.rows, configGiven db a r = some c.id →
      typeGiven db a c = (r.kind, versionGiven db a r)
deriving Decidable

end Given

/-! ## Steps as retypings -/

section Retypes

variable [Postgres] {db db' mid : Db} {version : Resource → Nat} {given : Resource → Option Uuid}
  {type : ProviderConfig → String × Nat}

/-- A reference after the step is between a row and the config it was given, each of the type it
was given; or it is that of a new row, and matches. -/
def Retypes (db db' : Db) (version : Resource → Nat) (given : Resource → Option Uuid)
    (type : ProviderConfig → String × Nat) : Prop :=
  ∀ r' ∈ db'.resources, ∀ id, r'.providerConfigId = some id →
    (∃ r ∈ db.resources, r'.id = r.id ∧ r'.type = (r.kind, version r) ∧ given r = some id ∧
      ∃ c ∈ db.providerconfigs, c.id = id ∧ ∃ c' ∈ db'.providerconfigs, c'.id = id ∧ c'.type = type c) ∨
    (∀ r ∈ db.resources, r.id ≠ r'.id) ∧ ∃ c' ∈ db'.providerconfigs, c'.id = id ∧ c'.type = r'.type

theorem Retypes.matched_iff (retypes : Retypes db db' version given type) :
    Matched db' ↔ ∀ r ∈ db.resources, ∀ r' ∈ db'.resources, r'.id = r.id → r'.providerConfigId ≠ none →
      ∀ c ∈ db.providerconfigs, given r = some c.id → type c = (r.kind, version r) := by
  constructor
  · intro matched r here r' after same some_ c stored attached
    obtain ⟨id, refers⟩ := ne_none_iff_exists'.mp some_
    rcases retypes r' after id refers with
      ⟨r₀, here₀, same₀, typed, attached₀, c₀, stored₀, rfl, c', kept, id', made⟩ |
      ⟨new, -⟩
    · obtain rfl := eq_of_pk resource_primary here₀ here (same₀.symm.trans same)
      obtain rfl := eq_of_pk config_primary stored₀ stored (some.inj (attached₀.symm.trans attached))
      obtain ⟨c'', kept'', id'', match_⟩ := matched r' after c₀.id refers
      obtain rfl := eq_of_pk config_primary kept'' kept (id''.trans id'.symm)
      exact made.symm.trans (match_.trans typed)
    · exact absurd same.symm (new r here)
  · intro agree r' after id refers
    rcases retypes r' after id refers with ⟨r, here, same, typed, attached, c, stored, rfl, c', kept, id', made⟩ |
      ⟨-, matches_⟩
    · refine ⟨c', kept, id', made.trans ((agree r here r' after same ?_ c stored attached).trans typed.symm)⟩
      simp [refers]
    · exact matches_

/-- What most steps do: references stay as they are or go, the rows and the configs they are
between are retyped. -/
structure Refs (db db' : Db) (version : Resource → Nat) (type : ProviderConfig → String × Nat) :
    Prop where
  rows : ∀ r' ∈ db'.resources, ∀ id, r'.providerConfigId = some id →
    ∃ r ∈ db.resources, r'.id = r.id ∧ r'.type = (r.kind, version r) ∧ r.providerConfigId = some id
  configs : ∀ r' ∈ db'.resources, ∀ c ∈ db.providerconfigs, r'.providerConfigId = some c.id →
    ∃ c' ∈ db'.providerconfigs, c'.id = c.id ∧ c'.type = type c

theorem Refs.retypes (refs : Refs db db' version type) (matched : Matched db) :
    Retypes db db' version Resource.providerConfigId type := by
  intro r' after id refers
  obtain ⟨r, here, same, typed, before⟩ := refs.rows r' after id refers
  obtain ⟨c, stored, rfl, -⟩ := matched r here id before
  obtain ⟨c', kept, id', given⟩ := refs.configs r' after c stored refers
  exact .inl ⟨r, here, same, typed, before, c, stored, rfl, c', kept, id', given⟩

/-- Rows in place and configs as they are, where rows refer to them. -/
theorem Refs.of_same (rows : ∀ r' ∈ db'.resources, ∃ r ∈ db.resources, SameRef r r')
    (configs : ∀ r' ∈ db'.resources, ∀ c ∈ db.providerconfigs, r'.providerConfigId = some c.id →
      c ∈ db'.providerconfigs) : Refs db db' Resource.kindVersion ProviderConfig.type := by
  refine ⟨fun r' after id refers => ?_, fun r' after c stored refers => ?_⟩
  · obtain ⟨r, here, same⟩ := rows r' after
    refine ⟨r, here, same.id, ?_, same.before refers⟩
    rw [Resource.type, same.kind, same.kindVersion]
  · exact ⟨c, configs r' after c stored refers, rfl, rfl⟩

theorem Ordinary.refs (ordinary : Ordinary db db') : Refs db db' Resource.kindVersion ProviderConfig.type :=
  .of_same ordinary.rows ordinary.configs

/-- A retyping of rows, then one of configs, with ordinary steps around. -/
theorem Refs.trans {a : Db} (first : Refs a b version ProviderConfig.type)
    (exact_ : ∀ r ∈ b.resources, ∀ c ∈ a.providerconfigs, r.providerConfigId = some c.id →
      c ∈ b.providerconfigs)
    (second : Refs b c Resource.kindVersion type) : Refs a c version type := by
  refine ⟨fun r'' after id refers => ?_, fun r'' after config stored refers => ?_⟩
  · obtain ⟨r', here', same', typed', before'⟩ := second.rows r'' after id refers
    obtain ⟨r, here, same, typed, before⟩ := first.rows r' here' id before'
    exact ⟨r, here, same'.trans same, typed'.trans typed, before⟩
  · obtain ⟨r', here', -, -, before'⟩ := second.rows r'' after config.id refers
    exact second.configs r'' after config (exact_ r' here' config stored before') refers

theorem Refs.then_ordinary {a : Db} (first : Refs a b version type) (second : Ordinary b c) :
    Refs a c version type := by
  refine ⟨fun r'' after id refers => ?_, fun r'' after config stored refers => ?_⟩
  · obtain ⟨r', here', same'⟩ := second.rows r'' after
    obtain ⟨r, here, same, typed, before⟩ := first.rows r' here' id (same'.before refers)
    refine ⟨r, here, same'.id.trans same, ?_, before⟩
    rw [Resource.type, same'.kind, same'.kindVersion]
    exact typed
  · obtain ⟨r', here', same'⟩ := second.rows r'' after
    obtain ⟨config', stored', id', given⟩ := first.configs r' here' config stored (same'.before refers)
    exact ⟨config', second.configs r'' after config' stored' (id' ▸ refers), id', given⟩

end Retypes

/-! ## The five writers -/

section Writers

variable [Postgres] {db db' : Db} {config : Option Uuid} {out : ComposeOutput}

theorem flip_refs {old new : Nat} {spec : Json} (done : flipResourceKindVersion db id old new spec = some db') :
    Refs db db' (fun r => if new ≠ 0 && flippable id old r then new else r.kindVersion)
      ProviderConfig.type := by
  unfold flipResourceKindVersion at done
  split at done
  · cases done
  · rename_i served
    have given : decide (new ≠ 0) = true := decide_eq_true served
    split at done
    · cases done
      let flipped := updateResources db (flippable id old)
        (fun r => { r with
          kindVersion := new
          spec := spec
          manifestVersion := currentManifest db r.kind new
          generation := r.generation + 1
          updatedAt := db.now })
        (fun _ => rfl)
      have configs : flipped.providerconfigs = db.providerconfigs :=
        (updateResources_only _ _ _ _).providerconfigs
      have rows : Refs db flipped (fun r => if new ≠ 0 && flippable id old r then new else r.kindVersion)
          ProviderConfig.type := by
        refine ⟨fun r' after config refers => ?_, fun r' _ c stored _ => ⟨c, configs ▸ stored, rfl, rfl⟩⟩
        obtain ⟨r, here, rfl⟩ := mem_updateResources.mp after
        refine ⟨r, here, ?_⟩
        simp only [given, Bool.true_and]
        split at refers <;> rename_i chosen
        · rw [if_pos chosen, if_pos chosen]
          exact ⟨rfl, rfl, refers⟩
        · rw [if_neg chosen, if_neg chosen]
          exact ⟨rfl, rfl, refers⟩
      refine rows.then_ordinary ((scheduleEligible_ordinary flipped [id]).trans ?_)
      exact .of_eq rfl rfl rfl rfl
    · rename_i none_
      cases done
      refine ⟨fun r' after config refers => ⟨r', after, rfl, ?_, refers⟩,
        fun r' _ c stored _ => ⟨c, stored, rfl, rfl⟩⟩
      have untouched : flippable id old r' = false := by
        cases chosen : flippable id old r' with
        | true => exact absurd (any_eq_true.mpr ⟨r', after, chosen⟩) none_
        | false => rfl
      rw [untouched, Bool.and_false]
      rfl

theorem upsertProviderConfig_refs {n : ProviderConfig} (done : upsertProviderConfig db n = some db') :
    Refs db db' Resource.kindVersion (fun c => if n.name = c.name then n.type else c.type) := by
  unfold upsertProviderConfig at done
  split at done
  · obtain ⟨t, written, rfl⟩ := map_eq_some_iff.mp done
    refine ⟨fun r' after id refers => ⟨r', after, rfl, rfl, refers⟩, fun r' _ c stored _ => ?_⟩
    refine ⟨_, (mem_of_tryUpdateWhere written).mpr ⟨c, stored, rfl⟩, ?_⟩
    by_cases named : n.name = c.name
    · rw [if_pos named, if_pos (decide_eq_true named.symm)]
      exact ⟨rfl, rfl⟩
    · rw [if_neg named, if_neg fun h => named (of_decide_eq_true h).symm]
      exact ⟨rfl, rfl⟩
  · rename_i missing
    obtain ⟨t, inserted, rfl⟩ := map_eq_some_iff.mp done
    obtain ⟨free, rfl⟩ := push_of_insert? inserted
    refine ⟨fun r' after id refers => ⟨r', after, rfl, rfl, refers⟩, fun r' _ c stored _ => ?_⟩
    have named : n.name ≠ c.name := fun same =>
      missing (any_eq_true.mpr ⟨c, stored, decide_eq_true same.symm⟩)
    refine ⟨c, (mem_push free).mpr (.inr stored), rfl, ?_⟩
    rw [if_neg named]

theorem resolveConfig_some (resolved : resolveConfig db a = some (some id)) :
    ∃ c ∈ db.providerconfigs, c.id = id ∧ c.type = (a.kind, a.kindVersion) := by
  unfold resolveConfig at resolved
  split at resolved
  · cases resolved
  · split at resolved
    · cases resolved
    · rename_i c found
      split at resolved
      · rename_i type
        cases resolved
        refine ⟨c, (mem_of_lookup found).1, rfl, ?_⟩
        rw [ProviderConfig.type, type.1, type.2]
      · cases resolved

theorem attaches_other {r : Resource} (other : (r.kind, r.name) ≠ (a.kind, a.name)) :
    a.attaches config r = r.providerConfigId :=
  if_neg fun named => other (Prod.ext (congrArg ResourceRef.kind named) (congrArg ResourceRef.name named))

/-- An apply on a row that has the config leaves all references. -/
theorem attaches_kept {prev r : Resource} (here : r ∈ db.resources)
    (found : db.resources.lookup (fun r => (r.kind, r.name)) (a.kind, a.name) = some prev)
    (same : prev.providerConfigId = config) : a.attaches config r = r.providerConfigId := by
  obtain ⟨there, key⟩ := mem_of_lookup found
  by_cases named : (r.kind, r.name) = (a.kind, a.name)
  · rw [eq_of_clashes here there (.inr (named.trans key.symm)), ← same, ApplySpec.attaches, ite_self]
  · exact attaches_other named

theorem createRoot_retypes {r : Resource} (matched : Matched db) (resolved : resolveConfig db a = some config)
    (missing : db.resources.lookup (fun r => (r.kind, r.name)) (a.kind, a.name) = none)
    (create : createRoot db a config = some (db', r)) :
    Retypes db db' Resource.kindVersion (a.attaches config) ProviderConfig.type := by
  obtain ⟨rfl, free, unlogged, rfl⟩ := createRoot_cases create
  intro r' after id refers
  rcases (mem_push free).mp after with rfl | old
  · right
    refine ⟨fun r₀ here same => free ⟨r₀, here, .inl same⟩, ?_⟩
    have attached : config = some id := refers
    exact resolveConfig_some (attached ▸ resolved)
  · obtain ⟨c, stored, same, -⟩ := matched r' old id refers
    have other := lookup_eq_none.mp missing r' old
    exact .inl ⟨r', old, rfl, rfl, (attaches_other other).trans refers, c, stored, same, c, stored, same, rfl⟩

theorem overwriteRoot_retypes {prev r : Resource} (matched : Matched db)
    (resolved : resolveConfig db a = some config)
    (found : db.resources.lookup (fun r => (r.kind, r.name)) (a.kind, a.name) = some prev)
    (write : overwriteRoot db a config prev = some (db', r)) :
    Retypes db db' Resource.kindVersion (a.attaches config) ProviderConfig.type := by
  obtain ⟨-, versions, rfl, -⟩ := overwriteRoot_cases write
  have configs : (rewriteRoot (setLabels db prev.id a.labels) a config prev).providerconfigs =
      db.providerconfigs := (updateResources_only _ _ _ _).providerconfigs
  obtain ⟨stored, key⟩ := mem_of_lookup found
  intro r' after id refers
  simp only [configs]
  left
  rcases (mem_rewriteRoot stored).mp after with rfl | ⟨old, other⟩
  · have row := overwrittenRow_overwrites db a config prev
    have attached : config = some id := row.config.symm.trans refers
    obtain ⟨kind, name⟩ := Prod.mk.inj key
    have given : a.attaches config prev = some id := by
      rw [ApplySpec.attaches, if_pos (by rw [Resource.ref, kind, name]), attached]
    obtain ⟨c, here, same, -⟩ := resolveConfig_some (attached ▸ resolved)
    refine ⟨prev, stored, row.id, ?_, given, c, here, same, c, here, same, rfl⟩
    rw [Resource.type, row.kind, row.kindVersion]
  · have apart : (r'.kind, r'.name) ≠ (a.kind, a.name) := fun named =>
      other (congrArg (·.id) (eq_of_clashes old stored (.inr (named.trans key.symm))))
    obtain ⟨c, here, same, -⟩ := matched r' old id refers
    exact ⟨r', old, rfl, rfl, (attaches_other apart).trans refers, c, here, same, c, here, same, rfl⟩

theorem Retypes.congr {a : Db} {version : Resource → Nat} {given : Resource → Option Uuid}
    {type : ProviderConfig → String × Nat} (retypes : Retypes a b version given type)
    (resources : c.resources = b.resources) (configs : c.providerconfigs = b.providerconfigs) :
    Retypes a c version given type := by
  intro r' after id refers
  rw [configs]
  exact retypes r' (resources ▸ after) id refers

theorem applySpec_retypes (matched : Matched db) (done : applySpec db a = some db') :
    Retypes db db' Resource.kindVersion (configGiven db (.applySpec a)) ProviderConfig.type := by
  obtain ⟨config, resolved, cases_⟩ := applySpec_cases done
  have given : configGiven db (.applySpec a) = a.attaches config := by
    funext r
    rw [configGiven, if_pos (by rw [done]; rfl), resolved, join_some]
  rw [given]
  rcases cases_ with ⟨mid, r, create, missing, rfl⟩ | ⟨prev, found, ⟨same, rfl⟩ | ⟨-, mid, r, write, rfl⟩⟩
  · exact (createRoot_retypes matched resolved missing create).congr (created_only mid r).resources
      (created_only mid r).providerconfigs
  · intro r' after id refers
    obtain ⟨c, stored, here, -⟩ := matched r' after id refers
    exact .inl ⟨r', after, rfl, rfl, (attaches_kept after found same.2.1).trans refers, c, stored, here,
      c, stored, here, rfl⟩
  · exact (overwriteRoot_retypes matched resolved found write).congr (created_only mid r).resources
      (created_only mid r).providerconfigs

/-! ### The compose -/

theorem batchUpsertChildren_refs {parent root : Uuid} {existing : List Resource}
    (done : batchUpsertChildren db parent root existing out = some db') :
    db'.providerconfigs = db.providerconfigs ∧ Refs db db' (fun r => if r.marked then r.kindVersion
        else (declFor (changedChildren existing out) r).elim r.kindVersion (·.kindVersion))
        ProviderConfig.type := by
  obtain ⟨inserted, insert, rfl⟩ := map_eq_some_iff.mp done
  have configs : inserted.providerconfigs = db.providerconfigs := by
    obtain ⟨-, -, -, rfl, -⟩ := insertChildren_spec insert
    rfl
  have same : (updateChildren inserted (changedChildren existing out)).providerconfigs =
      db.providerconfigs := (updateResources_only _ _ _ _).providerconfigs.trans configs
  refine ⟨same, fun r' after id refers => ?_, fun r' _ c stored _ => ⟨c, same ▸ stored, rfl, rfl⟩⟩
  obtain ⟨r, here, row⟩ := mem_updateChildren after
  rw [row.config] at refers
  rcases insertChildren_mem insert here with old | ⟨_, _, new⟩
  · refine ⟨r, old, row.id, ?_, refers⟩
    rw [Resource.type, row.kind, row.kindVersion]
  · rw [new.config] at refers
    cases refers

theorem applyComposedConfigs_refs (done : applyComposedConfigs db owner configs = some db') :
    Refs db db' Resource.kindVersion (composedType owner configs) := by
  obtain ⟨pass, passed, rest⟩ := bind_eq_some_iff.mp done
  obtain ⟨upserted, upserts, rfl⟩ := map_eq_some_iff.mp rest
  have pass := passConfigs_passed passed .start
  have composed := (upsertOwnedConfigs_composed upserts
    (pass.nodup.sublist (filter_sublist.map _))).of_diff pass.nodup
  refine Refs.then_ordinary ⟨fun r' after id refers => ?_, fun r' _ c stored _ => ?_⟩
    (deleteConfigs_ordinary _ _)
  · obtain ⟨t, n, -, rfl⟩ := upsertOwnedConfigs_only upserts
    exact ⟨r', after, rfl, rfl, refers⟩
  · unfold composedType
    by_cases owned : c.ownerId = some owner
    · rw [if_pos owned]
      cases found : configs.find? (·.name = c.name) with
      | none =>
        refine ⟨c, composed.keeps stored (.inr fun listed => ?_), rfl, rfl⟩
        obtain ⟨d, listed, named⟩ := mem_map.mp listed
        obtain ⟨e, there, same⟩ := exists_of_map_eq pass.taken listed
        exact find?_eq_none.mp found e there (decide_eq_true ((Prod.mk.inj same).1.trans named))
      | some e =>
        have named := find?_some found
        obtain ⟨d, listed, declares⟩ := exists_of_map_eq pass.taken.symm (mem_of_find?_eq_some found)
        obtain ⟨name, type⟩ := Prod.mk.inj declares
        have same : c.name = d.name := (name.trans (of_decide_eq_true named)).symm
        obtain ⟨c', there, -, declared, ids⟩ := composed.row listed fun o old this =>
          eq_of_pk config_named old stored (this.trans same.symm) ▸ owned
        exact ⟨c', there, (ids c stored same).symm, declared.type.trans type⟩
    · rw [if_neg owned]
      exact ⟨c, composed.keeps stored (.inl owned), rfl, rfl⟩

theorem applyComposeResult_refs {env : ComposeEnv} {t : WorkTask}
    {pol : ComposePolicy} (done : applyComposeResult db env t out pol = some db') :
    Refs db db' (composedVersion db env t.resourceId out) (composedType t.resourceId out.configs) := by
  obtain ⟨⟨body, ids⟩, composed, rest⟩ := bind_eq_some_iff.mp done
  obtain ⟨stamped, stamp, rfl⟩ := map_eq_some_iff.mp rest
  obtain ⟨parent, upserted, produced, wired, flowed, stages, flows, configs⟩ :=
    composeBody_cases composed
  have id : parent.id = t.resourceId := (mem_of_lookup stages.found).2
  obtain ⟨stored, children⟩ := batchUpsertChildren_refs stages.upsert
  have ordinary : Ordinary upserted flowed :=
    ((composeChildren_ordinary _ env pol _ out).trans (applyEdges_ordinary stages.wire)).trans
      (applyValueFlows_ordinary flows)
  have last (ids : List Uuid) : Ordinary body (armScheduleRecheck stamped ids) :=
    (stampComposedGen_ordinary stamp).trans (.of_eq rfl rfl rfl rfl)
  rw [← id]
  refine Refs.then_ordinary ?_ (last _)
  refine (children.then_ordinary ordinary).trans ?_ (applyComposedConfigs_refs configs)
  exact fun r here c old refers => ordinary.configs r here c (stored ▸ old) refers

end Writers

/-! ## Runs -/

section Matching

variable [Postgres] {db : Db}

theorem step_retypes (matched : Matched db) (a : Action) :
    Retypes db (step db a) (versionGiven db a) (configGiven db a) (typeGiven db a) := by
  have unchanged : Retypes db db Resource.kindVersion Resource.providerConfigId ProviderConfig.type :=
    (Ordinary.refl db).refs.retypes matched
  cases a with
  | applySpec args =>
    simp only [step]
    cases done : applySpec db args with
    | none =>
      have same : configGiven db (.applySpec args) = Resource.providerConfigId := by
        funext r
        rw [configGiven, done]
        rfl
      rw [same]
      exact unchanged
    | some db' => exact applySpec_retypes matched done
  | flipResourceKindVersion id old new spec =>
    simp only [step]
    cases done : flipResourceKindVersion db id old new spec with
    | none =>
      -- only the version 0 is refused
      have refused : new = 0 := by
        by_contra served
        rw [flipResourceKindVersion, if_neg served] at done
        split at done <;> cases done
      have same : versionGiven db (.flipResourceKindVersion id old new spec) = Resource.kindVersion := by
        funext r
        simp only [versionGiven, refused, ne_eq, not_true_eq_false, decide_false, Bool.false_and,
          Bool.false_eq_true, if_false]
      rw [same]
      exact unchanged
    | some db' => exact (flip_refs done).retypes matched
  | upsertProviderConfig n =>
    simp only [step]
    cases done : upsertProviderConfig db n with
    | none =>
      have same : typeGiven db (.upsertProviderConfig n) = ProviderConfig.type := by
        funext c
        simp only [typeGiven, done, isSome_none, Bool.and_false, Bool.false_eq_true, if_false]
      rw [same]
      exact unchanged
    | some db' =>
      have same : typeGiven db (.upsertProviderConfig n) =
          fun c => if n.name = c.name then n.type else c.type := by
        funext c
        simp only [typeGiven, done, isSome_some, Bool.and_true, decide_eq_true_eq]
      rw [same]
      exact (upsertProviderConfig_refs done).retypes matched
  | applyComposeResult env t out pol =>
    simp only [step, submitCompose]
    by_cases committed : composeCommits db env t out pol = true
    · have parts := committed
      simp only [composeCommits, Bool.and_eq_true, decide_eq_true_eq] at parts
      obtain ⟨db', done⟩ := isSome_iff_exists.mp parts.2
      have version : versionGiven db (.applyComposeResult env t out pol) =
          composedVersion db env t.resourceId out := funext fun r => if_pos committed
      have type : typeGiven db (.applyComposeResult env t out pol) =
          composedType t.resourceId out.configs := funext fun c => if_pos committed
      rw [if_pos parts.1, done, version, type]
      exact (applyComposeResult_refs done).retypes matched
    · have version : versionGiven db (.applyComposeResult env t out pol) = Resource.kindVersion :=
        funext fun r => if_neg committed
      have type : typeGiven db (.applyComposeResult env t out pol) = ProviderConfig.type :=
        funext fun c => if_neg committed
      rw [version, type]
      split
      · rename_i claimed
        cases done : applyComposeResult db env t out pol with
        | none => exact unchanged
        | some db' =>
          refine absurd ?_ committed
          simp only [composeCommits, Bool.and_eq_true, decide_eq_true_eq, claimed, done, isSome_some, and_self]
      · exact unchanged
  | upsertKindManifest m =>
    simp only [step, upsertKindManifest]
    split
    · exact unchanged
    · simp only [getD_some]
      split
      · refine Refs.retypes (.of_same (fun r' after => ?_) fun r' _ c stored _ => ?_) matched
        · rw [mem_updateResources] at after
          obtain ⟨r, here, rfl⟩ := after
          refine ⟨r, here, ?_⟩
          split
          · exact ⟨rfl, rfl, rfl, .inl rfl⟩
          · exact .refl r
        · rw [(updateResources_only _ _ _ _).providerconfigs]
          exact stored
      · exact unchanged
  | deleteKindManifest kind version =>
    simp only [step, deleteKindManifest]
    split
    · exact unchanged
    · split
      · exact unchanged
      · exact (deleteConfigs_ordinary db fun c => c.kind = kind && c.kindVersion = version).refs.retypes
          matched
  | _ =>
    refine (step_ordinary db ?_).refs.retypes matched
    exact not_false

/-- **Every row matches its config, in all states of a run, exactly if** every step gives one
type to both ends of each reference it leaves. -/
theorem references_match (actions : List Action) :
    Along (fun db a => Matched (step db a)) Db.empty actions ↔ Along JoinsTypes Db.empty actions := by
  refine Along.iff_keeps ?_ .empty fun r here => absurd here (notMem_empty r)
  intro db a _ _ matched
  exact (step_retypes matched a).matched_iff

end Matching

def appConfig (name : String) (version : Nat) : Action :=
  .upsertProviderConfig ⟨0, name, "app", version, false, .obj [], [], none⟩

def applyWith (version : Nat) (config : String) : Action :=
  .applySpec ⟨"app", version, "a", .obj [], .obj [], config⟩

/-- An app takes another config of its version; the first is then used for the next version. -/
theorem references_match_moved : letI := counting
    let actions := [appConfig "small" 1, appConfig "large" 1, applyWith 1 "small", applyWith 1 "large",
      appConfig "small" 2]
    Along (fun db a => Matched (step db a)) Db.empty actions ∧
      (run Db.empty actions).resources.rows.map (·.providerConfigId.isSome) = [true] := by
  intro actions
  have facts : letI := counting
      Along JoinsTypes Db.empty actions ∧
        (run Db.empty actions).resources.rows.map (·.providerConfigId.isSome) = [true] := by
    decide +kernel
  exact ⟨(@references_match counting actions).mpr facts.1, facts.2⟩

/-- The app owns a network and a config for it, which the network is given. -/
def netWithConfig : Script :=
  [fun _ => [applyRoot "app" "a", claimAll "b" "app" .reconcile],
    composes "app" noGrace (fun _ => "") ⟨[child "net" "n"], [], [⟨"wide", "net", 1, false, .obj []⟩]⟩,
    fun _ => [.applySpec ⟨"net", 1, "n", .obj [], .obj [], "wide"⟩]]

/-- A version-1 app applied at version 2 with a config for that; a flip; a config rewritten for
another version; and a compose that moves a child, or the config of a child, to version 2. -/
def diverging : List Script :=
  let moved (version : Nat) : ChildSpec := ⟨"net", version, "n", .obj [], .obj []⟩
  let wide (version : Nat) : ProviderConfigSpec := ⟨"wide", "net", version, false, .obj []⟩
  [[fun _ => [applyWith 1 "", appConfig "two" 2, applyWith 2 "two"]],
    [fun _ => [appConfig "one" 1, applyWith 1 "one", .flipResourceKindVersion 1 1 2 (.obj [])]],
    [fun _ => [appConfig "one" 1, applyWith 1 "one", appConfig "one" 2]],
    netWithConfig ++ [composes "app" noGrace (fun _ => "") ⟨[moved 2], [], [wide 1]⟩],
    netWithConfig ++ [composes "app" noGrace (fun _ => "") ⟨[moved 1], [], [wide 2]⟩]]

/-- Each leaves a row with a config of its kind for another version. -/
theorem references_diverge : letI := counting
    diverging.Forall fun script =>
      let db := run Db.empty (script.play Db.empty)
      ∃ r ∈ db.resources.rows, ∃ c ∈ db.providerconfigs.rows, r.providerConfigId = some c.id ∧
        c.kind = r.kind ∧ c.kindVersion ≠ r.kindVersion := by
  decide +kernel

end Converge.Kernel
