/-
# Kernel.Commands -- what users, operators and duties do to the store

Each command is one transaction.  `none` is an error: the transaction is rolled
back.  Specs reach these commands after schema validation and manifests after
their validators; both are outside this module.

An apply that changes the body or the config reference of an existing row moves
its generation by one, appends to the version log only when the body changed, and
never touches the row's kind version.  A flip rewrites kind version and spec
together, in place.
-/
import Converge.Kernel.Queue
import Converge.Kernel.Deletion

namespace Converge.Kernel

open Converge.Theory

set_option autoImplicit false

variable [Postgres]

/-! ## Apply -/

/-- The arguments of `ApplySpecKindVersionWithConfig`; an empty config name is none. -/
structure ApplySpec where
  kind : String
  kindVersion : Nat
  name : String
  spec : Json
  labels : Json
  providerConfigName : String

/-- Resolve the config reference; `none` when it does not exist or configures
another kind or version. -/
def resolveConfig (db : Db) (a : ApplySpec) : Option (Option Uuid) :=
  if a.providerConfigName = "" then some none
  else
    match db.providerconfigs.lookup (·.name) a.providerConfigName with
    | none => none
    | some c => if c.kind = a.kind ∧ c.kindVersion = a.kindVersion then some (some c.id) else none

/-- The manifest version new rows of a kind are stamped with. -/
def currentManifest (db : Db) (kind : String) (version : Nat) : Int :=
  ((db.kindConfig? kind version).map (·.manifestVersion)).getD 0

/-- A resource as its INSERT leaves it: generation 1, everything else at its default. -/
def freshResource (db : Db) (id : Uuid) (kind : String) (version : Nat) (name : String)
    (spec labels : Json) (owner root config : Option Uuid) : Resource where
  id := id
  kind := kind
  kindVersion := version
  ownerId := owner
  rootId := root
  name := name
  labels := labels
  spec := spec
  status := none
  providerConfigId := config
  generation := 1
  syncedGen := 0
  healthOk := true
  composedGen := 0
  manifestVersion := currentManifest db kind version
  failureGen := 0
  failureTerminal := false
  failureAttempts := 0
  finalizers := []
  deletionRequestedAt := none
  frozenUntil := none
  lastReconciledAt := none
  updatedAt := db.now

/-- Append to the version log; `none` when the generation is already logged. -/
def logSpec (db : Db) (id : Uuid) (generation : Nat) (spec : Json) : Option Db :=
  (db.specVersions.insert? ⟨id, generation, spec⟩).map fun t => { db with specVersions := t }

/-- `UpsertResource` when no row has this kind and name. -/
def createRoot (db : Db) (a : ApplySpec) (config : Option Uuid) : Option (Db × Resource) :=
  let r := freshResource db (Postgres.randomUuid db.drawn) a.kind a.kindVersion a.name a.spec
    a.labels none none config
  (db.resources.insert? r).bind fun t =>
    (logSpec { db with resources := t, drawn := db.drawn + 1 } r.id 1 a.spec).map (·, r)

/-- `upd_meta` of `UpsertResource`. -/
def setLabels (db : Db) (id : Uuid) (labels : Json) : Db :=
  { db with
    resources := db.resources.updateWhere (·.id = id) (fun r => { r with labels := labels })
      (fun _ => rfl) }

/-- `body_changed` or `cfg_changed` of `UpsertResource`. -/
def ApplySpec.rewrites (a : ApplySpec) (config : Option Uuid) (prev : Resource) : Bool :=
  prev.spec ≠ a.spec || prev.providerConfigId ≠ config

/-- `upd_res` of `UpsertResource`. -/
def rewriteRoot (db : Db) (a : ApplySpec) (config : Option Uuid) (prev : Resource) : Db :=
  updateResources db (fun r => r.id = prev.id && a.rewrites config prev) (fun r => { r with
      spec := a.spec
      providerConfigId := config
      generation := r.generation + 1
      updatedAt := db.now })
    (fun _ => rfl)

/-- `UpsertResource` on the existing row `prev`, and the row it reports: the version is
that of the request. -/
def overwriteRoot (db : Db) (a : ApplySpec) (config : Option Uuid) (prev : Resource) : Option (Db × Resource) :=
  let db := rewriteRoot (setLabels db prev.id a.labels) a config prev
  (if prev.spec = a.spec then some db else logSpec db prev.id (prev.generation + 1) a.spec).map (·, { prev with
      kindVersion := a.kindVersion
      labels := a.labels
      generation := if a.rewrites config prev then prev.generation + 1 else prev.generation })

/-- `applySpecOnce`.  The row is scheduled, and a `created` delivery goes out, when
anything changed, labels included. -/
def applySpec (db : Db) (a : ApplySpec) : Option Db :=
  if a.kindVersion < 1 then none
  else
    (resolveConfig db a).bind fun config =>
      match db.resources.lookup (fun r => (r.kind, r.name)) (a.kind, a.name) with
      | none =>
        (createRoot db a config).map fun (db, r) => emit .created (scheduleEligible db [r.id]) r
      | some prev =>
        if prev.spec = a.spec ∧ prev.providerConfigId = config ∧ prev.labels = a.labels then
          some db
        else
          (overwriteRoot db a config prev).map fun (db, r) =>
            emit .created (scheduleEligible db [r.id]) r

/-- `Reconcile`: a generation without a new spec. -/
def reconcile (db : Db) (id : Uuid) : Db :=
  scheduleEligible (updateResources db (·.id = id)
      (fun r => { r with generation := r.generation + 1, updatedAt := db.now }) (fun _ => rfl))
    [id]

/-! ## Flip, rollback, quarantine -/

/-- The guard of `FlipResourceKindVersionSQL`. -/
def flippable (id : Uuid) (oldVersion : Nat) (r : Resource) : Bool :=
  r.id = id && r.kindVersion = oldVersion && !r.marked && !r.frozen

def flipResourceKindVersion (db : Db) (id : Uuid) (oldVersion newVersion : Nat) (newSpec : Json) : Option Db :=
  if newVersion = 0 then none
  else if db.resources.rows.any (flippable id oldVersion) then
    let flipped := updateResources db (flippable id oldVersion)
      (fun r => { r with
        kindVersion := newVersion
        spec := newSpec
        manifestVersion := currentManifest db r.kind newVersion
        generation := r.generation + 1
        updatedAt := db.now })
      (fun _ => rfl)
    let scheduled := scheduleEligible flipped [id]
    -- RecordEdgeSrcKindVersion: the edges now read the new version's status
    some { scheduled with
      deps := scheduled.deps.updateWhere (fun d => d.dependencyId = id)
        (fun d => { d with srcKindVersion := newVersion }) (fun _ => rfl) }
  else some db

def rollbackToSpec (db : Db) (id : Uuid) (targetGen : Nat) : Db :=
  match db.specVersions.lookup (fun v => (v.resourceId, v.generation)) (id, targetGen) with
  | none => db
  | some target =>
    if db.resources.rows.any fun r => r.id = id && r.spec ≠ target.spec then
      scheduleEligible (updateResources db (fun r => r.id = id && r.spec ≠ target.spec) (fun r => { r with
            spec := target.spec
            generation := r.generation + 1
            updatedAt := db.now })
          (fun _ => rfl))
        [id]
    else db

/-- `quarantine_resource`: frozen for good, and its unclaimed reconcile leaves the
queue; a claimed one runs on. -/
def quarantineResource (db : Db) (id : Uuid) : Db :=
  let taken := fun r : Resource => r.id = id && !r.marked && r.frozenUntil ≠ some .infinity
  if db.resources.rows.any taken then
    let db := updateResources db taken
      (fun r => { r with frozenUntil := some .infinity, updatedAt := db.now }) (fun _ => rfl)
    { db with
      workQueue := db.workQueue.deleteWhere fun q =>
        q.resourceId = id && q.taskType = .reconcile && q.brokerId.isNone }
  else db

def unquarantineResource (db : Db) (id : Uuid) : Db :=
  let taken := fun r : Resource => r.id = id && r.frozenUntil = some .infinity
  if db.resources.rows.any taken then
    scheduleEligible (updateResources db taken
        (fun r => { r with frozenUntil := none, updatedAt := db.now }) (fun _ => rfl))
      [id]
  else db

section History

local instance : LawfulBEq (Uuid × Nat) := inferInstance

/-- `gc_spec_history`: all but the newest `keepN` entries of a resource may go. -/
def gcSpecHistory (db : Db) (scan : Scan (Uuid × Nat)) (keepN maxRows : Nat) (shards : List Nat) : Db :=
  let newer := fun v : SpecVersion => (db.specVersions.rows.filter fun w =>
    w.resourceId = v.resourceId && v.generation < w.generation).length
  let picked := scan.pick (fun v => (v.resourceId, v.generation))
    (fun v => (v.resourceId, v.generation)) maxRows
    (db.specVersions.rows.filter fun v =>
      (db.resource? v.resourceId).isSome && shardOf v.resourceId ∈ shards && keepN ≤ newer v)
  { db with
    specVersions := db.specVersions.deleteWhere fun v =>
      (v.resourceId, v.generation) ∈ picked.map fun v => (v.resourceId, v.generation) }

end History

/-! ## Provider configs -/

/-- `UpsertProviderConfig`; `none` when the kind already has another default. -/
def upsertProviderConfig (db : Db) (c : ProviderConfig) : Option Db :=
  if db.providerconfigs.rows.any (·.name = c.name) then
    (db.providerconfigs.tryUpdateWhere (·.name = c.name) fun old => { old with
      kind := c.kind
      kindVersion := c.kindVersion
      isDefault := c.isDefault
      spec := c.spec
      data := c.data }).map fun t => { db with providerconfigs := t }
  else
    (db.providerconfigs.insert?
        { c with id := Postgres.randomUuid db.drawn, ownerId := none }).map fun t =>
      { db with providerconfigs := t, drawn := db.drawn + 1 }

omit [Postgres] in
theorem unconfigured_key (r : Resource) : Keyed.key { r with providerConfigId := none } = Keyed.key r := rfl

/-- Remove configs; `provider_config_id` of the rows that referenced them is set to
`NULL` by the foreign key. -/
def deleteConfigs (db : Db) (p : ProviderConfig → Bool) : Db :=
  let gone := (db.providerconfigs.rows.filter p).map (·.id)
  { db with
    providerconfigs := db.providerconfigs.deleteWhere p
    resources := db.resources.updateWhere (fun r => r.providerConfigId.any (· ∈ gone))
      (fun r => { r with providerConfigId := none }) unconfigured_key }

def deleteProviderConfig (db : Db) (name : String) : Db := deleteConfigs db (·.name = name)

/-! ## Kinds -/

/-- The `kind_config` row a first publish inserts. -/
def KindManifest.config (m : KindManifest) : KindConfig where
  kind := m.kind
  kindVersion := m.kindVersion
  maxInflight := m.maxInflight
  taskDeadlineSecs := m.taskDeadlineSecs
  resyncIntervalSecs := m.resyncIntervalSecs
  resyncRecomposes := m.resyncRecomposes
  orphanGraceSecs := m.orphanGraceSecs
  finalizerName := m.finalizerName
  maxTransientAttempts := m.maxTransientAttempts
  retired := m.retired
  manifestVersion := m.manifestVersion

/-- `UpsertKindManifest` with `sync_kind_config_from_manifest`: a later publish moves
only the finalizer and the manifest version of the config, and restamps live rows. -/
def upsertKindManifest (db : Db) (m : KindManifest) : Option Db :=
  if m.kindVersion < 1 then none
  else
    let old := db.kindManifest.lookup (fun k => (k.kind, k.kindVersion)) (m.kind, m.kindVersion)
    let db := { db with
      kindManifest := (db.kindManifest.deleteWhere fun k =>
        k.kind = m.kind && k.kindVersion = m.kindVersion).insertNew m
      kindConfig := (db.kindConfig.updateWhere
        (fun c => c.kind = m.kind && c.kindVersion = m.kindVersion)
        (fun c => { c with
          manifestVersion := m.manifestVersion
          finalizerName := m.finalizerName })
        (fun _ => rfl)).insertNew m.config }
    some (if old.any (·.manifestVersion ≠ m.manifestVersion) then
      updateResources db (fun r => r.kind = m.kind && r.kindVersion = m.kindVersion
          && r.manifestVersion ≠ m.manifestVersion)
        (fun r => { r with manifestVersion := m.manifestVersion }) (fun _ => rfl)
    else db)

/-- `DeleteKindManifest`: refused while a resource or a pinned binding uses the
version; its configs go with it. -/
def deleteKindManifest (db : Db) (kind : String) (version : Nat) : Option Db :=
  if db.resources.rows.any fun r => r.kind = kind && r.kindVersion = version then none
  else if db.reactorBindings.rows.any fun b =>
      (b.watchKind = kind && b.watchKindVersion = some version)
        || (b.reactor = kind && b.reactorVersion = some version) then none
  else
    let db := deleteConfigs db fun c => c.kind = kind && c.kindVersion = version
    some { db with
      kindConfig := db.kindConfig.deleteWhere fun c => c.kind = kind && c.kindVersion = version
      kindManifest := db.kindManifest.deleteWhere fun m =>
        m.kind = kind && m.kindVersion = version }

/-- `SeedKindConfig`: an existing row only gains a finalizer it lacks. -/
def seedKindConfig (db : Db) (c : KindConfig) : Db :=
  { db with
    kindConfig := (db.kindConfig.updateWhere
      (fun k => k.kind = c.kind && k.kindVersion = c.kindVersion && k.finalizerName.isNone
        && c.finalizerName.isSome)
      (fun k => { k with finalizerName := c.finalizerName }) (fun _ => rfl)).insertNew
      { c with manifestVersion := 0 } }

/-- `UpsertKindConfig`: policy is overwritten, a finalizer is never cleared. -/
def upsertKindConfig (db : Db) (c : KindConfig) : Db :=
  { db with
    kindConfig := (db.kindConfig.updateWhere
      (fun k => k.kind = c.kind && k.kindVersion = c.kindVersion)
      (fun k => { k with
        maxInflight := c.maxInflight
        taskDeadlineSecs := c.taskDeadlineSecs
        resyncIntervalSecs := c.resyncIntervalSecs
        resyncRecomposes := c.resyncRecomposes
        orphanGraceSecs := c.orphanGraceSecs
        maxTransientAttempts := c.maxTransientAttempts
        retired := c.retired
        finalizerName := c.finalizerName.or k.finalizerName })
      (fun _ => rfl)).insertNew { c with manifestVersion := 0 } }

/-! ## Reactors and operations -/

def upsertReactorBinding (db : Db) (b : ReactorBinding) : Db :=
  { db with
    reactorBindings := (db.reactorBindings.deleteWhere (·.name = b.name)).insertNew b }

def deleteReactorBinding (db : Db) (name : String) : Db :=
  { db with reactorBindings := db.reactorBindings.deleteWhere (·.name = name) }

/-- `CreateOperationRow`: the record and its task together, or neither. -/
def createOperation (db : Db) (resourceId : Uuid) (verb : String) (input : Json) : Option Db :=
  let op : ResourceOperation :=
    ⟨Postgres.randomUuid db.drawn, resourceId, verb, input, none, .pending, none, none⟩
  (db.resource? resourceId).bind fun r =>
    (db.operations.insert? op).bind fun operations =>
      let db := { db with operations := operations, drawn := db.drawn + 1 }
      if r.frozen then none
      else
        (db.workQueue.insert? { workFor db .operate r with opId := some op.id }).map fun t =>
          { db with workQueue := t, drawn := db.drawn + 1 }

def setOperationRunning (db : Db) (id : Uuid) : Db :=
  { db with
    operations := db.operations.updateWhere
      (fun o => o.id = id && (o.state = .pending || o.state = .running))
      (fun o => { o with state := .running }) (fun _ => rfl) }

end Converge.Kernel
