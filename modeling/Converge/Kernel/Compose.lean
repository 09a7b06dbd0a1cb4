/-
# Kernel.Compose -- applying a composer's output

`ApplyComposeResult` runs in one transaction that the engine opens for the task it
is running.  In order: emitted children are inserted or updated, children no longer
emitted are pruned, re-emitted orphans are re-adopted, edges are checked, pruned and
upserted, statuses of synced upstreams flow into their dependents, provider configs
are diffed, and last `composed_gen` is stamped.  The stamp is fenced by the task's
claim: when the claim was lost, nothing of the transaction stays.

What a dropped child meets depends on its kind's policy: already draining or frozen
rows are left alone, a grace window freezes the row, a finalizer sends it through
`request_resource_deletion`, and a row with neither is deleted outright.
-/
import Converge.Kernel.Commands

namespace Converge.Kernel

open Converge.Theory

set_option autoImplicit false

variable [Postgres]

structure ChildSpec where
  kind : String
  kindVersion : Nat
  name : String
  spec : Json
  labels : Json
  deriving DecidableEq

structure ResourceRef where
  kind : String
  name : String
  deriving DecidableEq

/-- `model.DepEdge`: `dependent` depends on `dependency`. -/
structure DepEdge where
  dependent : ResourceRef
  dependency : ResourceRef
  values : List ValueFlow
  deriving DecidableEq

structure ProviderConfigSpec where
  name : String
  kind : String
  kindVersion : Nat
  isDefault : Bool
  spec : Json
  deriving DecidableEq

structure ComposeOutput where
  children : List ChildSpec
  edges : List DepEdge
  configs : List ProviderConfigSpec

/-- `ComposePolicy`: grace in seconds and finalizer name per kind and version, as the
manifest cache has them. -/
structure ComposePolicy where
  orphanGraceForKind : String → Nat → Nat
  finalizerForKind : String → Nat → String

/-- What the environment decides during a compose: the order in which the existing
children are listed, the order of flow aggregates, and the scans of each deletion
request. -/
structure ComposeEnv where
  childOrder : Nat → Nat
  flowOrder : Nat → Nat
  scans : Uuid → Nat → Scan Uuid

def ChildSpec.ref (c : ChildSpec) : ResourceRef := ⟨c.kind, c.name⟩

def Resource.ref (r : Resource) : ResourceRef := ⟨r.kind, r.name⟩

omit [Postgres] in
/-- Two rows of one kind and name are one row. -/
theorem Resource.eq_of_ref {t : Table Resource} {r s : Resource} (hr : r ∈ t) (hs : s ∈ t)
    (same : r.ref = s.ref) : r = s := by
  obtain ⟨kind, name⟩ := ResourceRef.mk.inj same
  exact Table.eq_of_clashes hr hs (.inr (Prod.ext kind name))

/-! ## Children -/

def existingChildren (db : Db) (parent : Uuid) : List Resource :=
  db.resources.rows.filter fun r => r.ownerId = some parent

/-- The spec paths of a child that edges fill. -/
def flowedPaths (edges : List DepEdge) (ref : ResourceRef) : List (List String) :=
  (edges.filter (·.dependent = ref)).flatMap fun e => e.values.map fun v =>
    pointerSegments v.depField

/-- A re-emitted child that needs no write. -/
def childUnchanged (edges : List DepEdge) (e : Resource) (c : ChildSpec) : Bool :=
  e.kindVersion = c.kindVersion
    && specsMatchIgnoringFlowed e.spec c.spec (flowedPaths edges c.ref)
    && e.labels = c.labels

/-- The existing child a spec addresses. -/
def existingByRef (existing : List Resource) (c : ChildSpec) : Option Resource :=
  existing.find? fun e => e.ref = c.ref

def newChildren (existing : List Resource) (children : List ChildSpec) : List ChildSpec :=
  children.filter fun c => (existingByRef existing c).isNone

/-- The children to update, with the row each one addresses. -/
def changedChildren (existing : List Resource) (out : ComposeOutput) : List (Resource × ChildSpec) :=
  out.children.filterMap fun c =>
    ((existingByRef existing c).filter fun e => !childUnchanged out.edges e c).map (·, c)

/-- `InsertChildrenHotSQL` and `InsertChildrenMetaSQL` for one child. -/
def insertChild (parent root : Uuid) (db : Db) (c : ChildSpec) : Option Db :=
  (db.resources.insert? (freshResource db (Postgres.randomUuid db.drawn) c.kind c.kindVersion c.name
    c.spec c.labels (some parent) (some root) none)).map fun t =>
      { db with resources := t, drawn := db.drawn + 1 }

/-- The update declared for row `r`. -/
def declFor (decls : List (Resource × ChildSpec)) (r : Resource) : Option ChildSpec :=
  (decls.find? fun d => d.1.id = r.id).map Prod.snd

/-- `UpdateChildrenHotSQL`'s `SET`; the manifest is restamped on a version change. -/
def updateChildRow (db : Db) (c : ChildSpec) (r : Resource) : Resource :=
  { r with
    spec := c.spec
    kindVersion := c.kindVersion
    manifestVersion :=
      if r.kindVersion = c.kindVersion then r.manifestVersion
      else currentManifest db r.kind c.kindVersion
    generation := r.generation + 1
    updatedAt := db.now }

/-- `UpdateChildrenHotSQL`, then `UpdateChildrenMetaSQL`. -/
def updateChildren (db : Db) (decls : List (Resource × ChildSpec)) : Db :=
  let db := updateResources db
    (fun r => !r.marked && (declFor decls r).any fun c =>
      r.spec ≠ c.spec || r.kindVersion ≠ c.kindVersion)
    (fun r => (declFor decls r).elim r (updateChildRow db · r))
    (fun r => by cases declFor decls r <;> rfl)
  { db with
    resources := db.resources.updateWhere (fun r => (declFor decls r).isSome)
      (fun r => { r with labels := ((declFor decls r).map (·.labels)).getD r.labels })
      (fun _ => rfl) }

def batchUpsertChildren (db : Db) (parent root : Uuid) (existing : List Resource)
    (out : ComposeOutput) : Option Db :=
  ((newChildren existing out.children).foldlM (insertChild parent root) db).map fun db =>
    updateChildren db (changedChildren existing out)

/-! ## Pruning -/

/-- What becomes of a dropped child. -/
inductive Prune where
  | leave
  | grace (seconds : Nat)
  | soft
  | hard
  deriving DecidableEq

/-- The decision tree of the prune, on the row as it was listed. -/
def pruneOf (pol : ComposePolicy) (e : Resource) : Prune :=
  if e.marked then .leave
  else if e.frozen then .leave
  else if 0 < pol.orphanGraceForKind e.kind e.kindVersion then
    .grace (pol.orphanGraceForKind e.kind e.kindVersion)
  else if pol.finalizerForKind e.kind e.kindVersion = "" then .hard
  else .soft

def dropped (existing : List Resource) (out : ComposeOutput) : List Resource :=
  existing.filter fun e => out.children.all fun c => e.ref ≠ c.ref

/-- The soft deletes, in listing order. -/
def softDelete (db : Db) (scans : Uuid → Nat → Scan Uuid) (stale : List Resource) : Db :=
  stale.foldl (fun db e => requestResourceDeletion db (scans e.id) e.id) db

/-- The grace a stale list stamps on `r`. -/
def graceFor (pol : ComposePolicy) (stale : List Resource) (r : Resource) : Option Nat :=
  (stale.find? fun e => e.id = r.id).bind fun e =>
    match pruneOf pol e with
    | .grace seconds => some seconds
    | _ => none

def markChildrenOrphaned (db : Db) (pol : ComposePolicy) (stale : List Resource) : Db :=
  updateResources db (fun r => (graceFor pol stale r).isSome && !r.marked && !r.frozen) (fun r => { r with
      frozenUntil := (graceFor pol stale r).map fun seconds => .until (db.now + seconds)
      updatedAt := db.now })
    (fun _ => rfl)

/-- The rows of `DeleteChildrenSQL`. -/
def hardStale (pol : ComposePolicy) (stale : List Resource) : List Uuid :=
  (stale.filter fun e => pruneOf pol e = .hard).map (·.id)

/-- The prune: soft deletes as they are met, then the grace stamps, then the hard
deletes in one statement. -/
def pruneChildren (db : Db) (scans : Uuid → Nat → Scan Uuid) (pol : ComposePolicy)
    (stale : List Resource) : Db :=
  let db := softDelete db scans (stale.filter fun e => pruneOf pol e = .soft)
  deleteResources (markChildrenOrphaned db pol stale) (hardStale pol stale)

omit [Postgres] in
theorem thawed_key (db : Db) (r : Resource) :
    Keyed.key { r with frozenUntil := none, updatedAt := db.now } = Keyed.key r := rfl

/-- `ClearOrphanMarksSQL` on the re-emitted children listed in their grace window. -/
def clearOrphanMarks (db : Db) (existing : List Resource) (children : List ChildSpec) : Db :=
  let orphaned := fun r : Resource => r.frozen && r.frozenUntil ≠ some .infinity
  let reAdopt := (existing.filter fun e =>
    orphaned e && children.any fun c => e.ref = c.ref).map (·.id)
  updateResources db (fun r => r.id ∈ reAdopt && orphaned r)
    (fun r => { r with frozenUntil := none, updatedAt := db.now }) (thawed_key db)

/-! ## Edges -/

/-- `refToID`, read off the state `db` the upsert left: an emitted child, listed or
just inserted.  The prune that follows may remove such a row; its id stays. -/
def refToId (db : Db) (parent : Uuid) (children : List ChildSpec) (ref : ResourceRef) : Option Uuid :=
  if children.any fun c => c.ref = ref then
    ((db.resources.lookup Resource.ref ref).filter fun r => r.ownerId = some parent).map (·.id)
  else none

/-- The edges as ids; `none` when a reference does not resolve or an edge is a loop. -/
def resolveEdges (refToId : ResourceRef → Option Uuid) (edges : List DepEdge) : Option (List ResourceDep) :=
  edges.mapM fun e =>
    (refToId e.dependent).bind fun dependent =>
      (refToId e.dependency).bind fun dependency =>
        if dependent = dependency then none else some ⟨dependent, dependency, e.values, 0⟩

/-- The state of the depth-first search: the recursion stack, top first, and the
explored nodes. -/
structure DepSearch where
  stack : List Uuid
  black : List Uuid

/-- `visit` of `detectDepCycle`; an error is the cycle found. -/
def visitDep (adj : Uuid → List Uuid) : Nat → Uuid → DepSearch → Except (List Uuid) DepSearch
  | 0, _, s => .ok s
  | fuel + 1, n, s => do
      let s ← (adj n).foldlM (fun s m =>
        if m ∈ s.stack then
          .error (m :: (s.stack.takeWhile (· ≠ m)).reverse ++ [m])
        else if m ∈ s.black then .ok s
        else visitDep adj fuel m s) { s with stack := n :: s.stack }
      return { stack := s.stack.tail, black := n :: s.black }

/-- `detectDepCycle` on a set of edges, dependent to dependency. -/
def detectDepCycle (edges : List (Uuid × Uuid)) : Option (List Uuid) :=
  let adj := fun n => (edges.filter fun e => e.1 = n).map Prod.snd
  let search := (edges.map Prod.fst).dedup.foldlM (fun s n =>
    if n ∈ s.black then .ok s else visitDep adj (2 * edges.length + 1) n s)
    (⟨[], []⟩ : DepSearch)
  match search with
  | .error cycle => some cycle
  | .ok _ => none

def ResourceDep.ends (d : ResourceDep) : Uuid × Uuid := (d.dependentId, d.dependencyId)

/-- `ListExistingDepsByOwner`: edges whose dependent is a child of `parent`. -/
def depsByOwner (db : Db) (parent : Uuid) (d : ResourceDep) : Bool :=
  (db.resource? d.dependentId).any fun r => r.ownerId = some parent

/-- `DeleteResourceDeps` of the edges no longer emitted. -/
def pruneDeps (db : Db) (parent : Uuid) (produced : List ResourceDep) : Db :=
  { db with
    deps := db.deps.deleteWhere fun d =>
      depsByOwner db parent d && d.ends ∉ produced.map (·.ends) }

/-- The emitted edges that are new or carry other flows. -/
def depDecls (db : Db) (parent : Uuid) (produced : List ResourceDep) : List ResourceDep :=
  produced.filter fun p => !(db.deps.rows.any fun d =>
    depsByOwner db parent d && d.ends = p.ends && d.valueFlows = p.valueFlows)

/-- `BatchUpsertResourceDeps`; the statement fails when it would write a pair twice. -/
def batchUpsertDeps (db : Db) (decls : List ResourceDep) : Option Db :=
  if (decls.map (·.ends)).Nodup then
    some { db with
      deps := decls.foldl (fun t p =>
        (t.updateWhere (fun d => d.ends = p.ends)
          (fun d => { d with valueFlows := p.valueFlows }) (fun _ => rfl)).insertNew p) db.deps }
  else none

/-- The edge part of the compose. -/
def applyEdges (db : Db) (parent : Uuid) (produced : List ResourceDep) : Option Db :=
  if (detectDepCycle (produced.map (·.ends)).dedup).isSome then none
  else batchUpsertDeps (pruneDeps db parent produced) (depDecls db parent produced)

/-! ## Provider configs -/

/-- The first pass over emitted configs: names taken, the default claimed for each
kind and version, and the configs as they will be stored. -/
structure ConfigPass where
  produced : List String
  claimed : List ((String × Nat) × String)
  decls : List ProviderConfigSpec

/-- The name that holds the default of a kind: claimed in this pass, or stored. -/
def defaultHolder (db : Db) (s : ConfigPass) (kind : String) (version : Nat) : Option String :=
  ((s.claimed.find? fun c => c.1 = (kind, version)).map Prod.snd).or ((db.providerconfigs.rows.find? fun c =>
      c.kind = kind && c.kindVersion = version && c.isDefault).map (·.name))

/-- A second default of a kind is stored as a custom config. -/
def passConfig (db : Db) (s : ConfigPass) (c : ProviderConfigSpec) : Option ConfigPass :=
  if c.name = "" ∨ c.name ∈ s.produced ∨ c.kindVersion < 1 then none
  else
    let lost := c.isDefault && (defaultHolder db s c.kind c.kindVersion).any (· ≠ c.name)
    let c := { c with isDefault := c.isDefault && !lost }
    some
      { produced := c.name :: s.produced
        claimed := if c.isDefault then ((c.kind, c.kindVersion), c.name) :: s.claimed else s.claimed
        decls := s.decls ++ [c] }

/-- An owned config that already is what the output says. -/
def configUnchanged (db : Db) (owner : Uuid) (c : ProviderConfigSpec) : Bool :=
  db.providerconfigs.rows.any fun e =>
    e.ownerId = some owner && e.name = c.name && e.kind = c.kind && e.kindVersion = c.kindVersion
      && e.isDefault = c.isDefault && specsMatchIgnoringFlowed e.spec c.spec []

/-- `BatchUpsertProviderConfigsSQL` for one config: another owner's row is skipped. -/
def upsertOwnedConfig (owner : Uuid) (db : Db) (c : ProviderConfigSpec) : Option Db :=
  match db.providerconfigs.lookup (·.name) c.name with
  | none =>
    (db.providerconfigs.insert? ⟨Postgres.randomUuid db.drawn, c.name, c.kind, c.kindVersion,
      c.isDefault, c.spec, [], some owner⟩).map fun t =>
        { db with providerconfigs := t, drawn := db.drawn + 1 }
  | some e =>
    if e.ownerId = some owner then
      (db.providerconfigs.tryUpdateWhere (·.name = c.name) fun e => { e with
        kind := c.kind
        kindVersion := c.kindVersion
        isDefault := c.isDefault
        spec := c.spec }).map fun t => { db with providerconfigs := t }
    else some db

def applyComposedConfigs (db : Db) (owner : Uuid) (configs : List ProviderConfigSpec) : Option Db :=
  (configs.foldlM (passConfig db) ⟨[], [], []⟩).bind fun pass =>
    ((pass.decls.filter fun c => !configUnchanged db owner c).foldlM
      (upsertOwnedConfig owner) db).map fun upserted =>
        let stale := (db.providerconfigs.rows.filter fun e =>
          e.ownerId = some owner && e.name ∉ pass.produced).map (·.id)
        deleteConfigs upserted fun e => e.id ∈ stale

/-! ## The transaction -/

/-- The queue row still carries the claim of the composing task. -/
def claimHeld (t : WorkTask) (q : WorkQueueRow) : Bool :=
  q.id = t.id && q.claimEpoch = t.claimEpoch && q.generation = t.generation
    && (t.manifestVersion = 0 || q.manifestVersion = 0 || q.manifestVersion = t.manifestVersion)

/-- `StampComposedGen`; `none` is `ErrComposeClaimLost`. -/
def stampComposedGen (db : Db) (t : WorkTask) : Option Db :=
  if (db.resource? t.resourceId).isSome && db.workQueue.rows.any (claimHeld t) then
    some (updateResources db (·.id = t.resourceId)
      (fun r => { r with composedGen := t.generation }) (fun _ => rfl))
  else none

/-- `ArmScheduleRecheck` of the rows the compose wrote. -/
def armScheduleRecheck (db : Db) (ids : List Uuid) : Db :=
  { db with scheduleRecheck := ids.foldl (fun t id => t.insertNew ⟨id⟩) db.scheduleRecheck }

/-- The dependents that emitted edges fill. -/
def flowingDependents (produced : List ResourceDep) : List Uuid :=
  ((produced.filter fun d => !d.valueFlows.isEmpty).map (·.dependentId)).dedup

/-- The rows this compose wrote: inserted or updated children, and dependents that
edges fill. -/
def composeCandidates (refToId : ResourceRef → Option Uuid) (existing : List Resource)
    (out : ComposeOutput) (produced : List ResourceDep) : List Uuid :=
  let inserted := (newChildren existing out.children).filterMap fun c => refToId c.ref
  let updated := (changedChildren existing out).map fun d => d.1.id
  (inserted ++ updated ++ flowingDependents produced).dedup

/-- Prune and re-adoption. -/
def composeChildren (db : Db) (env : ComposeEnv) (pol : ComposePolicy) (existing : List Resource)
    (out : ComposeOutput) : Db :=
  clearOrphanMarks (pruneChildren db env.scans pol (dropped existing out)) existing out.children

/-- The body of `ApplyComposeResult`, before the stamp. -/
def composeBody (db : Db) (env : ComposeEnv) (t : WorkTask) (out : ComposeOutput)
    (pol : ComposePolicy) : Option (Db × List Uuid) :=
  (db.resource? t.resourceId).bind fun parent =>
    if out.children.any fun c => c.kindVersion < 1 then none
    else
      let existing := shuffle env.childOrder (existingChildren db parent.id)
      (batchUpsertChildren db parent.id (parent.rootId.getD parent.id) existing out).bind fun upserted =>
          let refToId := refToId upserted parent.id out.children
          (resolveEdges refToId out.edges).bind fun produced =>
            (applyEdges (composeChildren upserted env pol existing out) parent.id produced).bind fun wired =>
                (applyValueFlowsForDependents wired env.flowOrder
                    (flowingDependents produced)).bind fun flowed =>
                  (applyComposedConfigs flowed parent.id out.configs).map
                    (·, composeCandidates refToId existing out produced)

/-- The compose transaction of the reconcile engine: body, stamp, deferred schedule.
`none` is a rollback. -/
def applyComposeResult (db : Db) (env : ComposeEnv) (t : WorkTask) (out : ComposeOutput)
    (pol : ComposePolicy) : Option Db :=
  (composeBody db env t out pol).bind fun (db, candidates) =>
    (stampComposedGen db t).map fun db => armScheduleRecheck db candidates

end Converge.Kernel
