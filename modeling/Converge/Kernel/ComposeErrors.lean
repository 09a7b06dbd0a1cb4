/-
# Kernel.ComposeErrors -- why a compose is refused

`applyComposeResult` says what a compose leaves in the database and nothing about a
refusal.  `composeTx` is the same transaction with its errors, in the order the source
meets them.  Four of its checks find a bug of the composer, which no retry mends, and
mark their error terminal: the version of a child, the schema of a child, an edge from a
child to itself, and a cycle of edges.  All other errors are plain.

`composeTx_toOption` connects the two: while every child fits its schema, they accept the
same outputs and leave the same database.
-/
import Converge.Kernel.Reactions

namespace Converge.Kernel

open Converge.Theory List Option

set_option autoImplicit false
set_option linter.unusedSectionVars false

/-- `ValidateSpecPartial`: the error of a child whose spec violates the schema of its kind,
the fields that flows fill apart. -/
abbrev SpecValidator := ChildSpec → List String → Option GoError

def ResourceRef.text (ref : ResourceRef) : String := ref.kind ++ "/" ++ ref.name

/-- An error of the database is wrapped with what was attempted; `pg` is its text. -/
def explained {α : Type} (what pg : String) : Option α → Except GoError α
  | some a => .ok a
  | none => .error (.errorf what (.new pg))

def topLevelFields (paths : List (List String)) : List String :=
  (paths.filterMap fun path => match path with
    | [field] => some field
    | _ => none).eraseDups

/-- The checks of one emitted child. -/
def checkChild (validate : SpecValidator) (edges : List DepEdge) (c : ChildSpec) : Except GoError Unit :=
  if c.kindVersion < 1 then
    .error (.terminal (.new ("composed child " ++ c.ref.text ++
      ": kind_version is required and must be >= 1 (got " ++ toString c.kindVersion ++ ")")))
  else
    match validate c (topLevelFields (flowedPaths edges c.ref)) with
    | none => .ok ()
    | some verr =>
      .error (.terminal (.join (Sentinel.invalidSpec.text ++ ": composed child " ++ c.ref.text ++
        ": " ++ verr.message) (.sentinel .invalidSpec) verr))

def unresolved (which : String) (ref : ResourceRef) : GoError :=
  .new ("compose edge " ++ which ++ " " ++ ref.text ++ " does not resolve to a composed child " ++
    "(name collision across owners, or edge to an un-emitted child?)")

/-- One edge, both ends resolved. -/
def resolveEdge (refToId : ResourceRef → Option Uuid) (e : DepEdge) : Except GoError ResourceDep :=
  match refToId e.dependent with
  | none => .error (unresolved "dependent" e.dependent)
  | some dependent =>
    match refToId e.dependency with
    | none => .error (unresolved "dependency" e.dependency)
    | some dependency =>
      if dependent = dependency then
        .error (.terminal (.new ("compose edge " ++ e.dependent.text ++ " → " ++
          e.dependency.text ++ " is a self-edge (a resource cannot depend on itself)")))
      else .ok ⟨dependent, dependency, e.values, 0⟩

def formatCycle (refOf : Uuid → Option ResourceRef) (cycle : List Uuid) : String :=
  " → ".intercalate (cycle.map fun id => ((refOf id).map ResourceRef.text).getD (toString id))

def checkCycle (refOf : Uuid → Option ResourceRef) (produced : List ResourceDep) : Except GoError Unit :=
  match detectDepCycle (produced.map (·.ends)).dedup with
  | none => .ok ()
  | some cycle =>
    .error (.terminal (.new ("compose produced a dependency cycle: " ++ formatCycle refOf cycle)))

/-- The edges are checked for a cycle, pruned and upserted. -/
def wireEdges (pg : String) (refOf : Uuid → Option ResourceRef) (db : Db) (parent : Uuid)
    (produced : List ResourceDep) : Except GoError Db :=
  (checkCycle refOf produced).bind fun _ =>
    explained "upsert deps" pg (batchUpsertDeps (pruneDeps db parent produced) (depDecls db parent produced))

/-- The checks of one emitted config; they are plain errors. -/
def checkConfig (pg : String) (db : Db) (s : ConfigPass) (c : ProviderConfigSpec) : Except GoError ConfigPass :=
  if c.name = "" then
    .error (.new ("composed provider config has empty name (kind " ++ c.kind.quote ++ ")"))
  else if c.name ∈ s.produced then
    .error (.new ("composer emitted duplicate provider config name " ++ c.name.quote))
  else if c.kindVersion < 1 then
    .error (.new ("composed provider config " ++ c.name.quote ++ " for " ++ c.kind ++
      ": kind_version is required and must be >= 1 (got " ++ toString c.kindVersion ++ ")"))
  else explained ("check existing default for " ++ c.kind.quote ++ "/v" ++ toString c.kindVersion) pg
    (passConfig db s c)

section Transaction

variable [Postgres]

def applyConfigs (pg : String) (db : Db) (owner : Uuid) (configs : List ProviderConfigSpec) :
    Except GoError Db :=
  (configs.foldlM (checkConfig pg db) ⟨[], [], []⟩).bind fun _ =>
    explained "upsert composed configs" pg (applyComposedConfigs db owner configs)

/-- The stamp, or the error the engine drops the task on. -/
def stampOrLost (db : Db) (t : WorkTask) : Except GoError Db :=
  match stampComposedGen db t with
  | some db => .ok db
  | none =>
    .error (.wrap (Sentinel.composeClaimLost.text ++ ": compose claim lost mid-flight (work_id=" ++
      toString t.id ++ " gen=" ++ toString t.generation ++ ") — rolling back compose")
      (.sentinel .composeClaimLost))

/-- `ApplyComposeResult` with its errors: the database and the candidates, or why not. -/
def composeTx (validate : SpecValidator) (pg : String) (db : Db) (env : ComposeEnv) (t : WorkTask)
    (out : ComposeOutput) (pol : ComposePolicy) : Except GoError (Db × List Uuid) :=
  (explained "load parent root_id" pg (db.resource? t.resourceId)).bind fun parent =>
    (out.children.forM (checkChild validate out.edges)).bind fun _ =>
      let existing := shuffle env.childOrder (existingChildren db parent.id)
      (explained "batch upsert children" pg
        (batchUpsertChildren db parent.id (parent.rootId.getD parent.id) existing out)).bind
        fun upserted =>
          let refToId := refToId upserted parent.id out.children
          let refOf := fun id => (out.children.find? fun c => refToId c.ref = some id).map (·.ref)
          (out.edges.mapM (resolveEdge refToId)).bind fun produced =>
            (wireEdges pg refOf (composeChildren upserted env pol existing out) parent.id
              produced).bind fun wired =>
              (explained "apply value flows for dependents" pg (applyValueFlowsForDependents wired env.flowOrder
                  (flowingDependents produced))).bind fun flowed =>
                (applyConfigs pg flowed parent.id out.configs).bind fun db =>
                  (stampOrLost db t).map (·, composeCandidates refToId existing out produced)

end Transaction

/-! ## The same transaction -/

section ToOption

variable {α β : Type}

theorem toOption_bind (x : Except GoError α) (f : α → Except GoError β) :
    (x.bind f).toOption = x.toOption.bind fun a => (f a).toOption := by
  cases x <;> rfl

theorem toOption_map (x : Except GoError α) (f : α → β) : (x.map f).toOption = x.toOption.map f := by
  cases x <;> rfl

theorem explained_toOption (what pg : String) (o : Option α) : (explained what pg o).toOption = o := by
  cases o <;> rfl

theorem mapM_toOption {f : α → Except GoError β} {g : α → Option β}
    (each : ∀ a, (f a).toOption = g a) (l : List α) : (l.mapM f).toOption = l.mapM g := by
  induction l with
  | nil => rfl
  | cons a rest ih =>
    rw [mapM_cons, mapM_cons, ← each a, ← ih]
    cases f a with
    | error e => rfl
    | ok b => cases rest.mapM f <;> rfl

theorem foldlM_toOption {σ : Type} {f : σ → α → Except GoError σ} {g : σ → α → Option σ}
    (each : ∀ s a, (f s a).toOption = g s a) (l : List α) (s : σ) : (l.foldlM f s).toOption = l.foldlM g s := by
  induction l generalizing s with
  | nil => rfl
  | cons a rest ih =>
    rw [foldlM_cons, foldlM_cons, ← each s a]
    cases f s a with
    | error e => rfl
    | ok s' => exact ih s'

end ToOption

section Same

variable [Postgres] {validate : SpecValidator} {pg : String} {db : Db} {env : ComposeEnv}
  {t : WorkTask} {out : ComposeOutput} {pol : ComposePolicy}

theorem checkChildren_toOption {edges : List DepEdge} {children : List ChildSpec}
    (fits : ∀ c ∈ children, ∀ skipped, validate c skipped = none) :
    (children.forM (checkChild validate edges)).toOption =
      if children.any fun c => c.kindVersion < 1 then none else some () := by
  induction children with
  | nil => rfl
  | cons c rest ih =>
    have later := ih fun c' listed => fits c' (.tail _ listed)
    change ((checkChild validate edges c).bind fun _ =>
      rest.forM (checkChild validate edges)).toOption = _
    rw [toOption_bind, later, any_cons, checkChild]
    by_cases old : c.kindVersion < 1
    · rw [if_pos old, decide_eq_true old, Bool.true_or]
      rfl
    · rw [if_neg old, decide_eq_false old, fits c (.head _)]
      rfl

theorem resolveEdges_toOption (refToId : ResourceRef → Option Uuid) (edges : List DepEdge) :
    (edges.mapM (resolveEdge refToId)).toOption = resolveEdges refToId edges := by
  refine mapM_toOption (fun e => ?_) edges
  unfold resolveEdge
  cases refToId e.dependent with
  | none => rfl
  | some dependent =>
    cases refToId e.dependency with
    | none => rfl
    | some dependency =>
      simp only [bind_some]
      split <;> rfl

theorem applyConfigs_toOption (owner : Uuid) (configs : List ProviderConfigSpec) :
    (applyConfigs pg db owner configs).toOption = applyComposedConfigs db owner configs := by
  have pass : (configs.foldlM (checkConfig pg db) ⟨[], [], []⟩).toOption =
      configs.foldlM (passConfig db) ⟨[], [], []⟩ := by
    refine foldlM_toOption (fun s c => ?_) _ _
    unfold checkConfig
    split
    · rename_i empty
      rw [passConfig, if_pos (.inl empty)]
      rfl
    · split
      · rename_i twice
        rw [passConfig, if_pos (.inr (.inl twice))]
        rfl
      · split
        · rename_i old
          rw [passConfig, if_pos (.inr (.inr old))]
          rfl
        · exact explained_toOption ..
  rw [applyConfigs, toOption_bind, pass]
  simp only [explained_toOption]
  unfold applyComposedConfigs
  cases configs.foldlM (passConfig db) ⟨[], [], []⟩ <;> rfl

theorem wireEdges_toOption {parent : Uuid} {produced : List ResourceDep} {refOf : Uuid → Option ResourceRef} :
    (wireEdges pg refOf db parent produced).toOption = applyEdges db parent produced := by
  unfold wireEdges checkCycle applyEdges
  cases detectDepCycle (produced.map (·.ends)).dedup with
  | none => exact explained_toOption ..
  | some cycle => rfl

theorem stampOrLost_toOption : (stampOrLost db t).toOption = stampComposedGen db t := by
  unfold stampOrLost
  cases stampComposedGen db t <;> rfl

/-- **Forgetting the errors gives the transaction of the model**, as long as every child
fits its schema. -/
theorem composeTx_toOption (fits : ∀ c ∈ out.children, ∀ skipped, validate c skipped = none) :
    ((composeTx validate pg db env t out pol).toOption.map fun (db, candidates) =>
      armScheduleRecheck db candidates) = applyComposeResult db env t out pol := by
  simp only [composeTx, applyComposeResult, composeBody, toOption_bind, toOption_map,
    explained_toOption, checkChildren_toOption fits, resolveEdges_toOption, applyConfigs_toOption,
    stampOrLost_toOption, wireEdges_toOption]
  cases db.resource? t.resourceId with
  | none => rfl
  | some parent =>
    split
    · rfl
    · simp only [Option.bind_some, Option.map_bind, Option.bind_assoc, Option.bind_map,
        Option.map_map, Function.comp_def]

end Same

end Converge.Kernel
