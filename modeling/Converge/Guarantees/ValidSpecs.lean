/-
# Guarantees.ValidSpecs -- what a validator at the gateway guarantees

Specs are checked where they come in: an apply against the schema of the version it names, a
flip against that of its target.  The row is elsewhere.  An apply to a row that exists leaves
the row at its own version, a flip trusts its caller for the kind, and a rollback copies a
spec of any age, from before a flip as well, and checks nothing.

`specs_valid` is exact: in the states of a run every root is valid for its own kind and
version if and only if every spec that a request writes fits the row it is written to.  All
other actions of the store write specs of children only (`step_rootKept`).

`specs_outgrown` has an apply at another version and a rollback across a flip.
-/
import Converge.Kernel.Flows

namespace Converge.Kernel

open Converge.Theory List Table Option

set_option autoImplicit false
set_option linter.unusedSectionVars false

variable {args : ApplySpec} {order : Nat → Nat} {own : Uuid → Option Uuid}

/-- `ValidateSpec` with the published schemas fixed. -/
abbrev Validator := String → Nat → Json → Bool

/-- Not one of the three that write the specs of roots. -/
def Action.Elsewhere : Action → Prop
  | .applySpec _ | .flipResourceKindVersion _ _ _ _ | .rollbackToSpec _ _ => False
  | _ => True

/-- What reaches the store.  A flip names the kind its caller takes the row for. -/
inductive Request where
  | apply (args : ApplySpec)
  | flip (kind : String) (id : Uuid) (oldVersion newVersion : Nat) (newSpec : Json)
  | rollback (id : Uuid) (targetGen : Nat)
  | other (a : Action) (elsewhere : a.Elsewhere)

section Gateway

variable [Postgres] (valid : Validator)

/-- A request is refused, or is an action of the store. -/
def served (db : Db) : Request → Db
  | .apply args =>
    if valid args.kind args.kindVersion args.spec then step db (.applySpec args) else db
  | .flip kind id old new spec =>
    if valid kind new spec then step db (.flipResourceKindVersion id old new spec) else db
  | .rollback id gen => step db (.rollbackToSpec id gen)
  | .other a _ => step db a

/-- The live spec of every root is valid for the kind and version of its row. -/
def SpecsValid (db : Db) : Prop :=
  ∀ r ∈ db.resources, r.ownerId = none → valid r.kind r.kindVersion r.spec = true

/-- What the request writes to a root is valid for that row. -/
def FitsRow (db : Db) : Request → Prop
  | .apply args =>
    valid args.kind args.kindVersion args.spec = true → (applySpec db args).isSome = true →
      ∀ prev ∈ db.resources.rows, prev.ownerId = none → (prev.kind, prev.name) = (args.kind, args.name) →
          valid prev.kind prev.kindVersion args.spec = true
  | .flip kind id old new spec =>
    valid kind new spec = true → new ≠ 0 → ∀ r ∈ db.resources.rows, r.ownerId = none →
      flippable id old r = true → valid r.kind new spec = true
  | .rollback id gen =>
    ∀ v ∈ db.specVersions.rows, v.resourceId = id → v.generation = gen →
      ∀ r ∈ db.resources.rows, r.ownerId = none → r.id = id → valid r.kind r.kindVersion v.spec = true
  | .other _ _ => True

instance (db : Db) (q : Request) : Decidable (FitsRow valid db q) := by
  cases q <;> dsimp only [FitsRow] <;> infer_instance

end Gateway

/-! ## Roots that stay as they are -/

section Kept

variable [Postgres] {db db' : Db}

/-- Every root was there, with its kind, version and spec. -/
def RootKept (db db' : Db) : Prop :=
  ∀ r' ∈ db'.resources, r'.ownerId = none → ∃ r ∈ db.resources, r.ownerId = none ∧
    r'.kind = r.kind ∧ r'.kindVersion = r.kindVersion ∧ r'.spec = r.spec

namespace RootKept

theorem of_eq (same : db'.resources = db.resources) : RootKept db db' :=
  fun r' after top => ⟨r', same ▸ after, top, rfl, rfl, rfl⟩

theorem trans {a b c : Db} (first : RootKept a b) (second : RootKept b c) : RootKept a c := by
  intro r'' after top
  obtain ⟨r', here', top', kind', version', spec'⟩ := second r'' after top
  obtain ⟨r, here, top, kind, version, spec⟩ := first r' here' top'
  exact ⟨r, here, top, kind'.trans kind, version'.trans version, spec'.trans spec⟩

theorem of_content (follows : Follows SameContent db db') : RootKept db db' := by
  intro r' after top
  obtain ⟨r, here, same⟩ := follows r' after
  exact ⟨r, here, same.ownerId.symm.trans top, same.kind, same.kindVersion, same.spec⟩

theorem of_idles (follows : Follows Idles db db') : RootKept db db' := by
  intro r' after top
  obtain ⟨r, here, same⟩ := follows r' after
  exact ⟨r, here, same.ownerId.symm.trans top, same.kind, same.kindVersion, same.spec⟩

end RootKept

theorem updateResources_rootKept {p : Resource → Bool} {f : Resource → Resource}
    {keeps : ∀ r, Keyed.key (f r) = Keyed.key r}
    (same : ∀ r ∈ db.resources, p r = true → (f r).ownerId = r.ownerId ∧
      (r.ownerId = none → (f r).kindVersion = r.kindVersion ∧ (f r).spec = r.spec)) :
    RootKept db (updateResources db p f keeps) := by
  intro r' after top
  obtain ⟨r, here, rfl⟩ := mem_updateResources.mp after
  refine ⟨r, here, ?_⟩
  have kind : (f r).kind = r.kind := congrArg (·.2.1) (keeps r)
  split at top <;> rename_i chosen
  · obtain ⟨owner, rest⟩ := same r here chosen
    have top : r.ownerId = none := owner.symm.trans top
    rw [if_pos chosen]
    exact ⟨top, kind, rest top⟩
  · rw [if_neg chosen]
    exact ⟨top, rfl, rfl, rfl⟩

/-- Value flows fill the specs of dependents, and a dependent has an owner. -/
theorem patchSpecs_rootKept {patches : List FlowPatch}
    (lineage : Lineage db own) (fed : ∀ p ∈ patches, ∃ d ∈ db.deps, d.dependentId = p.dependentId)
    (done : patchSpecs db patches = some db') : RootKept db db' := by
  unfold patchSpecs at done
  simp only at done
  split at done
  · cases done
    refine updateResources_rootKept fun r here patched => ⟨rfl, fun top => ?_⟩
    obtain ⟨patch, listed⟩ := exists_mem_of_ne_nil (patchesFor patches r.id) (by simpa using patched)
    obtain ⟨p, mine, -⟩ := mem_map.mp listed
    obtain ⟨listed, same⟩ := mem_filter.mp mine
    obtain ⟨d, edge, dependent⟩ := fed p listed
    obtain ⟨owner, owned, -⟩ := lineage.edges d edge
    rw [dependent, of_decide_eq_true same, ← lineage.rows r here, top] at owned
    cases owned
  · cases done

theorem applyValueFlows_rootKept {ids : List Uuid} (lineage : Lineage db own)
    (done : applyValueFlowsForDependents db order ids = some db') : RootKept db db' := by
  refine patchSpecs_rootKept lineage (fun p listed => ?_) done
  obtain ⟨d, edge, -, _, -, -, -, status, -, flow, -, yields⟩ :=
    mem_flowCandidates.mp (mem_filter.mp (mem_shuffle.mp listed)).1
  exact ⟨d, edge, (flowPatch_dependent yields).symm⟩

theorem substitute_rootKept {results : List OutboxRow}
    (lineage : Lineage db own) (done : substitute db order results = some db') : RootKept db db' := by
  refine patchSpecs_rootKept lineage (fun p listed => ?_) done
  have listed := (mem_filter.mp (mem_shuffle.mp listed)).1
  obtain ⟨src, -, listed⟩ := mem_flatMap.mp listed
  obtain ⟨d, chosen, yields⟩ := mem_flatMap.mp listed
  obtain ⟨flow, -, patch⟩ := mem_filterMap.mp yields
  exact ⟨d, (mem_filter.mp chosen).1, (flowPatch_dependent patch).symm⟩

theorem drainOutboxBatch_rootKept {scan rowScan : Scan Uuid} {n : Nat} {range : ShardRange}
    (named : Named db) (lineage : Lineage db own)
    (done : drainOutboxBatch db scan rowScan order n range = some db') : RootKept db db' := by
  simp only [drainOutboxBatch] at done
  split at done
  · cases done
    exact .of_eq rfl
  · obtain ⟨flowed, flows, rest⟩ := bind_eq_some_iff.mp done
    obtain ⟨s, -, rfl⟩ := map_eq_some_iff.mp rest
    have torn : Effects Label.Rooted db (drainTeardowns db rowScan (popped db scan n range)) :=
      (taken_effects trivial trivial popped_waiting popped_nodup).trans
        (tornDown_effects (fun _ h => h.rooted) trivial rowScan)
    have kept : RootKept db (drainTeardowns db rowScan (popped db scan n range)) :=
      .of_content (drainTeardowns_follows _ _ _).content
    obtain ⟨own', after, -⟩ := torn.lineage (fun h => h) named lineage
    refine kept.trans ((substitute_rootKept after flows).trans ?_)
    refine RootKept.trans (b := applyResults flowed (popped db scan n range)) ?_ (.of_eq rfl)
    refine updateResources_rootKept fun r _ _ => ?_
    cases resultFor (popped db scan n range) r with
    | none | some o => exact ⟨rfl, fun _ => ⟨rfl, rfl⟩⟩

/-! ### The compose -/

theorem batchUpsertChildren_rootKept {parent root : Uuid} {out : ComposeOutput}
    {existing : List Resource} (children : ∀ e ∈ existing, e ∈ db.resources ∧ e.ownerId = some parent)
    (done : batchUpsertChildren db parent root existing out = some db') : RootKept db db' := by
  obtain ⟨inserted, insert, rfl⟩ := map_eq_some_iff.mp done
  have born : RootKept db inserted := by
    intro r' after top
    rcases insertChildren_mem insert after with old | ⟨_, _, row⟩
    · exact ⟨r', old, top, rfl, rfl, rfl⟩
    · exact nomatch top.symm.trans row.ownerId
  refine born.trans fun r' after top => ?_
  obtain ⟨r, here, row⟩ := mem_updateChildren after
  have top : r.ownerId = none := row.ownerId.symm.trans top
  -- what is declared is a child
  have undeclared : declFor (changedChildren existing out) r = none := by
    cases declared : declFor (changedChildren existing out) r with
    | none => rfl
    | some c =>
      obtain ⟨⟨e, c'⟩, found, -⟩ := map_eq_some_iff.mp declared
      have chosen := find?_some found
      have same : e.id = r.id := of_decide_eq_true chosen
      obtain ⟨c, -, picked⟩ := mem_filterMap.mp (mem_of_find?_eq_some found)
      obtain ⟨e', filtered, pair⟩ := map_eq_some_iff.mp picked
      cases pair
      obtain ⟨stored, owned⟩ := children e (mem_of_find?_eq_some (filter_eq_some_iff.mp filtered).1)
      have same' := eq_of_pk resource_primary (insertChildren_keeps insert stored) here same
      rw [same', top] at owned
      cases owned
  refine ⟨r, here, top, row.kind, ?_, row.spec undeclared⟩
  rw [row.kindVersion, undeclared]
  split <;> rfl

section Stages

variable {env : ComposeEnv} {t : WorkTask} {out : ComposeOutput} {pol : ComposePolicy}
  {parent : Resource} {upserted wired : Db} {produced : List ResourceDep}

theorem ComposeStages.rootKept (stages : ComposeStages db env t out pol parent upserted produced wired) :
    RootKept db wired := by
  have inserted : RootKept db upserted := by
    refine batchUpsertChildren_rootKept (fun e listed => ?_) stages.upsert
    obtain ⟨here, owned⟩ := mem_filter.mp (mem_shuffle.mp listed)
    exact ⟨here, of_decide_eq_true owned⟩
  refine inserted.trans (.trans ?_ (.of_eq (applyEdges_resources stages.wire)))
  exact .of_content (composeChildren_follows _ _ _ _ _)

theorem applyComposeResult_rootKept (named : Named db) (lineage : Lineage db own) (claimed : t ∈ db.tasks)
    (done : applyComposeResult db env t out pol = some db') : RootKept db db' := by
  obtain ⟨parent, upserted, produced, wired, flowed, stages, flows, ⟨rest, -⟩, -⟩ :=
    applyComposeResult_flows claimed done
  obtain ⟨own', ⟨-, after⟩, -, -⟩ := stages.lineage named lineage
  exact stages.rootKept.trans ((applyValueFlows_rootKept after flows).trans (.of_content rest.content))

end Stages

/-- **Only applies, flips and rollbacks write the specs of roots.** -/
theorem step_rootKept (reachable : Reachable db) {a : Action} (elsewhere : a.Elsewhere) :
    RootKept db (step db a) := by
  have named := reachable.named
  obtain ⟨own, lineage⟩ := reachable.lineage
  cases a with
  | applySpec _ | flipResourceKindVersion _ _ _ _ | rollbackToSpec _ _ => exact elsewhere.elim
  | unquarantineResource id =>
    simp only [step, unquarantineResource]
    split
    · refine RootKept.trans ?_ (.of_eq (scheduleEligible_only _ _).resources)
      exact updateResources_rootKept fun _ _ _ => ⟨rfl, fun _ => ⟨rfl, rfl⟩⟩
    · exact .of_eq rfl
  | applyComposeResult env t out pol =>
    exact submitCompose_cases (.of_eq rfl) fun _ => applyComposeResult_rootKept named lineage
  | applyValueFlowsForDependents order ids =>
    exact getD_cases (.of_eq rfl) fun _ => applyValueFlows_rootKept lineage
  | drainOutboxBatch scan rowScan order n range =>
    exact getD_cases (.of_eq rfl) fun _ => drainOutboxBatch_rootKept named lineage
  | _ => exact .of_idles (step_idles db trivial)

end Kept

/-! ## Requests -/

section Requests

variable [Postgres] {valid : Validator} {db db' : Db} {config : Option Uuid}

theorem SpecsValid.congr (same : db'.resources = db.resources) :
    SpecsValid valid db' ↔ SpecsValid valid db := by
  rw [SpecsValid, same, SpecsValid]

theorem SpecsValid.kept (ok : SpecsValid valid db) (kept : RootKept db db') : SpecsValid valid db' := by
  intro r' after top
  obtain ⟨r, here, top, kind, version, spec⟩ := kept r' after top
  rw [kind, version, spec]
  exact ok r here top

/-- After an UPDATE of a valid store, the rows that were written decide. -/
theorem updateResources_valid {p : Resource → Bool} {f : Resource → Resource}
    {keeps : ∀ r, Keyed.key (f r) = Keyed.key r} (owner : ∀ r, (f r).ownerId = r.ownerId)
    (ok : SpecsValid valid db) :
    SpecsValid valid (updateResources db p f keeps) ↔ ∀ r ∈ db.resources, r.ownerId = none →
      p r = true → valid r.kind (f r).kindVersion (f r).spec = true := by
  have kind (r : Resource) : (f r).kind = r.kind := congrArg (·.2.1) (keeps r)
  constructor
  · intro after r here top chosen
    have written := after (f r) (mem_updateResources.mpr ⟨r, here, by rw [if_pos chosen]⟩) ((owner r).trans top)
    rwa [kind] at written
  · intro writes r' after top
    obtain ⟨r, here, rfl⟩ := mem_updateResources.mp after
    split at top <;> rename_i chosen
    · rw [if_pos chosen, kind]
      exact writes r here ((owner r).symm.trans top) chosen
    · rw [if_neg chosen]
      exact ok r here top

theorem createRoot_valid {r : Resource}
    (checked : valid args.kind args.kindVersion args.spec = true) (ok : SpecsValid valid db)
    (create : createRoot db args config = some (db', r)) : SpecsValid valid db' := by
  obtain ⟨rfl, free, unlogged, rfl⟩ := createRoot_cases create
  intro r' after top
  rcases (mem_push free).mp after with rfl | old
  · exact checked
  · exact ok r' old top

/-- An apply that overwrites `prev` writes its spec at the version of `prev`. -/
theorem overwriteRoot_valid {prev r : Resource} (stored : prev ∈ db.resources)
    (ok : SpecsValid valid db) (write : overwriteRoot db args config prev = some (db', r)) :
    SpecsValid valid db' ↔ (prev.ownerId = none → valid prev.kind prev.kindVersion args.spec = true) := by
  obtain ⟨-, versions, rfl, -⟩ := overwriteRoot_cases write
  have row := overwrittenRow_overwrites db args config prev
  have fits_iff : valid (overwrittenRow db args config prev).kind (overwrittenRow db args config prev).kindVersion
      (overwrittenRow db args config prev).spec = valid prev.kind prev.kindVersion args.spec := by
    rw [row.kind, row.kindVersion, row.spec]
  constructor
  · intro all top
    have written := all _ ((mem_rewriteRoot stored).mpr (.inl rfl)) (row.ownerId.trans top)
    exact fits_iff.symm.trans written
  · intro fits r' after top
    rcases (mem_rewriteRoot stored).mp after with rfl | ⟨old, -⟩
    · exact fits_iff.trans (fits (row.ownerId.symm.trans top))
    · exact ok r' old top

theorem apply_valid (ok : SpecsValid valid db) (checked : valid args.kind args.kindVersion args.spec = true)
    (done : applySpec db args = some db') :
    SpecsValid valid db' ↔ ∀ prev ∈ db.resources.rows, prev.ownerId = none →
      (prev.kind, prev.name) = (args.kind, args.name) → valid prev.kind prev.kindVersion args.spec = true := by
  obtain ⟨config, -, ⟨mid, r, create, missing, rfl⟩ | ⟨prev, found, rest⟩⟩ := applySpec_cases done
  · rw [SpecsValid.congr (created_only mid r).resources]
    refine iff_of_true (createRoot_valid checked ok create) fun prev here _ same => ?_
    exact absurd same (lookup_eq_none.mp missing prev here)
  · obtain ⟨stored, named⟩ := mem_of_lookup found
    have only : (∀ p ∈ db.resources.rows, p.ownerId = none → (p.kind, p.name) = (args.kind, args.name) →
        valid p.kind p.kindVersion args.spec = true) ↔
        (prev.ownerId = none → valid prev.kind prev.kindVersion args.spec = true) := by
      refine ⟨fun all top => all prev stored top named, fun one p here top same => ?_⟩
      obtain rfl := eq_of_pk resource_natural here stored (same.trans named.symm)
      exact one top
    rw [only]
    rcases rest with ⟨⟨same, -, -⟩, rfl⟩ | ⟨-, mid, r, write, rfl⟩
    · exact iff_of_true ok fun top => same ▸ ok prev stored top
    · rw [SpecsValid.congr (created_only mid r).resources]
      exact overwriteRoot_valid stored ok write

theorem flip_valid {id : Uuid} {old new : Nat} {spec : Json} (ok : SpecsValid valid db) :
    SpecsValid valid (step db (.flipResourceKindVersion id old new spec)) ↔
      (new ≠ 0 → ∀ r ∈ db.resources.rows, r.ownerId = none → flippable id old r = true →
        valid r.kind new spec = true) := by
  simp only [step, flipResourceKindVersion]
  split
  · rename_i zero
    exact iff_of_true ok fun served => absurd zero served
  · rename_i served
    split
    · refine (SpecsValid.congr (scheduleEligible_only _ _).resources).trans ?_
      refine Iff.trans (updateResources_valid ?_ ok) ?_
      · exact fun _ => rfl
      · exact ⟨fun writes _ => writes, fun fits => fits served⟩
    · rename_i missed
      refine iff_of_true ok fun _ r here _ chosen => absurd (any_eq_true.mpr ⟨r, here, chosen⟩) missed

theorem rollback_valid {id : Uuid} {gen : Nat} (ok : SpecsValid valid db) :
    SpecsValid valid (rollbackToSpec db id gen) ↔
      ∀ v ∈ db.specVersions.rows, v.resourceId = id → v.generation = gen →
        ∀ r ∈ db.resources.rows, r.ownerId = none → r.id = id → valid r.kind r.kindVersion v.spec = true := by
  unfold rollbackToSpec
  split
  · rename_i missing
    refine iff_of_true ok fun v here resource generation => ?_
    exact absurd (Prod.ext resource generation) (lookup_eq_none.mp missing v here)
  · rename_i target found
    obtain ⟨stored, named⟩ := mem_of_lookup found
    have only : (∀ v ∈ db.specVersions.rows, v.resourceId = id → v.generation = gen →
        ∀ r ∈ db.resources.rows, r.ownerId = none → r.id = id → valid r.kind r.kindVersion v.spec = true) ↔
        ∀ r ∈ db.resources.rows, r.ownerId = none → r.id = id →
          valid r.kind r.kindVersion target.spec = true := by
      refine ⟨fun all => all target stored (congrArg Prod.fst named) (congrArg Prod.snd named),
        fun one v here resource generation => ?_⟩
      obtain rfl := eq_of_pk specVersion_primary here stored
        ((Prod.ext resource generation : (v.resourceId, v.generation) = (id, gen)).trans named.symm)
      exact one
    rw [only]
    -- a row that has the target spec already is valid as it is
    have held (writes : ∀ r ∈ db.resources, r.ownerId = none →
        (decide (r.id = id) && decide (r.spec ≠ target.spec)) = true →
          valid r.kind r.kindVersion target.spec = true) :
        ∀ r ∈ db.resources.rows, r.ownerId = none → r.id = id →
          valid r.kind r.kindVersion target.spec = true := by
      intro r here top same
      by_cases there : r.spec = target.spec
      · exact there ▸ ok r here top
      · exact writes r here top (by rw [decide_eq_true same, decide_eq_true there]; rfl)
    split
    · refine (SpecsValid.congr (scheduleEligible_only _ _).resources).trans ?_
      refine Iff.trans (updateResources_valid ?_ ok) ?_
      · exact fun _ => rfl
      · refine ⟨held, fun fits r here top chosen => fits r here top ?_⟩
        exact of_decide_eq_true ((Bool.and_eq_true _ _).mp chosen).1
    · rename_i missed
      refine iff_of_true ok (held fun r here _ chosen => ?_)
      exact absurd (any_eq_true.mpr ⟨r, here, chosen⟩) missed

theorem served_valid (reachable : Reachable db) (ok : SpecsValid valid db) (q : Request) :
    SpecsValid valid (served valid db q) ↔ FitsRow valid db q := by
  cases q with
  | apply args =>
    simp only [served, FitsRow]
    split
    · rename_i checked
      simp only [step]
      cases done : applySpec db args with
      | none => exact iff_of_true ok (by simp)
      | some db' =>
        rw [getD_some, apply_valid ok checked done]
        exact ⟨fun fits _ _ => fits, fun fits => fits checked rfl⟩
    · rename_i refused
      exact iff_of_true ok fun checked => absurd checked refused
  | flip kind id old new spec =>
    simp only [served, FitsRow]
    split
    · rename_i checked
      rw [flip_valid ok]
      exact ⟨fun fits _ => fits, fun fits => fits checked⟩
    · rename_i refused
      exact iff_of_true ok fun checked => absurd checked refused
  | rollback id gen => exact rollback_valid ok
  | other a elsewhere => exact iff_of_true (ok.kept (step_rootKept reachable elsewhere)) trivial

theorem served_reachable (reachable : Reachable db) (q : Request) : Reachable (served valid db q) := by
  cases q with
  | apply args | flip kind id old new spec =>
    simp only [served]
    split
    · exact reachable.step _
    · exact reachable
  | rollback id gen => exact reachable.step (.rollbackToSpec id gen)
  | other a elsewhere => exact reachable.step a

/-- **Roots are valid for their own kind and version, in all states of a run of requests,
exactly if** each spec that is written fits the row it is written to. -/
theorem specs_valid (valid : Validator) (requests : List Request) :
    Throughout (served valid) (fun db q => SpecsValid valid (served valid db q)) Db.empty requests ↔
      Throughout (served valid) (FitsRow valid) Db.empty requests :=
  Throughout.iff_keeps (fun _ q reachable ok => served_valid reachable ok q)
    (fun _ q reachable => served_reachable reachable q) .empty
    fun r here => absurd here (notMem_empty r)

end Requests

/-- Specs of a schema that asks for the fields of its version. -/
def sized : Validator := fun _ version spec =>
  spec = if version = 1 then .obj [("size", .str "small")] else .obj [("cpu", .str "2")]

def applySized (version : Nat) : Request :=
  .apply ⟨"app", version, "a",
    if version = 1 then .obj [("size", .str "small")] else .obj [("cpu", .str "2")], .obj [], ""⟩

def flipSized : Request := .flip "app" 0 1 2 (.obj [("cpu", .str "2")])

/-- A root is applied, flipped, and applied and rolled back at its new version. -/
theorem specs_valid_flipped : letI := counting
    let requests := [applySized 1, flipSized, applySized 2, .rollback 0 2]
    Throughout (served sized) (fun db q => SpecsValid sized (served sized db q)) Db.empty requests ∧
      (requests.foldl (served sized) Db.empty).resources.rows.map (·.kindVersion) = [2] := by
  intro requests
  have facts : letI := counting
      Throughout (served sized) (FitsRow sized) Db.empty requests ∧
        (requests.foldl (served sized) Db.empty).resources.rows.map (·.kindVersion) = [2] := by
    decide +kernel
  exact ⟨(@specs_valid counting sized requests).mpr facts.1, facts.2⟩

/-- An apply at the next version leaves the row at its own; a rollback leaves a flipped row at
its new version with the spec it had before. -/
theorem specs_outgrown : letI := counting
    [[applySized 1, applySized 2], [applySized 1, flipSized, .rollback 0 1]].Forall fun requests =>
      ∃ r ∈ (requests.foldl (served sized) Db.empty).resources.rows,
        r.ownerId = none ∧ sized r.kind r.kindVersion r.spec = false := by
  decide +kernel

end Converge.Kernel
