/-
# Guarantees.VersionLog -- the log of authored specs

A root's specs are logged under the generation that brought them in.  The generation is not
the log's own counter: reconciles, flips, rollbacks and value flows advance it too, and a trim
removes old entries.  What keeps the keys apart is that an entry is never ahead of its row
(`Overtaken`), whatever has moved the row since, while an apply logs one generation past it.

A rollback moves the live spec over the log and never adds to it; a trim leaves the newest
entries.
-/
import Converge.Kernel.Rows

namespace Converge.Kernel

open Converge.Theory List Table

set_option autoImplicit false

section VersionLog

variable [Postgres] {db db' : Db} {v w : SpecVersion} {a : Action}

/-! ## No entry is ahead of its row -/

/-- The row `v` was logged for, as far as it is still there, has come at least as far. -/
structure Overtaken (db : Db) (v : SpecVersion) : Prop where
  drawn : db.Drawn v.resourceId
  le : ∀ r ∈ db.resources, r.id = v.resourceId → v.generation ≤ r.generation

theorem Overtaken.effects {allow : Label → Prop} (overtaken : Overtaken db v) (run : Effects allow db db') :
    Overtaken db' v where
  drawn := overtaken.drawn.mono (Effects.drawn_le run)
  le r' after same := by
    obtain ⟨r, here, id, grows⟩ := run.tracks respects_grows after (same ▸ overtaken.drawn)
    exact (overtaken.le r here (id.trans same)).trans grows

theorem Overtaken.run (overtaken : Overtaken db v) (actions : List Action) : Overtaken (run db actions) v := by
  induction actions generalizing db with
  | nil => exact overtaken
  | cons a rest ih => exact ih (overtaken.effects (step_effects db a))

theorem SpecVersion.Current.overtaken (named : Named db) (current : v.Current db) : Overtaken db v := by
  obtain ⟨r, here, same, generation⟩ := current
  refine ⟨same ▸ named r here, fun r' here' same' => ?_⟩
  obtain rfl := eq_of_pk resource_primary here' here (same'.trans same.symm)
  exact generation.ge

theorem Effect.logged {l : Label} (effect : Effect l db db') (after : v ∈ db'.specVersions) :
    v ∈ db.specVersions ∨ v.Current db := by
  cases effect with
  | aux core => exact core.log v after
  | delete ids => exact .inl (mem_deleteWhere.mp after).1
  | _ => exact .inl after

/-- **The log is behind.** -/
theorem Reachable.overtaken (reachable : Reachable db) (logged : v ∈ db.specVersions) : Overtaken db v := by
  suffices Named db ∧ ∀ v ∈ db.specVersions, Overtaken db v from this.2 v logged
  refine reachable.induction (I := fun s => Named s ∧ ∀ v ∈ s.specVersions, Overtaken s v) ⟨Reachable.empty.named,
    fun v none => absurd none (notMem_empty v)⟩ fun db a before => ?_
  refine Steps.keeps (I := fun s => Named s ∧ ∀ v ∈ s.specVersions, Overtaken s v)
    (fun _ effect before => ⟨effect.named before.1, fun v after => ?_⟩) (step_effects db a) before
  have overtaken := (effect.logged after).elim (before.2 v) (·.overtaken before.1)
  have run : Effects (fun _ => True) _ _ := Steps.one trivial effect
  exact overtaken.effects run

/-! ## What the commands log -/

/-- The commands that take a resource through its versions. -/
def Action.Versions : Action → Prop
  | .applySpec _ | .reconcile _ | .flipResourceKindVersion _ _ _ _ | .rollbackToSpec _ _
  | .gcSpecHistory _ _ _ _ => True
  | _ => False

/-- `w` is newer than whatever has been logged for its row. -/
def Newest (db : Db) (w : SpecVersion) : Prop :=
  ∀ v, Overtaken db v → v.resourceId = w.resourceId → v.generation < w.generation

/-- What an apply logs: its spec, under the generation the row then has. -/
theorem applySpec_logged {args : ApplySpec} (done : applySpec db args = some db')
    (after : w ∈ db'.specVersions) (new : w ∉ db.specVersions) : Newest db w ∧ w.spec = args.spec ∧
      ∃ r ∈ db'.resources, r.id = w.resourceId ∧ r.generation = w.generation ∧ r.spec = w.spec := by
  obtain ⟨config, -, ⟨mid, r, create, -, rfl⟩ | ⟨prev, found, ⟨-, rfl⟩ | ⟨-, mid, r, write, rfl⟩⟩⟩ :=
    applySpec_cases done
  · rw [(created_only mid r).specVersions] at after
    rw [(created_only mid r).resources]
    obtain ⟨rfl, free, unlogged, rfl⟩ := createRoot_cases create
    obtain rfl := ((mem_push unlogged).mp after).resolve_right new
    refine ⟨fun v overtaken same => ?_, rfl, _, (mem_push free).mpr (.inl rfl), rfl, rfl, rfl⟩
    -- the id has just been drawn
    have drawn := overtaken.drawn
    rw [same] at drawn
    exact absurd drawn (not_drawn_next db)
  · exact absurd after new
  · rw [(created_only mid r).specVersions] at after
    rw [(created_only mid r).resources]
    have here := (mem_of_lookup found).1
    obtain ⟨-, versions, rfl, rfl | ⟨differs, free, rfl⟩⟩ := overwriteRoot_cases write
    · exact absurd after new
    · obtain rfl := ((mem_push free).mp after).resolve_right new
      obtain ⟨r, written, same, generation, spec⟩ := rewriteRoot_has config here differs
      refine ⟨fun v overtaken same => ?_, rfl, r, written, same, generation, spec⟩
      exact Nat.lt_succ_of_le (overtaken.le prev here same.symm)

theorem versions_logged (versions : a.Versions) (after : w ∈ (step db a).specVersions)
    (new : w ∉ db.specVersions) : ∃ args, a = .applySpec args ∧ applySpec db args = some (step db a) := by
  have scheduled {p : Resource → Bool} {f : Resource → Resource}
      {keeps : ∀ r, Keyed.key (f r) = Keyed.key r} {id : Uuid}
      (after : w ∈ (scheduleEligible (updateResources db p f keeps) [id]).specVersions) : False := by
    rw [(scheduleEligible_only _ _).specVersions, (updateResources_only _ _ _ _).specVersions] at after
    exact new after
  cases a with
  | applySpec args =>
    refine ⟨args, rfl, ?_⟩
    simp only [step] at after ⊢
    cases done : applySpec db args with
    | none =>
      rw [done] at after
      exact absurd after new
    | some db' => rfl
  | reconcile id => exact (scheduled after).elim
  | flipResourceKindVersion id old version spec | rollbackToSpec id gen =>
    simp only [step, flipResourceKindVersion, rollbackToSpec] at after
    split at after
    · exact absurd after new
    · split at after
      · exact (scheduled after).elim
      · exact absurd after new
  | gcSpecHistory scan keep n shards => exact absurd (mem_deleteWhere.mp after).1 new
  | _ => exact versions.elim

/-! ## Rollback and trim -/

theorem rollbackToSpec_checkout {r : Resource} (logged : v ∈ db.specVersions) (here : r ∈ db.resources)
    (same : r.id = v.resourceId) :
    (rollbackToSpec db v.resourceId v.generation).specVersions = db.specVersions ∧
    ∃ r' ∈ (rollbackToSpec db v.resourceId v.generation).resources, r'.id = r.id ∧ r'.spec = v.spec ∧
      r'.generation = if r.spec = v.spec then r.generation else r.generation + 1 := by
  have found := lookup_of_mem specVersion_primary logged
  simp only [rollbackToSpec, found]
  split
  · rw [(scheduleEligible_only _ _).specVersions, (updateResources_only _ _ _ _).specVersions,
      (scheduleEligible_only _ _).resources]
    refine ⟨rfl, _, mem_updateResources.mpr ⟨r, here, rfl⟩, ?_⟩
    by_cases live : r.spec = v.spec <;> simp [same, live]
  · rename_i untouched
    have live : r.spec = v.spec := by
      by_contra differs
      exact untouched (any_eq_true.mpr ⟨r, here, by simp [same, differs]⟩)
    exact ⟨rfl, r, here, rfl, live, (if_pos live).symm⟩

/-- The entries of its resource that are newer than `v`. -/
def newer (db : Db) (v : SpecVersion) : Nat :=
  (db.specVersions.rows.filter fun w =>
    w.resourceId = v.resourceId && v.generation < w.generation).length

theorem gcSpecHistory_keeps {scan : Scan (Uuid × Nat)} {keepN maxRows : Nat} {shards : List Nat}
    (logged : v ∈ db.specVersions) (newest : newer db v < keepN) :
    v ∈ (gcSpecHistory db scan keepN maxRows shards).specVersions := by
  refine mem_deleteWhere.mpr ⟨logged, ?_⟩
  simp only [decide_eq_false_iff_not, mem_map]
  rintro ⟨w, picked, same⟩
  obtain rfl := eq_of_pk specVersion_primary (mem_filter.mp (Scan.mem_of_mem_pick picked)).1 logged same
  have old := (mem_filter.mp (Scan.mem_of_mem_pick picked)).2
  simp only [Bool.and_eq_true, decide_eq_true_eq] at old
  exact absurd newest (Nat.not_lt.mpr old.2)

/-! ## The log over every history -/

/-- **The version log.**  After any history: what a command logs is newer than all that was ever
logged for the resource, and is the spec authored there; a rollback restores it without logging;
an apply of what is live does nothing; a trim keeps the newest entries. -/
theorem version_log (reachable : Reachable db) :
    (∀ actions a, a.Versions → ∀ v ∈ db.specVersions, ∀ w ∈ (step (run db actions) a).specVersions,
      w ∉ (run db actions).specVersions → v.resourceId = w.resourceId → v.generation < w.generation) ∧
    (∀ a, a.Versions → ∀ w ∈ (step db a).specVersions, w ∉ db.specVersions →
      (∃ args, a = .applySpec args ∧ w.spec = args.spec) ∧
        ∃ r ∈ (step db a).resources, r.id = w.resourceId ∧ r.generation = w.generation ∧ r.spec = w.spec) ∧
    (∀ v ∈ db.specVersions, ∀ r ∈ db.resources, r.id = v.resourceId →
      (step db (.rollbackToSpec v.resourceId v.generation)).specVersions = db.specVersions ∧
      ∃ r' ∈ (step db (.rollbackToSpec v.resourceId v.generation)).resources, r'.id = r.id ∧
        r'.spec = v.spec ∧ r'.generation = if r.spec = v.spec then r.generation else r.generation + 1) ∧
    (∀ args, ∀ r ∈ db.resources, r.kind = args.kind → r.name = args.name → r.spec = args.spec →
      r.labels = args.labels → resolveConfig db args = some r.providerConfigId →
        step db (.applySpec args) = db) ∧
    ∀ scan keepN maxRows shards, ∀ v ∈ db.specVersions, newer db v < keepN →
      v ∈ (step db (.gcSpecHistory scan keepN maxRows shards)).specVersions := by
  refine ⟨?_, ?_, fun v logged r here same => rollbackToSpec_checkout logged here same, ?_,
    fun scan keepN maxRows shards v logged newest => gcSpecHistory_keeps logged newest⟩
  · intro actions a versions v logged w after new same
    obtain ⟨args, -, done⟩ := versions_logged versions after new
    exact (applySpec_logged done after new).1 v ((reachable.overtaken logged).run actions) same
  · intro a versions w after new
    obtain ⟨args, applies, done⟩ := versions_logged versions after new
    obtain ⟨-, spec, authored⟩ := applySpec_logged done after new
    exact ⟨⟨args, applies, spec⟩, authored⟩
  · intro args r here kind name spec labels config
    have found := lookup_of_mem resource_natural here
    simp only [kind, name] at found
    simp only [step, applySpec, config, found, spec, labels]
    split <;> simp

end VersionLog

/-- Two specs are applied; the root is reconciled by force and rolled back, and the log emptied.  The
next spec is logged past both. -/
theorem version_log_emptied : letI := counting
    let db := run Db.empty [applyRoot "vm" "a", .applySpec ⟨"vm", 1, "a", .str "big", .obj [], ""⟩]
    let actions := [.reconcile 0, .rollbackToSpec 0 1, .gcSpecHistory Scan.plain 0 10 [0]]
    let next := .applySpec ⟨"vm", 1, "a", .str "huge", .obj [], ""⟩
    (db.specVersions.rows.length = 2 ∧ (run db actions).specVersions.rows = [] ∧
      (step (run db actions) next).specVersions.rows = [⟨0, 5, .str "huge"⟩]) ∧
    ∀ v ∈ db.specVersions, v.resourceId = 0 → v.generation < 5 := by
  intro db actions next
  have facts : letI := counting
      db.specVersions.rows.length = 2 ∧ (run db actions).specVersions.rows = [] ∧
        (step (run db actions) next).specVersions.rows = [⟨0, 5, .str "huge"⟩] := by
    decide +kernel
  obtain ⟨-, emptied, logged⟩ := id facts
  refine ⟨facts, fun v here same => (@version_log counting db ⟨_, rfl⟩).1 actions next trivial v here
    ⟨0, 5, .str "huge"⟩ ?_ (fun old => ?_) same⟩
  · exact mem_rows.mp (logged ▸ .head _)
  · have listed := mem_rows.mpr old
    rw [emptied] at listed
    cases listed

end Converge.Kernel
