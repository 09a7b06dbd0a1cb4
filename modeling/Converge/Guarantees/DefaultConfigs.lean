/-
# Guarantees.DefaultConfigs -- the defaults a compose leaves

A kind at a version has at most one default config.  A compose that emits a second one stores it
as a custom config, and what it compares with is what was stored before it wrote anything, its own
configs among them.  So where it hands the default over to another name, the new default yields to
the old one, which the same compose then demotes or prunes: the type is left without a default
(`handover_loses_default`).

The rest holds of every compose.  `composed_defaults` says it, and exactly when the one default
that an output marks is the default afterwards.
-/
import Converge.Kernel.ComposedConfigs
import Converge.Kernel.System

namespace Converge.Kernel

open Converge.Theory List Table

set_option autoImplicit false
set_option linter.unusedSectionVars false

/-- The output marks `c` alone as the default of its type, and nobody else has a default of it. -/
def SoleDefault (db : Db) (owner : Uuid) (configs : List ProviderConfigSpec) (c : ProviderConfigSpec) : Prop :=
  c.isDefault = true ∧ (∀ c' ∈ configs, c'.isDefault = true → c'.type = c.type → c' = c) ∧
    ∀ e ∈ db.providerconfigs, e.isDefault = true → e.type = c.type → e.ownerId = some owner

/-- No default of its type is stored under another name, and its name is the owner's to use. -/
def Takes (db : Db) (owner : Uuid) (c : ProviderConfigSpec) : Prop :=
  ∀ e ∈ db.providerconfigs, (e.isDefault = true → e.type = c.type → e.name = c.name) ∧
    (e.name = c.name → e.ownerId = some owner)

section Defaults

variable [Postgres] {db db' : Db} {owner : Uuid} {configs : List ProviderConfigSpec} {pass : ConfigPass}

theorem applyComposedConfigs_leaves (done : applyComposedConfigs db owner configs = some db') :
    ∃ pass mid, Passed db configs pass ∧ Composed owner pass.decls db mid ∧
      (∀ e ∈ db'.providerconfigs, e ∈ mid.providerconfigs) ∧
      ∀ e ∈ mid.providerconfigs, e.ownerId ≠ some owner ∨ e.name ∈ pass.decls.map (·.name) →
        e ∈ db'.providerconfigs := by
  obtain ⟨pass, passed, rest⟩ := Option.bind_eq_some_iff.mp done
  obtain ⟨mid, upserts, rfl⟩ := Option.map_eq_some_iff.mp rest
  have taken := passConfigs_passed passed .start
  have composed := (upsertOwnedConfigs_composed upserts
    (taken.nodup.sublist (filter_sublist.map _))).of_diff taken.nodup
  refine ⟨pass, mid, taken, composed, fun e here => (mem_deleteWhere.mp here).1, fun e here spared =>
    mem_deleteWhere.mpr ⟨here, decide_eq_false fun stale => ?_⟩⟩
  obtain ⟨o, listed, same⟩ := mem_map.mp stale
  obtain ⟨stored, gone⟩ := mem_filter.mp listed
  simp only [Bool.and_eq_true, decide_eq_true_eq, taken.names, mem_reverse] at gone
  -- a row that is pruned was not written
  obtain rfl := eq_of_pk config_primary (composed.keeps stored (.inr gone.2)) here same
  exact spared.elim (fun other => other gone.1) gone.2

/-- The one default that is marked stays one exactly if no stored default has another name. -/
theorem Passed.sole (taken : Passed db configs pass) {c d : ProviderConfigSpec} (listed : c ∈ configs)
    (sole : SoleDefault db owner configs c) (declared : d ∈ pass.decls) (named : d.name = c.name) :
    d.isDefault = true ↔ ∀ e ∈ db.providerconfigs, e.isDefault = true → e.type = c.type → e.name = c.name := by
  rw [taken.flags c listed d declared named]
  refine ⟨fun ⟨_, all⟩ e stored flag type => all e.name (.inl ⟨e, stored, flag, type, rfl⟩),
    fun free => ⟨sole.1, ?_⟩⟩
  rintro n (⟨e, stored, flag, type, rfl⟩ | ⟨d', there, flag, type, rfl⟩)
  · exact free e stored flag type
  · obtain ⟨c', meant, same⟩ := exists_of_map_eq taken.taken there
    obtain ⟨name, type'⟩ := Prod.mk.inj same
    have marked := ((taken.flags c' meant d' there name.symm).mp flag).1
    rw [← name, sole.2.1 c' meant marked (type'.trans type)]

/-- **The defaults a compose leaves.**  No config it writes meets the default of another row, so
the unique index is never violated; each type has at most one default; what others own stays; and
the one default that the output marks for a type that nobody else has a default of is the default
exactly if no default of the type was stored under another name, and its name is free to use. -/
theorem composed_defaults (db : Db) (owner : Uuid) (configs : List ProviderConfigSpec) :
    (∀ pass, configs.foldlM (passConfig db) ⟨[], [], []⟩ = some pass → ∀ before d after mid,
      pass.decls.filter (fun d => !configUnchanged db owner d) = before ++ d :: after →
      before.foldlM (upsertOwnedConfig owner) db = some mid → ∀ e ∈ mid.providerconfigs,
        d.isDefault = true → e.isDefault = true → e.type = d.type → e.name = d.name) ∧
    ∀ db', applyComposedConfigs db owner configs = some db' →
      (∀ e ∈ db'.providerconfigs, ∀ e' ∈ db'.providerconfigs,
        e.isDefault = true → e'.isDefault = true → e.type = e'.type → e = e') ∧
      (∀ e, e.ownerId ≠ some owner → (e ∈ db'.providerconfigs ↔ e ∈ db.providerconfigs)) ∧
      ∀ c ∈ configs, SoleDefault db owner configs c →
        ((∃ e ∈ db'.providerconfigs, e.name = c.name ∧ Declared owner c e) ↔ Takes db owner c) := by
  refine ⟨fun pass passed before d after mid written upserts e here flag default type => ?_, fun db' done => ?_⟩
  · have taken := passConfigs_passed passed .start
    have part : (before ++ d :: after).Sublist pass.decls := written ▸ filter_sublist
    have listed : ∀ d' ∈ before ++ [d], d' ∈ pass.decls := fun d' there => part.subset
      (by simp only [mem_append, mem_cons, not_mem_nil, or_false] at there ⊢; tauto)
    have nodup : (before.map (·.name)).Nodup :=
      taken.nodup.sublist (((sublist_append_left _ _).trans part).map _)
    refine taken.named (listed d (by simp)) flag ?_
    rcases (upsertOwnedConfigs_composed upserts nodup).mem here with stored | ⟨d', there, named, declared⟩
    · exact .inl ⟨e, stored, default, type, rfl⟩
    · exact .inr ⟨d', listed d' (by simp [there]), declared.isDefault ▸ default, declared.type ▸ type, named⟩
  · obtain ⟨pass, mid, taken, composed, kept, spared⟩ := applyComposedConfigs_leaves done
    refine ⟨fun e here e' here' flag flag' type => eq_of_clashes here here' (.inr (.inr ⟨flag, flag', type⟩)),
      fun e other => ⟨fun here => ?_, fun stored => spared e (composed.keeps stored (.inl other)) (.inl other)⟩,
      fun c listed sole => ?_⟩
    · rcases composed.mem (kept e here) with stored | ⟨d, -, -, declared⟩
      · exact stored
      · exact absurd declared.owned other
    · obtain ⟨d, declared, same⟩ := exists_of_map_eq taken.taken.symm listed
      obtain ⟨name, type⟩ := Prod.mk.inj same
      have flag := taken.sole listed sole declared name
      constructor
      · rintro ⟨e, here, named, has⟩
        have mine : ∀ o ∈ db.providerconfigs, o.name = c.name → o.ownerId = some owner := fun o stored this => by
          by_contra other
          have stays := spared o (composed.keeps stored (.inl other)) (.inl other)
          exact other (eq_of_pk config_named stays here (this.trans named.symm) ▸ has.owned)
        obtain ⟨row, there, this, holds, -⟩ :=
          composed.row declared fun o stored same => mine o stored (same.trans name)
        obtain rfl := eq_of_pk config_named there (kept e here) (this.trans (name.trans named.symm))
        have default : d.isDefault = true := holds.isDefault ▸ has.isDefault.trans sole.1
        exact fun o stored => ⟨flag.mp default o stored, mine o stored⟩
      · intro takes
        obtain ⟨e, there, this, holds, -⟩ := composed.row declared fun o stored same =>
          (takes o stored).2 (same.trans name)
        refine ⟨e, spared e there (.inr (this ▸ mem_map_of_mem declared)), this.trans name, holds.owned,
          holds.type.trans type, holds.isDefault.trans ?_⟩
        exact (flag.mpr fun o stored => (takes o stored).1).trans sole.1.symm

end Defaults

/-- A default of the kind "net". -/
def netDefault (name : String) : ProviderConfigSpec := ⟨name, "net", 1, true, .empty⟩

/-- Owner 7 has composed its default, and owner 8 another config of the kind. -/
def sharedConfigs : Db :=
  letI := counting
  let first := (applyComposedConfigs Db.empty 7 [netDefault "a"]).getD Db.empty
  (applyComposedConfigs first 8 [⟨"spare", "net", 1, false, .empty⟩]).getD first

/-- The next compose of owner 7 changes the spec of its default, which stays the default. -/
theorem composed_defaults_again : letI := counting
    let c : ProviderConfigSpec := ⟨"a", "net", 1, true, .obj [("zone", .str "b")]⟩
    sharedConfigs.providerconfigs.rows.map (·.ownerId) = [some 8, some 7] ∧
      ∃ db, applyComposedConfigs sharedConfigs 7 [c] = some db ∧
        ∃ e ∈ db.providerconfigs, e.name = "a" ∧ Declared 7 c e := by
  intro c
  have facts : letI := counting
      sharedConfigs.providerconfigs.rows.map (·.ownerId) = [some 8, some 7] ∧
      (applyComposedConfigs sharedConfigs 7 [c]).isSome = true ∧
      (∀ e ∈ sharedConfigs.providerconfigs.rows, e.isDefault = true → e.type = c.type → e.ownerId = some 7) ∧
      ∀ e ∈ sharedConfigs.providerconfigs.rows, (e.isDefault = true → e.type = c.type → e.name = c.name) ∧
        (e.name = c.name → e.ownerId = some 7) := by
    decide +kernel
  obtain ⟨owners, commits, mine, takes⟩ := facts
  obtain ⟨db, done⟩ := Option.isSome_iff_exists.mp commits
  have last := ((@composed_defaults counting sharedConfigs 7 [c]).2 db done).2.2 c
    (mem_singleton_self _) ⟨rfl, fun _ listed _ _ => mem_singleton.mp listed, mine⟩
  exact ⟨owners, db, done, last.mpr takes⟩

/-- **The new default yields to the old one.**  A compose emitted the default "a", and the next one
emits the default "b" instead.  The config "b" is stored, but not as the default, and "a" is gone. -/
theorem handover_loses_default : letI := counting
    let first := (applyComposedConfigs Db.empty 7 [netDefault "a"]).getD Db.empty
    let second := (applyComposedConfigs first 7 [netDefault "b"]).getD Db.empty
    first.providerconfigs.rows.map (fun e => (e.name, e.isDefault, e.ownerId)) = [("a", true, some 7)] ∧
      second.providerconfigs.rows.map (fun e => (e.name, e.isDefault, e.ownerId)) = [("b", false, some 7)] := by
  decide +kernel

end Converge.Kernel
