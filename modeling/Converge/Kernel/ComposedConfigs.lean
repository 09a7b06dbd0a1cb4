/-
# Kernel.ComposedConfigs -- the configs a compose leaves

A compose stores the configs it emits in two passes.  The first takes the flags: a config stays
a default if nothing stored before the compose, and nothing taken before it, is the default of
its type under another name (`Passed`).  The second writes row by row what differs, and the row
of a name that someone else owns it leaves (`Wrote`).

Both are stated by name: `Composed` says of every name which row the table has for it.
-/
import Converge.Kernel.Compose
import Converge.Theory.Transition

namespace Converge.Kernel

open Converge.Theory List Table

set_option autoImplicit false

theorem config_primary : Table.Primary ProviderConfig.id := fun _ _ h => Or.inl h

theorem config_named : Table.Primary ProviderConfig.name := fun _ _ h => Or.inr (Or.inl h)

def ProviderConfig.type (c : ProviderConfig) : String × Nat := (c.kind, c.kindVersion)

def ProviderConfigSpec.type (c : ProviderConfigSpec) : String × Nat := (c.kind, c.kindVersion)

/-- The row has what `d` declares, and `owner` owns it. -/
structure Declared (owner : Uuid) (d : ProviderConfigSpec) (c : ProviderConfig) : Prop where
  owned : c.ownerId = some owner
  type : c.type = d.type
  isDefault : c.isDefault = d.isDefault

/-- What the upsert of `d` makes of the row of its name. -/
inductive Wrote (owner : Uuid) (d : ProviderConfigSpec) : Option ProviderConfig → Option ProviderConfig → Prop
  | own {before : Option ProviderConfig} {c : ProviderConfig}
      (mine : ∀ e ∈ before, e.id = c.id ∧ e.ownerId = some owner) (declared : Declared owner d c) :
      Wrote owner d before (some c)
  | foreign {c : ProviderConfig} (other : c.ownerId ≠ some owner) : Wrote owner d (some c) (some c)

/-- The row of a config name. -/
def Db.config? (db : Db) (name : String) : Option ProviderConfig := db.providerconfigs.lookup (·.name) name

/-- `db'` has what `decls` declare, and under other names the configs of `db`. -/
structure Composed (owner : Uuid) (decls : List ProviderConfigSpec) (db db' : Db) : Prop where
  wrote : ∀ d ∈ decls, Wrote owner d (db.config? d.name) (db'.config? d.name)
  others : ∀ name ∉ decls.map (·.name), db'.config? name = db.config? name

variable {db db' : Db} {owner : Uuid} {configs decls : List ProviderConfigSpec} {e : ProviderConfig}

section Upserts

variable [Postgres]

theorem upsertOwnedConfig_composed {d : ProviderConfigSpec} (done : upsertOwnedConfig owner db d = some db') :
    (∃ t n, db.drawn ≤ n ∧ db' = { db with providerconfigs := t, drawn := n }) ∧ Composed owner [d] db db' := by
  unfold upsertOwnedConfig at done
  cases found : db.providerconfigs.lookup (·.name) d.name with
  | none =>
    rw [found] at done
    obtain ⟨t, inserted, rfl⟩ := Option.map_eq_some_iff.mp done
    obtain ⟨free, rfl⟩ := push_of_insert? inserted
    refine ⟨⟨_, _, Nat.le_succ _, rfl⟩, fun e one => ?_, fun name other => ?_⟩
    · obtain rfl := mem_singleton.mp one
      rw [Db.config?, Db.config?, found, lookup_push free, if_pos rfl]
      exact .own nofun ⟨rfl, rfl, rfl⟩
    · have ne : ¬ d.name = name := fun same => other (mem_singleton.mpr same.symm)
      exact (lookup_push free name).trans (if_neg ne)
  | some e =>
    rw [found] at done
    simp only at done
    split at done
    · rename_i owned
      obtain ⟨t, written, rfl⟩ := Option.map_eq_some_iff.mp done
      have row := lookup_tryUpdateWhere ProviderConfig.name written fun _ => rfl
      refine ⟨⟨_, _, Nat.le_refl _, rfl⟩, fun d' one => ?_, fun name other => (row name).trans ?_⟩
      · obtain rfl := mem_singleton.mp one
        have named : e.name = d'.name := (mem_of_lookup found).2
        rw [Db.config?, Db.config?, row, found, Option.map_some, if_pos (decide_eq_true named)]
        refine .own (fun c here => ?_) ⟨owned, rfl, rfl⟩
        obtain rfl := Option.some.inj here
        exact ⟨rfl, owned⟩
      · unfold Db.config?
        cases there : db.providerconfigs.lookup (·.name) name with
        | none => rfl
        | some c =>
          have ne : ¬ c.name = d.name := fun same =>
            other (mem_singleton.mpr ((mem_of_lookup there).2.symm.trans same))
          rw [Option.map_some, if_neg fun h => ne (of_decide_eq_true h)]
    · rename_i foreign
      cases done
      refine ⟨⟨_, _, Nat.le_refl _, rfl⟩, fun d' one => ?_, fun _ _ => rfl⟩
      obtain rfl := mem_singleton.mp one
      rw [Db.config?, found]
      exact .foreign foreign

theorem upsertOwnedConfigs_only (done : decls.foldlM (upsertOwnedConfig owner) db = some db') :
    ∃ t n, db.drawn ≤ n ∧ db' = { db with providerconfigs := t, drawn := n } := by
  induction decls generalizing db with
  | nil =>
    cases done
    exact ⟨_, _, Nat.le_refl _, rfl⟩
  | cons d rest ih =>
    obtain ⟨mid, first, later⟩ := Option.bind_eq_some_iff.mp done
    obtain ⟨⟨t, n, grown, rfl⟩, -⟩ := upsertOwnedConfig_composed first
    obtain ⟨t', n', more, rfl⟩ := ih later
    exact ⟨t', n', Nat.le_trans grown more, rfl⟩

theorem applyComposedConfigs_only (done : applyComposedConfigs db owner configs = some db') :
    ∃ t n p, db.drawn ≤ n ∧ db' = deleteConfigs { db with providerconfigs := t, drawn := n } p := by
  obtain ⟨pass, -, rest⟩ := Option.bind_eq_some_iff.mp done
  obtain ⟨upserted, upserts, rfl⟩ := Option.map_eq_some_iff.mp rest
  obtain ⟨t, n, grown, rfl⟩ := upsertOwnedConfigs_only upserts
  exact ⟨t, n, _, grown, rfl⟩

theorem upsertOwnedConfigs_composed (done : decls.foldlM (upsertOwnedConfig owner) db = some db')
    (nodup : (decls.map (·.name)).Nodup) : Composed owner decls db db' := by
  induction decls generalizing db with
  | nil =>
    cases done
    exact ⟨nofun, fun _ _ => rfl⟩
  | cons d rest ih =>
    obtain ⟨mid, first, later⟩ := Option.bind_eq_some_iff.mp done
    rw [map_cons, nodup_cons] at nodup
    have one := (upsertOwnedConfig_composed first).2
    have more := ih later nodup.2
    refine ⟨fun e listed => ?_, fun name other => ?_⟩
    · rcases mem_cons.mp listed with rfl | listed
      · rw [more.others e.name nodup.1]
        exact one.wrote e (mem_singleton.mpr rfl)
      · have ne : e.name ∉ [d].map (·.name) := fun same =>
          nodup.1 (mem_map.mpr ⟨e, listed, mem_singleton.mp same⟩)
        rw [← one.others e.name ne]
        exact more.wrote e listed
    · rw [map_cons, mem_cons, not_or] at other
      exact (more.others name other.2).trans (one.others name fun same => other.1 (mem_singleton.mp same))

end Upserts

theorem Composed.of_diff (nodup : (decls.map (·.name)).Nodup)
    (diff : Composed owner (decls.filter fun d => !configUnchanged db owner d) db db') :
    Composed owner decls db db' := by
  refine ⟨fun d listed => ?_, fun name other => diff.others name fun here => other ?_⟩
  · cases unchanged : configUnchanged db owner d with
    | false => exact diff.wrote d (mem_filter.mpr ⟨listed, by rw [unchanged]; rfl⟩)
    | true =>
      have out : d.name ∉ (decls.filter fun d => !configUnchanged db owner d).map (·.name) := fun here => by
        obtain ⟨e, kept, same⟩ := mem_map.mp here
        obtain ⟨there, changed⟩ := mem_filter.mp kept
        rw [inj_on_of_nodup_map nodup there listed same, unchanged] at changed
        cases changed
      obtain ⟨e, stored, same⟩ := any_eq_true.mp unchanged
      simp only [Bool.and_eq_true, decide_eq_true_eq] at same
      obtain ⟨⟨⟨⟨⟨owned, named⟩, kind⟩, version⟩, flag⟩, -⟩ := same
      have row : db.config? d.name = some e := named ▸ lookup_of_mem config_named stored
      rw [diff.others _ out, row]
      refine .own (fun c here => ?_) ⟨owned, Prod.ext kind version, flag⟩
      obtain rfl := Option.some.inj here
      exact ⟨rfl, owned⟩
  · exact (filter_sublist.map _).subset here

theorem Composed.mem (composed : Composed owner decls db db') (here : e ∈ db'.providerconfigs) :
    e ∈ db.providerconfigs ∨ ∃ d ∈ decls, d.name = e.name ∧ Declared owner d e := by
  have row : db'.config? e.name = some e := lookup_of_mem config_named here
  by_cases listed : e.name ∈ decls.map (·.name)
  · obtain ⟨d, listed, named⟩ := mem_map.mp listed
    have wrote := composed.wrote d listed
    rw [named, row] at wrote
    generalize before : db.config? e.name = old at wrote
    cases wrote with
    | own _ declared => exact .inr ⟨d, listed, named, declared⟩
    | foreign => exact .inl (mem_of_lookup before).1
  · rw [composed.others _ listed] at row
    exact .inl (mem_of_lookup row).1

theorem Composed.keeps (composed : Composed owner decls db db') (here : e ∈ db.providerconfigs)
    (spared : e.ownerId ≠ some owner ∨ e.name ∉ decls.map (·.name)) : e ∈ db'.providerconfigs := by
  have row : db.config? e.name = some e := lookup_of_mem config_named here
  by_cases listed : e.name ∈ decls.map (·.name)
  · have other := spared.resolve_right (not_not_intro listed)
    obtain ⟨d, listed, named⟩ := mem_map.mp listed
    have wrote := composed.wrote d listed
    rw [named, row] at wrote
    generalize after : db'.config? e.name = new at wrote
    cases wrote with
    | own mine => exact absurd (mine e rfl).2 other
    | foreign => exact (mem_of_lookup after).1
  · rw [← composed.others _ listed] at row
    exact (mem_of_lookup row).1

theorem Composed.row (composed : Composed owner decls db db') {d : ProviderConfigSpec} (listed : d ∈ decls)
    (mine : ∀ e ∈ db.providerconfigs, e.name = d.name → e.ownerId = some owner) :
    ∃ e ∈ db'.providerconfigs, e.name = d.name ∧ Declared owner d e ∧
      ∀ o ∈ db.providerconfigs, o.name = d.name → o.id = e.id := by
  have wrote := composed.wrote d listed
  generalize before : db.config? d.name = old at wrote
  generalize after : db'.config? d.name = new at wrote
  cases wrote with
  | @own _ c here declared =>
    obtain ⟨stored, named⟩ := mem_of_lookup after
    refine ⟨c, stored, named, declared, fun o old same => (here o ?_).1⟩
    exact before ▸ same ▸ lookup_of_mem config_named old
  | foreign other =>
    obtain ⟨stored, named⟩ := mem_of_lookup before
    exact absurd (mine _ stored named) other

/-! ## The flags -/

/-- `n` is the name of a default of the type: a stored one, or one taken. -/
def Holds (db : Db) (decls : List ProviderConfigSpec) (type : String × Nat) (n : String) : Prop :=
  (∃ e ∈ db.providerconfigs, e.isDefault = true ∧ e.type = type ∧ e.name = n) ∨
    ∃ d ∈ decls, d.isDefault = true ∧ d.type = type ∧ d.name = n

/-- The pass has taken `configs`: each with its name and type, and as a default if it was meant to
be one and no default of its type has another name. -/
structure Passed (db : Db) (configs : List ProviderConfigSpec) (s : ConfigPass) : Prop where
  names : s.produced = (s.decls.map (·.name)).reverse
  nodup : (s.decls.map (·.name)).Nodup
  taken : s.decls.map (fun d => (d.name, d.type)) = configs.map fun c => (c.name, c.type)
  claims : s.claimed = ((s.decls.filter (·.isDefault)).map fun d => (d.type, d.name)).reverse
  flags : ∀ c ∈ configs, ∀ d ∈ s.decls, d.name = c.name →
    (d.isDefault = true ↔ c.isDefault = true ∧ ∀ n, Holds db s.decls c.type n → n = c.name)

section Pass

variable {s pass : ConfigPass} {c : ProviderConfigSpec}

theorem Passed.start : Passed db [] ⟨[], [], []⟩ := ⟨rfl, .nil, rfl, rfl, nofun⟩

theorem Passed.named (passed : Passed db configs s) {d : ProviderConfigSpec} (listed : d ∈ s.decls)
    (default : d.isDefault = true) {n : String} (holds : Holds db s.decls d.type n) : n = d.name := by
  obtain ⟨c, here, same⟩ := exists_of_map_eq passed.taken listed
  obtain ⟨name, type⟩ := Prod.mk.inj same
  exact (((passed.flags c here d listed name.symm).mp default).2 n (type ▸ holds)).trans name

theorem Passed.unique (passed : Passed db configs s) {type : String × Nat} {m n : String}
    (one : Holds db s.decls type m) (two : Holds db s.decls type n) : m = n := by
  rcases one with ⟨e, stored, flag, rfl, rfl⟩ | ⟨d, listed, flag, rfl, rfl⟩
  · rcases two with ⟨e', stored', flag', same, rfl⟩ | ⟨d, listed, flag', same, rfl⟩
    · exact congrArg _ (eq_of_clashes stored stored' (.inr (.inr ⟨flag, flag', same.symm⟩)))
    · exact passed.named listed flag' (.inl ⟨e, stored, flag, same.symm, rfl⟩)
  · exact (passed.named listed flag two).symm

theorem Passed.holder (passed : Passed db configs s) :
    (∀ n ∈ defaultHolder db s c.kind c.kindVersion, n = c.name) ↔
      ∀ n, Holds db s.decls c.type n → n = c.name := by
  have holds : ∀ n ∈ defaultHolder db s c.kind c.kindVersion, Holds db s.decls c.type n := by
    intro n held
    rcases Option.or_eq_some_iff.mp held with claimed | ⟨-, stored⟩
    · obtain ⟨⟨type, m⟩, found, rfl⟩ := Option.map_eq_some_iff.mp claimed
      have listed := mem_of_find?_eq_some found
      rw [passed.claims, mem_reverse, mem_map] at listed
      obtain ⟨d, kept, same⟩ := listed
      obtain ⟨listed, flag⟩ := mem_filter.mp kept
      cases same
      have chosen := find?_some found
      exact .inr ⟨d, listed, flag, of_decide_eq_true chosen, rfl⟩
    · obtain ⟨e, found, rfl⟩ := Option.map_eq_some_iff.mp stored
      have chosen := find?_some found
      simp only [Bool.and_eq_true, decide_eq_true_eq] at chosen
      exact .inl ⟨e, mem_of_find?_eq_some found, chosen.2, Prod.ext chosen.1.1 chosen.1.2, rfl⟩
  have found : ∀ n, Holds db s.decls c.type n → (defaultHolder db s c.kind c.kindVersion).isSome = true := by
    intro n held
    rw [defaultHolder, Option.isSome_or, Option.isSome_map, Option.isSome_map, Bool.or_eq_true,
      find?_isSome, find?_isSome]
    rcases held with ⟨e, stored, flag, type, -⟩ | ⟨d, listed, flag, type, -⟩
    · obtain ⟨kind, version⟩ := Prod.mk.inj type
      refine .inr ⟨e, stored, ?_⟩
      simp only [kind, version, flag, decide_true, Bool.and_self]
    · refine .inl ⟨(d.type, d.name), ?_, decide_eq_true type⟩
      rw [passed.claims, mem_reverse]
      exact mem_map_of_mem (f := fun d : ProviderConfigSpec => (d.type, d.name)) (mem_filter.mpr ⟨listed, flag⟩)
  refine ⟨fun all n held => ?_, fun all n held => all n (holds n held)⟩
  obtain ⟨m, holder⟩ := Option.isSome_iff_exists.mp (found n held)
  exact (passed.unique held (holds m holder)).trans (all m holder)

theorem passConfig_passed (done : passConfig db s c = some pass)
    (before : Passed db configs s) : Passed db (configs ++ [c]) pass := by
  unfold passConfig at done
  split at done
  · cases done
  · rename_i ok
    simp only [not_or] at ok
    cases done
    generalize kept : (c.isDefault &&
        !(c.isDefault && (defaultHolder db s c.kind c.kindVersion).any (· ≠ c.name))) =
      flag
    have flagged : flag = true ↔ c.isDefault = true ∧ ∀ n, Holds db s.decls c.type n → n = c.name := by
      rw [← before.holder, ← kept]
      cases c.isDefault <;> cases defaultHolder db s c.kind c.kindVersion <;> simp
    have new : ∀ d ∈ s.decls, d.name ≠ c.name := fun d listed same => ok.2.1 (by
      rw [before.names, mem_reverse]
      exact mem_map.mpr ⟨d, listed, same⟩)
    refine ⟨?_, ?_, ?_, ?_, ?_⟩
    · simp [before.names]
    · rw [map_append]
      exact nodup_append'.mpr ⟨before.nodup, nodup_singleton _, by simpa using new⟩
    · rw [map_append, map_append, before.taken]
      rfl
    · cases flag <;> simp [before.claims, ProviderConfigSpec.type]
    · simp only [mem_append, mem_singleton]
      have more {type : String × Nat} {n : String}
        (held : Holds db (s.decls ++ [{ c with isDefault := flag }]) type n) :
          Holds db s.decls type n ∨ flag = true ∧ c.type = type ∧ c.name = n := by
        simpa [Holds, ProviderConfigSpec.type, or_and_right, exists_or, or_assoc] using held
      have less {type : String × Nat} {n : String} (held : Holds db s.decls type n) :
          Holds db (s.decls ++ [{ c with isDefault := flag }]) type n :=
        held.imp id fun ⟨d, listed, rest⟩ => ⟨d, mem_append_left _ listed, rest⟩
      rintro c₀ (old | rfl) d (listed | rfl) named
      · obtain ⟨d₁, there, same⟩ := exists_of_map_eq before.taken.symm old
        obtain ⟨name, type⟩ := Prod.mk.inj same
        obtain rfl := inj_on_of_nodup_map before.nodup there listed (name.trans named.symm)
        rw [before.flags c₀ old d₁ listed named]
        refine ⟨fun ⟨meant, all⟩ => ⟨meant, fun n held => ?_⟩,
          fun ⟨meant, all⟩ => ⟨meant, fun n held => all n (less held)⟩⟩
        rcases more held with held | ⟨keep, same, rfl⟩
        · exact all n held
        · -- the default taken before holds the type
          have default := (before.flags c₀ old d₁ listed named).mpr ⟨meant, all⟩
          exact absurd ((flagged.mp keep).2 d₁.name (.inr ⟨d₁, listed, default, type.trans same.symm, rfl⟩))
            (new d₁ listed)
      · obtain ⟨d, there, same⟩ := exists_of_map_eq before.taken.symm old
        exact absurd ((Prod.mk.inj same).1.trans named.symm) (new d there)
      · exact absurd named (new d listed)
      · refine flagged.trans ⟨fun ⟨meant, all⟩ => ⟨meant, fun n held => ?_⟩,
          fun ⟨meant, all⟩ => ⟨meant, fun n held => all n (less held)⟩⟩
        rcases more held with held | ⟨-, -, rfl⟩
        · exact all n held
        · rfl

theorem passConfigs_passed {rest : List ProviderConfigSpec} (done : rest.foldlM (passConfig db) s = some pass)
    (before : Passed db configs s) : Passed db (configs ++ rest) pass := by
  induction rest generalizing configs s with
  | nil =>
    cases done
    rwa [append_nil]
  | cons c rest ih =>
    obtain ⟨mid, first, later⟩ := Option.bind_eq_some_iff.mp done
    rw [← singleton_append, ← append_assoc]
    exact ih later (passConfig_passed first before)

end Pass

end Converge.Kernel
