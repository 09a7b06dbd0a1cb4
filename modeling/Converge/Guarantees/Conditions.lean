/-
# Guarantees.Conditions -- what the conditions of a batch come to

A result carries the conditions its reactions reported, and a drain upserts those of a
whole batch in one statement.  Postgres refuses a statement that writes a row twice, and
nothing in front of it keeps the keys apart.

* `condition_keys_distinct`: no batch ever proposes a key twice, in all states of a run,
  exactly if every append brings distinct types and shares none with another waiting result
  of its resource.  `condition_keys_clash` has a batch that fails for each of the two ways.

An advancing success is to leave its row healthy.  Health and conditions are written by
three statements from values that may be absent:

* `success_clears`: for a result that is alone in its batch, conditions always come out as
  reported, and the row is healthy exactly if the result reported some condition or the row
  was healthy before.  `success_stays_unhealthy` shows both failures.
-/
import Converge.Kernel.Rows
import Converge.Kernel.Reactions

namespace Converge.Kernel

open Converge.Theory List Table Option

set_option autoImplicit false
set_option linter.unusedSectionVars false

variable {results : List OutboxRow} {o u : OutboxRow}

def OutboxRow.types (o : OutboxRow) : List String := (o.conditions.getD []).map (·.type)

def ResourceCondition.ends (c : ResourceCondition) : Uuid × String := (c.resourceId, c.type)

/-! ## Keys of a batch -/

section Keys

variable [Postgres] {db : Db} {R : OutboxRow → OutboxRow → Prop} {P : OutboxRow → Prop}

/-- What a drain of `results` proposes has distinct keys. -/
def KeysDistinct (db : Db) (results : List OutboxRow) : Prop :=
  ((proposedConditions db results).map (·.ends)).Nodup
deriving Decidable

/-- No drain, whatever rows it pops, proposes a key twice. -/
def BatchesDistinct (db : Db) : Prop :=
  ∀ scan n range, KeysDistinct db (popped db scan n range)

/-- A reconcile result reports each type once. -/
def OutboxRow.Once (o : OutboxRow) : Prop := o.taskType = .reconcile → o.types.Nodup

instance (o : OutboxRow) : Decidable o.Once := inferInstanceAs (Decidable (_ → _))

/-- Two reconcile results of one resource report different types. -/
def OutboxRow.Apart (o u : OutboxRow) : Prop :=
  o.taskType = .reconcile → u.taskType = .reconcile → o.resourceId = u.resourceId →
    ∀ type ∈ o.types, type ∉ u.types
deriving Decidable

theorem OutboxRow.Apart.symm (apart : o.Apart u) : u.Apart o :=
  fun reconcile reconcile' same type listed listed' =>
    apart reconcile' reconcile same.symm type listed' listed

/-- Two results of which at most one is a reconcile of the resource. -/
def OutboxRow.Alone (o u : OutboxRow) : Prop :=
  o.taskType = .reconcile → u.taskType = .reconcile → o.resourceId ≠ u.resourceId
deriving Decidable

theorem OutboxRow.Alone.symm (alone : o.Alone u) : u.Alone o :=
  fun reconcile reconcile' same => alone reconcile' reconcile same.symm

def OutboxRow.keys (o : OutboxRow) : List (Uuid × String) :=
  if o.taskType = .reconcile then o.types.map fun type => (o.resourceId, type) else []

theorem proposed_keys (db : Db) (results : List OutboxRow) :
    (proposedConditions db results).map (·.ends) = results.flatMap (·.keys) := by
  unfold proposedConditions
  induction results with
  | nil => rfl
  | cons o rest ih =>
    rw [flatMap_cons, ← ih, filter_cons, OutboxRow.keys]
    by_cases reconcile : o.taskType = .reconcile
    · rw [if_pos (decide_eq_true reconcile), if_pos reconcile, flatMap_cons, map_append,
        OutboxRow.types, List.map_map, List.map_map]
      rfl
    · rw [if_neg (by simpa using reconcile), if_neg reconcile, nil_append]

theorem nodup_keys : o.keys.Nodup ↔ o.Once := by
  unfold OutboxRow.keys OutboxRow.Once
  split
  · rename_i reconcile
    rw [nodup_map_iff fun a b same => (Prod.ext_iff.mp same).2]
    exact ⟨fun h _ => h, fun h => h reconcile⟩
  · rename_i other
    exact iff_of_true nodup_nil fun h => absurd h other

theorem disjoint_keys : List.Disjoint o.keys u.keys ↔ o.Apart u := by
  unfold OutboxRow.keys OutboxRow.Apart
  constructor
  · intro disjoint reconcile reconcile' same type listed listed'
    rw [if_pos reconcile, if_pos reconcile', same] at disjoint
    exact disjoint (mem_map_of_mem listed) (mem_map_of_mem listed')
  · intro apart key listed listed'
    split at listed
    · split at listed'
      · rename_i reconcile reconcile'
        obtain ⟨type, there, rfl⟩ := mem_map.mp listed
        obtain ⟨type', there', same⟩ := mem_map.mp listed'
        obtain ⟨resource, rfl⟩ := Prod.ext_iff.mp same
        exact apart reconcile reconcile' resource.symm _ there there'
      · cases listed'
    · cases listed

theorem keysDistinct_iff (nodup : results.Nodup) : KeysDistinct db results ↔
      (∀ o ∈ results, o.Once) ∧ ∀ o ∈ results, ∀ u ∈ results, o ≠ u → o.Apart u := by
  rw [KeysDistinct, proposed_keys, nodup_flatMap]
  refine and_congr (forall₂_congr fun o _ => nodup_keys) ?_
  constructor
  · intro pairwise o listed u listed' ne
    have symm : Std.Symm (Function.onFun List.Disjoint OutboxRow.keys) :=
      ⟨fun _ _ h => List.Disjoint.symm h⟩
    exact disjoint_keys.mp (pairwise.forall listed listed' ne)
  · intro apart
    exact nodup.pairwise_of_forall_ne fun o listed u listed' ne =>
      disjoint_keys.mpr (apart o listed u listed' ne)

/-! ## What the outbox holds -/

/-- Every waiting result satisfies `P`, and any two are related by `R`. -/
def Waiting (P : OutboxRow → Prop) (R : OutboxRow → OutboxRow → Prop) (db : Db) : Prop :=
  (∀ o ∈ db.workOutbox, P o) ∧ ∀ o ∈ db.workOutbox, ∀ u ∈ db.workOutbox, o ≠ u → R o u

/-- The append adds a row. -/
def Adds (db : Db) (o : OutboxRow) : Prop :=
  o.task ∈ db.tasks ∧ db.workQueue.rows.any (tokenMatches o) = true ∧ ¬ db.workOutbox.Occupied o
deriving Decidable

/-- A row the step appends satisfies `P` and is related to all that wait. -/
def Appends (P : OutboxRow → Prop) (R : OutboxRow → OutboxRow → Prop) (db : Db) : Action → Prop
  | .appendOutbox o => Adds db o → P o ∧ ∀ u ∈ db.workOutbox, R o u
  | _ => True

instance (P : OutboxRow → Prop) (R : OutboxRow → OutboxRow → Prop) [DecidablePred P]
    [DecidableRel R] (db : Db) : DecidablePred (Appends P R db) := by
  intro a
  induction a using Action.casesOn <;> dsimp only [Appends] <;> infer_instance

theorem mem_submitResult : u ∈ (submitResult db o).workOutbox ↔ u ∈ db.workOutbox ∨ (u = o ∧ Adds db o) := by
  unfold submitResult appendOutbox Adds
  split
  · split
    · rename_i claimed token
      rw [mem_insertNew]
      simp [claimed, token]
    · rename_i fenced
      simp [fenced]
  · rename_i unclaimed
    simp [unclaimed]

/-- **One step keeps what holds of all waiting results exactly if its append does.** -/
theorem step_waiting (symm : ∀ {o u}, R o u → R u o)
    (h : Waiting P R db) (a : Action) : Waiting P R (step db a) ↔ Appends P R db a := by
  have other : ¬ a.allows db .append → Waiting P R (step db a) := by
    intro noAppend
    have subset := (step_effects db a).outbox_subset noAppend
    exact ⟨fun o after => h.1 o (subset o after),
      fun o after u after' => h.2 o (subset o after) u (subset u after')⟩
  cases a with
  | appendOutbox o =>
    have rows : ∀ u, u ∈ (step db (.appendOutbox o)).workOutbox ↔
        u ∈ db.workOutbox ∨ (u = o ∧ Adds db o) := fun u => mem_submitResult
    constructor
    · intro after adds
      have there := (rows o).mpr (.inr ⟨rfl, adds⟩)
      refine ⟨after.1 o there, fun u waiting => ?_⟩
      refine after.2 o there u ((rows u).mpr (.inl waiting)) ?_
      rintro rfl
      exact adds.2.2 ⟨o, waiting, rfl⟩
    · intro fits
      constructor
      · intro u after
        rcases (rows u).mp after with old | ⟨rfl, adds⟩
        · exact h.1 u old
        · exact (fits adds).1
      · intro u after v after' ne
        rcases (rows u).mp after with old | ⟨rfl, adds⟩ <;>
          rcases (rows v).mp after' with old' | ⟨rfl, adds'⟩
        · exact h.2 u old v old' ne
        · exact symm ((fits adds').2 u old)
        · exact (fits adds).2 v old'
        · exact absurd rfl ne
  | workQueueTakeBatch _ _ | workQueueReleaseBroker _ _ | workQueueReleaseTasks _ _ _ _
  | reapStaleWork _ _ _ _ | deleteUnclaimedWork _ _ _ _ | recountInflight _ =>
    exact iff_of_true (other fun h => by cases h) trivial
  | _ => exact iff_of_true (other fun h => h) trivial

/-- With room for all, a drain pops every waiting result. -/
theorem mem_popped_all (waiting : o ∈ db.workOutbox) :
    o ∈ popped db Scan.plain db.workOutbox.rows.length ShardRange.full := by
  refine Scan.mem_pick_of_room (length_filter_le _ _) ?_ rfl
  exact mem_filter.mpr ⟨waiting, ShardRange.full_covers _⟩

theorem batchesDistinct_iff : BatchesDistinct db ↔ Waiting OutboxRow.Once OutboxRow.Apart db := by
  constructor
  · intro distinct
    obtain ⟨once, apart⟩ := (keysDistinct_iff popped_nodup).mp (distinct Scan.plain _ ShardRange.full)
    exact ⟨fun o waiting => once o (mem_popped_all waiting), fun o waiting u waiting' =>
      apart o (mem_popped_all waiting) u (mem_popped_all waiting')⟩
  · rintro ⟨once, apart⟩ scan n range
    refine (keysDistinct_iff popped_nodup).mpr ⟨fun o listed => once o (popped_waiting o listed), ?_⟩
    exact fun o listed u listed' => apart o (popped_waiting o listed) u (popped_waiting u listed')

/-- No drain pops two reconcile results of one resource. -/
def BatchesAlone (db : Db) : Prop :=
  ∀ scan n range, ∀ o ∈ popped db scan n range, ∀ u ∈ popped db scan n range, o ≠ u → o.Alone u

theorem batchesAlone_iff : BatchesAlone db ↔ Waiting (fun _ => True) OutboxRow.Alone db := by
  constructor
  · intro alone
    exact ⟨fun _ _ => trivial, fun o waiting u waiting' =>
      alone _ _ _ o (mem_popped_all waiting) u (mem_popped_all waiting')⟩
  · rintro ⟨-, alone⟩ scan n range o listed u listed'
    exact alone o (popped_waiting o listed) u (popped_waiting u listed')

theorem along_waiting (symm : ∀ {o u}, R o u → R u o) (actions : List Action) :
    Along (fun db a => Waiting P R (step db a)) Db.empty actions ↔ Along (Appends P R) Db.empty actions := by
  refine Along.iff_keeps (fun db a _ _ h => step_waiting symm h a) .empty ?_
  exact ⟨fun o waiting => absurd waiting (notMem_empty o), fun o waiting => absurd waiting (notMem_empty o)⟩

/-- **No batch proposes a condition key twice, in any state of a run, exactly if every result
that is appended reports each type once and no type that a waiting reconcile result of its
resource reports.**  And no batch holds two reconcile results of one resource exactly if none
is appended while another waits. -/
theorem condition_keys_distinct (actions : List Action) :
    (Along (fun db a => BatchesDistinct (step db a)) Db.empty actions ↔
      Along (Appends OutboxRow.Once OutboxRow.Apart) Db.empty actions) ∧
    (Along (fun db a => BatchesAlone (step db a)) Db.empty actions ↔
      Along (Appends (fun _ => True) OutboxRow.Alone) Db.empty actions) := by
  simp only [batchesDistinct_iff, batchesAlone_iff]
  exact ⟨along_waiting OutboxRow.Apart.symm actions, along_waiting OutboxRow.Alone.symm actions⟩

end Keys

/-! ## One condition after the upsert -/

section Upsert

variable [Postgres] {db : Db} {rc : ResourceCondition}

/-- What a condition row says. -/
def ResourceCondition.entry (c : ResourceCondition) : ConditionEntry :=
  ⟨c.type, c.status, c.reason, c.message⟩

theorem conditions_primary : Table.Primary ResourceCondition.ends := fun _ _ h => h

theorem overwriteCondition_key (c rc : ResourceCondition) :
    Keyed.key (overwriteCondition c rc) = Keyed.key rc := rfl

/-- One proposed row says what it proposes afterwards, and leaves the others. -/
theorem upsertCondition_says {s s' : ConditionUpsert} {c : ResourceCondition}
    (done : upsertCondition db s c = some s') (after : rc ∈ s'.table) :
    (rc.ends = c.ends ∧ rc.entry = c.entry) ∨ (rc ∈ s.table ∧ rc.ends ≠ c.ends) := by
  simp only [upsertCondition] at done
  split at done
  · cases done
  · split at done
    · cases done
    · split at done
      · rename_i free
        obtain rfl := some.inj done
        rcases mem_insertNew.mp after with old | ⟨rfl, -⟩
        · refine .inr ⟨old, fun same => ?_⟩
          have found := lookup_of_mem conditions_primary old
          rw [same] at found
          cases found.symm.trans free
        · exact .inl ⟨rfl, rfl⟩
      · rename_i stored found
        obtain ⟨there, key⟩ := mem_of_lookup found
        split at done
        · -- nothing to write: the row already says so
          rename_i unchanged
          obtain rfl := some.inj done
          by_cases same : rc.ends = c.ends
          · obtain rfl := eq_of_pk conditions_primary after there (same.trans key.symm)
            simp only [Bool.and_eq_true, decide_eq_true_eq] at unchanged
            obtain ⟨⟨⟨status, reason⟩, message⟩, -⟩ := unchanged
            have type : rc.type = c.type := (Prod.ext_iff.mp same).2
            refine .inl ⟨same, ?_⟩
            rw [ResourceCondition.entry, status, reason, message, type]
            rfl
          · exact .inr ⟨after, same⟩
        · obtain rfl := some.inj done
          have after : rc ∈ s.table.updateWhere
              (fun rc => (rc.resourceId, rc.type) = (c.resourceId, c.type)) (overwriteCondition c)
              (overwriteCondition_key c) := after
          rw [mem_updateWhere] at after
          obtain ⟨rc₀, old, rfl⟩ := after
          split
          · rename_i same
            have same : rc₀.ends = c.ends := of_decide_eq_true same
            have type : rc₀.type = c.type := (Prod.ext_iff.mp same).2
            refine .inl ⟨same, ?_⟩
            rw [ResourceCondition.entry, ResourceCondition.entry, ← type]
            rfl
          · rename_i other
            exact .inr ⟨old, fun same => other (decide_eq_true same)⟩

/-- After the statement a row says what was proposed for its key, if anything was. -/
theorem upsertConditions_say {proposed : List ResourceCondition} {s s' : ConditionUpsert}
    (done : proposed.foldlM (upsertCondition db) s = some s') (after : rc ∈ s'.table) :
    (∃ c ∈ proposed, rc.ends = c.ends ∧ rc.entry = c.entry) ∨
      (rc ∈ s.table ∧ ∀ c ∈ proposed, rc.ends ≠ c.ends) := by
  induction proposed generalizing s with
  | nil =>
    obtain rfl := some.inj done
    exact .inr ⟨after, fun c listed => nomatch listed⟩
  | cons c rest ih =>
    rw [foldlM_cons] at done
    obtain ⟨next, first, later⟩ := bind_eq_some_iff.mp done
    rcases ih later with ⟨c', listed, found⟩ | ⟨between, others⟩
    · exact .inl ⟨c', .tail _ listed, found⟩
    · rcases upsertCondition_says first between with found | ⟨before, ne⟩
      · exact .inl ⟨c, .head _, found⟩
      · exact .inr ⟨before, forall_mem_cons.mpr ⟨ne, others⟩⟩

end Upsert

/-! ## An advancing success -/

section Success

variable [Postgres] {db db' : Db} {scan rowScan : Scan Uuid} {order : Nat → Nat} {n : Nat}
  {range : ShardRange} {o : OutboxRow}

/-- `o` is the only reconcile result of its resource among `results`. -/
def Sole (results : List OutboxRow) (o : OutboxRow) : Prop :=
  ∀ u ∈ results, u.taskType = .reconcile → u.resourceId = o.resourceId → u = o
deriving Decidable

/-- Every `False` condition left of the resource of `o` is one that `o` reported. -/
def OnlyReported (db : Db) (o : OutboxRow) : Prop :=
  ∀ rc ∈ db.conditions, rc.resourceId = o.resourceId → rc.status = "False" → rc.entry ∈ o.conditions.getD []
deriving Decidable

/-- The row a reconcile that advances records: the conditions are those its reactions
reported, and its health follows from them. -/
theorem recorded_advances {m : ManifestDoc} {t : WorkTask} {env : ReactionEnv}
    (engine : recorded m t env (reactReconcile m t env) = some o) (succeeded : o.succeeded = true)
    (advances : o.advanceSyncedGen = true)
    (sound : ∀ c ∈ o.conditions.getD [], c.type = "Ready" → c.status ≠ "False") :
    o.task = t ∧ o.failed = false ∧ o.healthOk = if o.conditions = none then none else some true := by
  obtain ⟨-, -, g, advance, -, -, -, rfl⟩ := reactReconcile_ok (recorded_success engine succeeded)
  obtain rfl : advance = true := advances
  have conditions : (reconcileRow t g true).conditions = marshalConditions g.conditions :=
    derive_conditions _ _
  have same : (marshalConditions g.conditions).getD [] = g.conditions := by
    unfold marshalConditions
    split
    · rename_i none
      exact none.symm
    · rfl
  rw [conditions, same] at sound
  refine ⟨rfl, rfl, (derive_health sound).trans ?_⟩
  rw [conditions, marshalConditions]
  split <;> simp

/-- With a sole result, the conditions of its resource come out as reported. -/
theorem onlyReported_of_sole (sole : Sole results o) (listed : o ∈ results)
    (reconcile : o.taskType = .reconcile) (succeeded : o.succeeded = true)
    (advances : o.advanceSyncedGen = true) (done : recordConditions db results = some db') :
    OnlyReported db' o := by
  obtain ⟨s, upserted, rfl⟩ := Option.map_eq_some_iff.mp done
  intro rc after mine false_
  obtain ⟨there, kept⟩ := Table.mem_deleteWhere.mp after
  -- the recovery left the row, so its type is reported
  have typed : ∃ c ∈ o.conditions.getD [], c.type = rc.type := by
    by_contra unreported
    have gone : recovered results rc = true := by
      simp only [recovered, Bool.and_eq_true, decide_eq_true_eq, List.any_eq_true, Bool.not_eq_true',
        List.any_eq_false]
      refine ⟨false_, o, listed, ⟨⟨⟨⟨reconcile, succeeded⟩, advances⟩, mine.symm⟩, ?_⟩⟩
      exact fun c reported same => unreported ⟨c, reported, same⟩
    rw [kept] at gone
    cases gone
  have proposes : ∀ c : ResourceCondition, c ∈ proposedConditions db results ↔
      ∃ u ∈ results, u.taskType = .reconcile ∧ ∃ e ∈ u.conditions.getD [],
        c = ⟨u.resourceId, e.type, e.status, e.reason, e.message, u.observedGeneration, db.now⟩ := by
    intro c
    simp only [proposedConditions, List.mem_flatMap, List.mem_filter, decide_eq_true_eq, List.mem_map,
      and_assoc, eq_comm (b := c)]
  rcases upsertConditions_say upserted there with ⟨c, proposed, key, says_⟩ | ⟨-, none⟩
  · obtain ⟨u, popped, type, e, reported, rfl⟩ := (proposes c).mp proposed
    have same : u.resourceId = o.resourceId := (Prod.ext_iff.mp key).1.symm.trans mine
    obtain rfl := sole u popped type same
    rw [says_]
    exact reported
  · obtain ⟨e, reported, type⟩ := typed
    refine absurd ?_ (none _ ((proposes _).mpr ⟨o, listed, reconcile, e, reported, rfl⟩))
    exact Prod.ext mine type.symm

/-- With a sole result, the row of its resource takes what the result says of health. -/
theorem health_of_sole (sole : Sole results o) (listed : o ∈ results)
    (reconcile : o.taskType = .reconcile) (succeeded : o.succeeded = true) {r' : Resource}
    (after : r' ∈ (applyResults db results).resources) (mine : r'.id = o.resourceId) :
    ∃ r ∈ db.resources, r.id = r'.id ∧ r'.healthOk = o.healthOk.getD r.healthOk := by
  obtain ⟨r, here, rfl⟩ := applyResults_row after
  have kept : r.id = ((resultFor results r).elim r (applyResult db · r)).id := by
    cases resultFor results r <;> rfl
  have same : r.id = o.resourceId := kept.trans mine
  refine ⟨r, here, kept, ?_⟩
  cases found : resultFor results r with
  | none =>
    -- nothing to change: the result agrees with the row, or is silent
    have unchanged := find?_eq_none.mp found o listed
    simp only [reconcile, same, decide_true, Bool.true_and, Bool.not_eq_true] at unchanged
    simp only [changesRow, succeeded, Bool.true_and, Bool.or_eq_false_iff] at unchanged
    have agrees := unchanged.1.1.1.1.2
    cases health : o.healthOk with
    | none => rfl
    | some h =>
      rw [health] at agrees
      have same : h = r.healthOk := by simpa using agrees
      rw [same]
      rfl
  | some u =>
    obtain ⟨popped, type, of_⟩ := resultFor_listed found
    obtain rfl := sole u popped type (of_.trans same)
    simp only [elim_some, applyResult, succeeded, if_true]

/-- **An advancing success that is alone in its batch leaves its row healthy, with no `False`
condition but those it reported, exactly if it reported some condition or the row was healthy
before.**  The result is any the engine records, from reactions that reported no
`Ready=False`; the history of the row is any that leads to a reachable state. -/
theorem success_clears (reachable : Reachable db) {m : ManifestDoc} {t : WorkTask} {env : ReactionEnv}
    (reconcile : t.taskType = .reconcile) (engine : recorded m t env (reactReconcile m t env) = some o)
    (succeeded : o.succeeded = true) (advances : o.advanceSyncedGen = true)
    (sound : ∀ c ∈ o.conditions.getD [], c.type = "Ready" → c.status ≠ "False")
    (listed : o ∈ popped db scan n range) (sole : Sole (popped db scan n range) o)
    (done : drainOutboxBatch db scan rowScan order n range = some db') {r r' : Resource}
    (here : r ∈ db.resources) (mine : r.id = o.resourceId) (after : r' ∈ db'.resources) (same : r'.id = r.id) :
    (r'.healthOk = true ∧ OnlyReported db' o) ↔ (o.conditions ≠ none ∨ r.healthOk = true) := by
  obtain ⟨rfl, -, health⟩ := recorded_advances engine succeeded advances sound
  obtain ⟨mid, run, -, recorded⟩ := drainOutboxBatch_stages
    (drainable_tears (popped db scan n range) db) (ne_nil_of_mem listed) done
  have conditions := onlyReported_of_sole sole listed reconcile succeeded advances recorded
  obtain ⟨s, -, rfl⟩ := map_eq_some_iff.mp recorded
  obtain ⟨r₁, between, id₁, takes⟩ := health_of_sole sole listed reconcile succeeded after (same.trans mine)
  -- nothing before the results touches the health of a row
  have noResult : ∀ rs, ¬ Label.Tears (popped db scan n range) (.row (.result rs)) := by
    intro rs tears
    exact tears.2 rs rfl
  obtain ⟨r₀, before, id₀, unreported⟩ := run.tracks (respects_unreported noResult) between
    (by rw [id₁, same]; exact reachable.named r here)
  obtain rfl := eq_of_pk resource_primary before here (id₀.trans (id₁.trans same))
  rw [takes, health, unreported.healthOk]
  by_cases silent : o.conditions = none
  · simp [silent, conditions]
  · simp [silent, conditions]

end Success

def reporting (conditions : List ConditionEntry) : ReactionEnv :=
  { smooth 0 true [] with
    worker := fun _ _ => .ran (.ok { Outcome.empty with conditions := conditions }) }

/-- What the engine records for `t` when its reactions report `conditions`. -/
def reports (m : ManifestDoc) (conditions : List ConditionEntry) (t : WorkTask) : List Action :=
  ((recorded m t (reporting conditions) (reactReconcile m t (reporting conditions))).map
    fun row => Action.appendOutbox row).toList

def workManifest : ManifestDoc :=
  ⟨"app", 1, [⟨"work", .specChange, [.status, .conditions], "", ""⟩], "", 0, 0, 0, false, 0, 0, false⟩

/-- The queue row of the root expires while `first` waits, and the root is run again. -/
def expiring (first : WorkTask → List Action) : Script :=
  [fun _ => [applyRoot "app" "a", claimAll "b" "app" .reconcile], fun db => db.tasks.flatMap first,
    fun _ => [.workQueueReleaseBroker Scan.plain "b", .tick 1,
      .deleteUnclaimedWork Scan.plain 0 10 ShardRange.full, .requeueFailedAndPending 0 10 [0],
      claimAll "b" "app" .reconcile]]

/-- A worker reports health and its quota, and fails the next time. -/
theorem condition_keys_distinct_worker : letI := counting
    let script : Script := [fun _ => [applyRoot "app" "a", claimAll "b" "app" .reconcile],
      fun db => db.tasks.flatMap
        (reports workManifest [⟨"Ready", "True", "", ""⟩, ⟨"Quota", "False", "Low", ""⟩]),
      fun _ => [drainAll, .reconcile 0, claimAll "b" "app" .reconcile],
      fun db => db.tasks.map fun t => .appendOutbox (recordFailedTerminal workManifest t "quota" false)]
    let actions := script.play Db.empty
    (run Db.empty actions).workOutbox.rows.length = 1 ∧ (run Db.empty actions).conditions.rows.length = 2 ∧
        Along (fun db a => BatchesDistinct (step db a)) Db.empty actions := by
  intro script actions
  have facts : letI := counting
      (run Db.empty actions).workOutbox.rows.length = 1 ∧ (run Db.empty actions).conditions.rows.length = 2 ∧
          Along (Appends OutboxRow.Once OutboxRow.Apart) Db.empty actions := by
    decide +kernel
  exact ⟨facts.1, facts.2.1, ((@condition_keys_distinct counting actions).1).mpr facts.2.2⟩

/-- The reactions of one reconcile all report `Ready`; or a failure waits while its queue row
expires and the next task of the root fails too.  The batch proposes a key twice, and the
drain fails. -/
theorem condition_keys_clash : letI := counting
    let doubled : Script := [fun _ => [applyRoot "app" "a", claimAll "b" "app" .reconcile],
      fun db => db.tasks.flatMap (reports fullManifest [⟨"Ready", "True", "", ""⟩])]
    let fails : WorkTask → List Action := fun t =>
      [.appendOutbox (recordFailedTerminal fullManifest t "work reaction \"work\": quota" false)]
    let twice := expiring fails ++ [fun db => db.tasks.flatMap fails]
    ∀ script ∈ [doubled, twice],
      let db := run Db.empty (script.play Db.empty)
      ¬ KeysDistinct db (popped db Scan.plain 100 ShardRange.full) ∧
        (drainOutboxBatch db Scan.plain Scan.plain id 100 ShardRange.full).isNone = true := by
  decide +kernel

/-- A root reports that it is not ready, is drained, and is run again. -/
def recovering (conditions : List ConditionEntry) : Script :=
  [fun _ => [applyRoot "app" "a", claimAll "b" "app" .reconcile],
    fun db => db.tasks.flatMap (reports workManifest [⟨"Ready", "False", "Down", ""⟩]),
    fun _ => [drainAll, .reconcile 0, claimAll "b" "app" .reconcile],
    fun db => db.tasks.flatMap (reports workManifest conditions)]

/-- `o` is an advancing success of the engine, reported with `conditions`, that waits. -/
def Reported (db : Db) (conditions : List ConditionEntry) (o : OutboxRow) : Prop :=
  o.succeeded = true ∧ o.advanceSyncedGen = true ∧
    (∀ c ∈ o.conditions.getD [], c.type = "Ready" → c.status ≠ "False") ∧
    ∃ t ∈ db.tasks, t.taskType = .reconcile ∧ recorded workManifest t (reporting conditions)
        (reactReconcile workManifest t (reporting conditions)) = some o
deriving Decidable

/-- The root reports that it is ready again: it is healthy, and nothing is `False`. -/
theorem success_clears_ready : letI := counting
    let db := run Db.empty ((recovering [⟨"Ready", "True", "", ""⟩]).play Db.empty)
    (∃ r ∈ db.resources.rows, r.id = 0 ∧ r.healthOk = false) ∧
      ∃ db', drainOutboxBatch db Scan.plain Scan.plain id 100 ShardRange.full = some db' ∧
        ∃ r' ∈ db'.resources, r'.id = 0 ∧ r'.healthOk = true := by
  intro db
  have reachable : @Reachable counting db := ⟨_, rfl⟩
  have facts : letI := counting
      (∃ r ∈ db.resources.rows, r.id = 0 ∧ r.healthOk = false) ∧
        (∃ o ∈ popped db Scan.plain 100 ShardRange.full, o.resourceId = 0 ∧ o.conditions ≠ none ∧
          Sole (popped db Scan.plain 100 ShardRange.full) o ∧ Reported db [⟨"Ready", "True", "", ""⟩] o) ∧
        (drainOutboxBatch db Scan.plain Scan.plain id 100 ShardRange.full).any
          (fun db' => db'.resources.rows.any (·.id = 0)) = true := by
    decide +kernel
  obtain ⟨⟨r, here, root, sick⟩, ⟨o, listed, mine, said, sole, succeeded, advances, sound, t, -,
    reconcile, engine⟩, drains⟩ := facts
  obtain ⟨db', done, kept⟩ := (any_eq_true _ _).mp drains
  obtain ⟨r', after, root'⟩ := any_eq_true.mp kept
  have root' : r'.id = 0 := of_decide_eq_true root'
  have cleared := @success_clears counting db db' Scan.plain Scan.plain id 100 ShardRange.full o
    reachable workManifest t _ reconcile engine succeeded advances sound listed sole done r r' here
    (root.trans mine.symm) after (root'.trans root.symm)
  exact ⟨⟨r, here, root, sick⟩, db', done, r', after, root', (cleared.mpr (.inl said)).1⟩

/-- The same root reports nothing at all and stays unhealthy; and a root whose first result,
not ready, is drained together with a later one that has only its quota to report. -/
theorem success_stays_unhealthy : letI := counting
    let quota : List ConditionEntry := [⟨"Quota", "True", "", ""⟩]
    let together : Script := expiring (reports workManifest [⟨"Ready", "False", "Down", ""⟩]) ++
      [fun db => db.tasks.flatMap (reports workManifest quota)]
    ∀ case ∈ [(recovering [], []), (together, quota)],
      let db := run Db.empty (case.1.play Db.empty)
      let oldest : Scan Uuid := ⟨id, fun _ => false⟩
      let after := run db [.drainOutboxBatch oldest Scan.plain id 100 ShardRange.full]
      (∃ o ∈ popped db oldest 100 ShardRange.full, o.resourceId = 0 ∧ Reported db case.2 o) ∧
        ∃ r ∈ after.resources.rows, r.id = 0 ∧ r.syncedGen = r.generation ∧ r.healthOk = false ∧
          after.workOutbox.rows = [] := by
  decide +kernel

end Converge.Kernel
