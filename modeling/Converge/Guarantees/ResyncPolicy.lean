/-
# Guarantees.ResyncPolicy -- whose interval a resync waits for

Drift detection is configured by kind and version.  The control plane reads all rows of
`kind_config`, oldest version first, and keeps one entry per kind: where several versions of
a kind have an interval, the last of them writes the entry.  The sweep, and the SQL function
it calls, know the kind only, so every version is swept at that interval and recomposed, or
not, as that version says.

`resync_follows_policies` is exact: resyncs follow the policies of the rows they re-pend, at
any time, if and only if every settled row that is free to be re-pended has an interval of its
own, not longer than that of the last version, and recomposes if that version does.
-/
import Converge.Guarantees.DeadLetter

namespace Converge.Kernel

open Converge.Theory List Table

set_option autoImplicit false
set_option linter.unusedSectionVars false

/-! ## The resyncer -/

structure ResyncKind where
  interval : Nat
  recompose : Bool
  deriving DecidableEq

/-- The map of opted-in kinds. -/
abbrev ResyncKinds := List (String × ResyncKind)

/-- `kinds[kind] = rk`. -/
def ResyncKinds.set (kinds : ResyncKinds) (kind : String) (rk : ResyncKind) : ResyncKinds :=
  kinds.filter (·.1 ≠ kind) ++ [(kind, rk)]

/-- `ListKindConfig`: `ORDER BY kind, kind_version`. -/
def listKindConfig (db : Db) : List KindConfig :=
  db.kindConfig.rows.insertionSort fun a b =>
    a.kind < b.kind ∨ a.kind = b.kind ∧ a.kindVersion ≤ b.kindVersion

/-- The loop of `NewControlPlane` and of `refreshResyncKinds`. -/
def resyncKinds (rows : List KindConfig) : ResyncKinds :=
  rows.foldl (fun kinds kc =>
    if 0 < kc.resyncIntervalSecs then
      kinds.set kc.kind ⟨kc.resyncIntervalSecs, kc.resyncRecomposes⟩
    else kinds) []

/-- What `NewResyncer` and `SetKinds` keep of a map. -/
def enabledKinds (kinds : ResyncKinds) : ResyncKinds := kinds.filter fun e => 0 < e.2.interval

structure Resyncer where
  kinds : ResyncKinds
  batchSize : Nat

/-- `NewResyncer`: none without an opted-in kind. -/
def newResyncer (kinds : ResyncKinds) : Option Resyncer :=
  if enabledKinds kinds = [] then none else some ⟨enabledKinds kinds, 500⟩

def Resyncer.setKinds (rs : Resyncer) (kinds : ResyncKinds) : Resyncer :=
  { rs with kinds := enabledKinds kinds }

section Sweep

variable [Postgres]

/-- One turn of the loop of `tick`: `RequeueForResync`, which asks for a second at least. -/
def Resyncer.requeue (rs : Resyncer) (shards : List Nat) (db : Db) (e : String × ResyncKind) : Db :=
  requeueForResync db e.1 (max 1 e.2.interval) rs.batchSize shards e.2.recompose

/-- `tick`, over a snapshot of the map in the order Go happens to range over it.  A call that
fails ends the tick: `calls` of them go through. -/
def Resyncer.tick (rs : Resyncer) (order : Nat → Nat) (calls : Nat) (shards : List Nat) (db : Db) : Db :=
  ((shuffle order rs.kinds).take calls).foldl (rs.requeue shards) db

/-! ## Policies -/

/-- When the row was looked at last. -/
def Resource.lastLook (r : Resource) : Time := r.lastReconciledAt.getD r.updatedAt

/-- The configuration of the row's own kind and version. -/
def ownConfig (db : Db) (r : Resource) : Option KindConfig := db.kindConfig? r.kind r.kindVersion

/-- The resyncer was built, or refreshed, from the stored configuration. -/
def Resyncer.Serves (rs : Resyncer) (db : Db) : Prop :=
  newResyncer (resyncKinds (listKindConfig db)) = some rs ∨
    ∃ old : Resyncer, old.setKinds (resyncKinds (listKindConfig db)) = rs

/-- Ticks of a resyncer for the stored configuration, whenever they run: a row is re-pended
only after the interval its own version has, and loses its composed generation only if its own
version recomposes. -/
def FollowsPolicies (db : Db) : Prop :=
  ∀ rs : Resyncer, rs.Serves db → ∀ now order calls shards,
    let before := { db with now := now }
    let after := rs.tick order calls shards before
    ∀ r ∈ db.resources, (reconcileQueued before r.id = false → reconcileQueued after r.id = true →
        ∃ c ∈ ownConfig db r, 0 < c.resyncIntervalSecs ∧ r.lastLook + c.resyncIntervalSecs < now) ∧
      ∀ r' ∈ after.resources, r'.id = r.id → r'.composedGen ≠ r.composedGen →
        ∃ c ∈ ownConfig db r, c.resyncRecomposes = true

/-- The version of a kind that writes its entry: the last with an interval. -/
def lastResynced (rows : List KindConfig) (kind : String) : Option KindConfig :=
  (rows.filter fun c => c.kind = kind && 0 < c.resyncIntervalSecs).getLast?

/-- Settled, neither marked nor frozen, and not queued. -/
def resyncable (db : Db) (r : Resource) : Bool :=
  !r.marked && !r.frozen && r.generation ≤ r.syncedGen && !reconcileQueued db r.id

/-- Every row that is free to be re-pended has an interval, no longer than that of the last
version of its kind, and recomposes if that does. -/
def PoliciesAgree (db : Db) : Prop :=
  ∀ r ∈ db.resources.rows, resyncable db r = true → ∀ w ∈ lastResynced (listKindConfig db) r.kind,
    ∃ c ∈ ownConfig db r, 0 < c.resyncIntervalSecs ∧ c.resyncIntervalSecs ≤ w.resyncIntervalSecs ∧
      (w.resyncRecomposes = true → r.composedGen ≠ 0 → c.resyncRecomposes = true)
deriving Decidable

end Sweep

/-! ## The map -/

section Map

variable {kinds : ResyncKinds} {kind : String} {rk : ResyncKind} {e : String × ResyncKind}
  {rows : List KindConfig}

theorem ResyncKinds.mem_set : e ∈ kinds.set kind rk ↔ e ∈ kinds ∧ e.1 ≠ kind ∨ e = (kind, rk) := by
  simp only [ResyncKinds.set, mem_append, mem_filter, decide_eq_true_eq, mem_singleton]

theorem ResyncKinds.keys_set (keys : (kinds.map (·.1)).Nodup) : ((kinds.set kind rk).map (·.1)).Nodup := by
  rw [ResyncKinds.set, map_append, nodup_append]
  refine ⟨keys.sublist (filter_sublist.map _), nodup_singleton _, ?_⟩
  rintro k listed k' last rfl
  obtain ⟨e, kept, rfl⟩ := mem_map.mp listed
  exact of_decide_eq_true (mem_filter.mp kept).2 (mem_singleton.mp last)

theorem resyncKinds_snoc (rows : List KindConfig) (c : KindConfig) : resyncKinds (rows ++ [c]) =
      if 0 < c.resyncIntervalSecs then
        (resyncKinds rows).set c.kind ⟨c.resyncIntervalSecs, c.resyncRecomposes⟩
      else resyncKinds rows := by
  rw [resyncKinds, foldl_append]
  rfl

theorem resyncKinds_keys (rows : List KindConfig) : ((resyncKinds rows).map (·.1)).Nodup := by
  induction rows using List.reverseRecOn with
  | nil => exact nodup_nil
  | append_singleton rows c ih =>
    rw [resyncKinds_snoc]
    split
    · exact ResyncKinds.keys_set ih
    · exact ih

/-- The entry of a kind is what its last version with an interval says. -/
theorem mem_resyncKinds : e ∈ resyncKinds rows ↔
    ∃ w ∈ lastResynced rows e.1, e.2 = ⟨w.resyncIntervalSecs, w.resyncRecomposes⟩ := by
  induction rows using List.reverseRecOn with
  | nil =>
    constructor
    · intro listed
      cases listed
    · rintro ⟨w, last, -⟩
      cases last
  | append_singleton rows c ih =>
    rw [resyncKinds_snoc, lastResynced, filter_append, filter_singleton]
    by_cases mine : c.kind = e.1 ∧ 0 < c.resyncIntervalSecs
    · -- the last row of all writes the entry
      rw [if_pos mine.2, ResyncKinds.mem_set, decide_eq_true mine.1, decide_eq_true mine.2, Bool.and_self,
        cond_true, getLast?_concat]
      constructor
      · rintro (⟨-, other⟩ | rfl)
        · exact absurd mine.1.symm other
        · exact ⟨c, rfl, rfl⟩
      · rintro ⟨w, last, same⟩
        obtain rfl := Option.some.inj last
        exact .inr (Prod.ext mine.1.symm same)
    · have skipped : (decide (c.kind = e.1) && decide (0 < c.resyncIntervalSecs)) = false := by
        simpa only [Bool.and_eq_false_iff, decide_eq_false_iff_not, not_and_or] using mine
      rw [skipped, cond_false, append_nil]
      split
      · rename_i positive
        rw [ResyncKinds.mem_set, ih]
        constructor
        · rintro (⟨before, -⟩ | rfl)
          · exact before
          · exact absurd ⟨rfl, positive⟩ mine
        · intro before
          exact .inl ⟨before, fun same => mine ⟨same.symm, positive⟩⟩
      · exact ih

/-- All entries are enabled, so both filters keep the map. -/
theorem enabledKinds_resyncKinds (rows : List KindConfig) :
    enabledKinds (resyncKinds rows) = resyncKinds rows := by
  refine filter_eq_self.mpr fun e listed => decide_eq_true ?_
  obtain ⟨w, last, same⟩ := mem_resyncKinds.mp listed
  have kept := (mem_filter.mp (mem_of_getLast? last)).2
  rw [same]
  exact of_decide_eq_true ((Bool.and_eq_true _ _).mp kept).2

end Map

/-! ## One call -/

section Call

variable [Postgres] {db : Db} {kind : String} {secs n : Nat} {shards : List Nat} {recompose : Bool}
  {r r' : Resource}

theorem mem_resyncPicked (picked : r ∈ resyncPicked db kind secs n shards) :
    r ∈ db.resources ∧ resyncDue db kind secs shards r = true :=
  mem_filter.mp (Scan.mem_of_mem_pick picked)

def resynced (now : Time) (recompose : Bool) (r : Resource) : Resource :=
  { r with
    lastReconciledAt := some now
    composedGen := if recompose then 0 else r.composedGen }

theorem resynced_key (now : Time) (recompose : Bool) (r : Resource) :
    Keyed.key (resynced now recompose r) = Keyed.key r := rfl

theorem requeueForResync_stages (db : Db) (kind : String) (secs n : Nat) (shards : List Nat)
    (recompose : Bool) : requeueForResync db kind secs n shards recompose =
      (byId (resyncPicked db kind secs n shards)).foldl (enqueueNew .reconcile) { db with
        resources := db.resources.updateWhere
          (fun r => r.id ∈ (resyncPicked db kind secs n shards).map (·.id))
          (resynced db.now recompose) (resynced_key db.now recompose) } := by
  have still (r : Resource) : (resynced db.now recompose r).generation = r.generation ∧
      (resynced db.now recompose r).syncedGen = r.syncedGen ∧
      (resynced db.now recompose r).failureGen = r.failureGen ∧
      (resynced db.now recompose r).healthOk = r.healthOk := ⟨rfl, rfl, rfl, rfl⟩
  rw [← updateResources_still still]
  rfl

theorem mem_requeueForResync : r' ∈ (requeueForResync db kind secs n shards recompose).resources ↔
      ∃ r ∈ db.resources, (if r ∈ resyncPicked db kind secs n shards then
        resynced db.now recompose r else r) = r' := by
  rw [requeueForResync_stages, (enqueueAll_only _ _ _).resources, mem_updateWhere]
  refine exists_congr fun r => and_congr_right fun here => ?_
  have named : decide (r.id ∈ (resyncPicked db kind secs n shards).map (·.id)) = true ↔
      r ∈ resyncPicked db kind secs n shards := by
    rw [decide_eq_true_eq]
    constructor
    · intro listed
      obtain ⟨s, picked, same⟩ := mem_map.mp listed
      exact eq_of_pk resource_primary (mem_resyncPicked picked).1 here same ▸ picked
    · exact fun picked => mem_map_of_mem picked
  rw [if_congr named rfl rfl]

theorem queued_requeueForResync (named : QueueNamed db) (here : r ∈ db.resources) :
    reconcileQueued (requeueForResync db kind secs n shards recompose) r.id = true ↔
      reconcileQueued db r.id = true ∨ r ∈ resyncPicked db kind secs n shards := by
  rw [requeueForResync_stages, reconcileQueued_iff, reconcileQueued_iff]
  constructor
  · rintro ⟨q, after, resource, type⟩
    rcases mem_enqueueAll after with old | ⟨s, listed, -, of_, -⟩
    · exact .inl ⟨q, old, resource, type⟩
    · have picked := mem_byId.mp listed
      have one := eq_of_pk resource_primary (mem_resyncPicked picked).1 here (of_.symm.trans resource)
      exact .inr (one ▸ picked)
  · rintro (⟨q, old, resource, type⟩ | picked)
    · refine ⟨q, mem_enqueueAll_of_mem ?_ _, resource, type⟩
      exact old
    · refine enqueueAll_queued ?_ (mem_byId.mpr picked)
      exact named

theorem requeueForResync_now : (requeueForResync db kind secs n shards recompose).now = db.now := by
  rw [requeueForResync_stages, (enqueueAll_only _ _ _).now]

theorem requeueForResync_named (named : QueueNamed db) :
    QueueNamed (requeueForResync db kind secs n shards recompose) :=
  named.effects (requeueForResync_effects db kind secs n shards recompose)

theorem requeueForResync_other (named : QueueNamed db) (here : r ∈ db.resources) (other : r.kind ≠ kind) :
    r ∈ (requeueForResync db kind secs n shards recompose).resources ∧
      reconcileQueued (requeueForResync db kind secs n shards recompose) r.id = reconcileQueued db r.id := by
  have unpicked : r ∉ resyncPicked db kind secs n shards := by
    intro picked
    have due := (mem_resyncPicked picked).2
    simp only [resyncDue, Bool.and_eq_true, decide_eq_true_eq] at due
    exact other due.1.1.1.1.1.1
  refine ⟨mem_requeueForResync.mpr ⟨r, here, if_neg unpicked⟩, ?_⟩
  rw [Bool.eq_iff_iff, queued_requeueForResync named here]
  exact or_iff_left unpicked

end Call

/-! ## A tick -/

section Tick

variable [Postgres] (rs : Resyncer) (shards : List Nat) {entries : ResyncKinds} {db : Db} {r : Resource}
    {e : String × ResyncKind}

theorem resyncDue_congr {db' : Db} (now : db'.now = db.now)
    (queued : reconcileQueued db' r.id = reconcileQueued db r.id) (kind : String) (secs : Nat) :
    resyncDue db' kind secs shards r = resyncDue db kind secs shards r := by
  simp only [resyncDue, now, queued]

theorem requeue_other (named : QueueNamed db) (here : r ∈ db.resources)
    (other : e.1 ≠ r.kind) : r ∈ (rs.requeue shards db e).resources ∧
      reconcileQueued (rs.requeue shards db e) r.id = reconcileQueued db r.id ∧
      ∀ kind secs, resyncDue (rs.requeue shards db e) kind secs shards r = resyncDue db kind secs shards r := by
  obtain ⟨kept, queued⟩ := requeueForResync_other named here (Ne.symm other)
  exact ⟨kept, queued, resyncDue_congr shards requeueForResync_now queued⟩

theorem requeue_own (here : r ∈ db.resources) :
    ∃ r₁ ∈ (rs.requeue shards db e).resources, r₁.id = r.id ∧ r₁.kind = r.kind ∧
      (r₁.composedGen ≠ r.composedGen → e.2.recompose = true ∧
        resyncDue db e.1 (max 1 e.2.interval) shards r = true) := by
  refine ⟨_, mem_requeueForResync.mpr ⟨r, here, rfl⟩, ?_⟩
  split
  · rename_i picked
    refine ⟨rfl, rfl, fun moved => ⟨?_, (mem_resyncPicked picked).2⟩⟩
    by_contra kept
    exact moved (if_neg kept)
  · exact ⟨rfl, rfl, fun moved => absurd rfl moved⟩

/-- Over the entries of a map, the row is touched by the call of its own kind only. -/
theorem tick_touches (keys : (entries.map (·.1)).Nodup) (named : QueueNamed db) (here : r ∈ db.resources) :
    (reconcileQueued (entries.foldl (rs.requeue shards) db) r.id = true →
      reconcileQueued db r.id = true ∨ ∃ e ∈ entries, e.1 = r.kind ∧
        resyncDue db e.1 (max 1 e.2.interval) shards r = true) ∧
    ∀ r' ∈ (entries.foldl (rs.requeue shards) db).resources, r'.id = r.id →
      r'.composedGen ≠ r.composedGen → ∃ e ∈ entries, e.1 = r.kind ∧ e.2.recompose = true ∧
        resyncDue db e.1 (max 1 e.2.interval) shards r = true := by
  induction entries generalizing db r with
  | nil =>
    refine ⟨.inl, fun r' after same moved => absurd ?_ moved⟩
    rw [eq_of_pk resource_primary after here same]
  | cons e rest ih =>
    obtain ⟨fresh, keys⟩ := nodup_cons.mp keys
    have namedNext : QueueNamed (rs.requeue shards db e) := requeueForResync_named named
    by_cases mine : e.1 = r.kind
    · -- the later calls are of other kinds
      obtain ⟨r₁, there, id₁, kind₁, moves⟩ := requeue_own rs shards here
      obtain ⟨queues, composes⟩ := ih keys namedNext there
      have others {e' : String × ResyncKind} (listed : e' ∈ rest) : e'.1 ≠ r₁.kind := by
        intro same
        rw [kind₁, ← mine] at same
        exact fresh (mem_map.mpr ⟨e', listed, same⟩)
      constructor
      · intro queued
        rw [← id₁] at queued
        rcases queues queued with now | ⟨e', listed, same, -⟩
        · rw [id₁] at now
          rcases (queued_requeueForResync named here).mp now with before | picked
          · exact .inl before
          · exact .inr ⟨e, mem_cons_self, mine, (mem_resyncPicked picked).2⟩
        · exact absurd same (others listed)
      · intro r' after same moved
        by_cases still : r'.composedGen = r₁.composedGen
        · obtain ⟨recompose, due⟩ := moves (still ▸ moved)
          exact ⟨e, mem_cons_self, mine, recompose, due⟩
        · obtain ⟨e', listed, kind, -⟩ := composes r' after (same.trans id₁.symm) still
          exact absurd kind (others listed)
    · obtain ⟨kept, queued, due⟩ := requeue_other rs shards named here mine
      obtain ⟨queues, composes⟩ := ih keys namedNext kept
      constructor
      · intro later
        rcases queues later with now | ⟨e', listed, kind, isDue⟩
        · exact .inl (queued ▸ now)
        · exact .inr ⟨e', .tail _ listed, kind, due _ _ ▸ isDue⟩
      · intro r' after same moved
        obtain ⟨e', listed, kind, recompose, isDue⟩ := composes r' after same moved
        exact ⟨e', .tail _ listed, kind, recompose, due _ _ ▸ isDue⟩

/-- What the calls of a tick leave: rows, and rows that are queued, stay so, and a composed
generation that is gone is not set. -/
theorem tick_keeps (entries : ResyncKinds) (named : QueueNamed db) (here : r ∈ db.resources) :
    (reconcileQueued db r.id = true → reconcileQueued (entries.foldl (rs.requeue shards) db) r.id = true) ∧
    ∃ r' ∈ (entries.foldl (rs.requeue shards) db).resources, r'.id = r.id ∧
      (r.composedGen = 0 → r'.composedGen = 0) := by
  induction entries generalizing db r with
  | nil => exact ⟨fun h => h, r, here, rfl, fun h => h⟩
  | cons e rest ih =>
    have there : ∃ r₁ ∈ (rs.requeue shards db e).resources, r₁.id = r.id ∧
        (r.composedGen = 0 → r₁.composedGen = 0) := by
      refine ⟨_, mem_requeueForResync.mpr ⟨r, here, rfl⟩, ?_⟩
      split
      · refine ⟨rfl, fun zero => ?_⟩
        simp only [resynced, zero, ite_self]
      · exact ⟨rfl, fun zero => zero⟩
    obtain ⟨r₁, there, id₁, zero₁⟩ := there
    obtain ⟨queued, r', after, id', zero'⟩ := ih (requeueForResync_named named) there
    rw [id₁] at queued
    refine ⟨fun before => queued ((queued_requeueForResync named here).mpr (.inl before)), ?_⟩
    exact ⟨r', after, id'.trans id₁, fun zero => zero' (zero₁ zero)⟩

/-- With room for every row, a tick re-pends a row that is due at the entry of its kind, and
makes it compose again if the entry says so. -/
theorem tick_repends (room : db.resources.rows.length ≤ rs.batchSize) (keys : (entries.map (·.1)).Nodup)
    (named : QueueNamed db) (here : r ∈ db.resources) (listed : e ∈ entries)
    (mine : e.1 = r.kind) (due : resyncDue db e.1 (max 1 e.2.interval) shards r = true) :
    reconcileQueued (entries.foldl (rs.requeue shards) db) r.id = true ∧
      (e.2.recompose = true → ∃ r' ∈ (entries.foldl (rs.requeue shards) db).resources,
        r'.id = r.id ∧ r'.composedGen = 0) := by
  induction entries generalizing db r with
  | nil => cases listed
  | cons first rest ih =>
    obtain ⟨fresh, keys⟩ := nodup_cons.mp keys
    have namedNext : QueueNamed (rs.requeue shards db first) := requeueForResync_named named
    rcases mem_cons.mp listed with rfl | later
    · have picked : r ∈ resyncPicked db e.1 (max 1 e.2.interval) rs.batchSize shards :=
        Scan.mem_pick_of_room ((length_filter_le _ _).trans room) (mem_filter.mpr ⟨here, due⟩) rfl
      have there : resynced db.now e.2.recompose r ∈ (rs.requeue shards db e).resources :=
        mem_requeueForResync.mpr ⟨r, here, if_pos picked⟩
      obtain ⟨queued, r', after, same, zero⟩ := tick_keeps rs shards rest namedNext there
      refine ⟨queued ((queued_requeueForResync named here).mpr (.inr picked)), fun recompose => ?_⟩
      exact ⟨r', after, same, zero (if_pos recompose)⟩
    · have other : first.1 ≠ r.kind := by
        intro same
        rw [← mine] at same
        exact fresh (mem_map.mpr ⟨e, later, same.symm⟩)
      obtain ⟨kept, -, same⟩ := requeue_other rs shards named here other
      refine ih ?_ keys namedNext kept later mine ((same _ _).trans due)
      have rows : (rs.requeue shards db first).resources.rows.length = db.resources.rows.length := by
        rw [Resyncer.requeue, requeueForResync_stages, (enqueueAll_only _ _ _).resources]
        exact length_map _
      exact rows.le.trans room

end Tick

/-! ## Policies and ticks -/

section Policies

variable [Postgres] {db : Db} {r : Resource} {rs : Resyncer} {e : String × ResyncKind} {shards : List Nat}

theorem Resyncer.Serves.kinds (serves : rs.Serves db) : rs.kinds = resyncKinds (listKindConfig db) := by
  rcases serves with new | ⟨old, rfl⟩
  · rw [newResyncer, enabledKinds_resyncKinds] at new
    split at new
    · cases new
    · cases new
      rfl
  · exact enabledKinds_resyncKinds _

theorem resyncDue_iff {now : Time} {kind : String} {secs : Nat} :
    resyncDue { db with now := now } kind secs shards r = true ↔
      r.kind = kind ∧ shardOf r.id ∈ shards ∧ resyncable db r = true ∧ r.lastLook + secs < now := by
  simp only [resyncDue, resyncable, reconcileQueued, Resource.lastLook, Bool.and_eq_true, decide_eq_true_eq,
    Bool.not_eq_true']
  tauto

theorem Resyncer.Serves.mem_entries (serves : rs.Serves db) {order : Nat → Nat}
    {calls : Nat} (listed : e ∈ (shuffle order rs.kinds).take calls) :
    e ∈ resyncKinds (listKindConfig db) := by
  rw [← serves.kinds]
  exact mem_shuffle.mp (mem_of_mem_take listed)

theorem Resyncer.Serves.keys (serves : rs.Serves db) (order : Nat → Nat) (calls : Nat) :
    (((shuffle order rs.kinds).take calls).map (·.1)).Nodup := by
  have all : ((shuffle order rs.kinds).map (·.1)).Nodup := by
    rw [((shuffle_perm order rs.kinds).map _).nodup_iff, serves.kinds]
    exact resyncKinds_keys _
  exact all.sublist ((take_sublist _ _).map _)

/-- Where the policies agree, a row that is due at the entry of its kind is due at its own. -/
theorem PoliciesAgree.due (agree : PoliciesAgree db) (here : r ∈ db.resources)
    (entry : e ∈ resyncKinds (listKindConfig db)) (mine : e.1 = r.kind) {now : Time}
    (due : resyncDue { db with now := now } e.1 (max 1 e.2.interval) shards r = true) :
    ∃ c ∈ ownConfig db r, 0 < c.resyncIntervalSecs ∧ r.lastLook + c.resyncIntervalSecs < now ∧
      (e.2.recompose = true → r.composedGen ≠ 0 → c.resyncRecomposes = true) := by
  obtain ⟨w, last, same⟩ := mem_resyncKinds.mp entry
  obtain ⟨-, -, free, elapsed⟩ := resyncDue_iff.mp due
  obtain ⟨c, own, positive, le, recomposes⟩ := agree r here free w (mine ▸ last)
  refine ⟨c, own, positive, ?_, ?_⟩
  · rw [same] at elapsed
    exact Nat.lt_of_le_of_lt (Nat.add_le_add_left (le.trans (le_max_right _ _)) _) elapsed
  · rw [same]
    exact recomposes

theorem PoliciesAgree.follows (named : QueueNamed db) (agree : PoliciesAgree db) : FollowsPolicies db := by
  intro rs serves now order calls shards before after r here
  have namedNow : QueueNamed before := named
  obtain ⟨queues, composes⟩ := tick_touches rs shards (serves.keys order calls) namedNow here
  constructor
  · intro unqueued queued
    rcases queues queued with old | ⟨e, listed, mine, due⟩
    · rw [unqueued] at old
      cases old
    · obtain ⟨c, own, positive, elapsed, -⟩ := agree.due here (serves.mem_entries listed) mine due
      exact ⟨c, own, positive, elapsed⟩
  · intro r' there same moved
    obtain ⟨e, listed, mine, recompose, due⟩ := composes r' there same moved
    obtain ⟨c, own, -, -, recomposes⟩ := agree.due here (serves.mem_entries listed) mine due
    refine ⟨c, own, recomposes recompose fun zero => moved ?_⟩
    -- a composed generation that is gone stays so
    obtain ⟨-, r'', there'', same'', zero''⟩ := tick_keeps rs shards _ namedNow here
    rw [eq_of_pk resource_primary there there'' (same.trans same''.symm), zero'' zero, zero]

theorem FollowsPolicies.agree (named : QueueNamed db) (follows : FollowsPolicies db) : PoliciesAgree db := by
  intro r here free w last
  -- a tick of all kinds, with room for all rows, when the entry first lets the row be due
  let kinds := resyncKinds (listKindConfig db)
  let rs : Resyncer := ⟨kinds, db.resources.rows.length⟩
  let now := r.lastLook + w.resyncIntervalSecs + 1
  have serves : rs.Serves db := by
    refine .inr ⟨rs, ?_⟩
    rw [Resyncer.setKinds, enabledKinds_resyncKinds]
  have entry : (r.kind, (⟨w.resyncIntervalSecs, w.resyncRecomposes⟩ : ResyncKind)) ∈ kinds :=
    mem_resyncKinds.mpr ⟨w, last, rfl⟩
  have listed : (r.kind, (⟨w.resyncIntervalSecs, w.resyncRecomposes⟩ : ResyncKind)) ∈
      (shuffle id kinds).take kinds.length := by
    rw [take_of_length_le (shuffle_perm id kinds).length_eq.le]
    exact mem_shuffle.mpr entry
  let later : Db := { db with now := now }
  have due : resyncDue later r.kind (max 1 w.resyncIntervalSecs) [shardOf r.id] r = true := by
    refine resyncDue_iff.mpr ⟨rfl, mem_singleton_self _, free, ?_⟩
    have positive := (mem_filter.mp (mem_of_getLast? last)).2
    rw [max_eq_right (of_decide_eq_true ((Bool.and_eq_true _ _).mp positive).2)]
    exact Nat.lt_succ_self _
  have room : later.resources.rows.length ≤ rs.batchSize := le_refl _
  have namedLater : QueueNamed later := named
  obtain ⟨queued, composes⟩ := tick_repends rs [shardOf r.id] room (serves.keys id kinds.length) namedLater
    here listed rfl due
  obtain ⟨pends, recomposed⟩ := follows rs serves now id kinds.length [shardOf r.id] r here
  have unqueued : reconcileQueued db r.id = false := by
    simp only [resyncable, Bool.and_eq_true, Bool.not_eq_true'] at free
    exact free.2
  obtain ⟨c, own, positive, elapsed⟩ := pends unqueued queued
  refine ⟨c, own, positive, ?_, fun recompose nonzero => ?_⟩
  · exact Nat.le_of_add_le_add_left (Nat.le_of_lt_succ elapsed)
  · obtain ⟨r', there, same, zero⟩ := composes recompose
    obtain ⟨c', own', recomposes⟩ := recomposed r' there same (by rw [zero]; exact nonzero.symm)
    rw [Option.mem_unique own own']
    exact recomposes

/-- **Resyncs follow the policies of the rows they re-pend, whenever they run, exactly if** the
policies of the versions of a kind agree where a row depends on it. -/
theorem resync_follows_policies (reachable : Reachable db) : FollowsPolicies db ↔ PoliciesAgree db :=
  ⟨fun follows => follows.agree reachable.queueNamed, fun agree => agree.follows reachable.queueNamed⟩

end Policies

/-- `app` with the resync policies of its versions, from version 1 on. -/
def appPolicies (policies : List (Nat × Bool)) : List Action :=
  policies.zipIdx.map fun ((interval, recompose), i) =>
    .upsertKindManifest ⟨"app", i + 1, none, 0, 0, interval, recompose, 0, 0, false, 1⟩

/-- An app of version 1 is applied, composed and synced. -/
def settledApp (policies : List (Nat × Bool)) : Script :=
  [fun _ => appPolicies policies ++ [applyRoot "app" "a", claimAll "b" "app" .reconcile],
    composes "app" noGrace (fun _ => "") ⟨[], [], []⟩, returns "app" success]

/-- Version 1 is looked at more often than version 2 asks for, and both recompose. -/
theorem resync_follows_policies_agreeing : letI := counting
    let db := run Db.empty ((settledApp [(5, true), (60, true)]).play Db.empty)
    FollowsPolicies db ∧ db.resources.rows.any (resyncable db) = true := by
  intro db
  have facts : letI := counting
      PoliciesAgree db ∧ db.resources.rows.any (resyncable db) = true := by
    decide +kernel
  have reachable : @Reachable counting db := ⟨_, rfl⟩
  exact ⟨(@resync_follows_policies counting db reachable).mpr facts.1, facts.2⟩

/-- Version 1 has no resync, or waits for 100 seconds; version 2 recomposes every 10.  After 20
seconds the tick re-pends an app of version 1 and has it composed again. -/
theorem resync_crosses_versions : letI := counting
    [(0, false), (100, false)].Forall fun own =>
      let db := run Db.empty ((settledApp [own, (10, true)]).play Db.empty ++ [.tick 20])
      ∃ rs ∈ newResyncer (resyncKinds (listKindConfig db)), ∃ r ∈ db.resources.rows,
        r.kindVersion = 1 ∧ (ownConfig db r).map (fun c => (c.resyncIntervalSecs, c.resyncRecomposes)) = some own ∧
          r.lastLook + 20 = db.now ∧ reconcileQueued db r.id = false ∧ r.composedGen = 1 ∧
          reconcileQueued (rs.tick id 10 [shardOf r.id] db) r.id = true ∧
          (rs.tick id 10 [shardOf r.id] db).resources.rows.map (·.composedGen) = [0] := by
  decide +kernel

end Converge.Kernel
