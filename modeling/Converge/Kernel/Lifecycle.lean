/-
# Kernel.Lifecycle -- the reactor spine

A transition of a resource is announced to every binding that watches it by a row of
`lifecycle_outbox`, one per binding.  Dispatchers claim such rows, run the reactor and
acknowledge: the ack deletes the row.  The lease is that of the work queue in small: a claim
stamps its holder and moves the epoch, a reaper frees what is silent and moves it again, and
an ack names the epoch it was claimed under.

`Spine` is the database together with the table and its lease columns.  Its statements are
those of the store, which emit, and the four of the dispatchers and their reaper.

A claim is one statement.  Its branches see one snapshot and change a row at most once
(`Table.updateDelete`), and the rows it returns are those that survive its joins.
-/
import Converge.Kernel.Frames
import Converge.Kernel.Manifest

namespace Converge.Kernel

open Converge.Theory List Table

set_option autoImplicit false
set_option linter.unusedSectionVars false

/-! ## Rows -/

/-- The primary key of `lifecycle_outbox`, without the shard. -/
abbrev DeliveryKey := Uuid × Transition × Nat × String

def LifecycleDelivery.pk (d : LifecycleDelivery) : DeliveryKey :=
  (d.resourceId, d.transition, d.generation, d.bindingName)

/-- A row of `lifecycle_outbox`; `holder` is history. -/
structure LifecycleRow where
  delivery : LifecycleDelivery
  brokerId : Option String
  heartbeatAt : Option Time
  claimEpoch : Nat
  holder : Option Nat
  deriving DecidableEq

namespace LifecycleRow

def pk (w : LifecycleRow) : DeliveryKey := w.delivery.pk

/-- The columns at their defaults. -/
def fresh (d : LifecycleDelivery) : LifecycleRow := ⟨d, none, none, 1, none⟩

end LifecycleRow

instance : Keyed LifecycleRow where
  Key := DeliveryKey
  key w := w.pk
  Clash a b := a = b
  clash_symm h := h.symm
  decidableClash _ _ := inferInstance

theorem lifecycle_primary : Table.Primary LifecycleRow.pk := fun _ _ h => h

theorem delivery_primary : Table.Primary LifecycleDelivery.pk := fun _ _ h => h

/-- `store.ReactorDelivery`: a claimed row with what its reactor needs.  An unresolved
reaction is empty, with version 0. -/
structure ReactorDelivery where
  resourceId : Uuid
  kind : String
  name : String
  transition : Transition
  generation : Nat
  status : Option Json
  bindingName : String
  reactor : String
  reaction : String
  reactorKindVersion : Nat
  claimEpoch : Nat
  deriving DecidableEq

def ReactorDelivery.pk (d : ReactorDelivery) : DeliveryKey :=
  (d.resourceId, d.transition, d.generation, d.bindingName)

/-- `store.ReactorLeaseKey`: a delivery and the epoch it was claimed under. -/
abbrev ReactorLeaseKey := DeliveryKey × Nat

structure Spine where
  db : Db
  lifecycle : Table LifecycleRow
  /-- How many claims there were. -/
  claims : Nat
  /-- Every delivery a claim returned, with the number of the claim. -/
  handed : List (Nat × ReactorDelivery)

namespace Spine

def empty : Spine := ⟨Db.empty, ∅, 0, []⟩

/-- The rows without their lease. -/
def deliveries (s : Spine) : Table LifecycleDelivery where
  rows := s.lifecycle.rows.map (·.delivery)
  unique := pairwise_map.mpr s.lifecycle.unique

end Spine

section Spine

variable [Postgres] {d : LifecycleDelivery}

/-! ## Emitting -/

/-- The lease a delivery has: its own if it was stored, or a new one. -/
def leaseOf (t : Table LifecycleRow) (d : LifecycleDelivery) : LifecycleRow :=
  (t.lookup LifecycleRow.pk d.pk).elim (.fresh d) ({ · with delivery := d })

theorem leaseOf_pk (t : Table LifecycleRow) (d : LifecycleDelivery) : (leaseOf t d).pk = d.pk := by
  unfold leaseOf
  cases t.lookup LifecycleRow.pk d.pk <;> rfl

/-- A statement of the store, which may emit. -/
def Spine.store (s : Spine) (a : Action) : Spine :=
  let db := step { s.db with lifecycleOutbox := s.deliveries } a
  { s with
    db := db
    lifecycle :=
      { rows := db.lifecycleOutbox.rows.map (leaseOf s.lifecycle)
        unique := by
          refine pairwise_map.mpr (db.lifecycleOutbox.unique.imp ?_)
          intro a b apart same
          apply apart
          have keys : (leaseOf s.lifecycle a).pk = (leaseOf s.lifecycle b).pk := same
          rw [leaseOf_pk, leaseOf_pk] at keys
          exact keys } }

/-! ## Claiming -/

def duePicked (s : Spine) (scan : Scan DeliveryKey) (maxRows : Nat) (range : ShardRange) : List LifecycleRow :=
  scan.pick (·.pk) Scan.unordered maxRows
    (s.lifecycle.rows.filter fun w => w.brokerId.isNone && range.covers w.delivery.resourceId)

/-- The `SET` of branch `claimed`. -/
def claimDelivery (brokerId : String) (now : Time) (claim : Nat) (w : LifecycleRow) : LifecycleRow :=
  { w with
    brokerId := some brokerId
    heartbeatAt := some now
    claimEpoch := w.claimEpoch + 1
    holder := some claim }

theorem claimDelivery_key (brokerId : String) (now : Time) (claim : Nat) (w : LifecycleRow) :
    Keyed.key (claimDelivery brokerId now claim w) = Keyed.key w := rfl

/-- The reactions a published manifest declares; the column that no other statement reads. -/
abbrev Reactions := KindManifest → List ReactionDecl

/-- The lateral join: the reactor's reaction and the version it is from, the pinned one or
the highest published. -/
def reactorReaction (db : Db) (reactions : Reactions) (b : ReactorBinding) : Option (String × Nat) :=
  let published := db.kindManifest.rows.flatMap fun m =>
    if m.kind = b.reactor && b.reactorVersion.all (· = m.kindVersion) then
      ((reactions m).filter (·.trigger = .reactor)).map fun rx => (rx.name, m.kindVersion)
    else []
  -- ORDER BY kind_version DESC LIMIT 1
  published.foldl (fun best rv => if best.any (rv.2 ≤ ·.2) then best else some rv) none

/-- The final SELECT for one claimed row: its resource and an enabled binding of its name
must be there. -/
def deliveryOf (db : Db) (reactions : Reactions) (w : LifecycleRow) : Option ReactorDelivery :=
  (db.resource? w.delivery.resourceId).bind fun r =>
    (db.reactorBindings.rows.find? fun b => b.name = w.delivery.bindingName && b.enabled).map fun b =>
      let rv := reactorReaction db reactions b
      { resourceId := w.delivery.resourceId
        kind := w.delivery.kind
        name := r.name
        transition := w.delivery.transition
        generation := w.delivery.generation
        status := r.status
        bindingName := w.delivery.bindingName
        reactor := b.reactor
        reaction := (rv.map (·.1)).getD ""
        reactorKindVersion := (rv.map (·.2)).getD 0
        claimEpoch := w.claimEpoch }

/-- The rows branch `claimed` returns. -/
def claimedRows (s : Spine) (scan : Scan DeliveryKey) (brokerId : String) (maxRows : Nat)
    (range : ShardRange) : List LifecycleRow :=
  (duePicked s scan maxRows range).map (claimDelivery brokerId s.db.now s.claims)

/-- What `claim_reactor_deliveries` returns. -/
def returnedDeliveries (s : Spine) (reactions : Reactions) (scan : Scan DeliveryKey)
    (brokerId : String) (maxRows : Nat) (range : ShardRange) : List ReactorDelivery :=
  (claimedRows s scan brokerId maxRows range).filterMap (deliveryOf s.db reactions)

/-- `claim_reactor_deliveries`: branch `claimed` updates the rows taken, branch `gone` deletes
those of them whose resource is not there. -/
def claimReactorDeliveries (s : Spine) (reactions : Reactions) (scan : Scan DeliveryKey)
    (brokerId : String) (maxRows : Nat) (range : ShardRange) : Spine :=
  let picked := (duePicked s scan maxRows range).map (·.pk)
  { s with
    lifecycle := s.lifecycle.updateDelete (fun w => w.pk ∈ picked)
      (claimDelivery brokerId s.db.now s.claims) (claimDelivery_key brokerId s.db.now s.claims)
      (fun w => w.pk ∈ picked && (s.db.resource? w.delivery.resourceId).isNone)
    claims := s.claims + 1
    handed := (returnedDeliveries s reactions scan brokerId maxRows range).map (s.claims, ·)
      ++ s.handed }

/-! ## Holding, freeing, acknowledging -/

/-- The `SET` of `HeartbeatReactorClaims`. -/
def refreshDelivery (now : Time) (w : LifecycleRow) : LifecycleRow :=
  { w with heartbeatAt := some now }

theorem refreshDelivery_key (now : Time) (w : LifecycleRow) :
    Keyed.key (refreshDelivery now w) = Keyed.key w := rfl

def heartbeatReactorClaims (s : Spine) (scan : Scan DeliveryKey) (keys : List ReactorLeaseKey)
    (range : ShardRange) : Spine :=
  { s with
    lifecycle := s.lifecycle.updateWhere
      (fun w => (w.pk, w.claimEpoch) ∈ keys && range.covers w.delivery.resourceId
        && !scan.locked w.pk)
      (refreshDelivery s.db.now) (refreshDelivery_key s.db.now) }

/-- The `SET` of `reap_stale_lifecycle`. -/
def freeDelivery (now : Time) (w : LifecycleRow) : LifecycleRow :=
  { w with
    brokerId := none
    heartbeatAt := some now
    claimEpoch := w.claimEpoch + 1
    holder := none }

theorem freeDelivery_key (now : Time) (w : LifecycleRow) : Keyed.key (freeDelivery now w) = Keyed.key w := rfl

/-- `reap_stale_lifecycle`; its idle gate changes nothing. -/
def reapStaleLifecycle (s : Spine) (scan : Scan DeliveryKey) (staleSeconds maxRows : Nat)
    (range : ShardRange) : Spine :=
  let picked := scan.pick (·.pk) (fun w => (w.heartbeatAt.getD 0, 0)) maxRows
    (s.lifecycle.rows.filter fun w =>
      w.brokerId.isSome && w.heartbeatAt.any (· + staleSeconds < s.db.now)
        && range.covers w.delivery.resourceId)
  { s with
    lifecycle := s.lifecycle.updateWhere (fun w => w ∈ picked) (freeDelivery s.db.now)
      (freeDelivery_key s.db.now) }

def ackReactorDelivery (s : Spine) (d : ReactorDelivery) : Spine :=
  { s with
    lifecycle := s.lifecycle.deleteWhere fun w => w.pk = d.pk && w.claimEpoch = d.claimEpoch }

inductive SpineAction where
  | store (a : Action)
  | claim (reactions : Reactions) (scan : Scan DeliveryKey) (brokerId : String) (maxRows : Nat)
      (range : ShardRange)
  | heartbeat (scan : Scan DeliveryKey) (keys : List ReactorLeaseKey) (range : ShardRange)
  | reap (scan : Scan DeliveryKey) (staleSeconds maxRows : Nat) (range : ShardRange)
  | ack (claim : Nat) (d : ReactorDelivery)

/-- One statement.  An ack comes from whoever was handed the delivery, however late, and once:
the dispatcher acknowledges a delivery when its reaction is done. -/
def spineStep (s : Spine) : SpineAction → Spine
  | .store a => s.store a
  | .claim reactions scan brokerId n range => claimReactorDeliveries s reactions scan brokerId n range
  | .heartbeat scan keys range => heartbeatReactorClaims s scan keys range
  | .reap scan secs n range => reapStaleLifecycle s scan secs n range
  | .ack claim d =>
    if (claim, d) ∈ s.handed then
      { ackReactorDelivery s d with handed := s.handed.filter (· ≠ (claim, d)) }
    else s

/-! ## What a statement does to the table -/

theorem step_keeps_deliveries (db : Db) (a : Action)
    (here : d ∈ db.lifecycleOutbox) : d ∈ (step db a).lifecycleOutbox := by
  cases a with
  | applySpec args =>
    simp only [step]
    cases done : applySpec db args with
    | none => exact here
    | some db' =>
      obtain ⟨config, -, ⟨mid, r, create, -, rfl⟩ | ⟨prev, -, ⟨-, rfl⟩ | ⟨-, mid, r, write, rfl⟩⟩⟩ :=
        applySpec_cases done
      · apply mem_deliveries_of_mem
        exact ((createRoot_announces create).trans (scheduleEligible_ordinary _ _).toAnnounces).kept d here
      · exact here
      · apply mem_deliveries_of_mem
        exact ((overwriteRoot_announces write).trans (scheduleEligible_ordinary _ _).toAnnounces).kept d here
  | upsertKindManifest m =>
    simp only [step, upsertKindManifest]
    split
    · exact here
    · split
      · apply (updateResources_announces).kept
        exact here
      · exact here
  | deleteKindManifest kind version =>
    simp only [step, deleteKindManifest]
    split
    · exact here
    · split
      · exact here
      · exact here
  | _ =>
    refine (step_announces db ?_).kept d here
    trivial

variable {s : Spine} {w w' : LifecycleRow} {scan : Scan DeliveryKey} {range : ShardRange} {a : Action} {n : Nat}

theorem leaseOf_stored (here : w ∈ s.lifecycle)
    (after : d ∈ (step { s.db with lifecycleOutbox := s.deliveries } a).lifecycleOutbox) (same : w.pk = d.pk) :
    leaseOf s.lifecycle d = w := by
  have pending : w.delivery ∈ s.deliveries := mem_map.mpr ⟨w, here, rfl⟩
  have kept := step_keeps_deliveries { s.db with lifecycleOutbox := s.deliveries } a pending
  obtain rfl := eq_of_pk delivery_primary kept after same
  have found : s.lifecycle.lookup LifecycleRow.pk w.delivery.pk = some w :=
    lookup_of_mem lifecycle_primary here
  rw [leaseOf, found]
  rfl

theorem store_keeps (here : w ∈ s.lifecycle) : w ∈ (s.store a).lifecycle := by
  have pending : w.delivery ∈ s.deliveries := mem_map.mpr ⟨w, here, rfl⟩
  have kept := step_keeps_deliveries { s.db with lifecycleOutbox := s.deliveries } a pending
  exact mem_map.mpr ⟨w.delivery, kept, leaseOf_stored here kept rfl⟩

theorem mem_store (after : w' ∈ (s.store a).lifecycle) : w' ∈ s.lifecycle ∨ w' = .fresh w'.delivery := by
  obtain ⟨d, emitted, rfl⟩ := mem_map.mp after
  cases found : s.lifecycle.lookup LifecycleRow.pk d.pk with
  | none =>
    right
    rw [leaseOf, found]
    rfl
  | some w =>
    obtain ⟨here, same⟩ := mem_of_lookup found
    rw [leaseOf_stored here emitted same]
    exact .inl here

theorem mem_duePicked (h : w ∈ duePicked s scan n range) : w ∈ s.lifecycle ∧ w.brokerId = none := by
  obtain ⟨here, due⟩ := mem_filter.mp (Scan.mem_of_mem_pick h)
  rw [Bool.and_eq_true, Option.isNone_iff_eq_none] at due
  exact ⟨here, due.1⟩

theorem mem_keys_duePicked
    (here : w ∈ s.lifecycle) : w.pk ∈ (duePicked s scan n range).map (·.pk) ↔ w ∈ duePicked s scan n range := by
  constructor
  · intro listed
    obtain ⟨w', picked, same⟩ := mem_map.mp listed
    obtain rfl := eq_of_pk lifecycle_primary (mem_duePicked picked).1 here same
    exact picked
  · exact fun picked => mem_map.mpr ⟨w, picked, rfl⟩

/-- A claim stamps the rows it takes, leaves the others, and deletes none. -/
theorem mem_claim {reactions : Reactions} {brokerId : String} :
    w' ∈ (claimReactorDeliveries s reactions scan brokerId n range).lifecycle ↔
      ∃ w ∈ s.lifecycle, (w ∈ duePicked s scan n range ∧ w' = claimDelivery brokerId s.db.now s.claims w) ∨
        (w ∉ duePicked s scan n range ∧ w' = w) := by
  have split (w : LifecycleRow) (here : w ∈ s.lifecycle) :
      decide (w.pk ∈ (duePicked s scan n range).map (·.pk)) = decide (w ∈ duePicked s scan n range) :=
    decide_eq_decide.mpr (mem_keys_duePicked here)
  simp only [claimReactorDeliveries]
  rw [mem_updateDelete]
  constructor
  · rintro ⟨w, here, rfl, -⟩
    refine ⟨w, here, ?_⟩
    rw [split w here]
    by_cases picked : w ∈ duePicked s scan n range
    · exact .inl ⟨picked, if_pos (decide_eq_true picked)⟩
    · exact .inr ⟨picked, if_neg fun h => picked (of_decide_eq_true h)⟩
  · rintro ⟨w, here, ⟨picked, rfl⟩ | ⟨left, rfl⟩⟩
    · refine ⟨w, here, ?_, .inl ?_⟩ <;> rw [split w here, decide_eq_true picked]
      rfl
    · refine ⟨w', here, ?_, .inr ?_⟩ <;> rw [split w' here, decide_eq_false left]
      · rfl
      · rfl

/-- Every statement keeps the rows it finds, up to their lease; an ack alone takes one away. -/
theorem spineStep_keeps {a : SpineAction} (here : w ∈ s.lifecycle)
    (kept : ∀ claim d, a = .ack claim d → (claim, d) ∈ s.handed → w.pk = d.pk → w.claimEpoch ≠ d.claimEpoch) :
    ∃ w' ∈ (spineStep s a).lifecycle, w'.pk = w.pk := by
  cases a with
  | store a => exact ⟨w, store_keeps here, rfl⟩
  | claim reactions scan brokerId n range =>
    by_cases picked : w ∈ duePicked s scan n range
    · exact ⟨_, mem_claim.mpr ⟨w, here, .inl ⟨picked, rfl⟩⟩, rfl⟩
    · exact ⟨w, mem_claim.mpr ⟨w, here, .inr ⟨picked, rfl⟩⟩, rfl⟩
  | heartbeat scan keys range =>
    exact exists_column_updateWhere (refreshDelivery_key _) (fun _ => rfl) here
  | reap scan secs n range =>
    exact exists_column_updateWhere (freeDelivery_key _) (fun _ => rfl) here
  | ack claim d =>
    refine ⟨w, ?_, rfl⟩
    simp only [spineStep]
    split
    · rename_i held
      refine mem_deleteWhere.mpr ⟨here, ?_⟩
      by_cases same : w.pk = d.pk
      · rw [decide_eq_false (kept claim d rfl held same), Bool.and_false]
      · rw [decide_eq_false same, Bool.false_and]
    · exact here

end Spine

end Converge.Kernel
