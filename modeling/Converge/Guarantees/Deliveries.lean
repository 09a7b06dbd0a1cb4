/-
# Guarantees.Deliveries -- what becomes of an announced transition

A delivery is meant to stay until a holder of its current claim reports success.

`claim_settles_iff` looks at one claim.  It stamps rows and returns deliveries, and a stamped
row that is not returned is nobody's: it waits for the reaper and is claimed again
(`orphan_cycles`).  The branch that should delete the rows of removed resources names rows the
statement has just updated, and one statement changes a row once.  So a claim is right exactly
if every row it takes has its resource and an enabled binding.

`delivery_leaves_by_holder` looks at runs.  The ack names an epoch, and the epoch of a row
starts again at 1 when the same transition is announced again after an ack.  A claim that was
lost before may then carry the epoch of a live one, and its ack deletes what another dispatcher
works on (`late_ack_takes_delivery`).  Deliveries leave through the ack of their holder exactly
in the runs where no claim takes a row under an epoch that an earlier claim of it still has to
acknowledge.
-/
import Converge.Kernel.Lifecycle

namespace Converge.Kernel

open Converge.Theory List Table Option

set_option autoImplicit false
set_option linter.unusedSectionVars false

variable {w' : LifecycleRow} {reactions : Reactions} {scan : Scan DeliveryKey} {range : ShardRange}
    {a : SpineAction}

section Claim

variable [Postgres] {s : Spine}

/-- Every row the call stamps is returned, or is not in the table afterwards. -/
def ClaimSettles (s : Spine) (reactions : Reactions) (scan : Scan DeliveryKey) (brokerId : String)
    (maxRows : Nat) (range : ShardRange) : Prop :=
  ∀ w ∈ claimedRows s scan brokerId maxRows range,
    (∃ d ∈ returnedDeliveries s reactions scan brokerId maxRows range, d.pk = w.pk) ∨
      ∀ w' ∈ (claimReactorDeliveries s reactions scan brokerId maxRows range).lifecycle.rows, w'.pk ≠ w.pk
deriving Decidable

/-- The resource of the row is there, and an enabled binding of its name. -/
def Deliverable (db : Db) (w : LifecycleRow) : Prop :=
  (db.resource? w.delivery.resourceId).isSome = true ∧
    ∃ b ∈ db.reactorBindings.rows, b.name = w.delivery.bindingName ∧ b.enabled = true

theorem deliveryOf_isSome {w : LifecycleRow} :
    (deliveryOf s.db reactions w).isSome = true ↔ Deliverable s.db w := by
  unfold deliveryOf Deliverable
  cases s.db.resource? w.delivery.resourceId with
  | none => simp
  | some r => simp [find?_isSome]

theorem deliveryOf_pk {db : Db} {w : LifecycleRow} {d : ReactorDelivery}
    (h : deliveryOf db reactions w = some d) : d.pk = w.pk ∧ d.claimEpoch = w.claimEpoch := by
  obtain ⟨r, -, rest⟩ := bind_eq_some_iff.mp h
  obtain ⟨b, -, rfl⟩ := map_eq_some_iff.mp rest
  exact ⟨rfl, rfl⟩

/-- **A claim leaves no stamped row behind exactly if** every row it takes has its resource
and an enabled binding. -/
theorem claim_settles_iff (s : Spine) (reactions : Reactions) (scan : Scan DeliveryKey) (brokerId : String)
    (maxRows : Nat) (range : ShardRange) : ClaimSettles s reactions scan brokerId maxRows range ↔
      ∀ w ∈ duePicked s scan maxRows range, Deliverable s.db w := by
  constructor
  · intro settles w picked
    let stamped := claimDelivery brokerId s.db.now s.claims w
    have claimed : stamped ∈ claimedRows s scan brokerId maxRows range :=
      mem_map.mpr ⟨w, picked, rfl⟩
    rcases settles stamped claimed with ⟨d, returned, same⟩ | gone
    · obtain ⟨w', listed, found⟩ := mem_filterMap.mp returned
      obtain ⟨v, taken, rfl⟩ := mem_map.mp listed
      -- the delivery returned under this key is that of this row
      have key : v.pk = w.pk := (deliveryOf_pk found).1.symm.trans same
      obtain rfl := eq_of_pk lifecycle_primary (mem_duePicked taken).1 (mem_duePicked picked).1 key
      have some_ : (deliveryOf s.db reactions stamped).isSome = true := by
        rw [found]
        rfl
      have there : Deliverable s.db stamped := deliveryOf_isSome.mp some_
      exact there
    · have stays : stamped ∈ (claimReactorDeliveries s reactions scan brokerId maxRows range).lifecycle :=
        mem_claim.mpr ⟨w, (mem_duePicked picked).1, .inl ⟨picked, rfl⟩⟩
      exact absurd rfl (gone stamped stays)
  · intro deliverable stamped claimed
    obtain ⟨w, picked, rfl⟩ := mem_map.mp claimed
    have there : Deliverable s.db (claimDelivery brokerId s.db.now s.claims w) :=
      deliverable w picked
    have some_ : (deliveryOf s.db reactions (claimDelivery brokerId s.db.now s.claims w)).isSome = true :=
      deliveryOf_isSome.mpr there
    obtain ⟨d, found⟩ := isSome_iff_exists.mp some_
    exact .inl ⟨d, mem_filterMap.mpr ⟨_, claimed, found⟩, (deliveryOf_pk found).1⟩

end Claim

/-! ## Leaving the table -/

section Leave

variable [Postgres] {s : Spine}

/-- What leaves the table under `a` leaves through an ack that carries the epoch of the row,
and comes from the claim that holds it. -/
def LeavesByHolder (s : Spine) (a : SpineAction) : Prop :=
  ∀ w ∈ s.lifecycle, (∀ w' ∈ (spineStep s a).lifecycle, w'.pk ≠ w.pk) →
    ∃ claim d, a = .ack claim d ∧ (claim, d) ∈ s.handed ∧ d.pk = w.pk ∧
      d.claimEpoch = w.claimEpoch ∧ w.holder = some claim

/-- No claim takes a row to an epoch under which a delivery of it is handed out. -/
def FreshClaims (s : Spine) : SpineAction → Prop
  | .claim _ scan _ maxRows range =>
    ∀ w ∈ duePicked s scan maxRows range, ∀ h ∈ s.handed, h.2.pk = w.pk → h.2.claimEpoch ≠ w.claimEpoch + 1
  | _ => True

instance (s : Spine) (a : SpineAction) : Decidable (FreshClaims s a) := by
  cases a <;> dsimp only [FreshClaims] <;> infer_instance

/-- A delivery handed out under the epoch of the stored row is that of its holder. -/
def Aligned (s : Spine) : Prop :=
  ∀ h ∈ s.handed, ∀ w ∈ s.lifecycle, w.pk = h.2.pk → w.claimEpoch = h.2.claimEpoch → w.holder = some h.1

theorem aligned_iff : Aligned s ↔ ∀ a, LeavesByHolder s a := by
  constructor
  · intro aligned a w here gone
    by_contra none_
    obtain ⟨w', after, same⟩ := spineStep_keeps (a := a) here (by
      rintro claim d rfl held key epoch
      exact none_ ⟨claim, d, rfl, held, key.symm, epoch.symm, aligned (claim, d) held w here key epoch⟩)
    exact gone w' after same
  · intro leaves h held w here key epoch
    have gone : ∀ w' ∈ (spineStep s (.ack h.1 h.2)).lifecycle, w'.pk ≠ w.pk := by
      intro w' after same
      rw [spineStep, if_pos held] at after
      obtain ⟨stored, kept⟩ := mem_deleteWhere.mp after
      obtain rfl := eq_of_pk lifecycle_primary stored here same
      rw [decide_eq_true key, decide_eq_true epoch] at kept
      cases kept
    obtain ⟨claim, d, same, -, -, -, holder⟩ := leaves (.ack h.1 h.2) w here gone
    cases same
    exact holder

/-- The epochs of claims and of claimed rows are even, those of free rows odd; and claims
are numbered in order. -/
structure Paced (s : Spine) : Prop where
  free : ∀ w ∈ s.lifecycle, w.brokerId = none → w.claimEpoch % 2 = 1
  leased : ∀ w ∈ s.lifecycle, w.brokerId ≠ none → w.claimEpoch % 2 = 0
  handed : ∀ h ∈ s.handed, h.2.claimEpoch % 2 = 0 ∧ h.1 < s.claims

theorem paced_empty : Paced Spine.empty :=
  ⟨fun w h => absurd h (notMem_empty w), fun w h => absurd h (notMem_empty w), nofun⟩

theorem mem_returned {brokerId : String} {n : Nat} {d : ReactorDelivery}
    (h : d ∈ returnedDeliveries s reactions scan brokerId n range) :
    ∃ w ∈ duePicked s scan n range, d.pk = w.pk ∧ d.claimEpoch = w.claimEpoch + 1 := by
  obtain ⟨stamped, claimed, found⟩ := mem_filterMap.mp h
  obtain ⟨w, picked, rfl⟩ := mem_map.mp claimed
  obtain ⟨key, epoch⟩ := deliveryOf_pk found
  exact ⟨w, picked, key, epoch⟩

theorem mem_reap {secs n : Nat} (after : w' ∈ (reapStaleLifecycle s scan secs n range).lifecycle) :
    w' ∈ s.lifecycle ∨ ∃ w ∈ s.lifecycle, w.brokerId ≠ none ∧ w' = freeDelivery s.db.now w := by
  simp only [reapStaleLifecycle] at after
  rw [mem_updateWhere] at after
  obtain ⟨w, here, rfl⟩ := after
  split
  · rename_i freed
    obtain ⟨-, stale⟩ := mem_filter.mp (Scan.mem_of_mem_pick (of_decide_eq_true freed))
    simp only [Bool.and_eq_true, isSome_iff_ne_none] at stale
    exact .inr ⟨w, here, stale.1.1, rfl⟩
  · exact .inl here

theorem mem_heartbeat {keys : List ReactorLeaseKey}
    (after : w' ∈ (heartbeatReactorClaims s scan keys range).lifecycle) :
    ∃ w ∈ s.lifecycle, w' = w ∨ w' = refreshDelivery s.db.now w := by
  simp only [heartbeatReactorClaims] at after
  rw [mem_updateWhere] at after
  obtain ⟨w, here, rfl⟩ := after
  refine ⟨w, here, ?_⟩
  split
  · exact .inr rfl
  · exact .inl rfl

/-- What a statement other than a claim makes of the table: rows as they were but for their
heartbeat, rows freed at their next epoch, and new rows. -/
theorem mem_spineStep (other : ∀ x sc b n r, a ≠ .claim x sc b n r) (after : w' ∈ (spineStep s a).lifecycle) :
    (∃ w ∈ s.lifecycle, w'.pk = w.pk ∧ w'.brokerId = w.brokerId ∧ w'.claimEpoch = w.claimEpoch ∧
        w'.holder = w.holder) ∨
      (∃ w ∈ s.lifecycle, w.brokerId ≠ none ∧ w' = freeDelivery s.db.now w) ∨
      w' = .fresh w'.delivery := by
  cases a with
  | store a =>
    rcases mem_store after with old | new
    · exact .inl ⟨w', old, rfl, rfl, rfl, rfl⟩
    · exact .inr (.inr new)
  | claim reactions scan brokerId n range => exact absurd rfl (other _ _ _ _ _)
  | heartbeat scan keys range =>
    obtain ⟨w, here, rfl | rfl⟩ := mem_heartbeat after
    · exact .inl ⟨w', here, rfl, rfl, rfl, rfl⟩
    · exact .inl ⟨w, here, rfl, rfl, rfl, rfl⟩
  | reap scan secs n range =>
    rcases mem_reap after with old | freed
    · exact .inl ⟨w', old, rfl, rfl, rfl, rfl⟩
    · exact .inr (.inl freed)
  | ack claim d =>
    simp only [spineStep] at after
    split at after
    · exact .inl ⟨w', (mem_deleteWhere.mp after).1, rfl, rfl, rfl, rfl⟩
    · exact .inl ⟨w', after, rfl, rfl, rfl, rfl⟩

theorem spineStep_handed (other : ∀ x sc b n r, a ≠ .claim x sc b n r) :
    (spineStep s a).handed ⊆ s.handed ∧ (spineStep s a).claims = s.claims := by
  cases a with
  | claim reactions scan brokerId n range => exact absurd rfl (other _ _ _ _ _)
  | ack claim d =>
    simp only [spineStep]
    split
    · exact ⟨filter_subset_self _, rfl⟩
    · exact ⟨Subset.refl _, rfl⟩
  | _ => exact ⟨Subset.refl _, rfl⟩

theorem Paced.other (paced : Paced s)
    (other : ∀ x sc b n r, a ≠ .claim x sc b n r) : Paced (spineStep s a) := by
  obtain ⟨handed, claims⟩ := spineStep_handed other
  refine ⟨?_, ?_, ?_⟩
  · intro w' after free
    rcases mem_spineStep other after with ⟨w, here, -, broker, epoch, -⟩ | ⟨w, here, held, rfl⟩ | new
    · rw [epoch]
      exact paced.free w here (broker ▸ free)
    · have even := paced.leased w here held
      show (w.claimEpoch + 1) % 2 = 1
      omega
    · rw [new]
      rfl
  · intro w' after held
    rcases mem_spineStep other after with ⟨w, here, -, broker, epoch, -⟩ | ⟨w, here, -, rfl⟩ | new
    · rw [epoch]
      exact paced.leased w here (broker ▸ held)
    · exact absurd rfl held
    · rw [new] at held
      exact absurd rfl held
  · intro h listed
    rw [claims]
    exact paced.handed h (handed listed)

theorem Paced.claim (paced : Paced s) (reactions : Reactions) (scan : Scan DeliveryKey) (brokerId : String)
    (n : Nat) (range : ShardRange) : Paced (claimReactorDeliveries s reactions scan brokerId n range) := by
  have odd (w : LifecycleRow) (picked : w ∈ duePicked s scan n range) : w.claimEpoch % 2 = 1 :=
    paced.free w (mem_duePicked picked).1 (mem_duePicked picked).2
  refine ⟨?_, ?_, ?_⟩
  · intro w' after free
    obtain ⟨w, here, ⟨-, rfl⟩ | ⟨-, rfl⟩⟩ := mem_claim.mp after
    · cases free
    · exact paced.free w' here free
  · intro w' after held
    obtain ⟨w, here, ⟨picked, rfl⟩ | ⟨-, rfl⟩⟩ := mem_claim.mp after
    · have := odd w picked
      show (w.claimEpoch + 1) % 2 = 0
      omega
    · exact paced.leased w' here held
  · intro h listed
    rcases mem_append.mp listed with new | old
    · obtain ⟨d, returned, rfl⟩ := mem_map.mp new
      obtain ⟨w, picked, -, epoch⟩ := mem_returned returned
      have := odd w picked
      refine ⟨?_, Nat.lt_succ_self _⟩
      show d.claimEpoch % 2 = 0
      omega
    · exact ⟨(paced.handed h old).1, Nat.lt_succ_of_lt (paced.handed h old).2⟩

theorem Paced.step (paced : Paced s) (a : SpineAction) : Paced (spineStep s a) := by
  cases a with
  | claim reactions scan brokerId n range => exact paced.claim reactions scan brokerId n range
  | _ => exact paced.other nofun

theorem Aligned.other (paced : Paced s) (aligned : Aligned s)
    (other : ∀ x sc b n r, a ≠ .claim x sc b n r) : Aligned (spineStep s a) := by
  intro h listed w' after key epoch
  have listed := (spineStep_handed other).1 listed
  have even := (paced.handed h listed).1
  rcases mem_spineStep other after with ⟨w, here, same, -, epoch', holder⟩ | ⟨w, here, held, rfl⟩ | new
  · rw [holder]
    exact aligned h listed w here (same ▸ key) (epoch' ▸ epoch)
  · -- a freed row stands at an odd epoch
    have leased := paced.leased w here held
    have freed : w.claimEpoch + 1 = h.2.claimEpoch := epoch
    omega
  · rw [new] at epoch
    have first : 1 = h.2.claimEpoch := epoch
    omega

/-- A claim keeps holders and epochs together exactly if its epochs are new. -/
theorem aligned_claim (paced : Paced s) (aligned : Aligned s) (reactions : Reactions)
    (scan : Scan DeliveryKey) (brokerId : String) (n : Nat) (range : ShardRange) :
    Aligned (claimReactorDeliveries s reactions scan brokerId n range) ↔
      FreshClaims s (.claim reactions scan brokerId n range) := by
  constructor
  · intro after w picked h listed key epoch
    have stamped : claimDelivery brokerId s.db.now s.claims w ∈
        (claimReactorDeliveries s reactions scan brokerId n range).lifecycle :=
      mem_claim.mpr ⟨w, (mem_duePicked picked).1, .inl ⟨picked, rfl⟩⟩
    have holder := after h (mem_append_right _ listed) _ stamped key.symm epoch.symm
    have number : s.claims = h.1 := some.inj holder
    have earlier := (paced.handed h listed).2
    omega
  · intro fresh h listed w' stored key epoch
    obtain ⟨w, here, ⟨picked, rfl⟩ | ⟨left, rfl⟩⟩ := mem_claim.mp stored
    · rcases mem_append.mp listed with new | old
      · obtain ⟨d, -, rfl⟩ := mem_map.mp new
        rfl
      · exact absurd epoch.symm (fresh w picked h old key.symm)
    · rcases mem_append.mp listed with new | old
      · -- the delivery is of a row this claim took, and this one it left
        obtain ⟨d, returned, rfl⟩ := mem_map.mp new
        obtain ⟨v, picked, same, -⟩ := mem_returned returned
        obtain rfl := eq_of_pk lifecycle_primary (mem_duePicked picked).1 here (same.symm.trans key.symm)
        exact absurd picked left
      · exact aligned h old w' here key epoch

/-- **Deliveries leave by the ack of their holder exactly in the runs with fresh claims.**  In
every state such a run reaches, whatever statement comes next, a row that leaves the table
leaves through an ack of its own key and epoch by the claim that holds it: the ack of one
binding takes no other's row, and the ack of a superseded claim takes none. -/
theorem delivery_leaves_by_holder (actions : List SpineAction) :
    Throughout spineStep (fun s a => ∀ next, LeavesByHolder (spineStep s a) next) Spine.empty actions ↔
      Throughout spineStep FreshClaims Spine.empty actions := by
  refine Throughout.iff_keeps (I := fun s => ∀ next, LeavesByHolder s next) ?_
    (fun _ a paced => paced.step a) paced_empty (aligned_iff.mp nofun)
  intro s a paced leaves
  have aligned := aligned_iff.mpr leaves
  rw [← aligned_iff]
  cases a with
  | claim reactions scan brokerId n range => exact aligned_claim paced aligned _ _ _ _ _
  | _ => exact iff_of_true (aligned.other paced nofun) trivial

end Leave

/-! ## Concrete spines -/

section Runs

def spineRun [Postgres] (actions : List SpineAction) : Spine := actions.foldl spineStep Spine.empty

/-- Announce the creation of apps to an archiver. -/
def watchApps : SpineAction :=
  .store (.upsertReactorBinding ⟨"archive", "app", none, .created, .obj [], "archiver", none, true⟩)

def claimDue (broker : String) : SpineAction := .claim (fun _ => []) Scan.plain broker 10 ShardRange.full

/-- Free every silent one. -/
def reapDue : List SpineAction := [.store (.tick 100), .reap Scan.plain 60 10 ShardRange.full]

/-- A fresh app is announced, claimed and returned. -/
theorem claim_settles_created : letI := counting
    let s := spineRun [watchApps, .store (applyRoot "app" "a")]
    ClaimSettles s (fun _ => []) Scan.plain "b" 10 ShardRange.full ∧
      (duePicked s Scan.plain 10 ShardRange.full).length = 1 := by
  intro s
  have facts : letI := counting
      (duePicked s Scan.plain 10 ShardRange.full).length = 1 ∧ ∀ w ∈ duePicked s Scan.plain 10 ShardRange.full,
          (s.db.resource? w.delivery.resourceId).isSome = true ∧
            ∃ b ∈ s.db.reactorBindings.rows, b.name = w.delivery.bindingName ∧ b.enabled = true := by
    decide +kernel
  exact ⟨(@claim_settles_iff counting s _ _ _ _ _).mpr facts.2, facts.1⟩

/-- An app is announced and removed before its delivery is claimed; or the binding is switched
off in between. -/
def orphaned : List (List SpineAction) :=
  [[watchApps, .store (applyRoot "app" "a"), .store (.requestResourceDeletion (fun _ => Scan.plain) 0)],
    [watchApps, .store (applyRoot "app" "a"),
      .store (.upsertReactorBinding ⟨"archive", "app", none, .created, .obj [], "archiver", none, false⟩)]]

/-- The row is stamped, neither returned nor deleted, and after the reap the next claim finds
it again. -/
theorem orphan_cycles : letI := counting
    orphaned.Forall fun before =>
      ¬ ClaimSettles (spineRun before) (fun _ => []) Scan.plain "b" 10 ShardRange.full ∧
      ∀ rounds ∈ [[], claimDue "b" :: reapDue, claimDue "b" :: reapDue ++ claimDue "b" :: reapDue],
        let s := spineRun (before ++ rounds)
        s.handed = [] ∧ (duePicked s Scan.plain 10 ShardRange.full).length = 1 := by
  decide +kernel

/-- The deliveries a claim was handed, acknowledged after the run. -/
def ackOf [Postgres] (before : List SpineAction) (claim : Nat) : List SpineAction :=
  ((spineRun before).handed.filter (·.1 = claim)).map fun h => .ack h.1 h.2

/-- One dispatcher claims the announcement of an app and falls silent; another claims it. -/
def takenOver : List SpineAction :=
  [watchApps, .store (applyRoot "app" "a"), claimDue "a"] ++ reapDue ++ [claimDue "b"]

/-- Both dispatchers acknowledge, the silent one first. -/
theorem leaves_by_holder_takenOver : letI := counting
    let actions := takenOver ++ ackOf takenOver 0 ++ ackOf takenOver 1
    Throughout spineStep (fun s a => ∀ next, LeavesByHolder (spineStep s a) next) Spine.empty actions ∧
      (spineRun (takenOver ++ ackOf takenOver 0)).lifecycle.rows.length = 1 ∧
      (spineRun actions).lifecycle.rows = [] := by
  intro actions
  have facts : letI := counting
      Throughout spineStep FreshClaims Spine.empty actions ∧
        (spineRun (takenOver ++ ackOf takenOver 0)).lifecycle.rows.length = 1 ∧
        (spineRun actions).lifecycle.rows = [] := by
    decide +kernel
  exact ⟨(@delivery_leaves_by_holder counting actions).mpr facts.1, facts.2⟩

/-- The second dispatcher acknowledges; new labels announce the app again, at its generation;
and a third one claims that. -/
def announcedAgain [Postgres] : List SpineAction :=
  takenOver ++ ackOf takenOver 1 ++
    [.store (.applySpec ⟨"app", 1, "a", .obj [], .obj [("tier", .str "gold")], ""⟩), claimDue "c"]

/-- The ack of the first claim, lost two claims ago, deletes the row the third one holds. -/
theorem late_ack_takes_delivery : letI := counting
    (spineRun announcedAgain).lifecycle.rows.map (·.holder) = [some 2] ∧ ackOf announcedAgain 0 ≠ [] ∧
      ∀ late ∈ ackOf announcedAgain 0, (spineStep (spineRun announcedAgain) late).lifecycle.rows = [] ∧
          ¬ LeavesByHolder (spineRun announcedAgain) late := by
  have facts : letI := counting
      (spineRun announcedAgain).lifecycle.rows.map (·.holder) = [some 2] ∧ (ackOf announcedAgain 0).length = 1 ∧
        ∀ h ∈ (spineRun announcedAgain).handed.filter (·.1 = 0),
          (spineStep (spineRun announcedAgain) (.ack h.1 h.2)).lifecycle.rows = [] := by
    decide +kernel
  obtain ⟨held, one, emptied⟩ := facts
  refine ⟨held, ne_nil_of_length_eq_add_one one, ?_⟩
  intro late listed
  obtain ⟨h, from_, rfl⟩ := mem_map.mp listed
  have gone := emptied h from_
  refine ⟨gone, fun leaves => ?_⟩
  have first : h.1 = 0 := of_decide_eq_true (mem_filter.mp from_).2
  obtain ⟨w, here, holder⟩ : ∃ w ∈ (@spineRun counting (@announcedAgain counting)).lifecycle.rows,
      w.holder = some 2 := mem_map.mp (held ▸ mem_singleton_self (some 2))
  have left (w' : LifecycleRow)
      (after : w' ∈ (@spineStep counting (@spineRun counting (@announcedAgain counting))
        (.ack h.1 h.2)).lifecycle.rows) : w'.pk ≠ w.pk := by
    rw [gone] at after
    cases after
  obtain ⟨claim, d, same, -, -, -, holds⟩ := leaves w here left
  cases same
  rw [holder, first] at holds
  cases holds

end Runs

end Converge.Kernel
