/-
# Guarantees.ManifestFence -- the manifest an accepted result was computed under

A task carries the manifest version of the queue row it was claimed from, and the fences of
`AppendOutbox` and of the compose stamp compare it with the row's.  Both are copies, and a
publish restamps resources and kind config but no queue row.  So the fences tell a row that
was queued again; a publish they do not see.

`results_current` is the line that is left.  In the states of a run only results of the
stored manifest are accepted if and only if every publish and every removal of a kind finds
no reconcile of an older manifest in flight, and every claim takes rows that were queued
under the stored one.

`old_manifest_commits` has both failures: a publish while a task runs, and while it waits.
-/
import Converge.Guarantees.ClaimFence
import Converge.Kernel.Frames
import Converge.Kernel.Wakes

namespace Converge.Kernel

open Converge.Theory List Table Option

set_option autoImplicit false
set_option linter.unusedSectionVars false

section Statement

variable [Postgres]

/-- The manifest version stored for a kind and version. -/
def published (db : Db) (kind : String) (version : Nat) : Option Int :=
  (db.kindManifest.lookup (fun m => (m.kind, m.kindVersion)) (kind, version)).map (·.manifestVersion)

/-- The fence of `AppendOutbox` lets `o` through. -/
def resultAccepted (db : Db) (o : OutboxRow) : Bool := db.workQueue.rows.any (tokenMatches o)

/-- The fence of `StampComposedGen` lets a compose of `t` through. -/
def composeAccepted (db : Db) (t : WorkTask) : Bool := db.workQueue.rows.any (claimHeld t)

/-- A result of `t` is accepted, whatever manifest version it reports, or a compose is. -/
def Accepts (db : Db) (t : WorkTask) : Prop :=
  (∃ o : OutboxRow, o.task = t ∧ resultAccepted db o = true) ∨ composeAccepted db t = true

/-- Nothing a reconcile computed under a manifest other than the stored one is accepted. -/
def UpToDate (db : Db) : Prop :=
  ∀ t ∈ db.tasks, t.taskType = .reconcile → t.manifestVersion ≠ 0 → Accepts db t →
    published db t.kind t.kindVersion = some t.manifestVersion

/-- The reconciles of a kind and version that still hold their claims, with a manifest. -/
def inFlight (db : Db) (kind : String) (version : Nat) : List WorkTask :=
  db.tasks.filter fun t => t.taskType = .reconcile && t.manifestVersion ≠ 0 && t.kind = kind
    && t.kindVersion = version && composeAccepted db t

/-- A publish finds no reconcile of another manifest in flight, the removal of a kind finds
none, and a claim takes reconciles of the stored manifest. -/
def SeesManifests (db : Db) : Action → Prop
  | .upsertKindManifest m =>
    1 ≤ m.kindVersion → ∀ t ∈ inFlight db m.kind m.kindVersion, t.manifestVersion = m.manifestVersion
  | .deleteKindManifest kind version =>
    (deleteKindManifest db kind version).isSome = true → inFlight db kind version = []
  | .workQueueTakeBatch scan b =>
    ∀ q ∈ takenRows db scan b, q.taskType = .reconcile → q.manifestVersion ≠ 0 →
      published db q.kind q.kindVersion = some q.manifestVersion
  | _ => True

instance (db : Db) (a : Action) : Decidable (SeesManifests db a) := by
  induction a using Action.casesOn <;> dsimp only [SeesManifests] <;> infer_instance

end Statement

section Fences

variable [Postgres] {db db' : Db}

/-! ## Tasks and the rows they hold -/

/-- A task that holds its row has the row's manifest version. -/
def Stamped (db : Db) : Prop :=
  ∀ t ∈ db.tasks, ∀ q ∈ db.workQueue, q.id = t.id → q.claimEpoch = t.claimEpoch →
    q.manifestVersion = t.manifestVersion

/-- A queue row is new, or it was there: with a smaller epoch, or with its manifest version. -/
theorem Effect.stamps {l : Label} (effect : Effect l db db') {q' : WorkQueueRow} (after : q' ∈ db'.workQueue) :
    (∃ cause, Enqueued db cause q') ∨ ∃ q ∈ db.workQueue, q.id = q'.id ∧ (q.claimEpoch < q'.claimEpoch ∨
        q.claimEpoch = q'.claimEpoch ∧ q.manifestVersion = q'.manifestVersion) := by
  rcases effect.queue_step after with ⟨cause, -, new, -⟩ | ⟨q, here, step⟩
  · exact .inl ⟨cause, new⟩
  · refine .inr ⟨q, here, ?_⟩
    cases step with
    | same => exact ⟨rfl, .inr ⟨rfl, rfl⟩⟩
    | repoint | claim | free => exact ⟨rfl, .inl (Nat.lt_succ_self _)⟩
    | touch touched => exact ⟨touched.id.symm, .inr ⟨touched.claimEpoch.symm, touched.manifestVersion.symm⟩⟩

theorem claim_row {scan : Scan Uuid} {b : TakeBatch} {q q' : WorkQueueRow} (taken : q ∈ takenRows db scan b) :
    q' ∈ (workQueueTakeBatch db scan b).workQueue ∧ q'.id = q.id ↔ q' = claimRow b.brokerId db.now q := by
  have here := (mem_takenRows taken).1
  rw [← lookup_eq_some workQueue_primary, lookup_claim,
    lookup_of_mem workQueue_primary here, map_some, if_pos (mem_map_of_mem taken)]
  exact ⟨fun h => (some.inj h).symm, fun h => congrArg some h.symm⟩

theorem Effect.stamped {l : Label} (effect : Effect l db db') (good : Leases db)
    (stamped : Stamped db) : Stamped db' := by
  intro t handed q' after same current
  -- a task that is not new had a row that was not ahead
  have old (before : t ∈ db.tasks) : q'.manifestVersion = t.manifestVersion := by
    rcases effect.stamps after with ⟨cause, new⟩ | ⟨q, here, id, moved⟩
    · have drawn : db.Drawn t.id := by
        by_contra unborn
        have none_ := ((good t.id).unborn unborn).2.2.1
        exact absurd (lease_claims before) (by rw [none_]; exact Set.notMem_empty _)
      rw [← same, new.id] at drawn
      exact absurd drawn (not_drawn_next _)
    · have le := task_epoch_le good before here (id.trans same)
      rcases moved with ahead | ⟨still, manifest⟩
      · omega
      · rw [← manifest]
        exact stamped t before q here (id.trans same) (still.trans current)
  cases effect with
  | claim scan b =>
    rcases mem_tasks_claim.mp handed with ⟨q, taken, rfl⟩ | before
    · obtain rfl := (claim_row taken).mp ⟨after, same⟩
      rfl
    · exact old before
  | aux core => exact old (core.tasks ▸ handed)
  | _ => exact old handed

theorem Reachable.stamped (reachable : Reachable db) : Stamped db := by
  refine (reachable.induction (I := fun s => Leases s ∧ Stamped s)
    ⟨leases_empty, fun t h => nomatch h⟩ fun s a both => ?_).2
  exact Steps.keeps (I := fun s => Leases s ∧ Stamped s)
    (fun _ effect both => ⟨effect.leases both.1, effect.stamped both.1 both.2⟩) (step_effects s a) both

/-! ## The two fences are one -/

section Held

variable (reachable : Reachable db) {t : WorkTask} (handed : t ∈ db.tasks)
include reachable handed

/-- A reconcile that is accepted still holds its claim, and one that holds it is accepted. -/
theorem composeAccepted_iff : composeAccepted db t = true ↔
    ∃ q ∈ db.workQueue, q.id = t.id ∧ q.claimEpoch = t.claimEpoch := by
  simp only [composeAccepted, List.any_eq_true, claimHeld, Bool.and_eq_true, decide_eq_true_eq]
  constructor
  · rintro ⟨q, here, ⟨⟨same, current⟩, -⟩, -⟩
    exact ⟨q, here, same, current⟩
  · rintro ⟨q, here, same, current⟩
    have gen := (task_leases reachable.leases handed here same current.symm).1
    have manifest := reachable.stamped t handed q here same current
    refine ⟨q, here, ⟨⟨same, current⟩, gen.symm⟩, ?_⟩
    rw [manifest, decide_eq_true rfl, Bool.or_true]

theorem accepts_iff : Accepts db t ↔ composeAccepted db t = true := by
  refine ⟨?_, .inr⟩
  rintro (⟨o, rfl, accepted⟩ | accepted)
  · obtain ⟨q, here, matched⟩ := any_eq_true.mp accepted
    simp only [tokenMatches, Bool.and_eq_true, decide_eq_true_eq] at matched
    exact (composeAccepted_iff reachable handed).mpr ⟨q, here, matched.1.1.1, matched.1.1.2⟩
  · exact accepted

theorem composeAccepted_back {a : Action} (later : composeAccepted (step db a) t = true) :
    composeAccepted db t = true := by
  by_contra refused
  have ended : Fence.Superseded (lease db t.id) t.token := by
    intro s slot current
    obtain ⟨q, here, same, rfl⟩ := of_lease_slot slot
    exact refused ((composeAccepted_iff reachable handed).mpr ⟨q, here, same, current⟩)
  have stays := Fence.superseded_stays ((step_effects db a).lease reachable.leases t.id)
    (reachable.leases t.id) (lease_claims handed) ended
  obtain ⟨q, here, same, current⟩ := (composeAccepted_iff (reachable.step a)
    ((step_effects db a).tasks_subset handed)).mp later
  refine stays q.slot ?_ current
  rw [← same]
  exact lease_slot here

end Held

/-- What a state makes of its tasks, on the fences as they are evaluated. -/
theorem upToDate_iff (reachable : Reachable db) : UpToDate db ↔
    ∀ t ∈ db.tasks, t.taskType = .reconcile → t.manifestVersion ≠ 0 → composeAccepted db t = true →
      published db t.kind t.kindVersion = some t.manifestVersion := by
  constructor
  · intro current t handed type manifest accepted
    exact current t handed type manifest (.inr accepted)
  · intro current t handed type manifest accepted
    exact current t handed type manifest ((accepts_iff reachable handed).mp accepted)

/-! ## Steps -/

theorem applySpec_kindManifest {args : ApplySpec} (done : applySpec db args = some db') :
    db'.kindManifest = db.kindManifest := by
  obtain ⟨config, -, ⟨mid, r, create, -, rfl⟩ | ⟨prev, -, ⟨-, rfl⟩ | ⟨-, mid, r, write, rfl⟩⟩⟩ :=
    applySpec_cases done
  · exact (created_only mid r).kindManifest.trans (createRoot_announces create).kindManifest
  · rfl
  · exact (created_only mid r).kindManifest.trans (overwriteRoot_announces write).kindManifest

theorem UpToDate.step_of_same (reachable : Reachable db) (current : UpToDate db) {a : Action}
    (tasks : (step db a).tasks = db.tasks) (manifests : (step db a).kindManifest = db.kindManifest) :
    UpToDate (step db a) := by
  rw [upToDate_iff (reachable.step a)]
  intro t handed type manifest accepted
  rw [tasks] at handed
  rw [published, manifests]
  exact (upToDate_iff reachable).mp current t handed type manifest
    (composeAccepted_back reachable handed accepted)

theorem mem_inFlight {kind : String} {version : Nat} {t : WorkTask} : t ∈ inFlight db kind version ↔
    t ∈ db.tasks ∧ t.taskType = .reconcile ∧ t.manifestVersion ≠ 0 ∧
      (t.kind, t.kindVersion) = (kind, version) ∧ composeAccepted db t = true := by
  simp only [inFlight, mem_filter, Bool.and_eq_true, decide_eq_true_eq, Prod.mk.injEq]
  tauto

/-- A write of the manifest of one kind and version decides for the reconciles of it in flight. -/
theorem current_of_write (reachable : Reachable db) (current : UpToDate db) {a : Action} {kind : String}
    {version : Nat} {now : Option Int} (tasks : (step db a).tasks = db.tasks)
    (queue : (step db a).workQueue = db.workQueue)
    (written : ∀ k v, published (step db a) k v = if (k, v) = (kind, version) then now else published db k v) :
    UpToDate (step db a) ↔ ∀ t ∈ inFlight db kind version, now = some t.manifestVersion := by
  have accepted (t : WorkTask) : composeAccepted (step db a) t = composeAccepted db t := by
    rw [composeAccepted, queue, composeAccepted]
  rw [upToDate_iff (reachable.step a)]
  constructor
  · intro later t flying
    obtain ⟨handed, type, manifest, same, held⟩ := mem_inFlight.mp flying
    have stored := later t (tasks ▸ handed) type manifest ((accepted t).trans held)
    rwa [written, if_pos same] at stored
  · intro none t handed type manifest held
    rw [tasks] at handed
    rw [accepted] at held
    rw [written]
    split
    · rename_i same
      exact none t (mem_inFlight.mpr ⟨handed, type, manifest, same, held⟩)
    · exact (upToDate_iff reachable).mp current t handed type manifest held

theorem manifest_primary : Table.Primary fun m : KindManifest => (m.kind, m.kindVersion) :=
  fun _ _ h => h

theorem lookup_unpublished (kind : String) (version : Nat) (k : String) (v : Nat) :
    (db.kindManifest.deleteWhere fun m => m.kind = kind && m.kindVersion = version).lookup
        (fun m => (m.kind, m.kindVersion)) (k, v) =
      if (k, v) = (kind, version) then none
      else db.kindManifest.lookup (fun m => (m.kind, m.kindVersion)) (k, v) := by
  rw [lookup_deleteWhere manifest_primary]
  cases found : db.kindManifest.lookup (fun m => (m.kind, m.kindVersion)) (k, v) with
  | none => rw [filter_none, ite_self]
  | some m =>
    obtain ⟨-, same⟩ := mem_of_lookup found
    cases same
    simp only [filter_some, Prod.mk.injEq]
    by_cases removed : m.kind = kind ∧ m.kindVersion = version
    · rw [if_pos removed, decide_eq_true removed.1, decide_eq_true removed.2]
      rfl
    · rw [if_neg removed, if_pos]
      simpa only [Bool.not_eq_true', Bool.and_eq_false_iff, decide_eq_false_iff_not, not_and_or] using removed

theorem publish_fields (db : Db) {m : KindManifest} (served : ¬ m.kindVersion < 1) :
    (step db (.upsertKindManifest m)).tasks = db.tasks ∧
      (step db (.upsertKindManifest m)).workQueue = db.workQueue ∧
      (step db (.upsertKindManifest m)).kindManifest = (db.kindManifest.deleteWhere fun k =>
        k.kind = m.kind && k.kindVersion = m.kindVersion).insertNew m := by
  simp only [step, upsertKindManifest, if_neg served, getD_some]
  split
  · rw [updateResources_still]
    · exact ⟨rfl, rfl, rfl⟩
    · exact fun _ => ⟨rfl, rfl, rfl, rfl⟩
  · exact ⟨rfl, rfl, rfl⟩

section

variable (reachable : Reachable db) (current : UpToDate db)

include reachable current

theorem publish_upToDate (m : KindManifest) :
    UpToDate (step db (.upsertKindManifest m)) ↔ SeesManifests db (.upsertKindManifest m) := by
  by_cases refused : m.kindVersion < 1
  · have same : step db (.upsertKindManifest m) = db := by
      simp only [step, upsertKindManifest, if_pos refused, getD_none]
    rw [same]
    exact iff_of_true current fun served => absurd refused (Nat.not_lt.mpr served)
  · obtain ⟨tasks, queue, manifests⟩ := publish_fields db refused
    have written (k : String) (v : Nat) : published (step db (.upsertKindManifest m)) k v =
        if (k, v) = (m.kind, m.kindVersion) then some m.manifestVersion else published db k v := by
      rw [published, manifests, lookup_insertNew (fun _ _ => Iff.rfl), lookup_unpublished, published]
      by_cases same : (k, v) = (m.kind, m.kindVersion)
      · rw [if_pos same, if_pos same, if_pos same.symm, none_or, map_some]
      · rw [if_neg same, if_neg same, if_neg (Ne.symm same), or_none]
    rw [current_of_write reachable current tasks queue written]
    constructor
    · intro all _ t flying
      exact (some.inj (all t flying)).symm
    · intro all t flying
      rw [all (Nat.not_lt.mp refused) t flying]

theorem remove_upToDate (kind : String) (version : Nat) :
    UpToDate (step db (.deleteKindManifest kind version)) ↔
      SeesManifests db (.deleteKindManifest kind version) := by
  cases done : deleteKindManifest db kind version with
  | none =>
    have same : step db (.deleteKindManifest kind version) = db := by
      simp only [step, done, getD_none]
    rw [same]
    refine iff_of_true current fun served => ?_
    rw [done] at served
    cases served
  | some db' =>
    have same : step db (.deleteKindManifest kind version) = db' := by
      simp only [step, done, getD_some]
    have fields : db'.tasks = db.tasks ∧ db'.workQueue = db.workQueue ∧
        db'.kindManifest = db.kindManifest.deleteWhere fun m =>
          m.kind = kind && m.kindVersion = version := by
      unfold deleteKindManifest at done
      split at done
      · cases done
      · split at done
        · cases done
        · cases done
          exact ⟨rfl, rfl, rfl⟩
    have written (k : String) (v : Nat) : published (step db (.deleteKindManifest kind version)) k v =
        if (k, v) = (kind, version) then none else published db k v := by
      rw [same, published, fields.2.2, lookup_unpublished]
      split <;> rfl
    rw [current_of_write reachable current (same ▸ fields.1) (same ▸ fields.2.1) written]
    rw [SeesManifests, done, eq_nil_iff_forall_not_mem]
    constructor
    · exact fun all _ t flying => absurd (all t flying) (by simp)
    · exact fun landed t flying => absurd flying (landed rfl t)

theorem claim_upToDate (scan : Scan Uuid) (b : TakeBatch) :
    UpToDate (step db (.workQueueTakeBatch scan b)) ↔ SeesManifests db (.workQueueTakeBatch scan b) := by
  rw [upToDate_iff (reachable.step _)]
  constructor
  · intro later q taken type manifest
    have handed : taskOf (claimRow b.brokerId db.now q) ∈ (workQueueTakeBatch db scan b).tasks :=
      mem_tasks_claim.mpr (.inl ⟨q, taken, rfl⟩)
    obtain ⟨there, -⟩ := (claim_row taken).mpr rfl
    refine later _ handed type manifest ?_
    exact (composeAccepted_iff (reachable.step (.workQueueTakeBatch scan b)) handed).mpr ⟨_, there, rfl, rfl⟩
  · intro stored t handed type manifest accepted
    rcases mem_tasks_claim.mp handed with ⟨q, taken, rfl⟩ | before
    · exact stored q taken type manifest
    · exact (upToDate_iff reachable).mp current t before type manifest
        (composeAccepted_back reachable before accepted)

theorem step_upToDate (a : Action) :
    UpToDate (step db a) ↔ SeesManifests db a := by
  have other (noClaim : ¬ a.allows db .claim) (announced : a.Announced) : UpToDate (step db a) :=
    current.step_of_same reachable ((step_effects db a).tasks_eq noClaim)
      (step_announces db announced).kindManifest
  cases a with
  | upsertKindManifest m => exact publish_upToDate reachable current m
  | deleteKindManifest kind version => exact remove_upToDate reachable current kind version
  | workQueueTakeBatch scan b => exact claim_upToDate reachable current scan b
  | applySpec args =>
    refine iff_of_true (current.step_of_same reachable ((step_effects db _).tasks_eq id) ?_) trivial
    simp only [step]
    cases done : applySpec db args with
    | none => rfl
    | some db' => exact applySpec_kindManifest done
  | _ =>
    refine iff_of_true (other ?_ trivial) trivial
    first
      | exact id
      | exact fun h => by cases h

end

/-- **Only results of the stored manifest are accepted, in all states of a run, exactly if**
every write of a manifest and every claim of the run sees to it. -/
theorem results_current (actions : List Action) : Along (fun db a => UpToDate (step db a)) Db.empty actions ↔
      Along SeesManifests Db.empty actions := by
  refine Along.iff_keeps ?_ .empty fun t handed => nomatch handed
  intro db a _ reachable current
  exact step_upToDate reachable current a

end Fences

/-- The manifest of `vm`, as published with some content. -/
def vmManifest (version : Int) : Action :=
  .upsertKindManifest ⟨"vm", 1, none, 0, 0, 0, false, 0, 0, false, version⟩

/-- A vm is reconciled under its first manifest, and after the second was published under
that. -/
def republished : Script :=
  [fun _ => [vmManifest 7, applyRoot "vm" "a", claimAll "b" "vm" .reconcile], returns "vm" success,
    fun _ => [vmManifest 8, .reconcile 0, claimAll "b" "vm" .reconcile]]

theorem results_current_republished : letI := counting
    let actions := republished.play Db.empty
    Along (fun db a => UpToDate (step db a)) Db.empty actions ∧
      (run Db.empty actions).tasks.map (·.manifestVersion) = [8, 7] := by
  intro actions
  have facts : letI := counting
      Along SeesManifests Db.empty actions ∧ (run Db.empty actions).tasks.map (·.manifestVersion) = [8, 7] := by
    decide +kernel
  exact ⟨(@results_current counting actions).mpr facts.1, facts.2⟩

/-- A publish while a reconcile runs, and one while it waits to be claimed: the result and the
compose of the first manifest are accepted under the second. -/
theorem old_manifest_commits : letI := counting
    [[vmManifest 7, applyRoot "vm" "a", claimAll "b" "vm" .reconcile, vmManifest 8],
        [vmManifest 7, applyRoot "vm" "a", vmManifest 8, claimAll "b" "vm" .reconcile]].Forall fun actions =>
      let db := run Db.empty actions
      published db "vm" 1 = some 8 ∧ ∃ t ∈ db.tasks, t.kind = "vm" ∧ t.kindVersion = 1 ∧ t.manifestVersion = 7 ∧
          success t ∈ (step db (.appendOutbox (success t))).workOutbox.rows ∧
          (applyComposeResult db ⟨id, id, fun _ _ => Scan.plain⟩ t ⟨[], [], []⟩
            ⟨fun _ _ => 0, fun _ _ => ""⟩).isSome = true := by
  decide +kernel

end Converge.Kernel
