/-
# Guarantees.ChildRecreation -- a child that is emitted while it drains

A compose that emits a child whose row is being torn down finds the row, so it inserts
nothing; the update skips marked rows, and `composed_gen` is stamped all the same.  When
the teardown is done the row goes, and its owner is as composed as before: nothing
queues it again.

Children are inserted by composes of their parent only.  `drained_child_returns` says
what follows: a child that is draining has a live row in a later state only if a compose
of the parent committed in between, after the row was gone, that emitted the child and so
inserted it again; and then it has one if the steps after that compose spare the child.
-/
import Converge.Guarantees.MarkClosure

namespace Converge.Kernel

open Converge.Theory Table

set_option autoImplicit false
set_option linter.unusedSectionVars false

section Recreation

variable [Postgres] {db db' : Db} {p : Uuid} {ref : ResourceRef} {r : Resource}

/-- A row of the child, not being deleted. -/
structure LiveChild (db : Db) (p : Uuid) (ref : ResourceRef) (r : Resource) : Prop where
  stored : r ∈ db.resources
  child : r.ref = ref
  owned : r.ownerId = some p
  unmarked : r.marked = false

/-- The action is a compose of the parent that commits, emits the child and finds no row
of it. -/
inductive Recreates (db : Db) (p : Uuid) (ref : ResourceRef) : Action → Prop
  | intro {env : ComposeEnv} {t : WorkTask} {out : ComposeOutput} {pol : ComposePolicy}
      {c : ChildSpec} {db' : Db} (parent : t.resourceId = p)
      (claimed : t ∈ db.tasks ∧ t.taskType = .reconcile)
      (committed : applyComposeResult db env t out pol = some db') (emitted : c ∈ out.children)
      (child : c.ref = ref) (new : NewChild db t c) :
      Recreates db p ref (.applyComposeResult env t out pol)

theorem ref_sameRow {r' : Resource} (same : SameRow r r') : r'.ref = r.ref := by
  rw [Resource.ref, Resource.ref, same.kind, same.name]

/-! ## Children come from composes of their parent -/

theorem compose_inserts {env : ComposeEnv} {t : WorkTask} {out : ComposeOutput} {pol : ComposePolicy}
    (claimed : t ∈ db.tasks) (done : applyComposeResult db env t out pol = some db')
    (after : r ∈ db'.resources) (new : ¬ Stored db r.id) (owned : r.ownerId ≠ none) :
    r.ownerId = some t.resourceId ∧ ∃ c ∈ out.children, c.ref = r.ref ∧ NewChild db t c := by
  obtain ⟨parent, upserted, produced, wired, stages, wrote⟩ := applyComposeResult_parts claimed done
  obtain ⟨inserted, insert, rfl⟩ := Option.map_eq_some_iff.mp stages.upsert
  -- once the new children are in, only roots could be inserted
  have sweeping : ∀ l : Label, l.Sweeps → ∀ owner, l = .insert owner → owner = none := by
    rintro l sweeps owner rfl
    exact sweeps
  have writing : ∀ l : Label, l.Wrote → ∀ owner, l = .insert owner → owner = none := by
    rintro l writes owner rfl
    exact writes
  have update := updateChildren_effects (Writable.wrote inserted)
    (changedChildren (shuffle env.childOrder (existingChildren db parent.id)) out)
  have rest : Effects (fun l => ∀ owner, l = .insert owner → owner = none) inserted db' :=
    (update.mono writing).trans (stages.rest_effects sweeping writing (fun _ h => nomatch h) wrote)
  obtain ⟨s, here, same⟩ := rest.owned_before (fun owner ok => ok owner rfl) after owned
  rw [stages.parent_id] at insert
  rcases insertChildren_mem insert here with old | ⟨c, listed, row⟩
  · exact absurd ⟨s, old, same.id.symm⟩ new
  · obtain ⟨emitted, fresh⟩ := mem_newChildren.mp listed
    refine ⟨same.ownerId.trans row.ownerId, c, emitted, ?_, fresh⟩
    rw [ref_sameRow same, row.ref]

/-- A step that brings a row of the child in is a compose that recreates it. -/
theorem step_recreates {a : Action} (after : r ∈ (step db a).resources)
    (new : ¬ Stored db r.id) (owned : r.ownerId = some p) : Recreates db p r.ref a := by
  have some_ : r.ownerId ≠ none := by
    rw [owned]
    exact fun h => nomatch h
  by_cases rooted : a.Rooted
  · obtain ⟨s, here, same⟩ :=
      (step_rooted db rooted).owned_before (fun _ root => root) after some_
    exact absurd ⟨s, here, same.id.symm⟩ new
  · cases a with
    | applyComposeResult env t out pol =>
      simp only [step, submitCompose] at after
      split at after
      · rename_i claimed
        cases done : applyComposeResult db env t out pol with
        | none =>
          rw [done] at after
          exact absurd ⟨r, after, rfl⟩ new
        | some last =>
          rw [done] at after
          obtain ⟨parent, c, emitted, child, fresh⟩ :=
            compose_inserts claimed.1 done after new some_
          refine .intro ?_ claimed done emitted child fresh
          exact Option.some.inj (parent.symm.trans owned)
      · exact absurd ⟨r, after, rfl⟩ new
    | _ => exact absurd trivial rooted

theorem Recreates.leaves (reachable : Reachable db) {a : Action} (recreates : Recreates db p ref a) :
    ∃ r, LiveChild (step db a) p ref r ∧ ¬ Stored db r.id := by
  obtain ⟨parent, claimed, committed, emitted, child, new⟩ := recreates
  rename_i env t out pol c db'
  obtain ⟨row, upserted, produced, wired, stages, wrote⟩ :=
    applyComposeResult_parts claimed.1 committed
  obtain ⟨own, lineage⟩ := reachable.lineage
  have named := reachable.named
  obtain ⟨r, here, sameRef, owned, fresh⟩ := stages.new_row named emitted new
  have live := stages.inserted_live named lineage here ⟨owned, c, emitted, sameRef.symm⟩ fresh wrote
    committed db' (stages.last_mem committed)
  have after : step db (.applyComposeResult env t out pol) = db' := by
    show submitCompose db env t out pol = db'
    rw [submitCompose, if_pos claimed, committed]
    rfl
  have rest := stages.rest_effects (fun _ => Label.Sweeps.plain) (fun _ => Label.Wrote.plain) trivial wrote
  obtain ⟨r', stored, same⟩ := live.1
  obtain ⟨r₀, here₀, same₀, rowSame⟩ := Effects.tracks respects_sameRow rest stored
    (same ▸ stages.named_upserted named r here)
  obtain rfl := eq_of_pk resource_primary here₀ here (same₀.trans same)
  rw [after]
  refine ⟨r', ⟨stored, ?_, ?_, ?_⟩, same ▸ fresh⟩
  · rw [ref_sameRow rowSame, sameRef, child]
  · rw [rowSame.ownerId, owned, parent]
  · rw [← same] at live
    exact (live_of_mem stored).mp live

/-! ## Along a run -/

theorem run_effects (db : Db) (actions : List Action) : Effects (fun _ => True) db (run db actions) := by
  induction actions generalizing db with
  | nil => exact .refl
  | cons a rest ih => exact ((step_effects db a).mono fun _ _ => trivial).trans (ih (step db a))

/-- A row whose id `db` drew is a row of `db`: same kind, name and owners, no lower generation,
marked if it was. -/
def Descends (db db' : Db) : Prop := ∀ r' ∈ db'.resources, db.Drawn r'.id →
  ∃ r ∈ db.resources, SameRow r r' ∧ r.generation ≤ r'.generation ∧ (r.marked = true → r'.marked = true)

/-- **No row changes its identity, goes back or returns.** -/
theorem rows_descend (before later : List Action) :
    Descends (run Db.empty before) (run Db.empty (before ++ later)) := by
  intro r' after drawn
  rw [run_append] at after
  have run := run_effects (run Db.empty before) later
  obtain ⟨r, here, same, row⟩ := Effects.tracks respects_sameRow run after drawn
  obtain ⟨s, there, same', le⟩ := Effects.tracks respects_grows run after drawn
  obtain rfl := eq_of_pk resource_primary here there (same.trans same'.symm)
  refine ⟨r, here, row, le, fun marked => (marked_of_mem after).mp (run.marked_stays drawn ?_ ⟨r', after, rfl⟩)⟩
  rw [← same, marked_of_mem here]
  exact marked

theorem stored_since {id : Uuid} {actions : List Action} (before : ¬ Stored db id)
    (after : Stored (run db actions) id) : ∃ first a later, actions = first ++ a :: later ∧
      ¬ Stored (run db first) id ∧ Stored (step (run db first) a) id := by
  induction actions generalizing db with
  | nil => exact absurd after before
  | cons a rest ih =>
    by_cases now : Stored (step db a) id
    · exact ⟨[], a, rest, rfl, before, now⟩
    · obtain ⟨first, b, later, rfl, missing, there⟩ := ih now after
      exact ⟨a :: first, b, later, rfl, missing, there⟩

/-! ## Steps that spare a live row -/

/-- What a step needs to spare the live row of `x`: the mark tree of a deletion request, or
of one that a compose makes, does not reach it, and neither a compose nor an orphan sweep
removes it with a row that owns it. -/
def SparesRow (x : Uuid) (db : Db) : Action → Prop
  | .requestResourceDeletion _ id => x ∉ markTree db id
  | .applyComposeResult env t out pol => (applyComposeResult db env t out pol).isSome →
    ∀ upserted ∈ upsertedBy db env t out,
      (∀ e ∈ softStale pol (droppedBy db env t out), x ∉ markTree upserted e.id) ∧
        x ∉ cascaded upserted (hardStale pol (droppedBy db env t out))
  | .sweepExpiredOrphans scan n range => x ∉ (softOrphans db scan n range).map (·.id) ∧
    x ∉ cascaded db ((hardOrphans db scan n range).map (·.id))
  | _ => True

instance (x : Uuid) (db : Db) (a : Action) : Decidable (SparesRow x db a) := by
  induction a using Action.casesOn <;> dsimp only [SparesRow] <;> infer_instance

/-- The step spares the live row of the child. -/
def SparesChild (p : Uuid) (ref : ResourceRef) (db : Db) (a : Action) : Prop :=
  ∀ r ∈ db.resources.rows, r.ref = ref → r.ownerId = some p → r.marked = false → SparesRow r.id db a
deriving Decidable

section Spared

variable {x : Uuid} (live : Live db x)

include live

theorem tame_live (run : Effects Label.Tame db db') : Live db' x := by
  have same := (run.tame fun _ h => h).1
  obtain ⟨⟨r, here, rfl⟩, unmarked⟩ := live
  obtain ⟨r', after, node⟩ := same.kept r here
  exact ⟨⟨r', after, node.id⟩, by rwa [same.marked]⟩

theorem request_live {scans : Nat → Scan Uuid} {id : Uuid} (out : x ∉ markTree db id) :
    Live (requestResourceDeletion db scans id) x := by
  cases found : db.resource? id with
  | none =>
    rw [requestResourceDeletion, if_neg (by simp [found])]
    exact live
  | some e =>
    obtain ⟨-, rfl⟩ := mem_of_lookup found
    have apart : ∀ s ∈ [e], ¬ Relation.ReflTransGen (Spreads db) s.id x :=
      fun s listed path => out (mem_markTree.mpr (List.mem_singleton.mp listed ▸ path))
    have last : Live ((softTrace (fun _ => scans) [e] db).getLastD db) x :=
      softTrace_live live apart _ List.getLastD_mem_cons
    rwa [softTrace_last] at last

theorem sweepDeletable_live {scans : Nat → Scan Uuid} {n : Nat} {range : ShardRange} :
    Live (sweepDeletable db scans n range) x := by
  have chain := sweepTrace_isChain (R := fun s s' => Live s x → Live s' x)
    (fun s scan n range => (live_congr (sweepEnqueue_only s scan n range).resources).mpr)
    (fun _ _ _ _ => live_swept.mpr) n range (2 * db.resources.rows.length + 1) scans 0 db
  rw [sweepDeletable, ← sweepTrace_last]
  exact (chain_keeps (fun _ _ step h => ⟨step h, trivial⟩) chain live (S := fun _ _ => True)).2

theorem removeTornDown_live (rowScan : Scan Uuid) (results : List OutboxRow) :
    Live (removeTornDown db rowScan results) x := by
  refine (live_unblocked fun r picked => ?_).mpr live
  obtain ⟨there, ready⟩ := List.mem_filter.mp picked
  simp only [Bool.and_eq_true] at ready
  exact ⟨there, ready.1.1.2⟩

theorem drain_live {scan rowScan : Scan Uuid} {order : Nat → Nat} {n : Nat} {range : ShardRange}
    (done : drainOutboxBatch db scan rowScan order n range = some db') : Live db' x := by
  by_cases none : popped db scan n range = []
  · obtain rfl := drainOutboxBatch_none none done
    exact live
  have waiting : ∀ o ∈ popped db scan n range, o ∈ db.workOutbox := popped_waiting
  have stripped := tame_live live (stripped_effects waiting popped_nodup)
  have torn : Live (drainTeardowns db rowScan (popped db scan n range)) x :=
    (live_congr (requeueTeardowns_only _ _).resources).mpr (removeTornDown_live stripped _ _)
  exact tame_live torn (drained_effects (Writable.tame _) trivial (fun _ _ => trivial) none done)

theorem orphans_live {scan : Scan Uuid} {n : Nat} {range : ShardRange}
    (soft : x ∉ (softOrphans db scan n range).map (·.id))
    (hard : x ∉ cascaded db ((hardOrphans db scan n range).map (·.id))) :
    Live (sweepExpiredOrphans db scan n range) x := by
  refine live_deleteResources.mpr ⟨⟨orphansQueued_stored.mpr live.1, fun marked => ?_⟩,
    fun gone => hard (mem_cascaded_orphansQueued.mp gone)⟩
  rcases marked_orphansQueued.mp marked with old | ⟨r, listed, rfl⟩
  · exact live.2 old
  · exact soft (List.mem_map_of_mem listed)

theorem compose_live {env : ComposeEnv} {t : WorkTask} {out : ComposeOutput} {pol : ComposePolicy}
    (named : Named db) (claimed : t ∈ db.tasks) (done : applyComposeResult db env t out pol = some db')
    (spared : SparesRow x db (.applyComposeResult env t out pol)) : Live db' x := by
  obtain ⟨parent, upserted, produced, wired, stages, wrote⟩ := applyComposeResult_parts claimed done
  obtain ⟨soft, hard⟩ := spared (by rw [done]; rfl) upserted stages.upserted_eq
  refine stages.spared_lives named (stages.before.mild_live named live)
    (fun e listed path => soft e listed (mem_markTree.mpr path)) (fun gone => hard ?_) wrote done db'
    (stages.last_mem done)
  -- the requests and the grace add no owner
  obtain ⟨s, listed, stored, path⟩ := mem_cascaded.mp gone
  have back {r' : Resource} (after : r' ∈ (gracedBy upserted env.scans pol (droppedBy db env t out)).resources)
      (owned : r'.ownerId ≠ none) : ∃ r ∈ upserted.resources, SameRow r r' :=
    stages.grace_effects.owned_before (fun _ ok => ok) after owned
  have owns {a b : Uuid} (below : Owns (gracedBy upserted env.scans pol (droppedBy db env t out)) a b) :
      Owns upserted a b := by
    obtain ⟨r', after, rfl, owned⟩ := below
    obtain ⟨r, here, same⟩ := back after (by rw [owned]; simp)
    exact ⟨r, here, same.id.symm, same.ownerId.symm.trans owned⟩
  refine mem_cascaded.mpr ⟨s, listed, ?_, Relation.ReflTransGen.mono (fun _ _ => owns) _ _ path⟩
  obtain ⟨e, stale, rfl⟩ := List.mem_map.mp listed
  exact stages.before.mild_stored ⟨e, (mem_droppedBy.mp (List.mem_filter.mp stale).1).1, rfl⟩

/-- **A step that spares a live row keeps it.** -/
theorem spared_live (reachable : Reachable db) (a : Action) (spared : SparesRow x db a) : Live (step db a) x := by
  cases a with
  | requestResourceDeletion scans id => exact request_live live spared
  | sweepDeletable scans n range => exact sweepDeletable_live live
  | drainOutboxBatch scan rowScan order n range =>
    exact getD_cases (P := (Live · x)) live fun _ done => drain_live live done
  | sweepExpiredOrphans scan n range => exact orphans_live live spared.1 spared.2
  | applyComposeResult env t out pol =>
    exact submitCompose_cases live fun _ claimed done => compose_live live reachable.named claimed done spared
  | _ => exact tame_live live (step_tame db trivial)

end Spared

theorem LiveChild.later (live : LiveChild db p ref r) (reachable : Reachable db) (actions : List Action)
    (alive : Live (run db actions) r.id) : ∃ r', LiveChild (run db actions) p ref r' ∧ r'.id = r.id := by
  obtain ⟨⟨s, stored, same⟩, unmarked⟩ := alive
  obtain ⟨s', there, sameId, row⟩ := Effects.tracks respects_sameRow (run_effects db actions) stored
    (same ▸ reachable.named r live.stored)
  obtain rfl := eq_of_pk resource_primary there live.stored (sameId.trans same)
  refine ⟨s, ⟨stored, (ref_sameRow row).trans live.child, row.ownerId.trans live.owned, ?_⟩, same⟩
  rw [← same] at unmarked
  exact (live_of_mem stored).mp ⟨⟨s, stored, rfl⟩, unmarked⟩

/-- **A run whose steps spare the child keeps it.** -/
theorem LiveChild.spared (live : LiveChild db p ref r) (reachable : Reachable db) {actions : List Action}
    (along : Along (SparesChild p ref) db actions) : ∃ r', LiveChild (run db actions) p ref r' := by
  refine along.keeps (I := fun s => ∃ r, LiveChild s p ref r) (fun s a there ok held => ?_) reachable ⟨r, live⟩
  obtain ⟨r, live⟩ := held
  have stays := spared_live ((live_of_mem live.stored).mpr live.unmarked) there a
    (ok r live.stored live.child live.owned live.unmarked)
  obtain ⟨r', next, -⟩ := live.later there [a] stays
  exact ⟨r', next⟩

/-- **When a drained child returns.**  Take any reachable state in which the child of a
parent is being torn down, whatever a compose of the parent has emitted meanwhile, and any
run from it.  The child has a live row under the parent at the end only if a compose of the
parent committed on the way that emitted it and found no row of it; and if the steps after
such a compose spare the child, it has one. -/
theorem drained_child_returns (reachable : Reachable db) {r : Resource} (here : r ∈ db.resources)
    (owned : r.ownerId = some p) (draining : r.marked = true) (actions : List Action) :
    ((∃ r', LiveChild (run db actions) p r.ref r') →
      ∃ first a later, actions = first ++ a :: later ∧ Recreates (run db first) p r.ref a) ∧
    ∀ first a later, actions = first ++ a :: later → Recreates (run db first) p r.ref a →
      Along (SparesChild p r.ref) (step (run db first) a) later →
        ∃ r', LiveChild (run db actions) p r.ref r' := by
  constructor
  · rintro ⟨r', live⟩
    have effects := run_effects db actions
    -- the draining row stays marked, so this is another one
    have new : ¬ Stored db r'.id := by
      rintro ⟨s, stored, same⟩
      obtain ⟨s', there, sameId, row⟩ := Effects.tracks respects_sameRow effects live.stored
        (same ▸ reachable.named s stored)
      obtain rfl : s' = r := Resource.eq_of_ref there here ((ref_sameRow row).symm.trans live.child)
      have still := effects.live_back (reachable.named s' here)
        (sameId ▸ (live_of_mem live.stored).mpr live.unmarked)
      rw [live_of_mem here, draining] at still
      cases still
    obtain ⟨first, a, later, rfl, missing, s, stored, same⟩ := stored_since new ⟨r', live.stored, rfl⟩
    rw [run_append] at live
    obtain ⟨s', there, sameId, row⟩ := Effects.tracks respects_sameRow (run_effects (step (run db first) a) later)
      live.stored (same ▸ ((reachable.run first).step a).named s stored)
    refine ⟨first, a, later, rfl, ?_⟩
    rw [← live.child, ref_sameRow row]
    exact step_recreates there (sameId ▸ missing) (row.ownerId.symm.trans live.owned)
  · rintro first a later rfl recreates along
    obtain ⟨r', live, -⟩ := recreates.leaves (reachable.run first)
    rw [run_append]
    exact live.spared ((reachable.run first).step a) along

end Recreation

/-- The root is claimed, composes `emit` and is done. -/
def rootComposes (emit : List ChildSpec) : Script :=
  [fun _ => [claimAll "b" "app" .reconcile],
    composes "app" noGrace leafFinalizer ⟨emit, [], []⟩, returns "app" finished]

/-- A root with a machine, both reconciled.  The root drops the machine, and its next
generation emits it again while the teardown is still queued. -/
def machineBack : Script :=
  [fun _ => [seedKind "vm" (some "vm/destroy"), applyRoot "app" "a"]] ++ rootComposes [child "vm" "v"] ++
    [fun _ => drainRechecks ++ [claimAll "b" "vm" .reconcile], returns "vm" finished,
      fun _ => [.reconcile 0]] ++
    rootComposes [] ++ [fun _ => [.reconcile 0]] ++ rootComposes [child "vm" "v"]

/-- The teardown then runs to its end. -/
def machineDrained : Script :=
  [fun _ => [claimAll "b" "vm" .delete], returns "vm" finished, fun _ => drainRechecks]

/-- And the root is claimed for its next generation. -/
def machineGone : Script := machineDrained ++ [fun _ => [.reconcile 0, claimAll "b" "app" .reconcile]]

def machineOutput : ComposeOutput := ⟨[child "vm" "v"], [], []⟩

/-- It composes the machine; the reaper's scans and a second compose come after. -/
def machineAgain (t : WorkTask) : List Action :=
  [composed noGrace leafFinalizer machineOutput t, .sweepDeletable (fun _ => Scan.plain) 10 ShardRange.full,
    .sweepExpiredOrphans Scan.plain 10 ShardRange.full,
    composed noGrace leafFinalizer machineOutput t] ++ drainRechecks

/-- It has its machine back, from the compose that found none. -/
theorem drained_child_returns_rebuilt : letI := counting
    let db := run Db.empty (machineBack.play Db.empty)
    let ref := (child "vm" "v").ref
    ∃ r ∈ db.resources.rows, r.ref = ref ∧ r.marked = true ∧ ∃ t,
      (∃ r', LiveChild (run db (machineGone.play db ++ machineAgain t)) 0 ref r') ∧
      ∃ first a later, machineGone.play db ++ machineAgain t = first ++ a :: later ∧
        Recreates (run db first) 0 ref a := by
  intro db ref
  have reachable : @Reachable counting db := ⟨_, rfl⟩
  have facts : letI := counting
      ∃ r ∈ db.resources.rows, r.ref = ref ∧ r.marked = true ∧ r.ownerId = some 0 ∧
        let gone := run db (machineGone.play db)
        (∀ s ∈ gone.resources.rows, s.ownerId = some 0 → s.ref ≠ ref) ∧
          ∃ t ∈ gone.tasks, t.resourceId = 0 ∧ t.taskType = .reconcile ∧
            (applyComposeResult gone ⟨id, id, fun _ _ => Scan.plain⟩ t machineOutput
              ⟨fun kind _ => noGrace kind, fun kind _ => leafFinalizer kind⟩).isSome ∧
            Along (SparesChild 0 ref) (step gone (composed noGrace leafFinalizer machineOutput t))
              (machineAgain t).tail := by
    decide +kernel
  obtain ⟨r, here, same, draining, owned, none, t, claimed, parent, type, committed, spared⟩ := facts
  obtain ⟨last, done⟩ := Option.isSome_iff_exists.mp committed
  have recreates := @Recreates.intro counting _ 0 ref _ t _ _ _ last parent ⟨claimed, type⟩ done
    (List.mem_singleton_self _) rfl (fun s there child => none s there (parent ▸ child))
  obtain ⟨only, back⟩ := @drained_child_returns counting db 0 reachable r here owned draining
    (@Script.play counting db machineGone ++ machineAgain t)
  rw [same] at only back
  have live := back _ _ _ rfl recreates spared
  exact ⟨r, here, same, draining, t, live, only live⟩

/-- Left alone, it does not: the machine was emitted while it drained, all work is done,
nothing is marked and nothing will be retried, and there is no machine. -/
theorem drained_child_lost : letI := counting
    let db := run Db.empty (machineBack.play Db.empty)
    let last := run db (machineDrained.play db)
    (∃ r ∈ db.resources.rows, r.ref = (child "vm" "v").ref ∧ r.marked = true) ∧
      (∃ a ∈ db.resources.rows, a.name = "a" ∧ a.composedGen = 3 ∧ a.generation = 3) ∧
      Idle last ∧ (∀ r ∈ last.resources.rows, r.marked = false) ∧
      ∀ r ∈ last.resources.rows, r.ref ≠ (child "vm" "v").ref := by
  decide +kernel

end Converge.Kernel
