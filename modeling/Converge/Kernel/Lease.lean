/-
# Kernel.Lease -- the queue and the outbox are fenced slots

For every id, the queue row of that id, the result waiting under it, the tasks handed
out for it and the results drained for it form one cell of `Theory.Fence`: the row is
the slot, `claim_epoch` its epoch, `generation` its version.  Each effect is a run of
the moves its label stands for (`effect_lease`), so every run of the store is a run of
the protocol, for all ids at once, and every reachable state is sound
(`Reachable.lease`).

A row id is drawn once.  That is what lets a removed row's tokens never match again.
-/
import Converge.Theory.Fence
import Converge.Kernel.StepEffects

namespace Converge.Kernel

open Converge.Theory List Table Option

set_option autoImplicit false
set_option linter.unusedSectionVars false

variable [Postgres]
variable {results : List OutboxRow} {o : OutboxRow} {scan : Scan Uuid} {b : TakeBatch}
    {q : WorkQueueRow} {p : WorkQueueRow → Bool}

/-! ## The cell of an id -/

def Db.Drawn (db : Db) (id : Uuid) : Prop := ∃ n < db.drawn, Postgres.randomUuid n = id

def WorkQueueRow.slot (q : WorkQueueRow) : Fence.Slot :=
  ⟨q.claimEpoch, q.generation, q.brokerId.isSome⟩

def WorkTask.token (t : WorkTask) : Fence.Token := ⟨t.claimEpoch, t.generation⟩

/-- The protocol state of one queue row id. -/
def lease (db : Db) (id : Uuid) : Fence.Cell where
  born := db.Drawn id
  slot := (db.workQueue.lookup WorkQueueRow.id id).map WorkQueueRow.slot
  waiting := (db.workOutbox.lookup OutboxRow.workId id).map (·.task.token)
  claims := {u | ∃ t ∈ db.tasks, t.id = id ∧ t.token = u}
  taken := (db.drained.filter (·.workId = id)).map (·.task.token)

/-- The moves an effect may make on a cell. -/
def Label.moves : Label → Fence.Move → Prop
  | .aux | .ops | .insert _ => (· = .draw)
  | .row _ | .relabel | .rewire | .touch | .finalize _ | .recount => fun _ => False
  | .delete | .remove _ => (· = .remove)
  | .enqueue _ => fun m => m = .insert ∨ m = .draw
  | .repoint => (· = .repoint)
  | .claim => (· = .claim)
  | .reap => (· = .reap)
  | .release => (· = .release)
  | .append => (· = .append)
  | .pop _ => fun m => m = .remove ∨ m = .take

variable {db db' : Db} {id : Uuid} {f : WorkQueueRow → WorkQueueRow} {allow : Label → Prop}

theorem lease_slot (here : q ∈ db.workQueue) : (lease db q.id).slot = some q.slot := by
  simp [lease, lookup_of_mem workQueue_primary here]

theorem of_lease_slot {s : Fence.Slot} (h : (lease db id).slot = some s) :
    ∃ q ∈ db.workQueue, q.id = id ∧ q.slot = s := by
  obtain ⟨q, found, rfl⟩ := map_eq_some_iff.mp h
  obtain ⟨here, rfl⟩ := mem_of_lookup found
  exact ⟨q, here, rfl, rfl⟩

theorem lease_waiting (here : o ∈ db.workOutbox) : (lease db o.workId).waiting = some o.task.token := by
  simp [lease, lookup_of_mem workOutbox_primary here]

theorem of_lease_waiting {u : Fence.Token} (h : (lease db id).waiting = some u) :
    ∃ o ∈ db.workOutbox, o.workId = id ∧ o.task.token = u := by
  obtain ⟨o, found, rfl⟩ := map_eq_some_iff.mp h
  obtain ⟨here, rfl⟩ := mem_of_lookup found
  exact ⟨o, here, rfl, rfl⟩

theorem lease_claims {t : WorkTask} (granted : t ∈ db.tasks) : t.token ∈ (lease db t.id).claims :=
  ⟨t, granted, rfl, rfl⟩

/-! ## Drawing ids -/

theorem drawn_succ (db : Db) (id : Uuid) : (∃ n < db.drawn + 1, Postgres.randomUuid n = id) ↔
      Postgres.randomUuid db.drawn = id ∨ db.Drawn id := by
  constructor
  · rintro ⟨n, lt, rfl⟩
    rcases Nat.lt_succ_iff_lt_or_eq.mp lt with lt | rfl
    · exact Or.inr ⟨n, lt, rfl⟩
    · exact Or.inl rfl
  · rintro (rfl | ⟨n, lt, rfl⟩)
    · exact ⟨_, Nat.lt_succ_self _, rfl⟩
    · exact ⟨n, Nat.lt_succ_of_lt lt, rfl⟩

theorem not_drawn_next (db : Db) : ¬ db.Drawn (Postgres.randomUuid db.drawn) := by
  rintro ⟨n, lt, same⟩
  exact absurd (Postgres.randomUuid_injective same) (Nat.ne_of_lt lt)

theorem lease_draw {c : Fence.Cell} (good : c.Sound) {born : Prop} (grows : c.born → born) :
    Fence.Run (· = .draw) c { c with born := born } := by
  by_cases same : born ↔ c.born
  · rw [propext same]
    exact .refl
  · have old : ¬ c.born := fun old => same ⟨fun _ => old, grows⟩
    have new : born := by
      by_contra new
      exact same ⟨fun h => absurd h new, grows⟩
    rw [eq_true new]
    exact Steps.one rfl (.draw (good.unborn old).1)

theorem Db.Drawn.mono (le : db.drawn ≤ db'.drawn) (h : db.Drawn id) : db'.Drawn id :=
  h.imp fun _ h => ⟨h.1.trans_le le, h.2⟩

theorem lease_aux (same : SameCore db db') (good : (lease db id).Sound) :
    Fence.Run (· = .draw) (lease db id) (lease db' id) := by
  have eq : lease db' id = { lease db id with born := db'.Drawn id } := by
    simp [lease, same.workQueue, same.workOutbox, same.tasks, same.drained]
  rw [eq]
  exact lease_draw good (Db.Drawn.mono same.drawn)

/-! ## Effects are moves -/

theorem lease_kept {allow : Fence.Move → Prop} {s : Option Fence.Slot} (same : (lease db id).slot = s) :
    Fence.Run allow (lease db id) { lease db id with slot := s } := by
  subst same
  exact .refl

theorem lease_remove (p : WorkQueueRow → Bool) : Fence.Run (· = .remove) (lease db id)
      (lease { db with workQueue := db.workQueue.deleteWhere p } id) := by
  show Fence.Run _ (lease db id) { lease db id with
    slot := ((db.workQueue.deleteWhere p).lookup WorkQueueRow.id id).map WorkQueueRow.slot }
  rw [lookup_deleteWhere workQueue_primary]
  cases found : db.workQueue.lookup WorkQueueRow.id id with
  | none => exact lease_kept (by simp [lease, found])
  | some q =>
    cases hp : p q with
    | true =>
      simp only [Option.filter, hp, Bool.not_true, Bool.false_eq_true, if_false, map_none]
      exact Steps.one rfl .remove
    | false => exact lease_kept (by simp [lease, found, Option.filter, hp])

theorem lease_update {m : Fence.Move} {keeps : ∀ q, Keyed.key (f q) = Keyed.key q} (ids : ∀ q, (f q).id = q.id)
    (move : ∀ q ∈ db.workQueue, p q = true →
      Fence.Step m (lease db q.id) { lease db q.id with slot := some (f q).slot }) :
    Fence.Run (· = m) (lease db id) (lease { db with workQueue := db.workQueue.updateWhere p f keeps } id) := by
  show Fence.Run _ (lease db id) { lease db id with
    slot := ((db.workQueue.updateWhere p f keeps).lookup WorkQueueRow.id id).map WorkQueueRow.slot }
  rw [lookup_updateWhere keeps ids]
  cases found : db.workQueue.lookup WorkQueueRow.id id with
  | none => exact lease_kept (by simp [lease, found])
  | some q =>
    obtain ⟨here, rfl⟩ := mem_of_lookup found
    cases hp : p q with
    | true =>
      simp only [map_some, hp, if_true]
      exact Steps.one rfl (move q here hp)
    | false => exact lease_kept (by simp [lease, found, hp])

theorem lease_touch {keeps : ∀ q, Keyed.key (f q) = Keyed.key q} (rows : ∀ q, Touched q (f q)) :
    lease { db with workQueue := db.workQueue.updateWhere p f keeps } id = lease db id := by
  have slots : ∀ q : WorkQueueRow, (if p q then f q else q).slot = q.slot := by
    intro q
    split
    · simp [WorkQueueRow.slot, (rows q).claimEpoch, (rows q).generation, (rows q).brokerId]
    · rfl
  simp [lease, lookup_updateWhere keeps fun q => (rows q).id, Function.comp_def, slots, Db.Drawn]

theorem lease_freed {m : Fence.Move} (move : ∀ q ∈ db.workQueue, p q = true → Fence.Step m (lease db q.id)
        { lease db q.id with slot := some ⟨q.claimEpoch + 1, q.generation, false⟩ }) :
    Fence.Run (· = m) (lease db id) (lease (freeWhere db p) id) :=
  lease_update (fun _ => rfl) move

theorem lease_repoint (r : Resource) : Fence.Run (· = .repoint) (lease db id) (lease { db with
      workQueue := db.workQueue.updateWhere (outdatedBy (workFor db .reconcile r))
        (repoint (workFor db .reconcile r)) (fun _ => rfl) } id) := by
  refine lease_update (fun _ => rfl) fun q here older => ?_
  simp only [outdatedBy, Bool.and_eq_true, decide_eq_true_eq] at older
  exact .repoint q.claimEpoch q.generation _ q.brokerId.isSome (lease_slot here) older.2

theorem lease_enqueue {c : Cause} {w : WorkQueueRow} (new : Enqueued db c w)
    (free : ¬ db.workQueue.Occupied w) (good : (lease db id).Sound) :
    Fence.Run (fun m => m = .insert ∨ m = .draw) (lease db id)
      (lease { db with workQueue := db.workQueue.push w free, drawn := db.drawn + 1 } id) := by
  have pushed : (db.workQueue.push w free).lookup WorkQueueRow.id id =
      if w.id = id then some w else db.workQueue.lookup WorkQueueRow.id id :=
    lookup_push free id
  by_cases this : w.id = id
  · -- the new row: its id has not been drawn before
    subst this
    have cell : lease { db with workQueue := db.workQueue.push w free, drawn := db.drawn + 1 } w.id =
        { lease db w.id with born := True, slot := some ⟨w.claimEpoch, w.generation, false⟩ } := by
      have born : (∃ n < db.drawn + 1, Postgres.randomUuid n = w.id) = True :=
        eq_true ((drawn_succ db w.id).mpr (.inl new.id.symm))
      refine Fence.Cell.ext born ?_ rfl rfl rfl
      simp only [lease, pushed, if_true, map_some, WorkQueueRow.slot, new.free, isSome_none]
    rw [cell]
    refine Steps.one (.inl rfl) (.insert _ _ ?_)
    show ¬ db.Drawn w.id
    rw [new.id]
    exact not_drawn_next db
  · have cell : lease { db with workQueue := db.workQueue.push w free, drawn := db.drawn + 1 } id =
        { lease db id with born := ∃ n < db.drawn + 1, Postgres.randomUuid n = id } := by
      refine Fence.Cell.ext rfl ?_ rfl rfl rfl
      simp only [lease, pushed, if_neg this]
    rw [cell]
    exact (lease_draw good fun old => (drawn_succ db id).mpr (.inr old)).mono fun _ => .inr

theorem lease_append (claimed : o.task ∈ db.tasks) (token : ∃ q ∈ db.workQueue, tokenMatches o q = true)
    (free : ¬ db.workOutbox.Occupied o) : Fence.Run (· = .append) (lease db id)
      (lease { db with workOutbox := db.workOutbox.push o free } id) := by
  have pushed : (db.workOutbox.push o free).lookup OutboxRow.workId id =
      if o.workId = id then some o else db.workOutbox.lookup OutboxRow.workId id :=
    lookup_push free id
  by_cases this : o.workId = id
  · subst this
    have cell : lease { db with workOutbox := db.workOutbox.push o free } o.workId =
        { lease db o.workId with waiting := some o.task.token } := by
      simp [lease, Db.Drawn, pushed]
    obtain ⟨q, here, matched⟩ := token
    simp only [tokenMatches, Bool.and_eq_true, decide_eq_true_eq] at matched
    obtain ⟨⟨⟨same, epoch⟩, -⟩, -⟩ := matched
    rw [cell]
    refine Steps.one rfl (.append q.slot _ ?_ (lease_claims claimed) epoch ?_)
    · rw [← same]
      exact lease_slot here
    · have none : db.workOutbox.lookup OutboxRow.workId o.workId = none :=
        lookup_eq_none.mpr fun b hb clash => free ⟨b, hb, clash⟩
      simp [lease, none]
  · have cell : lease { db with workOutbox := db.workOutbox.push o free } id = lease db id := by
      simp [lease, Db.Drawn, pushed, this]
    rw [cell]
    exact .refl

/-! ## Claims -/

theorem mem_takenRows (h : q ∈ takenRows db scan b) : q ∈ db.workQueue ∧ q.brokerId = none := by
  obtain ⟨here, ok⟩ := mem_filter.mp (Scan.mem_of_mem_pick h)
  simp only [claimable, Bool.and_eq_true, isNone_iff_eq_none] at ok
  exact ⟨here, ok.1.2⟩

theorem mem_tasks_claim {t : WorkTask} : t ∈ (workQueueTakeBatch db scan b).tasks ↔
      (∃ q ∈ takenRows db scan b, taskOf (claimRow b.brokerId db.now q) = t) ∨ t ∈ db.tasks := by
  simp [workQueueTakeBatch]

theorem lookup_claim (scan : Scan Uuid) (b : TakeBatch) :
    (workQueueTakeBatch db scan b).workQueue.lookup WorkQueueRow.id id =
      (db.workQueue.lookup WorkQueueRow.id id).map fun q =>
        if id ∈ (takenRows db scan b).map (·.id) then claimRow b.brokerId db.now q else q := by
  have ids : ∀ q, (claimRow b.brokerId db.now q).id = q.id := fun _ => rfl
  refine (lookup_updateWhere (claimRow_key b.brokerId db.now) ids id).trans ?_
  cases found : db.workQueue.lookup WorkQueueRow.id id with
  | none => rfl
  | some q =>
    obtain ⟨-, rfl⟩ := mem_of_lookup found
    simp only [map_some, decide_eq_true_eq]

theorem lease_claimed (taken : q ∈ takenRows db scan b) :
    lease (workQueueTakeBatch db scan b) q.id = { lease db q.id with
      slot := some ⟨q.claimEpoch + 1, q.generation, true⟩
      claims := insert ⟨q.claimEpoch + 1, q.generation⟩ (lease db q.id).claims } := by
  have here := (mem_takenRows taken).1
  refine Fence.Cell.ext rfl ?_ rfl ?_ rfl
  · simp only [lease]
    rw [lookup_claim, lookup_of_mem workQueue_primary here, map_some, if_pos (mem_map_of_mem taken)]
    rfl
  · ext u
    constructor
    · rintro ⟨t, ht, same, rfl⟩
      rcases mem_tasks_claim.mp ht with ⟨q', hq', rfl⟩ | old
      · -- a task of this batch for this id is the one of `q`
        have : q' = q := eq_of_pk workQueue_primary (mem_takenRows hq').1 here same
        rw [this]
        exact Or.inl rfl
      · exact Or.inr ⟨t, old, same, rfl⟩
    · rintro (rfl | ⟨t, old, same, rfl⟩)
      · exact ⟨_, mem_tasks_claim.mpr (.inl ⟨q, taken, rfl⟩), rfl, rfl⟩
      · exact ⟨t, mem_tasks_claim.mpr (.inr old), same, rfl⟩

theorem lease_unclaimed (other : id ∉ (takenRows db scan b).map (·.id)) :
    lease (workQueueTakeBatch db scan b) id = lease db id := by
  refine Fence.Cell.ext rfl ?_ rfl ?_ rfl
  · simp only [lease, lookup_claim, if_neg other, Option.map_id']
  · ext u
    constructor
    · rintro ⟨t, ht, same, rfl⟩
      rcases mem_tasks_claim.mp ht with ⟨q', hq', rfl⟩ | old
      · exact absurd (List.mem_map.mpr ⟨q', hq', same⟩) other
      · exact ⟨t, old, same, rfl⟩
    · rintro ⟨t, old, same, rfl⟩
      exact ⟨t, mem_tasks_claim.mpr (.inr old), same, rfl⟩

theorem lease_claim (scan : Scan Uuid) (b : TakeBatch) :
    Fence.Run (· = .claim) (lease db id) (lease (workQueueTakeBatch db scan b) id) := by
  by_cases taken : id ∈ (takenRows db scan b).map (·.id)
  · obtain ⟨q, hq, rfl⟩ := mem_map.mp taken
    obtain ⟨here, free⟩ := mem_takenRows hq
    rw [lease_claimed hq]
    refine Steps.one rfl (.claim _ _ ?_)
    rw [lease_slot here]
    simp [WorkQueueRow.slot, free]
  · rw [lease_unclaimed taken]
    exact .refl

/-! ## Drains -/

theorem filter_results (waiting : ∀ o ∈ results, o ∈ db.workOutbox) (distinct : results.Nodup)
    (here : o ∈ results) : results.filter (·.workId = o.workId) = [o] := by
  refine perm_singleton.mp ((perm_ext_iff_of_nodup (distinct.filter _) (nodup_singleton o)).mpr fun u => ?_)
  simp only [mem_filter, decide_eq_true_eq, mem_singleton]
  constructor
  · rintro ⟨hu, same⟩
    exact eq_of_pk workOutbox_primary (waiting u hu) (waiting o here) same
  · rintro rfl
    exact ⟨here, rfl⟩

theorem retired_iff (waiting : ∀ o ∈ results, o ∈ db.workOutbox) (here : o ∈ results) (same : q.id = o.workId) :
    results.any (retires · q) = retires o q := by
  rw [Bool.eq_iff_iff, List.any_eq_true]
  constructor
  · rintro ⟨u, hu, retired⟩
    have pk : u.workId = o.workId := by
      simp only [retires, Bool.and_eq_true, decide_eq_true_eq] at retired
      exact retired.1.trans same
    rwa [eq_of_pk workOutbox_primary (waiting u hu) (waiting o here) pk] at retired
  · exact fun retired => ⟨o, here, retired⟩

theorem lease_take (here : o ∈ db.workOutbox) : Fence.Run (fun m => m = .remove ∨ m = .take) (lease db o.workId)
      { lease db o.workId with
        waiting := none
        taken := o.task.token :: (lease db o.workId).taken
        slot := ((db.workQueue.lookup WorkQueueRow.id o.workId).filter fun q =>
          !retires o q).map WorkQueueRow.slot } := by
  by_cases reconcile : o.taskType = .reconcile
  · have slot : ((db.workQueue.lookup WorkQueueRow.id o.workId).filter fun q =>
          !retires o q).map WorkQueueRow.slot =
        (lease db o.workId).slot.filter fun s => s.version ≠ o.task.token.version := by
      cases found : db.workQueue.lookup WorkQueueRow.id o.workId with
      | none => simp [lease, found]
      | some q =>
        obtain ⟨-, same⟩ := mem_of_lookup found
        by_cases gen : q.generation = o.task.generation
        · simp [lease, found, retires, reconcile, same, gen, Option.filter, WorkQueueRow.slot,
            WorkTask.token, OutboxRow.observedGeneration]
        · simp [lease, found, retires, reconcile, same, gen, Option.filter, WorkQueueRow.slot,
            WorkTask.token, OutboxRow.observedGeneration]
    rw [slot]
    exact Steps.one (.inr rfl) (.take _ (lease_waiting here))
  · have slot : ((db.workQueue.lookup WorkQueueRow.id o.workId).filter fun q =>
          !retires o q).map WorkQueueRow.slot = none := by
      cases found : db.workQueue.lookup WorkQueueRow.id o.workId with
      | none => rfl
      | some q =>
        obtain ⟨-, same⟩ := mem_of_lookup found
        simp [retires, reconcile, same]
    rw [slot]
    have removed : Fence.Run (fun m => m = .remove ∨ m = .take) (lease db o.workId)
        { lease db o.workId with slot := none } :=
      Steps.one (.inl rfl) .remove
    exact removed.trans (Steps.one (.inr rfl) (.take _ (lease_waiting here)))

theorem lease_pop (waiting : ∀ o ∈ results, o ∈ db.workOutbox) (distinct : results.Nodup) :
    Fence.Run (fun m => m = .remove ∨ m = .take) (lease db id) (lease (takeResults db results) id) := by
  have outbox : (takeResults db results).workOutbox.lookup OutboxRow.workId id =
      (db.workOutbox.lookup OutboxRow.workId id).filter fun o =>
        !decide (o.workId ∈ results.map (·.workId)) :=
    lookup_deleteWhere workOutbox_primary id
  have queue : (takeResults db results).workQueue.lookup WorkQueueRow.id id =
      (db.workQueue.lookup WorkQueueRow.id id).filter fun q => !results.any (retires · q) :=
    lookup_deleteWhere workQueue_primary id
  by_cases drained : ∃ o ∈ results, o.workId = id
  · obtain ⟨o, ho, rfl⟩ := drained
    have cell : lease (takeResults db results) o.workId = { lease db o.workId with
        waiting := none
        taken := o.task.token :: (lease db o.workId).taken
        slot := ((db.workQueue.lookup WorkQueueRow.id o.workId).filter fun q =>
          !retires o q).map WorkQueueRow.slot } := by
      refine Fence.Cell.ext rfl ?_ ?_ rfl ?_
      · simp only [lease, queue]
        congr 1
        cases found : db.workQueue.lookup WorkQueueRow.id o.workId with
        | none => rfl
        | some q =>
          have same := (mem_of_lookup found).2
          simp only [Option.filter, retired_iff waiting ho same]
      · simp only [lease, outbox, lookup_of_mem workOutbox_primary (waiting o ho)]
        simp [Option.filter, mem_map_of_mem ho]
      · show ((results ++ db.drained).filter _).map _ = _
        rw [filter_append, filter_results waiting distinct ho]
        rfl
    rw [cell]
    exact lease_take (waiting o ho)
  · have cell : lease (takeResults db results) id = lease db id := by
      refine Fence.Cell.ext rfl ?_ ?_ rfl ?_
      · simp only [lease, queue]
        cases found : db.workQueue.lookup WorkQueueRow.id id with
        | none => rfl
        | some q =>
          have same := (mem_of_lookup found).2
          have kept : results.any (retires · q) = false := by
            rw [List.any_eq_false]
            intro o ho retired
            simp only [retires, Bool.and_eq_true, decide_eq_true_eq] at retired
            exact drained ⟨o, ho, retired.1.trans same⟩
          simp [Option.filter, kept]
      · simp only [lease, outbox]
        cases found : db.workOutbox.lookup OutboxRow.workId id with
        | none => rfl
        | some o =>
          have same := (mem_of_lookup found).2
          have kept : o.workId ∉ results.map (·.workId) := by
            intro listed
            obtain ⟨u, hu, eq⟩ := mem_map.mp listed
            exact drained ⟨u, hu, eq.trans same⟩
          simp only [Option.filter, kept, decide_false, Bool.not_false, if_true]
      · show ((results ++ db.drained).filter _).map _ = _
        have none : results.filter (·.workId = id) = [] :=
          filter_eq_nil_iff.mpr fun o ho same => drained ⟨o, ho, of_decide_eq_true same⟩
        rw [filter_append, none]
        rfl
    rw [cell]
    exact .refl

/-! ## Runs of the store are runs of the protocol -/

/-- **Every effect moves every cell by the rules.** -/
theorem effect_lease {l : Label} (effect : Effect l db db') (good : (lease db id).Sound) :
    Fence.Run l.moves (lease db id) (lease db' id) := by
  cases effect with
  | aux same => exact lease_aux same good
  | ops t n grows unsettled => exact lease_draw good (Db.Drawn.mono grows)
  | insert r born free => exact lease_draw good (Db.Drawn.mono (Nat.le_succ _))
  | row k p f keeps rows | relabel t _ | rewire t | finalize results drained | recount range => exact .refl
  | delete ids => exact lease_remove _
  | enqueue cause w new free => exact lease_enqueue new free good
  | repoint r here ready => exact lease_repoint r
  | claim scan b => exact lease_claim scan b
  | reap p unfinished =>
    refine lease_freed fun q here freed => .reap _ _ _ (lease_slot here) ?_
    have none : db.workOutbox.lookup OutboxRow.workId q.id = none :=
      lookup_eq_none.mpr (unfinished q here freed)
    simp [lease, none]
  | release p => exact lease_freed fun q here _ => .release _ _ _ (lease_slot here)
  | touch p f keeps rows =>
    rw [lease_touch rows]
    exact .refl
  | remove only p unclaimed typed => exact lease_remove p
  | append o claimed token free => exact lease_append claimed token free
  | pop results waiting distinct => exact lease_pop waiting distinct

/-- Every cell of the store is sound. -/
def Leases (db : Db) : Prop := ∀ id, (lease db id).Sound

theorem Effect.leases {l : Label} (effect : Effect l db db') (good : Leases db) : Leases db' :=
  fun id => (effect_lease effect (good id)).sound (good id)

theorem Effects.lease (run : Effects allow db db') (good : Leases db) (id : Uuid) :
    Fence.Run (fun m => ∃ l, allow l ∧ l.moves m) (lease db id) (lease db' id) :=
  Steps.maps (I := Leases) (fun _ effect => effect.leases) (fun {l _ _} ok effect good =>
      (effect_lease effect (good id)).mono fun _ move => ⟨l, ok, move⟩) run good

theorem Effects.leases (run : Effects allow db db') (good : Leases db) : Leases db' :=
  fun id => (run.lease good id).sound (good id)

theorem leases_empty : Leases Db.empty := by
  intro id
  have cell : lease Db.empty id = Fence.Cell.unused := by
    refine Fence.Cell.ext ?_ rfl rfl ?_ rfl
    · simp [lease, Fence.Cell.unused, Db.Drawn, Db.empty]
    · ext u
      simp [lease, Fence.Cell.unused, Db.empty]
  rw [cell]
  exact Fence.Cell.unused_sound

/-- **Every reachable state is sound.** -/
theorem Reachable.leases (h : Reachable db) : Leases db :=
  h.induction leases_empty fun db a good => (step_effects db a).leases good

theorem run_lease (good : Leases db) (actions : List Action) (id : Uuid) :
    Fence.Run (fun _ => True) (lease db id) (lease (run db actions) id) := by
  induction actions generalizing db with
  | nil => exact .refl
  | cons a rest ih =>
    have first := (step_effects db a).lease good id
    exact (first.mono fun _ _ => trivial).trans (ih ((step_effects db a).leases good))

end Converge.Kernel
