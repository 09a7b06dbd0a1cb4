/-
# Kernel.Versions -- resources are generation cells

For every id, the resource row, the snapshots of it in the queue and in the tasks
handed out, and the successes drained for it form one cell of `Theory.Generation`.
The content of a generation is spec and kind version: both are written only together
with the next generation, both are copied by every enqueue.

Each effect is a run of the cell's moves (`effect_versions`), so generations name
contents in every reachable state (`Reachable.versions`).  A result is applied long
after it was observed; it still is about a snapshot some claim handed out
(`Granted`), and that is all the moves ask for.
-/
import Converge.Theory.Generation
import Converge.Kernel.Rows

namespace Converge.Kernel

open Converge.Theory List Table Option

set_option autoImplicit false
set_option linter.unusedSectionVars false

variable [Postgres] {db db' : Db} {id : Uuid}
variable {l : Label} {r r' : Resource} {t : WorkTask} {allow : Label → Prop}

/-! ## The cell of an id -/

abbrev Content := Option Json × Nat

def Resource.object (r : Resource) : Generation.Object Content :=
  ⟨r.generation, (some r.spec, r.kindVersion), r.syncedGen, r.failureGen, r.composedGen⟩

def WorkQueueRow.snapshot (q : WorkQueueRow) : Generation.Snapshot Content :=
  ⟨q.generation, (q.spec, q.kindVersion)⟩

def WorkTask.snapshot (t : WorkTask) : Generation.Snapshot Content :=
  ⟨t.generation, (t.spec, t.kindVersion)⟩

/-- Some queue row or task copies the resource of `id` as `s`. -/
def Copied (db : Db) (id : Uuid) (s : Generation.Snapshot Content) : Prop :=
  (∃ q ∈ db.workQueue, q.resourceId = id ∧ q.snapshot = s) ∨ ∃ t ∈ db.tasks, t.resourceId = id ∧ t.snapshot = s

/-- The protocol state of one resource id. -/
def versions (db : Db) (id : Uuid) : Generation.Cell Content where
  born := db.Drawn id
  object := (db.resource? id).map Resource.object
  snaps := {s | Copied db id s}
  acks := {s | ∃ o ∈ db.drained, Advances id o ∧ o.task.snapshot = s}

theorem versions_object (here : r ∈ db.resources) : (versions db r.id).object = some r.object := by
  simp [versions, Db.resource?, lookup_of_mem resource_primary here]

theorem of_versions_object {o : Generation.Object Content} (h : (versions db id).object = some o) :
    ∃ r ∈ db.resources, r.id = id ∧ r.object = o := by
  obtain ⟨r, found, rfl⟩ := map_eq_some_iff.mp h
  obtain ⟨here, rfl⟩ := mem_of_lookup found
  exact ⟨r, here, rfl, rfl⟩

/-- Results are of tasks some claim handed out. -/
structure Granted (db : Db) : Prop where
  waiting : ∀ o ∈ db.workOutbox, o.task ∈ db.tasks
  drained : ∀ o ∈ db.drained, o.task ∈ db.tasks

theorem Effect.granted (effect : Effect l db db') (good : Granted db) : Granted db' := by
  have sub := effect.tasks_subset
  cases effect with
  | aux same =>
    refine ⟨fun o h => ?_, fun o h => ?_⟩
    · exact sub (good.waiting o (same.workOutbox ▸ h))
    · exact sub (good.drained o (same.drained ▸ h))
  | claim scan b => exact ⟨fun o h => sub (good.waiting o h), fun o h => sub (good.drained o h)⟩
  | append o claimed token free =>
    refine ⟨fun u h => ?_, good.drained⟩
    rcases (mem_push free).mp h with rfl | old
    · exact claimed
    · exact good.waiting u old
  | pop results waiting distinct =>
    refine ⟨fun u h => good.waiting u (mem_deleteWhere.mp h).1, fun u h => ?_⟩
    rcases mem_append.mp h with new | old
    · exact good.waiting u (waiting u new)
    · exact good.drained u old
  | _ => exact ⟨good.waiting, good.drained⟩

/-! ## Moves on the cell -/

theorem versions_draw {c : Generation.Cell Content} (good : c.Sound) {born : Prop}
    (grows : c.born → born) : Generation.Run c { c with born := born } := by
  by_cases same : born ↔ c.born
  · rw [propext same]
    exact .refl
  · have old : ¬ c.born := fun old => same ⟨fun _ => old, grows⟩
    have new : born := by
      by_contra new
      exact same ⟨fun h => absurd h new, grows⟩
    obtain ⟨H, agrees⟩ := good
    rw [eq_true new]
    exact (Generation.Step.draw (agrees.unborn old).1).run

theorem versions_aux (same : SameCore db db') (good : (versions db id).Sound) :
    Generation.Run (versions db id) (versions db' id) := by
  have eq : versions db' id = { versions db id with born := db'.Drawn id } := by
    simp [versions, Copied, Db.resource?, same.resources, same.workQueue, same.tasks, same.drained]
  rw [eq]
  exact versions_draw good (Db.Drawn.mono same.drawn)

theorem Snapshots.snapshot {w : WorkQueueRow} (h : Snapshots w r) : w.snapshot = r.object.snapshot := by
  simp [WorkQueueRow.snapshot, Resource.object, Generation.Object.snapshot, h.generation, h.spec, h.kindVersion]

/-- A queue row copies a stored resource, or what a row copied before. -/
def Copies (db : Db) (q' : WorkQueueRow) : Prop :=
  (∃ r ∈ db.resources, Snapshots q' r) ∨
    ∃ q ∈ db.workQueue, q.resourceId = q'.resourceId ∧ q.snapshot = q'.snapshot

theorem Effect.copies (effect : Effect l db db') : ∀ q' ∈ db'.workQueue, Copies db q' := by
  intro q' after
  rcases effect.queue_step after with ⟨cause, -, new, -⟩ | ⟨q, here, step⟩
  · obtain ⟨r, stored, snap, -⟩ := new.snapshot
    exact .inl ⟨r, stored, snap⟩
  · cases step with
    | repoint stored ready older =>
      simp only [outdatedBy, Bool.and_eq_true, decide_eq_true_eq] at older
      exact .inl ⟨_, stored, older.1.1, rfl, rfl, rfl⟩
    | touch same =>
      refine .inr ⟨q, here, same.resourceId.symm, ?_⟩
      simp [WorkQueueRow.snapshot, same.generation, same.spec, same.kindVersion]
    | _ => exact .inr ⟨_, here, rfl, rfl⟩

theorem versions_queue {t : Table WorkQueueRow} (copies : ∀ q' ∈ t, Copies db q') :
    Generation.Run (versions db id) (versions { db with workQueue := t } id) := by
  by_cases stored : ∃ r ∈ db.resources, r.id = id
  · obtain ⟨r, here, rfl⟩ := stored
    have snapped : Generation.Run (versions db r.id) { versions db r.id with
        snaps := insert r.object.snapshot (versions db r.id).snaps } :=
      (Generation.Step.snap r.object (versions_object here)).run
    refine snapped.trans (Generation.Step.forget _ ?_).run
    rintro s (⟨q', after, same, rfl⟩ | handed)
    · rcases copies q' after with ⟨r', here', snap⟩ | ⟨q, hq, owner, snap⟩
      · obtain rfl := eq_of_pk resource_primary here' here (snap.resourceId.symm.trans same)
        exact Or.inl snap.snapshot
      · exact Or.inr (Or.inl ⟨q, hq, owner.trans same, snap⟩)
    · exact Or.inr (Or.inr handed)
  · refine (Generation.Step.forget _ ?_).run
    rintro s (⟨q', after, same, rfl⟩ | handed)
    · rcases copies q' after with ⟨r, here, snap⟩ | ⟨q, hq, owner, snap⟩
      · exact absurd ⟨r, here, snap.resourceId.symm.trans same⟩ stored
      · exact Or.inl ⟨q, hq, owner.trans same, snap⟩
    · exact Or.inr handed

theorem versions_claim (scan : Scan Uuid) (b : TakeBatch) :
    Generation.Run (versions db id) (versions { db with tasks := (workQueueTakeBatch db scan b).tasks } id) := by
  refine (Generation.Step.forget _ ?_).run
  rintro s (queued | ⟨t, handed, same, rfl⟩)
  · exact Or.inl queued
  · rcases mem_tasks_claim.mp handed with ⟨q, taken, rfl⟩ | old
    · exact Or.inl ⟨q, (mem_takenRows taken).1, same, rfl⟩
    · exact Or.inr ⟨t, old, same, rfl⟩

/-! ## Row updates -/

theorem versions_update {p : Resource → Bool} {f : Resource → Resource}
    {keeps : ∀ r, Keyed.key (f r) = Keyed.key r}
    (move : ∀ r ∈ db.resources, p r = true → (f r).id = r.id ∧
      Generation.Run (versions db r.id) { versions db r.id with object := some (f r).object }) :
    Generation.Run (versions db id)
      (versions { db with resources := db.resources.updateWhere p f keeps } id) := by
  have lookup : (db.resources.updateWhere p f keeps).lookup Resource.id id =
      (db.resources.lookup Resource.id id).map fun r => if p r then f r else r := by
    refine lookup_updateWhere keeps (fun r => ?_) id
    exact congrArg Prod.fst (keeps r)
  show Generation.Run _ { versions db id with
    object := ((db.resources.updateWhere p f keeps).lookup Resource.id id).map Resource.object }
  rw [lookup]
  cases found : db.resources.lookup Resource.id id with
  | none =>
    have same : { versions db id with object := none } = versions db id := by
      simp [versions, Db.resource?, found]
    simp only [map_none]
    rw [same]
    exact .refl
  | some r =>
    obtain ⟨here, rfl⟩ := mem_of_lookup found
    cases hp : p r with
    | true =>
      simp only [map_some, hp, if_true]
      exact (move r here hp).2
    | false =>
      have same : { versions db r.id with object := some r.object } = versions db r.id := by
        simp [versions, Db.resource?, found]
      simp only [map_some, hp, Bool.false_eq_true, if_false]
      rw [same]
      exact .refl

theorem versions_same (here : r ∈ db.resources) (same : r'.object = r.object) :
    Generation.Run (versions db r.id) { versions db r.id with object := some r'.object } := by
  have eq : { versions db r.id with object := some r'.object } = versions db r.id :=
    Generation.Cell.ext rfl (same ▸ (versions_object here).symm) rfl rfl
  rw [eq]
  exact .refl

theorem task_copied (handed : t ∈ db.tasks) :
    ∃ s ∈ (versions db t.resourceId).snaps, s.generation = t.generation :=
  ⟨t.snapshot, Or.inr ⟨t, handed, rfl, rfl⟩, rfl⟩

theorem versions_stamp (here : r ∈ db.resources)
    (same : r'.object = { r.object with stamped := r'.composedGen })
    (seen : r'.composedGen = 0 ∨ ∃ s ∈ (versions db r.id).snaps, s.generation = r'.composedGen) :
    Generation.Run (versions db r.id) { versions db r.id with object := some r'.object } := by
  rw [same]
  exact (Generation.Step.stamp r.object _ (versions_object here) seen).run

/-- A drained reconcile result raises the synced generation to what it acknowledged, and
sets the failed generation to 0 or to what it observed. -/
theorem versions_result {o : OutboxRow} (granted : Granted db) (here : r ∈ db.resources)
    (result : ResultOf db o r) : Generation.Run (versions db r.id)
      { versions db r.id with object := some (applyResult db o r).object } := by
  let c := versions db r.id
  have copied : ∃ s ∈ c.snaps, s.generation = o.observedGeneration := by
    have := task_copied (granted.drained o result.drained)
    rwa [← OutboxRow.resourceId, result.resourceId] at this
  let synced := if o.succeeded && o.advanceSyncedGen then max r.syncedGen o.observedGeneration
    else r.syncedGen
  let failed := if o.failed then o.observedGeneration
    else if o.succeeded && o.advanceSyncedGen then 0 else r.failureGen
  have sync : Generation.Run c { c with object := some { r.object with synced := synced } } := by
    by_cases advances : (o.succeeded && o.advanceSyncedGen) = true
    · have acked : o.task.snapshot ∈ c.acks := by
        obtain ⟨succeeded, advance⟩ := Bool.and_eq_true_iff.mp advances
        exact ⟨o, result.drained, ⟨result.taskType, succeeded, advance, result.resourceId⟩, rfl⟩
      have raised : synced = max r.object.synced o.task.snapshot.generation := by
        simp only [synced, if_pos advances]
        rfl
      rw [raised]
      exact (Generation.Step.sync r.object _ (versions_object here) acked).run
    · have stays : synced = r.syncedGen := by
        simp only [synced, if_neg advances]
      rw [stays]
      exact versions_same here rfl
  have fail : Generation.Run { c with object := some { r.object with synced := synced } }
      { c with object := some { r.object with synced := synced, failed := failed } } := by
    by_cases seen : failed = 0 ∨ failed = o.observedGeneration
    · refine (Generation.Step.fail { r.object with synced := synced } failed rfl ?_).run
      rcases seen with zero | eq
      · exact Or.inl zero
      · exact Or.inr (by rw [eq]; exact copied)
    · have stays : failed = r.failureGen := by
        simp only [failed] at seen ⊢
        split at seen
        · exact absurd (.inr rfl) seen
        · split at seen
          · exact absurd (.inl rfl) seen
          · rw [if_neg (by assumption), if_neg (by assumption)]
      rw [stays]
      exact .refl
  exact sync.trans fail

theorem versions_row {k : RowKind} (granted : Granted db) (here : r ∈ db.resources) (step : RowStep db r r' k) :
    Generation.Run (versions db r.id) { versions db r.id with object := some r'.object } := by
  cases k with
  | quiet =>
    have q : Quiet r r' := step
    have same : r'.object = { r.object with stamped := r'.composedGen } := by
      simp [Resource.object, q.generation, q.spec, q.kindVersion, q.syncedGen, q.failureGen]
    rcases q.composedGen with kept | reset
    · exact versions_same here (same.trans (by rw [kept]; rfl))
    · exact versions_stamp here same (.inl reset)
  | write =>
    have w : Written r r' := step
    have next : r'.object = { r.object with
        generation := r.object.generation + 1
        content := (some r'.spec, r'.kindVersion) } := by
      simp [Resource.object, w.generation, w.syncedGen, w.failureGen, w.composedGen]
    rw [next]
    exact (Generation.Step.write r.object _ (versions_object here)).run
  | mark | thaw id =>
    obtain ⟨-, rfl⟩ := step
    exact versions_same here rfl
  | stamp =>
    obtain ⟨t, handed, same, rfl⟩ := step
    exact versions_stamp here rfl (.inr (same ▸ task_copied handed))
  | strip results =>
    obtain ⟨o, -, f, -, rfl⟩ := step
    exact versions_same here rfl
  | result results =>
    obtain ⟨o, -, result, rfl⟩ := step
    exact versions_result granted here result

/-! ## Inserts, deletes, drains -/

theorem versions_insert (born : Born db r) (free : ¬ db.resources.Occupied r) (good : (versions db id).Sound) :
    Generation.Run (versions db id)
      (versions { db with resources := db.resources.push r free, drawn := db.drawn + 1 } id) := by
  have pushed : (db.resources.push r free).lookup Resource.id id =
      if r.id = id then some r else db.resources.lookup Resource.id id :=
    lookup_push free id
  by_cases this : r.id = id
  · subst this
    have cell : versions { db with resources := db.resources.push r free, drawn := db.drawn + 1 }
        r.id = { versions db r.id with
          born := True
          object := some ⟨1, (some r.spec, r.kindVersion), 0, 0, 0⟩ } := by
      refine Generation.Cell.ext ?_ ?_ rfl rfl
      · exact eq_true ((drawn_succ db r.id).mpr (.inl born.id.symm))
      · simp only [versions, Db.resource?, pushed, if_true, map_some, Resource.object,
          born.generation, born.syncedGen, born.failureGen, born.composedGen]
    rw [cell]
    refine (Generation.Step.create _ ?_).run
    show ¬ db.Drawn r.id
    rw [born.id]
    exact not_drawn_next db
  · have cell : versions { db with resources := db.resources.push r free, drawn := db.drawn + 1 }
        id = { versions db id with born := ∃ n < db.drawn + 1, Postgres.randomUuid n = id } := by
      refine Generation.Cell.ext rfl ?_ rfl rfl
      simp only [versions, Db.resource?, pushed, if_neg this]
    rw [cell]
    exact versions_draw good fun old => (drawn_succ db id).mpr (.inr old)

theorem versions_delete (ids : List Uuid) :
    Generation.Run (versions db id) (versions (deleteResources db ids) id) := by
  have queue : Generation.Run (versions db id) (versions { db with
      workQueue := db.workQueue.deleteWhere fun q => q.resourceId ∈ cascaded db ids } id) :=
    versions_queue (Effect.delete ids).copies
  have cell : versions (deleteResources db ids) id = { versions { db with
      workQueue := db.workQueue.deleteWhere fun q => q.resourceId ∈ cascaded db ids } id with
      object := (versions (deleteResources db ids) id).object } := rfl
  refine queue.trans ?_
  rw [cell]
  cases after : (versions (deleteResources db ids) id).object with
  | none => exact Generation.Step.remove.run
  | some o =>
    -- the row is still there, with at most its config reference changed
    obtain ⟨r', here', rfl, rfl⟩ := of_versions_object after
    obtain ⟨r, here, -, same⟩ := mem_deleteResources here'
    have object : r'.object = r.object ∧ r'.id = r.id := by
      rcases same with rfl | rfl <;> exact ⟨rfl, rfl⟩
    have eq : (versions db r'.id).object = some r'.object := by
      rw [object.1, object.2]
      exact versions_object here
    rw [← eq]
    exact .refl

theorem versions_pop {results : List OutboxRow} (granted : Granted db)
    (waiting : ∀ o ∈ results, o ∈ db.workOutbox) :
    Generation.Run (versions db id) (versions (takeResults db results) id) := by
  let given : Set (Generation.Snapshot Content) :=
    {s | ∃ o ∈ results, Advances id o ∧ o.task.snapshot = s}
  have acked : Generation.Run (versions db id)
      { versions db id with acks := given ∪ (versions db id).acks } := by
    refine (Generation.Step.ack given ?_).run
    rintro s ⟨o, listed, advances, rfl⟩
    exact Or.inr ⟨o.task, granted.waiting o (waiting o listed), advances.resourceId, rfl⟩
  have cell : versions (takeResults db results) id = { versions db id with
      snaps := (versions (takeResults db results) id).snaps
      acks := given ∪ (versions db id).acks } := by
    refine Generation.Cell.ext rfl rfl rfl ?_
    ext s
    constructor
    · rintro ⟨o, listed, rest⟩
      exact (mem_append.mp listed).imp (fun h => ⟨o, h, rest⟩) fun h => ⟨o, h, rest⟩
    · rintro (⟨o, listed, rest⟩ | ⟨o, listed, rest⟩)
      · exact ⟨o, mem_append_left _ listed, rest⟩
      · exact ⟨o, mem_append_right _ listed, rest⟩
  refine acked.trans ?_
  rw [cell]
  refine (Generation.Step.forget _ ?_).run
  rintro s (⟨q, here, rest⟩ | handed)
  · exact Or.inl ⟨q, (mem_deleteWhere.mp here).1, rest⟩
  · exact Or.inr handed

/-! ## Runs of the store are runs of the cell -/

/-- **Every effect moves every cell by the rules.** -/
theorem effect_versions (effect : Effect l db db') (granted : Granted db)
    (good : (versions db id).Sound) : Generation.Run (versions db id) (versions db' id) := by
  have copies := effect.copies
  cases effect with
  | aux same => exact versions_aux same good
  | ops t n grows unsettled => exact versions_draw good (Db.Drawn.mono grows)
  | insert r born free => exact versions_insert born free good
  | row k p f keeps rows =>
    exact versions_update fun r here picked =>
      ⟨(rows r here picked).same.id, versions_row granted here (rows r here picked)⟩
  | delete ids => exact versions_delete ids
  | relabel t _ | rewire t | append o claimed token free | finalize results drained | recount range => exact .refl
  | enqueue cause w new free =>
    have pushed : Generation.Run (versions db id)
        (versions { db with workQueue := db.workQueue.push w free } id) := versions_queue copies
    exact pushed.trans (versions_draw (pushed.sound good) fun old => (drawn_succ db id).mpr (.inr old))
  | claim scan b => exact (versions_claim scan b).trans (versions_queue copies)
  | repoint | reap | release | touch | remove => exact versions_queue copies
  | pop results waiting distinct => exact versions_pop granted waiting

/-- Every cell of the store is sound. -/
structure Versioned (db : Db) : Prop where
  granted : Granted db
  sound : ∀ id, (versions db id).Sound

theorem Effect.versioned (effect : Effect l db db') (good : Versioned db) : Versioned db' :=
  ⟨effect.granted good.granted, fun id =>
    (effect_versions effect good.granted (good.sound id)).sound (good.sound id)⟩

theorem Effects.versions (run : Effects allow db db') (good : Versioned db)
    (id : Uuid) : Generation.Run (versions db id) (versions db' id) :=
  Steps.maps (I := Versioned) (fun _ effect => effect.versioned)
    (fun _ effect good => effect_versions effect good.granted (good.sound id)) run good

theorem Effects.versioned (run : Effects allow db db') (good : Versioned db) : Versioned db' :=
  Steps.keeps (fun _ effect => effect.versioned) run good

theorem versioned_empty : Versioned Db.empty := by
  refine ⟨⟨fun o h => absurd h (notMem_empty o), fun o h => by cases h⟩, fun id => ?_⟩
  have cell : versions Db.empty id = Generation.Cell.unused := by
    refine Generation.Cell.ext ?_ rfl ?_ ?_
    · simp [versions, Generation.Cell.unused, Db.Drawn, Db.empty]
    · ext s
      simp [versions, Generation.Cell.unused, Copied, Db.empty]
    · ext s
      simp [versions, Generation.Cell.unused, Db.empty]
  rw [cell]
  exact Generation.Cell.unused_sound

/-- **Every reachable state is sound.** -/
theorem Reachable.versioned (h : Reachable db) : Versioned db :=
  h.induction versioned_empty fun db a good => (step_effects db a).versioned good

/-- A task is of a row that was once inserted, at no later generation than it has now. -/
theorem Versioned.task_behind (good : Versioned db) (handed : t ∈ db.tasks) : db.Drawn t.resourceId ∧
      ∀ r ∈ db.resources, r.id = t.resourceId → t.generation ≤ r.generation := by
  obtain ⟨H, agrees⟩ := good.sound t.resourceId
  obtain ⟨s, copied, generation⟩ := task_copied handed
  constructor
  · by_contra new
    rw [(agrees.unborn new).2.1] at copied
    exact copied
  · intro r here same
    rw [← generation]
    exact agrees.behind r.object (same ▸ versions_object here) s copied

theorem run_versions (good : Versioned db) (actions : List Action) (id : Uuid) :
    Generation.Run (versions db id) (versions (run db actions) id) := by
  induction actions generalizing db with
  | nil => exact .refl
  | cons a rest ih =>
    exact ((step_effects db a).versions good id).trans (ih ((step_effects db a).versioned good))

/-- Every task is of a generation that a row once had. -/
theorem Reachable.task_positive (h : Reachable db) (handed : t ∈ db.tasks) : 1 ≤ t.generation := by
  obtain ⟨actions, rfl⟩ := h
  have empty : (versions Db.empty t.resourceId).Positive := by
    refine ⟨fun o made => ?_, ?_⟩
    · obtain ⟨r, here, -⟩ := of_versions_object made
      exact absurd here (notMem_empty r)
    · rintro s (⟨q, here, -⟩ | ⟨t, handed, -⟩)
      · exact absurd here (notMem_empty q)
      · cases handed
  obtain ⟨s, copied, generation⟩ := task_copied handed
  rw [← generation]
  exact ((run_versions versioned_empty actions t.resourceId).positive empty).snaps s copied

end Converge.Kernel
