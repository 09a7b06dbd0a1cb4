/-
# Guarantees.InflightCap -- the tally behind a kind's ceiling

A claim may take `max_inflight` less the sum of the kind's partials.  The partials are hints:
a claim adds what it took at the low shard of its own range, completions, reaps and releases
subtract nothing, and a recount replaces what lies in its range by one counted partial.

* Between recounts (`run_capped`): where the partials sum to at least the leased rows,
  they go on doing so, and the ceiling holds whatever else happens.
* After a pass of recounts over a tiling of the shards (`pass_counted`): the partials sum to the
  leased rows.  A recount also drops every partial not refreshed for five minutes, those of
  the other reapers included, so the pass must fit in that window: `slow_pass_undercounts` is a
  pass that does not.
-/
import Converge.Theory.Tally
import Converge.Kernel.Lease

namespace Converge.Kernel

open Converge.Theory List Table

set_option autoImplicit false
set_option linter.unusedSectionVars false

variable {actions : List Action} {tiles : List ShardRange} {range : ShardRange} {b : TakeBatch}

section Inflight

variable [Postgres] {db db' : Db} {kind : String} {version cap : Nat}

/-- A leased row of a kind version. -/
def WorkQueueRow.leasedAs (kind : String) (version : Nat) (q : WorkQueueRow) : Bool :=
  q.brokerId.isSome && q.kind = kind && q.kindVersion = version

def leased (db : Db) (kind : String) (version : Nat) : Nat :=
  (db.workQueue.rows.filter (·.leasedAs kind version)).length

theorem not_leasedAs {q : WorkQueueRow} (free : q.brokerId = none) : q.leasedAs kind version = false := by
  rw [WorkQueueRow.leasedAs, free]
  rfl

/-! ## What moves the count and the partials -/

theorem Effect.leased_le {l : Label} (effect : Effect l db db') (noClaim : l ≠ .claim) :
    leased db' kind version ≤ leased db kind version := by
  cases effect with
  | aux same =>
    unfold leased
    rw [same.workQueue]
  | claim scan b => exact absurd rfl noClaim
  | delete | remove | pop => exact count_deleteWhere_le
  | enqueue cause w new free => exact (count_push free (not_leasedAs new.free)).le
  | repoint r here ready =>
    refine count_updateWhere_le (f := Kernel.repoint (workFor db .reconcile r))
      (fun _ => rfl) fun q _ _ held => ?_
    cases held
  | reap | release =>
    refine count_updateWhere_le (freeRow_key db.now) fun q _ _ held => ?_
    cases held
  | touch p f keeps rows =>
    refine count_updateWhere_le keeps fun q _ _ held => ?_
    rwa [WorkQueueRow.leasedAs, (rows q).brokerId, (rows q).kind, (rows q).kindVersion] at held
  | _ => exact Nat.le_refl _

theorem Effect.kindInflight_eq {l : Label} (effect : Effect l db db') (noClaim : l ≠ .claim)
    (noRecount : l ≠ .recount) : db'.kindInflight = db.kindInflight := by
  cases effect with
  | aux same => exact same.kindInflight
  | claim scan b => exact absurd rfl noClaim
  | recount range => exact absurd rfl noRecount
  | _ => rfl

section Uncounted

variable {allow : Label → Prop}

theorem Effects.leased_le (run : Effects allow db db') (noClaim : ¬ allow .claim) :
    leased db' kind version ≤ leased db kind version := by
  refine Steps.keeps (I := fun s => leased s kind version ≤ leased db kind version) ?_ run (Nat.le_refl _)
  intro l a b ok effect before
  exact (effect.leased_le fun claims => noClaim (claims ▸ ok)).trans before

theorem Effects.kindInflight_eq (run : Effects allow db db') (noClaim : ¬ allow .claim)
    (noRecount : ¬ allow .recount) : db'.kindInflight = db.kindInflight := by
  refine Steps.keeps (I := fun s => s.kindInflight = db.kindInflight) ?_ run rfl
  intro l a b ok effect before
  refine (effect.kindInflight_eq ?_ ?_).trans before
  · exact fun claims => noClaim (claims ▸ ok)
  · exact fun recounts => noRecount (recounts ▸ ok)

end Uncounted

/-! ## Claims -/

theorem claim_leased_le (scan : Scan Uuid) (b : TakeBatch) :
    leased (workQueueTakeBatch db scan b) kind version ≤
      leased db kind version + (takenRows db scan b).length := by
  have named : ((takenRows db scan b).map (·.id)).length = (takenRows db scan b).length :=
    length_map _
  rw [← named]
  exact count_updateKeys_le workQueue_primary (claimRow_key b.brokerId db.now)

theorem claim_other_le (scan : Scan Uuid) (other : ¬ (b.kind = kind ∧ b.kindVersion = version)) :
    leased (workQueueTakeBatch db scan b) kind version ≤ leased db kind version := by
  refine count_updateWhere_le (claimRow_key b.brokerId db.now) fun q here taken held =>
    absurd ?_ other
  obtain ⟨q', listed, same⟩ := mem_map.mp (of_decide_eq_true taken)
  obtain ⟨here', ok⟩ := mem_filter.mp (Scan.mem_of_mem_pick listed)
  have one : q' = q := eq_of_pk workQueue_primary here' here same
  simp only [claimable, Bool.and_eq_true, decide_eq_true_eq] at ok
  rw [← one, WorkQueueRow.leasedAs, Bool.and_eq_true, Bool.and_eq_true] at held
  exact ⟨ok.1.1.1.1.symm.trans (of_decide_eq_true held.1.2), ok.1.1.1.2.symm.trans (of_decide_eq_true held.2)⟩

/-- A partial of a kind version. -/
def KindInflight.tallies (kind : String) (version : Nat) (i : KindInflight) : Bool :=
  i.kind = kind && i.kindVersion = version

/-- What the rows of a table sum to. -/
def tally (rows : List KindInflight) (kind : String) (version : Nat) : Nat :=
  ((rows.filter (·.tallies kind version)).map (·.inFlight)).sum

theorem tally_insertNew_le (i : KindInflight) (t : Table KindInflight) :
    tally t.rows kind version ≤ tally (t.insertNew i).rows kind version := by
  unfold Table.insertNew
  split
  · show _ ≤ tally (i :: t.rows) kind version
    unfold tally
    rw [filter_cons]
    split
    · exact Nat.le_add_left ..
    · exact Nat.le_refl _
  · exact Nat.le_refl _

theorem tally_map {g : KindInflight → KindInflight} {rows : List KindInflight}
    (same : ∀ i, (g i).tallies kind version = i.tallies kind version) : tally (rows.map g) kind version =
      ((rows.filter (·.tallies kind version)).map fun i => (g i).inFlight).sum := by
  unfold tally
  rw [filter_map, map_map]
  have kept : (fun i => KindInflight.tallies kind version i) ∘ g = (·.tallies kind version) :=
    funext same
  rw [kept]
  rfl

section Bump

variable (db) (kind' : String) (version' lo n : Nat)

def bumped (i : KindInflight) : KindInflight :=
  if i.kind = kind' && i.kindVersion = version' && i.rangeLo = lo then
    { i with inFlight := i.inFlight + n, refreshedAt := db.now }
  else i

theorem bumpInflight_eq : bumpInflight db kind' version' lo n = Table.insertNew (db.kindInflight.updateWhere
      (fun i => i.kind = kind' && i.kindVersion = version' && i.rangeLo = lo)
      (fun i => { i with inFlight := i.inFlight + n, refreshedAt := db.now }) (fun _ => rfl))
      ⟨kind', version', lo, n, db.now⟩ := rfl

theorem bumped_tallies (i : KindInflight) :
    (bumped db kind' version' lo n i).tallies kind version = i.tallies kind version := by
  unfold bumped
  split <;> rfl

theorem le_bumped (i : KindInflight) : i.inFlight ≤ (bumped db kind' version' lo n i).inFlight := by
  unfold bumped
  split
  · exact Nat.le_add_right ..
  · exact Nat.le_refl _

theorem bump_tally_le : tally db.kindInflight.rows kind version ≤
    tally (bumpInflight db kind' version' lo n).rows kind version := by
  refine Nat.le_trans ?_ (tally_insertNew_le _ _)
  show _ ≤ tally (db.kindInflight.rows.map (bumped db kind' version' lo n)) kind version
  rw [tally_map (bumped_tallies db kind' version' lo n)]
  exact sum_le_sum fun i _ => le_bumped db kind' version' lo n i

/-- A bump adds what was taken to the sum of its kind. -/
theorem bump_tally_add : tally db.kindInflight.rows kind version + n ≤
    tally (bumpInflight db kind version lo n).rows kind version := by
  by_cases present : ∃ i ∈ db.kindInflight, i.kind = kind ∧ i.kindVersion = version ∧ i.rangeLo = lo
  · refine Nat.le_trans ?_ (tally_insertNew_le _ _)
    show _ ≤ tally (db.kindInflight.rows.map (bumped db kind version lo n)) kind version
    rw [tally_map (bumped_tallies db kind version lo n)]
    obtain ⟨i, here, rfl, rfl, rfl⟩ := present
    refine sum_map_add_le (mem_filter.mpr ⟨here, ?_⟩) ?_ (le_bumped db _ _ _ n)
    · simp [KindInflight.tallies]
    · simp [bumped]
  · have old : tally db.kindInflight.rows kind version ≤
        tally (db.kindInflight.rows.map (bumped db kind version lo n)) kind version := by
      rw [tally_map (bumped_tallies db kind version lo n)]
      exact sum_le_sum fun i _ => le_bumped db kind version lo n i
    rw [bumpInflight_eq, Table.insertNew, dif_pos ?_]
    · show _ ≤ tally (⟨kind, version, lo, n, db.now⟩ ::
        db.kindInflight.rows.map (bumped db kind version lo n)) kind version
      unfold tally at old ⊢
      rw [filter_cons_of_pos (by simp [KindInflight.tallies]), map_cons, sum_cons]
      show _ ≤ n + _
      omega
    · rintro ⟨j, stored, clash⟩
      obtain ⟨i, here, rfl⟩ := mem_updateWhere.mp stored
      have same : (i.kind, i.kindVersion, i.rangeLo) = (kind, version, lo) := by
        split at clash <;> exact clash
      simp only [Prod.mk.injEq] at same
      exact present ⟨i, here, same⟩

end Bump

theorem claim_total_le (scan : Scan Uuid) (b : TakeBatch) :
    inflightTotal db kind version ≤ inflightTotal (workQueueTakeBatch db scan b) kind version := by
  simp only [workQueueTakeBatch]
  split
  · exact bump_tally_le ..
  · exact Nat.le_refl _

theorem claim_total_add (scan : Scan Uuid) (capped : inflightCap db b.kind b.kindVersion = some cap) :
    inflightTotal db b.kind b.kindVersion + (takenRows db scan b).length ≤
      inflightTotal (workQueueTakeBatch db scan b) b.kind b.kindVersion := by
  simp only [workQueueTakeBatch, capped, Option.isSome_some, Bool.true_and, isEmpty_map, length_map]
  cases taken : takenRows db scan b with
  | nil => exact Nat.le_refl _
  | cons q rest => exact bump_tally_add ..

/-- The ceiling is held with a tally that counts at least what is leased. -/
structure Capped (db : Db) (kind : String) (version cap : Nat) : Prop where
  ceiling : inflightCap db kind version = some cap
  counted : leased db kind version ≤ inflightTotal db kind version
  within : leased db kind version ≤ cap

theorem claim_capped {scan : Scan Uuid} (held : Capped db kind version cap)
    (fixed : inflightCap (workQueueTakeBatch db scan b) kind version = some cap) :
    Capped (workQueueTakeBatch db scan b) kind version cap := by
  by_cases own : b.kind = kind ∧ b.kindVersion = version
  · obtain ⟨rfl, rfl⟩ := own
    have counted := held.counted
    have within := held.within
    have leases : leased (workQueueTakeBatch db scan b) b.kind b.kindVersion ≤
        leased db b.kind b.kindVersion + (takenRows db scan b).length := claim_leased_le scan b
    have adds := claim_total_add scan held.ceiling
    have room : (takenRows db scan b).length ≤ cap - inflightTotal db b.kind b.kindVersion := by
      refine (length_take_le ..).trans ?_
      rw [takeLimit, held.ceiling]
      exact Nat.min_le_right ..
    exact ⟨fixed, by omega, by omega⟩
  · have leases : leased (workQueueTakeBatch db scan b) kind version ≤ leased db kind version :=
      claim_other_le scan own
    exact ⟨fixed, leases.trans (held.counted.trans (claim_total_le scan b)), leases.trans held.within⟩

/-- Not a recount, and the ceiling stays. -/
def BetweenRecounts (kind : String) (version cap : Nat) (db : Db) : Action → Prop
  | .recountInflight _ => False
  | a => inflightCap (step db a) kind version = some cap

theorem step_capped {a : Action} (ok : BetweenRecounts kind version cap db a)
    (held : Capped db kind version cap) : Capped (step db a) kind version cap := by
  have other (fixed : inflightCap (step db a) kind version = some cap)
      (noClaim : ¬ a.allows db .claim) (noRecount : ¬ a.allows db .recount) :
      Capped (step db a) kind version cap := by
    have effects := step_effects db a
    have leases : leased (step db a) kind version ≤ leased db kind version :=
      effects.leased_le noClaim
    have total : inflightTotal (step db a) kind version = inflightTotal db kind version := by
      unfold inflightTotal
      rw [effects.kindInflight_eq noClaim noRecount]
    exact ⟨fixed, total ▸ leases.trans held.counted, leases.trans held.within⟩
  cases a with
  | recountInflight range => exact ok.elim
  | workQueueTakeBatch scan b => exact claim_capped held ok
  | _ =>
    refine other ok ?_ ?_
    · first | exact id | exact fun h => by cases h
    · first | exact id | exact fun h => by cases h

theorem run_capped (along : Along (BetweenRecounts kind version cap) db actions)
    (held : Capped db kind version cap) : Capped (run db actions) kind version cap := by
  induction actions generalizing db with
  | nil => exact held
  | cons a rest ih => exact ih along.2 (step_capped along.1 held)

/-! ## Recounts -/

def ShardRange.has (range : ShardRange) (shard : Nat) : Bool :=
  range.lo ≤ shard && shard ≤ range.hi

theorem ShardRange.has_lo (proper : range.lo ≤ range.hi) : range.has range.lo = true := by
  rw [ShardRange.has, decide_eq_true (Nat.le_refl _), decide_eq_true proper]
  rfl

/-- Ranges that hold every shard exactly once. -/
@[mk_iff]
structure Tiling (tiles : List ShardRange) : Prop where
  proper : ∀ t ∈ tiles, t.lo ≤ t.hi ∧ t.hi < 256
  once : ∀ shard < 256, tiles.countP (·.has shard) = 1

instance (tiles : List ShardRange) : Decidable (Tiling tiles) := decidable_of_iff' _ (tiling_iff tiles)

theorem shardOf_lt (id : Uuid) : shardOf id < 256 := by
  have full := ShardRange.full_covers id
  exact Nat.lt_succ_of_le (of_decide_eq_true (Bool.and_eq_true_iff.mp full).2)

theorem Tiling.eq_of_has (tiling : Tiling tiles) {t u : ShardRange} {shard : Nat} (ht : t ∈ tiles)
    (hu : u ∈ tiles) (bound : shard < 256) (inT : t.has shard = true) (inU : u.has shard = true) : t = u := by
  have one := tiling.once shard bound
  rw [countP_eq_length_filter] at one
  obtain ⟨v, only⟩ := length_eq_one_iff.mp one
  have first : t ∈ tiles.filter (·.has shard) := mem_filter.mpr ⟨ht, inT⟩
  have second : u ∈ tiles.filter (·.has shard) := mem_filter.mpr ⟨hu, inU⟩
  rw [only, mem_singleton] at first second
  rw [first, second]

/-- The leased rows of a kind version in a range. -/
def leasedIn (db : Db) (range : ShardRange) (kind : String) (version : Nat) : Nat :=
  ((db.workQueue.rows.filter (·.leasedAs kind version)).filter (range.covers ·.resourceId)).length

/-- The partials of a kind version in a range. -/
def partialsIn (db : Db) (range : ShardRange) (kind : String) (version : Nat) : List KindInflight :=
  (db.kindInflight.rows.filter (·.tallies kind version)).filter (range.has ·.rangeLo)

/-- The partials of a kind version are keyed by shards. -/
def Sharded (db : Db) (kind : String) (version : Nat) : Prop :=
  ∀ i ∈ db.kindInflight, i.tallies kind version = true → i.rangeLo < 256
deriving Decidable

theorem leased_by_tiles (tiling : Tiling tiles) :
    (tiles.map fun t => leasedIn db t kind version).sum = leased db kind version :=
  length_by_tiles fun q _ => tiling.once (shardOf q.resourceId) (shardOf_lt _)

theorem total_by_tiles (tiling : Tiling tiles) (sharded : Sharded db kind version) :
    (tiles.map fun t => ((partialsIn db t kind version).map (·.inFlight)).sum).sum =
      inflightTotal db kind version := by
  refine sum_by_tiles (fun i listed => tiling.once i.rangeLo ?_) _
  obtain ⟨here, tallied⟩ := mem_filter.mp listed
  exact sharded i here tallied

/-- The partial a recount writes for a capped kind version. -/
def countedRow (db : Db) (range : ShardRange) (c : KindConfig) : KindInflight :=
  ⟨c.kind, c.kindVersion, range.lo, (db.workQueue.rows.filter fun q =>
    q.brokerId.isSome && range.covers q.resourceId && q.kind = c.kind
      && q.kindVersion = c.kindVersion).length, db.now⟩

def cappedConfigs (db : Db) : List KindConfig := db.kindConfig.rows.filter fun c => 0 < c.maxInflight

/-- A partial outside the range that is refreshed often enough. -/
def survives (db : Db) (range : ShardRange) (i : KindInflight) : Bool :=
  !range.has i.rangeLo && !decide (i.refreshedAt + 300 < db.now)

/-- The partials after a recount: one for each capped kind version, and the survivors. -/
theorem recount_rows (proper : range.lo ≤ range.hi) : (recountInflight db range).kindInflight.rows =
      ((cappedConfigs db).map (countedRow db range)).reverse ++
        db.kindInflight.rows.filter (survives db range) := by
  have counted : ((cappedConfigs db).foldl (fun t c => t.insertNew (countedRow db range c))
      (db.kindInflight.deleteWhere fun i => range.has i.rangeLo)).rows =
      ((cappedConfigs db).map (countedRow db range)).reverse ++
        db.kindInflight.rows.filter fun i => !range.has i.rangeLo := by
    refine rows_insertAll ?_ ?_
    · rintro c - ⟨i, stored, clash⟩
      have outside := (mem_deleteWhere.mp stored).2
      have same : (i.kind, i.kindVersion, i.rangeLo) = (c.kind, c.kindVersion, range.lo) := clash
      simp only [Prod.mk.injEq] at same
      rw [same.2.2, ShardRange.has_lo proper] at outside
      cases outside
    · refine (db.kindConfig.unique.filter _).imp ?_
      intro c d apart clash
      have same : (c.kind, c.kindVersion, range.lo) = (d.kind, d.kindVersion, range.lo) := clash
      simp only [Prod.mk.injEq] at same
      exact apart (Prod.ext same.1 same.2.1)
  have swept : (recountInflight db range).kindInflight.rows =
      ((cappedConfigs db).foldl (fun t c => t.insertNew (countedRow db range c))
        (db.kindInflight.deleteWhere fun i => range.has i.rangeLo)).rows.filter
          fun i => !decide (i.refreshedAt + 300 < db.now) := rfl
  rw [swept, counted, filter_append, filter_filter]
  refine congrArg₂ (· ++ ·) ?_ (filter_congr fun i _ => Bool.and_comm ..)
  refine filter_eq_self.mpr fun i listed => ?_
  obtain ⟨c, -, rfl⟩ := mem_map.mp (mem_reverse.mp listed)
  simp [countedRow]

theorem cappedConfigs_filter (capped : inflightCap db kind version = some cap) :
    ∃ c, (c.kind = kind ∧ c.kindVersion = version) ∧
      (cappedConfigs db).filter (fun d => d.kind = kind && d.kindVersion = version) = [c] := by
  obtain ⟨found, positive⟩ := Option.filter_eq_some_iff.mp capped
  obtain ⟨c, lookup, rfl⟩ := Option.map_eq_some_iff.mp found
  obtain ⟨here, key⟩ := mem_of_lookup lookup
  simp only [Prod.mk.injEq] at key
  refine ⟨c, key, ?_⟩
  rw [cappedConfigs, filter_filter]
  refine filter_eq_singleton here ?_ ?_
  · rw [key.1, key.2, positive, decide_eq_true rfl, decide_eq_true rfl]
    rfl
  · intro d _ named
    simp only [Bool.and_eq_true, decide_eq_true_eq] at named
    exact Prod.ext (named.1.1.trans key.1.symm) (named.1.2.trans key.2.symm)

/-- A recounted range: its partials sum to what is leased in it, and none is old. -/
structure Counted (start : Time) (range : ShardRange) (kind : String) (version : Nat) (db : Db) :
    Prop where
  sum : ((partialsIn db range kind version).map (·.inFlight)).sum = leasedIn db range kind version
  fresh : ∀ i ∈ partialsIn db range kind version, start ≤ i.refreshedAt

theorem countedRow_inFlight {c : KindConfig} (key : c.kind = kind ∧ c.kindVersion = version) :
    (countedRow db range c).inFlight = leasedIn db range kind version := by
  obtain ⟨rfl, rfl⟩ := key
  show (List.filter _ _).length = (List.filter _ (List.filter _ _)).length
  rw [filter_filter]
  congr 1
  refine filter_congr fun q _ => ?_
  simp only [WorkQueueRow.leasedAs]
  cases q.brokerId.isSome <;> cases range.covers q.resourceId <;> simp

theorem recount_own (proper : range.lo ≤ range.hi) (capped : inflightCap db kind version = some cap) :
    ∃ c, (c.kind = kind ∧ c.kindVersion = version) ∧
      partialsIn (recountInflight db range) range kind version = [countedRow db range c] := by
  obtain ⟨c, key, one⟩ := cappedConfigs_filter capped
  refine ⟨c, key, ?_⟩
  have gone : (db.kindInflight.rows.filter (survives db range)).filter
      (fun i => range.has i.rangeLo && i.tallies kind version) = [] := by
    refine filter_eq_nil_iff.mpr fun i listed => ?_
    have kept := (mem_filter.mp listed).2
    simp only [survives, Bool.and_eq_true, Bool.not_eq_true'] at kept
    rw [kept.1]
    exact Bool.false_ne_true
  have written : ((cappedConfigs db).map (countedRow db range)).filter
      (fun i => range.has i.rangeLo && i.tallies kind version) = [countedRow db range c] := by
    have picks : ((fun i : KindInflight => range.has i.rangeLo && i.tallies kind version) ∘
        countedRow db range) = fun d : KindConfig => d.kind = kind && d.kindVersion = version := by
      funext d
      show (range.has range.lo && _) = _
      rw [ShardRange.has_lo proper]
      rfl
    rw [filter_map, picks, one]
    rfl
  rw [partialsIn, filter_filter, recount_rows proper, filter_append, filter_reverse, written, gone]
  rfl

theorem recount_counted {start : Time} (proper : range.lo ≤ range.hi)
    (capped : inflightCap db kind version = some cap) (late : start ≤ db.now) :
    Counted start range kind version (recountInflight db range) := by
  obtain ⟨c, key, rows⟩ := recount_own proper capped
  constructor
  · rw [rows]
    exact countedRow_inFlight key
  · intro i listed
    rw [rows, mem_singleton] at listed
    rw [listed]
    exact late

/-- A recount in the window leaves the partials of the other recounted ranges. -/
theorem recount_other {other : ShardRange} {start : Time} (proper : other.lo ≤ other.hi)
    (low : other.lo < 256) (apart : ∀ shard < 256, range.has shard = true → other.has shard = false)
    (sharded : Sharded db kind version) (soon : db.now ≤ start + 300)
    (counted : Counted start range kind version db) :
    Counted start range kind version (recountInflight db other) := by
  have rows : partialsIn (recountInflight db other) range kind version = partialsIn db range kind version := by
    have written : ((cappedConfigs db).map (countedRow db other)).filter
        (fun i => range.has i.rangeLo && i.tallies kind version) = [] := by
      refine filter_eq_nil_iff.mpr fun i listed => ?_
      obtain ⟨c, -, rfl⟩ := mem_map.mp listed
      intro both
      have away := apart other.lo low (Bool.and_eq_true_iff.mp both).1
      rw [ShardRange.has_lo proper] at away
      cases away
    rw [partialsIn, filter_filter, recount_rows proper, filter_append,
      filter_reverse, written, filter_filter, partialsIn, filter_filter]
    refine filter_congr fun i here => ?_
    -- a recounted partial lies outside the other range and inside the window
    cases held : (range.has i.rangeLo && i.tallies kind version) with
    | false => rfl
    | true =>
      obtain ⟨within, tallied⟩ := Bool.and_eq_true_iff.mp held
      have away := apart i.rangeLo (sharded i here tallied) within
      have fresh := counted.fresh i (mem_filter.mpr ⟨mem_filter.mpr ⟨here, tallied⟩, within⟩)
      have young : ¬ i.refreshedAt + 300 < db.now :=
        Nat.not_lt.mpr (soon.trans (Nat.add_le_add_right fresh 300))
      rw [survives, away, decide_eq_false young]
      rfl
  constructor
  · rw [rows]
    exact counted.sum
  · rw [rows]
    exact counted.fresh

/-! ## A pass of recounts -/

/-- Queue, ceilings and partials are as they were. -/
structure Undisturbed (db db' : Db) : Prop where
  workQueue : db'.workQueue = db.workQueue
  kindConfig : db'.kindConfig = db.kindConfig
  kindInflight : db'.kindInflight = db.kindInflight

/-- A recount of a tile, or an action that changes nothing a recount reads or writes. -/
def Recounting (tiles : List ShardRange) (db : Db) : Action → Prop
  | .recountInflight t => t ∈ tiles
  | a => Undisturbed db (step db a)

/-- A recount within five minutes of `start`. -/
def InWindow (start : Time) (db : Db) : Action → Prop
  | .recountInflight _ => start ≤ db.now ∧ db.now ≤ start + 300
  | _ => True

theorem recount_sharded (proper : range.lo ≤ range.hi) (low : range.lo < 256)
    (sharded : Sharded db kind version) : Sharded (recountInflight db range) kind version := by
  intro i here tallied
  have listed : i ∈ (recountInflight db range).kindInflight.rows := here
  rw [recount_rows proper, mem_append, mem_reverse] at listed
  rcases listed with written | kept
  · obtain ⟨c, -, rfl⟩ := mem_map.mp written
    exact low
  · exact sharded i (mem_filter.mp kept).1 tallied

section Pass

variable {tiles : List ShardRange} {start : Time} {a : Action} {t : ShardRange}

theorem Recounting.ceiling (ok : Recounting tiles db a) (capped : inflightCap db kind version = some cap) :
    inflightCap (step db a) kind version = some cap := by
  have kept (same : (step db a).kindConfig = db.kindConfig) :
      inflightCap (step db a) kind version = some cap := by
    rw [← capped, inflightCap, Db.kindConfig?, same]
    rfl
  cases a with
  | recountInflight range => exact capped
  | _ => exact kept ok.kindConfig

theorem Recounting.sharded (tiling : Tiling tiles) (ok : Recounting tiles db a)
    (sharded : Sharded db kind version) : Sharded (step db a) kind version := by
  have kept (same : (step db a).kindInflight = db.kindInflight) : Sharded (step db a) kind version := by
    intro i here
    exact sharded i (same ▸ here)
  cases a with
  | recountInflight u =>
    obtain ⟨proper, low⟩ := tiling.proper u ok
    exact recount_sharded proper (Nat.lt_of_le_of_lt proper low) sharded
  | _ => exact kept ok.kindInflight

/-- A recounted tile stays recounted, and a recount of the tile makes it so. -/
theorem Recounting.counted (tiling : Tiling tiles) (tile : t ∈ tiles) (ok : Recounting tiles db a)
    (window : InWindow start db a) (capped : inflightCap db kind version = some cap)
    (sharded : Sharded db kind version) (counted : Counted start t kind version db ∨ a = .recountInflight t) :
    Counted start t kind version (step db a) := by
  have kept (same : Undisturbed db (step db a)) (before : Counted start t kind version db) :
      Counted start t kind version (step db a) := by
    have rows : partialsIn (step db a) t kind version = partialsIn db t kind version := by
      unfold partialsIn
      rw [same.kindInflight]
    have leases : leasedIn (step db a) t kind version = leasedIn db t kind version := by
      unfold leasedIn
      rw [same.workQueue]
    exact ⟨by rw [rows, leases, before.sum], by rw [rows]; exact before.fresh⟩
  cases a with
  | recountInflight u =>
    obtain ⟨late, soon⟩ := window
    obtain ⟨proper, low⟩ := tiling.proper u ok
    by_cases own : u = t
    · rw [own] at proper ⊢
      exact recount_counted proper capped late
    · have before : Counted start t kind version db :=
        counted.resolve_right fun same => own (Action.recountInflight.inj same)
      refine recount_other proper (Nat.lt_of_le_of_lt proper low) ?_ sharded soon before
      intro shard bound inside
      refine Bool.eq_false_iff.mpr fun both => own ?_
      exact tiling.eq_of_has ok tile bound both inside
  | _ => exact kept ok (counted.resolve_right nofun)

theorem pass_counted (tiling : Tiling tiles) (tile : t ∈ tiles)
    (along : Along (fun db a => Recounting tiles db a ∧ InWindow start db a) db actions)
    (capped : inflightCap db kind version = some cap) (sharded : Sharded db kind version)
    (counted : Counted start t kind version db ∨ Action.recountInflight t ∈ actions) :
    Counted start t kind version (run db actions) := by
  induction actions generalizing db with
  | nil => exact counted.resolve_right nofun
  | cons a rest ih =>
    obtain ⟨⟨ok, window⟩, later⟩ := along
    refine ih later (ok.ceiling capped) (ok.sharded tiling sharded) ?_
    rcases counted with before | listed
    · exact .inl (ok.counted tiling tile window capped sharded (.inl before))
    · rcases mem_cons.mp listed with same | after
      · exact .inl (ok.counted tiling tile window capped sharded (.inr same.symm))
      · exact .inr after

theorem pass_sharded (tiling : Tiling tiles)
    (along : Along (fun db a => Recounting tiles db a ∧ InWindow start db a) db actions)
    (sharded : Sharded db kind version) : Sharded (run db actions) kind version := by
  induction actions generalizing db with
  | nil => exact sharded
  | cons a rest ih => exact ih along.2 (along.1.1.sharded tiling sharded)

end Pass

/-- **The ceiling holds between recounts, and a pass of recounts makes the tally exact.**  Where
the partials sum to at least the leased rows and these are within `max_inflight`, no run without
a recount that leaves the ceiling takes the leased rows above it.  Once every tile has been
recounted, all within five minutes and with nothing else disturbed, the partials sum to the
leased rows, whatever they were before. -/
theorem ceiling_held_and_recounted (capped : inflightCap db kind version = some cap) :
    (∀ actions, leased db kind version ≤ inflightTotal db kind version →
      leased db kind version ≤ cap → Along (BetweenRecounts kind version cap) db actions →
        leased (run db actions) kind version ≤ cap) ∧
    ∀ tiles start actions, Tiling tiles → Sharded db kind version →
      Along (fun db a => Recounting tiles db a ∧ InWindow start db a) db actions →
      (∀ t ∈ tiles, Action.recountInflight t ∈ actions) →
        inflightTotal (run db actions) kind version = leased (run db actions) kind version := by
  constructor
  · intro actions counted within along
    exact (run_capped along ⟨capped, counted, within⟩).within
  · intro tiles start actions tiling sharded along each
    have exact_ (t : ShardRange) (tile : t ∈ tiles) :
        ((partialsIn (run db actions) t kind version).map (·.inFlight)).sum =
          leasedIn (run db actions) t kind version :=
      (pass_counted tiling tile along capped sharded (.inr (each t tile))).sum
    calc inflightTotal (run db actions) kind version
        = (tiles.map fun t => ((partialsIn (run db actions) t kind version).map (·.inFlight)).sum).sum :=
          (total_by_tiles tiling (pass_sharded tiling along sharded)).symm
      _ = (tiles.map fun t => leasedIn (run db actions) t kind version).sum :=
          congrArg List.sum (map_congr_left exact_)
      _ = leased (run db actions) kind version := leased_by_tiles tiling

end Inflight

/-- Of a kind that may have two tasks in flight, three rows, one of them leased. -/
def oneInFlight : List Action :=
  [.seedKindConfig ⟨"vpc", 1, 2, 0, 0, false, 0, none, 0, false, 0⟩, applyRoot "vpc" "a",
    applyRoot "vpc" "b", applyRoot "vpc" "c",
    .workQueueTakeBatch Scan.plain ⟨"b1", "vpc", 1, .reconcile, ShardRange.full, 1⟩]

def halves : List ShardRange := [⟨0, 127⟩, ⟨128, 255⟩]

/-- Both reapers recount, `secs` apart. -/
def recountHalves (secs : Nat) : List Action :=
  [.recountInflight ⟨0, 127⟩, .tick secs, .recountInflight ⟨128, 255⟩]

theorem recountHalves_along [Postgres] (db : Db) (secs : Nat) :
    Along (Recounting halves) db (recountHalves secs) :=
  ⟨.head _, ⟨rfl, rfl, rfl⟩, .tail _ (.head _), trivial⟩

theorem recountHalves_each (secs : Nat) : ∀ t ∈ halves, Action.recountInflight t ∈ recountHalves secs := by
  simp [halves, recountHalves]

/-- A claim that asks for ten rows, and a release; then two recounts, ten seconds apart. -/
theorem ceiling_held_and_recounted_vpc : letI := counting
    let db := run Db.empty oneInFlight
    let claims := [claimAll "b2" "vpc" .reconcile, .workQueueReleaseBroker Scan.plain "b1",
      claimAll "b2" "vpc" .reconcile]
    leased (run db claims) "vpc" 1 ≤ 2 ∧
      inflightTotal (run db (recountHalves 10)) "vpc" 1 = leased (run db (recountHalves 10)) "vpc" 1 := by
  intro db claims
  have facts : letI := counting
      inflightCap db "vpc" 1 = some 2 ∧ leased db "vpc" 1 ≤ inflightTotal db "vpc" 1 ∧
        leased db "vpc" 1 ≤ 2 ∧ Sharded db "vpc" 1 ∧ Tiling halves := by
    decide +kernel
  have along : letI := counting
      Along (BetweenRecounts "vpc" 1 2) db claims :=
    letI := counting
    have held (n : Nat) (h : n < 4) : inflightCap (run db (claims.take n)) "vpc" 1 = some 2 := by
      revert n
      decide +kernel
    ⟨held 1 (by decide), held 2 (by decide), held 3 (by decide), trivial⟩
  have pass : letI := counting
      Along (fun db a => Recounting halves db a ∧ InWindow 0 db a) db (recountHalves 10) :=
    letI := counting
    ⟨⟨.head _, Nat.zero_le _, by decide +kernel⟩, ⟨⟨rfl, rfl, rfl⟩, trivial⟩,
      ⟨.tail _ (.head _), Nat.zero_le _, by decide +kernel⟩, trivial⟩
  obtain ⟨capped, counted, within, sharded, tiling⟩ := facts
  have both := @ceiling_held_and_recounted counting db "vpc" 1 2 capped
  exact ⟨both.1 claims counted within along, both.2 halves 0 _ tiling sharded pass (recountHalves_each 10)⟩

/-- Five minutes and a second apart, the second reaper drops the partial of the first: one row
is leased and the partials sum to nothing. -/
theorem slow_pass_undercounts : letI := counting
    let db := run Db.empty oneInFlight
    inflightCap db "vpc" 1 = some 2 ∧ Tiling halves ∧ Sharded db "vpc" 1 ∧
      Along (Recounting halves) db (recountHalves 301) ∧
      (∀ t ∈ halves, Action.recountInflight t ∈ recountHalves 301) ∧
      leased (run db (recountHalves 301)) "vpc" 1 = 1 ∧
      inflightTotal (run db (recountHalves 301)) "vpc" 1 = 0 := by
  intro db
  have facts : letI := counting
      (inflightCap db "vpc" 1 = some 2 ∧ Tiling halves ∧ Sharded db "vpc" 1) ∧
        leased (run db (recountHalves 301)) "vpc" 1 = 1 ∧
        inflightTotal (run db (recountHalves 301)) "vpc" 1 = 0 := by
    decide +kernel
  exact ⟨facts.1.1, facts.1.2.1, facts.1.2.2, @recountHalves_along counting db 301,
    recountHalves_each 301, facts.2⟩

end Converge.Kernel
