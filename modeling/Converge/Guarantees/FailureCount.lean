/-
# Guarantees.FailureCount -- what the failure columns count

A drain keeps the failures of a resource in three columns: the generation of the last one, how many
transient ones there were in a row at that generation, and whether the last one is final, because
the worker said so or because the count reached the cap of the kind.

`attempts`, `lastFailed` and `flagged` are the columns as folds over the results drained so far;
`streak`, `transients` and `Ends` are what they are meant to say: the results since the last
advancing success, at one generation, and the failure that ends the attempts.

The flag is first set where it should be.  The count is right exactly if the streak started afresh:
a terminal failure at a new generation keeps the count of the generation before, and the transient
failures that follow it are added to that.
-/
import Converge.Kernel.Flows
import Converge.Kernel.Frames
import Converge.Kernel.Versions

namespace Converge.Kernel

open Converge.Theory List

set_option autoImplicit false
set_option linter.unusedSectionVars false

namespace OutboxRow

def transient (o : OutboxRow) : Bool := o.failed && !o.terminal

theorem transient_iff {o : OutboxRow} : o.transient = true ↔ o.failed = true ∧ o.terminal = false := by
  simp [transient]

/-- A success that advances; what the worker reports as a transient failure is none. -/
def settles (o : OutboxRow) : Bool := !o.transient && (o.succeeded && o.advanceSyncedGen)

end OutboxRow

/-! ## Histories

The results drained for one resource, the last one first. -/

/-- The generation of the failure that the columns are about. -/
def lastFailed : List OutboxRow → Nat
  | [] => 0
  | o :: older => if o.failed then o.observedGeneration else if o.settles then 0 else lastFailed older

/-- What the drains count. -/
def attempts : List OutboxRow → Nat
  | [] => 0
  | o :: older =>
    if o.transient then if lastFailed older = o.observedGeneration then attempts older + 1 else 1
    else if o.settles then 0
    else attempts older

/-- What the drains flag, under a cap. -/
def flagged (cap : Nat) : List OutboxRow → Bool
  | [] => false
  | o :: older =>
    if o.transient then 0 < cap && cap ≤ attempts (o :: older)
    else if o.failed then true
    else if o.settles then false
    else flagged cap older

/-- The generation of the last failure. -/
def streakGen (history : List OutboxRow) : Nat :=
  ((history.find? (·.failed)).map (·.observedGeneration)).getD 0

/-- Neither an advancing success nor a failure observed at another generation. -/
def continues (g : Nat) (o : OutboxRow) : Bool := !o.settles && (!o.failed || o.observedGeneration = g)

/-- The longest run of results, up to the last one, with no advancing success and with no failure
observed at another generation. -/
def streak (history : List OutboxRow) : List OutboxRow := history.takeWhile (continues (streakGen history))

/-- What came before it. -/
def beforeStreak (history : List OutboxRow) : List OutboxRow := history.dropWhile (continues (streakGen history))

/-- The transient failures since the last advancing success, at one generation. -/
def transients (history : List OutboxRow) : Nat := (streak history).countP (·.transient)

/-- The streak's first failure is transient, or no transient failure came before it since the last
advancing success. -/
def StartsAfresh (history : List OutboxRow) : Prop :=
  (∀ o ∈ (streak history).reverse.find? (·.failed), o.terminal = false) ∨
    ∀ o ∈ (beforeStreak history).takeWhile (!·.settles), o.transient = false
deriving Decidable

/-! ### The count -/

variable {o : OutboxRow} {history older s : List OutboxRow} {g : Nat}

theorem attempts_eq_zero : attempts history = 0 ↔ ∀ o ∈ history.takeWhile (!·.settles), o.transient = false := by
  induction history with
  | nil => simp [attempts]
  | cons o older ih =>
    by_cases transient : o.transient = true
    · have unsettled : o.settles = false := by simp [OutboxRow.settles, transient]
      simp only [attempts, transient, if_true, takeWhile_cons, unsettled]
      constructor
      · intro zero
        split at zero <;> omega
      · intro none
        exact absurd transient (by simp [none o (by simp)])
    · cases settles : o.settles
      · simp [attempts, transient, settles, ih]
      · simp [attempts, transient, settles]

theorem attempts_unfailed (older : List OutboxRow) (each : ∀ o ∈ s, continues g o = true)
    (none : ∀ o ∈ s, o.failed = false) :
    attempts (s ++ older) = attempts older ∧ lastFailed (s ++ older) = lastFailed older ∧
      s.countP (·.transient) = 0 := by
  induction s with
  | nil => simp
  | cons o s ih =>
    obtain ⟨same, gen, count⟩ := ih (fun o mem => each o (.tail _ mem)) fun o mem => none o (.tail _ mem)
    have unfailed := none o (.head _)
    have unsettled : o.settles = false := by
      have := each o (.head _)
      simp only [continues, Bool.and_eq_true, Bool.not_eq_true'] at this
      exact this.1
    have passed : o.transient = false := by simp [OutboxRow.transient, unfailed]
    refine ⟨?_, ?_, ?_⟩
    · simpa [attempts, passed, unsettled] using same
    · simpa [lastFailed, unfailed, unsettled] using gen
    · simpa [countP_cons, passed] using count

/-- What a streak adds to the count, by its first failure. -/
theorem attempts_streak (each : ∀ o ∈ s, continues g o = true) (apart : lastFailed older = g → attempts older = 0)
    {first : OutboxRow} (found : s.reverse.find? (·.failed) = some first) :
    lastFailed (s ++ older) = g ∧
      attempts (s ++ older) = s.countP (·.transient) + (if first.terminal then attempts older else 0) := by
  induction s with
  | nil => cases found
  | cons o s ih =>
    have later : ∀ o ∈ s, continues g o = true := fun o mem => each o (.tail _ mem)
    have mine := each o (.head _)
    simp only [continues, Bool.and_eq_true, Bool.not_eq_true', Bool.or_eq_true, decide_eq_true_eq] at mine
    obtain ⟨unsettled, here⟩ := mine
    rw [reverse_cons, find?_append] at found
    cases earlier : s.reverse.find? (·.failed) with
    | some first' =>
      rw [earlier] at found
      cases found
      obtain ⟨gen, count⟩ := ih later earlier
      cases failed : o.failed with
      | false =>
        have passed : o.transient = false := by simp [OutboxRow.transient, failed]
        exact ⟨by simpa [lastFailed, failed, unsettled] using gen,
          by simpa [attempts, passed, unsettled, countP_cons] using count⟩
      | true =>
        have seen : o.observedGeneration = g := here.resolve_left (by simp [failed])
        refine ⟨by simpa [lastFailed, failed] using seen, ?_⟩
        cases transient : o.transient with
        | false => simpa [attempts, transient, unsettled, countP_cons] using count
        | true =>
          simp only [cons_append, attempts, transient, gen, seen, if_true, countP_cons, count]
          omega
    | none =>
      rw [earlier] at found
      have unfailed : ∀ o ∈ s, o.failed = false := by
        intro o mem
        simpa using find?_eq_none.mp earlier o (mem_reverse.mpr mem)
      obtain ⟨same, gen, count⟩ := attempts_unfailed older later unfailed
      obtain ⟨failed, rfl⟩ : o.failed = true ∧ o = first := by simpa using found
      have seen : o.observedGeneration = g := here.resolve_left (by simp [failed])
      refine ⟨by simpa [lastFailed, failed] using seen, ?_⟩
      cases terminal : o.terminal with
      | true =>
        have passed : o.transient = false := by simp [OutboxRow.transient, terminal]
        simp [attempts, passed, unsettled, same, count]
      | false =>
        have transient : o.transient = true := by simp [OutboxRow.transient, failed, terminal]
        simp only [cons_append, attempts, transient, if_true, gen, seen, same, countP_cons, count]
        by_cases at_ : lastFailed older = g
        · simp [at_, apart at_]
        · simp [at_]

theorem beforeStreak_cons {rest : List OutboxRow} (before : beforeStreak history = o :: rest) :
    o.settles = true ∨ o.failed = true ∧ o.observedGeneration ≠ streakGen history := by
  have stops := head?_dropWhile_not (continues (streakGen history)) history
  rw [show history.dropWhile (continues (streakGen history)) = o :: rest from before] at stops
  simpa [continues, or_iff_not_imp_left] using stops

theorem attempts_settles (settles : o.settles = true) : attempts (o :: older) = 0 := by
  have passed : o.transient = false := by
    simp only [OutboxRow.settles, Bool.and_eq_true, Bool.not_eq_true'] at settles
    exact settles.1
  simp [attempts, passed, settles]

/-- What came before a streak counts only if it failed at another generation. -/
theorem attempts_before (same : ∀ o rest, beforeStreak history = o :: rest → o.failed = true →
    o.observedGeneration = streakGen history) : attempts (beforeStreak history) = 0 := by
  cases before : beforeStreak history with
  | nil => rfl
  | cons o rest =>
    rcases beforeStreak_cons before with settles | ⟨failed, other⟩
    · exact attempts_settles settles
    · exact absurd (same o rest before failed) other

theorem attempts_cut (same : lastFailed (beforeStreak history) = streakGen history) :
    attempts (beforeStreak history) = 0 := by
  refine attempts_before fun o rest before failed => ?_
  simpa [before, lastFailed, failed] using same

/-- A streak without a failure has nothing before it that counts: it would go on to its own last
failure. -/
theorem attempts_beforeStreak (unfailed : ∀ o ∈ streak history, o.failed = false) :
    attempts (beforeStreak history) = 0 := by
  refine attempts_before fun o rest before failed => ?_
  have split : streak history ++ beforeStreak history = history := takeWhile_append_dropWhile
  have none : (streak history).find? (·.failed) = none :=
    find?_eq_none.mpr fun o mem => by simp [unfailed o mem]
  rw [streakGen, ← split, find?_append, none, before]
  simp [failed]

/-- **The count is that of the streak** exactly if the streak starts afresh. -/
theorem attempts_eq_transients : attempts history = transients history ↔ StartsAfresh history := by
  have split : streak history ++ beforeStreak history = history := takeWhile_append_dropWhile
  have each : ∀ o ∈ streak history, continues (streakGen history) o = true := all_eq_true.mp all_takeWhile
  cases found : (streak history).reverse.find? (·.failed) with
  | none =>
    have unfailed : ∀ o ∈ streak history, o.failed = false := by
      intro o mem
      simpa using find?_eq_none.mp found o (mem_reverse.mpr mem)
    obtain ⟨same, -, count⟩ := attempts_unfailed (beforeStreak history) each unfailed
    rw [split, attempts_beforeStreak unfailed] at same
    rw [same, transients, count]
    exact ⟨fun _ => .inl fun o some_ => (nomatch found.symm.trans some_), fun _ => rfl⟩
  | some first =>
    have count := (attempts_streak each attempts_cut found).2
    rw [split] at count
    rw [count, transients, StartsAfresh, found, ← attempts_eq_zero]
    cases terminal : first.terminal <;> simp [terminal]

/-! ### The flag -/

/-- The last result is a failure that the worker declared terminal, or the transient one that the
streak reaches the cap with. -/
def Ends (cap : Nat) : List OutboxRow → Prop
  | [] => False
  | o :: older => o.failed = true ∧ (o.terminal = true ∨ transients (o :: older) = cap)

variable {cap : Nat}

theorem attempts_cons_le : attempts (o :: older) ≤ attempts older + 1 := by
  rw [attempts]
  split
  · split <;> omega
  · split <;> omega

/-- Where no earlier failure was terminal, every count is that of its streak. -/
theorem startsAfresh_of_earlier (transient : o.transient = true)
    (earlier : ∀ t, t <:+ older → ¬ Ends cap t) : StartsAfresh (o :: older) := by
  refine .inl fun first found => ?_
  have mem : first ∈ o :: older :=
    (takeWhile_sublist _).subset (mem_reverse.mp (mem_of_find?_eq_some found))
  rcases mem_cons.mp mem with rfl | there
  · exact (OutboxRow.transient_iff.mp transient).2
  · obtain ⟨front, back, rfl⟩ := append_of_mem there
    have failed : first.failed = true := by simpa using find?_some found
    have alive := earlier (first :: back) (suffix_append ..)
    rw [Ends, not_and] at alive
    simpa using fun terminal => alive failed (.inl terminal)

theorem below_cap (capped : 0 < cap)
    (earlier : ∀ t, t <:+ history → ¬ Ends cap t) : flagged cap history = false ∧ attempts history < cap := by
  induction history with
  | nil => exact ⟨rfl, capped⟩
  | cons o older ih =>
    have before : ∀ t, t <:+ older → ¬ Ends cap t := fun t suffix => earlier t (suffix.trans (suffix_cons ..))
    obtain ⟨unflagged, below⟩ := ih before
    have alive := earlier (o :: older) suffix_rfl
    rw [Ends, not_and, not_or] at alive
    cases transient : o.transient with
    | true =>
      obtain ⟨failed, -⟩ := OutboxRow.transient_iff.mp transient
      have count := attempts_eq_transients.mpr (startsAfresh_of_earlier transient before)
      have step : attempts (o :: older) ≤ attempts older + 1 := attempts_cons_le
      have other := (alive failed).2
      have under : attempts (o :: older) < cap := by omega
      refine ⟨?_, under⟩
      rw [flagged, transient, if_pos rfl]
      simp [under]
    | false =>
      have unfailed : o.failed = false := by
        cases failed : o.failed with
        | false => rfl
        | true => simp [OutboxRow.transient, failed, (alive failed).1] at transient
      cases settles : o.settles with
      | true => simp [flagged, attempts, transient, unfailed, settles, capped]
      | false => simp [flagged, attempts, transient, unfailed, settles, unflagged, below]

/-- **The flag is first set** by the first failure that ends the attempts. -/
theorem flagged_iff_ends (capped : 0 < cap)
    (earlier : ∀ t, t <:+ history → t ≠ history → ¬ Ends cap t) :
    flagged cap history = true ↔ Ends cap history := by
  cases history with
  | nil => simp [flagged, Ends]
  | cons o older =>
    have before : ∀ t, t <:+ older → ¬ Ends cap t := by
      intro t suffix
      refine earlier t (suffix.trans (suffix_cons ..)) fun same => ?_
      have := suffix.length_le
      rw [same, length_cons] at this
      omega
    obtain ⟨unflagged, below⟩ := below_cap capped before
    rw [flagged, Ends]
    cases transient : o.transient with
    | true =>
      obtain ⟨failed, open_⟩ := OutboxRow.transient_iff.mp transient
      have count := attempts_eq_transients.mpr (startsAfresh_of_earlier transient before)
      have step : attempts (o :: older) ≤ attempts older + 1 := attempts_cons_le
      rw [← count]
      simp only [if_true, capped, decide_true, Bool.true_and, decide_eq_true_eq, failed, open_, true_and,
        Bool.false_eq_true, false_or]
      omega
    | false =>
      cases failed : o.failed with
      | true =>
        have terminal : o.terminal = true := by simpa [OutboxRow.transient, failed] using transient
        simp [terminal]
      | false => cases o.settles <;> simp [unflagged]

theorem unfailed_zero (cap : Nat) (positive : ∀ o ∈ history, 1 ≤ o.observedGeneration)
    (zero : lastFailed history = 0) :
    attempts history = 0 ∧ flagged cap history = false := by
  induction history with
  | nil => exact ⟨rfl, rfl⟩
  | cons o older ih =>
    cases failed : o.failed with
    | true =>
      have := positive o (.head _)
      simp only [lastFailed, failed, if_true] at zero
      omega
    | false =>
      have passed : o.transient = false := by simp [OutboxRow.transient, failed]
      cases settles : o.settles with
      | true => simp [attempts, flagged, passed, failed, settles]
      | false =>
        simp only [lastFailed, failed, settles, Bool.false_eq_true, if_false] at zero
        simpa [attempts, flagged, passed, failed, settles] using
          ih (fun o mem => positive o (.tail _ mem)) zero

/-! ## One drain -/

section Columns

variable [Postgres] {db db' mid : Db} {a : Action} {r r' : Resource} {id : Uuid} {allow : Label → Prop}
    {order : Nat → Nat} {range : ShardRange}

/-- The reconcile results drained for a resource, the last one first. -/
def historyOf (drained : List OutboxRow) (id : Uuid) : List OutboxRow :=
  drained.filter fun o => o.taskType = .reconcile && o.resourceId = id

/-- Generation and count are those of the history. -/
structure Tallied (history : List OutboxRow) (r : Resource) : Prop where
  failureGen : r.failureGen = lastFailed history
  failureAttempts : r.failureAttempts = attempts history

/-- What a drain with the one result `o` for the row makes of it. -/
def drainedBy (mid : Db) (o : OutboxRow) (r : Resource) : Resource :=
  if changesRow o r then applyResult mid o r else r

theorem changesRow_transient (transient : o.transient = true) : changesRow o r = true := by
  obtain ⟨failed, open_⟩ := OutboxRow.transient_iff.mp transient
  cases flag : r.failureTerminal <;> simp [changesRow, failed, open_, flag, Resource.deadLettered]

theorem changesRow_failed (failed : o.failed = true) (same : changesRow o r = false) :
    o.transient = false ∧ r.failureGen = o.observedGeneration ∧ r.failureTerminal = true := by
  have passed : o.transient = false :=
    Bool.eq_false_iff.mpr fun transient => nomatch same.symm.trans (changesRow_transient transient)
  have terminal : o.terminal = true := by simpa [OutboxRow.transient, failed] using passed
  simp only [changesRow, failed, terminal, Bool.or_eq_false_iff, Bool.true_and, decide_eq_false_iff_not, ne_eq,
    not_not] at same
  exact ⟨passed, same.1.1.1.2, same.1.1.2.symm⟩

theorem changesRow_settles (settles : o.settles = true) (same : changesRow o r = false) : r.failureGen = 0 := by
  simp only [OutboxRow.settles, Bool.and_eq_true, Bool.not_eq_true'] at settles
  simp only [changesRow, settles.2, Bool.or_eq_false_iff, Bool.true_and, decide_eq_false_iff_not, ne_eq,
    not_not] at same
  exact same.1.2

theorem drainedBy_failureGen : (drainedBy mid o r).failureGen =
    if o.failed then o.observedGeneration else if o.settles then 0 else r.failureGen := by
  unfold drainedBy
  cases failed : o.failed with
  | true =>
    cases changes : changesRow o r with
    | true => simp [applyResult, failed]
    | false => simpa using (changesRow_failed failed changes).2.1
  | false =>
    cases changes : changesRow o r with
    | true => simp [applyResult, failed, OutboxRow.settles, OutboxRow.transient]
    | false =>
      cases settles : o.settles with
      | true => simpa using changesRow_settles settles changes
      | false => simp

theorem drainedBy_failureAttempts (clean : r.failureGen = 0 → r.failureAttempts = 0) :
    (drainedBy mid o r).failureAttempts =
      if o.transient then if r.failureGen = o.observedGeneration then r.failureAttempts + 1 else 1
      else if o.settles then 0 else r.failureAttempts := by
  unfold drainedBy
  cases transient : o.transient with
  | true =>
    have failed : (o.failed && !o.terminal) = true := transient
    simp [changesRow_transient transient, applyResult, failed, countedAttempts]
  | false =>
    have failed : (o.failed && !o.terminal) = false := transient
    cases changes : changesRow o r with
    | true => simp [applyResult, transient, failed, OutboxRow.settles]
    | false =>
      cases settles : o.settles with
      | true => simp [clean (changesRow_settles settles changes)]
      | false => simp

theorem drainedBy_failureTerminal (clean : r.failureGen = 0 → r.failureTerminal = false) :
    (drainedBy mid o r).failureTerminal =
      if o.transient then 0 < attemptCap mid r && attemptCap mid r ≤ (drainedBy mid o r).failureAttempts
      else if o.failed then true else if o.settles then false else r.failureTerminal := by
  unfold drainedBy
  cases transient : o.transient with
  | true =>
    obtain ⟨failed, open_⟩ := OutboxRow.transient_iff.mp transient
    simp [changesRow_transient transient, applyResult, failed, open_]
  | false =>
    cases failed : o.failed with
    | true =>
      have terminal : o.terminal = true := by simpa [OutboxRow.transient, failed] using transient
      cases changes : changesRow o r with
      | true => simp [applyResult, failed, terminal]
      | false => simpa using (changesRow_failed failed changes).2.2
    | false =>
      cases changes : changesRow o r with
      | true => simp [applyResult, failed, OutboxRow.settles, OutboxRow.transient]
      | false =>
        cases settles : o.settles with
        | true => simp [clean (changesRow_settles settles changes)]
        | false => simp

theorem Tallied.drained (h : Tallied history r) (positive : ∀ o ∈ history, 1 ≤ o.observedGeneration) :
    Tallied (o :: history) (drainedBy mid o r) := by
  have clean (zero : r.failureGen = 0) : r.failureAttempts = 0 :=
    h.failureAttempts.trans (unfailed_zero 0 positive (h.failureGen.symm.trans zero)).1
  constructor
  · rw [drainedBy_failureGen, lastFailed, h.failureGen]
  · rw [drainedBy_failureAttempts clean, attempts, h.failureGen, h.failureAttempts]

theorem Tallied.drained_flag (h : Tallied history r) (positive : ∀ o ∈ history, 1 ≤ o.observedGeneration)
    (capped : attemptCap mid r = cap) (flag : r.failureTerminal = flagged cap history) :
    (drainedBy mid o r).failureTerminal = flagged cap (o :: history) := by
  have clean (zero : r.failureGen = 0) : r.failureTerminal = false :=
    flag.trans (unfailed_zero cap positive (h.failureGen.symm.trans zero)).2
  rw [drainedBy_failureTerminal clean, (h.drained positive).failureAttempts, flagged, capped, flag]

/-! ## Runs -/

structure SameFailures (r r' : Resource) : Prop where
  failureGen : r'.failureGen = r.failureGen
  failureAttempts : r'.failureAttempts = r.failureAttempts
  failureTerminal : r'.failureTerminal = r.failureTerminal

theorem respects_sameFailures (noResult : ∀ rs, ¬ allow (.row (.result rs))) : Respects allow SameFailures where
  refl _ := ⟨rfl, rfl, rfl⟩
  trans ab bc := ⟨bc.failureGen.trans ab.failureGen, bc.failureAttempts.trans ab.failureAttempts,
    bc.failureTerminal.trans ab.failureTerminal⟩
  quiet q := ⟨q.failureGen, q.failureAttempts, q.failureTerminal⟩
  row {k _ a b} ok here step := by
    cases k with
    | write => exact ⟨Written.failureGen step, Written.failureAttempts step, Written.failureTerminal step⟩
    | result results => exact absurd ok (noResult results)
    | _ =>
      have same := step.sameAxes trivial
      exact ⟨same.failureGen, same.failureAttempts, same.failureTerminal⟩

/-- A row that never failed. -/
structure Unfailed (r : Resource) : Prop where
  failureGen : r.failureGen = 0
  failureAttempts : r.failureAttempts = 0
  failureTerminal : r.failureTerminal = false

theorem failures_before (noResult : ∀ rs, ¬ allow (.row (.result rs)))
    (run : Effects allow db db') (after : r' ∈ db'.resources) :
    (∃ r ∈ db.resources, r.id = r'.id ∧ SameFailures r r') ∨ ¬ db.Drawn r'.id ∧ Unfailed r' :=
  run.tracks_or_born (respects_sameFailures noResult)
    (fun born => ⟨born.failureGen, born.failureAttempts, born.failureTerminal⟩)
    (fun same h => ⟨same.failureGen.trans h.failureGen, same.failureAttempts.trans h.failureAttempts,
      same.failureTerminal.trans h.failureTerminal⟩) after

theorem historyOf_undrawn (good : Versioned db) (new : ¬ db.Drawn id) : historyOf db.drained id = [] := by
  refine filter_eq_nil_iff.mpr fun o drained mine => new ?_
  simp only [Bool.and_eq_true, decide_eq_true_eq] at mine
  exact mine.2 ▸ (good.task_behind (good.granted.drained o drained)).1

/-- A batch brings at most one reconcile result of the resource. -/
def OnePerBatch (id : Uuid) (db : Db) : Action → Prop
  | .drainOutboxBatch scan _ _ n range => (historyOf (popped db scan n range) id).length ≤ 1
  | _ => True

instance (id : Uuid) (db : Db) (a : Action) : Decidable (OnePerBatch id db a) := by
  induction a using Action.casesOn <;> dsimp only [OnePerBatch] <;> infer_instance

/-- Whenever results are drained, the kind of the resource has this cap. -/
def CapIs (id : Uuid) (cap : Nat) (db : Db) : Action → Prop
  | .drainOutboxBatch _ _ _ _ _ => ∀ r ∈ db.resources.rows, r.id = id → attemptCap db r = cap
  | _ => True

instance (id : Uuid) (cap : Nat) (db : Db) (a : Action) : Decidable (CapIs id cap db a) := by
  induction a using Action.casesOn <;> dsimp only [CapIs] <;> infer_instance

theorem historyOf_append (new old : List OutboxRow) (id : Uuid) :
    historyOf (new ++ old) id = historyOf new id ++ historyOf old id :=
  filter_append ..

theorem resultFor_history (results : List OutboxRow) (r : Resource) :
    resultFor results r = (historyOf results r.id).find? (changesRow · r) := by
  simp [historyOf, find?_filter, resultFor, Bool.decide_and]

/-- What one step does to the failure columns of a row and to its history. -/
inductive FailureTurn (db : Db) (a : Action) (db' : Db) (r' : Resource) : Prop
  | rest (r : Resource) (here : r ∈ db.resources) (id : r.id = r'.id) (same : SameFailures r r')
      (history : historyOf db'.drained r'.id = historyOf db.drained r'.id)
  | born (unfailed : Unfailed r') (history : historyOf db'.drained r'.id = [])
  | drained (mid : Db) (o : OutboxRow) (m r : Resource) (here : r ∈ db.resources) (id : r.id = r'.id)
      (same : SameFailures r m) (cap : ∀ c, CapIs r'.id c db a → attemptCap mid m = c)
      (after : drainedBy mid o m = r') (history : historyOf db'.drained r'.id = o :: historyOf db.drained r'.id)

theorem attemptCap_congr (config : db'.kindConfig = db.kindConfig) (ref : SameRef r r') :
    attemptCap db' r' = attemptCap db r := by
  rw [attemptCap, attemptCap, Db.kindConfig?, Db.kindConfig?, config, ref.kind, ref.kindVersion]

/-- `m` is `r`, which a drain found, when its reconcile results are applied. -/
structure BeforeResults (db mid : Db) (r m : Resource) : Prop where
  row : SameRow r m
  kept : Unreported r m
  failures : SameFailures r m
  cap : attemptCap mid m = attemptCap db r
  active : m.active = true → r.active = true

theorem before_results {scan rowScan : Scan Uuid} {n : Nat} (named : Named db)
    (patched : substitute (drainTeardowns db rowScan (popped db scan n range)) order
      (popped db scan n range) = some mid) {m : Resource} (here : m ∈ mid.resources) :
    ∃ r ∈ db.resources, BeforeResults db mid r m := by
  have ordinary := (drainTeardowns_ordinary db rowScan (popped db scan n range)).trans
    (patchSpecs_ordinary patched)
  obtain ⟨r, before, ref⟩ := ordinary.rows m here
  have ok := drainable_tears (popped db scan n range) db
  have torn := drainTeardowns_effects ok rowScan popped_waiting popped_nodup
  have run : Effects _ db mid := torn.trans (patchSpecs_effects (ok.toWritable.after torn) patched)
  have track {R : Resource → Resource → Prop} (respects : Respects (Label.Tears (popped db scan n range)) R) :
      R r m := by
    obtain ⟨r₀, before₀, same₀, related⟩ := run.tracks respects here (ref.id ▸ named r before)
    rwa [Table.eq_of_pk resource_primary before₀ before (same₀.trans ref.id)] at related
  obtain ⟨t, only⟩ := patchSpecs_only patched
  refine ⟨r, before, track respects_sameRow, track (respects_unreported fun _ h => h.2 _ rfl),
    track (respects_sameFailures fun _ h => h.2 _ rfl),
    attemptCap_congr (only.kindConfig.trans (drainTeardowns_kindConfig _ _)) ref, fun active => ?_⟩
  obtain ⟨x, there, flowed⟩ := patchSpecs_row patched here
  obtain ⟨r₀, before₀, fades⟩ := drainTeardowns_follows db rowScan (popped db scan n range) x there
  rw [← Table.eq_of_pk resource_primary before₀ before (fades.id.symm.trans (flowed.id.symm.trans ref.id))]
  exact fades.active (flowed.active ▸ active)

theorem applyResults_history {results : List OutboxRow} (after : r' ∈ (applyResults mid results).resources) :
    ∃ m ∈ mid.resources, r'.id = m.id ∧
      r' = ((historyOf results m.id).find? (changesRow · m)).elim m (applyResult mid · m) := by
  obtain ⟨m, there, rfl⟩ := applyResults_row after
  rw [resultFor_history]
  refine ⟨m, there, ?_, rfl⟩
  cases (historyOf results m.id).find? (changesRow · m) <;> rfl

theorem drain_failureTurn {scan rowScan : Scan Uuid} {n : Nat}
    (reachable : Reachable db) (done : drainOutboxBatch db scan rowScan order n range = some db')
    (after : r' ∈ db'.resources) (one : (historyOf (popped db scan n range) r'.id).length ≤ 1) :
    FailureTurn db (.drainOutboxBatch scan rowScan order n range) db' r' := by
  have history := congrArg (historyOf · r'.id) (drainOutboxBatch_drained done)
  rw [historyOf_append] at history
  by_cases none : popped db scan n range = []
  · obtain rfl := drainOutboxBatch_none none done
    exact .rest r' after rfl ⟨rfl, rfl, rfl⟩ rfl
  · obtain ⟨mid, patched, recorded⟩ := drainOutboxBatch_some none done
    obtain ⟨s, -, record⟩ := Option.map_eq_some_iff.mp recorded
    rw [← record] at after
    obtain ⟨m, there, kept, applied⟩ := applyResults_history after
    obtain ⟨r, here, before⟩ := before_results reachable.named patched there
    have id := before.row.id.symm
    have same := before.failures
    rw [← kept] at applied id
    generalize historyOf (popped db scan n range) r'.id = batch at applied history one
    rcases batch with _ | ⟨o, _ | ⟨o', more⟩⟩
    · exact .rest r here id (applied ▸ same) history
    · refine .drained mid o m r here id same (fun c capped => before.cap.trans (capped r here id)) ?_ history
      rw [applied, drainedBy, find?_cons]
      cases changesRow o m <;> rfl
    · exact absurd one (by simp)

/-- **A step** leaves row and history alone, inserts the row, or drains one result for it. -/
theorem step_failureTurn (reachable : Reachable db) (a : Action) (after : r' ∈ (step db a).resources)
    (one : OnePerBatch r'.id db a) : FailureTurn db a (step db a) r' := by
  by_cases undrained : a.Undrained
  · have run := step_undrained db undrained
    have history := congrArg (historyOf · r'.id) (run.drained_eq fun _ h => h)
    rcases failures_before (fun _ h => h) run after with ⟨r, here, id, same⟩ | ⟨new, unfailed⟩
    · exact .rest r here id same history
    · exact .born unfailed (history.trans (historyOf_undrawn reachable.versioned new))
  · cases a with
    | drainOutboxBatch scan rowScan order n range =>
      revert after
      exact getD_cases (P := fun s => r' ∈ s.resources → FailureTurn db _ s r')
        (fun after => .rest r' after rfl ⟨rfl, rfl, rfl⟩ rfl) fun _ done after =>
          drain_failureTurn reachable done after one
    | _ => exact absurd trivial undrained

theorem SameFailures.tallied (same : SameFailures r r') (h : Tallied history r) : Tallied history r' :=
  ⟨same.failureGen.trans h.failureGen, same.failureAttempts.trans h.failureAttempts⟩

theorem Reachable.history_positive (reachable : Reachable db) (id : Uuid) :
    ∀ o ∈ historyOf db.drained id, 1 ≤ o.observedGeneration := fun o listed =>
  reachable.task_positive (reachable.versioned.granted.drained o (mem_filter.mp listed).1)

/-- Generation and count are those of the history, and the flag is under every cap that `C` allows. -/
def InLine (C : Nat → Prop) (db : Db) (id : Uuid) : Prop :=
  ∀ r ∈ db.resources, r.id = id → Tallied (historyOf db.drained id) r ∧
    ∀ c, C c → r.failureTerminal = flagged c (historyOf db.drained id)

/-- One step keeps the columns in line with the history. -/
theorem FailureTurn.inLine {C : Nat → Prop} (turn : FailureTurn db a db' r') (reachable : Reachable db)
    (capped : ∀ c, C c → CapIs r'.id c db a) (h : InLine C db r'.id) :
    Tallied (historyOf db'.drained r'.id) r' ∧
      ∀ c, C c → r'.failureTerminal = flagged c (historyOf db'.drained r'.id) := by
  cases turn with
  | rest r here id same history =>
    rw [history]
    exact ⟨same.tallied (h r here id).1, fun c ok => same.failureTerminal.trans ((h r here id).2 c ok)⟩
  | born unfailed history =>
    rw [history]
    exact ⟨⟨unfailed.failureGen, unfailed.failureAttempts⟩, fun _ _ => unfailed.failureTerminal⟩
  | drained mid o m r here id same cap after history =>
    have tallied := same.tallied (h r here id).1
    have positive := reachable.history_positive r'.id
    have drained : Tallied (o :: _) (drainedBy mid o m) := tallied.drained positive
    rw [after] at drained
    rw [history]
    refine ⟨drained, fun c ok => ?_⟩
    have flag := tallied.drained_flag (o := o) positive (cap c (capped c ok))
      (same.failureTerminal.trans ((h r here id).2 c ok))
    rwa [after] at flag

/-- **Every run.** -/
theorem run_inLine {C : Nat → Prop} {actions : List Action} (one : Along (OnePerBatch id) Db.empty actions)
    (capped : Along (fun db a => ∀ c, C c → CapIs id c db a) Db.empty actions) :
    InLine C (run Db.empty actions) id := by
  refine Along.keeps (I := (InLine C · id)) ?_ .empty (one.and capped)
    fun r here => absurd here (Table.notMem_empty r)
  rintro db a reachable ⟨ok, capped⟩ inLine r' after rfl
  exact (step_failureTurn reachable a after ok).inLine reachable capped inLine

/-- The columns of a row say what its results say: how many transient failures there were in a row,
and, under a cap, when the failures became final. -/
structure CountsFailures (actions : List Action) (history : List OutboxRow) (r : Resource) : Prop where
  attempts : r.failureAttempts = transients history
  terminal : ∀ c, 0 < c → Along (CapIs r.id c) Db.empty actions →
    (∀ t, t <:+ history → t ≠ history → ¬ Ends c t) → (r.failureTerminal = true ↔ Ends c history)

/-- **What the failure columns count.**  In every run that drains at most one result of a resource at
a time, they say what its results say exactly if the streak of failures started afresh. -/
theorem failures_counted (actions : List Action) (here : r ∈ (run Db.empty actions).resources)
    (one : Along (OnePerBatch r.id) Db.empty actions) :
    CountsFailures actions (historyOf (run Db.empty actions).drained r.id) r ↔
      StartsAfresh (historyOf (run Db.empty actions).drained r.id) := by
  have tallied := (run_inLine (C := fun _ => False) one (.of_forall fun _ _ _ _ => False.elim) r here rfl).1
  rw [← attempts_eq_transients, ← tallied.failureAttempts]
  refine ⟨fun counts => counts.attempts, fun count => ⟨count, fun c capped along earlier => ?_⟩⟩
  rw [(run_inLine (C := (· = c)) one (along.mono fun h _ same => same ▸ h) r here rfl).2 c rfl]
  exact flagged_iff_ends capped earlier

end Columns

def capTwo : Action := .seedKindConfig ⟨"app", 1, 0, 0, 0, false, 0, none, 2, false, 0⟩

def resizeRoot : Action := .applySpec ⟨"app", 1, "a", .obj [("size", .num 2)], .obj [], ""⟩

/-- Two attempts at one generation time out. -/
def timesOutTwice : Script :=
  [fun _ => [capTwo, applyRoot "app" "a", claimAll "b" "app" .reconcile], returns "app" timeout,
    fun _ => [.tick 100, .requeueFailedAndPending 10 100 [0], claimAll "b" "app" .reconcile],
    returns "app" timeout]

/-- Both are counted, and the second is final. -/
theorem failures_counted_twice : letI := counting
    let actions := timesOutTwice.play Db.empty
    let db := run Db.empty actions
    Along (CapIs 0 2) Db.empty actions ∧ ∃ r ∈ db.resources, r.id = 0 ∧ r.failureAttempts = 2 ∧
      r.failureTerminal = true ∧ StartsAfresh (historyOf db.drained r.id) ∧
        CountsFailures actions (historyOf db.drained r.id) r := by
  intro actions db
  have facts : letI := counting
      Along (CapIs 0 2) Db.empty actions ∧ Along (OnePerBatch 0) Db.empty actions ∧
        StartsAfresh (historyOf db.drained 0) ∧
        ∃ r ∈ db.resources.rows, r.id = 0 ∧ r.failureAttempts = 2 ∧ r.failureTerminal = true := by
    decide +kernel
  obtain ⟨capped, one, afresh, r, here, id, attempts, terminal⟩ := facts
  rw [← id] at one afresh
  exact ⟨capped, r, here, id, attempts, terminal, afresh,
    (@failures_counted counting r actions here one).mpr afresh⟩

/-- One attempt times out, and one at the next generation is rejected. -/
def timesOutThenRejected : Script :=
  [fun _ => [capTwo, applyRoot "app" "a", claimAll "b" "app" .reconcile], returns "app" timeout,
    fun _ => [resizeRoot, claimAll "b" "app" .reconcile], returns "app" rejected]

/-- Then one transient failure is counted for the new generation, which had none. -/
theorem old_attempt_counted : letI := counting
    let actions := timesOutThenRejected.play Db.empty
    let db := run Db.empty actions
    Along (OnePerBatch 0) Db.empty actions ∧ ∃ r ∈ db.resources.rows, r.id = 0 ∧ r.failureGen = 2 ∧
      (historyOf db.drained 0).length = 2 ∧ r.failureAttempts = 1 ∧ transients (historyOf db.drained 0) = 0 := by
  decide +kernel

end Converge.Kernel
