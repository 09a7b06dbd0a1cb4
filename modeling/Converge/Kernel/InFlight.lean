/-
# Kernel.InFlight -- the leases a broker keeps fresh

The dispatcher of a broker has one record for each task it runs: `inFlightSet`.  A claim adds
it, the end of the task's goroutine removes it, a worker's attestation and the start of the
apply phase renew it.  Each heartbeat refreshes the leases whose record is fresh, or local, and
lets the others go stale.

The records are keyed by the queue row: two claims of one row share one.
-/
import Converge.Kernel.Schema

namespace Converge.Kernel

open List

set_option autoImplicit false

structure InFlightRecord where
  shard : Nat
  epoch : Nat
  attested : Nat
  local_ : Bool
  deriving DecidableEq

/-- `inFlightSet`; its clock is an argument, in nanoseconds. -/
structure InFlightSet where
  ids : List (Uuid × InFlightRecord)
  requireWithin : Nat
  deriving DecidableEq

/-- `DefaultRequireWithin`, 15 seconds. -/
def defaultRequireWithin : Nat := 15000000000

namespace InFlightSet

variable (s : InFlightSet)

def get (id : Uuid) : Option InFlightRecord := (s.ids.find? (·.1 = id)).map Prod.snd

def remove (id : Uuid) : InFlightSet := { s with ids := s.ids.filter (·.1 ≠ id) }

def add (now : Nat) (id : Uuid) (shard epoch : Nat) : InFlightSet :=
  { s with ids := (id, ⟨shard, epoch, now, false⟩) :: (s.remove id).ids }

def modify (p : Uuid → Bool) (g : InFlightRecord → InFlightRecord) : InFlightSet :=
  { s with ids := s.ids.map fun e => if p e.1 then (e.1, g e.2) else e }

def markLocal (now : Nat) (id : Uuid) : InFlightSet :=
  s.modify (· = id) ({ · with local_ := true, attested := now })

def attest (now : Nat) (ids : List Uuid) : InFlightSet :=
  s.modify (· ∈ ids) ({ · with attested := now })

/-- The heartbeat covers the record: the gate is off, or its own goroutine or a worker shows
that it lives. -/
def covers (now : Nat) (r : InFlightRecord) : Bool :=
  !(0 < s.requireWithin && !r.local_ && r.attested + s.requireWithin < now)

/-- The tokens to heartbeat and the span of their shards; none where there is nothing to
heartbeat. -/
def snapshot (now : Nat) : Option (List (Uuid × Nat) × ShardRange) :=
  match s.ids.filter fun e => s.covers now e.2 with
  | [] => none
  | first :: rest => some ((first :: rest).map fun e => (e.1, e.2.epoch),
      ⟨rest.foldl (fun lo e => min lo e.2.shard) first.2.shard,
        rest.foldl (fun hi e => max hi e.2.shard) first.2.shard⟩)

/-! ## Lookups -/

variable {s} {id : Uuid} {g : InFlightRecord → InFlightRecord} {p : Uuid → Bool} {now : Nat}

theorem get_remove {id' : Uuid} : (s.remove id).get id' = if id' = id then none else s.get id' := by
  unfold get remove
  rw [find?_filter]
  split
  next same =>
    rw [find?_eq_none.mpr]
    · rfl
    · intro e _
      simp [same]
  next other =>
    congr 2
    funext e
    by_cases hit : e.1 = id'
    · simp [hit, other]
    · simp [hit]

theorem get_add {shard epoch : Nat} {id' : Uuid} : (s.add now id shard epoch).get id' =
      if id' = id then some ⟨shard, epoch, now, false⟩ else s.get id' := by
  have rest : (s.remove id).get id' = if id' = id then none else s.get id' := get_remove
  unfold get at rest ⊢
  rw [add]
  by_cases same : id' = id
  · simp [same]
  · rw [if_neg same] at rest ⊢
    rw [← rest]
    simp [Ne.symm same]

theorem get_modify : (s.modify p g).get id = (s.get id).map fun r => if p id then g r else r := by
  unfold get modify
  rw [find?_map]
  have keys : (fun e : Uuid × InFlightRecord => decide (e.1 = id)) ∘
      (fun e => if p e.1 then (e.1, g e.2) else e) = fun e => decide (e.1 = id) := by
    funext e
    simp only [Function.comp_apply]
    split <;> rfl
  rw [keys]
  cases found : s.ids.find? fun e => decide (e.1 = id) with
  | none => rfl
  | some e =>
    have hit : e.1 = id := by simpa using find?_some found
    simp only [Option.map_some, hit]
    split <;> rfl

theorem snapshot_mem {r : InFlightRecord} (held : s.get id = some r) (covered : s.covers now r = true) :
    ∃ tokens range, s.snapshot now = some (tokens, range) ∧ (id, r.epoch) ∈ tokens := by
  obtain ⟨e, found, rfl⟩ := Option.map_eq_some_iff.mp held
  have hit : e.1 = id := by simpa using find?_some found
  have listed : e ∈ s.ids.filter fun e => s.covers now e.2 :=
    mem_filter.mpr ⟨mem_of_find?_eq_some found, covered⟩
  unfold snapshot
  split
  next none =>
    rw [none] at listed
    cases listed
  next first rest some =>
    rw [some] at listed
    exact ⟨_, _, rfl, mem_map.mpr ⟨e, listed, by rw [hit]⟩⟩

end InFlightSet

end Converge.Kernel
