/-
# Kernel.DepOrder -- the stored edges have no cycle

A compose searches the edges it is about to write for a cycle and fails if it finds one.
The search colours a node black when all it depends on is black, so the black nodes, in
the order of their colouring, certify that no path leads back (`detectDepCycle_acyclic`);
its fuel never runs out, since the stack holds no node twice.  The stack is a path, so what
the search returns is a cycle (`visitDep_error`), and it returns one if there is one.

Edges join siblings, so a cycle lies among the children of one parent.  Among those, the
edges of stored dependents are all from its last compose.  An edge whose dependent is gone
was written by the compose that removed the row; a later compose cannot name that row again,
so none of its edges leads to such an edge.  In no reachable state do the edges have a cycle
(`Reachable.deps_acyclic`).
-/
import Converge.Kernel.Graph
import Converge.Kernel.Wakes

namespace Converge.Kernel

open Converge.Theory List

set_option autoImplicit false

/-! ## The search -/

section Search

variable {adj : Uuid → List Uuid} {nodes stack keys : List Uuid}

/-- What a search that found no cycle did: the stack is as before, the black nodes are
still in order, and there are more of them. -/
structure Searched (adj : Uuid → List Uuid) (s s' : DepSearch) : Prop where
  stack : s'.stack = s.stack
  order : Blocking.PostOrder adj s'.black
  grows : s.black ⊆ s'.black

theorem searchAll {f : DepSearch → Uuid → Except (List Uuid) DepSearch} {ns : List Uuid} {s s' : DepSearch}
    (each : ∀ n ∈ ns, ∀ s s', s.stack = stack → Blocking.PostOrder adj s.black → f s n = .ok s' →
      Searched adj s s' ∧ n ∈ s'.black)
    (at_ : s.stack = stack) (order : Blocking.PostOrder adj s.black)
    (done : ns.foldlM f s = .ok s') : Searched adj s s' ∧ ∀ n ∈ ns, n ∈ s'.black := by
  induction ns generalizing s with
  | nil =>
    cases done
    exact ⟨⟨rfl, order, List.Subset.refl _⟩, fun n h => nomatch h⟩
  | cons n rest ih =>
    rw [foldlM_cons] at done
    cases first : f s n with
    | error cycle =>
      rw [first] at done
      cases done
    | ok mid =>
      rw [first] at done
      obtain ⟨searched, black⟩ := each n (.head _) s mid at_ order first
      obtain ⟨later, blacks⟩ := ih (fun m h => each m (.tail _ h))
        (searched.stack.trans at_) searched.order done
      refine ⟨⟨later.stack.trans searched.stack, later.order, ?_⟩, fun m listed => ?_⟩
      · exact List.Subset.trans searched.grows later.grows
      · rcases mem_cons.mp listed with rfl | old
        · exact later.grows black
        · exact blacks m old

/-- What a visit does with one successor. -/
def visitNext (adj : Uuid → List Uuid) (fuel : Nat) (s : DepSearch) (m : Uuid) : Except (List Uuid) DepSearch :=
  if m ∈ s.stack then .error (m :: (s.stack.takeWhile (· ≠ m)).reverse ++ [m])
  else if m ∈ s.black then .ok s
  else visitDep adj fuel m s

theorem visitDep_succ (fuel : Nat) (n : Uuid) (s : DepSearch) : visitDep adj (fuel + 1) n s =
    ((adj n).foldlM (visitNext adj fuel) { s with stack := n :: s.stack }).map
      fun t => { stack := t.stack.tail, black := n :: t.black } := by
  show Except.bind (List.foldlM (visitNext adj fuel) _ _) _ = _
  cases List.foldlM (visitNext adj fuel) { s with stack := n :: s.stack } (adj n) <;> rfl

/-- A visit that finds no cycle blackens its node.  The stack holds no node twice, so the
fuel is enough for the nodes that are left. -/
theorem visitDep_ok (closed : ∀ n ∈ nodes, ∀ m ∈ adj n, m ∈ nodes) {fuel : Nat} {n : Uuid} {s s' : DepSearch}
    (here : n ∈ nodes) (new : n ∉ s.stack) (distinct : s.stack.Nodup) (inside : s.stack ⊆ nodes)
    (enough : nodes.length ≤ fuel + s.stack.length) (order : Blocking.PostOrder adj s.black)
    (done : visitDep adj fuel n s = .ok s') : Searched adj s s' ∧ n ∈ s'.black := by
  induction fuel generalizing n s s' with
  | zero =>
    have sub : (n :: s.stack) ⊆ nodes := cons_subset.mpr ⟨here, inside⟩
    have room := (subperm_of_subset (nodup_cons.mpr ⟨new, distinct⟩) sub).length_le
    rw [length_cons] at room
    omega
  | succ fuel ih =>
    rw [visitDep_succ] at done
    cases loop : (adj n).foldlM (visitNext adj fuel) { s with stack := n :: s.stack } with
    | error cycle => simp [loop, Except.map] at done
    | ok mid =>
      have each : ∀ m ∈ adj n, ∀ t t' : DepSearch, t.stack = n :: s.stack →
          Blocking.PostOrder adj t.black → visitNext adj fuel t m = .ok t' →
          Searched adj t t' ∧ m ∈ t'.black := by
        intro m listed t t' at_ order step
        unfold visitNext at step
        split at step
        · cases step
        · rename_i new'
          split at step
          · rename_i black
            cases step
            exact ⟨⟨rfl, order, List.Subset.refl _⟩, black⟩
          · refine ih (closed n here m listed) new' ?_ ?_ ?_ order step
            · rw [at_]
              exact nodup_cons.mpr ⟨new, distinct⟩
            · rw [at_]
              exact cons_subset.mpr ⟨here, inside⟩
            · rw [at_, length_cons]
              omega
      obtain ⟨searched, blacks⟩ :=
        searchAll (s := { s with stack := n :: s.stack }) each rfl order loop
      obtain rfl : { stack := mid.stack.tail, black := n :: mid.black } = s' := by
        simpa [loop, Except.map] using done
      exact ⟨⟨by simp [searched.stack], ⟨blacks, searched.order⟩,
        fun m h => .tail _ (searched.grows h)⟩, .head _⟩

/-- The search, from the keys of the map in the order they come. -/
def searchDeps (adj : Uuid → List Uuid) (fuel : Nat) (keys : List Uuid) : Except (List Uuid) DepSearch :=
  keys.foldlM (fun s n => if n ∈ s.black then .ok s else visitDep adj fuel n s) ⟨[], []⟩

theorem searchDeps_ok (closed : ∀ n ∈ nodes, ∀ m ∈ adj n, m ∈ nodes) {fuel : Nat}
    (inside : keys ⊆ nodes) (enough : nodes.length ≤ fuel) (all : ∀ a b, b ∈ adj a → a ∈ keys) {last : DepSearch}
    (found : searchDeps adj fuel keys = .ok last) : Blocking.Acyclic fun a b => b ∈ adj a := by
  have each : ∀ n ∈ keys, ∀ s s' : DepSearch, s.stack = [] → Blocking.PostOrder adj s.black →
      (if n ∈ s.black then .ok s else visitDep adj fuel n s) = Except.ok s' →
        Searched adj s s' ∧ n ∈ s'.black := by
    intro n listed s s' at_ order step
    split at step
    · rename_i black
      cases step
      exact ⟨⟨rfl, order, List.Subset.refl _⟩, black⟩
    · exact visitDep_ok closed (inside listed) (by simp [at_]) (by simp [at_]) (by simp [at_])
        (by omega) order step
  obtain ⟨searched, blacks⟩ := searchAll (s := ⟨[], []⟩) each rfl trivial found
  intro a path
  obtain ⟨b, first, -⟩ := Relation.TransGen.head'_iff.mp path
  exact searched.order.acyclic (blacks a (all a b first)) path

/-- **A search that finds no cycle was of edges that have none.** -/
theorem detectDepCycle_acyclic {edges : List (Uuid × Uuid)} (none : detectDepCycle edges = none) :
    Blocking.Acyclic fun a b => (a, b) ∈ edges := by
  let adj := fun n => (edges.filter fun e => e.1 = n).map Prod.snd
  have mem_adj {a b : Uuid} : b ∈ adj a ↔ (a, b) ∈ edges := by simp [adj]
  simp only [detectDepCycle] at none
  split at none
  · cases none
  · rename_i last found
    have inside : (edges.map Prod.fst).dedup ⊆ edges.map Prod.fst ++ edges.map Prod.snd :=
      fun n listed => mem_append_left _ (mem_dedup.mp listed)
    have acyclic := searchDeps_ok ?_ inside ?_ ?_ found
    · exact acyclic.of_le fun _ _ => mem_adj.mpr
    · intro n _ m step
      exact mem_append_right _ (mem_map.mpr ⟨(n, m), mem_adj.mp step, rfl⟩)
    · simp only [length_append, length_map]
      omega
    · exact fun a b step => mem_dedup.mpr (mem_map.mpr ⟨(a, b), mem_adj.mp step, rfl⟩)

/-! ## What it returns -/

/-- A closed walk: its first node is its last, and every node has an edge to the next. -/
structure Cycle (adj : Uuid → List Uuid) (cycle : List Uuid) : Prop where
  long : 2 ≤ cycle.length
  edges : cycle.IsChain fun a b => b ∈ adj a
  closed : cycle.head? = cycle.getLast?

theorem Cycle.path {cycle : List Uuid} (h : Cycle adj cycle) :
    ∃ a, Relation.TransGen (fun a b => b ∈ adj a) a a := by
  obtain ⟨long, edges, closed⟩ := h
  match cycle, long with
  | a :: b :: rest, _ =>
    refine ⟨a, Relation.TransGen.head' edges.rel ?_⟩
    have last : (b :: rest).getLast (by simp) = a := by
      simpa [getLast?_cons_cons, getLast?_eq_some_getLast, eq_comm] using closed
    exact last ▸ relationReflTransGen_of_exists_isChain_cons rest edges.tail rfl

variable {f : DepSearch → Uuid → Except (List Uuid) DepSearch} {cycle : List Uuid} {s : DepSearch} {fuel : Nat}

theorem loop_ends (ns : List Uuid) (s : DepSearch) (each : ∀ n s s', f s n = .ok s' → s'.stack = s.stack) :
    (∃ s', ns.foldlM f s = .ok s' ∧ s'.stack = s.stack) ∨
      ∃ cycle, ns.foldlM f s = .error cycle ∧ ∃ n ∈ ns, ∃ t, t.stack = s.stack ∧ f t n = .error cycle := by
  induction ns generalizing s with
  | nil => exact .inl ⟨s, rfl, rfl⟩
  | cons n rest ih =>
    rw [foldlM_cons]
    cases first : f s n with
    | error cycle => exact .inr ⟨cycle, rfl, n, .head _, s, rfl, first⟩
    | ok mid =>
      have same := each n s mid first
      rcases ih mid with ⟨last, done, stack⟩ | ⟨cycle, done, m, later, t, stack, found⟩
      · exact .inl ⟨last, done, stack.trans same⟩
      · exact .inr ⟨cycle, done, m, .tail _ later, t, stack.trans same, found⟩

theorem visitNext_stack (visits : ∀ m t t', visitDep adj fuel m t = .ok t' → t'.stack = t.stack) (m : Uuid)
    (t t' : DepSearch) (step : visitNext adj fuel t m = .ok t') : t'.stack = t.stack := by
  unfold visitNext at step
  split at step
  · cases step
  · split at step
    · cases step
      rfl
    · exact visits m t t' step

theorem visitDep_stack (n : Uuid) (s s' : DepSearch) (done : visitDep adj fuel n s = .ok s') :
    s'.stack = s.stack := by
  induction fuel generalizing n s s' with
  | zero =>
    cases done
    rfl
  | succ fuel ih =>
    rw [visitDep_succ] at done
    rcases loop_ends (adj n) { s with stack := n :: s.stack } (visitNext_stack ih) with
      ⟨mid, loop, stack⟩ | ⟨cycle, loop, -⟩
    · obtain rfl : { stack := mid.stack.tail, black := n :: mid.black } = s' := by
        simpa [loop, Except.map] using done
      simp [stack]
    · simp [loop, Except.map] at done

theorem cycle_of_stack {m : Uuid} (chain : (m :: stack).IsChain fun a b => a ∈ adj b)
    (onStack : m ∈ stack) : Cycle adj (m :: (stack.takeWhile (· ≠ m)).reverse ++ [m]) := by
  obtain ⟨above, below, rfl, first⟩ := eq_append_cons_of_mem onStack
  have cut : (above ++ m :: below).takeWhile (· ≠ m) = above := by
    have apart : ∀ a ∈ above, decide (a ≠ m) = true := by
      intro a mem
      exact decide_eq_true fun same => first (same ▸ mem)
    rw [takeWhile_append_of_pos apart]
    simp
  have shape : m :: above.reverse ++ [m] = (m :: (above ++ [m])).reverse := by simp
  rw [cut]
  refine ⟨by simp, ?_, getLast?_concat.symm⟩
  rw [shape, isChain_reverse]
  exact List.IsChain.left_of_append (by simpa using chain : (m :: (above ++ [m]) ++ below).IsChain _)

/-- The stack is a path, so a node that is met on it closes a cycle. -/
theorem visitDep_error {n : Uuid} (chain : (n :: s.stack).IsChain fun a b => a ∈ adj b)
    (done : visitDep adj fuel n s = .error cycle) : Cycle adj cycle := by
  induction fuel generalizing n s with
  | zero => cases done
  | succ fuel ih =>
    rw [visitDep_succ] at done
    rcases loop_ends (adj n) { s with stack := n :: s.stack }
        (visitNext_stack fun m t t' => @visitDep_stack adj fuel m t t') with
      ⟨mid, loop, -⟩ | ⟨found, loop, m, listed, t, stack, closes⟩
    · simp [loop, Except.map] at done
    · obtain rfl : found = cycle := by simpa [loop, Except.map] using done
      have longer : (m :: t.stack).IsChain fun a b => a ∈ adj b := by
        rw [stack]
        exact isChain_cons_cons.mpr ⟨listed, chain⟩
      unfold visitNext at closes
      split at closes
      · rename_i onStack
        cases closes
        exact cycle_of_stack longer onStack
      · split at closes
        · cases closes
        · exact ih longer closes

theorem searchDeps_error (done : searchDeps adj fuel keys = .error cycle) : Cycle adj cycle := by
  have restores : ∀ n s s', (if n ∈ s.black then Except.ok s else visitDep adj fuel n s) = .ok s' →
      s'.stack = s.stack := by
    intro n s s' step
    split at step
    · cases step
      rfl
    · exact visitDep_stack n s s' step
  rcases loop_ends keys ⟨[], []⟩ restores with ⟨last, loop, -⟩ | ⟨found, loop, n, -, t, stack, closes⟩
  · simp [searchDeps, loop] at done
  · obtain rfl : found = cycle := by simpa [searchDeps, loop] using done
    split at closes
    · cases closes
    · exact visitDep_error (stack ▸ .singleton n) closes

/-- `detectDepCycle` on a map, whose keys come in any order. -/
def detectDepCycleOf (adj : Uuid → List Uuid) (keys : List Uuid) : Option (List Uuid) :=
  match searchDeps adj (keys ++ keys.flatMap adj).length keys with
  | .error cycle => some cycle
  | .ok _ => none

/-- **The search decides whether there is a cycle, and returns one**: for every map and every order of
its keys. -/
theorem detects_cycles (adj : Uuid → List Uuid) (keys : List Uuid) (map : ∀ n, n ∉ keys → adj n = []) :
    (detectDepCycleOf adj keys = none ↔ Blocking.Acyclic fun a b => b ∈ adj a) ∧
      ∀ cycle, detectDepCycleOf adj keys = some cycle → Cycle adj cycle := by
  have all : ∀ a b, b ∈ adj a → a ∈ keys := by
    intro a b step
    by_contra out
    simp [map a out] at step
  unfold detectDepCycleOf
  cases result : searchDeps adj (keys ++ keys.flatMap adj).length keys with
  | error cycle =>
    have found := searchDeps_error result
    obtain ⟨a, path⟩ := found.path
    exact ⟨⟨nofun, fun acyclic => absurd path (acyclic a)⟩, fun _ same => Option.some.inj same ▸ found⟩
  | ok last =>
    refine ⟨⟨fun _ => ?_, fun _ => rfl⟩, nofun⟩
    refine searchDeps_ok (fun n _ m step => ?_) (subset_append_left keys (keys.flatMap adj))
      (Nat.le_refl _) all result
    exact mem_append_right _ (mem_flatMap.mpr ⟨n, all n m step, step⟩)

/-- A cycle of two behind a node that leads to it. -/
theorem detects_cycles_of_two :
    let adj : Uuid → List Uuid := fun n => if n = 0 then [1] else if n = 1 then [2] else if n = 2 then [1] else []
    detectDepCycleOf adj [2, 0, 1] = some [2, 1, 2] ∧ Cycle adj [2, 1, 2] := by
  intro adj
  have map : ∀ n, n ∉ ([2, 0, 1] : List Uuid) → adj n = [] := by
    intro n out
    simp only [mem_cons, not_mem_nil, or_false, not_or] at out
    simp [adj, out]
  exact ⟨by decide, (detects_cycles adj [2, 0, 1] map).2 _ (by decide)⟩

end Search

/-! ## Stored edges -/

variable [Postgres] {db db' : Db} {own : Uuid → Option Uuid} {produced : List ResourceDep}
    {allow : Label → Prop}

/-- An edge from `a` to `b` is stored; their rows may be gone. -/
def HasEdge (db : Db) (a b : Uuid) : Prop :=
  ∃ d ∈ db.deps, d.dependentId = a ∧ d.dependencyId = b

/-- `a` depends on `b`, and both are stored. -/
def DependsOn (db : Db) (a b : Uuid) : Prop :=
  Stored db a ∧ Stored db b ∧ ∃ d ∈ db.deps, d.dependentId = a ∧ d.dependencyId = b

theorem Lineage.same_owner (lineage : Lineage db own) {a b : Uuid} (edge : HasEdge db a b) : own a = own b := by
  obtain ⟨d, listed, rfl, rfl⟩ := edge
  obtain ⟨p, dependent, dependency⟩ := lineage.edges d listed
  rw [dependent, dependency]

/-- An effect other than a rewiring adds no edge, and leaves no edge of a row it removes. -/
theorem Effect.edge {l : Label} (kept : l ≠ .rewire) (effect : Effect l db db') {a b : Uuid}
    (edge : HasEdge db' a b) :
    HasEdge db a b ∧ (Stored db a → Stored db' a) ∧ (Stored db b → Stored db' b) := by
  obtain ⟨d, listed, rfl, rfl⟩ := edge
  have stays (undeleted : l ≠ .delete) (old : HasEdge db d.dependentId d.dependencyId) :
      HasEdge db d.dependentId d.dependencyId ∧ (Stored db d.dependentId → Stored db' d.dependentId) ∧
        (Stored db d.dependencyId → Stored db' d.dependencyId) :=
    ⟨old, effect.stored undeleted, effect.stored undeleted⟩
  cases effect with
  | aux core => exact stays nofun ⟨d, core.deps ▸ listed, rfl, rfl⟩
  | delete ids =>
    obtain ⟨here, dependent, dependency⟩ := mem_deps_deleteResources.mp listed
    exact ⟨⟨d, here, rfl, rfl⟩, fun stored => stored_deleteResources.mpr ⟨stored, dependent⟩,
      fun stored => stored_deleteResources.mpr ⟨stored, dependency⟩⟩
  | relabel t ends =>
    obtain ⟨e, here, same⟩ := ends d listed
    exact stays nofun ⟨e, here, same.dependentId.symm, same.dependencyId.symm⟩
  | rewire t => exact absurd rfl kept
  | _ => exact stays nofun ⟨d, listed, rfl, rfl⟩

theorem Effects.edge (run : Effects allow db db') (kept : ¬ allow .rewire)
    {a b : Uuid} (edge : HasEdge db' a b) :
    HasEdge db a b ∧ (Stored db a → Stored db' a) ∧ (Stored db b → Stored db' b) := by
  refine Steps.keeps (I := fun s => ∀ a b, HasEdge s a b →
    HasEdge db a b ∧ (Stored db a → Stored s a) ∧ (Stored db b → Stored s b)) ?_ run
    (fun a b edge => ⟨edge, id, id⟩) a b edge
  intro l s s' ok effect before a b edge
  have noRewire : l ≠ .rewire := fun same => kept (same ▸ ok)
  obtain ⟨old, dependent, dependency⟩ := effect.edge noRewire edge
  obtain ⟨first, dependent', dependency'⟩ := before a b old
  exact ⟨first, fun stored => dependent (dependent' stored), fun stored => dependency (dependency' stored)⟩

/-- No cycle, with what is needed to keep it so. -/
structure Untangled (db : Db) : Prop where
  named : Named db
  lineage : ∃ own, Lineage db own
  acyclic : Blocking.Acyclic (HasEdge db)

theorem Effects.untangled (run : Effects allow db db') (kept : ¬ allow .rewire)
    (untangled : Untangled db) : Untangled db' := by
  obtain ⟨own, lineage⟩ := untangled.lineage
  obtain ⟨own', after, -⟩ := run.lineage kept untangled.named lineage
  refine ⟨Steps.keeps (fun _ effect => effect.named) run untangled.named, ⟨own', after⟩, ?_⟩
  exact untangled.acyclic.of_le fun _ _ edge => (run.edge kept edge).1

/-- After a compose: an edge from a child of its parent is one it checked, or the row of the
child is gone and the edge was there before; any other was there before. -/
theorem applyEdges_sorts (lineage : Lineage db own) {parent : Uuid}
    (emitted : ∀ p ∈ produced, own p.dependentId = some parent)
    (done : applyEdges db parent produced = some db') {a b : Uuid} (edge : HasEdge db' a b) :
    if own a = some parent then (a, b) ∈ produced.map (·.ends) ∨ HasEdge db a b ∧ ¬ Stored db a
    else HasEdge db a b := by
  obtain ⟨d, listed, rfl, rfl⟩ := edge
  rcases applyEdges_mem done listed with ⟨p, mem, same, -⟩ | ⟨here, other⟩
  · have child := emitted p mem
    rw [(ends_eq same).1] at child
    rw [if_pos child]
    exact .inl (mem_map.mpr ⟨p, mem, same⟩)
  · have old : HasEdge db d.dependentId d.dependencyId := ⟨d, here, rfl, rfl⟩
    split
    · rename_i child
      refine .inr ⟨old, fun ⟨r, stored, sameR⟩ => ?_⟩
      have owned : r.ownerId = some parent := by
        rw [lineage.rows r stored, sameR]
        exact child
      rw [depsByOwner_of_mem stored sameR owned] at other
      cases other
    · exact old

theorem Lineage.walk (lineage : Lineage db own) {R : Uuid → Uuid → Prop} {id b : Uuid}
    (each : ∀ a b, own a = own id → HasEdge db a b → R a b)
    (path : Relation.TransGen (HasEdge db) id b) : own b = own id ∧ Relation.TransGen R id b := by
  induction path with
  | single edge => exact ⟨(lineage.same_owner edge).symm, .single (each _ _ rfl edge)⟩
  | tail _ edge ih =>
    exact ⟨(lineage.same_owner edge).symm.trans ih.1, ih.2.tail (each _ _ ih.1 edge)⟩

/-- The edges of a compose close no cycle: a cycle is among the children of one owner, and no
emitted edge leads to an edge whose dependent is gone. -/
theorem applyEdges_acyclic (lineage : Lineage db own) {parent : Uuid}
    (emitted : ∀ p ∈ produced, own p.dependentId = some parent)
    (fresh : ∀ p ∈ produced, ∀ b, HasEdge db p.dependencyId b → Stored db p.dependencyId)
    (done : applyEdges db parent produced = some db') (after : Lineage db' own)
    (acyclic : Blocking.Acyclic (HasEdge db)) : Blocking.Acyclic (HasEdge db') := by
  have checked : Blocking.Acyclic fun a b => (a, b) ∈ (produced.map (·.ends)).dedup := by
    apply detectDepCycle_acyclic
    unfold applyEdges at done
    split at done
    · cases done
    · rename_i none
      exact Option.not_isSome_iff_eq_none.mp none
  have children : Blocking.Acyclic fun a b =>
      (a, b) ∈ (produced.map (·.ends)).dedup ∨ HasEdge db a b ∧ ¬ Stored db a := by
    refine checked.union (acyclic.of_le fun _ _ old => old.1) ?_
    rintro a b c mem ⟨old, gone⟩
    obtain ⟨p, listed, ends⟩ := mem_map.mp (mem_dedup.mp mem)
    obtain rfl : p.dependencyId = b := congrArg Prod.snd ends
    exact gone (fresh p listed c old)
  intro id path
  by_cases child : own id = some parent
  · refine children id (after.walk (fun a b same edge => ?_) path).2
    have sorted := applyEdges_sorts lineage emitted done edge
    rw [if_pos (same.trans child)] at sorted
    exact sorted.imp_left mem_dedup.mpr
  · refine acyclic id (after.walk (fun a b same edge => ?_) path).2
    have sorted := applyEdges_sorts lineage emitted done edge
    rw [if_neg (same ▸ child)] at sorted
    exact sorted

theorem Untangled.wire (untangled : Untangled db) {env : ComposeEnv} {t : WorkTask} {out : ComposeOutput}
    {pol : ComposePolicy} {parent : Resource} {upserted wired : Db}
    (stages : ComposeStages db env t out pol parent upserted produced wired) : Untangled wired := by
  obtain ⟨own, lineage⟩ := untangled.lineage
  have pruned := Effects.untangled stages.prune_effects (fun h => h)
    (Effects.untangled stages.upsert_effects (fun h => h rfl) untangled)
  obtain ⟨own', ⟨before, after⟩, -, emitted⟩ := stages.lineage untangled.named lineage
  refine ⟨?_, ⟨own', after⟩, applyEdges_acyclic before emitted ?_ stages.wire after pruned.acyclic⟩
  · exact Steps.keeps (fun _ effect => effect.named) (stages.effects (Composable.plain db)) untangled.named
  · intro p listed b edge
    obtain ⟨-, r, here, same, -⟩ := stages.ends listed
    exact (stages.prune_effects.edge (fun h => h) edge).2.1 ⟨r, here, same⟩

theorem step_untangled (untangled : Untangled db) (a : Action) : Untangled (step db a) := by
  by_cases rooted : a.Rooted
  · exact (step_rooted db rooted).untangled (fun h => h) untangled
  · cases a with
    | applyComposeResult env t out pol =>
      refine submitCompose_cases untangled fun last claimed done => ?_
      obtain ⟨parent, upserted, produced, wired, stages, calm⟩ := applyComposeResult_parts claimed done
      exact calm.untangled (fun h => h) (untangled.wire stages)
    | _ => exact absurd trivial rooted

theorem Reachable.untangled (reachable : Reachable db) : Untangled db := by
  refine reachable.induction (I := Untangled) ⟨?_, ⟨_, .empty⟩, fun id path => ?_⟩ fun db a =>
    (step_untangled · a)
  · exact fun r here => absurd here (Table.notMem_empty r)
  · obtain ⟨b, ⟨d, listed, -⟩, -⟩ := Relation.TransGen.head'_iff.mp path
    exact Table.notMem_empty d listed

/-- **In no reachable state do the stored edges have a cycle.** -/
theorem Reachable.deps_acyclic (reachable : Reachable db) : Blocking.Acyclic (HasEdge db) :=
  reachable.untangled.acyclic

end Converge.Kernel
