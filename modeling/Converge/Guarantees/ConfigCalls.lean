/-
# Guarantees.ConfigCalls -- what a provider is told of its config

`load` moves each half of a config by itself and leaves an empty half alone.  So a config that lost its
bundle is merged with the bundle of the one before, and `OnConfig` gets a pair that the broker never
served (`halves_mixed`).  Where no answer splits a pair, every call is of a config that was served as
one (`configs_together`).

The calls are made after the lock is released.  So a refresh can write the cache, be late, and tell the
provider its config after that of a push that came in between (`last_call_stale`).  Where no call
comes after a newer one of its pair, the last call is of the config the cache holds, once all have
returned (`last_call_current`).
-/
import Converge.Kernel.ConfigCache
import Converge.Theory.Transition

namespace Converge.Kernel

open Converge.Theory List

set_option autoImplicit false

namespace ConfigCache

variable {c c' : ConfigCache} {changed : List KindVersion} {entries : List ServedConfig} {a : ConfigAction}
  {g : ConfigGoroutine}

def pending (c : ConfigCache) : List ChangeUpdate := c.firing .stream ++ c.firing .refresh

theorem mem_pending {u : ChangeUpdate} : u ∈ c.pending ↔ ∃ g, u ∈ c.firing g := by
  rw [pending, mem_append]
  constructor
  · rintro (there | there)
    · exact ⟨_, there⟩
    · exact ⟨_, there⟩
  · rintro ⟨_ | _, there⟩
    · exact .inl there
    · exact .inr there

theorem mem_pending_update {ups : List ChangeUpdate} (fires : c'.firing = Function.update c.firing g ups)
    {u : ChangeUpdate} : u ∈ c'.pending ↔ u ∈ ups ∨ ∃ g' ≠ g, u ∈ c.firing g' := by
  rw [mem_pending, fires]
  constructor
  · rintro ⟨g', there⟩
    by_cases same : g' = g
    · subst same
      rw [Function.update_self] at there
      exact .inl there
    · rw [Function.update_of_ne same] at there
      exact .inr ⟨g', same, there⟩
  · rintro (new | ⟨g', other, there⟩)
    · exact ⟨g, by rwa [Function.update_self]⟩
    · exact ⟨g', by rwa [Function.update_of_ne other]⟩

/-- The answer has one half of the pair alone, a new one, and the cache has the other. -/
def Splits (c : ConfigCache) (e : ServedConfig) : Prop :=
  (e.spec = [] ∧ c.docs e.km ≠ [] ∧ e.data ≠ [] ∧ e.data ≠ c.bundles e.km) ∨
    (e.data = [] ∧ c.bundles e.km ≠ [] ∧ e.spec ≠ [] ∧ e.spec ≠ c.docs e.km)
deriving Decidable

/-- No entry of an answer splits its pair. -/
def Whole (c : ConfigCache) : ConfigAction → Prop
  | .load _ entries => Throughout loadEntry (fun p e => ¬ p.1.Splits e) (c, []) entries
  | _ => True

instance (c : ConfigCache) (a : ConfigAction) : Decidable (c.Whole a) := by
  cases a <;> dsimp only [Whole] <;> infer_instance

/-- No newer call of the pair has been made. -/
def InOrder (c : ConfigCache) : ConfigAction → Prop
  | .call g => ∀ u ∈ (c.firing g).head?, ∀ u' ∈ c.calls, u'.km = u.km → u'.serial ≤ u.serial
  | _ => True

instance (c : ConfigCache) (a : ConfigAction) : Decidable (c.InOrder a) := by
  cases a <;> dsimp only [InOrder] <;> infer_instance

/-! ## A critical section -/

theorem put_held (x : ServedConfig) (km : KindVersion) :
    (c.put x).held km = if km = x.km then x else c.held km := by
  unfold held put
  split
  next same => subst same; simp
  next other => simp [other]

theorem merged_whole {e : ServedConfig} (whole : ¬ c.Splits e) (moved : c.merged e ≠ c.held e.km) :
    c.merged e = e := by
  unfold Splits at whole
  unfold merged held at *
  obtain ⟨km, spec, data⟩ := e
  by_cases noSpec : spec = [] <;> by_cases noData : data = [] <;> simp_all

/-- The halves are written, of the pairs that changed. -/
structure Writes (c : ConfigCache) (changed : List KindVersion) (c' : ConfigCache) : Prop where
  rest : ∃ docs bundles, c' = { c with docs := docs, bundles := bundles }
  others : ∀ km ∉ changed, c'.held km = c.held km

theorem put_writes (x : ServedConfig) : Writes c [x.km] (c.put x) :=
  ⟨⟨_, _, rfl⟩, fun km other => (put_held x km).trans (if_neg (by simpa using other))⟩

theorem loadEntry_writes {p : ConfigCache × List KindVersion} (h : Writes c p.2 p.1) (e : ServedConfig) :
    Writes c (loadEntry p e).2 (loadEntry p e).1 := by
  obtain ⟨mid, changed⟩ := p
  simp only [loadEntry]
  split
  · exact h
  · obtain ⟨docs, bundles, rfl⟩ := h.rest
    refine ⟨⟨_, _, rfl⟩, fun km other => ?_⟩
    rw [mem_append, not_or] at other
    rw [put_held, if_neg (by simpa [merged] using other.2)]
    exact h.others km other.1

theorem load_writes (p : ConfigCache × List KindVersion) (h : Writes c p.2 p.1) :
    Writes c (entries.foldl loadEntry p).2 (entries.foldl loadEntry p).1 := by
  induction entries generalizing p with
  | nil => exact h
  | cons e rest ih => exact ih _ (loadEntry_writes h e)

theorem load_whole {all : List ServedConfig} (p : ConfigCache × List KindVersion)
    (whole : Throughout loadEntry (fun p e => ¬ p.1.Splits e) p entries) (listed : ∀ e ∈ entries, e ∈ all)
    (h : ∀ km ∈ p.2, p.1.held km ∈ all) :
    ∀ km ∈ (entries.foldl loadEntry p).2, (entries.foldl loadEntry p).1.held km ∈ all := by
  induction entries generalizing p with
  | nil => exact h
  | cons e rest ih =>
    refine ih _ whole.2 (fun e later => listed e (.tail _ later)) ?_
    obtain ⟨mid, changed⟩ := p
    intro km
    simp only [loadEntry]
    split
    · exact h km
    next moved =>
      intro there
      rw [merged_whole whole.1 moved, put_held]
      split
      · exact listed e (.head _)
      next other => exact h km ((mem_append.mp there).resolve_right (by simpa using other))

theorem step_cases {P : ConfigCache → Prop} (idle : P c)
    (section_ : ∀ g changed entries mid, c.firing g = [] → Writes c changed mid →
      (c.Whole a → ∀ km ∈ changed, mid.held km ∈ entries) → P (mid.snapshotLocked g changed entries))
    (call : ∀ g u rest, c.firing g = u :: rest → (c.InOrder a →
      ∀ u' ∈ c.calls, u'.km = u.km → u'.serial ≤ u.serial) →
      P { c with firing := Function.update c.firing g rest, calls := u :: c.calls }) : P (c.step a) := by
  cases a with
  | load g entries =>
    simp only [step]
    split
    next free =>
      refine section_ g _ entries _ free (load_writes (c, []) ⟨⟨_, _, rfl⟩, fun _ _ => rfl⟩) fun whole => ?_
      exact load_whole (c, []) whole (fun _ h => h) (by simp)
    next => exact idle
  | apply config =>
    simp only [step]
    split
    next free =>
      refine section_ _ _ _ _ free (put_writes config) fun _ km there => ?_
      obtain rfl := mem_singleton.mp there
      rw [put_held, if_pos rfl]
      exact mem_singleton_self _
    next => exact idle
  | call g =>
    simp only [step]
    split
    next u rest there => exact call g u rest there fun ok => ok u (by simp [there])
    next => exact idle

theorem told_section {u : ChangeUpdate} (writes : Writes c changed c')
    (told : u ∈ (c'.snapshotLocked g changed entries).pending ∨ u ∈ (c'.snapshotLocked g changed entries).calls) :
    (u ∈ c.pending ∨ u ∈ c.calls) ∨ ∃ km ∈ changed, u = ⟨c'.held km, c.sections + 1⟩ := by
  obtain ⟨docs, bundles, rfl⟩ := writes.rest
  rcases told with waits | called
  · rcases (mem_pending_update rfl).mp waits with new | ⟨g', -, there⟩
    · obtain ⟨km, listed, rfl⟩ := mem_map.mp new
      exact .inr ⟨km, listed, rfl⟩
    · exact .inl (.inl (mem_pending.mpr ⟨g', there⟩))
  · exact .inl (.inr called)

theorem told_call {u u' : ChangeUpdate} {rest : List ChangeUpdate} (there : c.firing g = u :: rest)
    (told : u' ∈ pending { c with firing := Function.update c.firing g rest } ∨ u' ∈ u :: c.calls) :
    u' ∈ c.pending ∨ u' ∈ c.calls := by
  have mine {w : ChangeUpdate} (mem : w ∈ u :: rest) : w ∈ c.pending :=
    mem_pending.mpr ⟨g, there ▸ mem⟩
  rcases told with waits | called
  · rcases (mem_pending_update rfl).mp waits with later | ⟨g', -, listed⟩
    · exact .inl (mine (.tail _ later))
    · exact .inl (mem_pending.mpr ⟨g', listed⟩)
  · rcases mem_cons.mp called with rfl | before
    · exact .inl (mine (.head _))
    · exact .inr before

/-! ## Configs served as one -/

/-- Every call, made or pending, is of a config that was served. -/
def Together (c : ConfigCache) : Prop := ∀ u, u ∈ c.pending ∨ u ∈ c.calls → u.toServedConfig ∈ c.served

theorem Together.step (h : c.Together) (whole : c.Whole a) : (c.step a).Together := by
  refine step_cases h (fun g changed entries mid _ writes fresh u told => ?_)
    fun g u rest there _ u' told => h u' (told_call there told)
  rcases told_section writes told with old | ⟨km, listed, rfl⟩
  · obtain ⟨docs, bundles, rfl⟩ := writes.rest
    exact mem_append_left _ (h u old)
  · exact mem_append_right _ (fresh whole km listed)

/-- **Spec and bundle come from one config** in every run where no answer splits a pair. -/
theorem configs_together (actions : List ConfigAction) (whole : Throughout step Whole new actions) :
    Throughout step (fun c a => ∀ u ∈ (c.step a).calls, u.toServedConfig ∈ (c.step a).served) new actions :=
  whole.keeps (I := Together) (fun _ _ h ok => ⟨h.step ok, fun u called => h.step ok u (.inr called)⟩)
    fun _ told => by simp [pending, new] at told

/-- The answers at boot and of a refresh: one config has both halves, one no bundle at all. -/
def wholeAnswers : List ConfigAction :=
  [.load .stream [⟨⟨"net", 1⟩, [1], [2]⟩, ⟨⟨"dns", 1⟩, [5], []⟩], .call .stream, .call .stream,
    .load .refresh [⟨⟨"net", 1⟩, [3], [4]⟩, ⟨⟨"dns", 1⟩, [6], []⟩], .call .refresh, .call .refresh]

theorem configs_together_loaded :
    Throughout step Whole new wholeAnswers ∧
      Throughout step (fun c a => ∀ u ∈ (c.step a).calls, u.toServedConfig ∈ (c.step a).served) new wholeAnswers ∧
      (wholeAnswers.foldl step new).calls.map ChangeUpdate.toServedConfig =
        [⟨⟨"dns", 1⟩, [6], []⟩, ⟨⟨"net", 1⟩, [3], [4]⟩, ⟨⟨"dns", 1⟩, [5], []⟩, ⟨⟨"net", 1⟩, [1], [2]⟩] :=
  ⟨by decide +kernel, configs_together wholeAnswers (by decide +kernel), by decide +kernel⟩

/-- A push, then an answer whose config has lost its bundle. -/
def splitAnswer : List ConfigAction :=
  [.apply ⟨⟨"net", 1⟩, [1], [2]⟩, .call .stream, .load .refresh [⟨⟨"net", 1⟩, [3], []⟩], .call .refresh]

theorem halves_mixed :
    ¬ Throughout step (fun c a => ∀ u ∈ (c.step a).calls, u.toServedConfig ∈ (c.step a).served)
      new splitAnswer := by
  decide +kernel

/-! ## The last call -/

def lastCall (c : ConfigCache) (km : KindVersion) : Option ChangeUpdate := c.calls.find? (·.km = km)

/-- All have returned, and the last call for each pair that ever changed had what the cache holds. -/
def Told (c : ConfigCache) : Prop :=
  c.pending = [] → ∀ km, c.changedAt km ≠ 0 → (c.lastCall km).map ChangeUpdate.toServedConfig = some (c.held km)

/-- A call is as old as the config it carries; the newest one of a pair is pending or the last made. -/
structure Tracked (c : ConfigCache) : Prop where
  past : ∀ km, c.changedAt km ≤ c.sections
  dated : ∀ u, u ∈ c.pending ∨ u ∈ c.calls → u.serial ≤ c.changedAt u.km ∧
    (u.serial = c.changedAt u.km → u.toServedConfig = c.held u.km)
  newest : ∀ km, c.changedAt km ≠ 0 → (∃ u ∈ c.pending, u.km = km ∧ u.serial = c.changedAt km) ∨
    ∃ u, c.lastCall km = some u ∧ u.serial = c.changedAt km

theorem Tracked.told (h : c.Tracked) : c.Told := by
  intro returned km changed
  rcases h.newest km changed with ⟨u, waits, -⟩ | ⟨u, last, newest⟩
  · rw [returned] at waits
    cases waits
  · obtain rfl : u.km = km := by simpa using find?_some last
    rw [last]
    exact congrArg some ((h.dated u (.inr (mem_of_find?_eq_some last))).2 newest)

theorem Tracked.section (h : c.Tracked) (free : c.firing g = []) (writes : Writes c changed c') :
    (c'.snapshotLocked g changed entries).Tracked := by
  have told := @told_section c c' changed entries g
  have others := writes.others
  obtain ⟨docs, bundles, rfl⟩ := writes.rest
  refine ⟨fun km => ?_, fun u mem => ?_, fun km => ?_⟩
  · have := h.past km
    simp only [snapshotLocked]
    split <;> omega
  · rcases told writes mem with old | ⟨km, listed, rfl⟩
    · have before := h.dated u old
      have := h.past u.km
      simp only [snapshotLocked]
      split
      · exact ⟨by omega, fun same => by omega⟩
      next kept => exact ⟨before.1, fun same => (before.2 same).trans (others _ kept).symm⟩
    · exact ⟨(if_pos listed).ge, fun _ => rfl⟩
  · simp only [snapshotLocked]
    split
    next listed =>
      exact fun _ => .inl ⟨_, (mem_pending_update rfl).mpr (.inl (mem_map.mpr ⟨km, listed, rfl⟩)), rfl, rfl⟩
    next kept =>
      refine fun changed => (h.newest km changed).imp_left ?_
      rintro ⟨u, waits, mine⟩
      obtain ⟨g', there⟩ := mem_pending.mp waits
      -- the goroutine of the section had nothing to fire
      have other : g' ≠ g := by
        rintro rfl
        rw [free] at there
        cases there
      exact ⟨u, (mem_pending_update rfl).mpr (.inr ⟨g', other, there⟩), mine⟩

theorem Tracked.call {u : ChangeUpdate} {rest : List ChangeUpdate} (h : c.Tracked)
    (there : c.firing g = u :: rest) (order : ∀ u' ∈ c.calls, u'.km = u.km → u'.serial ≤ u.serial) :
    Tracked { c with firing := Function.update c.firing g rest, calls := u :: c.calls } := by
  refine ⟨h.past, fun u' told => h.dated u' (told_call there told), fun km changed => ?_⟩
  simp only [lastCall, find?_cons]
  have mine := h.dated u (told_call there (.inr (.head _)))
  rcases h.newest km changed with ⟨w, waits, rfl, newest⟩ | ⟨w, last, newest⟩
  · obtain ⟨g', listed⟩ := mem_pending.mp waits
    by_cases same : g' = g
    · subst same
      rw [there] at listed
      rcases mem_cons.mp listed with rfl | later
      · exact .inr ⟨w, by simp, newest⟩
      · exact .inl ⟨w, (mem_pending_update rfl).mpr (.inl later), rfl, newest⟩
    · exact .inl ⟨w, (mem_pending_update rfl).mpr (.inr ⟨g', same, listed⟩), rfl, newest⟩
  · by_cases same : u.km = km
    · subst same
      have := order w (mem_of_find?_eq_some last) (by simpa using find?_some last)
      exact .inr ⟨u, by simp, by omega⟩
    · exact .inr ⟨w, by simpa [same, lastCall] using last, newest⟩

theorem Tracked.step (h : c.Tracked) (order : c.InOrder a) : (c.step a).Tracked :=
  step_cases (P := Tracked) h (fun _ _ _ _ free writes _ => h.section free writes)
    fun _ _ _ there first => h.call there (first order)

/-- **The last call is of the config the cache holds** in every run where no call comes after a newer
one of its pair. -/
theorem last_call_current (actions : List ConfigAction) (order : Throughout step InOrder new actions) :
    Throughout step (fun c a => (c.step a).Told) new actions :=
  order.keeps (I := Tracked) (fun _ _ h ok => ⟨h.step ok, (h.step ok).told⟩)
    ⟨fun _ => le_rfl, fun _ told => by simp [pending, new] at told, fun _ changed => absurd rfl changed⟩

theorem last_call_current_pushed :
    ((splitAnswer.foldl step new).lastCall ⟨"net", 1⟩).map ChangeUpdate.toServedConfig =
      some ⟨⟨"net", 1⟩, [3], [2]⟩ :=
  (last_call_current splitAnswer (by decide +kernel)).2.2.2.1 (by decide +kernel) ⟨"net", 1⟩ (by decide +kernel)

/-- A refresh writes the cache; a push comes in and its call is made before that of the refresh. -/
def overtaken : List ConfigAction :=
  [.load .refresh [⟨⟨"net", 1⟩, [1], [2]⟩], .apply ⟨⟨"net", 1⟩, [3], [4]⟩, .call .stream, .call .refresh]

theorem last_call_stale : ¬ Throughout step (fun c a => (c.step a).Told) new overtaken := by
  intro told
  have stale := told.2.2.2.1 (by decide +kernel) ⟨"net", 1⟩ (by decide +kernel)
  revert stale
  decide +kernel

end ConfigCache

end Converge.Kernel
