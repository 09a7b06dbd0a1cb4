/-
# Kernel.ConfigCache -- the default configs of a worker

A worker has no database: it pulls the default config of its kinds from the broker (`load`) and takes
the broker's pushes (`apply`).  Both write the cache under its lock, with a snapshot of the pairs that
changed, and hand that to the provider's `OnConfig` once the lock is released.  `ConfigCache.step` is
one critical section, or one call of `OnConfig`; a pair without a half has it empty.

Two goroutines do this: the one that serves the stream, which loads at boot and on every connect and
then applies the pushes as it receives them, and the one of the periodic refresh.  Each fires what it
wrote before it goes on, so only calls of different goroutines can overtake each other.
-/
import Converge.Kernel.Fanout

namespace Converge.Kernel

set_option autoImplicit false

/-- A config as the broker serves it, or as `OnConfig` gets it. -/
structure ServedConfig where
  km : KindVersion
  spec : Bytes
  data : Bytes
  deriving DecidableEq

/-- `changeUpdate`; the serial is history. -/
structure ChangeUpdate extends ServedConfig where
  serial : Nat
  deriving DecidableEq

inductive ConfigGoroutine where
  | stream
  | refresh
  deriving DecidableEq

structure ConfigCache where
  docs : KindVersion → Bytes
  bundles : KindVersion → Bytes
  /-- What each goroutine has still to fire. -/
  firing : ConfigGoroutine → List ChangeUpdate
  /-- History: the critical sections so far, the last one that changed a pair, what was served, and
  the calls of `OnConfig`, the last one first. -/
  sections : Nat
  changedAt : KindVersion → Nat
  served : List ServedConfig
  calls : List ChangeUpdate

inductive ConfigAction where
  | load (g : ConfigGoroutine) (entries : List ServedConfig)
  | apply (config : ServedConfig)
  | call (g : ConfigGoroutine)

namespace ConfigCache

def new : ConfigCache := ⟨fun _ => [], fun _ => [], fun _ => [], 0, fun _ => 0, [], []⟩

variable (c : ConfigCache)

def held (km : KindVersion) : ServedConfig := ⟨km, c.docs km, c.bundles km⟩

def put (config : ServedConfig) : ConfigCache :=
  { c with
    docs := fun km => if km = config.km then config.spec else c.docs km
    bundles := fun km => if km = config.km then config.data else c.bundles km }

/-- An answer moves each half it has. -/
def merged (e : ServedConfig) : ServedConfig :=
  ⟨e.km, if e.spec = [] then c.docs e.km else e.spec, if e.data = [] then c.bundles e.km else e.data⟩

/-- The loop of `load`, with the pairs that moved. -/
def loadEntry : ConfigCache × List KindVersion → ServedConfig → ConfigCache × List KindVersion
  | (c, changed), e =>
    if c.merged e = c.held e.km then (c, changed) else (c.put (c.merged e), changed ++ [e.km])

def snapshotLocked (g : ConfigGoroutine) (changed : List KindVersion) (entries : List ServedConfig) :
    ConfigCache :=
  { c with
    firing := Function.update c.firing g (changed.map fun km => ⟨c.held km, c.sections + 1⟩)
    sections := c.sections + 1
    changedAt := fun km => if km ∈ changed then c.sections + 1 else c.changedAt km
    served := c.served ++ entries }

def step : ConfigAction → ConfigCache
  | .load g entries =>
    if c.firing g = [] then
      let (c, changed) := entries.foldl loadEntry (c, [])
      c.snapshotLocked g changed entries
    else c
  | .apply config =>
    if c.firing .stream = [] then (c.put config).snapshotLocked .stream [config.km] [config] else c
  | .call g =>
    match c.firing g with
    | u :: rest => { c with firing := Function.update c.firing g rest, calls := u :: c.calls }
    | [] => c

end ConfigCache

end Converge.Kernel
