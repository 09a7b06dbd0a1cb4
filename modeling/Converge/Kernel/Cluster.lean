/-
# Kernel.Cluster -- the brokers, their routes and the database

A broker claims tasks, parks their stages and runs them on its own workers or, over a route, on
those of a peer; the failures its stages return are recorded in the database, and the leases of
the tasks it runs are kept fresh from its records (`InFlightSet`).  `Cluster.step` is one step of
one broker, the hand-over of one frame of a route, or one statement of anyone else.

What a step asks of the brokers is a list of moves (`Cluster.moves`), each one step of one
`Fanout`; what it asks of the database is at most one statement (`Cluster.effect`).  Every step
draws one number: the pointer and token of whatever it makes.

A frame may be lost on the way.  A worker may complete and attest any token it likes
(`FanoutAction.complete`, `attest`), and so may a peer (`routeComplete`).
-/
import Converge.Kernel.FanoutSteps
import Converge.Kernel.InFlight
import Converge.Kernel.System

namespace Converge.Kernel

open Converge.Theory

set_option autoImplicit false

/-- The outbox row of `recordFailedErr`. -/
def recordFailedErr (m : ManifestDoc) (t : WorkTask) (label : String) (e : GoError) : OutboxRow :=
  recordFailedTerminal m t (label ++ ": " ++ e.message) e.isTerminal

/-- The steps a broker takes alone.  The others come with a statement, with a frame, or with a
pointer that is drawn for all. -/
def FanoutAction.internal : FanoutAction → Bool
  | .dispatch .. | .subscribe .. | .release .. | .join .. | .sendFrame .. | .routeTask ..
  | .routeComplete .. | .recorded .. => false
  | _ => true

/-- The ids that `workIDsForTokens` finds for a heartbeat's tokens. -/
def Fanout.workIDsForTokens (f : Fanout) (tokens : List LeaseToken) : List Uuid :=
  tokens.filterMap fun token => ((f.inflight? token).bind (·.lease)).map (·.id)

structure Cluster where
  db : Db
  brokers : String → Fanout
  inFlight : String → InFlightSet
  /-- The tasks whose goroutine has not returned. -/
  running : String → List WorkTask
  /-- History: every task the broker claimed. -/
  claimed : String → List WorkTask
  clock : String → Nat
  /-- The next pointer or token. -/
  drawn : Nat
  /-- History: the accepted rows of failures that a broker made up. -/
  synthesized : List OutboxRow

/-- `mesh` tells the brokers that know their peers. -/
def Cluster.init (mesh : String → Bool) : Cluster where
  db := Db.empty
  brokers id := .new (mesh id)
  inFlight _ := ⟨[], defaultRequireWithin⟩
  running _ := []
  claimed _ := []
  clock _ := 0
  drawn := 0
  synthesized := []

inductive ClusterAction where
  /-- A statement of anyone. -/
  | store (a : Action)
  | broker (id : String) (a : FanoutAction)
  -- the dispatcher
  | sweep (id : String) (scan : Scan Uuid) (b : TakeBatch)
  | finish (id : String) (t : WorkTask)
  | markLocal (id : String) (t : WorkTask)
  | heartbeat (id : String) (scan : Scan Uuid)
  | tick (id : String) (n : Nat)
  /-- A reaction of a claimed task. -/
  | dispatch (id : String) (t : WorkTask)
  /-- A reaction to an event. -/
  | react (id : String) (km : KindVersion)
  /-- The failure of a returned stage is recorded; `label` names the reaction. -/
  | record (id : String) (stage : StageRef) (m : ManifestDoc) (label : String)
  -- the worker streams
  | subscribe (id : String) (kms : List KindVersion) (maxInflight : Nat)
  | attest (id : String) (tokens : List LeaseToken)
  | release (id : String) (stream : StreamRef) (scan : Scan Uuid)
  -- the mesh
  | join (id : String) (memberId : String)
  /-- The next frame of a route, handled by the other side's `peer`, or lost. -/
  | route (id : String) (via : PeerRef) (peer : Option PeerRef)
  | routeComplete (id : String) (peer : PeerRef) (token : LeaseToken) (sc : StageComplete)

namespace Cluster

variable [Postgres] (s : Cluster)

/-! ## What a step does to the database -/

/-- The next lease of a teardown. -/
def releasing (id : String) (stream : StreamRef) : Option WorkTask :=
  ((s.brokers id).sub? stream).bind fun sub =>
    match sub.loop with
    | .releasing (t :: _) => some t
    | _ => none

/-- The row that `record` appends, and whether the broker made the failure up: a leased stage has
returned a completion with an error. -/
def failureRow (id : String) (stage : StageRef) (m : ManifestDoc) (label : String) :
    Option (OutboxRow × Bool) :=
  ((s.brokers id).stage? stage).bind fun ps =>
    match ps.lease, ps.waiter with
    | some t, .returned (some c) =>
      if c.sc.errorMessage = "" then none
      else some (recordFailedErr m t label (stageErr c.sc.errorMessage c.sc.terminal), c.synthetic)
    | _, _ => none

/-- The append finds its lease and no result of it. -/
def accepts (db : Db) (o : OutboxRow) : Bool :=
  o.task ∈ db.tasks && db.workQueue.rows.any (tokenMatches o) && !resultWaiting db o.workId

def claims (db : Db) (scan : Scan Uuid) (b : TakeBatch) : List WorkTask :=
  ((takenRows db scan b).map (claimRow b.brokerId db.now)).map taskOf

def effect : ClusterAction → Option Action
  | .store a => some a
  | .sweep id scan b => some (.workQueueTakeBatch scan { b with brokerId := id })
  | .heartbeat id scan => ((s.inFlight id).snapshot (s.clock id)).map fun (tokens, range) =>
    .workQueueHeartbeat scan tokens range
  | .release id stream scan => (s.releasing id stream).map fun t =>
    .workQueueReleaseTasks scan id [t.id] ⟨shardOf t.resourceId, shardOf t.resourceId⟩
  | .record id stage m label => (s.failureRow id stage m label).map fun row => .appendOutbox row.1
  | _ => none

/-! ## What a step does to the brokers -/

/-- `handleInbound` for the frames that concern stages. -/
def handleInbound (drawn : Nat) (peer : PeerRef) : RouteFrame → FanoutAction
  | .task token km => .routeTask drawn peer token km
  | .complete token c => .routeComplete peer token c

def moves : ClusterAction → List (String × FanoutAction)
  | .broker id a => if a.internal then [(id, a)] else []
  | .dispatch id t =>
    if t ∈ s.claimed id then [(id, .dispatch s.drawn ⟨t.kind, t.kindVersion⟩ (some t))] else []
  | .react id km => [(id, .dispatch s.drawn km none)]
  | .record id stage m label => if (s.failureRow id stage m label).isSome then [(id, .recorded stage)] else []
  | .subscribe id kms maxInflight => [(id, .subscribe s.drawn kms maxInflight)]
  | .release id stream _ => if (s.releasing id stream).isSome then [(id, .release stream)] else []
  | .join id memberId =>
    -- never a route to itself
    if memberId = id then [] else [(id, .join s.drawn memberId)]
  | .route id via peer =>
    match (s.brokers id).peer? via with
    | some p =>
      match p.out with
      | frame :: _ =>
        match peer.bind (s.brokers p.memberId).peer? with
        | some q =>
          if q.memberId = id && (s.brokers p.memberId).free (.route q.ref) then
            [(id, .sendFrame via), (p.memberId, handleInbound s.drawn q.ref frame)]
          else []
        | none => [(id, .sendFrame via)]
      | [] => []
    | none => []
  | .routeComplete id peer token sc =>
    if ((s.brokers id).peer? peer).isSome then [(id, .routeComplete peer token ⟨sc, false⟩)] else []
  | _ => []

def move (brokers : String → Fanout) (m : String × FanoutAction) : String → Fanout :=
  fun id => if id = m.1 then (brokers id).step m.2 else brokers id

/-! ## What a step does to the records -/

def setInFlight (id : String) (set : InFlightSet) : String → InFlightSet :=
  fun b => if b = id then set else s.inFlight b

def records : ClusterAction → String → InFlightSet
  | .sweep id scan b => s.setInFlight id ((claims s.db scan { b with brokerId := id }).foldl
      (fun set t => set.add (s.clock id) t.id (shardOf t.resourceId) t.claimEpoch) (s.inFlight id))
  | .finish id t => if t ∈ s.running id then s.setInFlight id ((s.inFlight id).remove t.id) else s.inFlight
  | .markLocal id t =>
    if t ∈ s.claimed id then s.setInFlight id ((s.inFlight id).markLocal (s.clock id) t.id)
    else s.inFlight
  | .attest id tokens => s.setInFlight id
      ((s.inFlight id).attest (s.clock id) ((s.brokers id).workIDsForTokens tokens))
  | _ => s.inFlight

def step (a : ClusterAction) : Cluster where
  db := (s.effect a).elim s.db (Kernel.step s.db)
  brokers := (s.moves a).foldl move s.brokers
  inFlight := s.records a
  running := match a with
    | .sweep id scan b => fun i =>
      if i = id then claims s.db scan { b with brokerId := id } ++ s.running i else s.running i
    | .finish id t => fun i => if i = id then (s.running i).erase t else s.running i
    | _ => s.running
  claimed := match a with
    | .sweep id scan b => fun i =>
      if i = id then claims s.db scan { b with brokerId := id } ++ s.claimed i else s.claimed i
    | _ => s.claimed
  clock := match a with
    | .tick id n => fun i => if i = id then s.clock i + n else s.clock i
    | _ => s.clock
  drawn := s.drawn + 1
  synthesized := match a with
    | .record id stage m label =>
      match s.failureRow id stage m label with
      | some (o, true) => if accepts s.db o then o :: s.synthesized else s.synthesized
      | _ => s.synthesized
    | _ => s.synthesized

def run (s : Cluster) (actions : List ClusterAction) : Cluster := actions.foldl step s

def Reached (s : Cluster) : Prop := ∃ mesh actions, s = (Cluster.init mesh).run actions

theorem Reached.induction {I : Cluster → Prop} (init : ∀ mesh, I (Cluster.init mesh))
    (next : ∀ s a, I s → I (s.step a)) {s : Cluster} (reached : s.Reached) : I s := by
  obtain ⟨mesh, actions, rfl⟩ := reached
  suffices ∀ s, I s → I (s.run actions) from this _ (init mesh)
  induction actions with
  | nil => exact fun _ h => h
  | cons a rest ih => exact fun s h => ih _ (next s a h)

theorem Reached.step {s : Cluster} (reached : s.Reached) (a : ClusterAction) : (s.step a).Reached := by
  obtain ⟨mesh, actions, rfl⟩ := reached
  exact ⟨mesh, actions ++ [a], by rw [run, run, List.foldl_append]; rfl⟩

/-! ## The database of a run -/

variable {s}

theorem Reached.db (reached : s.Reached) : Reachable s.db := by
  refine reached.induction (I := fun s => Reachable s.db) (fun _ => .empty) fun s a here => ?_
  show Reachable ((s.effect a).elim s.db (Kernel.step s.db))
  cases s.effect a with
  | none => exact here
  | some b => exact here.step b

/-! ## Runs on small clusters -/

/-- Broker `id` claims all reconcile work of `kind`. -/
def sweepAll (id kind : String) : ClusterAction :=
  .sweep id Scan.plain ⟨id, kind, 1, .reconcile, ShardRange.full, 10⟩

/-- After `actions` it parks a stage for each task it claimed. -/
def dispatching (id : String) (actions : List ClusterAction) : List ClusterAction :=
  letI := counting
  actions ++ (((Cluster.init fun _ => true).run actions).claimed id).map (.dispatch id)

def onBroker (id : String) (actions : List FanoutAction) : List ClusterAction := actions.map (.broker id)

/-- A stream sends the next stage of its first buffer. -/
def sendsNext (stream : StreamRef) : List FanoutAction :=
  [.pop stream 0, .acquire stream, .take stream 0, .attributeTask stream, .gate stream, .sendTask stream]

end Cluster

end Converge.Kernel
