/-
# Kernel.Manifest -- the definition of a kind, from publish to teardown

A manifest declares the reactions of a kind.  It is checked twice on publish: by
`ValidateManifest` in the server, and by `validate_kind_manifest` in the trigger on
`kind_manifest`, which sees the reactions alone.  The two agree on the lattice but for
the finalizer of a teardown: the server accepts it on the reaction or on the manifest,
the database asks for it on the reaction.

The trigger copies the finalizer of the manifest into `kind_config`, from where a mark
seeds it.  `reactDelete` runs the teardown and reports which finalizer to strip: that of
the reaction, or that of the manifest when the reaction has none.
-/
import Converge.Kernel.Commands

namespace Converge.Kernel

open Converge.Theory List Table

set_option autoImplicit false

/-! ## The document -/

/-- `Trigger`; a published document may hold any text. -/
inductive Trigger where
  | specChange
  | childrenSettled
  | deleteRequested
  | operation
  | reactor
  | resync
  | other (text : String)
  deriving DecidableEq

/-- `OutcomeBit`; nothing checks the others. -/
inductive OutcomeBit where
  | children
  | edges
  | configs
  | status
  | conditions
  | finalizer
  | operationOutput
  | sideEffect
  | other (text : String)
  deriving DecidableEq

structure ReactionDecl where
  name : String
  trigger : Trigger
  emits : List OutcomeBit
  verb : String
  finalizer : String
  deriving DecidableEq

namespace ReactionDecl

def hasChildren (rx : ReactionDecl) : Bool := .children ∈ rx.emits

def hasStatus (rx : ReactionDecl) : Bool := .status ∈ rx.emits || .conditions ∈ rx.emits

def hasSide (rx : ReactionDecl) : Bool := .sideEffect ∈ rx.emits

end ReactionDecl

/-- `model.KindManifest`, but for its description and schemas. -/
structure ManifestDoc where
  kind : String
  kindVersion : Int
  reactions : List ReactionDecl
  finalizerName : String
  maxInflight : Nat
  taskDeadlineSecs : Nat
  resyncIntervalSecs : Nat
  resyncRecomposes : Bool
  orphanGraceSecs : Nat
  maxTransientAttempts : Nat
  retired : Bool
  deriving DecidableEq

/-- The empty text is stored as `NULL`. -/
def nilIfEmpty (text : String) : Option String := if text = "" then none else some text

/-- The row `UpsertKindManifest` writes. -/
def ManifestDoc.row (m : ManifestDoc) (manifestVersion : Int) : KindManifest where
  kind := m.kind
  kindVersion := m.kindVersion.toNat
  finalizerName := nilIfEmpty m.finalizerName
  maxInflight := m.maxInflight
  taskDeadlineSecs := m.taskDeadlineSecs
  resyncIntervalSecs := m.resyncIntervalSecs
  resyncRecomposes := m.resyncRecomposes
  orphanGraceSecs := m.orphanGraceSecs
  maxTransientAttempts := m.maxTransientAttempts
  retired := m.retired
  manifestVersion := manifestVersion

/-- The first teardown declared. -/
def ManifestDoc.deleteReaction (m : ManifestDoc) : Option ReactionDecl :=
  m.reactions.find? fun rx => rx.trigger = .deleteRequested

/-! ## The two validators -/

/-- The reactions counted by both. -/
structure Tally where
  children : Nat
  rollup : Nat
  reactor : Nat

def Tally.count (n : Tally) (rx : ReactionDecl) : Tally where
  children := n.children + if rx.trigger = .specChange && rx.hasChildren then 1 else 0
  rollup := n.rollup + if rx.trigger = .childrenSettled && rx.hasStatus then 1 else 0
  reactor := n.reactor + if rx.trigger = .reactor then 1 else 0

/-- One round of the loop of `ValidateManifest`. -/
def checkReaction (finalizerName : String) (n : Tally) (rx : ReactionDecl) : Except String Tally :=
  let reaction := "reaction " ++ rx.name.quote
  match rx.trigger with
  | .other text =>
    if text = "" then .error (reaction ++ ": missing trigger")
    else .error (reaction ++ ": unknown trigger " ++ text.quote)
  | .specChange =>
    if rx.hasChildren && !rx.hasStatus then
      .error (reaction ++ ": a specChange reaction emitting children must also emit status/conditions")
    else if rx.hasChildren && rx.hasSide then
      .error (reaction ++ ": a children-emitting reaction may not also emit sideEffect")
    else .ok (n.count rx)
  | .deleteRequested =>
    if rx.finalizer = "" && finalizerName = "" then
      .error (reaction ++ ": deleteRequested requires a finalizer (on the reaction or the manifest)")
    else .ok (n.count rx)
  | .operation =>
    if rx.verb = "" then .error (reaction ++ ": operation requires a verb")
    else .ok (n.count rx)
  | .reactor =>
    if !rx.hasSide then .error (reaction ++ ": a reactor reaction must emit sideEffect")
    else if rx.hasChildren || rx.hasStatus then
      .error (reaction ++ ": a reactor reaction may only emit sideEffect")
    else .ok (n.count rx)
  | .childrenSettled | .resync => .ok (n.count rx)

/-- At most one of the reactions that are counted. -/
def atMostOne (what : String) (got : Nat) : Except String Unit :=
  if 1 < got then .error ("at most one " ++ what ++ " (got " ++ toString got ++ ")") else .ok ()

def oneChildren (n : Tally) : Except String Unit :=
  atMostOne "specChange reaction may emit children" n.children

def oneRollup (n : Tally) : Except String Unit :=
  atMostOne "childrenSettled reaction may emit status" n.rollup

def oneReactor (n : Tally) : Except String Unit :=
  atMostOne "reactor reaction per kind" n.reactor

def validateManifest (m : ManifestDoc) : Except String Unit :=
  if m.kind = "" then .error "manifest: kind is required"
  else if m.kindVersion < 1 then
    .error ("manifest " ++ m.kind.quote ++ ": kindVersion is required and must be >= 1 " ++
      "(no implicit v1 default; got " ++ toString m.kindVersion ++ ")")
  else
    (m.reactions.foldlM (checkReaction m.finalizerName) ⟨0, 0, 0⟩).bind fun n =>
      (oneChildren n).bind fun _ => (oneRollup n).bind fun _ => oneReactor n

/-- One round of the loop of `validate_kind_manifest`, which knows no manifest. -/
def checkStoredReaction (n : Tally) (rx : ReactionDecl) : Except String Tally :=
  let reaction := "reaction " ++ rx.name
  match rx.trigger with
  | .other text => .error (reaction ++ " has unknown trigger " ++ text)
  | .specChange =>
    if rx.hasChildren && !rx.hasStatus then
      .error (reaction ++ ": a specChange reaction emitting children must also emit status/conditions")
    else if rx.hasChildren && rx.hasSide then
      .error (reaction ++ ": a children-emitting reaction may not also emit sideEffect")
    else .ok (n.count rx)
  | .deleteRequested =>
    if rx.finalizer = "" then .error (reaction ++ ": deleteRequested requires a finalizer")
    else .ok (n.count rx)
  | .operation =>
    if rx.verb = "" then .error (reaction ++ ": operation requires a verb")
    else .ok (n.count rx)
  | .reactor =>
    if !rx.hasSide then .error (reaction ++ ": a reactor reaction must emit sideEffect")
    else if rx.hasChildren || rx.hasStatus then
      .error (reaction ++ ": a reactor reaction may only emit sideEffect")
    else .ok (n.count rx)
  | .childrenSettled | .resync => .ok (n.count rx)

/-- `validate_kind_manifest`; its last three checks come in another order. -/
def validateKindManifest (reactions : List ReactionDecl) : Except String Unit :=
  (reactions.foldlM checkStoredReaction ⟨0, 0, 0⟩).bind fun n =>
    (oneReactor n).bind fun _ => (oneChildren n).bind fun _ => oneRollup n

def ManifestDoc.accepted (m : ManifestDoc) : Bool :=
  (validateManifest m).isOk && (validateKindManifest m.reactions).isOk

/-- `Store.UpsertKindManifest`, with the trigger; `manifestVersion` is the content hash. -/
def publishManifest [Postgres] (db : Db) (m : ManifestDoc) (manifestVersion : Int) : Option Db :=
  if m.accepted then upsertKindManifest db (m.row manifestVersion) else none

/-! ## Teardown -/

/-- The outbox row of `recordFailedTerminal`; a failed teardown names the manifest's
finalizer. -/
def recordFailedTerminal (m : ManifestDoc) (t : WorkTask) (msg : String) (terminal : Bool) : OutboxRow where
  task := t
  succeeded := false
  payload := none
  errorMessage := nilIfEmpty msg
  advanceSyncedGen := false
  healthOk := none
  conditions :=
    if t.taskType = .reconcile then
      some [⟨"Synced", "False", if terminal then "Terminal" else "ReconcileError", msg⟩]
    else none
  failed := t.taskType = .reconcile || t.taskType = .delete
  terminal := t.taskType = .reconcile && terminal
  finalizerName := if t.taskType = .delete then nilIfEmpty m.finalizerName else none
  manifestVersion := 0

/-- The finalizer a successful teardown reports. -/
def ManifestDoc.strips (m : ManifestDoc) (del : ReactionDecl) : String :=
  if del.finalizer = "" then m.finalizerName else del.finalizer

/-- `reactDelete`; the dispatched reaction succeeds, or fails with a message and whether
it is terminal. -/
def reactDelete (m : ManifestDoc) (t : WorkTask) (dispatched : Except (String × Bool) Unit) : OutboxRow :=
  match m.deleteReaction with
  | none =>
    recordFailedTerminal m t ("kind " ++ t.kind.quote ++ " manifest declares no deleteRequested reaction") false
  | some del =>
    match dispatched with
    | .error (msg, terminal) =>
      recordFailedTerminal m t ("delete reaction " ++ del.name.quote ++ ": " ++ msg) terminal
    | .ok () =>
      { task := t
        succeeded := true
        payload := none
        errorMessage := none
        advanceSyncedGen := false
        healthOk := none
        conditions := none
        failed := false
        terminal := false
        finalizerName := nilIfEmpty (m.strips del)
        manifestVersion := t.manifestVersion }

/-! ## What acceptance gives -/

theorem foldlM_ok {α β ε : Type} {f : β → α → Except ε β} {l : List α} {b c : β}
    (done : l.foldlM f b = .ok c) {a : α} (listed : a ∈ l) : ∃ s s', f s a = .ok s' := by
  induction l generalizing b with
  | nil => cases listed
  | cons first rest ih =>
    rw [foldlM_cons] at done
    cases h : f b first with
    | error e =>
      rw [h] at done
      cases done
    | ok next =>
      rw [h] at done
      rcases mem_cons.mp listed with rfl | later
      · exact ⟨b, next, h⟩
      · exact ih done later

/-- **The database asks for the finalizer on the reaction.** -/
theorem ManifestDoc.finalizer_declared {m : ManifestDoc} (accepted : m.accepted = true)
    {del : ReactionDecl} (declares : m.deleteReaction = some del) : del.finalizer ≠ "" := by
  have listed := mem_of_find?_eq_some declares
  have trigger : del.trigger = .deleteRequested := by
    have found := find?_some declares
    simpa using found
  have stored := (Bool.and_eq_true_iff.mp accepted).2
  unfold validateKindManifest at stored
  cases loop : m.reactions.foldlM checkStoredReaction ⟨0, 0, 0⟩ with
  | error e =>
    rw [loop] at stored
    cases stored
  | ok n =>
    obtain ⟨s, s', round⟩ := foldlM_ok loop listed
    intro empty
    simp only [checkStoredReaction, trigger, empty] at round
    cases round

theorem ManifestDoc.strips_declared {m : ManifestDoc} (accepted : m.accepted = true)
    {del : ReactionDecl} (declares : m.deleteReaction = some del) : m.strips del = del.finalizer :=
  if_neg (m.finalizer_declared accepted declares)

section Publish

variable [Postgres] {db db' : Db}

/-- The config of the kind carries the finalizer of the manifest. -/
def SyncedFrom (m : ManifestDoc) (db : Db) : Prop :=
  (db.kindConfig? m.kind m.kindVersion.toNat).map (·.finalizerName) = some (nilIfEmpty m.finalizerName)
deriving Decidable

theorem upsertKindManifest_finalizer {m : KindManifest} (done : upsertKindManifest db m = some db') :
    (db'.kindConfig? m.kind m.kindVersion).map (·.finalizerName) = some m.finalizerName := by
  unfold upsertKindManifest at done
  split at done
  · cases done
  · simp only [Option.some.injEq] at done
    let named : KindConfig → Bool := fun c => c.kind = m.kind && c.kindVersion = m.kindVersion
    let mirror : KindConfig → KindConfig := fun c =>
      { c with manifestVersion := m.manifestVersion, finalizerName := m.finalizerName }
    have table : db'.kindConfig =
        (db.kindConfig.updateWhere named mirror (fun _ => rfl)).insertNew m.config := by
      rw [← done]
      split
      · exact (updateResources_only _ _ _ _).kindConfig
      · rfl
    rw [Db.kindConfig?, table, lookup_insertNew (fun _ _ => Iff.rfl),
      lookup_updateWhere (f := mirror) (fun _ => rfl) (fun _ => rfl)]
    cases found : db.kindConfig.lookup (fun c => (c.kind, c.kindVersion)) (m.kind, m.kindVersion) with
    | none =>
      have same : (m.config.kind, m.config.kindVersion) = (m.kind, m.kindVersion) := rfl
      rw [if_pos same]
      rfl
    | some c =>
      have key := Prod.ext_iff.mp (mem_of_lookup found).2
      have hit : named c = true :=
        Bool.and_eq_true_iff.mpr ⟨decide_eq_true key.1, decide_eq_true key.2⟩
      rw [Option.map_some, if_pos hit]
      rfl

theorem publishManifest_synced {m : ManifestDoc} {manifestVersion : Int}
    (done : publishManifest db m manifestVersion = some db') : SyncedFrom m db' := by
  unfold publishManifest at done
  split at done
  · exact upsertKindManifest_finalizer done
  · cases done

end Publish

end Converge.Kernel
