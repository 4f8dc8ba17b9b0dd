import Lithair.Schema.Directory
import Lithair.Schema.Handlers

/-!
# A node with its schemas

The state of schema synchronisation beside the files of the node: the endpoints of
`app/schema_handlers.rs` that may touch either, what the start of the server makes of one model
(`validate_schemas` of `app/mod.rs`), and `apply_change`. New ids and the time come with the calls.
A file that cannot be written is logged, but for a rollback and a revalidation.
-/

namespace Lithair.Schema

open Lithair.Lib Lithair.Lib.FileSystem Lithair.Lib.Path
open Cluster (SchemaChangeStatus Uuid VoteOutcome VoteRequest)

inductive SchemaMigrationMode
  | warn
  | strict
  | auto
  | manual
  deriving DecidableEq

/-- A model and what its schema extractor returns. -/
structure ModelInfo where
  name : String
  currentSpec : ModelSpec

/-- What of the server is used. -/
structure SchemaConfig where
  accepts : String → Bool
  base : Dir
  json : SchemaJson
  toLowercase : String → String
  mode : SchemaMigrationMode
  clusterPeers : List String
  nodeId : Option ℕ
  models : List ModelInfo

namespace SchemaConfig

variable (config : SchemaConfig)

def isCluster : Bool := !config.clusterPeers.isEmpty

def totalNodes : ℕ := config.clusterPeers.length + 1

def save (fs : Files) (spec : ModelSpec) : Files × Bool :=
  saveSchemaSpec config.accepts config.base config.json fs spec

def load (fs : Files) (modelName : String) : Except LoadError (Option ModelSpec) :=
  loadSchemaSpec config.accepts config.base config.json fs modelName

/-- The files with one more record in the history, if that can be written. -/
def append (fs : Files) (record : AppliedSchemaChange) : Files :=
  (appendSchemaHistory config.accepts config.base config.json fs record).1

end SchemaConfig

structure SchemaNode extends SchemaSyncState where
  files : Files

inductive RollbackOutcome
  | notFound
  | unavailable
  | saveFailed
  | rolledBack (modelName : String) (changeId : Uuid) (revertedTo : UInt32)
  deriving DecidableEq

inductive SyncOutcome
  | notInCluster
  | triggered (schemas pendingChanges clusterPeers : ℕ)
  deriving DecidableEq

inductive RevalidateOutcome
  | blocked
  | failed
  | done
  deriving DecidableEq

namespace SchemaNode

variable (config : SchemaConfig) (node : SchemaNode)

/-- `handle_admin_schema_approve`, with the file of a schema that is applied. -/
def approve (changeId : Uuid) (userId : String) (userName : Option String) (now : ℕ) :
    SchemaNode × ApproveOutcome :=
  let (state, outcome) :=
    node.handleAdminSchemaApprove changeId userId userName config.totalNodes now
  match outcome, node.pendingChanges.lookup changeId with
  | .applied _ _, some change => (⟨state, (config.save node.files change.newSpec).1⟩, outcome)
  | _, _ => (⟨state, node.files⟩, outcome)

/-- `handle_admin_schema_sync` says that a synchronisation was asked for. -/
def handleAdminSchemaSync : SchemaNode × SyncOutcome :=
  if !config.isCluster then (node, .notInCluster)
  else (node, .triggered node.schemas.keys.card node.pendingChanges.keys.card
    config.clusterPeers.length)

def handleAdminSchemaRollback (changeId : Uuid) : SchemaNode × RollbackOutcome :=
  match node.changeHistory.find? fun record ↦ record.id = changeId with
  | none => (node, .notFound)
  | some record =>
    match (node.pendingChanges.lookup changeId).bind PendingSchemaChange.oldSpec with
    | none => (node, .unavailable)
    | some previousSpec =>
      match config.save node.files previousSpec with
      | (files, false) => ({ node with files }, .saveFailed)
      | (files, true) =>
        ({ node with
            schemas := node.schemas.insert record.modelName previousSpec
            files },
          .rolledBack record.modelName changeId previousSpec.version)

/-- What a revalidation makes of one model; `false` is an error, with which it ends. It writes the
time into the record in seconds. -/
def revalidateModel (info : ModelInfo) (recordId : Uuid) (now : ℕ) : SchemaNode × Bool :=
  match config.load node.files info.name with
  | .error _ => (node, false)
  | .ok (some stored) =>
    match SchemaChangeDetector.detectChanges config.toLowercase stored info.currentSpec with
    | [] => (node, true)
    | changes =>
      let record : AppliedSchemaChange := ⟨recordId, info.name, changes, now / 1000, 0⟩
      let recorded := { node with
        changeHistory := node.changeHistory ++ [record]
        files := config.append node.files record }
      if config.mode = .auto then
        let (files, ok) :=
          config.save recorded.files { info.currentSpec with version := stored.version + 1 }
        ({ recorded with files }, ok)
      else (recorded, true)
  | .ok none =>
    let (files, ok) := config.save node.files info.currentSpec
    ({ node with files }, ok)

def revalidateModels (recordId : String → Uuid) (now : ℕ) :
    SchemaNode → List ModelInfo → SchemaNode × Bool
  | node, [] => (node, true)
  | node, info :: rest =>
    match node.revalidateModel config info (recordId info.name) now with
    | (node, false) => (node, false)
    | (node, true) => revalidateModels recordId now node rest

def handleAdminSchemaRevalidate (recordId : String → Uuid) (now : ℕ) :
    SchemaNode × RevalidateOutcome :=
  if node.lockStatus.isLocked now then (node, .blocked)
  else
    match revalidateModels config recordId now node config.models with
    | (node, false) => (node, .failed)
    | (node, true) => (node, .done)

/-- Set the lock and write it to its file. -/
def setLock (lockStatus : SchemaLockStatus) : SchemaNode :=
  { node with
    lockStatus
    files := (saveLockStatus config.accepts config.base config.json node.files lockStatus).1 }

/-- The schema that is stored for a model; one that cannot be read counts as none. -/
def storedSpec (info : ModelInfo) : Option ModelSpec :=
  match config.load node.files info.name with
  | .ok stored => stored
  | .error _ => none

/-- What the start of the server makes of one model. -/
def validateModel (info : ModelInfo) (changeId recordId : Uuid) (now : ℕ) : SchemaNode :=
  let nodeId := config.nodeId.getD 0
  match node.storedSpec config info with
  | some stored =>
    match SchemaChangeDetector.detectChanges config.toLowercase stored info.currentSpec with
    | [] =>
      if config.isCluster then
        { node with schemas := node.schemas.insert info.name info.currentSpec }
      else node
    | changes =>
      let pending := PendingSchemaChange.new changeId info.name nodeId changes info.currentSpec
        (some stored) now
      let record : AppliedSchemaChange := ⟨recordId, info.name, changes, now, nodeId⟩
      if node.lockStatus.isLocked now then node
      else if config.isCluster then
        match node.policy.strategyFor pending.overallStrategy with
        | .autoAccept =>
          { node with
            schemas := node.schemas.insert info.name info.currentSpec
            changeHistory := node.changeHistory ++ [record]
            files := (config.save (config.append node.files record) info.currentSpec).1 }
        | .reject => node
        | _ => { node with toSchemaSyncState := node.addPending pending }
      else
        match config.mode with
        | .strict | .warn => node
        | .auto =>
          match config.save node.files info.currentSpec with
          | (files, false) => { node with files }
          | (files, true) =>
            { node with
              changeHistory := node.changeHistory ++ [record]
              files := config.append files record }
        | .manual => { node with toSchemaSyncState := node.addPending pending }
  | none =>
    let saved := { node with files := (config.save node.files info.currentSpec).1 }
    if config.isCluster then
      { saved with schemas := node.schemas.insert info.name info.currentSpec }
    else saved

/-! ### What becomes of the schemas and the files -/

variable {config} {node} {change : PendingSchemaChange} {changeId : Uuid} {userId : String}
  {userName : Option String} {now : ℕ} {record : AppliedSchemaChange} {previous : ModelSpec}

theorem approve_of_waits (h : node.Waits changeId change) (userId : String)
    (userName : Option String) (now : ℕ) :
    (node.approve config changeId userId userName now).1 =
      ⟨node.resolve changeId
          (node.afterApproval (change.addHumanApproval userId userName now) config.totalNodes)
          ((change.addHumanApproval userId userName now).hasEnoughApprovals node.policy
            config.totalNodes),
        if (change.addHumanApproval userId userName now).hasEnoughApprovals node.policy
            config.totalNodes then (config.save node.files change.newSpec).1
        else node.files⟩ := by
  unfold approve SchemaSyncState.handleAdminSchemaApprove
  simp only [h.1, h.2, ne_eq, not_true_eq_false, if_false]
  split_ifs
  · rfl
  · rfl

theorem approve_of_not_waits (h : ∀ change, ¬ node.Waits changeId change) :
    (node.approve config changeId userId userName now).1 = node := by
  unfold approve SchemaSyncState.handleAdminSchemaApprove
  cases hlookup : node.pendingChanges.lookup changeId with
  | none => rfl
  | some change =>
    have hstatus : change.status ≠ .pending := fun hpending ↦ h change ⟨hlookup, hpending⟩
    simp only [hstatus, ne_eq, not_false_eq_true, if_true]

theorem approve_state :
    (node.approve config changeId userId userName now).1.toSchemaSyncState =
      (node.handleAdminSchemaApprove changeId userId userName config.totalNodes now).1 := by
  unfold approve
  dsimp only
  split
  · rfl
  · rfl

theorem schemas_approve_iff :
    (node.approve config changeId userId userName now).1.schemas = node.schemas ↔
      ∀ change, node.Waits changeId change →
        (change.addHumanApproval userId userName now).hasEnoughApprovals node.policy
            config.totalNodes = true →
          node.schemas.lookup change.modelName = some change.newSpec := by
  rw [approve_state]
  exact SchemaSyncState.schemas_approve_iff

/-- An approval writes the file of a schema that it completes. -/
theorem files_approve_iff :
    (node.approve config changeId userId userName now).1.files = node.files ↔
      ∀ change, node.Waits changeId change →
        (change.addHumanApproval userId userName now).hasEnoughApprovals node.policy
            config.totalNodes = true →
          (config.save node.files change.newSpec).1 = node.files := by
  by_cases h : ∃ change, node.Waits changeId change
  · obtain ⟨change, hwaits⟩ := h
    rw [approve_of_waits hwaits]
    dsimp only
    split_ifs with henough
    · exact ⟨fun hall other hother _ ↦ hwaits.unique hother ▸ hall,
        fun hall ↦ hall change hwaits henough⟩
    · refine iff_of_true rfl fun other hother hother' ↦ ?_
      exact absurd (hwaits.unique hother ▸ hother') henough
  · push Not at h
    rw [approve_of_not_waits h]
    exact iff_of_true rfl fun change hwaits ↦ absurd hwaits (h change)

/-- The history has a record under the id, and a change is there that has an old schema. -/
structure Revertible (node : SchemaNode) (changeId : Uuid) (record : AppliedSchemaChange)
    (previous : ModelSpec) : Prop where
  record : (node.changeHistory.find? fun record ↦ record.id = changeId) = some record
  previous : (node.pendingChanges.lookup changeId).bind PendingSchemaChange.oldSpec = some previous

theorem rollback_of_revertible (h : node.Revertible changeId record previous) :
    (node.handleAdminSchemaRollback config changeId).1 =
      { node with
        schemas := if (config.save node.files previous).2 then
          node.schemas.insert record.modelName previous else node.schemas
        files := (config.save node.files previous).1 } := by
  unfold handleAdminSchemaRollback
  rw [h.record]
  dsimp only
  rw [h.previous]
  dsimp only
  rcases config.save node.files previous with ⟨files, _ | _⟩
  · rfl
  · rfl

theorem rollback_of_not_revertible
    (h : ∀ record previous, ¬ node.Revertible changeId record previous) :
    (node.handleAdminSchemaRollback config changeId).1 = node := by
  unfold handleAdminSchemaRollback
  cases hrecord : node.changeHistory.find? fun record ↦ record.id = changeId with
  | none => rfl
  | some record =>
    dsimp only
    cases hprevious : (node.pendingChanges.lookup changeId).bind PendingSchemaChange.oldSpec with
    | none => rfl
    | some previous => exact absurd ⟨hrecord, hprevious⟩ (h record previous)

theorem Revertible.unique {other : AppliedSchemaChange} {before : ModelSpec}
    (h : node.Revertible changeId record previous)
    (hother : node.Revertible changeId other before) :
    record = other ∧ previous = before :=
  ⟨Option.some.inj (h.record.symm.trans hother.record),
    Option.some.inj (h.previous.symm.trans hother.previous)⟩

/-- What is said of all that a rollback goes back by is said of the one. -/
theorem Revertible.forall_iff {P : AppliedSchemaChange → ModelSpec → Prop}
    (h : node.Revertible changeId record previous) :
    (∀ other before, node.Revertible changeId other before → P other before) ↔
      P record previous := by
  constructor
  · intro hall
    exact hall record previous h
  · intro hrecord other before hother
    obtain ⟨rfl, rfl⟩ := h.unique hother
    exact hrecord

/-- A rollback leaves the schemas as they are unless it writes another schema. -/
theorem schemas_rollback_iff :
    (node.handleAdminSchemaRollback config changeId).1.schemas = node.schemas ↔
      ∀ record previous, node.Revertible changeId record previous →
        (config.save node.files previous).2 = true →
          node.schemas.lookup record.modelName = some previous := by
  by_cases h : ∃ record previous, node.Revertible changeId record previous
  · obtain ⟨record, previous, hrevertible⟩ := h
    have hinsert : (node.handleAdminSchemaRollback config changeId).1.schemas = node.schemas ↔
        ((config.save node.files previous).2 = true →
          node.schemas.lookup record.modelName = some previous) := by
      rw [rollback_of_revertible hrevertible]
      dsimp only
      split_ifs with hsaved
      · rw [SchemaSyncState.schemas_insert_eq_iff]
        exact ⟨fun h _ ↦ h, fun h ↦ h hsaved⟩
      · exact iff_of_true rfl fun h ↦ absurd h hsaved
    rw [hinsert, hrevertible.forall_iff]
  · push Not at h
    rw [rollback_of_not_revertible h]
    exact iff_of_true rfl fun record previous hrevertible ↦
      absurd hrevertible (h record previous)

theorem files_rollback_iff :
    (node.handleAdminSchemaRollback config changeId).1.files = node.files ↔
      ∀ record previous, node.Revertible changeId record previous →
        (config.save node.files previous).1 = node.files := by
  by_cases h : ∃ record previous, node.Revertible changeId record previous
  · obtain ⟨record, previous, hrevertible⟩ := h
    rw [rollback_of_revertible hrevertible, hrevertible.forall_iff]
  · push Not at h
    rw [rollback_of_not_revertible h]
    exact iff_of_true rfl fun record previous hrevertible ↦
      absurd hrevertible (h record previous)

theorem keepsRest_rollback :
    node.KeepsRest (node.handleAdminSchemaRollback config changeId).1.toSchemaSyncState := by
  by_cases h : ∃ record previous, node.Revertible changeId record previous
  · obtain ⟨record, previous, hrevertible⟩ := h
    rw [rollback_of_revertible hrevertible]
    exact ⟨rfl, rfl, rfl⟩
  · push Not at h
    rw [rollback_of_not_revertible h]
    exact .refl _

@[simp] theorem sync_fst : (node.handleAdminSchemaSync config).1 = node := by
  unfold handleAdminSchemaSync
  split_ifs
  · rfl
  · rfl

theorem revalidate_of_locked (recordId : String → Uuid) (h : node.lockStatus.isLocked now = true) :
    (node.handleAdminSchemaRevalidate config recordId now).1 = node := by
  unfold handleAdminSchemaRevalidate
  rw [if_pos h]

end SchemaNode

/-! ### Operations -/

inductive NodeAction
  | propose (change : PendingSchemaChange) (now : ℕ)
  | vote (request : VoteRequest) (now : ℕ)
  | approve (changeId : Uuid) (userId : String) (userName : Option String) (now : ℕ)
  | reject (changeId : Uuid) (reason : Option String) (now : ℕ)
  | sync (now : ℕ)
  | rollback (changeId : Uuid) (now : ℕ)
  | revalidate (recordId : String → Uuid) (now : ℕ)
  | lock (reason : Option String) (now : ℕ)
  | unlock (reason : Option String) (durationSecs : Option ℕ) (unlockedBy : Option String) (now : ℕ)
  | applyChange (changeId : Uuid) (appliedByNode now : ℕ)
  | validate (info : ModelInfo) (changeId recordId : Uuid) (now : ℕ)

namespace NodeAction

def now : NodeAction → ℕ
  | .propose _ now => now
  | .vote _ now => now
  | .approve _ _ _ now => now
  | .reject _ _ now => now
  | .sync now => now
  | .rollback _ now => now
  | .revalidate _ now => now
  | .lock _ now => now
  | .unlock _ _ _ now => now
  | .applyChange _ _ now => now
  | .validate _ _ _ now => now

/-- What an operation makes of a node. -/
def run (config : SchemaConfig) (node : SchemaNode) : NodeAction → SchemaNode
  | .propose change now =>
    { node with toSchemaSyncState := (node.handleSchemaPropose change now).1 }
  | .vote request now =>
    { node with toSchemaSyncState := (node.handleSchemaVote request config.totalNodes now).1 }
  | .approve changeId userId userName now =>
    (node.approve config changeId userId userName now).1
  | .reject changeId reason _ =>
    { node with toSchemaSyncState := (node.handleAdminSchemaReject changeId reason).1 }
  | .sync _ => (node.handleAdminSchemaSync config).1
  | .rollback changeId _ => (node.handleAdminSchemaRollback config changeId).1
  | .revalidate recordId now => (node.handleAdminSchemaRevalidate config recordId now).1
  | .lock reason _ => node.setLock config (.lock reason)
  | .unlock reason durationSecs unlockedBy now =>
    node.setLock config (.unlock reason durationSecs unlockedBy now)
  | .applyChange changeId appliedByNode now =>
    { node with toSchemaSyncState := (node.applyChange changeId appliedByNode now).1 }
  | .validate info changeId recordId now => node.validateModel config info changeId recordId now

end NodeAction

/-- A node of three. -/
def threeNodeConfig : SchemaConfig where
  accepts := anyName
  base := ["data"]
  json := productJson
  toLowercase := String.toLower
  mode := .warn
  clusterPeers := ["node2:8080", "node3:8080"]
  nodeId := some 1
  models := []

end Lithair.Schema
