import Lithair.App.InstallSnapshot
import Lithair.App.ModelRequest
import Lithair.App.ReplicateEndpoints
import Lithair.Cluster.Leadership
import Lithair.Cluster.SchemaSync

/-!
# The endpoints inside the cluster

The part of `handle_request` in `app/mod.rs` that takes the requests between nodes, under `/_raft/`
and `/internal/`, with every handler behind it: what a request makes of the consensus log, the
schemas and the storages of a node. Only the endpoints for heartbeats and for the leader ask for the
token of the cluster; the others do what they are asked by anyone.

`guarded_iff_idle` says which requests without a valid token leave the node as it is, endpoint by
endpoint.
-/

namespace Lithair.App

open Lithair.Cluster Lithair.Engine Lithair.Http Lithair.Lib Lithair.Lib.KeyedMap
open Lithair.Lib.Framing Lithair.Lib.OrderedList

/-! ### The node and its requests -/

/-- `RaftConfig`, as far as requests are checked against it. -/
structure RaftConfig where
  path : String
  authRequired : Bool
  authToken : Option String

namespace RaftConfig

def heartbeatPath (config : RaftConfig) : String := config.path ++ "/heartbeat"

def leaderPath (config : RaftConfig) : String := config.path ++ "/leader"

/-- The token is compared by its keyed hash, byte by byte. -/
def validateToken (hmac : List UInt8 → List UInt8 → List UInt8) (config : RaftConfig)
    (token : Option String) : Bool :=
  if config.authRequired then
    match config.authToken, token with
    | some expected, some provided =>
      let key := asBytes expected
      (((hmac key (asBytes provided)).zip (hmac key (asBytes expected))).foldl
        (fun acc pair ↦ acc ||| (pair.1 ^^^ pair.2)) 0) == 0
    | none, _ => true
    | some _, none => false
  else true

end RaftConfig

variable {models : List ModelRegistration} {Spec : Type}

/-- A node as the endpoints see it. It has a leadership state, a consensus log and a snapshot
manager only in a cluster. -/
structure InternalNode (models : List ModelRegistration) (Spec : Type) where
  raftState : Option RaftLeadershipState
  log : Option (ConsensusLog CrudOperation)
  states : ModelStates models
  manager : Option SnapshotManager
  schemas : SchemaSyncState Spec
  peers : ℕ

/-- A request from another node, or from anyone else: the token header, the headers of a snapshot,
the `target` in the query, and the body, unless reading it fails. -/
structure InternalRequest where
  method : Method
  path : String
  token : Option String
  snapshotTerm : Option ℕ
  snapshotIndex : Option ℕ
  snapshotChecksum : Option UInt64
  snapshotSize : Option ℕ
  target : Option String
  body : Option (List UInt8)

/-- The readers of the bodies, the serialisation, and the hashes. -/
structure InternalReaders (Spec : Type) where
  json : List UInt8 → Option Json
  appendEntries : List UInt8 → Option (AppendEntriesRequest CrudOperation)
  operation : List UInt8 → Option CrudOperation
  schemaChange : List UInt8 → Option (PendingSchemaChange Spec)
  vote : List UInt8 → Option VoteRequest
  serde : Serde
  codec : SnapshotCodec
  sha256 : List UInt8 → String
  hmac : List UInt8 → List UInt8 → List UInt8

/-- What the environment decides: the time, how each write to a model ends, how the files of a
snapshot are written, whether the migration manager takes each step, what the replication of an
entry ends with, and whether a follower is known and takes a snapshot. -/
structure InternalEnvironment where
  now : ℕ
  writes : ℕ → ℕ → Environment
  disk : DiskOutcome
  migration : ℕ → Bool
  replication : Except String ℕ
  knownFollower : Bool
  snapshotSent : Bool

/-- The endpoints. -/
inductive Endpoint
  | heartbeat | leader
  | replicate | replicateBulk | replicateUpdate | replicateDelete
  | append | getSnapshot | installSnapshot
  | health | resyncStats | migrate | syncStatus | forceResync
  | schemaPropose | schemaVote | schemaCurrent
  deriving DecidableEq

/-- The endpoints that have a path of their own. -/
def routes : List ((String × Method) × Endpoint) := [
  (("/internal/replicate", .post), .replicate),
  (("/internal/replicate_bulk", .post), .replicateBulk),
  (("/internal/replicate_update", .post), .replicateUpdate),
  (("/internal/replicate_delete", .post), .replicateDelete),
  (("/_raft/append", .post), .append),
  (("/_raft/snapshot", .get), .getSnapshot),
  (("/_raft/snapshot", .post), .installSnapshot),
  (("/_raft/health", .get), .health),
  (("/_raft/resync_stats", .get), .resyncStats),
  (("/_raft/migrate", .post), .migrate),
  (("/_raft/sync-status", .get), .syncStatus),
  (("/_raft/schema/propose", .post), .schemaPropose),
  (("/_raft/schema/vote", .post), .schemaVote),
  (("/_raft/schema/current", .get), .schemaCurrent)]

/-- The endpoint that takes a request, if it is one of them. -/
def endpoint (config : RaftConfig) (node : InternalNode models Spec) (method : Method)
    (path : String) : Option Endpoint :=
  if node.raftState.isSome ∧ path = config.heartbeatPath ∧ method = .post then some .heartbeat
  else if node.raftState.isSome ∧ path = config.leaderPath ∧ method = .get then some .leader
  else if startsWith path "/_raft/force-resync" ∧ method = .post then some .forceResync
  else routes.lookup (path, method)

/-! ### The handlers -/

/-- The status of an answer; a handler that fails has none. -/
abbrev Status := Option ℕ

section Handlers

variable (readers : InternalReaders Spec) (env : InternalEnvironment)
  (node : InternalNode models Spec) (req : InternalRequest)

/-- A heartbeat with a valid token; the body is read as far as it can be. -/
def handleHeartbeat : InternalNode models Spec × Status :=
  match node.raftState with
  | none => (node, some 200)
  | some state =>
    let state := state.updateHeartbeat env.now
    match readers.json (req.body.getD []) with
    | none => ({ node with raftState := some state }, some 200)
    | some heartbeat =>
      let leaderId := (((heartbeat.get "leader_id").bind Json.asU64).map UInt64.toNat).getD 0
      let leaderPort :=
        (((heartbeat.get "leader_port").bind Json.asU64).map UInt64.toNat).getD 0 % 2 ^ 16
      let state := if !state.isLeader && leaderId != state.currentLeaderId then
        .becomeFollower leaderId leaderPort env.now else state
      ({ node with raftState := some state }, some 200)

/-- One of the four handlers under `/internal/`. -/
def handleReplicated (read : Json → ReplicatedMessage models) :
    InternalNode models Spec × Status :=
  match req.body.bind readers.json with
  | none => (node, some 400)
  | some message =>
    let (states, status) :=
      applyReplicatedMessage readers.sha256 node.states (read message) (env.writes 0)
    ({ node with states }, some status)

/-- Apply an operation; the steps of a migration go to the migration manager. -/
def applyOperation (sha256 : List UInt8 → String) (states : ModelStates models)
    (operation : CrudOperation) (write : Environment) (migration : Bool) :
    Except String (ModelStates models) :=
  match applyCrudOperation sha256 states operation write with
  | some result => result
  | none => if migration then .ok states else .error "migration"

/-- Apply and mark unapplied entries up to the first that fails. -/
def applyUnapplied (sha256 : List UInt8 → String) (states : ModelStates models)
    (log : ConsensusLog CrudOperation) :
    List (LogEntry CrudOperation) → (ℕ → Environment) → (ℕ → Bool) →
      ModelStates models × ConsensusLog CrudOperation
  | [], _, _ => (states, log)
  | entry :: rest, writes, migration =>
    match applyOperation sha256 states entry.operation (writes 0) (migration 0) with
    | .error _ => (states, log)
    | .ok states =>
      applyUnapplied sha256 states (log.markApplied entry.index) rest
        (fun n ↦ writes (n + 1)) fun n ↦ migration (n + 1)

/-- What `handle_raft_append_entries` does with a request that it does not turn away. -/
def acceptAppend (sha256 : List UInt8 → String) (states : ModelStates models)
    (log : ConsensusLog CrudOperation) (request : AppendEntriesRequest CrudOperation)
    (writes : ℕ → Environment) (migration : ℕ → Bool) :
    ModelStates models × ConsensusLog CrudOperation :=
  let accepted := if log.currentTerm < request.term then log.setTerm request.term else log
  let stored := accepted.appendEntries request.entries request.leaderCommit
  applyUnapplied sha256 states stored stored.getUnappliedEntries writes migration

/-- `handle_raft_append_entries`, with no other handler beside it. -/
def handleRaftAppendEntries : InternalNode models Spec × Status :=
  match req.body with
  | none => (node, none)
  | some bytes =>
    match readers.appendEntries bytes with
    | none => (node, some 400)
    | some request =>
      match node.log with
      | none => (node, some 503)
      | some log =>
        if request.term < log.currentTerm then (node, some 200)
        else
          let (states, log) :=
            acceptAppend readers.sha256 node.states log request (env.writes 0) env.migration
          ({ node with
              raftState := node.raftState.map (RaftLeadershipState.updateHeartbeat · env.now)
              log := some log
              states },
            some 200)

/-- `handle_get_snapshot`: the current snapshot, if there is one and its data can be read. -/
def handleGetSnapshot : InternalNode models Spec × Status :=
  match node.manager with
  | none => (node, some 503)
  | some manager =>
    match manager.currentMeta with
    | none => (node, some 404)
    | some info =>
      (node, if info.lastIncludedIndex ∈ manager.dir.data then some 200 else some 500)

/-- The request as `handle_install_snapshot` reads it. -/
def InternalRequest.install (bytes : List UInt8) : InstallRequest where
  term := req.snapshotTerm
  lastIncludedIndex := req.snapshotIndex
  checksum := req.snapshotChecksum
  sizeBytes := req.snapshotSize
  body := bytes

/-- `handle_install_snapshot`; without a consensus log nothing is marked. -/
def handleSnapshot : InternalNode models Spec × Status :=
  match node.manager, req.body with
  | none, _ => (node, some 503)
  | some _, none => (node, some 400)
  | some manager, some bytes =>
    let install := req.install bytes
    let info := install.snapshotMeta env.now
    match manager.installSnapshot readers.codec info bytes env.disk with
    | (manager, .error _) => ({ node with manager := some manager }, some 500)
    | (manager, .ok data) =>
      ({ node with
          manager := some manager
          states := applySnapshotModels readers.serde readers.sha256 node.states data.models
            env.writes
          log := node.log.map fun log ↦
            (log.setTerm info.term).markApplied info.lastIncludedIndex },
        some 200)

/-- The four steps of a migration. -/
def isMigration : CrudOperation → Bool
  | .migrationBegin .. | .migrationStep .. | .migrationCommit .. | .migrationRollback .. => true
  | _ => false

/-- `handle_migrate_operation`; a node without a leadership state takes itself for the leader. -/
def handleMigrateOperation : InternalNode models Spec × Status :=
  if node.raftState.any fun state ↦ !state.isLeader then (node, some 307)
  else
    match req.body with
    | none => (node, none)
    | some bytes =>
      match readers.operation bytes with
      | none => (node, some 400)
      | some operation =>
        if isMigration operation = false then (node, some 400)
        else
          match node.log with
          | none => (node, if env.migration 0 then some 200 else some 500)
          | some log =>
            let (appended, _) := log.append operation env.now
            match env.replication with
            | .error _ => ({ node with log := some appended }, some 503)
            | .ok newCommit =>
              ({ node with log := some (appended.commit newCommit) },
                if env.migration 0 then some 200 else some 500)

/-- `handle_force_resync` only sends a snapshot to another node. -/
def handleForceResync : InternalNode models Spec × Status :=
  if node.raftState.all fun state ↦ !state.isLeader then (node, some 400)
  else if req.target.isNone then (node, some 400)
  else if env.knownFollower = false then (node, some 404)
  else (node, if env.snapshotSent then some 200 else some 500)

def handleSchemaPropose : InternalNode models Spec × Status :=
  match req.body with
  | none => (node, none)
  | some bytes =>
    match readers.schemaChange bytes with
    | none => (node, some 400)
    | some change => ({ node with schemas := node.schemas.propose change env.now }, some 200)

def handleSchemaVote : InternalNode models Spec × Status :=
  match req.body with
  | none => (node, none)
  | some bytes =>
    match readers.vote bytes with
    | none => (node, some 400)
    | some vote =>
      let (schemas, outcome) := node.schemas.vote vote (node.peers + 1) env.now
      ({ node with schemas },
        match outcome with
        | .notFound => some 404
        | .noLongerPending _ => some 409
        | .counted .. => some 200)

/-- The handler of an endpoint. Only two of them look at the token. -/
def handleEndpoint (name : Fin models.length → String) (config : RaftConfig) :
    Endpoint → InternalNode models Spec × Status
  | .heartbeat =>
    if config.validateToken readers.hmac req.token then handleHeartbeat readers env node req
    else (node, some 401)
  | .leader => (node, if config.validateToken readers.hmac req.token then some 200 else some 401)
  | .replicate => handleReplicated readers env node req (internalReplicate name)
  | .replicateBulk => handleReplicated readers env node req internalReplicateBulk
  | .replicateUpdate => handleReplicated readers env node req internalReplicateUpdate
  | .replicateDelete => handleReplicated readers env node req internalReplicateDelete
  | .append => handleRaftAppendEntries readers env node req
  | .getSnapshot => handleGetSnapshot node
  | .installSnapshot => handleSnapshot readers env node req
  | .migrate => handleMigrateOperation readers env node req
  | .forceResync => handleForceResync env node req
  | .schemaPropose => handleSchemaPropose readers env node req
  | .schemaVote => handleSchemaVote readers env node req
  | .health | .resyncStats | .syncStatus | .schemaCurrent => (node, some 200)

end Handlers

/-! ### What is meant to hold -/

/-- The consensus log with its term and indices, the schemas and the storages are the same. -/
structure Unchanged (node next : InternalNode models Spec) : Prop where
  log : next.log = node.log
  schemas : next.schemas.schemas = node.schemas.schemas
  storages : SameStorages node.states next.states

/-- When the token of the cluster is required, a request to an endpoint without it changes nothing
of the node. -/
def Guarded (readers : InternalReaders Spec) (env : InternalEnvironment)
    (name : Fin models.length → String) (config : RaftConfig) (node : InternalNode models Spec)
    (req : InternalRequest) : Prop :=
  config.authRequired = true → config.validateToken readers.hmac req.token = false →
    ∀ e, endpoint config node req.method req.path = some e →
      Unchanged node (handleEndpoint readers env node req name config e).1

/-- The models can apply the operation. -/
def Applicable (models : List ModelRegistration) (migration : Bool) : CrudOperation → Prop
  | .create modelPath data | .update modelPath _ data =>
    ∃ i, resolve models modelPath = some i ∧ Accepts (models.get i) data
  | .delete modelPath _ => ∃ i, resolve models modelPath = some i
  | .migrationBegin .. | .migrationStep .. | .migrationCommit .. | .migrationRollback .. =>
    migration = true

/-- A leader's request with nothing new in it: the term, the entries and the commit index are known,
and the next entry to apply, if any, cannot be applied. -/
structure NothingNew (models : List ModelRegistration) (migration : Bool)
    (log : ConsensusLog CrudOperation) (request : AppendEntriesRequest CrudOperation) : Prop where
  term : request.term = log.currentTerm
  entries : ∀ e ∈ request.entries, e.logId ∈ log.entries.map LogEntry.logId
  commit : request.leaderCommit ≤ log.commitIndex
  next : ∀ entry, log.getUnappliedEntries.head? = some entry →
    ¬ Applicable models migration entry.operation

/-- A message that asks for no write, or for one whose values are stored already. -/
def IdleMessage (readers : InternalReaders Spec) (node : InternalNode models Spec)
    (req : InternalRequest) (read : Json → ReplicatedMessage models) : Prop :=
  ∀ message, req.body.bind readers.json = some message → ∀ i write, read message = .ok (i, write) →
    write.IsIdle (models.get i).model (node.states i).storage

/-- The request asks for nothing that is not the case already. -/
def IsIdle (readers : InternalReaders Spec) (env : InternalEnvironment)
    (name : Fin models.length → String) (node : InternalNode models Spec) (req : InternalRequest) :
    Endpoint → Prop
  | .replicate => IdleMessage readers node req (internalReplicate name)
  | .replicateBulk => IdleMessage readers node req internalReplicateBulk
  | .replicateUpdate => IdleMessage readers node req internalReplicateUpdate
  | .replicateDelete => IdleMessage readers node req internalReplicateDelete
  | .append =>
    ∀ bytes, req.body = some bytes → ∀ request, readers.appendEntries bytes = some request →
      ∀ log, node.log = some log → log.currentTerm ≤ request.term →
        NothingNew models (env.migration 0) log request
  | .installSnapshot =>
    ∀ bytes, node.manager.isSome → req.body = some bytes →
      fnv1aHash bytes = req.snapshotChecksum.getD 0 →
      ∀ data, readers.codec.fromBytes bytes = .ok data → env.disk = .written →
        (∀ log, node.log = some log → req.snapshotTerm.getD 0 = log.currentTerm ∧
          req.snapshotIndex.getD 0 ≤ log.appliedIndex) ∧
        ∀ i, Holds (models.get i).model.actualKey
          (data.models.filterMap (mergedItems readers.serde i)).flatten (node.states i).storage
  | .migrate =>
    (∀ state, node.raftState = some state → state.isLeader = true) →
      ∀ bytes, req.body = some bytes → ∀ operation, readers.operation bytes = some operation →
        isMigration operation = true → node.log = none
  | .schemaPropose =>
    ∀ bytes, req.body = some bytes → ∀ change, readers.schemaChange bytes = some change →
      node.schemas.policy.strategyFor change.overallStrategy = .autoAccept →
        node.schemas.schemas.lookup change.modelName = some change.newSpec
  | .schemaVote =>
    ∀ bytes, req.body = some bytes → ∀ vote, readers.vote bytes = some vote →
      ∀ change, node.schemas.Decides vote (node.peers + 1) env.now change →
        node.schemas.schemas.lookup change.modelName = some change.newSpec
  | _ => True

/-! ### The replicated writes and the log -/

theorem unchanged_refl (node : InternalNode models Spec) : Unchanged node node :=
  ⟨rfl, rfl, sameStorages_refl node.states⟩

section Endpoints

variable {readers : InternalReaders Spec} {env : InternalEnvironment}
  {node : InternalNode models Spec} {req : InternalRequest}

theorem unchanged_handleReplicated_iff {read : Json → ReplicatedMessage models} :
    Unchanged node (handleReplicated readers env node req read).1 ↔
      IdleMessage readers node req read := by
  unfold handleReplicated IdleMessage
  cases req.body.bind readers.json with
  | none => exact iff_of_true (unchanged_refl node) (by simp)
  | some message =>
    simp only [Option.some.injEq, forall_eq']
    have hstorages : SameStorages node.states
        (applyReplicatedMessage readers.sha256 node.states (read message) (env.writes 0)).1 ↔ _ :=
      storages_applyReplicatedMessage_iff
    rw [← hstorages]
    exact ⟨fun h ↦ h.storages, fun h ↦ ⟨rfl, rfl, h⟩⟩

section Apply

variable {sha256 : List UInt8 → String} {states : ModelStates models}

theorem applyOperation_isOk_iff {operation : CrudOperation} {write : Environment}
    {migration : Bool} :
    (∃ next, applyOperation sha256 states operation write migration = .ok next) ↔
      Applicable models migration operation := by
  have hwrite : ∀ {result : Except String (ModelStates models)},
      applyCrudOperation sha256 states operation write = some result →
      ((∃ next, applyOperation sha256 states operation write migration = .ok next) ↔
        ∃ next, applyCrudOperation sha256 states operation write = some (.ok next)) := by
    intro result h
    unfold applyOperation
    rw [h]
    simp only [Option.some.injEq]
  cases operation with
  | create modelPath data =>
    rw [hwrite rfl]
    cases hi : resolve models modelPath with
    | none => simp [Applicable, applyCrudOperation, onModel, hi]
    | some i =>
      rw [apply_create_iff hi]
      simp [Applicable, hi]
  | update modelPath id data =>
    rw [hwrite rfl]
    cases hi : resolve models modelPath with
    | none => simp [Applicable, applyCrudOperation, onModel, hi]
    | some i =>
      rw [apply_update_iff hi]
      simp [Applicable, hi]
  | delete modelPath id =>
    rw [hwrite rfl]
    cases hi : resolve models modelPath with
    | none => simp [Applicable, applyCrudOperation, onModel, hi]
    | some i => exact iff_of_true (apply_delete hi id) ⟨i, hi⟩
  | migrationBegin | migrationStep | migrationCommit | migrationRollback =>
    unfold applyOperation applyCrudOperation Applicable
    cases migration with
    | false => simp
    | true => simp

/-- Applying entries raises the applied index and leaves the rest of the log alone. -/
theorem applyUnapplied_log (states : ModelStates models) (log : ConsensusLog CrudOperation)
    (entries : List (LogEntry CrudOperation)) (writes : ℕ → Environment) (migration : ℕ → Bool) :
    ∃ appliedIndex, log.appliedIndex ≤ appliedIndex ∧
      (applyUnapplied sha256 states log entries writes migration).2 =
        { log with appliedIndex } := by
  induction entries generalizing states log writes migration with
  | nil => exact ⟨log.appliedIndex, le_rfl, rfl⟩
  | cons entry rest ih =>
    unfold applyUnapplied
    cases applyOperation sha256 states entry.operation (writes 0) (migration 0) with
    | error message => exact ⟨log.appliedIndex, le_rfl, rfl⟩
    | ok next =>
      obtain ⟨appliedIndex, hle, hlog⟩ := ih next (log.markApplied entry.index)
        (fun n ↦ writes (n + 1)) fun n ↦ migration (n + 1)
      exact ⟨appliedIndex, (le_max_left _ _).trans hle, hlog⟩

/-- When the first entry is applied, it is marked. -/
theorem index_le_applyUnapplied {entry : LogEntry CrudOperation}
    {rest : List (LogEntry CrudOperation)} {writes : ℕ → Environment} {migration : ℕ → Bool}
    (h : Applicable models (migration 0) entry.operation) (log : ConsensusLog CrudOperation) :
    entry.index ≤
      (applyUnapplied sha256 states log (entry :: rest) writes migration).2.appliedIndex := by
  obtain ⟨next, hnext⟩ : ∃ next,
      applyOperation sha256 states entry.operation (writes 0) (migration 0) = .ok next :=
    applyOperation_isOk_iff.mpr h
  obtain ⟨appliedIndex, hle, hlog⟩ : ∃ appliedIndex,
      (log.markApplied entry.index).appliedIndex ≤ appliedIndex ∧
        (applyUnapplied sha256 next (log.markApplied entry.index) rest (fun n ↦ writes (n + 1))
          fun n ↦ migration (n + 1)).2 = { log.markApplied entry.index with appliedIndex } :=
    applyUnapplied_log next _ rest _ _
  unfold applyUnapplied
  rw [hnext]
  dsimp only
  rw [hlog]
  exact (le_max_right _ _).trans hle

/-- When the first entry cannot be applied, nothing happens. -/
theorem applyUnapplied_of_head {entries : List (LogEntry CrudOperation)}
    {writes : ℕ → Environment} {migration : ℕ → Bool} {log : ConsensusLog CrudOperation}
    (h : ∀ entry, entries.head? = some entry → ¬ Applicable models (migration 0) entry.operation) :
    applyUnapplied sha256 states log entries writes migration = (states, log) := by
  cases entries with
  | nil => rfl
  | cons entry rest =>
    unfold applyUnapplied
    cases hnext : applyOperation sha256 states entry.operation (writes 0) (migration 0) with
    | error message => rfl
    | ok next => exact absurd (applyOperation_isOk_iff.mp ⟨next, hnext⟩) (h entry rfl)

end Apply

/-! ### The append endpoint -/

theorem foldl_storeEntry_eq_self_iff {received entries : List (LogEntry CrudOperation)} :
    received.foldl ConsensusLog.storeEntry entries = entries ↔
      ∀ e ∈ received, e.logId ∈ entries.map LogEntry.logId := by
  constructor
  · intro h e he
    have hheld : e.logId ∈
        (received.foldl ConsensusLog.storeEntry entries).map LogEntry.logId :=
      ConsensusLog.logId_mem_foldl_storeEntry he
    rwa [h] at hheld
  · intro h
    induction received with
    | nil => rfl
    | cons e rest ih =>
      rw [List.foldl_cons, ConsensusLog.storeEntry_eq, if_pos (h e List.mem_cons_self)]
      exact ih fun e he ↦ h e (List.mem_cons_of_mem _ he)

/-- The first unapplied entry is the one after the applied index. -/
theorem index_head_unapplied {log : ConsensusLog CrudOperation}
    {entry : LogEntry CrudOperation} {rest : List (LogEntry CrudOperation)}
    (h : log.getUnappliedEntries = entry :: rest) : entry.index = log.appliedIndex + 1 := by
  have hnumbered : NumberedFrom LogEntry.index (log.appliedIndex + 1) log.getUnappliedEntries :=
    ConsensusLog.numberedFrom_unappliedBetween _ _ _
  rw [h] at hnumbered
  exact hnumbered.1

/-- The log with the term, the entries and the commit index of a request taken over. -/
def takenOver (log : ConsensusLog CrudOperation) (request : AppendEntriesRequest CrudOperation) :
    ConsensusLog CrudOperation :=
  { log with
    currentTerm := request.term
    entries := request.entries.foldl ConsensusLog.storeEntry log.entries
    commitIndex := max log.commitIndex request.leaderCommit }

theorem takenOver_eq_self_iff {log : ConsensusLog CrudOperation}
    {request : AppendEntriesRequest CrudOperation} :
    takenOver log request = log ↔
      request.term = log.currentTerm ∧
        (∀ e ∈ request.entries, e.logId ∈ log.entries.map LogEntry.logId) ∧
        request.leaderCommit ≤ log.commitIndex := by
  obtain ⟨term, nextIndex, commitIndex, entries, appliedIndex⟩ := log
  unfold takenOver
  simp only [ConsensusLog.mk.injEq, true_and, and_true, foldl_storeEntry_eq_self_iff,
    max_eq_left_iff]
  tauto

section Accept

variable {sha256 : List UInt8 → String} {states : ModelStates models}
  {log : ConsensusLog CrudOperation} {request : AppendEntriesRequest CrudOperation}
  {writes : ℕ → Environment} {migration : ℕ → Bool}

theorem acceptAppend_eq (hterm : log.currentTerm ≤ request.term) :
    acceptAppend sha256 states log request writes migration =
      applyUnapplied sha256 states (takenOver log request)
        (takenOver log request).getUnappliedEntries writes migration := by
  unfold acceptAppend
  split_ifs with hlt
  · rfl
  · have hsame : log.currentTerm = request.term := le_antisymm hterm (not_lt.mp hlt)
    have hlog : log.appendEntries request.entries request.leaderCommit = takenOver log request := by
      unfold takenOver
      rw [← hsame]
      rfl
    rw [← hlog]

/-- A request that is not turned away leaves the log and the storages as they are exactly when there
is nothing new in it. -/
theorem acceptAppend_unchanged_iff (hterm : log.currentTerm ≤ request.term) :
    (acceptAppend sha256 states log request writes migration).2 = log ∧
        SameStorages states (acceptAppend sha256 states log request writes migration).1 ↔
      NothingNew models (migration 0) log request := by
  rw [acceptAppend_eq hterm]
  constructor
  · rintro ⟨hlog, -⟩
    have hstored : takenOver log request = log := by
      obtain ⟨appliedIndex, -, happlied⟩ := applyUnapplied_log states (takenOver log request)
        (takenOver log request).getUnappliedEntries writes migration
      rw [happlied] at hlog
      have hindex : appliedIndex = log.appliedIndex := congrArg ConsensusLog.appliedIndex hlog
      rw [hindex] at hlog
      exact hlog
    rw [hstored] at hlog
    obtain ⟨hsame, hentries, hcommit⟩ := takenOver_eq_self_iff.mp hstored
    refine ⟨hsame, hentries, hcommit, fun entry hentry happlicable ↦ ?_⟩
    obtain ⟨rest, hrest⟩ := List.head?_eq_some_iff.mp hentry
    have hmarked : entry.index ≤ (applyUnapplied sha256 states log (entry :: rest) writes
        migration).2.appliedIndex := index_le_applyUnapplied happlicable log
    rw [← hrest, hlog, index_head_unapplied hrest] at hmarked
    omega
  · rintro ⟨hsame, hentries, hcommit, hnext⟩
    rw [takenOver_eq_self_iff.mpr ⟨hsame, hentries, hcommit⟩, applyUnapplied_of_head hnext]
    exact ⟨rfl, sameStorages_refl states⟩

end Accept

/-- The append endpoint changes nothing exactly when it turns the request away or finds nothing new
in it. -/
theorem unchanged_handleRaftAppendEntries_iff :
    Unchanged node (handleRaftAppendEntries readers env node req).1 ↔
      ∀ bytes, req.body = some bytes → ∀ request, readers.appendEntries bytes = some request →
        ∀ log, node.log = some log → log.currentTerm ≤ request.term →
          NothingNew models (env.migration 0) log request := by
  unfold handleRaftAppendEntries
  cases hbody : req.body with
  | none => exact iff_of_true (unchanged_refl node) (by simp)
  | some bytes =>
    simp only [Option.some.injEq, forall_eq']
    cases hrequest : readers.appendEntries bytes with
    | none => exact iff_of_true (unchanged_refl node) (by simp)
    | some request =>
      simp only [Option.some.injEq, forall_eq']
      cases hlog : node.log with
      | none => exact iff_of_true (unchanged_refl node) (by simp)
      | some log =>
        simp only [Option.some.injEq, forall_eq']
        split_ifs with hterm
        · exact iff_of_true (unchanged_refl node) fun h ↦ absurd hterm (not_lt.mpr h)
        · rw [forall_prop_of_true (not_lt.mp hterm),
            ← acceptAppend_unchanged_iff (not_lt.mp hterm)]
          constructor
          · intro h
            have hsame : some _ = node.log := h.log
            rw [hlog, Option.some.injEq] at hsame
            exact ⟨hsame, h.storages⟩
          · rintro ⟨hsame, hstorages⟩
            refine ⟨?_, rfl, hstorages⟩
            dsimp only
            rw [hsame, hlog]

/-! ### The other endpoints -/

theorem unchanged_handleForceResync : Unchanged node (handleForceResync env node req).1 := by
  unfold handleForceResync
  split_ifs <;> exact unchanged_refl node

theorem unchanged_handleGetSnapshot : Unchanged node (handleGetSnapshot node).1 := by
  unfold handleGetSnapshot
  split
  · exact unchanged_refl node
  · split <;> exact unchanged_refl node

theorem unchanged_handleSchemaPropose_iff :
    Unchanged node (handleSchemaPropose readers env node req).1 ↔
      ∀ bytes, req.body = some bytes → ∀ change, readers.schemaChange bytes = some change →
        node.schemas.policy.strategyFor change.overallStrategy = .autoAccept →
          node.schemas.schemas.lookup change.modelName = some change.newSpec := by
  unfold handleSchemaPropose
  cases hbody : req.body with
  | none => exact iff_of_true (unchanged_refl node) (by simp)
  | some bytes =>
    simp only [Option.some.injEq, forall_eq']
    cases hchange : readers.schemaChange bytes with
    | none => exact iff_of_true (unchanged_refl node) (by simp)
    | some change =>
      simp only [Option.some.injEq, forall_eq']
      have hschemas : (node.schemas.propose change env.now).schemas = node.schemas.schemas ↔ _ :=
        SchemaSyncState.schemas_propose_eq_iff
      rw [← hschemas]
      exact ⟨fun h ↦ h.schemas, fun h ↦ ⟨rfl, h, sameStorages_refl node.states⟩⟩

theorem unchanged_handleSchemaVote_iff :
    Unchanged node (handleSchemaVote readers env node req).1 ↔
      ∀ bytes, req.body = some bytes → ∀ vote, readers.vote bytes = some vote →
        ∀ change, node.schemas.Decides vote (node.peers + 1) env.now change →
          node.schemas.schemas.lookup change.modelName = some change.newSpec := by
  unfold handleSchemaVote
  cases hbody : req.body with
  | none => exact iff_of_true (unchanged_refl node) (by simp)
  | some bytes =>
    simp only [Option.some.injEq, forall_eq']
    cases hvote : readers.vote bytes with
    | none => exact iff_of_true (unchanged_refl node) (by simp)
    | some vote =>
      simp only [Option.some.injEq, forall_eq']
      rw [← SchemaSyncState.schemas_vote_eq_iff]
      exact ⟨fun h ↦ h.schemas, fun h ↦ ⟨rfl, h, sameStorages_refl node.states⟩⟩

theorem unchanged_handleMigrateOperation_iff :
    Unchanged node (handleMigrateOperation readers env node req).1 ↔
      ((∀ state, node.raftState = some state → state.isLeader = true) →
        ∀ bytes, req.body = some bytes → ∀ operation, readers.operation bytes = some operation →
          isMigration operation = true → node.log = none) := by
  unfold handleMigrateOperation
  have hleads : (node.raftState.any fun state ↦ !state.isLeader) = true ↔
      ¬ ∀ state, node.raftState = some state → state.isLeader = true := by
    cases node.raftState with
    | none => simp
    | some state => simp
  by_cases hleader : ∀ state, node.raftState = some state → state.isLeader = true
  · rw [if_neg fun h ↦ hleads.mp h hleader, forall_prop_of_true hleader]
    cases hbody : req.body with
    | none => exact iff_of_true (unchanged_refl node) (by simp)
    | some bytes =>
      simp only [Option.some.injEq, forall_eq']
      cases hoperation : readers.operation bytes with
      | none => exact iff_of_true (unchanged_refl node) (by simp)
      | some operation =>
        simp only [Option.some.injEq, forall_eq']
        by_cases hmigration : isMigration operation = false
        · rw [if_pos hmigration]
          exact iff_of_true (unchanged_refl node) (by simp [hmigration])
        · rw [if_neg hmigration, forall_prop_of_true (Bool.not_eq_false _ ▸ hmigration)]
          cases hlog : node.log with
          | none => exact iff_of_true (unchanged_refl node) rfl
          | some log =>
            refine iff_of_false (fun h ↦ ?_) (by simp)
            have hlonger : log.nextIndex + 1 = log.nextIndex := by
              have hsame := h.log
              rw [hlog] at hsame
              cases hreplication : env.replication with
              | error message =>
                rw [hreplication] at hsame
                exact congrArg ConsensusLog.nextIndex (Option.some.inj hsame)
              | ok newCommit =>
                rw [hreplication] at hsame
                exact congrArg ConsensusLog.nextIndex (Option.some.inj hsame)
            omega
  · rw [if_pos (hleads.mpr hleader)]
    exact iff_of_true (unchanged_refl node) fun h ↦ absurd h hleader

theorem markApplied_setTerm_eq_iff {log : ConsensusLog CrudOperation} {term index : ℕ} :
    (log.setTerm term).markApplied index = log ↔
      term = log.currentTerm ∧ index ≤ log.appliedIndex := by
  obtain ⟨currentTerm, nextIndex, commitIndex, entries, appliedIndex⟩ := log
  unfold ConsensusLog.setTerm ConsensusLog.markApplied
  simp only [ConsensusLog.mk.injEq, true_and, max_eq_left_iff]

theorem sameStorages_applySnapshotModels_iff {serde : Serde} {sha256 : List UInt8 → String}
    {states : ModelStates models} {entries : List (String × String)}
    {writes : ℕ → ℕ → Environment} :
    SameStorages states (applySnapshotModels serde sha256 states entries writes) ↔
      ∀ i, Holds (models.get i).model.actualKey (entries.filterMap (mergedItems serde i)).flatten
        (states i).storage := by
  unfold SameStorages
  simp only [storage_applySnapshotModels, insertAll_eq_self_iff]

/-- What an accepted snapshot leaves as it is. -/
theorem unchanged_installed_iff {manager : SnapshotManager} {term index : ℕ}
    {entries : List (String × String)} :
    Unchanged node { node with
        manager := some manager
        states := applySnapshotModels readers.serde readers.sha256 node.states entries env.writes
        log := node.log.map fun log ↦ (log.setTerm term).markApplied index } ↔
      (∀ log, node.log = some log → term = log.currentTerm ∧ index ≤ log.appliedIndex) ∧
        ∀ i, Holds (models.get i).model.actualKey
          (entries.filterMap (mergedItems readers.serde i)).flatten (node.states i).storage := by
  have hstorages : SameStorages node.states (applySnapshotModels readers.serde readers.sha256
      node.states entries env.writes) ↔ _ := sameStorages_applySnapshotModels_iff
  have hlog : (node.log.map fun log ↦ (log.setTerm term).markApplied index) = node.log ↔
      ∀ log, node.log = some log → term = log.currentTerm ∧ index ≤ log.appliedIndex := by
    cases node.log with
    | none => simp
    | some log =>
      rw [Option.map_some, Option.some.injEq, markApplied_setTerm_eq_iff]
      simp only [Option.some.injEq, forall_eq']
  rw [← hstorages, ← hlog]
  exact ⟨fun h ↦ ⟨h.log, h.storages⟩, fun h ↦ ⟨h.1, rfl, h.2⟩⟩

theorem unchanged_handleSnapshot_iff :
    Unchanged node (handleSnapshot readers env node req).1 ↔
      ∀ bytes, node.manager.isSome → req.body = some bytes →
        fnv1aHash bytes = req.snapshotChecksum.getD 0 →
        ∀ data, readers.codec.fromBytes bytes = .ok data → env.disk = .written →
          (∀ log, node.log = some log → req.snapshotTerm.getD 0 = log.currentTerm ∧
            req.snapshotIndex.getD 0 ≤ log.appliedIndex) ∧
          ∀ i, Holds (models.get i).model.actualKey
            (data.models.filterMap (mergedItems readers.serde i)).flatten
            (node.states i).storage := by
  have hkept : ∀ manager, Unchanged node { node with manager := some manager } :=
    fun manager ↦ ⟨rfl, rfl, sameStorages_refl node.states⟩
  unfold handleSnapshot
  cases hmanager : node.manager with
  | none => exact iff_of_true (unchanged_refl node) (by simp)
  | some manager =>
    cases hbody : req.body with
    | none => exact iff_of_true (unchanged_refl node) (by simp)
    | some bytes =>
      simp only [Option.isSome_some, forall_true_left, Option.some.injEq, forall_eq']
      unfold SnapshotManager.installSnapshot
      by_cases hchecksum : fnv1aHash bytes = req.snapshotChecksum.getD 0
      · have hpasses : ¬ fnv1aHash bytes ≠
            ((req.install bytes).snapshotMeta env.now).checksum := not_not.mpr hchecksum
        rw [if_neg hpasses, forall_prop_of_true hchecksum]
        cases hdata : readers.codec.fromBytes bytes with
        | error message => exact iff_of_true (hkept manager) (by simp)
        | ok data =>
          simp only [Except.ok.injEq, forall_eq']
          cases hdisk : env.disk with
          | failed left message => exact iff_of_true (hkept _) (by simp)
          | written =>
            simp only [forall_true_left]
            exact unchanged_installed_iff
      · have hfails : fnv1aHash bytes ≠
            ((req.install bytes).snapshotMeta env.now).checksum := hchecksum
        rw [if_pos hfails]
        exact iff_of_true (hkept manager) fun h ↦ absurd h hchecksum

end Endpoints

/-- For every node, configuration and request: without a token that is valid, a request to an
endpoint leaves the log, the schemas and the storages alone exactly when it asks for nothing that is
not the case already. -/
theorem guarded_iff_idle (readers : InternalReaders Spec) (env : InternalEnvironment)
    (name : Fin models.length → String) (config : RaftConfig) (node : InternalNode models Spec)
    (req : InternalRequest) :
    Guarded readers env name config node req ↔
      (config.authRequired = true → config.validateToken readers.hmac req.token = false →
        ∀ e, endpoint config node req.method req.path = some e →
          IsIdle readers env name node req e) := by
  unfold Guarded
  refine forall₄_congr fun _ htoken e _ ↦ ?_
  unfold handleEndpoint IsIdle
  cases e with
  | heartbeat =>
    dsimp only
    rw [htoken]
    exact iff_of_true (unchanged_refl node) trivial
  | replicate | replicateBulk | replicateUpdate | replicateDelete =>
    exact unchanged_handleReplicated_iff
  | append => exact unchanged_handleRaftAppendEntries_iff
  | installSnapshot => exact unchanged_handleSnapshot_iff
  | migrate => exact unchanged_handleMigrateOperation_iff
  | schemaPropose => exact unchanged_handleSchemaPropose_iff
  | schemaVote => exact unchanged_handleSchemaVote_iff
  | forceResync => exact iff_of_true unchanged_handleForceResync trivial
  | getSnapshot => exact iff_of_true unchanged_handleGetSnapshot trivial
  | leader | health | resyncStats | syncStatus | schemaCurrent =>
    exact iff_of_true (unchanged_refl node) trivial

/-! ### A write without the token -/

section WithoutToken

/-- A cluster with a token. -/
def tokenConfig : RaftConfig := ⟨"/raft", true, some "secret"⟩

/-- Readers that know one message, which brings the shelf `a`. -/
def shelfReaders : InternalReaders Unit where
  json := fun bytes ↦
    if bytes = [1] then some (.object [("data", .object [("id", .string "a")])]) else none
  appendEntries := fun _ ↦ none
  operation := fun _ ↦ none
  schemaChange := fun _ ↦ none
  vote := fun _ ↦ none
  serde := shelfSerde
  codec := shelfCodec
  sha256 := fun _ ↦ ""
  hmac := fun key message ↦ key ++ message

/-- A node of a cluster without shelves. -/
def emptyNode : InternalNode shelves Unit where
  raftState := some (.becomeFollower 0 8080 0)
  log := some .new
  states := noShelves
  manager := none
  schemas := ⟨∅, ∅, .default⟩
  peers := 2

/-- An environment in which everything succeeds. -/
def calmEnvironment : InternalEnvironment where
  now := 0
  writes := fun _ _ ↦ quietEnvironment
  disk := .written
  migration := fun _ ↦ true
  replication := .ok 0
  knownFollower := true
  snapshotSent := true

/-- The message, sent without a token. -/
def anonymousReplicate : InternalRequest where
  method := .post
  path := "/internal/replicate"
  token := none
  snapshotTerm := none
  snapshotIndex := none
  snapshotChecksum := none
  snapshotSize := none
  target := none
  body := some [1]

/-- The shelf is stored. -/
theorem anonymous_replicate_writes :
    ¬ Guarded shelfReaders calmEnvironment (fun _ ↦ "Shelf") tokenConfig emptyNode
      anonymousReplicate := by
  intro h
  have hunchanged := h rfl rfl .replicate rfl
  have hidle : IdleMessage shelfReaders emptyNode anonymousReplicate
      (internalReplicate fun _ ↦ "Shelf") := unchanged_handleReplicated_iff.mp hunchanged
  have hstored : (∅ : Storage Shelf).lookup "a" = some .a :=
    hidle _ rfl ⟨0, Nat.one_pos⟩ (.item (.object [("id", .string "a")])) rfl .a rfl
  rw [Finmap.lookup_empty] at hstored
  exact absurd hstored (by simp)

end WithoutToken

end Lithair.App
