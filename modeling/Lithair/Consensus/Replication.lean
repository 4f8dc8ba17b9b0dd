import Lithair.App.ReplicateEndpoints
import Lithair.Http.ClientWrites

/-!
# Writes that go to the peers

`consensus/mod.rs`: what the handler of a model proposes to the consensus, the message that
`replicate_operation` makes of it, and what the message does at the peers, which take it at
`/internal/replicate`. A message is sent again until it gets there, at once or from the queue; it is
the environment that decides which peers it reaches. The coordinator's own log, and the time and the
node that stand in a message, have no effect at a peer.

`sameStorages_proposeTo_iff` says when a proposal that is accepted leaves the storages of the peers
as they are.
-/

namespace Lithair.Consensus

open Lithair.App Lithair.Http Lithair.Lib

/-- An operation that is replicated. -/
inductive CrudOperation (T : Type)
  | create (item : T) (primaryKey : String)
  | update (item : T) (primaryKey : String)
  | delete (primaryKey : String)

/-- An operation with its model, the time and the node that sends it. -/
structure LithairAppData (T : Type) where
  operation : CrudOperation T
  modelType : String
  timestamp : UInt64
  nodeId : UInt64

section Message

variable {T : Type} (M : HttpExposable T)

/-- The value of an operation, unless its item has none. -/
def CrudOperation.toValue : CrudOperation T → Option Json
  | .create item primaryKey =>
    (M.toValue item).map fun item ↦
      .object [("Create", .object [("item", item), ("primary_key", .string primaryKey)])]
  | .update item primaryKey =>
    (M.toValue item).map fun item ↦
      .object [("Update", .object [("item", item), ("primary_key", .string primaryKey)])]
  | .delete primaryKey => some (.object [("Delete", .object [("primary_key", .string primaryKey)])])

/-- The message to the peers. -/
def LithairAppData.toValue (data : LithairAppData T) : Option Json :=
  (data.operation.toValue M).map fun operation ↦
    .object [("model_type", .string data.modelType), ("node_id", .number (.posInt data.nodeId)),
      ("operation", operation), ("timestamp", .number (.posInt data.timestamp))]

/-- What an operation asks a peer for. -/
def CrudOperation.write : CrudOperation T → Option ReplicatedWrite
  | .create item _ => (M.toValue item).map .item
  | .update item primaryKey => (M.toValue item).map (.update primaryKey)
  | .delete primaryKey => some (.delete primaryKey)

end Message

/-- A node as it sends to its peers: the group of its model, its number, and the names under which
the peers have their models registered. -/
structure Coordinator (models : List ModelRegistration) where
  consensusGroup : String
  nodeId : UInt64
  name : Fin models.length → String

/-- The models at each of the peers. -/
abbrev Peers (models : List ModelRegistration) (peers : ℕ) := Fin peers → ModelStates models

/-- What the environment decides about a proposal: beside what it decides about the write itself,
the time, and which peers the message reaches, each with an environment of its own. -/
structure ProposalEnvironment (peers : ℕ) extends Environment where
  timestamp : UInt64
  reached : Fin peers → Option (ℕ → Environment)

variable {models : List ModelRegistration} {peers : ℕ} {T : Type} (M : HttpExposable T)
  (sha256 : List UInt8 → String) (coordinator : Coordinator models)

/-- Send an operation to the peers. -/
def replicateOperation (nodes : Peers models peers) (data : LithairAppData T)
    (reached : Fin peers → Option (ℕ → Environment)) : Peers models peers :=
  match data.toValue M with
  | none => nodes
  | some message => fun peer ↦
    match reached peer with
    | none => nodes peer
    | some env =>
      (applyReplicatedMessage sha256 (nodes peer)
        (internalReplicate coordinator.name message) env).1

/-- Propose an operation. It goes to the peers once it is accepted, before the node itself applies
it. -/
def proposeTo (config : HandlerConfig) (nodes : Peers models peers) (operation : CrudOperation T)
    (env : ProposalEnvironment peers) : Peers models peers :=
  if config.consensus then
    match env.proposal with
    | .ok () =>
      replicateOperation M sha256 coordinator nodes
        ⟨operation, coordinator.consensusGroup, env.timestamp, coordinator.nodeId⟩ env.reached
    | .error _ => nodes
  else nodes

/-- Propose the operation of a request, if the request passes its checks. -/
def proposeChecked {α : Type} (config : HandlerConfig) (nodes : Peers models peers)
    (checked : Except (Response T) α) (operation : α → CrudOperation T)
    (env : ProposalEnvironment peers) : Peers models peers :=
  match checked with
  | .error _ => nodes
  | .ok a => proposeTo M sha256 coordinator config nodes (operation a) env

/-- The storages of all peers are the same. -/
def SamePeers (nodes next : Peers models peers) : Prop :=
  ∀ peer, SameStorages (nodes peer) (next peer)

/-- Every peer that a proposal reaches has already what the operation would put there. -/
def PeersHaveIt (config : HandlerConfig) (nodes : Peers models peers)
    (operation : CrudOperation T) (env : ProposalEnvironment peers) : Prop :=
  config.consensus = true → ∀ peer, (env.reached peer).isSome →
    ∀ i, modelByType coordinator.name coordinator.consensusGroup = some i →
      ∀ write, operation.write M = some write →
        write.IsIdle (models.get i).model (nodes peer i).storage

variable {M sha256 coordinator} {config : HandlerConfig} {nodes : Peers models peers}
  {operation : CrudOperation T} {env : ProposalEnvironment peers}

theorem samePeers_refl : SamePeers nodes nodes := fun _ ↦ sameStorages_refl _

/-- A peer reads a message as the operation, for the model of the group. -/
theorem internalReplicate_toValue (coordinator : Coordinator models) {data : LithairAppData T}
    {message : Json}
    (h : data.toValue M = some message) :
    ∃ write, data.operation.write M = some write ∧
      internalReplicate coordinator.name message =
        match modelByType coordinator.name data.modelType with
        | none => .error 404
        | some i => .ok (i, write) := by
  obtain ⟨operation, modelType, timestamp, nodeId⟩ := data
  cases operation with
  | create item primaryKey =>
    cases hvalue : M.toValue item with
    | none => simp [LithairAppData.toValue, CrudOperation.toValue, hvalue] at h
    | some value =>
      refine ⟨.item value, by simp [CrudOperation.write, hvalue], ?_⟩
      simp only [LithairAppData.toValue, CrudOperation.toValue, hvalue, Option.map_some,
        Option.some.injEq] at h
      subst h
      rfl
  | update item primaryKey =>
    cases hvalue : M.toValue item with
    | none => simp [LithairAppData.toValue, CrudOperation.toValue, hvalue] at h
    | some value =>
      refine ⟨.update primaryKey value, by simp [CrudOperation.write, hvalue], ?_⟩
      simp only [LithairAppData.toValue, CrudOperation.toValue, hvalue, Option.map_some,
        Option.some.injEq] at h
      subst h
      rfl
  | delete primaryKey =>
    refine ⟨.delete primaryKey, rfl, ?_⟩
    simp only [LithairAppData.toValue, CrudOperation.toValue, Option.map_some,
      Option.some.injEq] at h
    subst h
    rfl

/-- An operation that has no value is none that a peer could be asked for. -/
theorem write_of_toValue_none {data : LithairAppData T} (h : data.toValue M = none) :
    data.operation.write M = none := by
  rw [LithairAppData.toValue, Option.map_eq_none_iff] at h
  generalize data.operation = operation at h ⊢
  cases operation with
  | create item primaryKey =>
    rw [CrudOperation.toValue, Option.map_eq_none_iff] at h
    rw [CrudOperation.write, h, Option.map_none]
  | update item primaryKey =>
    rw [CrudOperation.toValue, Option.map_eq_none_iff] at h
    rw [CrudOperation.write, h, Option.map_none]
  | delete primaryKey => exact absurd h (Option.some_ne_none _)

/-- A proposal that is not accepted goes nowhere. -/
theorem proposeTo_of_not_proposed (h : ¬ Declarative.Proposed config env.toEnvironment) :
    proposeTo M sha256 coordinator config nodes operation env = nodes := by
  obtain ⟨hconsensus, hproposal⟩ := Classical.not_imp.mp h
  unfold proposeTo
  rw [if_pos hconsensus]
  cases hcase : env.proposal with
  | ok => exact absurd hcase hproposal
  | error message => rfl

/-- A proposal that is accepted leaves the peers as they are exactly when those that it reaches have
what it would put there. -/
theorem samePeers_proposeTo_iff (h : Declarative.Proposed config env.toEnvironment) :
    SamePeers nodes (proposeTo M sha256 coordinator config nodes operation env) ↔
      PeersHaveIt M coordinator config nodes operation env := by
  unfold proposeTo PeersHaveIt
  split_ifs with hconsensus
  · simp only [h hconsensus, hconsensus, forall_const]
    unfold replicateOperation
    generalize hdata : (⟨operation, coordinator.consensusGroup, env.timestamp,
      coordinator.nodeId⟩ : LithairAppData T) = data
    have hoperation : data.operation = operation := by rw [← hdata]
    have hgroup : data.modelType = coordinator.consensusGroup := by rw [← hdata]
    cases hmessage : data.toValue M with
    | none =>
      refine iff_of_true samePeers_refl fun peer _ i _ write hwrite ↦ ?_
      rw [← hoperation, write_of_toValue_none hmessage] at hwrite
      exact absurd hwrite (Option.some_ne_none write).symm
    | some message =>
      obtain ⟨write, hwrite, hread⟩ := internalReplicate_toValue coordinator hmessage
      rw [hoperation] at hwrite
      rw [hgroup] at hread
      refine forall_congr' fun peer ↦ ?_
      dsimp only
      cases hreached : env.reached peer with
      | none => exact iff_of_true (sameStorages_refl _) fun hsome ↦ by simp at hsome
      | some penv =>
        dsimp only
        rw [storages_applyReplicatedMessage_iff, hread]
        cases modelByType coordinator.name coordinator.consensusGroup with
        | none => simp
        | some i => simp [hwrite]
  · exact iff_of_true samePeers_refl fun hon ↦ absurd hon hconsensus

theorem samePeers_proposeChecked_iff {α : Type} {checked : Except (Response T) α}
    {operation : α → CrudOperation T} :
    SamePeers nodes (proposeChecked M sha256 coordinator config nodes checked operation env) ↔
      ∀ a, checked = .ok a → Declarative.Proposed config env.toEnvironment →
        PeersHaveIt M coordinator config nodes (operation a) env := by
  unfold proposeChecked
  cases checked with
  | error response => exact iff_of_true samePeers_refl fun a h ↦ absurd h (by simp)
  | ok a =>
    simp only [Except.ok.injEq, forall_eq']
    by_cases hproposed : Declarative.Proposed config env.toEnvironment
    · simp only [hproposed, forall_const]
      exact samePeers_proposeTo_iff hproposed
    · rw [proposeTo_of_not_proposed hproposed]
      exact iff_of_true samePeers_refl fun h ↦ absurd h hproposed

end Lithair.Consensus
