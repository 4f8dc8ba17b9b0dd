import Lithair.Cluster.CrudOperation
import Lithair.Lib.KeyedMap

/-!
# Schema changes by vote

The part of `schema/sync.rs` that the endpoints of `app/schema_handlers.rs` for proposals and votes
use: the policy, which names a strategy for each kind of change, the changes that wait for approval,
and the current schemas. A schema itself is a value that nothing here looks into.

`schemas_propose` and `schemas_vote` say what the two make of the current schemas: a proposal is
taken over at once when its kind is accepted automatically, a change that waits is taken over by the
vote with which it has enough approvals, and nothing else is.
-/

namespace Lithair.Cluster

open Lithair.Lib

/-- What a change means for the data that is there. -/
inductive MigrationStrategy
  | additive
  | breaking
  | versioned
  deriving DecidableEq

/-- How a change is decided. A timeout is in milliseconds. -/
inductive VoteStrategy
  | autoAccept
  | reject
  | consensus
  | manualApproval (timeout : Option ℕ) (minApprovers : UInt32)
  deriving DecidableEq

structure SchemaVotePolicy where
  additive : VoteStrategy
  breaking : VoteStrategy
  versioned : VoteStrategy
  deriving DecidableEq

namespace SchemaVotePolicy

/-- The policy of a node that is given none. -/
def default : SchemaVotePolicy where
  additive := .autoAccept
  breaking := .manualApproval none 1
  versioned := .consensus

def strategyFor (policy : SchemaVotePolicy) : MigrationStrategy → VoteStrategy
  | .additive => policy.additive
  | .breaking => policy.breaking
  | .versioned => policy.versioned

end SchemaVotePolicy

inductive SchemaChangeStatus
  | pending
  | approved
  | rejected
  | applied
  | expired
  deriving DecidableEq

structure SchemaApproval where
  nodeId : ℕ
  timestamp : ℕ
  deriving DecidableEq

structure SchemaRejection where
  nodeId : ℕ
  timestamp : ℕ
  reason : Option String
  deriving DecidableEq

structure HumanApproval where
  userId : String
  userName : Option String
  timestamp : ℕ
  deriving DecidableEq

/-- A change that waits for approval. -/
structure PendingSchemaChange (Spec : Type*) where
  id : Uuid
  modelName : String
  newSpec : Spec
  overallStrategy : MigrationStrategy
  status : SchemaChangeStatus
  expiresAt : Option ℕ
  approvals : List SchemaApproval
  rejections : List SchemaRejection
  humanApprovals : List HumanApproval
  rejectionReason : Option String

/-- A vote on a change. -/
structure VoteRequest where
  changeId : Uuid
  nodeId : ℕ
  approve : Bool
  reason : Option String
  deriving DecidableEq

namespace PendingSchemaChange

variable {Spec : Type*}

def withTimeout (change : PendingSchemaChange Spec) (timeout now : ℕ) : PendingSchemaChange Spec :=
  { change with expiresAt := some (now + timeout) }

def isExpired (change : PendingSchemaChange Spec) (now : ℕ) : Bool :=
  match change.expiresAt with
  | some expiresAt => decide (expiresAt ≤ now)
  | none => false

/-- A node approves at most once. -/
def addApproval (change : PendingSchemaChange Spec) (nodeId now : ℕ) : PendingSchemaChange Spec :=
  if change.approvals.any fun a ↦ a.nodeId == nodeId then change
  else { change with approvals := change.approvals ++ [⟨nodeId, now⟩] }

/-- A node rejects at most once; the first reason is kept. -/
def addRejection (change : PendingSchemaChange Spec) (nodeId : ℕ) (reason : Option String)
    (now : ℕ) : PendingSchemaChange Spec :=
  if change.rejections.any fun r ↦ r.nodeId == nodeId then change
  else { change with
    rejections := change.rejections ++ [⟨nodeId, now, reason⟩]
    rejectionReason := if change.rejectionReason.isNone then reason else change.rejectionReason }

def hasEnoughApprovals (change : PendingSchemaChange Spec) (policy : SchemaVotePolicy)
    (totalNodes : ℕ) : Bool :=
  match policy.strategyFor change.overallStrategy with
  | .autoAccept => true
  | .reject => false
  | .consensus => decide (totalNodes / 2 + 1 ≤ change.approvals.length)
  | .manualApproval _ minApprovers => decide (minApprovers.toNat ≤ change.humanApprovals.length)

def shouldReject (change : PendingSchemaChange Spec) (policy : SchemaVotePolicy)
    (totalNodes now : ℕ) : Bool :=
  match policy.strategyFor change.overallStrategy with
  | .reject => true
  | .consensus => decide (totalNodes / 2 + 1 ≤ change.rejections.length)
  | .manualApproval timeout _ => timeout.isSome && change.isExpired now
  | .autoAccept => false

/-- The change with a vote added. -/
def voted (change : PendingSchemaChange Spec) (vote : VoteRequest) (now : ℕ) :
    PendingSchemaChange Spec :=
  if vote.approve then change.addApproval vote.nodeId now
  else change.addRejection vote.nodeId vote.reason now

/-- A vote changes neither the schema that is proposed nor the model it is for. -/
theorem voted_target (change : PendingSchemaChange Spec) (vote : VoteRequest) (now : ℕ) :
    (change.voted vote now).modelName = change.modelName ∧
      (change.voted vote now).newSpec = change.newSpec := by
  unfold voted addApproval addRejection
  split_ifs <;> exact ⟨rfl, rfl⟩

end PendingSchemaChange

/-- The current schemas by model, the changes that wait, and the policy. -/
structure SchemaSyncState (Spec : Type*) where
  schemas : Finmap fun _ : String ↦ Spec
  pendingChanges : Finmap fun _ : Uuid ↦ PendingSchemaChange Spec
  policy : SchemaVotePolicy

/-- What becomes of a vote. -/
inductive VoteOutcome
  | notFound
  | noLongerPending (status : SchemaChangeStatus)
  | counted (status : SchemaChangeStatus) (approvals rejections : ℕ)
  deriving DecidableEq

namespace SchemaSyncState

variable {Spec : Type*}

def addPending (s : SchemaSyncState Spec) (change : PendingSchemaChange Spec) :
    SchemaSyncState Spec :=
  { s with pendingChanges := s.pendingChanges.insert change.id change }

/-- `handle_schema_propose`, once the body is read. -/
def propose (s : SchemaSyncState Spec) (change : PendingSchemaChange Spec) (now : ℕ) :
    SchemaSyncState Spec :=
  match s.policy.strategyFor change.overallStrategy with
  | .autoAccept => { s with schemas := s.schemas.insert change.modelName change.newSpec }
  | .reject => s
  | .manualApproval (some timeout) _ => s.addPending (change.withTimeout timeout now)
  | .manualApproval none _ | .consensus => s.addPending change

/-- The status of a change after a vote. -/
def statusAfter (s : SchemaSyncState Spec) (change : PendingSchemaChange Spec)
    (totalNodes now : ℕ) : SchemaChangeStatus :=
  if change.hasEnoughApprovals s.policy totalNodes then .applied
  else if change.shouldReject s.policy totalNodes now then .rejected
  else change.status

/-- `handle_schema_vote`, once the body is read. -/
def vote (s : SchemaSyncState Spec) (vote : VoteRequest) (totalNodes now : ℕ) :
    SchemaSyncState Spec × VoteOutcome :=
  match s.pendingChanges.lookup vote.changeId with
  | none => (s, .notFound)
  | some change =>
    if change.status ≠ .pending then (s, .noLongerPending change.status)
    else
      let voted := change.voted vote now
      let status := s.statusAfter voted totalNodes now
      ({ s with
          pendingChanges := s.pendingChanges.insert vote.changeId { voted with status }
          schemas :=
            if voted.hasEnoughApprovals s.policy totalNodes then
              s.schemas.insert voted.modelName voted.newSpec
            else s.schemas },
        .counted status voted.approvals.length voted.rejections.length)

/-! ### What becomes of the schemas -/

/-- A proposal that is accepted automatically is the schema of its model, and another one changes no
schema. -/
theorem schemas_propose (s : SchemaSyncState Spec) (change : PendingSchemaChange Spec) (now : ℕ) :
    (s.propose change now).schemas =
      if s.policy.strategyFor change.overallStrategy = .autoAccept then
        s.schemas.insert change.modelName change.newSpec
      else s.schemas := by
  unfold propose
  split_ifs with h
  · rw [h]
  · split
    · next haccept => exact absurd haccept h
    · rfl
    · rfl
    · rfl
    · rfl

/-- The vote is on a change that waits, and with it the change has enough approvals. -/
def Decides (s : SchemaSyncState Spec) (vote : VoteRequest) (totalNodes now : ℕ)
    (change : PendingSchemaChange Spec) : Prop :=
  s.pendingChanges.lookup vote.changeId = some change ∧ change.status = .pending ∧
    (change.voted vote now).hasEnoughApprovals s.policy totalNodes = true

/-- A vote that decides makes the proposed schema that of its model. -/
theorem schemas_vote_of_decides {s : SchemaSyncState Spec} {vote : VoteRequest}
    {totalNodes now : ℕ} {change : PendingSchemaChange Spec}
    (h : s.Decides vote totalNodes now change) :
    (s.vote vote totalNodes now).1.schemas =
      s.schemas.insert change.modelName change.newSpec := by
  obtain ⟨hlookup, hpending, henough⟩ := h
  obtain ⟨hmodel, hspec⟩ := change.voted_target vote now
  unfold SchemaSyncState.vote
  simp only [hlookup, hpending, ne_eq, not_true_eq_false, if_false, henough, if_true, hmodel,
    hspec]

/-- A vote that decides nothing changes no schema. -/
theorem schemas_vote_of_not_decides {s : SchemaSyncState Spec} {vote : VoteRequest}
    {totalNodes now : ℕ} (h : ∀ change, ¬ s.Decides vote totalNodes now change) :
    (s.vote vote totalNodes now).1.schemas = s.schemas := by
  unfold SchemaSyncState.vote
  cases hlookup : s.pendingChanges.lookup vote.changeId with
  | none => rfl
  | some change =>
    by_cases hpending : change.status = .pending
    · have henough : (change.voted vote now).hasEnoughApprovals s.policy totalNodes ≠ true :=
        fun henough ↦ h change ⟨hlookup, hpending, henough⟩
      simp only [hpending, ne_eq, not_true_eq_false, if_false]
      rw [if_neg henough]
    · simp only [ne_eq, hpending, not_false_eq_true, if_true]

/-- The proposal leaves the schemas as they are: it is not accepted automatically, or it proposes
the schema that the model has. -/
theorem schemas_propose_eq_iff {s : SchemaSyncState Spec} {change : PendingSchemaChange Spec}
    {now : ℕ} :
    (s.propose change now).schemas = s.schemas ↔
      (s.policy.strategyFor change.overallStrategy = .autoAccept →
        s.schemas.lookup change.modelName = some change.newSpec) := by
  rw [schemas_propose]
  split_ifs with h
  · rw [forall_prop_of_true h, eq_comm]
    exact KeyedMap.eq_insert_iff
  · exact iff_of_true rfl fun haccept ↦ absurd haccept h

/-- The vote leaves the schemas as they are: it decides nothing, or only what is the case. -/
theorem schemas_vote_eq_iff {s : SchemaSyncState Spec} {vote : VoteRequest}
    {totalNodes now : ℕ} :
    (s.vote vote totalNodes now).1.schemas = s.schemas ↔
      ∀ change, s.Decides vote totalNodes now change →
        s.schemas.lookup change.modelName = some change.newSpec := by
  by_cases h : ∃ change, s.Decides vote totalNodes now change
  · obtain ⟨change, hdecides⟩ := h
    rw [schemas_vote_of_decides hdecides, eq_comm, KeyedMap.eq_insert_iff]
    refine ⟨fun hsame other hother ↦ ?_, fun hall ↦ hall change hdecides⟩
    obtain rfl := Option.some.inj (hdecides.1.symm.trans hother.1)
    exact hsame
  · have hnone : ∀ change, ¬ s.Decides vote totalNodes now change := not_exists.mp h
    rw [schemas_vote_of_not_decides hnone]
    exact iff_of_true rfl fun change hdecides ↦ absurd hdecides (hnone change)

end SchemaSyncState

end Lithair.Cluster
