import Lithair.Schema.SyncState

/-!
# Proposals, votes and approvals

The endpoints of `app/schema_handlers.rs` that decide on changes, once the body of the request is
read: a proposal, the vote of a node, and the approval or rejection by a person. `resolve` is what a
vote and an approval have in common.

`refines_propose` and `refines_vote` say that the proposals and votes of `Cluster.SchemaSync`, which
know less of a change, are these.
-/

namespace Lithair.Schema

open Lithair.Lib
open Cluster (MigrationStrategy SchemaChangeStatus Uuid VoteOutcome VoteRequest VoteStrategy)

inductive ProposeResponse
  | accepted (changeId : Uuid)
  | rejected (changeId : Uuid) (strategy : MigrationStrategy)
  | pending (changeId : Uuid) (strategy : VoteStrategy)
  deriving DecidableEq

inductive ApproveOutcome
  | notFound
  | noLongerPending (status : SchemaChangeStatus)
  | applied (changeId : Uuid) (modelName : String)
  | recorded (changeId : Uuid) (humanApprovals : ℕ)
  deriving DecidableEq

inductive RejectOutcome
  | notFound
  | noLongerPending (status : SchemaChangeStatus)
  | rejected (changeId : Uuid) (reason : Option String)
  deriving DecidableEq

namespace SchemaSyncState

variable (s : SchemaSyncState)

/-- What is queued of a proposal. -/
def queued (change : PendingSchemaChange) (now : ℕ) : PendingSchemaChange :=
  match s.policy.strategyFor change.overallStrategy with
  | .manualApproval (some timeout) _ => change.withTimeout timeout now
  | _ => change

/-- `handle_schema_propose`. The strategy is the one that the proposal names. -/
def handleSchemaPropose (change : PendingSchemaChange) (now : ℕ) :
    SchemaSyncState × ProposeResponse :=
  match s.policy.strategyFor change.overallStrategy with
  | .autoAccept =>
    ({ s with schemas := s.schemas.insert change.modelName change.newSpec }, .accepted change.id)
  | .reject => (s, .rejected change.id change.overallStrategy)
  | strategy => (s.addPending (s.queued change now), .pending change.id strategy)

/-- Put a change back that was looked at, and take over its schema if it is applied. -/
def resolve (changeId : Uuid) (pending : PendingSchemaChange) (hasApprovals : Bool) :
    SchemaSyncState :=
  { s with
    pendingChanges := s.pendingChanges.insert changeId pending
    schemas :=
      if hasApprovals then s.schemas.insert pending.modelName pending.newSpec else s.schemas }

/-- The change with what its votes make of it. -/
def afterVote (pending : PendingSchemaChange) (totalNodes now : ℕ) : PendingSchemaChange :=
  pending.withStatus
    (if pending.hasEnoughApprovals s.policy totalNodes then .applied
    else if pending.shouldReject s.policy totalNodes now then .rejected
    else pending.status)

/-- `handle_schema_vote`. -/
def handleSchemaVote (vote : VoteRequest) (totalNodes now : ℕ) : SchemaSyncState × VoteOutcome :=
  match s.pendingChanges.lookup vote.changeId with
  | none => (s, .notFound)
  | some change =>
    if change.status ≠ .pending then (s, .noLongerPending change.status)
    else
      let pending := change.voted vote now
      let resolved := s.afterVote pending totalNodes now
      (s.resolve vote.changeId resolved (pending.hasEnoughApprovals s.policy totalNodes),
        .counted resolved.status resolved.approvals.length resolved.rejections.length)

/-- The change with what an approval makes of it. -/
def afterApproval (pending : PendingSchemaChange) (totalNodes : ℕ) : PendingSchemaChange :=
  pending.withStatus
    (if pending.hasEnoughApprovals s.policy totalNodes then .applied else pending.status)

/-- `handle_admin_schema_approve`, up to the file of the schema. -/
def handleAdminSchemaApprove (changeId : Uuid) (userId : String) (userName : Option String)
    (totalNodes now : ℕ) : SchemaSyncState × ApproveOutcome :=
  match s.pendingChanges.lookup changeId with
  | none => (s, .notFound)
  | some change =>
    if change.status ≠ .pending then (s, .noLongerPending change.status)
    else
      let pending := change.addHumanApproval userId userName now
      let hasApprovals := pending.hasEnoughApprovals s.policy totalNodes
      (s.resolve changeId (s.afterApproval pending totalNodes) hasApprovals,
        if hasApprovals then .applied changeId pending.modelName
        else .recorded changeId pending.humanApprovals.length)

/-- `handle_admin_schema_reject`. -/
def handleAdminSchemaReject (changeId : Uuid) (reason : Option String) :
    SchemaSyncState × RejectOutcome :=
  match s.pendingChanges.lookup changeId with
  | none => (s, .notFound)
  | some change =>
    if change.status ≠ .pending then (s, .noLongerPending change.status)
    else
      ({ s with pendingChanges := s.pendingChanges.insert changeId (change.rejectedFor reason) },
        .rejected changeId reason)

/-! ### What becomes of a change -/

variable {s} {change pending : PendingSchemaChange} {vote : VoteRequest} {changeId : Uuid}
  {userId : String} {userName reason : Option String} {totalNodes now : ℕ}

/-- The change waits for votes or approvals. -/
def Waits (s : SchemaSyncState) (changeId : Uuid) (change : PendingSchemaChange) : Prop :=
  s.pendingChanges.lookup changeId = some change ∧ change.status = .pending

/-- A proposal that is neither accepted nor rejected is queued. -/
def Queues (s : SchemaSyncState) (change : PendingSchemaChange) : Prop :=
  s.policy.strategyFor change.overallStrategy ≠ .autoAccept ∧
    s.policy.strategyFor change.overallStrategy ≠ .reject

theorem propose_of_autoAccept
    (h : s.policy.strategyFor change.overallStrategy = .autoAccept) :
    s.handleSchemaPropose change now =
      ({ s with schemas := s.schemas.insert change.modelName change.newSpec },
        .accepted change.id) := by
  unfold handleSchemaPropose
  rw [h]

theorem propose_of_reject (h : s.policy.strategyFor change.overallStrategy = .reject) :
    s.handleSchemaPropose change now = (s, .rejected change.id change.overallStrategy) := by
  unfold handleSchemaPropose
  rw [h]

theorem propose_of_queues (h : s.Queues change) (now : ℕ) :
    s.handleSchemaPropose change now =
      (s.addPending (s.queued change now),
        .pending change.id (s.policy.strategyFor change.overallStrategy)) := by
  unfold handleSchemaPropose
  split
  · next haccept => exact absurd haccept h.1
  · next hreject => exact absurd hreject h.2
  · rfl

/-- The three things that can become of a proposal. -/
theorem propose_cases (s : SchemaSyncState) (change : PendingSchemaChange) :
    s.policy.strategyFor change.overallStrategy = .autoAccept ∨
      s.policy.strategyFor change.overallStrategy = .reject ∨ s.Queues change := by
  unfold Queues
  tauto

/-- A proposal is queued as it is, but for the time that it expires at. -/
theorem queued_eq_or (s : SchemaSyncState) (change : PendingSchemaChange) (now : ℕ) :
    s.queued change now = change ∨
      ∃ timeout, s.queued change now = change.withTimeout timeout now := by
  unfold queued
  split
  · next timeout _ _ => exact Or.inr ⟨timeout, rfl⟩
  · exact Or.inl rfl

theorem id_queued (s : SchemaSyncState) (change : PendingSchemaChange) (now : ℕ) :
    (s.queued change now).id = change.id := by
  rcases s.queued_eq_or change now with h | ⟨timeout, h⟩
  · rw [h]
  · rw [h]
    rfl

theorem vote_of_waits (h : s.Waits vote.changeId change) (totalNodes now : ℕ) :
    (s.handleSchemaVote vote totalNodes now).1 =
      s.resolve vote.changeId (s.afterVote (change.voted vote now) totalNodes now)
        ((change.voted vote now).hasEnoughApprovals s.policy totalNodes) := by
  unfold handleSchemaVote
  simp only [h.1, h.2, ne_eq, not_true_eq_false, if_false]

theorem vote_of_not_waits (h : ∀ change, ¬ s.Waits vote.changeId change) :
    (s.handleSchemaVote vote totalNodes now).1 = s := by
  unfold handleSchemaVote
  cases hlookup : s.pendingChanges.lookup vote.changeId with
  | none => rfl
  | some change =>
    have hstatus : change.status ≠ .pending := fun hpending ↦ h change ⟨hlookup, hpending⟩
    simp only [hstatus, ne_eq, not_false_eq_true, if_true]

theorem approve_of_waits (h : s.Waits changeId change) (userId : String)
    (userName : Option String) (totalNodes now : ℕ) :
    (s.handleAdminSchemaApprove changeId userId userName totalNodes now).1 =
      s.resolve changeId (s.afterApproval (change.addHumanApproval userId userName now) totalNodes)
        ((change.addHumanApproval userId userName now).hasEnoughApprovals s.policy totalNodes) := by
  unfold handleAdminSchemaApprove
  simp only [h.1, h.2, ne_eq, not_true_eq_false, if_false]

theorem approve_of_not_waits (h : ∀ change, ¬ s.Waits changeId change) :
    (s.handleAdminSchemaApprove changeId userId userName totalNodes now).1 = s := by
  unfold handleAdminSchemaApprove
  cases hlookup : s.pendingChanges.lookup changeId with
  | none => rfl
  | some change =>
    have hstatus : change.status ≠ .pending := fun hpending ↦ h change ⟨hlookup, hpending⟩
    simp only [hstatus, ne_eq, not_false_eq_true, if_true]

theorem reject_of_waits (h : s.Waits changeId change) (reason : Option String) :
    (s.handleAdminSchemaReject changeId reason).1 =
      { s with
        pendingChanges := s.pendingChanges.insert changeId (change.rejectedFor reason) } := by
  unfold handleAdminSchemaReject
  simp only [h.1, h.2, ne_eq, not_true_eq_false, if_false]

theorem reject_of_not_waits (h : ∀ change, ¬ s.Waits changeId change) :
    (s.handleAdminSchemaReject changeId reason).1 = s := by
  unfold handleAdminSchemaReject
  cases hlookup : s.pendingChanges.lookup changeId with
  | none => rfl
  | some change =>
    have hstatus : change.status ≠ .pending := fun hpending ↦ h change ⟨hlookup, hpending⟩
    simp only [hstatus, ne_eq, not_false_eq_true, if_true]

/-- At most one change waits under an id. -/
theorem Waits.unique {other : PendingSchemaChange} (h : s.Waits changeId change)
    (hother : s.Waits changeId other) : change = other :=
  Option.some.inj (h.1.symm.trans hother.1)

/-- The policy, the history and the lock are as they were. -/
structure KeepsRest (s next : SchemaSyncState) : Prop where
  policy : next.policy = s.policy
  changeHistory : next.changeHistory = s.changeHistory
  lockStatus : next.lockStatus = s.lockStatus

theorem KeepsRest.refl (s : SchemaSyncState) : s.KeepsRest s := ⟨rfl, rfl, rfl⟩

theorem keepsRest_propose (s : SchemaSyncState) (change : PendingSchemaChange) (now : ℕ) :
    s.KeepsRest (s.handleSchemaPropose change now).1 := by
  rcases s.propose_cases change with haccept | hreject | hqueues
  · rw [propose_of_autoAccept haccept]
    exact ⟨rfl, rfl, rfl⟩
  · rw [propose_of_reject hreject]
    exact .refl s
  · rw [propose_of_queues hqueues]
    exact ⟨rfl, rfl, rfl⟩

theorem keepsRest_vote (s : SchemaSyncState) (vote : VoteRequest) (totalNodes now : ℕ) :
    s.KeepsRest (s.handleSchemaVote vote totalNodes now).1 := by
  by_cases h : ∃ change, s.Waits vote.changeId change
  · obtain ⟨change, hwaits⟩ := h
    rw [vote_of_waits hwaits]
    exact ⟨rfl, rfl, rfl⟩
  · push Not at h
    rw [vote_of_not_waits h]
    exact .refl s

theorem keepsRest_approve (s : SchemaSyncState) (changeId : Uuid) (userId : String)
    (userName : Option String) (totalNodes now : ℕ) :
    s.KeepsRest (s.handleAdminSchemaApprove changeId userId userName totalNodes now).1 := by
  by_cases h : ∃ change, s.Waits changeId change
  · obtain ⟨change, hwaits⟩ := h
    rw [approve_of_waits hwaits]
    exact ⟨rfl, rfl, rfl⟩
  · push Not at h
    rw [approve_of_not_waits h]
    exact .refl s

theorem keepsRest_reject (s : SchemaSyncState) (changeId : Uuid) (reason : Option String) :
    s.KeepsRest (s.handleAdminSchemaReject changeId reason).1 := by
  by_cases h : ∃ change, s.Waits changeId change
  · obtain ⟨change, hwaits⟩ := h
    rw [reject_of_waits hwaits]
    exact ⟨rfl, rfl, rfl⟩
  · push Not at h
    rw [reject_of_not_waits h]
    exact .refl s

/-! ### What becomes of the current schemas -/

theorem schemas_insert_eq_iff {modelName : String} {spec : ModelSpec} :
    s.schemas.insert modelName spec = s.schemas ↔ s.schemas.lookup modelName = some spec := by
  rw [eq_comm, KeyedMap.eq_insert_iff]

/-- A proposal leaves the schemas as they are unless it is accepted automatically with another
schema. -/
theorem schemas_propose_iff :
    (s.handleSchemaPropose change now).1.schemas = s.schemas ↔
      (s.policy.strategyFor change.overallStrategy = .autoAccept →
        s.schemas.lookup change.modelName = some change.newSpec) := by
  rcases s.propose_cases change with haccept | hreject | hqueues
  · rw [propose_of_autoAccept haccept, schemas_insert_eq_iff]
    exact ⟨fun h _ ↦ h, fun h ↦ h haccept⟩
  · rw [propose_of_reject hreject, hreject]
    exact iff_of_true rfl fun h ↦ VoteStrategy.noConfusion h
  · rw [propose_of_queues hqueues]
    exact iff_of_true rfl fun h ↦ absurd h hqueues.1

theorem schemas_resolve_iff {hasApprovals : Bool} :
    (s.resolve changeId pending hasApprovals).schemas = s.schemas ↔
      (hasApprovals = true → s.schemas.lookup pending.modelName = some pending.newSpec) := by
  unfold resolve
  dsimp only
  split_ifs with happrovals
  · rw [schemas_insert_eq_iff]
    exact ⟨fun h _ ↦ h, fun h ↦ h happrovals⟩
  · exact iff_of_true rfl fun h ↦ absurd h happrovals

/-- A vote leaves them as they are unless it completes a change to another schema. -/
theorem schemas_vote_iff :
    (s.handleSchemaVote vote totalNodes now).1.schemas = s.schemas ↔
      ∀ change, s.Waits vote.changeId change →
        (change.voted vote now).hasEnoughApprovals s.policy totalNodes = true →
          s.schemas.lookup change.modelName = some change.newSpec := by
  by_cases h : ∃ change, s.Waits vote.changeId change
  · obtain ⟨change, hwaits⟩ := h
    obtain ⟨hmodel, hspec⟩ := change.voted_target vote now
    have hresolve : (s.handleSchemaVote vote totalNodes now).1.schemas = s.schemas ↔
        ((change.voted vote now).hasEnoughApprovals s.policy totalNodes = true →
          s.schemas.lookup change.modelName = some change.newSpec) := by
      rw [vote_of_waits hwaits, schemas_resolve_iff, ← hmodel, ← hspec]
      rfl
    rw [hresolve]
    exact ⟨fun hall other hother ↦ hwaits.unique hother ▸ hall, fun hall ↦ hall change hwaits⟩
  · push Not at h
    rw [vote_of_not_waits h]
    exact iff_of_true rfl fun change hwaits ↦ absurd hwaits (h change)

/-- So does an approval. -/
theorem schemas_approve_iff :
    (s.handleAdminSchemaApprove changeId userId userName totalNodes now).1.schemas = s.schemas ↔
      ∀ change, s.Waits changeId change →
        (change.addHumanApproval userId userName now).hasEnoughApprovals s.policy totalNodes =
            true →
          s.schemas.lookup change.modelName = some change.newSpec := by
  by_cases h : ∃ change, s.Waits changeId change
  · obtain ⟨change, hwaits⟩ := h
    obtain ⟨hmodel, hspec⟩ := change.addHumanApproval_target userId userName now
    have hresolve :
        (s.handleAdminSchemaApprove changeId userId userName totalNodes now).1.schemas =
            s.schemas ↔
          ((change.addHumanApproval userId userName now).hasEnoughApprovals s.policy totalNodes =
            true → s.schemas.lookup change.modelName = some change.newSpec) := by
      rw [approve_of_waits hwaits, schemas_resolve_iff, ← hmodel, ← hspec]
      rfl
    rw [hresolve]
    exact ⟨fun hall other hother ↦ hwaits.unique hother ▸ hall, fun hall ↦ hall change hwaits⟩
  · push Not at h
    rw [approve_of_not_waits h]
    exact iff_of_true rfl fun change hwaits ↦ absurd hwaits (h change)

theorem schemas_reject :
    (s.handleAdminSchemaReject changeId reason).1.schemas = s.schemas := by
  by_cases h : ∃ change, s.Waits changeId change
  · obtain ⟨change, hwaits⟩ := h
    rw [reject_of_waits hwaits]
  · push Not at h
    rw [reject_of_not_waits h]

/-! ### The votes of a cluster that know less of a change -/

/-- The state as `Cluster.SchemaSync` has it. -/
def Refines (s : SchemaSyncState) (abstracted : Cluster.SchemaSyncState ModelSpec) : Prop :=
  abstracted.schemas = s.schemas ∧ abstracted.policy = s.policy ∧
    ∀ changeId, abstracted.pendingChanges.lookup changeId =
      (s.pendingChanges.lookup changeId).map PendingSchemaChange.toPendingSchemaChange

theorem Refines.insert {abstracted : Cluster.SchemaSyncState ModelSpec}
    (h : s.Refines abstracted) (changeId : Uuid) (pending : PendingSchemaChange) (other : Uuid) :
    (abstracted.pendingChanges.insert changeId pending.toPendingSchemaChange).lookup other =
      ((s.pendingChanges.insert changeId pending).lookup other).map
        PendingSchemaChange.toPendingSchemaChange := by
  by_cases hother : other = changeId
  · rw [hother, Finmap.lookup_insert, Finmap.lookup_insert, Option.map_some]
  · rw [Finmap.lookup_insert_of_ne _ hother, Finmap.lookup_insert_of_ne _ hother, h.2.2]

theorem refines_propose {abstracted : Cluster.SchemaSyncState ModelSpec}
    (h : s.Refines abstracted) (change : PendingSchemaChange) (now : ℕ) :
    (s.handleSchemaPropose change now).1.Refines
      (abstracted.propose change.toPendingSchemaChange now) := by
  obtain ⟨hschemas, hpolicy, hpending⟩ := id h
  unfold Cluster.SchemaSyncState.propose handleSchemaPropose queued
  rw [hpolicy]
  cases s.policy.strategyFor change.overallStrategy with
  | autoAccept =>
    dsimp only
    exact ⟨by rw [hschemas], rfl, hpending⟩
  | reject => exact ⟨hschemas, hpolicy, hpending⟩
  | consensus => exact ⟨hschemas, hpolicy, h.insert _ change⟩
  | manualApproval timeout minApprovers =>
    cases timeout with
    | none => exact ⟨hschemas, hpolicy, h.insert _ change⟩
    | some timeout => exact ⟨hschemas, hpolicy, h.insert _ (change.withTimeout timeout now)⟩

theorem refines_vote {abstracted : Cluster.SchemaSyncState ModelSpec} (h : s.Refines abstracted)
    (vote : VoteRequest) (totalNodes now : ℕ) :
    (s.handleSchemaVote vote totalNodes now).1.Refines
        (abstracted.vote vote totalNodes now).1 ∧
      (s.handleSchemaVote vote totalNodes now).2 = (abstracted.vote vote totalNodes now).2 := by
  obtain ⟨hschemas, hpolicy, hpending⟩ := id h
  unfold Cluster.SchemaSyncState.vote handleSchemaVote Cluster.SchemaSyncState.statusAfter
  rw [hpending, hpolicy]
  cases hlookup : s.pendingChanges.lookup vote.changeId with
  | none => exact ⟨h, rfl⟩
  | some change =>
    dsimp only [Option.map_some]
    by_cases hstatus : change.status ≠ .pending
    · rw [if_pos hstatus, if_pos hstatus]
      exact ⟨h, rfl⟩
    · rw [if_neg hstatus, if_neg hstatus]
      refine ⟨⟨?_, rfl, ?_⟩, rfl⟩
      · rw [hschemas]
        rfl
      · exact h.insert vote.changeId (s.afterVote (change.voted vote now) totalNodes now)

end SchemaSyncState

end Lithair.Schema
