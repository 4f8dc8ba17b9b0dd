import Lithair.Schema.Node

/-!
# The lock of the schemas

When schema migrations are locked, all schema changes are to be rejected until they are unlocked.
The endpoints for proposals, votes, approvals and rollbacks do not look at the lock.

`unchanged_iff` says which requests leave the current schemas and the files as they are while the
lock is on.
-/

namespace Lithair.Schema

open Lithair.Lib Lithair.Lib.Run

/-- A request to an endpoint that neither locks nor unlocks. -/
def NodeAction.IsRequest : NodeAction → Prop
  | .propose _ _ | .vote _ _ | .approve _ _ _ _ | .reject _ _ _ | .sync _ | .rollback _ _
  | .revalidate _ _ => True
  | .lock _ _ | .unlock _ _ _ _ | .applyChange _ _ _ | .validate _ _ _ _ => False

def NodeAction.step (config : SchemaConfig) (node : SchemaNode) (action : NodeAction) :
    Option SchemaNode :=
  some (action.run config node)

/-- The current schemas and the files are as they were. -/
def Unchanged (before node : SchemaNode) : Prop :=
  node.schemas = before.schemas ∧ node.files = before.files

/-- A proposal is not accepted automatically, a vote or an approval does not complete what it is
for, and a rollback finds nothing to go back to; or what they would write is there already. -/
def Harmless (config : SchemaConfig) (node : SchemaNode) : NodeAction → Prop
  | .propose change _ =>
    node.policy.strategyFor change.overallStrategy = .autoAccept →
      node.schemas.lookup change.modelName = some change.newSpec
  | .vote request now => ∀ change, node.Waits request.changeId change →
      (change.voted request now).hasEnoughApprovals node.policy config.totalNodes = true →
        node.schemas.lookup change.modelName = some change.newSpec
  | .approve changeId userId userName now => ∀ change, node.Waits changeId change →
      (change.addHumanApproval userId userName now).hasEnoughApprovals node.policy
          config.totalNodes = true →
        node.schemas.lookup change.modelName = some change.newSpec ∧
          (config.save node.files change.newSpec).1 = node.files
  | .rollback changeId _ => ∀ record previous, node.Revertible changeId record previous →
      ((config.save node.files previous).2 = true →
        node.schemas.lookup record.modelName = some previous) ∧
        (config.save node.files previous).1 = node.files
  | .reject _ _ _ | .sync _ | .revalidate _ _ | .lock _ _ | .unlock _ _ _ _ | .applyChange _ _ _
  | .validate _ _ _ _ => True

section Steps

variable {config : SchemaConfig} {node : SchemaNode} {now : ℕ}

/-- A request while the lock is on changes nothing exactly when it is harmless. -/
theorem unchanged_run_iff {action : NodeAction} (hrequest : action.IsRequest)
    (hlocked : node.lockStatus.isLocked action.now = true) :
    Unchanged node (action.run config node) ↔ Harmless config node action := by
  cases action with
  | propose change now => exact (and_iff_left rfl).trans SchemaSyncState.schemas_propose_iff
  | vote request now => exact (and_iff_left rfl).trans SchemaSyncState.schemas_vote_iff
  | approve changeId userId userName now =>
    refine (and_congr SchemaNode.schemas_approve_iff SchemaNode.files_approve_iff).trans ?_
    unfold Harmless
    simp only [forall_and]
  | reject changeId reason now => exact iff_of_true ⟨SchemaSyncState.schemas_reject, rfl⟩ trivial
  | sync now =>
    unfold NodeAction.run
    rw [SchemaNode.sync_fst]
    exact iff_of_true ⟨rfl, rfl⟩ trivial
  | rollback changeId now =>
    refine (and_congr SchemaNode.schemas_rollback_iff SchemaNode.files_rollback_iff).trans ?_
    unfold Harmless
    simp only [forall_and]
  | revalidate recordId now =>
    have hsame : (NodeAction.revalidate recordId now).run config node = node :=
      SchemaNode.revalidate_of_locked recordId hlocked
    rw [hsame]
    exact iff_of_true ⟨rfl, rfl⟩ trivial
  | lock reason now | unlock reason durationSecs unlockedBy now
  | applyChange changeId appliedByNode now | validate info changeId recordId now =>
    exact absurd hrequest not_false

/-- A request neither locks nor unlocks. -/
theorem lockStatus_run {action : NodeAction} (hrequest : action.IsRequest)
    (hlocked : node.lockStatus.isLocked action.now = true) :
    (action.run config node).lockStatus = node.lockStatus := by
  cases action with
  | propose change now => exact (node.keepsRest_propose change now).lockStatus
  | vote request now => exact (node.keepsRest_vote request config.totalNodes now).lockStatus
  | approve changeId userId userName now =>
    exact (congrArg SchemaSyncState.lockStatus SchemaNode.approve_state).trans
      (node.keepsRest_approve changeId userId userName config.totalNodes now).lockStatus
  | reject changeId reason now => exact (node.keepsRest_reject changeId reason).lockStatus
  | sync now => exact congrArg (·.lockStatus) SchemaNode.sync_fst
  | rollback changeId now => exact SchemaNode.keepsRest_rollback.lockStatus
  | revalidate recordId now =>
    exact congrArg (·.lockStatus) (SchemaNode.revalidate_of_locked recordId hlocked)
  | lock reason now | unlock reason durationSecs unlockedBy now
  | applyChange changeId appliedByNode now | validate info changeId recordId now =>
    exact absurd hrequest not_false

end Steps

/-! ### Runs -/

/-- From a state that is locked, a run of requests, each at some later time, leaves the current
schemas and the files as they were exactly when every request is harmless. -/
theorem unchanged_iff (config : SchemaConfig) (start : SchemaNode) (lockedAt : ℕ)
    (hlocked : start.lockStatus.isLocked lockedAt = true) {actions : List NodeAction}
    (hrequests : ∀ action ∈ actions, action.IsRequest ∧ lockedAt ≤ action.now) :
    Always (NodeAction.step config) (Unchanged start) start actions ↔
      EachStep (NodeAction.step config) (Harmless config) start actions := by
  refine always_iff_eachStep_of_forall
    (I := fun node ↦ node.lockStatus.isLocked lockedAt = true) ?_ ?_ hlocked ⟨rfl, rfl⟩ hrequests
  · rintro node action next hnode ⟨hrequest, hlater⟩ hnext
    obtain rfl := Option.some.inj hnext
    rw [lockStatus_run hrequest (SchemaLockStatus.isLocked_mono hnode hlater)]
    exact hnode
  · rintro node action next hnode ⟨hschemas, hfiles⟩ ⟨hrequest, hlater⟩ hnext
    obtain rfl := Option.some.inj hnext
    rw [← unchanged_run_iff hrequest (SchemaLockStatus.isLocked_mono hnode hlater)]
    unfold Unchanged
    rw [hschemas, hfiles]

/-! ### A locked node of three -/

/-- A node that is locked. -/
def lockedNode : SchemaNode where
  toSchemaSyncState := { SchemaSyncState.withPolicy .default with lockStatus := .lock none }
  files := ∅

/-- A breaking change waits for a person, and nothing changes. -/
theorem unchanged_of_breaking :
    Always (NodeAction.step threeNodeConfig) (Unchanged lockedNode) lockedNode
      [.propose (customerChange 5 .breaking) 10, .sync 20] := by
  refine (unchanged_iff threeNodeConfig lockedNode 0 rfl fun action hmem ↦ ?_).mpr ?_
  · simp only [List.mem_cons, List.not_mem_nil, or_false] at hmem
    rcases hmem with rfl | rfl
    · exact ⟨trivial, by decide⟩
    · exact ⟨trivial, by decide⟩
  · refine EachStep.cons rfl (fun haccept ↦ absurd haccept (by decide)) ?_
    exact EachStep.cons rfl trivial trivial

/-- An additive one is taken over while the lock is on. -/
theorem accepted_while_locked :
    lockedNode.lockStatus.isLocked 10 = true ∧
      ¬ Always (NodeAction.step threeNodeConfig) (Unchanged lockedNode) lockedNode
        [.propose (customerChange 5 .additive) 10] := by
  refine ⟨rfl, fun h ↦ ?_⟩
  have hschemas := (h.2 _ rfl).1
  have hlookup := congrArg (fun schemas ↦ (schemas.lookup "Customer").isSome) hschemas
  exact absurd hlookup (by decide)

end Lithair.Schema
