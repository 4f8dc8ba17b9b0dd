import Lithair.Schema.Node

/-!
# The history of applied changes

Every transition to another current schema is to leave one record in the history, and a rollback of
the change that was applied last to a model is to bring back the schema that was current before it.
`lastApplied` keeps which change that is and what was current before.

`keepsHistory_iff` says in which runs of the operations of a node that is so. Only `apply_change`
and the start of the server write records, and a rollback takes the schema that the proposal of the
change named as the old one.
-/

namespace Lithair.Schema

open Lithair.Lib Lithair.Lib.Run
open Cluster (Uuid)

/-- The start of the server finds another schema stored than the model has, and takes the model's
over. -/
def SchemaNode.acceptsAtStart (config : SchemaConfig) (node : SchemaNode) (info : ModelInfo)
    (now : ℕ) : Bool :=
  match node.storedSpec config info with
  | some stored =>
    match SchemaChangeDetector.detectChanges config.toLowercase stored info.currentSpec with
    | [] => false
    | changes =>
      !node.lockStatus.isLocked now && config.isCluster &&
        decide (node.policy.strategyFor (worst changes) = .autoAccept)
  | none => false

namespace NodeAction

/-- The change that an operation applies, and the model it is for. -/
def applied (config : SchemaConfig) (node : SchemaNode) : NodeAction → Option (Uuid × String)
  | .propose change _ =>
    if node.policy.strategyFor change.overallStrategy = .autoAccept then
      some (change.id, change.modelName)
    else none
  | .vote request now =>
    (node.pendingChanges.lookup request.changeId).bind fun change ↦
      if change.status = .pending ∧
          (change.voted request now).hasEnoughApprovals node.policy config.totalNodes = true then
        some (request.changeId, change.modelName)
      else none
  | .approve changeId userId userName now =>
    (node.pendingChanges.lookup changeId).bind fun change ↦
      if change.status = .pending ∧
          (change.addHumanApproval userId userName now).hasEnoughApprovals node.policy
            config.totalNodes = true then
        some (changeId, change.modelName)
      else none
  | .applyChange changeId _ _ =>
    (node.pendingChanges.lookup changeId).map fun change ↦ (changeId, change.modelName)
  | .validate info _ recordId now =>
    if node.acceptsAtStart config info now then some (recordId, info.name) else none
  | .reject _ _ _ | .sync _ | .rollback _ _ | .revalidate _ _ | .lock _ _ | .unlock _ _ _ _ => none

/-- The start of the server makes the schema of a model known that is stored as it is, or not
stored yet. -/
def Registers (config : SchemaConfig) (node : SchemaNode) : NodeAction → Prop
  | .validate info _ _ _ => ∀ stored, node.storedSpec config info = some stored →
      SchemaChangeDetector.detectChanges config.toLowercase stored info.currentSpec = []
  | .propose _ _ | .vote _ _ | .approve _ _ _ _ | .reject _ _ _ | .sync _ | .rollback _ _
  | .revalidate _ _ | .lock _ _ | .unlock _ _ _ _ | .applyChange _ _ _ => False

end NodeAction

/-- A node beside the change that was applied last to each model, with the schema before it. -/
structure LedgerState extends SchemaNode where
  lastApplied : String → Option (Uuid × Option ModelSpec)

def LedgerState.step (config : SchemaConfig) (s : LedgerState) (action : NodeAction) :
    Option LedgerState :=
  some ⟨action.run config s.toSchemaNode,
    match action.applied config s.toSchemaNode with
    | some (changeId, modelName) =>
      Function.update s.lastApplied modelName (some (changeId, s.schemas.lookup modelName))
    | none => s.lastApplied⟩

/-! ### What is meant to hold -/

/-- A change of the current schemas comes with one record. -/
def Recorded (config : SchemaConfig) (s : LedgerState) (action : NodeAction) : Prop :=
  (action.run config s.toSchemaNode).schemas ≠ s.schemas →
    ¬ action.Registers config s.toSchemaNode →
      ∃ record, (action.run config s.toSchemaNode).changeHistory = s.changeHistory ++ [record]

/-- A rollback of what was applied last to a model brings back what was current before. -/
def Restored (config : SchemaConfig) (s : LedgerState) (action : NodeAction) : Prop :=
  ∀ changeId now, action = .rollback changeId now → ∀ modelName before,
    s.lastApplied modelName = some (changeId, before) →
      (action.run config s.toSchemaNode).schemas.lookup modelName = before

/-- A proposal, vote, approval or rollback does not lead to another schema. -/
def LeavesSchemas (config : SchemaConfig) (node : SchemaNode) : NodeAction → Prop
  | .propose change _ =>
    node.policy.strategyFor change.overallStrategy = .autoAccept →
      node.schemas.lookup change.modelName = some change.newSpec
  | .vote request now => ∀ change, node.Waits request.changeId change →
      (change.voted request now).hasEnoughApprovals node.policy config.totalNodes = true →
        node.schemas.lookup change.modelName = some change.newSpec
  | .approve changeId userId userName now => ∀ change, node.Waits changeId change →
      (change.addHumanApproval userId userName now).hasEnoughApprovals node.policy
          config.totalNodes = true →
        node.schemas.lookup change.modelName = some change.newSpec
  | .rollback changeId _ => ∀ record previous, node.Revertible changeId record previous →
      (config.save node.files previous).2 = true →
        node.schemas.lookup record.modelName = some previous
  | .reject _ _ _ | .sync _ | .revalidate _ _ | .lock _ _ | .unlock _ _ _ _ | .applyChange _ _ _
  | .validate _ _ _ _ => True

/-- A rollback of the change goes back to a schema of the model, which can be saved. -/
def SchemaNode.GoesBack (config : SchemaConfig) (node : SchemaNode) (changeId : Uuid)
    (modelName : String) (previous : ModelSpec) : Prop :=
  ∃ record, node.Revertible changeId record previous ∧ record.modelName = modelName ∧
    (config.save node.files previous).2 = true

/-- For each model that the change was applied to last, the rollback goes back to the schema that
was current before, or that one is current already and the rollback is not for the model. -/
def GoesBackRightly (config : SchemaConfig) (s : LedgerState) : NodeAction → Prop
  | .rollback changeId _ => ∀ modelName before, s.lastApplied modelName = some (changeId, before) →
      (∃ previous, before = some previous ∧ s.GoesBack config changeId modelName previous) ∨
        (s.schemas.lookup modelName = before ∧
          ∀ previous, ¬ s.GoesBack config changeId modelName previous)
  | .propose _ _ | .vote _ _ | .approve _ _ _ _ | .reject _ _ _ | .sync _ | .revalidate _ _
  | .lock _ _ | .unlock _ _ _ _ | .applyChange _ _ _ | .validate _ _ _ _ => True

/-! ### One step -/

section Steps

variable {config : SchemaConfig} {s : LedgerState} {node : SchemaNode} {action : NodeAction}
  {changeId : Uuid} {modelName : String} {before : Option ModelSpec}

/-- What writes no record must not change the schemas. -/
theorem recorded_iff_of_changeHistory_eq (hregisters : ¬ action.Registers config s.toSchemaNode)
    (hhistory : (action.run config s.toSchemaNode).changeHistory = s.changeHistory) :
    Recorded config s action ↔ (action.run config s.toSchemaNode).schemas = s.schemas := by
  unfold Recorded
  rw [hhistory]
  constructor
  · intro h
    by_contra hchanged
    obtain ⟨record, hrecord⟩ := h hchanged hregisters
    exact absurd (List.self_eq_append_right.mp hrecord) (List.cons_ne_nil record [])
  · exact fun h hchanged ↦ absurd h hchanged

theorem schemas_revalidateModel (info : ModelInfo) (recordId : Uuid) (now : ℕ) :
    (node.revalidateModel config info recordId now).1.schemas = node.schemas := by
  unfold SchemaNode.revalidateModel
  split
  · rfl
  · split
    · rfl
    · dsimp only
      split_ifs
      · rfl
      · rfl
  · rfl

theorem schemas_revalidateModels (recordId : String → Uuid) (now : ℕ) (models : List ModelInfo) :
    (SchemaNode.revalidateModels config recordId now node models).1.schemas = node.schemas := by
  induction models generalizing node with
  | nil => rfl
  | cons info rest ih =>
    have hfirst : (node.revalidateModel config info (recordId info.name) now).1.schemas =
        node.schemas := schemas_revalidateModel info (recordId info.name) now
    unfold SchemaNode.revalidateModels
    split
    · next heq => rw [← hfirst, heq]
    · next heq => rw [ih, ← hfirst, heq]

/-- A start of the server that changes a schema writes a record, but for schemas that it makes
known. -/
theorem recorded_validate (info : ModelInfo) (changeId recordId : Uuid) (now : ℕ) :
    Recorded config s (.validate info changeId recordId now) := by
  intro hchanged hregisters
  unfold NodeAction.run SchemaNode.validateModel at hchanged ⊢
  dsimp only at hchanged ⊢
  cases hstored : s.storedSpec config info with
  | none =>
    exact absurd (fun stored hsome ↦ absurd (hstored.symm.trans hsome) (Option.some_ne_none _).symm)
      hregisters
  | some stored =>
    rw [hstored] at hchanged
    dsimp only at hchanged ⊢
    cases hchanges : SchemaChangeDetector.detectChanges config.toLowercase stored
        info.currentSpec with
    | nil =>
      refine absurd (fun other hsome ↦ ?_) hregisters
      obtain rfl := Option.some.inj (hstored.symm.trans hsome)
      exact hchanges
    | cons first rest =>
      rw [hchanges] at hchanged
      dsimp only at hchanged ⊢
      split_ifs at hchanged ⊢ with hlocked hcluster
      · exact absurd rfl hchanged
      · split at hchanged
        · exact ⟨_, rfl⟩
        · exact absurd rfl hchanged
        · exact absurd rfl hchanged
      · split at hchanged
        · exact absurd rfl hchanged
        · exact absurd rfl hchanged
        · split at hchanged
          · exact absurd rfl hchanged
          · exact absurd rfl hchanged
        · exact absurd rfl hchanged

theorem schemas_revalidate (recordId : String → Uuid) (now : ℕ) :
    (node.handleAdminSchemaRevalidate config recordId now).1.schemas = node.schemas := by
  have hmodels : (SchemaNode.revalidateModels config recordId now node config.models).1.schemas =
      node.schemas := schemas_revalidateModels recordId now config.models
  unfold SchemaNode.handleAdminSchemaRevalidate
  split_ifs
  · rfl
  · split
    · next heq => rw [← hmodels, heq]
    · next heq => rw [← hmodels, heq]

/-- `apply_change` writes a record of what it applies. -/
theorem recorded_applyChange (changeId : Uuid) (appliedByNode now : ℕ) :
    Recorded config s (.applyChange changeId appliedByNode now) := by
  intro hchanged _
  unfold NodeAction.run SchemaSyncState.applyChange at hchanged ⊢
  dsimp only at hchanged ⊢
  cases hlookup : s.pendingChanges.lookup changeId with
  | none =>
    rw [hlookup] at hchanged
    exact absurd rfl hchanged
  | some change => exact ⟨_, rfl⟩

theorem recorded_iff : Recorded config s action ↔ LeavesSchemas config s.toSchemaNode action := by
  cases action with
  | propose change now =>
    refine (recorded_iff_of_changeHistory_eq id ?_).trans SchemaSyncState.schemas_propose_iff
    exact (s.keepsRest_propose change now).changeHistory
  | vote request now =>
    refine (recorded_iff_of_changeHistory_eq id ?_).trans SchemaSyncState.schemas_vote_iff
    exact (s.keepsRest_vote request config.totalNodes now).changeHistory
  | approve changeId userId userName now =>
    refine (recorded_iff_of_changeHistory_eq id ?_).trans SchemaNode.schemas_approve_iff
    exact (congrArg SchemaSyncState.changeHistory SchemaNode.approve_state).trans
      (s.keepsRest_approve changeId userId userName config.totalNodes now).changeHistory
  | rollback changeId now =>
    refine (recorded_iff_of_changeHistory_eq id ?_).trans SchemaNode.schemas_rollback_iff
    exact SchemaNode.keepsRest_rollback.changeHistory
  | reject changeId reason now =>
    exact iff_of_true (fun hchanged ↦ absurd SchemaSyncState.schemas_reject hchanged) trivial
  | sync now =>
    exact iff_of_true (fun hchanged ↦ absurd (congrArg (·.schemas) SchemaNode.sync_fst) hchanged)
      trivial
  | revalidate recordId now =>
    exact iff_of_true (fun hchanged ↦ absurd (schemas_revalidate recordId now) hchanged) trivial
  | lock reason now | unlock reason durationSecs unlockedBy now =>
    exact iff_of_true (fun hchanged ↦ absurd rfl hchanged) trivial
  | applyChange changeId appliedByNode now =>
    exact iff_of_true (recorded_applyChange changeId appliedByNode now) trivial
  | validate info changeId recordId now =>
    exact iff_of_true (recorded_validate info changeId recordId now) trivial

/-- The current schema of a model after a rollback. -/
theorem lookup_rollback_iff :
    (node.handleAdminSchemaRollback config changeId).1.schemas.lookup modelName = before ↔
      (∃ previous, before = some previous ∧ node.GoesBack config changeId modelName previous) ∨
        (node.schemas.lookup modelName = before ∧
          ∀ previous, ¬ node.GoesBack config changeId modelName previous) := by
  by_cases h : ∃ previous, node.GoesBack config changeId modelName previous
  · obtain ⟨previous, record, hrevertible, rfl, hsaved⟩ := h
    rw [SchemaNode.rollback_of_revertible hrevertible, if_pos hsaved, Finmap.lookup_insert]
    constructor
    · rintro rfl
      exact Or.inl ⟨previous, rfl, record, hrevertible, rfl, hsaved⟩
    · rintro (⟨old, rfl, other, hother, -, -⟩ | ⟨-, hnot⟩)
      · rw [(hrevertible.unique hother).2]
      · exact absurd ⟨record, hrevertible, rfl, hsaved⟩ (hnot previous)
  · push Not at h
    have hsame : (node.handleAdminSchemaRollback config changeId).1.schemas.lookup modelName =
        node.schemas.lookup modelName := by
      by_cases hany : ∃ record previous, node.Revertible changeId record previous
      · obtain ⟨record, previous, hrevertible⟩ := hany
        rw [SchemaNode.rollback_of_revertible hrevertible]
        dsimp only
        split_ifs with hsaved
        · have hother : modelName ≠ record.modelName := fun heq ↦
            h previous ⟨record, hrevertible, heq.symm, hsaved⟩
          rw [Finmap.lookup_insert_of_ne _ hother]
        · rfl
      · push Not at hany
        rw [SchemaNode.rollback_of_not_revertible hany]
    rw [hsame]
    constructor
    · exact fun hbefore ↦ Or.inr ⟨hbefore, h⟩
    · rintro (⟨previous, -, hback⟩ | ⟨hbefore, -⟩)
      · exact absurd hback (h previous)
      · exact hbefore

theorem restored_iff : Restored config s action ↔ GoesBackRightly config s action := by
  cases action with
  | rollback changeId now =>
    constructor
    · intro h modelName before hlast
      exact lookup_rollback_iff.mp (h changeId now rfl modelName before hlast)
    · rintro h changeId now heq modelName before hlast
      obtain ⟨rfl, rfl⟩ := NodeAction.rollback.inj heq
      exact lookup_rollback_iff.mpr (h modelName before hlast)
  | propose change now | vote request now | approve changeId userId userName now
  | reject changeId reason now | sync now | revalidate recordId now | lock reason now
  | unlock reason durationSecs unlockedBy now | applyChange changeId appliedByNode now
  | validate info changeId recordId now =>
    exact iff_of_true (fun _ _ heq ↦ NodeAction.noConfusion heq) trivial

end Steps

/-! ### Runs -/

/-- In every run of the operations of a node: each change of the current schemas is recorded once,
and each rollback of what was applied last brings back what was current before, exactly when every
operation meets the conditions. -/
theorem keepsHistory_iff (config : SchemaConfig) (start : SchemaNode) (actions : List NodeAction) :
    EachStep (LedgerState.step config)
        (fun s action ↦ Recorded config s action ∧ Restored config s action)
        ⟨start, fun _ ↦ none⟩ actions ↔
      EachStep (LedgerState.step config)
        (fun s action ↦ LeavesSchemas config s.toSchemaNode action ∧
          GoesBackRightly config s action) ⟨start, fun _ ↦ none⟩ actions :=
  eachStep_congr fun _ _ _ _ ↦ and_congr recorded_iff restored_iff

/-- A proposal that is accepted automatically is not recorded. -/
theorem accepted_unrecorded :
    ¬ EachStep (LedgerState.step threeNodeConfig)
      (fun s action ↦ Recorded threeNodeConfig s action ∧ Restored threeNodeConfig s action)
      ⟨⟨SchemaSyncState.withPolicy .default, ∅⟩, fun _ ↦ none⟩
      [.propose (customerChange 5 .additive) 10] := by
  intro h
  obtain ⟨⟨hrecorded, -⟩, -⟩ := h _ rfl
  have hchanged : ((NodeAction.propose (customerChange 5 .additive) 10).run threeNodeConfig
      ⟨SchemaSyncState.withPolicy .default, ∅⟩).schemas ≠
        (SchemaSyncState.withPolicy .default).schemas := by
    intro hschemas
    have hlookup := congrArg (fun schemas ↦ (schemas.lookup "Customer").isSome) hschemas
    exact absurd hlookup (by decide)
  obtain ⟨record, hrecord⟩ := hrecorded hchanged id
  exact List.cons_ne_nil record [] hrecord.symm

end Lithair.Schema
