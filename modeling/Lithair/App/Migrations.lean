import Lithair.Cluster.Migration
import Lithair.Cluster.WalCodec

/-!
# Migrations that go through the log

The branches of `apply_crud_operation` in `app/mod.rs` for the steps of a migration, with
`apply_schema_change`, which only logs a change and gives what would undo it. A step is applied
first and then recorded, and a step that cannot be recorded counts as applied all the same; a commit
carries a checksum that nothing looks at; and a node without a migration manager acknowledges
everything.

`logged_and_lawful_iff` says in which runs the migrations are what they are meant to be: those in
which each step belongs to the active migration and each commit carries the checksum of the steps.
-/

namespace Lithair.App

open Lithair.Cluster Lithair.Lib Lithair.Lib.Run

/-- How an identifier and a list of texts are displayed. -/
structure MigrationTexts where
  uuid : Uuid → String
  debugList : List String → String

/-- A node: its migration manager, which it has only in a cluster, and the schema changes that were
applied to it. -/
structure MigrationNode where
  manager : Option MigrationManager
  applied : List SchemaChange

section Operations

variable (texts : MigrationTexts)

/-- What undoes a schema change. Where the change does not say what was there before, it is only a
description. -/
def inverseChange : SchemaChange → SchemaChange
  | .addModel name _ => .removeModel name none
  | .removeModel name _ =>
    .custom ("Restore model: " ++ name) ("restore_model:" ++ name) ("remove_model:" ++ name)
  | .addField model field _ => .removeField model field.name
  | .removeField model field =>
    .custom ("Restore field: " ++ model ++ "." ++ field) ("restore_field:" ++ model ++ ":" ++ field)
      ("remove_field:" ++ model ++ ":" ++ field)
  | .renameField model oldName newName => .renameField model newName oldName
  | .changeFieldType model field newType _ =>
    .custom ("Restore field type: " ++ model ++ "." ++ field)
      ("restore_type:" ++ model ++ ":" ++ field)
      ("change_type:" ++ model ++ ":" ++ field ++ ":" ++ newType.name)
  | .addIndex model fields unique =>
    .custom ("Remove index on " ++ model ++ "." ++ texts.debugList fields)
      ("drop_index:" ++ model ++ ":" ++ String.intercalate "," fields)
      ("create_index:" ++ model ++ ":" ++ String.intercalate "," fields ++ ":" ++ toString unique)
  | .custom description forward backward => .custom ("Undo: " ++ description) backward forward

/-- No change fails. -/
def applySchemaChange (node : MigrationNode) (change : SchemaChange) :
    MigrationNode × Except String SchemaChange :=
  ({ node with applied := node.applied ++ [change] }, .ok (inverseChange texts change))

/-- Apply what is to be rolled back, and collect the errors. -/
def applyRollbackOps (node : MigrationNode) : List RollbackOp → MigrationNode × List String
  | [] => (node, [])
  | op :: rest =>
    match applySchemaChange texts node op.operation with
    | (node, .ok _) => applyRollbackOps node rest
    | (node, .error e) =>
      let (node, errors) := applyRollbackOps node rest
      (node, ("Step " ++ toString op.stepIndex.toNat ++ ": " ++ e) :: errors)

def noManagerWarning : Json := .string "No migration manager available"

/-- Apply the part of a migration that an operation is. -/
def applyMigrationOperation (node : MigrationNode) (now : UInt64) :
    CrudOperation → Option (MigrationNode × Except String Json)
  | .create .. | .update .. | .delete .. => none
  | .migrationBegin fromVersion toVersion migrationId =>
    match node.manager with
    | some manager =>
      match manager.beginMigration migrationId fromVersion toVersion now with
      | (manager, .ok ()) =>
        some ({ node with manager := some manager }, .ok (.ofFields [
          ("status", .string "started"),
          ("migration_id", .string (texts.uuid migrationId)),
          ("from", .string fromVersion.display),
          ("to", .string toVersion.display)]))
      | (manager, .error e) => some ({ node with manager := some manager }, .error e)
    | none =>
      some (node, .ok (.ofFields [
        ("status", .string "acknowledged"),
        ("warning", noManagerWarning),
        ("migration_id", .string (texts.uuid migrationId)),
        ("from", .string fromVersion.display),
        ("to", .string toVersion.display)]))
  | .migrationStep migrationId stepIndex operation =>
    match applySchemaChange texts node operation with
    | (node, .ok rollbackOp) =>
      -- when the step cannot be recorded, that is only logged
      let manager := node.manager.map fun manager ↦
        (manager.recordStep texts.uuid migrationId stepIndex rollbackOp none now).1
      some ({ node with manager }, .ok (.ofFields [
        ("status", .string "applied"),
        ("migration_id", .string (texts.uuid migrationId)),
        ("step_index", u32Value stepIndex)]))
    | (node, .error e) =>
      some (node, .error ("Migration step " ++ toString stepIndex.toNat ++ " failed: " ++ e))
  | .migrationCommit migrationId checksum =>
    match node.manager with
    | some manager =>
      match manager.getMigration migrationId with
      | some context =>
        match manager.commitMigration texts.uuid migrationId context.toVersion now with
        | (manager, .ok ()) =>
          some ({ node with manager := some manager }, .ok (.ofFields [
            ("status", .string "committed"),
            ("migration_id", .string (texts.uuid migrationId)),
            ("checksum", .string checksum)]))
        | (manager, .error e) => some ({ node with manager := some manager }, .error e)
      | none => some (node, .error (MigrationManager.notFound texts.uuid migrationId))
    | none =>
      some (node, .ok (.ofFields [
        ("status", .string "acknowledged"),
        ("warning", noManagerWarning),
        ("migration_id", .string (texts.uuid migrationId)),
        ("checksum", .string checksum)]))
  | .migrationRollback migrationId failedStep reason =>
    match node.manager with
    | some manager =>
      match manager.rollbackMigration texts.uuid migrationId now with
      | (manager, .ok rollbackOps) =>
        match applyRollbackOps texts { node with manager := some manager } rollbackOps with
        | (node, []) =>
          some (node, .ok (.ofFields [
            ("status", .string "rolled_back"),
            ("migration_id", .string (texts.uuid migrationId)),
            ("failed_step", u32Value failedStep),
            ("reason", .string reason)]))
        | (node, errors) =>
          some (node, .ok (.ofFields [
            ("status", .string "partial_rollback"),
            ("migration_id", .string (texts.uuid migrationId)),
            ("failed_step", u32Value failedStep),
            ("reason", .string reason),
            ("rollback_errors", .array (errors.map .string))]))
      | (manager, .error e) => some ({ node with manager := some manager }, .error e)
    | none =>
      some (node, .ok (.ofFields [
        ("status", .string "acknowledged"),
        ("warning", noManagerWarning),
        ("migration_id", .string (texts.uuid migrationId)),
        ("failed_step", u32Value failedStep),
        ("reason", .string reason)]))

end Operations

/-! ### Runs -/

/-- A node, and of each migration the steps that were applied since it began, as long as it is
neither committed nor rolled back. -/
structure MigrationRun where
  node : MigrationNode
  steps : Uuid → List (UInt32 × SchemaChange)

/-- What an operation that is not answered with an error makes of the applied steps. -/
def stepsAfter (steps : Uuid → List (UInt32 × SchemaChange)) :
    CrudOperation → Uuid → List (UInt32 × SchemaChange)
  | .migrationBegin _ _ id | .migrationCommit id _ | .migrationRollback id _ _ =>
    Function.update steps id []
  | .migrationStep id stepIndex operation =>
    Function.update steps id (steps id ++ [(stepIndex, operation)])
  | .create .. | .update .. | .delete .. => steps

namespace MigrationRun

variable (texts : MigrationTexts) (checksumOf : List (UInt32 × SchemaChange) → String)

/-- A node after its start, in a cluster with a version of the schema, or without one. -/
def start (initialVersion : Option Version) : MigrationRun where
  node := ⟨initialVersion.map .new, []⟩
  steps := fun _ ↦ []

/-- Apply an operation at some time. -/
def step (s : MigrationRun) (action : CrudOperation × UInt64) : Option MigrationRun :=
  (applyMigrationOperation texts s.node action.2 action.1).map fun (node, answer) ↦
    match answer with
    | .ok _ => ⟨node, stepsAfter s.steps action.1⟩
    | .error _ => ⟨node, s.steps⟩

/-- The context of a migration that is active. -/
def context (s : MigrationRun) (id : Uuid) : Option MigrationContext :=
  s.node.manager.bind fun manager ↦ manager.getMigration id

/-- Each applied step is in the log of the active migration, with what undoes it. -/
def StepsLogged (s : MigrationRun) : Prop :=
  ∀ id, ∀ step ∈ s.steps id, ∃ context, s.context id = some context ∧
    (step.1, inverseChange texts step.2) ∈ MigrationManager.pairs context.rollbackLog

/-- A step of a migration that is not active fails and changes nothing, a commit succeeds only with
the checksum of the applied steps, and a rollback applies what undoes them, the last first. -/
def Lawful (s : MigrationRun) (action : CrudOperation × UInt64) : Prop :=
  ∀ node answer, applyMigrationOperation texts s.node action.2 action.1 = some (node, answer) →
    match action.1 with
    | .migrationStep id _ _ => s.context id = none →
        (∃ message, answer = .error message) ∧ node = s.node
    | .migrationCommit id checksum => (∃ value, answer = .ok value) →
        checksum = checksumOf (s.steps id)
    | .migrationRollback id _ _ => (∃ value, answer = .ok value) →
        node.applied = s.node.applied ++
          ((s.steps id).map fun step ↦ inverseChange texts step.2).reverse
    | _ => True

/-- A step belongs to the active migration, and a commit of the active migration, or on a node
without a manager, carries the checksum of the applied steps. -/
def InPlace (s : MigrationRun) (action : CrudOperation × UInt64) : Prop :=
  match action.1 with
  | .migrationStep id _ _ => s.context id ≠ none
  | .migrationCommit id checksum => (s.node.manager = none ∨ s.context id ≠ none) →
      checksum = checksumOf (s.steps id)
  | _ => True

/-! ### What an operation does -/

variable {texts checksumOf} {s next : MigrationRun} {id : Uuid} {now : UInt64}

/-- What is rolled back is applied, and nothing of it fails. -/
theorem applyRollbackOps_eq (node : MigrationNode) (ops : List RollbackOp) :
    applyRollbackOps texts node ops =
      ({ node with applied := node.applied ++ ops.map RollbackOp.operation }, []) := by
  induction ops generalizing node with
  | nil => simp [applyRollbackOps]
  | cons op rest ih =>
    show applyRollbackOps texts { node with applied := node.applied ++ [op.operation] } rest = _
    rw [ih, List.map_cons, List.append_assoc]
    rfl

theorem context_eq {manager : MigrationManager} (h : s.node.manager = some manager) (id : Uuid) :
    s.context id = manager.active.lookup id := by
  unfold context
  rw [h]
  rfl

theorem context_of_no_manager (h : s.node.manager = none) (id : Uuid) : s.context id = none := by
  unfold context
  rw [h]
  rfl

/-- An operation that begins or ends a migration: nothing is recorded of it, and the others are what
they were. -/
structure Resets (s next : MigrationRun) (id : Uuid) : Prop where
  steps : next.steps = Function.update s.steps id []
  log : ∀ context, next.context id = some context → context.rollbackLog = []
  others : ∀ other, other ≠ id → next.context other = s.context other

/-- A step that is applied: it is recorded if its migration is active. -/
structure Applies (texts : MigrationTexts) (s next : MigrationRun) (id : Uuid) (stepIndex : UInt32)
    (change : SchemaChange) (now : UInt64) : Prop where
  steps : next.steps = Function.update s.steps id (s.steps id ++ [(stepIndex, change)])
  context : next.context id = (s.context id).map fun context ↦
    context.recordStep stepIndex (inverseChange texts change) none now
  others : ∀ other, other ≠ id → next.context other = s.context other

theorem resets_of_no_manager (hmanager : s.node.manager = none)
    (hnext : next.node.manager = none) (hsteps : next.steps = Function.update s.steps id []) :
    Resets s next id where
  steps := hsteps
  log := by
    intro context hcontext
    rw [context_of_no_manager hnext] at hcontext
    nomatch hcontext
  others := by
    intro other _
    rw [context_of_no_manager hnext, context_of_no_manager hmanager]

theorem step_begin {fromVersion toVersion : Version}
    (h : step texts s (.migrationBegin fromVersion toVersion id, now) = some next) :
    next = s ∨ Resets s next id := by
  unfold step applyMigrationOperation at h
  cases hmanager : s.node.manager with
  | none =>
    simp only [hmanager, Option.map_some, Option.some.injEq] at h
    subst h
    exact Or.inr (resets_of_no_manager hmanager hmanager rfl)
  | some manager =>
    rcases manager.beginMigration_cases id fromVersion toVersion now with
      ⟨message, hfailed⟩ | ⟨-, -, hdone⟩
    · left
      simp only [hmanager, hfailed, Option.map_some, Option.some.injEq] at h
      rw [← h, ← hmanager]
    · right
      simp only [hmanager, hdone, Option.map_some, Option.some.injEq] at h
      subst h
      refine ⟨rfl, fun context hcontext ↦ ?_, fun other hother ↦ ?_⟩
      · rw [context_eq rfl, Finmap.lookup_insert, Option.some.injEq] at hcontext
        rw [← hcontext]
        rfl
      · rw [context_eq rfl, context_eq hmanager, Finmap.lookup_insert_of_ne _ hother]

theorem step_migrationStep {stepIndex : UInt32} {change : SchemaChange}
    (h : step texts s (.migrationStep id stepIndex change, now) = some next) :
    Applies texts s next id stepIndex change now := by
  unfold step applyMigrationOperation applySchemaChange at h
  simp only [Option.map_some, Option.some.injEq] at h
  cases hmanager : s.node.manager with
  | none =>
    simp only [hmanager, Option.map_none] at h
    subst h
    refine ⟨rfl, ?_, fun other _ ↦ ?_⟩
    · rw [context_of_no_manager hmanager]
      exact context_of_no_manager rfl id
    · rw [context_of_no_manager hmanager]
      exact context_of_no_manager rfl other
  | some manager =>
    simp only [hmanager, Option.map_some] at h
    cases hlookup : manager.active.lookup id with
    | none =>
      rw [MigrationManager.recordStep_of_none texts.uuid hlookup] at h
      subst h
      refine ⟨rfl, ?_, fun other _ ↦ ?_⟩
      · rw [context_eq rfl, context_eq hmanager, hlookup]
        rfl
      · rw [context_eq rfl, context_eq hmanager]
    | some context =>
      rw [MigrationManager.recordStep_of_some texts.uuid hlookup] at h
      subst h
      refine ⟨rfl, ?_, fun other hother ↦ ?_⟩
      · rw [context_eq rfl, context_eq hmanager, hlookup, Finmap.lookup_insert]
        rfl
      · rw [context_eq rfl, context_eq hmanager, Finmap.lookup_insert_of_ne _ hother]

/-- The migration is over. -/
theorem resets_erase {manager : MigrationManager} (hmanager : s.node.manager = some manager)
    {moved : MigrationManager} (hactive : moved.active = manager.active.erase id)
    (hnext : next.node.manager = some moved) (hsteps : next.steps = Function.update s.steps id []) :
    Resets s next id where
  steps := hsteps
  log := by
    intro context hcontext
    rw [context_eq hnext, hactive, Finmap.lookup_erase] at hcontext
    nomatch hcontext
  others := by
    intro other hother
    rw [context_eq hnext, hactive, context_eq hmanager, Finmap.lookup_erase_ne hother]

/-- A commit fails when the node has a manager and the migration is not active. -/
theorem step_commit {checksum : String}
    (h : step texts s (.migrationCommit id checksum, now) = some next) :
    (next = s ∨ Resets s next id) ∧
      ∀ node answer, applyMigrationOperation texts s.node now (.migrationCommit id checksum) =
        some (node, answer) →
        ((∃ value, answer = .ok value) ↔ s.node.manager = none ∨ s.context id ≠ none) := by
  unfold step at h
  unfold applyMigrationOperation at h ⊢
  cases hmanager : s.node.manager with
  | none =>
    simp only [hmanager, Option.map_some, Option.some.injEq, Prod.mk.injEq] at h ⊢
    subst h
    refine ⟨Or.inr (resets_of_no_manager hmanager hmanager rfl), ?_⟩
    rintro node answer ⟨-, rfl⟩
    exact iff_of_true ⟨_, rfl⟩ (Or.inl trivial)
  | some manager =>
    rw [context_eq hmanager]
    cases hlookup : manager.active.lookup id with
    | none =>
      simp only [hmanager, MigrationManager.getMigration, hlookup, Option.map_some,
        Option.some.injEq, Prod.mk.injEq] at h ⊢
      refine ⟨Or.inl h.symm, ?_⟩
      rintro node answer ⟨-, rfl⟩
      simp
    | some context =>
      simp only [hmanager, MigrationManager.getMigration, hlookup,
        MigrationManager.commitMigration_of_some texts.uuid hlookup, Option.map_some,
        Option.some.injEq, Prod.mk.injEq] at h ⊢
      subst h
      refine ⟨Or.inr (resets_erase hmanager rfl rfl rfl), ?_⟩
      rintro node answer ⟨-, rfl⟩
      simp

/-- A rollback applies what the log of the migration says. -/
theorem step_rollback {failedStep : UInt32} {reason : String}
    (h : step texts s (.migrationRollback id failedStep reason, now) = some next) :
    (next = s ∨ Resets s next id) ∧
      ∀ node answer,
        applyMigrationOperation texts s.node now (.migrationRollback id failedStep reason) =
          some (node, answer) → (∃ value, answer = .ok value) →
        (s.context id = none ∧ node.applied = s.node.applied) ∨
          ∃ context, s.context id = some context ∧ node.applied =
            s.node.applied ++ context.rollbackLog.reverse.map RollbackOp.operation := by
  unfold step at h
  unfold applyMigrationOperation at h ⊢
  cases hmanager : s.node.manager with
  | none =>
    simp only [hmanager, Option.map_some, Option.some.injEq, Prod.mk.injEq] at h ⊢
    subst h
    refine ⟨Or.inr (resets_of_no_manager hmanager hmanager rfl), ?_⟩
    rintro node answer ⟨rfl, -⟩ -
    exact Or.inl ⟨context_of_no_manager hmanager id, rfl⟩
  | some manager =>
    rw [context_eq hmanager]
    cases hlookup : manager.active.lookup id with
    | none =>
      simp only [hmanager, MigrationManager.rollbackMigration_of_none texts.uuid hlookup,
        Option.map_some, Option.some.injEq, Prod.mk.injEq] at h ⊢
      refine ⟨Or.inl ?_, ?_⟩
      · rw [← h, ← hmanager]
      · rintro node answer ⟨-, rfl⟩ ⟨value, hvalue⟩
        nomatch hvalue
    | some context =>
      simp only [hmanager, MigrationManager.rollbackMigration_of_some texts.uuid hlookup,
        applyRollbackOps_eq, Option.map_some, Option.some.injEq, Prod.mk.injEq] at h ⊢
      subst h
      refine ⟨Or.inr (resets_erase hmanager rfl rfl rfl), ?_⟩
      rintro node answer ⟨rfl, -⟩ -
      exact Or.inr ⟨context, rfl, rfl⟩

/-! ### What runs keep -/

/-- The log of an active migration is what undoes the steps that were applied since it began. -/
def Synced (texts : MigrationTexts) (s : MigrationRun) : Prop :=
  ∀ id context, s.context id = some context →
    MigrationManager.pairs context.rollbackLog =
      (s.steps id).map fun step ↦ (step.1, inverseChange texts step.2)

theorem synced_start (initialVersion : Option Version) : Synced texts (start initialVersion) := by
  intro id context hcontext
  cases initialVersion with
  | none => nomatch hcontext
  | some version =>
    rw [context_eq rfl] at hcontext
    nomatch hcontext.symm.trans (Finmap.lookup_empty id)

theorem Resets.synced (h : Resets s next id) (hs : Synced texts s) : Synced texts next := by
  intro other context hcontext
  rw [h.steps]
  by_cases hother : other = id
  · subst hother
    rw [Function.update_self, h.log context hcontext]
    rfl
  · rw [Function.update_of_ne hother]
    exact hs other context (h.others other hother ▸ hcontext)

theorem Resets.stepsLogged (h : Resets s next id) (hs : s.StepsLogged texts) :
    next.StepsLogged texts := by
  intro other step hstep
  rw [h.steps] at hstep
  by_cases hother : other = id
  · rw [hother, Function.update_self] at hstep
    nomatch hstep
  · rw [Function.update_of_ne hother] at hstep
    rw [h.others other hother]
    exact hs other step hstep

theorem Applies.synced {stepIndex : UInt32} {change : SchemaChange}
    (h : Applies texts s next id stepIndex change now) (hs : Synced texts s) :
    Synced texts next := by
  intro other context hcontext
  rw [h.steps]
  by_cases hother : other = id
  · subst hother
    rw [h.context] at hcontext
    obtain ⟨before, hbefore, rfl⟩ := Option.map_eq_some_iff.mp hcontext
    rw [Function.update_self, List.map_append, ← hs other before hbefore]
    exact List.map_append
  · rw [Function.update_of_ne hother]
    exact hs other context (h.others other hother ▸ hcontext)

theorem Applies.stepsLogged {stepIndex : UInt32} {change : SchemaChange}
    (h : Applies texts s next id stepIndex change now) (hs : s.StepsLogged texts)
    (hactive : s.context id ≠ none) : next.StepsLogged texts := by
  obtain ⟨context, hcontext⟩ := Option.ne_none_iff_exists'.mp hactive
  intro other step hstep
  rw [h.steps] at hstep
  by_cases hother : other = id
  · subst hother
    rw [h.context, hcontext]
    refine ⟨_, rfl, ?_⟩
    show _ ∈ MigrationManager.pairs (context.rollbackLog ++ [_])
    rw [MigrationManager.pairs, List.map_append]
    rw [Function.update_self, List.mem_append, List.mem_singleton] at hstep
    rcases hstep with hold | rfl
    · obtain ⟨_, hsame, hmem⟩ := hs other step hold
      rw [hcontext, Option.some.injEq] at hsame
      subst hsame
      exact List.mem_append_left _ hmem
    · exact List.mem_append_right _ (List.mem_singleton_self _)
  · rw [Function.update_of_ne hother] at hstep
    rw [h.others other hother]
    exact hs other step hstep

theorem step_ne_some {operation : CrudOperation}
    (hdata : applyMigrationOperation texts s.node now operation = none) :
    step texts s (operation, now) ≠ some next := by
  unfold step
  rw [hdata]
  exact (Option.some_ne_none next).symm

theorem kept_synced : Kept (step texts) (Synced texts) := by
  intro s action next hs hnext
  obtain ⟨operation, now⟩ := action
  cases operation with
  | create | update | delete => exact absurd hnext (step_ne_some rfl)
  | migrationBegin fromVersion toVersion id =>
    rcases step_begin hnext with rfl | hresets
    · exact hs
    · exact hresets.synced hs
  | migrationStep id stepIndex change => exact (step_migrationStep hnext).synced hs
  | migrationCommit id checksum =>
    rcases (step_commit hnext).1 with rfl | hresets
    · exact hs
    · exact hresets.synced hs
  | migrationRollback id failedStep reason =>
    rcases (step_rollback hnext).1 with rfl | hresets
    · exact hs
    · exact hresets.synced hs

/-- What a rollback applies, where all steps that were applied are logged. -/
theorem lawful_rollback (hsynced : Synced texts s) (hlogged : s.StepsLogged texts)
    {failedStep : UInt32} {reason : String}
    (hnext : step texts s (.migrationRollback id failedStep reason, now) = some next) :
    Lawful texts checksumOf s (.migrationRollback id failedStep reason, now) := by
  intro node answer hanswer hok
  rcases (step_rollback hnext).2 node answer hanswer hok with
    ⟨hnone, happlied⟩ | ⟨context, hcontext, happlied⟩
  · have hsteps : s.steps id = [] := by
      rw [List.eq_nil_iff_forall_not_mem]
      intro step hstep
      obtain ⟨context, hcontext, -⟩ := hlogged id step hstep
      nomatch hcontext.symm.trans hnone
    rw [happlied, hsteps]
    simp
  · have hchanges : context.rollbackLog.map RollbackOp.operation =
        (s.steps id).map fun step ↦ inverseChange texts step.2 := by
      have hpairs := congrArg (List.map Prod.snd) (hsynced id context hcontext)
      rw [MigrationManager.pairs, List.map_map, List.map_map] at hpairs
      exact hpairs
    rw [happlied, List.map_reverse, hchanges]

theorem logged_and_lawful_step (s : MigrationRun) (action : CrudOperation × UInt64)
    (next : MigrationRun) (hsynced : Synced texts s) (hlogged : s.StepsLogged texts)
    (hnext : step texts s action = some next) :
    next.StepsLogged texts ∧ Lawful texts checksumOf s action ↔ InPlace checksumOf s action := by
  obtain ⟨operation, now⟩ := action
  cases operation with
  | create | update | delete => exact absurd hnext (step_ne_some rfl)
  | migrationBegin fromVersion toVersion id =>
    refine iff_of_true ⟨?_, fun _ _ _ ↦ trivial⟩ trivial
    rcases step_begin hnext with rfl | hresets
    · exact hlogged
    · exact hresets.stepsLogged hlogged
  | migrationStep id stepIndex change =>
    have happlies := step_migrationStep hnext
    constructor
    · rintro ⟨-, hlawful⟩ hnone
      -- a step of a migration that is not active does not fail
      obtain ⟨⟨message, hmessage⟩, -⟩ := hlawful _ _ rfl hnone
      nomatch hmessage
    · intro hactive
      exact ⟨happlies.stepsLogged hlogged hactive, fun _ _ _ hnone ↦ absurd hnone hactive⟩
  | migrationCommit id checksum =>
    obtain ⟨hends, hanswers⟩ := step_commit hnext
    have hkept : next.StepsLogged texts := by
      rcases hends with rfl | hresets
      · exact hlogged
      · exact hresets.stepsLogged hlogged
    rw [and_iff_right hkept]
    obtain ⟨⟨node, answer⟩, hanswer, -⟩ := Option.map_eq_some_iff.mp hnext
    constructor
    · intro hlawful hcommits
      exact hlawful node answer hanswer ((hanswers node answer hanswer).mpr hcommits)
    · intro hplace node answer hanswer hok
      exact hplace ((hanswers node answer hanswer).mp hok)
  | migrationRollback id failedStep reason =>
    refine iff_of_true ⟨?_, lawful_rollback hsynced hlogged hnext⟩ trivial
    rcases (step_rollback hnext).1 with rfl | hresets
    · exact hlogged
    · exact hresets.stepsLogged hlogged

/-- In every run, all applied steps are logged at all times and all operations are lawful exactly
when all of them are in place. -/
theorem logged_and_lawful_iff (texts : MigrationTexts)
    (checksumOf : List (UInt32 × SchemaChange) → String) (initialVersion : Option Version)
    (actions : List (CrudOperation × UInt64)) :
    Always (step texts) (StepsLogged texts) (start initialVersion) actions ∧
        EachStep (step texts) (Lawful texts checksumOf) (start initialVersion) actions ↔
      EachStep (step texts) (InPlace checksumOf) (start initialVersion) actions :=
  always_and_eachStep_iff kept_synced logged_and_lawful_step (synced_start initialVersion)
    (fun _ _ hstep ↦ absurd hstep List.not_mem_nil) actions

end MigrationRun

/-! ### A step without a migration -/

section Stray

open MigrationRun

def plainTexts : MigrationTexts := ⟨fun id ↦ toString id.toNat, String.intercalate ","⟩

/-- The checksum is the number of the steps. -/
def stepCount (steps : List (UInt32 × SchemaChange)) : String := toString steps.length

def nextVersion : Version := ⟨1, 0, 0, "", ""⟩

/-- A step of a migration that has not begun. -/
def strayStep : CrudOperation := .migrationStep 7 0 (.removeField "User" "name")

/-- A migration without steps, committed with a checksum of something else. -/
def wrongChecksum : List (CrudOperation × UInt64) :=
  [(.migrationBegin .default nextVersion 7, 0), (.migrationCommit 7 "12", 1)]

/-- The step is applied, nobody can undo it, and the commit succeeds. -/
theorem stray_step_and_wrong_checksum :
    ¬ (Always (step plainTexts) (StepsLogged plainTexts) (start (some .default))
          [(strayStep, 0)] ∧
        EachStep (step plainTexts) (Lawful plainTexts stepCount) (start (some .default))
          [(strayStep, 0)]) ∧
    ¬ EachStep (step plainTexts) (Lawful plainTexts stepCount) (start (some .default))
        wrongChecksum := by
  constructor
  · rintro ⟨-, hlawful⟩
    obtain ⟨⟨message, hmessage⟩, -⟩ := (hlawful _ rfl).1 _ _ rfl rfl
    nomatch hmessage
  · intro h
    have hcommit := (((h _ rfl).2) _ rfl).1 _ _ rfl ⟨_, rfl⟩
    exact absurd hcommit (by decide)

end Stray

end Lithair.App
