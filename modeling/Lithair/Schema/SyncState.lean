import Lithair.Schema.ModelSpec

/-!
# The state of schema synchronisation

`schema/sync.rs` with all that a change, the lock and the history hold: a change that waits is a
`Cluster.PendingSchemaChange` with the node that proposed it, what was detected and the schema that
is replaced. Time is in milliseconds and comes with each call.

`worst_eq_breaking_iff` and `worst_eq_additive_iff` say which strategy a change is made with.
-/

namespace Lithair.Schema

open Lithair.Lib
open Cluster (HumanApproval MigrationStrategy SchemaApproval SchemaChangeStatus SchemaRejection
  SchemaVotePolicy Uuid VoteRequest VoteStrategy)

/-! ### Changes -/

structure PendingSchemaChange extends Cluster.PendingSchemaChange ModelSpec where
  proposerNodeId : ℕ
  changes : List DetectedSchemaChange
  oldSpec : Option ModelSpec
  proposedAt : ℕ

/-- The most restrictive of two strategies. -/
def worse : MigrationStrategy → MigrationStrategy → MigrationStrategy
  | .breaking, _ => .breaking
  | _, .breaking => .breaking
  | .versioned, _ => .versioned
  | _, .versioned => .versioned
  | .additive, .additive => .additive

/-- The most restrictive strategy of all changes. -/
def worst (changes : List DetectedSchemaChange) : MigrationStrategy :=
  (changes.map DetectedSchemaChange.migrationStrategy).foldl worse .additive

namespace PendingSchemaChange

/-- A new change, under an id that was drawn for it. -/
def new (id : Uuid) (modelName : String) (proposerNodeId : ℕ) (changes : List DetectedSchemaChange)
    (newSpec : ModelSpec) (oldSpec : Option ModelSpec) (now : ℕ) : PendingSchemaChange where
  id := id
  modelName := modelName
  newSpec := newSpec
  overallStrategy := worst changes
  status := .pending
  expiresAt := none
  approvals := []
  rejections := []
  humanApprovals := []
  rejectionReason := none
  proposerNodeId := proposerNodeId
  changes := changes
  oldSpec := oldSpec
  proposedAt := now

def withTimeout (change : PendingSchemaChange) (timeout now : ℕ) : PendingSchemaChange :=
  { change with
    toPendingSchemaChange := change.toPendingSchemaChange.withTimeout timeout now }

/-- The change with a vote added. -/
def voted (change : PendingSchemaChange) (vote : VoteRequest) (now : ℕ) : PendingSchemaChange :=
  { change with toPendingSchemaChange := change.toPendingSchemaChange.voted vote now }

/-- A person approves at most once. -/
def addHumanApproval (change : PendingSchemaChange) (userId : String) (userName : Option String)
    (now : ℕ) : PendingSchemaChange :=
  if change.humanApprovals.any fun a ↦ a.userId == userId then change
  else { change with humanApprovals := change.humanApprovals ++ [⟨userId, userName, now⟩] }

def withStatus (change : PendingSchemaChange) (status : SchemaChangeStatus) : PendingSchemaChange :=
  { change with status }

/-- The change, rejected by a person. -/
def rejectedFor (change : PendingSchemaChange) (reason : Option String) : PendingSchemaChange :=
  { change with status := .rejected, rejectionReason := reason }

theorem status_voted (change : PendingSchemaChange) (vote : VoteRequest) (now : ℕ) :
    (change.voted vote now).status = change.status := by
  unfold voted Cluster.PendingSchemaChange.voted Cluster.PendingSchemaChange.addApproval
    Cluster.PendingSchemaChange.addRejection
  split_ifs <;> rfl

theorem status_addHumanApproval (change : PendingSchemaChange) (userId : String)
    (userName : Option String) (now : ℕ) :
    (change.addHumanApproval userId userName now).status = change.status := by
  unfold addHumanApproval
  split_ifs <;> rfl

theorem addHumanApproval_target (change : PendingSchemaChange) (userId : String)
    (userName : Option String) (now : ℕ) :
    (change.addHumanApproval userId userName now).modelName = change.modelName ∧
      (change.addHumanApproval userId userName now).newSpec = change.newSpec := by
  unfold addHumanApproval
  split_ifs <;> exact ⟨rfl, rfl⟩

end PendingSchemaChange

/-! ### The lock -/

structure SchemaLockStatus where
  locked : Bool
  reason : Option String
  unlockExpiresAt : Option ℕ
  unlockedBy : Option String
  unlockedAt : Option ℕ
  deriving DecidableEq

namespace SchemaLockStatus

def default : SchemaLockStatus := ⟨false, none, none, none, none⟩

/-- Locked, or unlocked for a time that is over. -/
def isLocked (status : SchemaLockStatus) (now : ℕ) : Bool :=
  if !status.locked then
    match status.unlockExpiresAt with
    | some expiresAt => decide (expiresAt ≤ now)
    | none => false
  else true

def lock (reason : Option String) : SchemaLockStatus := ⟨true, reason, none, none, none⟩

/-- Unlock, for a number of seconds if one is given; milliseconds are 64-bit numbers. -/
def unlock (reason : Option String) (durationSecs : Option ℕ) (unlockedBy : Option String)
    (now : ℕ) : SchemaLockStatus where
  locked := false
  reason := reason
  unlockExpiresAt := durationSecs.map fun duration ↦
    (now + duration * 1000) % 18446744073709551616
  unlockedBy := unlockedBy
  unlockedAt := some now

/-- What is locked stays so as time goes on. -/
theorem isLocked_mono {status : SchemaLockStatus} {now later : ℕ} (h : status.isLocked now = true)
    (hle : now ≤ later) : status.isLocked later = true := by
  unfold isLocked at h ⊢
  cases hlocked : status.locked with
  | true => rfl
  | false =>
    cases hexpires : status.unlockExpiresAt with
    | none => simp [hlocked, hexpires] at h
    | some expiresAt =>
      simp only [hlocked, hexpires, Bool.not_false, if_true, decide_eq_true_eq] at h ⊢
      exact h.trans hle

@[simp] theorem isLocked_lock (reason : Option String) (now : ℕ) :
    (lock reason).isLocked now = true := rfl

end SchemaLockStatus

/-! ### The state -/

/-- The record of a change that was applied. -/
structure AppliedSchemaChange where
  id : Uuid
  modelName : String
  changes : List DetectedSchemaChange
  appliedAt : ℕ
  appliedByNode : ℕ
  deriving DecidableEq

structure SchemaSyncState where
  schemas : Finmap fun _ : String ↦ ModelSpec
  pendingChanges : Finmap fun _ : Uuid ↦ PendingSchemaChange
  policy : SchemaVotePolicy
  changeHistory : List AppliedSchemaChange
  lockStatus : SchemaLockStatus

namespace SchemaSyncState

variable (s : SchemaSyncState)

def withPolicy (policy : SchemaVotePolicy) : SchemaSyncState where
  schemas := ∅
  pendingChanges := ∅
  policy := policy
  changeHistory := []
  lockStatus := .default

def addPending (change : PendingSchemaChange) : SchemaSyncState :=
  { s with pendingChanges := s.pendingChanges.insert change.id change }

/-- Apply a change whatever its status is; there is no schema when there is no such change. -/
def applyChange (changeId : Uuid) (appliedByNode now : ℕ) :
    SchemaSyncState × Option ModelSpec :=
  match s.pendingChanges.lookup changeId with
  | some change =>
    ({ s with
        pendingChanges := s.pendingChanges.insert changeId (change.withStatus .applied)
        schemas := s.schemas.insert change.modelName change.newSpec
        changeHistory := s.changeHistory ++
          [⟨changeId, change.modelName, change.changes, now, appliedByNode⟩] },
      some change.newSpec)
  | none => (s, none)

/-- What becomes of a change when the expired ones are cleaned up. -/
def cleanedUp (now : ℕ) (change : PendingSchemaChange) : PendingSchemaChange :=
  if change.status = .pending ∧ change.isExpired now = true then
    { change with status := .expired, rejectionReason := some "Timeout expired" }
  else change

def cleanupExpired (now : ℕ) : SchemaSyncState :=
  { s with pendingChanges := KeyedMap.mapValues (cleanedUp now) s.pendingChanges }

end SchemaSyncState

/-! ### The strategy of a change -/

theorem foldl_worse (strategies : List MigrationStrategy) (start : MigrationStrategy) :
    (strategies.foldl worse start = .breaking ↔ start = .breaking ∨ .breaking ∈ strategies) ∧
      (strategies.foldl worse start = .additive ↔
        start = .additive ∧ ∀ strategy ∈ strategies, strategy = .additive) := by
  induction strategies generalizing start with
  | nil => simp
  | cons strategy rest ih =>
    obtain ⟨hbreaking, hadditive⟩ := ih (worse start strategy)
    rw [List.foldl_cons, hbreaking, hadditive]
    cases start <;> cases strategy <;> simp [worse]

/-- A change is breaking when one of what it is made of is. -/
theorem worst_eq_breaking_iff {changes : List DetectedSchemaChange} :
    worst changes = .breaking ↔ ∃ change ∈ changes, change.migrationStrategy = .breaking := by
  rw [worst, (foldl_worse _ _).1]
  simp

/-- It is additive when all of what it is made of is. -/
theorem worst_eq_additive_iff {changes : List DetectedSchemaChange} :
    worst changes = .additive ↔ ∀ change ∈ changes, change.migrationStrategy = .additive := by
  rw [worst, (foldl_worse _ _).2]
  simp

/-- A change of the model `Customer` that is made with a strategy. -/
def customerChange (id : Uuid) (strategy : MigrationStrategy) : PendingSchemaChange :=
  { PendingSchemaChange.new id "Customer" 1 [] (singleField anyField []) none 0 with
    overallStrategy := strategy }

end Lithair.Schema
