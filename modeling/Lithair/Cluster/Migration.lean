import Lithair.Cluster.CrudOperation
import Lithair.Lib.Run
import Mathlib.Data.Finmap

/-!
# The migration manager

`MigrationManager` of `cluster/upgrade.rs`: which migration is going on, what has been recorded of
it, the migrations that are over, and the version of the schema. Each call holds the lock of the
active migrations to its end, so calls take place one after the other.

A history lists the calls with their answers. `lawful_run` says what holds after every history: of
the migrations that are active there is at most one, which began at the current version, and its log
is what was recorded since then (`Tracked`), and what any further call does (`LawfulCall`).
-/

namespace Lithair.Cluster

open Lithair.Lib Lithair.Lib.Run

/-- The text of a version. -/
def Version.display (version : Version) : String :=
  toString version.major.toNat ++ "." ++ toString version.minor.toNat ++ "." ++
    toString version.patch.toNat

inductive MigrationStatus
  | inProgress
  | committed
  | rolledBack
  | failed (reason : String)
  deriving DecidableEq

/-- What undoes a step. -/
structure RollbackOp where
  stepIndex : UInt32
  operation : SchemaChange
  dataSnapshot : Option Json
  deriving DecidableEq

structure MigrationContext where
  id : Uuid
  fromVersion : Version
  toVersion : Version
  status : MigrationStatus
  currentStep : UInt32
  totalSteps : UInt32
  rollbackLog : List RollbackOp
  createdAtMs : UInt64
  updatedAtMs : UInt64
  deriving DecidableEq

namespace MigrationContext

def new (id : Uuid) (fromVersion toVersion : Version) (now : UInt64) : MigrationContext where
  id := id
  fromVersion := fromVersion
  toVersion := toVersion
  status := .inProgress
  currentStep := 0
  totalSteps := 0
  rollbackLog := []
  createdAtMs := now
  updatedAtMs := now

/-- The number of the step after is a `u32`, which wraps around in the release profile. -/
def recordStep (context : MigrationContext) (stepIndex : UInt32) (rollbackOp : SchemaChange)
    (dataSnapshot : Option Json) (now : UInt64) : MigrationContext :=
  { context with
    rollbackLog := context.rollbackLog ++ [⟨stepIndex, rollbackOp, dataSnapshot⟩]
    currentStep := stepIndex + 1
    updatedAtMs := now }

def commit (context : MigrationContext) (now : UInt64) : MigrationContext :=
  { context with status := .committed, updatedAtMs := now }

def rollback (context : MigrationContext) (now : UInt64) : MigrationContext :=
  { context with status := .rolledBack, updatedAtMs := now }

end MigrationContext

/-- The active migrations by their ids, those that are over, and the version of the schema. -/
structure MigrationManager where
  active : Finmap fun _ : Uuid ↦ MigrationContext
  completed : List MigrationContext
  currentVersion : Version

namespace MigrationManager

def new (initialVersion : Version) : MigrationManager where
  active := ∅
  completed := []
  currentVersion := initialVersion

section Calls

variable (uuidText : Uuid → String) (s : MigrationManager)

def notFound (id : Uuid) : String := "Migration " ++ uuidText id ++ " not found"

def beginMigration (id : Uuid) (fromVersion toVersion : Version) (now : UInt64) :
    MigrationManager × Except String Unit :=
  if s.active.keys ≠ ∅ then (s, .error "Another migration is already in progress")
  else if s.currentVersion ≠ fromVersion then
    (s, .error ("Version mismatch: current is " ++ s.currentVersion.display ++
      ", migration expects " ++ fromVersion.display))
  else ({ s with active := s.active.insert id (.new id fromVersion toVersion now) }, .ok ())

/-- A clone of an active migration. -/
def getMigration (id : Uuid) : Option MigrationContext := s.active.lookup id

def recordStep (id : Uuid) (stepIndex : UInt32) (rollbackOp : SchemaChange)
    (dataSnapshot : Option Json) (now : UInt64) : MigrationManager × Except String Unit :=
  match s.active.lookup id with
  | none => (s, .error (notFound uuidText id))
  | some context =>
    let context := context.recordStep stepIndex rollbackOp dataSnapshot now
    ({ s with active := s.active.insert id context }, .ok ())

def commitMigration (id : Uuid) (newVersion : Version) (now : UInt64) :
    MigrationManager × Except String Unit :=
  match s.active.lookup id with
  | none => (s, .error (notFound uuidText id))
  | some context =>
    ({ active := s.active.erase id
       completed := s.completed ++ [context.commit now]
       currentVersion := newVersion }, .ok ())

/-- The migration moves on without its log, which is the answer. -/
def rollbackMigration (id : Uuid) (now : UInt64) :
    MigrationManager × Except String (List RollbackOp) :=
  match s.active.lookup id with
  | none => (s, .error (notFound uuidText id))
  | some context =>
    ({ s with
       active := s.active.erase id
       completed := s.completed ++ [{ context with rollbackLog := [] }.rollback now] },
      .ok context.rollbackLog.reverse)

/-! ### What the calls come to -/

variable {s} {id : Uuid} {context : MigrationContext}

/-- A migration begins when none is active and the version is the current one. -/
theorem beginMigration_cases (s : MigrationManager) (id : Uuid) (fromVersion toVersion : Version)
    (now : UInt64) :
    (∃ message, s.beginMigration id fromVersion toVersion now = (s, .error message)) ∨
      s.active.keys = ∅ ∧ s.currentVersion = fromVersion ∧
        s.beginMigration id fromVersion toVersion now = ({ s with
          active := s.active.insert id (.new id fromVersion toVersion now) }, .ok ()) := by
  unfold beginMigration
  split_ifs with hactive hversion
  · exact Or.inl ⟨_, rfl⟩
  · exact Or.inl ⟨_, rfl⟩
  · push Not at hactive hversion
    exact Or.inr ⟨hactive, hversion, rfl⟩

theorem recordStep_of_none (h : s.active.lookup id = none) (stepIndex : UInt32)
    (rollbackOp : SchemaChange) (dataSnapshot : Option Json) (now : UInt64) :
    s.recordStep uuidText id stepIndex rollbackOp dataSnapshot now =
      (s, .error (notFound uuidText id)) := by
  simp only [recordStep, h]

theorem recordStep_of_some (h : s.active.lookup id = some context) (stepIndex : UInt32)
    (rollbackOp : SchemaChange) (dataSnapshot : Option Json) (now : UInt64) :
    s.recordStep uuidText id stepIndex rollbackOp dataSnapshot now =
      (⟨s.active.insert id (context.recordStep stepIndex rollbackOp dataSnapshot now),
        s.completed, s.currentVersion⟩, .ok ()) := by
  simp only [recordStep, h]

theorem commitMigration_of_none (h : s.active.lookup id = none) (newVersion : Version)
    (now : UInt64) :
    s.commitMigration uuidText id newVersion now = (s, .error (notFound uuidText id)) := by
  simp only [commitMigration, h]

theorem commitMigration_of_some (h : s.active.lookup id = some context) (newVersion : Version)
    (now : UInt64) :
    s.commitMigration uuidText id newVersion now =
      (⟨s.active.erase id, s.completed ++ [context.commit now], newVersion⟩, .ok ()) := by
  simp only [commitMigration, h]

theorem rollbackMigration_of_none (h : s.active.lookup id = none) (now : UInt64) :
    s.rollbackMigration uuidText id now = (s, .error (notFound uuidText id)) := by
  simp only [rollbackMigration, h]

theorem rollbackMigration_of_some (h : s.active.lookup id = some context) (now : UInt64) :
    s.rollbackMigration uuidText id now =
      (⟨s.active.erase id, s.completed ++ [{ context with rollbackLog := [] }.rollback now],
        s.currentVersion⟩, .ok context.rollbackLog.reverse) := by
  simp only [rollbackMigration, h]

end Calls

end MigrationManager

/-! ### Histories -/

inductive MigrationCall
  | beginMigration (id : Uuid) (fromVersion toVersion : Version)
  | recordStep (id : Uuid) (stepIndex : UInt32) (rollbackOp : SchemaChange)
      (dataSnapshot : Option Json)
  | commitMigration (id : Uuid) (newVersion : Version)
  | rollbackMigration (id : Uuid)
  deriving DecidableEq

/-- An answer; the operations are those of a rollback. -/
inductive MigrationAnswer
  | done
  | rolledBack (ops : List RollbackOp)
  | failed (message : String)
  deriving DecidableEq

def MigrationAnswer.ofUnit : Except String Unit → MigrationAnswer
  | .ok () => .done
  | .error message => .failed message

def MigrationAnswer.ofOps : Except String (List RollbackOp) → MigrationAnswer
  | .ok ops => .rolledBack ops
  | .error message => .failed message

/-- What a call that was answered with success makes of the steps recorded for a migration. -/
def recordedBy (id : Uuid) (steps : List (UInt32 × SchemaChange)) :
    MigrationCall × MigrationAnswer → List (UInt32 × SchemaChange)
  | (.beginMigration begun _ _, .done) => if begun = id then [] else steps
  | (.recordStep recorded stepIndex rollbackOp _, .done) =>
    if recorded = id then steps ++ [(stepIndex, rollbackOp)] else steps
  | _ => steps

/-- The steps that were recorded for a migration since the last time it began. -/
def recordedSince (id : Uuid) (history : List (MigrationCall × MigrationAnswer)) :
    List (UInt32 × SchemaChange) :=
  history.foldl (recordedBy id) []

theorem recordedSince_concat (id : Uuid) (history : List (MigrationCall × MigrationAnswer))
    (event : MigrationCall × MigrationAnswer) :
    recordedSince id (history ++ [event]) = recordedBy id (recordedSince id history) event :=
  List.foldl_append

/-- A call that fails records nothing. -/
theorem recordedBy_failed (id : Uuid) (steps : List (UInt32 × SchemaChange)) (call : MigrationCall)
    (message : String) : recordedBy id steps (call, .failed message) = steps := by
  cases call <;> rfl

namespace MigrationManager

variable (uuidText : Uuid → String)

/-- Make a call at some time. -/
def perform (s : MigrationManager) (call : MigrationCall) (now : UInt64) :
    MigrationManager × MigrationAnswer :=
  match call with
  | .beginMigration id fromVersion toVersion =>
    let (next, result) := s.beginMigration id fromVersion toVersion now
    (next, .ofUnit result)
  | .recordStep id stepIndex rollbackOp dataSnapshot =>
    let (next, result) := s.recordStep uuidText id stepIndex rollbackOp dataSnapshot now
    (next, .ofUnit result)
  | .commitMigration id newVersion =>
    let (next, result) := s.commitMigration uuidText id newVersion now
    (next, .ofUnit result)
  | .rollbackMigration id =>
    let (next, result) := s.rollbackMigration uuidText id now
    (next, .ofOps result)

/-- Make calls one after the other, and write them down with their answers. -/
def run (s : MigrationManager) (history : List (MigrationCall × MigrationAnswer)) :
    List (MigrationCall × UInt64) → MigrationManager × List (MigrationCall × MigrationAnswer)
  | [] => (s, history)
  | (call, now) :: rest =>
    let (next, answer) := s.perform uuidText call now
    run next (history ++ [(call, answer)]) rest

/-- The step and the operation of each entry of a rollback log. -/
def pairs (log : List RollbackOp) : List (UInt32 × SchemaChange) :=
  log.map fun op ↦ (op.stepIndex, op.operation)

/-- At most one migration is active. It began at the current version, and its log is what was
recorded since then. -/
structure Tracked (s : MigrationManager) (history : List (MigrationCall × MigrationAnswer)) :
    Prop where
  one : ∀ id id', id ∈ s.active → id' ∈ s.active → id = id'
  fromVersion : ∀ id context, s.active.lookup id = some context →
    context.fromVersion = s.currentVersion
  log : ∀ id context, s.active.lookup id = some context →
    pairs context.rollbackLog = recordedSince id history

/-- What a call may do: the version changes only when a migration is committed, nothing that is over
is forgotten, a rollback gives what was recorded since the migration began, the last first, and a
call that fails changes nothing. -/
structure LawfulCall (s : MigrationManager) (history : List (MigrationCall × MigrationAnswer))
    (call : MigrationCall) (next : MigrationManager) (answer : MigrationAnswer) : Prop where
  currentVersion : next.currentVersion = s.currentVersion ∨
    ∃ id, call = .commitMigration id next.currentVersion ∧ answer = .done
  completed : s.completed <+: next.completed
  rolledBack : ∀ id ops, call = .rollbackMigration id → answer = .rolledBack ops →
    pairs ops = (recordedSince id history).reverse
  failed : ∀ message, answer = .failed message → next = s

/-! ### What a call does -/

variable {uuidText} {s : MigrationManager} {history : List (MigrationCall × MigrationAnswer)}

theorem tracked_new (initialVersion : Version) : (new initialVersion).Tracked [] where
  one := fun _ _ h ↦ absurd h Finmap.notMem_empty
  fromVersion := fun _ _ h ↦ absurd h (by simp [new])
  log := fun _ _ h ↦ absurd h (by simp [new])

/-- The call is lawful, and what holds of a history holds again. -/
def Keeps (s : MigrationManager) (history : List (MigrationCall × MigrationAnswer))
    (call : MigrationCall) (result : MigrationManager × MigrationAnswer) : Prop :=
  s.LawfulCall history call result.1 result.2 ∧ result.1.Tracked (history ++ [(call, result.2)])

theorem Tracked.keeps_failed (h : s.Tracked history) (call : MigrationCall) (message : String) :
    s.Keeps history call (s, .failed message) := by
  constructor
  · refine ⟨Or.inl rfl, List.prefix_rfl, fun id ops _ hops ↦ ?_, fun _ _ ↦ rfl⟩
    nomatch hops
  · refine ⟨h.one, h.fromVersion, fun id context hcontext ↦ ?_⟩
    rw [recordedSince_concat, recordedBy_failed]
    exact h.log id context hcontext

/-- When a migration is active, no other is. -/
theorem Tracked.eq_of_lookup (h : s.Tracked history) {id other : Uuid}
    {context otherContext : MigrationContext} (hid : s.active.lookup id = some context)
    (hother : s.active.lookup other = some otherContext) : other = id :=
  h.one other id (Finmap.mem_of_lookup_eq_some hother) (Finmap.mem_of_lookup_eq_some hid)

theorem Tracked.lookup_eq_none (h : s.Tracked history) {id other : Uuid}
    {context : MigrationContext} (hid : s.active.lookup id = some context) (hother : other ≠ id) :
    s.active.lookup other = none := by
  rw [Option.eq_none_iff_forall_ne_some]
  exact fun otherContext hlookup ↦ hother (h.eq_of_lookup hid hlookup)

/-- When the active migration is over, none is active. -/
theorem Tracked.lookup_erase (h : s.Tracked history) {id : Uuid} {context : MigrationContext}
    (hid : s.active.lookup id = some context) (other : Uuid) :
    (s.active.erase id).lookup other = none := by
  by_cases hother : other = id
  · rw [hother, Finmap.lookup_erase]
  · rw [Finmap.lookup_erase_ne hother]
    exact h.lookup_eq_none hid hother

theorem tracked_of_none {next : MigrationManager} (h : ∀ id, next.active.lookup id = none) :
    next.Tracked history where
  one := by
    intro id _ hid
    obtain ⟨context, hcontext⟩ := Finmap.mem_iff.mp hid
    rw [h id] at hcontext
    exact absurd hcontext.symm (Option.some_ne_none context)
  fromVersion := by
    intro id context hcontext
    rw [h id] at hcontext
    exact absurd hcontext.symm (Option.some_ne_none context)
  log := by
    intro id context hcontext
    rw [h id] at hcontext
    exact absurd hcontext.symm (Option.some_ne_none context)

/-- One migration that began at the current version, with the log that was recorded. -/
theorem tracked_insert {next : MigrationManager} {id : Uuid} {context : MigrationContext}
    (hactive : next.active = s.active.insert id context)
    (hothers : ∀ other, other ≠ id → s.active.lookup other = none)
    (hversion : context.fromVersion = next.currentVersion)
    (hlog : pairs context.rollbackLog = recordedSince id history) : next.Tracked history := by
  have hlookup : ∀ other otherContext, next.active.lookup other = some otherContext →
      other = id ∧ otherContext = context := by
    intro other otherContext hother
    rw [hactive] at hother
    by_cases hid : other = id
    · subst hid
      rw [Finmap.lookup_insert, Option.some.injEq] at hother
      exact ⟨rfl, hother.symm⟩
    · rw [Finmap.lookup_insert_of_ne _ hid, hothers other hid] at hother
      exact absurd hother.symm (Option.some_ne_none _)
  constructor
  case one =>
    intro first second hfirst hsecond
    obtain ⟨_, hfirst⟩ := Finmap.mem_iff.mp hfirst
    obtain ⟨_, hsecond⟩ := Finmap.mem_iff.mp hsecond
    exact (hlookup _ _ hfirst).1.trans (hlookup _ _ hsecond).1.symm
  case fromVersion =>
    intro other otherContext hother
    rw [(hlookup _ _ hother).2]
    exact hversion
  case log =>
    intro other otherContext hother
    obtain ⟨rfl, rfl⟩ := hlookup _ _ hother
    exact hlog

/-- A call that is done, and is no rollback. -/
theorem lawfulCall_done {call : MigrationCall} {next : MigrationManager}
    (hversion : next.currentVersion = s.currentVersion ∨
      ∃ id, call = .commitMigration id next.currentVersion)
    (hcompleted : s.completed <+: next.completed) : s.LawfulCall history call next .done where
  currentVersion := hversion.imp id fun ⟨id, hcall⟩ ↦ ⟨id, hcall, rfl⟩
  completed := hcompleted
  rolledBack := by
    intro _ _ _ hops
    nomatch hops
  failed := by
    intro _ hfailed
    nomatch hfailed

theorem keeps_beginMigration (h : s.Tracked history) (id : Uuid) (fromVersion toVersion : Version)
    (now : UInt64) :
    s.Keeps history (.beginMigration id fromVersion toVersion)
      (s.perform uuidText (.beginMigration id fromVersion toVersion) now) := by
  unfold perform
  rcases s.beginMigration_cases id fromVersion toVersion now with
    ⟨message, hfailed⟩ | ⟨hactive, hversion, hdone⟩
  · simp only [hfailed]
    exact h.keeps_failed _ message
  · simp only [hdone]
    refine ⟨lawfulCall_done (Or.inl rfl) List.prefix_rfl, ?_⟩
    refine tracked_insert rfl (fun other _ ↦ ?_) hversion.symm ?_
    · rw [Finmap.lookup_eq_none, ← Finmap.mem_keys, hactive]
      exact Finset.notMem_empty other
    · rw [recordedSince_concat]
      exact (if_pos rfl).symm

theorem keeps_recordStep (h : s.Tracked history) (id : Uuid) (stepIndex : UInt32)
    (rollbackOp : SchemaChange) (dataSnapshot : Option Json) (now : UInt64) :
    s.Keeps history (.recordStep id stepIndex rollbackOp dataSnapshot)
      (s.perform uuidText (.recordStep id stepIndex rollbackOp dataSnapshot) now) := by
  unfold perform
  cases hlookup : s.active.lookup id with
  | none =>
    simp only [recordStep_of_none uuidText hlookup]
    exact h.keeps_failed _ _
  | some context =>
    simp only [recordStep_of_some uuidText hlookup]
    refine ⟨lawfulCall_done (Or.inl rfl) List.prefix_rfl, ?_⟩
    refine tracked_insert rfl (fun other ↦ h.lookup_eq_none hlookup)
      (h.fromVersion id context hlookup) ?_
    have hrecorded : recordedBy id (recordedSince id history)
        (.recordStep id stepIndex rollbackOp dataSnapshot, .done) =
          recordedSince id history ++ [(stepIndex, rollbackOp)] := if_pos rfl
    refine Eq.trans ?_ ((recordedSince_concat ..).trans hrecorded).symm
    rw [← h.log id context hlookup]
    exact List.map_append

theorem keeps_commitMigration (h : s.Tracked history) (id : Uuid) (newVersion : Version)
    (now : UInt64) :
    s.Keeps history (.commitMigration id newVersion)
      (s.perform uuidText (.commitMigration id newVersion) now) := by
  unfold perform
  cases hlookup : s.active.lookup id with
  | none =>
    simp only [commitMigration_of_none uuidText hlookup]
    exact h.keeps_failed _ _
  | some context =>
    simp only [commitMigration_of_some uuidText hlookup]
    refine ⟨lawfulCall_done (Or.inr ⟨id, rfl⟩) (List.prefix_append _ _), ?_⟩
    exact tracked_of_none fun other ↦ h.lookup_erase hlookup other

theorem keeps_rollbackMigration (h : s.Tracked history) (id : Uuid) (now : UInt64) :
    s.Keeps history (.rollbackMigration id)
      (s.perform uuidText (.rollbackMigration id) now) := by
  unfold perform
  cases hlookup : s.active.lookup id with
  | none =>
    simp only [rollbackMigration_of_none uuidText hlookup]
    exact h.keeps_failed _ _
  | some context =>
    simp only [rollbackMigration_of_some uuidText hlookup]
    constructor
    · refine ⟨Or.inl rfl, List.prefix_append _ _, fun other ops hcall hops ↦ ?_, ?_⟩
      · obtain rfl := MigrationCall.rollbackMigration.inj hcall
        obtain rfl := MigrationAnswer.rolledBack.inj hops
        rw [← h.log id context hlookup]
        exact List.map_reverse
      · intro _ hfailed
        nomatch hfailed
    · exact tracked_of_none fun other ↦ h.lookup_erase hlookup other

theorem keeps_perform (h : s.Tracked history) (call : MigrationCall) (now : UInt64) :
    s.Keeps history call (s.perform uuidText call now) := by
  cases call with
  | beginMigration id fromVersion toVersion =>
    exact keeps_beginMigration h id fromVersion toVersion now
  | recordStep id stepIndex rollbackOp dataSnapshot =>
    exact keeps_recordStep h id stepIndex rollbackOp dataSnapshot now
  | commitMigration id newVersion => exact keeps_commitMigration h id newVersion now
  | rollbackMigration id => exact keeps_rollbackMigration h id now

theorem tracked_run (h : s.Tracked history) (calls : List (MigrationCall × UInt64)) :
    (s.run uuidText history calls).1.Tracked (s.run uuidText history calls).2 := by
  induction calls generalizing s history with
  | nil => exact h
  | cons call rest ih => exact ih (keeps_perform h call.1 call.2).2

variable (uuidText)

/-- After any calls, what is active is tracked, and whatever call comes next is lawful. -/
theorem lawful_run (initialVersion : Version) (calls : List (MigrationCall × UInt64)) :
    let (s, history) := (new initialVersion).run uuidText [] calls
    s.Tracked history ∧ ∀ call now,
      s.LawfulCall history call (s.perform uuidText call now).1
        (s.perform uuidText call now).2 := by
  have htracked : ((new initialVersion).run uuidText [] calls).1.Tracked _ :=
    tracked_run (tracked_new initialVersion) calls
  exact ⟨htracked, fun call now ↦ (keeps_perform htracked call now).1⟩

end MigrationManager

end Lithair.Cluster
