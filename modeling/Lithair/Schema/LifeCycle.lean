import Lithair.Lib.Run
import Lithair.Schema.Handlers

/-!
# The life of a schema change

The six operations that write the status of a change, at any times. A change is the record that the
state has under an id, and `lapsed` keeps the ids of those whose time was over while they were still
pending.

`endsOnce_iff` says in which runs what is applied, rejected or expired stays so, and what has lapsed
is never applied.
-/

namespace Lithair.Schema

open Lithair.Lib Lithair.Lib.Run
open Cluster (SchemaChangeStatus SchemaVotePolicy Uuid VoteRequest)

inductive LifeAction
  | propose (change : PendingSchemaChange) (now : ℕ)
  | vote (vote : VoteRequest) (now : ℕ)
  | approve (changeId : Uuid) (userId : String) (userName : Option String) (now : ℕ)
  | reject (changeId : Uuid) (reason : Option String) (now : ℕ)
  | cleanupExpired (now : ℕ)
  | applyChange (changeId : Uuid) (appliedByNode now : ℕ)

def LifeAction.now : LifeAction → ℕ
  | .propose _ now => now
  | .vote _ now => now
  | .approve _ _ _ now => now
  | .reject _ _ now => now
  | .cleanupExpired now => now
  | .applyChange _ _ now => now

def LifeAction.run (totalNodes : ℕ) (s : SchemaSyncState) : LifeAction → SchemaSyncState
  | .propose change now => (s.handleSchemaPropose change now).1
  | .vote request now => (s.handleSchemaVote request totalNodes now).1
  | .approve changeId userId userName now =>
    (s.handleAdminSchemaApprove changeId userId userName totalNodes now).1
  | .reject changeId reason _ => (s.handleAdminSchemaReject changeId reason).1
  | .cleanupExpired now => s.cleanupExpired now
  | .applyChange changeId appliedByNode now => (s.applyChange changeId appliedByNode now).1

/-- The state beside the changes whose time was over while they were pending. -/
structure LifeState extends SchemaSyncState where
  lapsed : Set Uuid

/-- The time of the change is over now while it is pending, or was before. -/
def LifeState.Lapsed (s : LifeState) (now : ℕ) (changeId : Uuid) : Prop :=
  changeId ∈ s.lapsed ∨ ∃ change, s.Waits changeId change ∧ change.isExpired now = true

def LifeState.step (totalNodes : ℕ) (s : LifeState) (action : LifeAction) : Option LifeState :=
  some ⟨action.run totalNodes s.toSchemaSyncState, {changeId | s.Lapsed action.now changeId}⟩

/-- Decided for good. -/
def isFinal : SchemaChangeStatus → Bool
  | .applied | .rejected | .expired => true
  | .pending | .approved => false

/-! ### What is meant to hold -/

/-- What is decided for good keeps its status. -/
def KeepsStatuses (s next : SchemaSyncState) : Prop :=
  ∀ changeId change, s.pendingChanges.lookup changeId = some change →
    isFinal change.status = true →
      ∃ after, next.pendingChanges.lookup changeId = some after ∧ after.status = change.status

def Settled (totalNodes : ℕ) (s : LifeState) (action : LifeAction) : Prop :=
  KeepsStatuses s.toSchemaSyncState (action.run totalNodes s.toSchemaSyncState)

/-- What has lapsed is not applied. -/
def NeverLate (s : LifeState) : Prop :=
  ∀ changeId ∈ s.lapsed, ∀ change, s.pendingChanges.lookup changeId = some change →
    change.status ≠ .applied

/-- A proposal that is queued leaves the status of a decided change under its id as it is, and is
not queued as applied under that of a lapsed one; what votes and approvals complete has not lapsed;
and what is applied regardless of its status has not lapsed and is undecided or applied already. -/
def EndsOnce (totalNodes : ℕ) (s : LifeState) : LifeAction → Prop
  | .propose change now => s.Queues change →
      (∀ old, s.pendingChanges.lookup change.id = some old → isFinal old.status = true →
        change.status = old.status) ∧
      (change.status = .applied → ¬ s.Lapsed now change.id)
  | .vote vote now => ∀ change, s.Waits vote.changeId change →
      (change.voted vote now).hasEnoughApprovals s.policy totalNodes = true →
        ¬ s.Lapsed now vote.changeId
  | .approve changeId userId userName now => ∀ change, s.Waits changeId change →
      (change.addHumanApproval userId userName now).hasEnoughApprovals s.policy totalNodes = true →
        ¬ s.Lapsed now changeId
  | .applyChange changeId _ now => ∀ change, s.pendingChanges.lookup changeId = some change →
      change.status = .applied ∨ (isFinal change.status = false ∧ ¬ s.Lapsed now changeId)
  | .reject _ _ _ | .cleanupExpired _ => True

/-! ### One step -/

section Steps

variable {totalNodes : ℕ} {s : LifeState} {next : SchemaSyncState} {changeId : Uuid}
  {after change : PendingSchemaChange} {now : ℕ}

/-- What waits is not applied. -/
theorem NeverLate.not_applied_of_lapsed (hs : NeverLate s) (h : s.Lapsed now changeId)
    (hlookup : s.pendingChanges.lookup changeId = some change) : change.status ≠ .applied := by
  rcases h with hmem | ⟨other, hwaits, -⟩
  · exact hs changeId hmem change hlookup
  · obtain rfl := Option.some.inj (hlookup.symm.trans hwaits.1)
    rw [hwaits.2]
    decide

/-- Nothing becomes of the changes. -/
theorem keeps_of_same (hs : NeverLate s) (hsame : next.pendingChanges = s.pendingChanges) :
    NeverLate ⟨next, {changeId | s.Lapsed now changeId}⟩ ∧
      KeepsStatuses s.toSchemaSyncState next := by
  constructor
  · intro changeId hlapsed change hlookup
    exact hs.not_applied_of_lapsed hlapsed (hsame ▸ hlookup)
  · intro changeId change hlookup _
    exact ⟨change, hsame ▸ hlookup, rfl⟩

/-- One change is put in the place of what is under its id. -/
theorem keeps_insert_iff (hs : NeverLate s)
    (hinsert : next.pendingChanges = s.pendingChanges.insert changeId after) :
    NeverLate ⟨next, {changeId | s.Lapsed now changeId}⟩ ∧ KeepsStatuses s.toSchemaSyncState next ↔
      (∀ old, s.pendingChanges.lookup changeId = some old → isFinal old.status = true →
        after.status = old.status) ∧ (after.status = .applied → ¬ s.Lapsed now changeId) := by
  have hself : next.pendingChanges.lookup changeId = some after := by
    rw [hinsert, Finmap.lookup_insert]
  have hothers : ∀ other, other ≠ changeId →
      next.pendingChanges.lookup other = s.pendingChanges.lookup other := by
    intro other hne
    rw [hinsert, Finmap.lookup_insert_of_ne _ hne]
  constructor
  · rintro ⟨hlate, hkeeps⟩
    refine ⟨fun old hold hfinal ↦ ?_, fun happlied hlapsed ↦ ?_⟩
    · obtain ⟨found, hfound, hstatus⟩ := hkeeps changeId old hold hfinal
      obtain rfl := Option.some.inj (hself.symm.trans hfound)
      exact hstatus
    · exact hlate changeId hlapsed after hself happlied
  · rintro ⟨hsame, hlapsed⟩
    constructor
    · intro other hother change hlookup happlied
      by_cases heq : other = changeId
      · subst heq
        obtain rfl := Option.some.inj (hself.symm.trans hlookup)
        exact hlapsed happlied hother
      · exact hs.not_applied_of_lapsed hother ((hothers other heq) ▸ hlookup) happlied
    · intro other change hlookup hfinal
      by_cases heq : other = changeId
      · subst heq
        exact ⟨after, hself, hsame change hlookup hfinal⟩
      · exact ⟨change, (hothers other heq).trans hlookup, rfl⟩

/-- One change that waited is looked at. -/
theorem keeps_resolve_iff (hs : NeverLate s) (hwaits : s.Waits changeId change)
    (hinsert : next.pendingChanges = s.pendingChanges.insert changeId after) :
    NeverLate ⟨next, {changeId | s.Lapsed now changeId}⟩ ∧ KeepsStatuses s.toSchemaSyncState next ↔
      (after.status = .applied → ¬ s.Lapsed now changeId) := by
  rw [keeps_insert_iff hs hinsert]
  refine and_iff_right fun old hold hfinal ↦ ?_
  obtain rfl := Option.some.inj (hwaits.1.symm.trans hold)
  rw [hwaits.2] at hfinal
  exact absurd hfinal (by decide)

theorem status_queued (s : SchemaSyncState) (change : PendingSchemaChange) (now : ℕ) :
    (s.queued change now).status = change.status := by
  rcases s.queued_eq_or change now with h | ⟨timeout, h⟩
  · rw [h]
  · rw [h]
    rfl

theorem applied_afterVote_iff {s : SchemaSyncState} {pending : PendingSchemaChange}
    (h : pending.status = .pending) :
    (s.afterVote pending totalNodes now).status = .applied ↔
      pending.hasEnoughApprovals s.policy totalNodes = true := by
  unfold SchemaSyncState.afterVote PendingSchemaChange.withStatus
  dsimp only
  rw [h]
  split_ifs with henough
  · exact iff_of_true rfl henough
  · exact iff_of_false (by decide) henough
  · exact iff_of_false (by decide) henough

theorem applied_afterApproval_iff {s : SchemaSyncState} {pending : PendingSchemaChange}
    (h : pending.status = .pending) :
    (s.afterApproval pending totalNodes).status = .applied ↔
      pending.hasEnoughApprovals s.policy totalNodes = true := by
  unfold SchemaSyncState.afterApproval PendingSchemaChange.withStatus
  dsimp only
  rw [h]
  split_ifs with henough
  · exact iff_of_true rfl henough
  · exact iff_of_false (by decide) henough

/-- What waits becomes what a look at it makes of it. -/
theorem keeps_looked_iff (hs : NeverLate s) (enough : PendingSchemaChange → Bool)
    (hwaiting : ∀ change, s.Waits changeId change → ∃ after,
      next.pendingChanges = s.pendingChanges.insert changeId after ∧
        (after.status = .applied ↔ enough change = true))
    (hnot : (∀ change, ¬ s.Waits changeId change) → next = s.toSchemaSyncState) :
    NeverLate ⟨next, {changeId | s.Lapsed now changeId}⟩ ∧
        KeepsStatuses s.toSchemaSyncState next ↔
      ∀ change, s.Waits changeId change → enough change = true → ¬ s.Lapsed now changeId := by
  by_cases h : ∃ change, s.Waits changeId change
  · obtain ⟨change, hwaits⟩ := h
    obtain ⟨after, hinsert, happlied⟩ := hwaiting change hwaits
    rw [keeps_resolve_iff hs hwaits hinsert, happlied]
    constructor
    · rintro hlapsed other hother
      exact hwaits.unique hother ▸ hlapsed
    · exact fun hall ↦ hall change hwaits
  · push Not at h
    refine iff_of_true (keeps_of_same hs (congrArg _ (hnot h))) fun change hwaits ↦ ?_
    exact absurd hwaits (h change)

theorem keeps_cleanupExpired (hs : NeverLate s) :
    NeverLate ⟨s.cleanupExpired now, {changeId | s.Lapsed now changeId}⟩ ∧
      KeepsStatuses s.toSchemaSyncState (s.cleanupExpired now) := by
  have hlookup : ∀ changeId, (s.cleanupExpired now).pendingChanges.lookup changeId =
      (s.pendingChanges.lookup changeId).map (SchemaSyncState.cleanedUp now) :=
    KeyedMap.lookup_mapValues _ _
  constructor
  · intro changeId hlapsed after hafter
    rw [hlookup] at hafter
    obtain ⟨change, hchange, rfl⟩ := Option.map_eq_some_iff.mp hafter
    unfold SchemaSyncState.cleanedUp
    split_ifs
    · exact SchemaChangeStatus.noConfusion
    · exact hs.not_applied_of_lapsed hlapsed hchange
  · intro changeId change hchange hfinal
    refine ⟨change, ?_, rfl⟩
    have hpending : change.status ≠ .pending := fun heq ↦ by
      rw [heq] at hfinal
      exact absurd hfinal (by decide)
    rw [hlookup, hchange, Option.map_some, SchemaSyncState.cleanedUp,
      if_neg fun hboth ↦ hpending hboth.1]

/-- One step keeps what is decided as it is, and applies nothing that has lapsed, exactly when it
meets the condition. -/
theorem keeps_iff (hs : NeverLate s) (action : LifeAction) :
    NeverLate ⟨action.run totalNodes s.toSchemaSyncState,
        {changeId | s.Lapsed action.now changeId}⟩ ∧ Settled totalNodes s action ↔
      EndsOnce totalNodes s action := by
  cases action with
  | propose change now =>
    rcases s.propose_cases change with haccept | hreject | hqueues
    · refine iff_of_true (keeps_of_same hs ?_) fun hqueues ↦ absurd haccept hqueues.1
      exact congrArg (fun r ↦ r.1.pendingChanges) (SchemaSyncState.propose_of_autoAccept haccept)
    · refine iff_of_true (keeps_of_same hs ?_) fun hqueues ↦ absurd hreject hqueues.2
      exact congrArg (fun r ↦ r.1.pendingChanges) (SchemaSyncState.propose_of_reject hreject)
    · have hinsert : (s.handleSchemaPropose change now).1.pendingChanges =
          s.pendingChanges.insert change.id (s.queued change now) := by
        rw [SchemaSyncState.propose_of_queues hqueues, ← SchemaSyncState.id_queued
          s.toSchemaSyncState change now]
        rfl
      refine (keeps_insert_iff hs hinsert).trans ?_
      rw [status_queued]
      exact ⟨fun h _ ↦ h, fun h ↦ h hqueues⟩
  | vote request now =>
    refine keeps_looked_iff hs _ (fun change hwaits ↦ ?_) SchemaSyncState.vote_of_not_waits
    refine ⟨s.afterVote (change.voted request now) totalNodes now, ?_, ?_⟩
    · exact congrArg _ (SchemaSyncState.vote_of_waits hwaits totalNodes now)
    · exact applied_afterVote_iff
        ((PendingSchemaChange.status_voted change request now).trans hwaits.2)
  | approve changeId userId userName now =>
    refine keeps_looked_iff hs _ (fun change hwaits ↦ ?_) SchemaSyncState.approve_of_not_waits
    refine ⟨s.afterApproval (change.addHumanApproval userId userName now) totalNodes, ?_, ?_⟩
    · exact congrArg _ (SchemaSyncState.approve_of_waits hwaits userId userName totalNodes now)
    · exact applied_afterApproval_iff
        ((change.status_addHumanApproval userId userName now).trans hwaits.2)
  | reject changeId reason now =>
    refine (keeps_looked_iff hs (fun _ ↦ false) (fun change hwaits ↦ ?_)
      SchemaSyncState.reject_of_not_waits).trans ?_
    · refine ⟨change.rejectedFor reason, ?_, ?_⟩
      · exact congrArg _ (SchemaSyncState.reject_of_waits hwaits reason)
      · exact iff_of_false SchemaChangeStatus.noConfusion Bool.false_ne_true
    · exact iff_of_true (fun _ _ hfalse ↦ absurd hfalse Bool.false_ne_true) trivial
  | cleanupExpired now => exact iff_of_true (keeps_cleanupExpired hs) trivial
  | applyChange changeId appliedByNode now =>
    cases hlookup : s.pendingChanges.lookup changeId with
    | none =>
      refine iff_of_true (keeps_of_same hs ?_) fun change hchange ↦ ?_
      · simp only [LifeAction.run, SchemaSyncState.applyChange, hlookup]
      · exact absurd (hlookup.symm.trans hchange) (Option.some_ne_none change).symm
    | some change =>
      have hinsert : (s.applyChange changeId appliedByNode now).1.pendingChanges =
          s.pendingChanges.insert changeId (change.withStatus .applied) := by
        simp only [SchemaSyncState.applyChange, hlookup]
      refine (keeps_insert_iff hs hinsert).trans ?_
      constructor
      · rintro ⟨hsame, hlapsed⟩ other hother
        obtain rfl := Option.some.inj (hlookup.symm.trans hother)
        cases hfinal : isFinal change.status with
        | true => exact Or.inl (hsame change hlookup hfinal).symm
        | false => exact Or.inr ⟨rfl, hlapsed rfl⟩
      · intro hall
        refine ⟨fun old hold hfinal ↦ ?_, fun _ hlapsed ↦ ?_⟩
        · rcases hall old hold with happlied | ⟨hopen, -⟩
          · exact happlied.symm
          · exact absurd (hopen.symm.trans hfinal) Bool.false_ne_true
        · rcases hall change hlookup with happlied | ⟨-, hnot⟩
          · exact hs.not_applied_of_lapsed hlapsed hlookup happlied
          · exact hnot hlapsed

end Steps

/-! ### Runs -/

/-- In a run of proposals, votes, approvals, rejections, clean-ups and applications, each at any
time, what is decided stays so and what has lapsed is not applied exactly when every step meets the
condition. -/
theorem endsOnce_iff (totalNodes : ℕ) (start : SchemaSyncState) (actions : List LifeAction) :
    Always (LifeState.step totalNodes) NeverLate ⟨start, ∅⟩ actions ∧
        EachStep (LifeState.step totalNodes) (Settled totalNodes) ⟨start, ∅⟩ actions ↔
      EachStep (LifeState.step totalNodes) (EndsOnce totalNodes) ⟨start, ∅⟩ actions := by
  refine always_and_eachStep_iff (I := fun _ ↦ True) (fun _ _ _ _ _ ↦ trivial) ?_ trivial ?_ actions
  · rintro s action next - hs hnext
    obtain rfl := Option.some.inj hnext
    exact keeps_iff hs action
  · exact fun changeId hlapsed ↦ absurd hlapsed (Set.notMem_empty changeId)

/-- A policy that has a person approve breaking changes, within a tenth of a second. -/
def hastyPolicy : SchemaVotePolicy := { SchemaVotePolicy.default with
  breaking := .manualApproval (some 100) 1 }

/-- The change is approved when its time is over, and applied. -/
theorem approved_late :
    ¬ Always (LifeState.step 3) NeverLate ⟨SchemaSyncState.withPolicy hastyPolicy, ∅⟩
      [.propose (customerChange 9 .breaking) 0, .approve 9 "admin" none 200] := by
  intro h
  obtain ⟨-, hproposed⟩ := h
  obtain ⟨-, happroved⟩ := hproposed _ rfl
  have hlate : NeverLate _ := happroved _ rfl
  refine hlate 9 (Or.inr ⟨_, ⟨rfl, rfl⟩, ?_⟩) _ rfl ?_
  · decide
  · decide

end Lithair.Schema
