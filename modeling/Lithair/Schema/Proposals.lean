import Lithair.Schema.Handlers

/-!
# What a proposal says of itself

A proposal is a whole record: the strategy of the change, its status, its votes and its id come with
it. `followsPolicy_iff` says for which proposals the node does what its policy has for the changes
between the two schemas, and queues a change that is new and undecided.
-/

namespace Lithair.Schema

open Cluster (MigrationStrategy SchemaVotePolicy Uuid)

variable (toLowercase : String → String)

/-- The strategy of a change as it follows from the two schemas. -/
def recomputedStrategy (change : PendingSchemaChange) : MigrationStrategy :=
  worst
    (match change.oldSpec with
    | some oldSpec => SchemaChangeDetector.detectChanges toLowercase oldSpec change.newSpec
    | none => [])

/-- The answer to a proposal with the strategy. -/
def responseUnder (policy : SchemaVotePolicy) (changeId : Uuid) (strategy : MigrationStrategy) :
    ProposeResponse :=
  match policy.strategyFor strategy with
  | .autoAccept => .accepted changeId
  | .reject => .rejected changeId strategy
  | voteStrategy => .pending changeId voteStrategy

/-- The change is queued as a new one: it has the strategy, waits, and has no votes, and there was
none under its id. -/
structure QueuedFresh (s next : SchemaSyncState) (changeId : Uuid) (strategy : MigrationStrategy) :
    Prop where
  absent : changeId ∉ s.pendingChanges
  queued : ∃ pending, next.pendingChanges.lookup changeId = some pending ∧
    pending.overallStrategy = strategy ∧ pending.status = .pending ∧ pending.approvals = [] ∧
      pending.rejections = [] ∧ pending.humanApprovals = []

/-- The proposal is accepted, rejected or queued by the strategy that follows from the two schemas,
and what is queued is a new change. -/
structure FollowsPolicy (s : SchemaSyncState) (change : PendingSchemaChange) (now : ℕ) : Prop where
  response : (s.handleSchemaPropose change now).2 =
    responseUnder s.policy change.id (recomputedStrategy toLowercase change)
  queued : ∀ voteStrategy, (s.handleSchemaPropose change now).2 = .pending change.id voteStrategy →
    QueuedFresh s (s.handleSchemaPropose change now).1 change.id
      (recomputedStrategy toLowercase change)

/-- The proposal names the strategy that follows from the two schemas, or both are accepted
automatically; if it is to be queued, it waits, has no votes and has an id of its own. -/
structure SpeaksTrue (s : SchemaSyncState) (change : PendingSchemaChange) : Prop where
  strategy : change.overallStrategy = recomputedStrategy toLowercase change ∨
    (s.policy.strategyFor change.overallStrategy = .autoAccept ∧
      s.policy.strategyFor (recomputedStrategy toLowercase change) = .autoAccept)
  fresh : s.Queues change → change.status = .pending ∧ change.approvals = [] ∧
    change.rejections = [] ∧ change.humanApprovals = [] ∧ change.id ∉ s.pendingChanges

variable {toLowercase} {s : SchemaSyncState} {change : PendingSchemaChange} {now : ℕ}

theorem response_eq (s : SchemaSyncState) (change : PendingSchemaChange) (now : ℕ) :
    (s.handleSchemaPropose change now).2 =
      responseUnder s.policy change.id change.overallStrategy := by
  unfold responseUnder
  rcases s.propose_cases change with haccept | hreject | hqueues
  · rw [SchemaSyncState.propose_of_autoAccept haccept, haccept]
  · rw [SchemaSyncState.propose_of_reject hreject, hreject]
  · rw [SchemaSyncState.propose_of_queues hqueues]
    split
    · next haccept => exact absurd haccept hqueues.1
    · next hreject => exact absurd hreject hqueues.2
    · rfl

/-- A proposal is answered as pending exactly when it is queued. -/
theorem response_pending_iff :
    (∃ voteStrategy, (s.handleSchemaPropose change now).2 = .pending change.id voteStrategy) ↔
      s.Queues change := by
  constructor
  · rintro ⟨voteStrategy, hresponse⟩
    rcases s.propose_cases change with haccept | hreject | hqueues
    · rw [SchemaSyncState.propose_of_autoAccept haccept] at hresponse
      exact absurd hresponse (by simp)
    · rw [SchemaSyncState.propose_of_reject hreject] at hresponse
      exact absurd hresponse (by simp)
    · exact hqueues
  · intro hqueues
    rw [SchemaSyncState.propose_of_queues hqueues]
    exact ⟨_, rfl⟩

/-- What is queued keeps what the proposal says, but for the time that it expires at. -/
theorem queuedFresh_iff (hqueues : s.Queues change) {strategy : MigrationStrategy} :
    QueuedFresh s (s.handleSchemaPropose change now).1 change.id strategy ↔
      change.overallStrategy = strategy ∧ change.status = .pending ∧ change.approvals = [] ∧
        change.rejections = [] ∧ change.humanApprovals = [] ∧ change.id ∉ s.pendingChanges := by
  have hlookup : (s.handleSchemaPropose change now).1.pendingChanges.lookup change.id =
      some (s.queued change now) := by
    rw [SchemaSyncState.propose_of_queues hqueues, ← s.id_queued change now]
    exact Finmap.lookup_insert _
  have hsame : (s.queued change now).overallStrategy = change.overallStrategy ∧
      (s.queued change now).status = change.status ∧
      (s.queued change now).approvals = change.approvals ∧
      (s.queued change now).rejections = change.rejections ∧
      (s.queued change now).humanApprovals = change.humanApprovals := by
    rcases s.queued_eq_or change now with h | ⟨timeout, h⟩
    · rw [h]
      exact ⟨rfl, rfl, rfl, rfl, rfl⟩
    · rw [h]
      exact ⟨rfl, rfl, rfl, rfl, rfl⟩
  obtain ⟨hstrategy, hstatus, happrovals, hrejections, hhuman⟩ := hsame
  constructor
  · rintro ⟨habsent, pending, hpending, hrest⟩
    obtain rfl := Option.some.inj (hlookup.symm.trans hpending)
    rw [hstrategy, hstatus, happrovals, hrejections, hhuman] at hrest
    tauto
  · rintro ⟨rfl, hrest⟩
    refine ⟨hrest.2.2.2.2, _, hlookup, hstrategy, ?_⟩
    rw [hstatus, happrovals, hrejections, hhuman]
    tauto

theorem responseUnder_eq_accepted_iff {policy : SchemaVotePolicy} {changeId : Uuid}
    {strategy : MigrationStrategy} :
    responseUnder policy changeId strategy = .accepted changeId ↔
      policy.strategyFor strategy = .autoAccept := by
  unfold responseUnder
  cases policy.strategyFor strategy <;> simp

/-- A rejection names the strategy that is rejected. -/
theorem eq_of_responseUnder_rejected {policy : SchemaVotePolicy} {changeId : Uuid}
    {strategy other : MigrationStrategy}
    (h : responseUnder policy changeId strategy = .rejected changeId other) : strategy = other := by
  unfold responseUnder at h
  cases hstrategy : policy.strategyFor strategy with
  | reject =>
    rw [hstrategy] at h
    exact (ProposeResponse.rejected.inj h).2
  | autoAccept | consensus | manualApproval timeout minApprovers =>
    rw [hstrategy] at h
    exact absurd h (by simp)

/-- A proposal is dealt with by the policy exactly when what it says of itself is so. -/
theorem followsPolicy_iff (toLowercase : String → String) (s : SchemaSyncState)
    (change : PendingSchemaChange) (now : ℕ) :
    FollowsPolicy toLowercase s change now ↔ SpeaksTrue toLowercase s change := by
  have hresponse := response_eq s change now
  rcases s.propose_cases change with haccept | hreject | hqueues
  · have hnot : ¬ s.Queues change := fun h ↦ h.1 haccept
    have haccepted : responseUnder s.policy change.id change.overallStrategy =
        .accepted change.id := responseUnder_eq_accepted_iff.mpr haccept
    constructor
    · intro h
      have hrecomputed := (hresponse.trans haccepted).symm.trans h.response
      exact ⟨Or.inr ⟨haccept, responseUnder_eq_accepted_iff.mp hrecomputed.symm⟩,
        fun h ↦ absurd h hnot⟩
    · intro h
      refine ⟨?_, fun voteStrategy hpending ↦
        absurd (response_pending_iff.mp ⟨voteStrategy, hpending⟩) hnot⟩
      rcases h.strategy with hsame | ⟨-, hrecomputed⟩
      · rw [hresponse, hsame]
      · rw [hresponse, haccepted, responseUnder_eq_accepted_iff.mpr hrecomputed]
  · have hnot : ¬ s.Queues change := fun h ↦ h.2 hreject
    constructor
    · intro h
      have hrejected := h.response
      rw [SchemaSyncState.propose_of_reject hreject] at hrejected
      exact ⟨Or.inl (eq_of_responseUnder_rejected hrejected.symm).symm, fun h ↦ absurd h hnot⟩
    · intro h
      refine ⟨?_, fun voteStrategy hpending ↦
        absurd (response_pending_iff.mp ⟨voteStrategy, hpending⟩) hnot⟩
      rcases h.strategy with hsame | ⟨haccept, -⟩
      · rw [hresponse, hsame]
      · exact absurd (hreject.symm.trans haccept) (by simp)
  · constructor
    · intro h
      obtain ⟨voteStrategy, hpending⟩ := response_pending_iff.mpr hqueues
      obtain ⟨hstrategy, hfresh⟩ := (queuedFresh_iff hqueues).mp (h.queued voteStrategy hpending)
      exact ⟨Or.inl hstrategy, fun _ ↦ hfresh⟩
    · intro h
      have hstrategy : change.overallStrategy = recomputedStrategy toLowercase change := by
        rcases h.strategy with hsame | ⟨haccept, -⟩
        · exact hsame
        · exact absurd haccept hqueues.1
      refine ⟨by rw [hresponse, hstrategy], fun voteStrategy _ ↦ ?_⟩
      exact (queuedFresh_iff hqueues).mpr ⟨hstrategy, h.fresh hqueues⟩

/-! ### A proposal that plays down a change -/

/-- A proposal to remove the field `email` that calls itself additive. -/
def disguisedRemoval : PendingSchemaChange :=
  { PendingSchemaChange.new 7 "Customer" 1 [] { singleField anyField [] with fields := ∅ }
      (some (singleField anyField [])) 0 with
    overallStrategy := .additive }

/-- The removal of a field is accepted automatically, though the policy has a person approve it. -/
theorem removal_accepted :
    recomputedStrategy String.toLower disguisedRemoval = .breaking ∧
      ((SchemaSyncState.withPolicy .default).handleSchemaPropose disguisedRemoval 0).2 =
        .accepted 7 ∧
      ¬ FollowsPolicy String.toLower (SchemaSyncState.withPolicy .default) disguisedRemoval 0 := by
  refine ⟨by decide, rfl, fun h ↦ ?_⟩
  exact absurd h.response (by decide)

end Lithair.Schema
