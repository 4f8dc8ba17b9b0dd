import Lithair.Lib.Run
import Lithair.Schema.Handlers

/-!
# Majorities

A change under the consensus strategy is decided by the nodes of the cluster. The handlers count
the approvals and the rejections that a change holds, and these are of nodes that say who they are,
or come with the proposal.

`decidedByMajority_of_fair` says when what is decided was decided by a majority of the nodes: when
proposals come without votes and undecided, every vote is of a node of the cluster, and no node
votes both ways.
-/

namespace Lithair.Schema

open Lithair.Lib.Run
open Cluster (SchemaApproval SchemaRejection SchemaVotePolicy Uuid VoteRequest)

/-- The nodes of a cluster, as the node `nodeId` knows them. -/
structure ClusterNodes where
  nodeId : ℕ
  peers : List ℕ

namespace ClusterNodes

variable (nodes : ClusterNodes)

def totalNodes : ℕ := nodes.peers.length + 1

def members : Finset ℕ := insert nodes.nodeId nodes.peers.toFinset

theorem card_members_le : nodes.members.card ≤ nodes.totalNodes :=
  (Finset.card_insert_le _ _).trans (Nat.add_le_add_right nodes.peers.toFinset_card_le 1)

/-- More than half of the members have the property. -/
def Majority (P : ℕ → Prop) [DecidablePred P] : Prop :=
  nodes.members.card < 2 * (nodes.members.filter P).card

instance (P : ℕ → Prop) [DecidablePred P] : Decidable (nodes.Majority P) :=
  inferInstanceAs (Decidable (_ < _))

/-- As many different members as the handlers ask for are a majority. -/
theorem majority_of_nodup {P : ℕ → Prop} [DecidablePred P] {ids : List ℕ} (hnodup : ids.Nodup)
    (hids : ∀ n ∈ ids, n ∈ nodes.members ∧ P n) (hlength : nodes.totalNodes / 2 + 1 ≤ ids.length) :
    nodes.Majority P := by
  have hsubset : ids.toFinset ⊆ nodes.members.filter P := by
    intro n hn
    exact Finset.mem_filter.mpr (hids n (List.mem_toFinset.mp hn))
  have hcard : ids.length ≤ (nodes.members.filter P).card := by
    rw [← List.toFinset_card_of_nodup hnodup]
    exact Finset.card_le_card hsubset
  have hmembers : nodes.members.card ≤ nodes.totalNodes := nodes.card_members_le
  unfold Majority
  omega

end ClusterNodes

inductive VoteAction
  | propose (change : PendingSchemaChange) (now : ℕ)
  | vote (vote : VoteRequest) (now : ℕ)

/-- The state with the votes that were taken on each change since it was queued. -/
structure PolledState extends SchemaSyncState where
  cast : Uuid → List VoteRequest

namespace PolledState

variable (nodes : ClusterNodes) (s : PolledState)

def castNext : VoteAction → Uuid → List VoteRequest
  | .propose change _ =>
    match s.policy.strategyFor change.overallStrategy with
    | .autoAccept | .reject => s.cast
    | .consensus | .manualApproval _ _ => Function.update s.cast change.id []
  | .vote vote _ =>
    match s.pendingChanges.lookup vote.changeId with
    | some change =>
      if change.status = .pending then
        Function.update s.cast vote.changeId (s.cast vote.changeId ++ [vote])
      else s.cast
    | none => s.cast

def step (action : VoteAction) : Option PolledState :=
  some
    { toSchemaSyncState :=
        match action with
        | .propose change now => (s.handleSchemaPropose change now).1
        | .vote vote now => (s.handleSchemaVote vote nodes.totalNodes now).1
      cast := s.castNext action }

end PolledState

/-- Among the votes there is one of the node for, or against. -/
def VotedFor (cast : List VoteRequest) (approve : Bool) (node : ℕ) : Prop :=
  ∃ vote ∈ cast, vote.nodeId = node ∧ vote.approve = approve

instance (cast : List VoteRequest) (approve : Bool) (node : ℕ) :
    Decidable (VotedFor cast approve node) :=
  inferInstanceAs (Decidable (∃ vote ∈ cast, _))

section Majorities

variable (nodes : ClusterNodes)

/-- What is applied has a majority of the members that voted for it and not against it, and what is
rejected has one of those that voted against it. -/
def DecidedByMajority (s : PolledState) : Prop :=
  ∀ changeId change, s.pendingChanges.lookup changeId = some change →
    s.policy.strategyFor change.overallStrategy = .consensus →
      (change.status = .applied → nodes.Majority fun n ↦
        VotedFor (s.cast changeId) true n ∧ ¬ VotedFor (s.cast changeId) false n) ∧
      (change.status = .rejected → nodes.Majority (VotedFor (s.cast changeId) false))

/-- A proposal comes undecided and without votes, and a vote is of a member that does not vote the
other way as well. -/
def Fair (s : PolledState) : VoteAction → Prop
  | .propose change _ => s.policy.strategyFor change.overallStrategy = .consensus →
      change.status ≠ .applied ∧ change.status ≠ .rejected ∧
        change.approvals = [] ∧ change.rejections = []
  | .vote vote _ => ∀ change, s.Waits vote.changeId change →
      s.policy.strategyFor change.overallStrategy = .consensus →
        vote.nodeId ∈ nodes.members ∧
          ¬ VotedFor (s.cast vote.changeId) (!vote.approve) vote.nodeId

/-! ### One change -/

/-- The approvals are of different members that voted for the change alone, and the rejections of
different members that voted against it. -/
structure Tallied (cast : List VoteRequest) (change : PendingSchemaChange) : Prop where
  approvalsNodup : (change.approvals.map SchemaApproval.nodeId).Nodup
  approvals : ∀ n ∈ change.approvals.map SchemaApproval.nodeId,
    n ∈ nodes.members ∧ VotedFor cast true n ∧ ¬ VotedFor cast false n
  rejectionsNodup : (change.rejections.map SchemaRejection.nodeId).Nodup
  rejections : ∀ n ∈ change.rejections.map SchemaRejection.nodeId,
    n ∈ nodes.members ∧ VotedFor cast false n

/-- What the state keeps of a change. -/
structure Counted (cast : List VoteRequest) (change : PendingSchemaChange) : Prop where
  tallied : Tallied nodes cast change
  applied : change.status = .applied →
    nodes.Majority fun n ↦ VotedFor cast true n ∧ ¬ VotedFor cast false n
  rejected : change.status = .rejected → nodes.Majority (VotedFor cast false)

variable {nodes} {cast : List VoteRequest} {change : PendingSchemaChange} {vote : VoteRequest}
  {now : ℕ} {node : ℕ} {approve : Bool}

theorem votedFor_concat :
    VotedFor (cast ++ [vote]) approve node ↔
      VotedFor cast approve node ∨ (vote.nodeId = node ∧ vote.approve = approve) := by
  unfold VotedFor
  simp only [List.mem_append, List.mem_singleton, or_and_right, exists_or, exists_eq_left]

theorem counted_of_fresh (happlied : change.status ≠ .applied)
    (hrejected : change.status ≠ .rejected) (happrovals : change.approvals = [])
    (hrejections : change.rejections = []) : Counted nodes [] change where
  tallied :=
    { approvalsNodup := by rw [happrovals]; exact List.nodup_nil
      approvals := by rw [happrovals]; exact fun n hn ↦ absurd hn List.not_mem_nil
      rejectionsNodup := by rw [hrejections]; exact List.nodup_nil
      rejections := by rw [hrejections]; exact fun n hn ↦ absurd hn List.not_mem_nil }
  applied := fun h ↦ absurd h happlied
  rejected := fun h ↦ absurd h hrejected

/-- An approval is added to the approvals of other nodes. -/
theorem approvals_voted :
    (change.voted vote now).approvals.map SchemaApproval.nodeId =
      if vote.approve = true ∧ vote.nodeId ∉ change.approvals.map SchemaApproval.nodeId then
        change.approvals.map SchemaApproval.nodeId ++ [vote.nodeId]
      else change.approvals.map SchemaApproval.nodeId := by
  have hany : (change.approvals.any fun a ↦ a.nodeId == vote.nodeId) = true ↔
      vote.nodeId ∈ change.approvals.map SchemaApproval.nodeId := by
    simp [List.any_eq_true]
  unfold PendingSchemaChange.voted Cluster.PendingSchemaChange.voted
  cases happrove : vote.approve with
  | false =>
    simp only [Bool.false_eq_true, if_false, false_and]
    unfold Cluster.PendingSchemaChange.addRejection
    split_ifs <;> rfl
  | true =>
    simp only [if_true, true_and, Cluster.PendingSchemaChange.addApproval, hany]
    split_ifs with hmem
    · rfl
    · rw [List.map_append]
      rfl

/-- A rejection is added to the rejections of other nodes. -/
theorem rejections_voted :
    (change.voted vote now).rejections.map SchemaRejection.nodeId =
      if vote.approve = false ∧ vote.nodeId ∉ change.rejections.map SchemaRejection.nodeId then
        change.rejections.map SchemaRejection.nodeId ++ [vote.nodeId]
      else change.rejections.map SchemaRejection.nodeId := by
  have hany : (change.rejections.any fun r ↦ r.nodeId == vote.nodeId) = true ↔
      vote.nodeId ∈ change.rejections.map SchemaRejection.nodeId := by
    simp [List.any_eq_true]
  unfold PendingSchemaChange.voted Cluster.PendingSchemaChange.voted
  cases happrove : vote.approve with
  | true =>
    simp only [if_true, Bool.true_eq_false, false_and, if_false]
    unfold Cluster.PendingSchemaChange.addApproval
    split_ifs <;> rfl
  | false =>
    simp only [Bool.false_eq_true, if_false, true_and, Cluster.PendingSchemaChange.addRejection,
      hany]
    by_cases hmem : vote.nodeId ∈ change.rejections.map SchemaRejection.nodeId
    · rw [if_pos hmem, if_neg (not_not_intro hmem)]
    · rw [if_neg hmem, if_pos hmem, List.map_append]
      rfl

/-- Adding a value once to a list of different values. -/
theorem nodup_addOnce {ids : List ℕ} {P : Prop} [Decidable P] (h : ids.Nodup) :
    (if P ∧ node ∉ ids then ids ++ [node] else ids).Nodup := by
  split_ifs with hadd
  · exact List.nodup_append.mpr ⟨h, List.nodup_singleton node, fun n hn m hm heq ↦
      hadd.2 (List.mem_singleton.mp hm ▸ heq ▸ hn)⟩
  · exact h

theorem mem_addOnce {ids : List ℕ} {P : Prop} [Decidable P] {n : ℕ}
    (h : n ∈ if P ∧ node ∉ ids then ids ++ [node] else ids) : n ∈ ids ∨ (P ∧ n = node) := by
  split_ifs at h with hadd
  · rcases List.mem_append.mp h with hn | hn
    · exact Or.inl hn
    · exact Or.inr ⟨hadd.1, List.mem_singleton.mp hn⟩
  · exact Or.inl h

/-- A vote of a member that has not voted the other way is counted once. -/
theorem Tallied.voted (h : Tallied nodes cast change) (hmember : vote.nodeId ∈ nodes.members)
    (hother : ¬ VotedFor cast (!vote.approve) vote.nodeId) :
    Tallied nodes (cast ++ [vote]) (change.voted vote now) where
  approvalsNodup := by
    rw [approvals_voted]
    exact nodup_addOnce h.approvalsNodup
  approvals := by
    rw [approvals_voted]
    intro n hn
    rw [votedFor_concat, votedFor_concat]
    rcases mem_addOnce hn with hn | ⟨happrove, rfl⟩
    · obtain ⟨hin, hfor, hagainst⟩ := h.approvals n hn
      refine ⟨hin, Or.inl hfor, ?_⟩
      rintro (hvoted | ⟨rfl, hreject⟩)
      · exact hagainst hvoted
      · rw [hreject] at hother
        exact hother hfor
    · rw [happrove] at hother ⊢
      refine ⟨hmember, Or.inr ⟨rfl, rfl⟩, ?_⟩
      rintro (hvoted | ⟨-, hreject⟩)
      · exact hother hvoted
      · exact absurd hreject Bool.true_eq_false.mp
  rejectionsNodup := by
    rw [rejections_voted]
    exact nodup_addOnce h.rejectionsNodup
  rejections := by
    rw [rejections_voted]
    intro n hn
    rw [votedFor_concat]
    rcases mem_addOnce hn with hn | ⟨hreject, rfl⟩
    · obtain ⟨hin, hagainst⟩ := h.rejections n hn
      exact ⟨hin, Or.inl hagainst⟩
    · exact ⟨hmember, Or.inr ⟨rfl, hreject⟩⟩

theorem overallStrategy_voted :
    (change.voted vote now).overallStrategy = change.overallStrategy := by
  unfold PendingSchemaChange.voted Cluster.PendingSchemaChange.voted
    Cluster.PendingSchemaChange.addApproval Cluster.PendingSchemaChange.addRejection
  split_ifs <;> rfl

/-- What such a vote decides is decided by a majority. -/
theorem Tallied.counted_afterVote {s : SchemaSyncState} {pending : PendingSchemaChange}
    (h : Tallied nodes cast pending)
    (hconsensus : s.policy.strategyFor pending.overallStrategy = .consensus)
    (hpending : pending.status = .pending) :
    Counted nodes cast (s.afterVote pending nodes.totalNodes now) := by
  have happrovals : pending.hasEnoughApprovals s.policy nodes.totalNodes =
      decide (nodes.totalNodes / 2 + 1 ≤ pending.approvals.length) := by
    unfold Cluster.PendingSchemaChange.hasEnoughApprovals
    rw [hconsensus]
  have hrejections : pending.shouldReject s.policy nodes.totalNodes now =
      decide (nodes.totalNodes / 2 + 1 ≤ pending.rejections.length) := by
    unfold Cluster.PendingSchemaChange.shouldReject
    rw [hconsensus]
  have hstatus : (s.afterVote pending nodes.totalNodes now).status =
      if nodes.totalNodes / 2 + 1 ≤ pending.approvals.length then .applied
      else if nodes.totalNodes / 2 + 1 ≤ pending.rejections.length then .rejected
      else .pending := by
    unfold SchemaSyncState.afterVote PendingSchemaChange.withStatus
    simp only [happrovals, hrejections, hpending, decide_eq_true_eq]
  refine ⟨⟨h.approvalsNodup, h.approvals, h.rejectionsNodup, h.rejections⟩, ?_, ?_⟩
  · rw [hstatus]
    intro happlied
    split_ifs at happlied with henough
    exact nodes.majority_of_nodup h.approvalsNodup h.approvals (by rwa [List.length_map])
  · rw [hstatus]
    intro hrejected
    split_ifs at hrejected with hfew henough
    exact nodes.majority_of_nodup h.rejectionsNodup h.rejections (by rwa [List.length_map])

/-! ### Runs -/

/-- What every change under the consensus strategy keeps to. -/
def AllCounted (nodes : ClusterNodes) (s : PolledState) : Prop :=
  ∀ changeId change, s.pendingChanges.lookup changeId = some change →
    s.policy.strategyFor change.overallStrategy = .consensus →
      Counted nodes (s.cast changeId) change

theorem castNext_of_queues {s : PolledState} (h : s.Queues change) (now : ℕ) :
    s.castNext (.propose change now) = Function.update s.cast change.id [] := by
  unfold PolledState.castNext
  dsimp only
  split
  · next haccept => exact absurd haccept h.1
  · next hreject => exact absurd hreject h.2
  · rfl
  · rfl

theorem castNext_of_waits {s : PolledState} (h : s.Waits vote.changeId change) (now : ℕ) :
    s.castNext (.vote vote now) =
      Function.update s.cast vote.changeId (s.cast vote.changeId ++ [vote]) := by
  unfold PolledState.castNext
  simp only [h.1, h.2, if_true]

theorem castNext_of_not_waits {s : PolledState} (h : ∀ change, ¬ s.Waits vote.changeId change) :
    s.castNext (.vote vote now) = s.cast := by
  unfold PolledState.castNext
  cases hlookup : s.pendingChanges.lookup vote.changeId with
  | none => simp only [hlookup]
  | some change =>
    simp only [hlookup]
    exact if_neg fun hpending ↦ h change ⟨hlookup, hpending⟩

/-- One change is put in its place, and the votes on it with it. -/
theorem AllCounted.insert {s next : PolledState} (hs : AllCounted nodes s) (changeId : Uuid)
    (pending : PendingSchemaChange) (cast : List VoteRequest) (hpolicy : next.policy = s.policy)
    (hpending : next.pendingChanges = s.pendingChanges.insert changeId pending)
    (hcast : next.cast = Function.update s.cast changeId cast)
    (hcounted : s.policy.strategyFor pending.overallStrategy = .consensus →
      Counted nodes cast pending) : AllCounted nodes next := by
  intro other change hlookup hconsensus
  rw [hpolicy] at hconsensus
  rw [hpending] at hlookup
  by_cases hother : other = changeId
  · rw [hother, Finmap.lookup_insert, Option.some.injEq] at hlookup
    subst hlookup
    rw [hcast, hother, Function.update_self]
    exact hcounted hconsensus
  · rw [Finmap.lookup_insert_of_ne _ hother] at hlookup
    rw [hcast, Function.update_of_ne hother]
    exact hs other change hlookup hconsensus

theorem allCounted_propose {s next : PolledState} (hs : AllCounted nodes s)
    (hfair : Fair nodes s (.propose change now))
    (hnext : s.step nodes (.propose change now) = some next) : AllCounted nodes next := by
  obtain rfl := Option.some.inj hnext
  rcases s.propose_cases change with haccept | hreject | hqueues
  · simp only [PolledState.castNext, SchemaSyncState.propose_of_autoAccept haccept, haccept]
    exact hs
  · simp only [PolledState.castNext, SchemaSyncState.propose_of_reject hreject, hreject]
    exact hs
  · refine hs.insert change.id (s.queued change now) [] ?_ ?_ (castNext_of_queues hqueues now) ?_
    · exact (congrArg (fun r ↦ r.1.policy)
        (SchemaSyncState.propose_of_queues hqueues now)).trans rfl
    · rw [← SchemaSyncState.id_queued s.toSchemaSyncState change now]
      exact congrArg (fun r ↦ r.1.pendingChanges) (SchemaSyncState.propose_of_queues hqueues now)
    · intro hconsensus
      rcases s.toSchemaSyncState.queued_eq_or change now with hsame | ⟨timeout, hsame⟩
      · rw [hsame] at hconsensus ⊢
        obtain ⟨happlied, hrejected, happrovals, hrejections⟩ := hfair hconsensus
        exact counted_of_fresh happlied hrejected happrovals hrejections
      · rw [hsame] at hconsensus ⊢
        obtain ⟨happlied, hrejected, happrovals, hrejections⟩ := hfair hconsensus
        exact counted_of_fresh happlied hrejected happrovals hrejections

theorem allCounted_vote {s next : PolledState} (hs : AllCounted nodes s)
    (hfair : Fair nodes s (.vote vote now))
    (hnext : s.step nodes (.vote vote now) = some next) : AllCounted nodes next := by
  obtain rfl := Option.some.inj hnext
  by_cases h : ∃ change, s.Waits vote.changeId change
  · obtain ⟨change, hwaits⟩ := h
    refine hs.insert vote.changeId
      (s.afterVote (change.voted vote now) nodes.totalNodes now) _ ?_ ?_
      (castNext_of_waits hwaits now) fun hconsensus ↦ ?_
    · exact (congrArg SchemaSyncState.policy
        (SchemaSyncState.vote_of_waits hwaits nodes.totalNodes now)).trans rfl
    · exact (congrArg SchemaSyncState.pendingChanges
        (SchemaSyncState.vote_of_waits hwaits nodes.totalNodes now)).trans rfl
    · have hstrategy : s.policy.strategyFor (change.voted vote now).overallStrategy = .consensus :=
        hconsensus
      rw [overallStrategy_voted] at hstrategy
      obtain ⟨hmember, hother⟩ := hfair change hwaits hstrategy
      have htallied : Tallied nodes (s.cast vote.changeId) change :=
        (hs vote.changeId change hwaits.1 hstrategy).tallied
      exact (htallied.voted hmember hother).counted_afterVote hconsensus
        ((PendingSchemaChange.status_voted change vote now).trans hwaits.2)
  · push Not at h
    simp only [castNext_of_not_waits h, SchemaSyncState.vote_of_not_waits h]
    exact hs

/-- In every run in which proposals come undecided and without votes, and every vote is of a member
that does not vote the other way as well, what is decided was decided by a majority. -/
theorem decidedByMajority_of_fair (nodes : ClusterNodes) (policy : SchemaVotePolicy)
    {actions : List VoteAction}
    (hfair : EachStep (PolledState.step nodes) (Fair nodes)
      ⟨SchemaSyncState.withPolicy policy, fun _ ↦ []⟩ actions) :
    Always (PolledState.step nodes) (DecidedByMajority nodes)
      ⟨SchemaSyncState.withPolicy policy, fun _ ↦ []⟩ actions := by
  refine Always.mono ?_ (EachStep.always (I := AllCounted nodes) ?_ ?_ hfair)
  · intro s hs changeId change hlookup hconsensus
    exact ⟨(hs changeId change hlookup hconsensus).applied,
      (hs changeId change hlookup hconsensus).rejected⟩
  · intro s action next hs hfair hnext
    cases action with
    | propose change now => exact allCounted_propose hs hfair hnext
    | vote vote now => exact allCounted_vote hs hfair hnext
  · intro changeId change hlookup
    exact absurd hlookup (by rw [SchemaSyncState.withPolicy, Finmap.lookup_empty]; simp)

end Majorities

/-! ### Three nodes -/

/-- The cluster of the nodes 1, 2 and 3. -/
def threeNodes : ClusterNodes := ⟨1, [2, 3]⟩

/-- A change of the model `Customer` that takes the consensus of the cluster. -/
def versionedChange : PendingSchemaChange :=
  { PendingSchemaChange.new 7 "Customer" 1 [] (singleField anyField []) none 0 with
    overallStrategy := .versioned }

/-- The change is proposed, and then approved by two nodes. -/
def approvedBy (first second : ℕ) : List VoteAction :=
  [.propose versionedChange 0, .vote ⟨7, first, true, none⟩ 1, .vote ⟨7, second, true, none⟩ 2]

/-- Two of the three nodes decide. -/
theorem decidedByMajority_of_members :
    Always (PolledState.step threeNodes) (DecidedByMajority threeNodes)
      ⟨SchemaSyncState.withPolicy .default, fun _ ↦ []⟩ (approvedBy 1 2) := by
  refine decidedByMajority_of_fair threeNodes .default ?_
  refine EachStep.cons rfl (fun _ ↦ ⟨by decide, by decide, rfl, rfl⟩) ?_
  refine EachStep.cons rfl (fun _ _ _ ↦ ⟨by decide, by decide⟩) ?_
  exact EachStep.cons rfl (fun _ _ _ ↦ ⟨by decide, by decide⟩) trivial

/-- So do two nodes that are not of the cluster. -/
theorem strangers_decide :
    ∃ t, exec (PolledState.step threeNodes) ⟨SchemaSyncState.withPolicy .default, fun _ ↦ []⟩
        (approvedBy 11 12) = some t ∧
      (t.pendingChanges.lookup 7).map (fun change ↦ change.status) = some .applied ∧
      ¬ DecidedByMajority threeNodes t := by
  refine ⟨_, rfl, by decide, fun h ↦ ?_⟩
  have hmajority := (h 7 _ rfl rfl).1 rfl
  exact absurd hmajority (by decide)

end Lithair.Schema
