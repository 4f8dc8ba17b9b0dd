import Lithair.Cluster.CrudOperation
import Lithair.Lib.Run
import Mathlib.Data.List.Sort

/-!
# Leadership

Who leads a cluster: `RaftLeadershipState` of `cluster/mod.rs`, the heartbeat and append endpoints
and the two background tasks of `app/mod.rs`. The node with id 0 leads from the start and sends
heartbeats. A node that does not lead watches for them, and after five seconds without one it asks
its peers for their status, one after the other, and takes itself for the leader when no answer
carries a lower id. It asks nobody for a vote, the term stays what it was, and a leader does not
listen to the heartbeats of another.

`atMostOneLeader_iff_electedAlone`: over every run, with any loss, delay, repetition and order of
messages, there is at most one leader of a term exactly as long as no election is won beside a
leader of that term.
-/

namespace Lithair.Cluster

open Lithair.Lib.Run

/-! ### The state of a node -/

inductive RaftNodeState
  | follower
  | candidate
  | leader
  deriving DecidableEq

/-- An address in the list of peers: the node behind it, and the port that its text gives. -/
structure Peer (ι : Type*) where
  node : ι
  port : Option ℕ

/-- A cluster: the ids are distinct, and a node takes part only if it has peers. -/
structure ClusterConfig (ι : Type*) where
  nodeId : ι → ℕ
  selfPort : ι → ℕ
  peers : ι → List (Peer ι)
  nodeId_injective : Function.Injective nodeId
  peers_ne_nil : ∀ i, peers i ≠ []

/-- Times are in milliseconds. -/
structure RaftLeadershipState where
  isLeader : Bool
  currentState : RaftNodeState
  currentLeaderId : ℕ
  leaderPort : ℕ
  lastHeartbeat : ℕ
  deriving DecidableEq

def electionTimeout : ℕ := 5000

namespace RaftLeadershipState

/-- The node with id 0 leads; the others take the lowest port of their peers for its port. -/
def new {ι : Type*} (nodeId selfPort : ℕ) (peers : List (Peer ι)) (now : ℕ) :
    RaftLeadershipState :=
  let isLeader := nodeId == 0 || peers.isEmpty
  { isLeader
    currentState := if isLeader then .leader else .follower
    currentLeaderId := 0
    leaderPort := if isLeader then selfPort else ((peers.filterMap Peer.port).min?).getD selfPort
    lastHeartbeat := now }

def updateHeartbeat (state : RaftLeadershipState) (now : ℕ) : RaftLeadershipState :=
  { state with lastHeartbeat := now }

def shouldStartElection (state : RaftLeadershipState) (now : ℕ) : Bool :=
  !state.isLeader && decide (electionTimeout < now - state.lastHeartbeat)

def becomeLeader (nodeId selfPort now : ℕ) : RaftLeadershipState where
  isLeader := true
  currentState := .leader
  currentLeaderId := nodeId
  leaderPort := selfPort
  lastHeartbeat := now

def becomeFollower (leaderId leaderPort now : ℕ) : RaftLeadershipState where
  isLeader := false
  currentState := .follower
  currentLeaderId := leaderId
  leaderPort := leaderPort
  lastHeartbeat := now

end RaftLeadershipState

/-! ### The cluster -/

/-- A request on its way: a heartbeat, which always says term 1, or entries to append. -/
inductive Message (ι : Type*)
  | heartbeat (receiver : ι) (leaderId leaderPort : ℕ)
  | append (receiver : ι) (term : ℕ)
  deriving DecidableEq

/-- An election that is going on: the peers still to be asked, and the answers. -/
structure ElectionRun (ι : Type*) where
  remaining : List (Peer ι)
  alive : List (ℕ × ℕ)

/-- The nodes with their consensus logs, the elections that are going on, the heartbeat handlers
that have decided to follow another leader and have not done so yet, and all requests ever sent. -/
structure LeadershipCluster (ι : Type*) where
  now : ℕ
  node : ι → RaftLeadershipState
  log : ι → ConsensusLog CrudOperation
  election : ι → Option (ElectionRun ι)
  following : List (ι × ℕ × ℕ)
  sent : List (Message ι)

/-- What happens in a cluster. A request may be delivered any number of times or never, and the
answer of a peer to an election may be lost. -/
inductive LeadershipAction (ι : Type*)
  | tick (milliseconds : ℕ)
  | sendHeartbeat (sender receiver : ι)
  | sendAppend (sender receiver : ι)
  | deliver (message : Message ι)
  | follow (i : ι) (leaderId leaderPort : ℕ)
  | startElection (i : ι)
  | probe (i : ι) (answered : Bool)
  | finishElection (i : ι)

namespace LeadershipCluster

variable {ι : Type*} [DecidableEq ι] (config : ClusterConfig ι)

/-- The cluster after all nodes have started. -/
def start : LeadershipCluster ι where
  now := 0
  node := fun i ↦ .new (config.nodeId i) (config.selfPort i) (config.peers i) 0
  log := fun _ ↦ .new
  election := fun _ ↦ none
  following := []
  sent := []

/-- A node that starts as the leader runs the task that sends heartbeats, and no other node does. -/
def sendsHeartbeats (i : ι) : Bool := ((start config).node i).isLeader

def setNode (s : LeadershipCluster ι) (i : ι) (state : RaftLeadershipState) :
    LeadershipCluster ι :=
  { s with node := Function.update s.node i state }

/-- The candidate with the lowest id among those that answered and the node itself. -/
def winner (i : ι) (run : ElectionRun ι) : ℕ × ℕ :=
  ((run.alive ++ [(config.nodeId i, config.selfPort i)]).insertionSort fun a b ↦ a.1 ≤ b.1).headD
    (config.nodeId i, config.selfPort i)

/-- A heartbeat arrives. Unless the node leads, it is to follow a leader it does not know yet. -/
def receiveHeartbeat (s : LeadershipCluster ι) (i : ι) (leaderId leaderPort : ℕ) :
    LeadershipCluster ι :=
  let state := (s.node i).updateHeartbeat s.now
  let s := s.setNode i state
  if !state.isLeader && leaderId != state.currentLeaderId then
    { s with following := s.following ++ [(i, leaderId, leaderPort)] }
  else s

/-- Entries arrive: a newer term is taken over, an older one is turned away. -/
def receiveAppend (s : LeadershipCluster ι) (i : ι) (term : ℕ) : LeadershipCluster ι :=
  if term < (s.log i).currentTerm then s
  else
    { s.setNode i ((s.node i).updateHeartbeat s.now) with
      log := if (s.log i).currentTerm < term then
        Function.update s.log i ((s.log i).setTerm term) else s.log }

def step (s : LeadershipCluster ι) : LeadershipAction ι → Option (LeadershipCluster ι)
  | .tick milliseconds => some { s with now := s.now + milliseconds }
  | .sendHeartbeat sender receiver =>
    if sendsHeartbeats config sender ∧ (s.node sender).isLeader ∧
        ∃ peer ∈ config.peers sender, peer.node = receiver then
      some { s with
        sent := s.sent ++
          [.heartbeat receiver (config.nodeId sender) (config.selfPort sender)] }
    else none
  | .sendAppend sender receiver =>
    if (s.node sender).isLeader ∧ ∃ peer ∈ config.peers sender, peer.node = receiver then
      some { s with sent := s.sent ++ [.append receiver (s.log sender).currentTerm] }
    else none
  | .deliver message =>
    if message ∈ s.sent then
      match message with
      | .heartbeat receiver leaderId leaderPort =>
        some (s.receiveHeartbeat receiver leaderId leaderPort)
      | .append receiver term => some (s.receiveAppend receiver term)
    else none
  | .follow i leaderId leaderPort =>
    if (i, leaderId, leaderPort) ∈ s.following then
      some { s.setNode i (.becomeFollower leaderId leaderPort s.now) with
        following := s.following.erase (i, leaderId, leaderPort) }
    else none
  | .startElection i =>
    if sendsHeartbeats config i = false ∧ (s.election i).isNone ∧
        (s.node i).shouldStartElection s.now then
      some { s.setNode i { s.node i with currentState := .candidate } with
        election := Function.update s.election i (some ⟨config.peers i, []⟩) }
    else none
  | .probe i answered =>
    match s.election i with
    | some ⟨peer :: remaining, alive⟩ =>
      let answer := if answered then [(config.nodeId peer.node, peer.port.getD 0)] else []
      some { s with election := Function.update s.election i (some ⟨remaining, alive ++ answer⟩) }
    | _ => none
  | .finishElection i =>
    match s.election i with
    | some ⟨[], alive⟩ =>
      let (winnerId, winnerPort) := winner config i ⟨[], alive⟩
      let state := if winnerId = config.nodeId i then
          RaftLeadershipState.becomeLeader (config.nodeId i) (config.selfPort i) s.now
        else .becomeFollower winnerId winnerPort s.now
      some { s.setNode i state with election := Function.update s.election i none }
    | _ => none

/-! ### At most one leader -/

/-- No two nodes lead in the same term. -/
def AtMostOneLeader (s : LeadershipCluster ι) : Prop :=
  ∀ i j, (s.node i).isLeader = true → (s.node j).isLeader = true →
    (s.log i).currentTerm = (s.log j).currentTerm → i = j

/-- The answers to the election of a node make it the winner. -/
def Wins (s : LeadershipCluster ι) (i : ι) : Prop :=
  ∃ run, s.election i = some run ∧ (winner config i run).1 = config.nodeId i

/-- A node that is about to win its election finds no other leader of its term. -/
def ElectedAlone (s : LeadershipCluster ι) : LeadershipAction ι → Prop
  | .finishElection i =>
    Wins config s i →
      ∀ j, (s.node j).isLeader = true → (s.log j).currentTerm = (s.log i).currentTerm → j = i
  | _ => True

/-- The term of a request. -/
def messageTerm : Message ι → ℕ
  | .heartbeat _ _ _ => 1
  | .append _ term => term

/-- Nobody has left the first term. -/
structure FirstTerm (s : LeadershipCluster ι) : Prop where
  log : ∀ i, (s.log i).currentTerm = 1
  sent : ∀ message ∈ s.sent, messageTerm message = 1

/-- A step that makes nobody a leader and keeps to the first term. -/
structure Quiet (s next : LeadershipCluster ι) : Prop where
  leader : ∀ i, (next.node i).isLeader = true → (s.node i).isLeader = true
  log : next.log = s.log
  sent : ∀ message ∈ next.sent, message ∈ s.sent ∨ messageTerm message = 1

variable {config} {s next : LeadershipCluster ι}

omit [DecidableEq ι] in
theorem firstTerm_start : (start config).FirstTerm where
  log := fun _ ↦ rfl
  sent := fun _ h ↦ absurd h List.not_mem_nil

omit [DecidableEq ι] in
/-- Only the node with id 0 leads at the start. -/
theorem atMostOneLeader_start : (start config).AtMostOneLeader := by
  have hzero : ∀ i, ((start config).node i).isLeader = true → config.nodeId i = 0 := by
    intro i hi
    have hleads : (config.nodeId i == 0 || (config.peers i).isEmpty) = true := hi
    rw [Bool.or_eq_true, beq_iff_eq, List.isEmpty_iff] at hleads
    exact hleads.resolve_right (config.peers_ne_nil i)
  intro i j hi hj _
  exact config.nodeId_injective ((hzero i hi).trans (hzero j hj).symm)

/-- A node that is set to a state in which it leads only if it did, is quiet. -/
theorem isLeader_of_setNode {i : ι} {state : RaftLeadershipState}
    (h : state.isLeader = true → (s.node i).isLeader = true) (j : ι)
    (hj : ((s.setNode i state).node j).isLeader = true) : (s.node j).isLeader = true := by
  change (Function.update s.node i state j).isLeader = true at hj
  rw [Function.update_apply] at hj
  split_ifs at hj with hji
  · exact hji ▸ h hj
  · exact hj

omit [DecidableEq ι] in
theorem quiet_sendMessage {message : Message ι} (h : messageTerm message = 1) :
    Quiet s { s with sent := s.sent ++ [message] } where
  leader := fun _ hi ↦ hi
  log := rfl
  sent := by
    intro other hother
    rcases List.mem_append.mp hother with hold | hnew
    · exact Or.inl hold
    · exact Or.inr (List.mem_singleton.mp hnew ▸ h)

theorem quiet_receiveHeartbeat (i : ι) (leaderId leaderPort : ℕ) :
    Quiet s (s.receiveHeartbeat i leaderId leaderPort) := by
  have hkeeps : Quiet s (s.setNode i ((s.node i).updateHeartbeat s.now)) :=
    ⟨isLeader_of_setNode id, rfl, fun _ h ↦ Or.inl h⟩
  unfold receiveHeartbeat
  dsimp only
  split_ifs
  · exact ⟨hkeeps.leader, rfl, hkeeps.sent⟩
  · exact hkeeps

theorem quiet_receiveAppend (h : s.FirstTerm) (i : ι) : Quiet s (s.receiveAppend i 1) := by
  unfold receiveAppend
  rw [h.log i]
  exact ⟨isLeader_of_setNode id, rfl, fun _ h ↦ Or.inl h⟩

/-- Every step is quiet but the end of an election that the node wins. -/
theorem quiet_of_step (h : s.FirstTerm) {action : LeadershipAction ι}
    (hnext : step config s action = some next)
    (hwins : ∀ i, action = .finishElection i → ¬ Wins config s i) : Quiet s next := by
  cases action with
  | tick milliseconds =>
    obtain rfl := Option.some.inj hnext
    exact ⟨fun _ hi ↦ hi, rfl, fun _ h ↦ Or.inl h⟩
  | sendHeartbeat sender receiver =>
    simp only [step, Option.ite_none_right_eq_some, Option.some.injEq] at hnext
    obtain ⟨-, rfl⟩ := hnext
    exact quiet_sendMessage rfl
  | sendAppend sender receiver =>
    simp only [step, Option.ite_none_right_eq_some, Option.some.injEq] at hnext
    obtain ⟨-, rfl⟩ := hnext
    exact quiet_sendMessage (h.log sender)
  | deliver message =>
    simp only [step, Option.ite_none_right_eq_some] at hnext
    obtain ⟨hsent, hnext⟩ := hnext
    cases message with
    | heartbeat receiver leaderId leaderPort =>
      obtain rfl := Option.some.inj hnext
      exact quiet_receiveHeartbeat receiver leaderId leaderPort
    | append receiver term =>
      obtain rfl : term = 1 := h.sent _ hsent
      obtain rfl := Option.some.inj hnext
      exact quiet_receiveAppend h receiver
  | follow i leaderId leaderPort =>
    simp only [step, Option.ite_none_right_eq_some, Option.some.injEq] at hnext
    obtain ⟨-, rfl⟩ := hnext
    exact ⟨isLeader_of_setNode fun hleads ↦ Bool.noConfusion hleads, rfl, fun _ h ↦ Or.inl h⟩
  | startElection i =>
    simp only [step, Option.ite_none_right_eq_some, Option.some.injEq] at hnext
    obtain ⟨-, rfl⟩ := hnext
    exact ⟨isLeader_of_setNode id, rfl, fun _ h ↦ Or.inl h⟩
  | probe i answered =>
    cases helection : s.election i with
    | none => simp [step, helection] at hnext
    | some run =>
      obtain ⟨remaining, alive⟩ := run
      cases remaining with
      | nil => simp [step, helection] at hnext
      | cons peer remaining =>
        simp only [step, helection, Option.some.injEq] at hnext
        obtain rfl := hnext
        exact ⟨fun _ hi ↦ hi, rfl, fun _ h ↦ Or.inl h⟩
  | finishElection i =>
    cases helection : s.election i with
    | none => simp [step, helection] at hnext
    | some run =>
      obtain ⟨remaining, alive⟩ := run
      cases remaining with
      | cons peer remaining => simp [step, helection] at hnext
      | nil =>
        have hlost : (winner config i ⟨[], alive⟩).1 ≠ config.nodeId i :=
          fun hwinner ↦ hwins i rfl ⟨_, helection, hwinner⟩
        simp only [step, helection, if_neg hlost, Option.some.injEq] at hnext
        obtain rfl := hnext
        exact ⟨isLeader_of_setNode fun hleads ↦ Bool.noConfusion hleads, rfl, fun _ h ↦ Or.inl h⟩

/-- A node that wins its election leads, and nothing else changes. -/
theorem step_of_wins {i : ι} (hnext : step config s (.finishElection i) = some next)
    (hwins : Wins config s i) :
    next.node = Function.update s.node i
        (.becomeLeader (config.nodeId i) (config.selfPort i) s.now) ∧
      next.log = s.log ∧ next.sent = s.sent := by
  obtain ⟨⟨remaining, alive⟩, helection, hwinner⟩ := hwins
  cases remaining with
  | cons peer remaining => simp [step, helection] at hnext
  | nil =>
    simp only [step, helection, if_pos hwinner, Option.some.injEq] at hnext
    obtain rfl := hnext
    exact ⟨rfl, rfl, rfl⟩

omit [DecidableEq ι] in
theorem Quiet.firstTerm (hq : Quiet s next) (h : s.FirstTerm) : next.FirstTerm where
  log := hq.log ▸ h.log
  sent := fun message hmessage ↦ (hq.sent message hmessage).elim (h.sent message) id

omit [DecidableEq ι] in
theorem Quiet.atMostOneLeader (hq : Quiet s next) (h : s.AtMostOneLeader) :
    next.AtMostOneLeader := by
  intro i j hi hj hterm
  rw [hq.log] at hterm
  exact h i j (hq.leader i hi) (hq.leader j hj) hterm

theorem kept_firstTerm : Kept (step config) FirstTerm := by
  intro s action next h hnext
  by_cases hwins : ∃ i, action = .finishElection i ∧ Wins config s i
  · obtain ⟨i, rfl, hi⟩ := hwins
    obtain ⟨-, hlog, hsent⟩ := step_of_wins hnext hi
    exact ⟨hlog ▸ h.log, hsent ▸ h.sent⟩
  · have hquiet := quiet_of_step h hnext fun i hi hw ↦ hwins ⟨i, hi, hw⟩
    exact hquiet.firstTerm h

/-- A won election leaves one leader exactly when the winner found no other. -/
theorem atMostOneLeader_of_wins_iff (h : s.AtMostOneLeader) {i : ι}
    (hnext : step config s (.finishElection i) = some next) (hwins : Wins config s i) :
    next.AtMostOneLeader ↔ ElectedAlone config s (.finishElection i) := by
  obtain ⟨hnode, hlog, -⟩ := step_of_wins hnext hwins
  have hi : (next.node i).isLeader = true := by
    rw [hnode, Function.update_self]
    rfl
  have hother : ∀ j, j ≠ i → next.node j = s.node j := by
    intro j hj
    rw [hnode, Function.update_of_ne hj]
  constructor
  · intro hone _ j hj hterm
    by_contra hne
    exact hne (hone j i (hother j hne ▸ hj) hi (hlog ▸ hterm))
  · intro halone
    have honly : ∀ j, (next.node j).isLeader = true →
        (s.log j).currentTerm = (s.log i).currentTerm → j = i := by
      intro j hj hterm
      by_contra hne
      rw [hother j hne] at hj
      exact hne (halone hwins j hj hterm)
    intro j k hj hk hterm
    rw [hlog] at hterm
    by_cases hji : j = i
    · exact hji.trans (honly k hk (hji ▸ hterm.symm)).symm
    · by_cases hki : k = i
      · exact absurd (honly j hj (hki ▸ hterm)) hji
      · exact h j k (hother j hji ▸ hj) (hother k hki ▸ hk) hterm

theorem atMostOneLeader_step (s : LeadershipCluster ι) (action : LeadershipAction ι)
    (next : LeadershipCluster ι) (hterm : s.FirstTerm) (h : s.AtMostOneLeader)
    (hnext : step config s action = some next) :
    next.AtMostOneLeader ↔ ElectedAlone config s action := by
  by_cases hwins : ∃ i, action = .finishElection i ∧ Wins config s i
  · obtain ⟨i, rfl, hi⟩ := hwins
    exact atMostOneLeader_of_wins_iff h hnext hi
  · have hquiet := quiet_of_step hterm hnext fun i hi hw ↦ hwins ⟨i, hi, hw⟩
    refine iff_of_true (hquiet.atMostOneLeader h) ?_
    cases action with
    | finishElection i => exact fun hi ↦ absurd ⟨i, rfl, hi⟩ hwins
    | tick | sendHeartbeat | sendAppend | deliver | follow | startElection | probe => trivial

/-- In every run there is at most one leader of a term at all times exactly when no election is won
beside a leader of that term. -/
theorem atMostOneLeader_iff_electedAlone (config : ClusterConfig ι)
    (actions : List (LeadershipAction ι)) :
    Always (step config) AtMostOneLeader (start config) actions ↔
      EachStep (step config) (ElectedAlone config) (start config) actions :=
  always_iff_eachStep kept_firstTerm atMostOneLeader_step firstTerm_start atMostOneLeader_start
    actions

/-! ### A leader that is not heard -/

section TwoNodes

/-- Two nodes, each the peer of the other. -/
def twoNodes : ClusterConfig (Fin 2) where
  nodeId := fun i ↦ i
  selfPort := fun i ↦ 8080 + i
  peers := fun i ↦ [⟨1 - i, some (8081 - i)⟩]
  nodeId_injective := Fin.val_injective
  peers_ne_nil := fun _ ↦ List.cons_ne_nil _ _

/-- The second node hears nothing for more than five seconds, gets no answer from the first, and
leads beside it. -/
theorem second_node_leads_beside_first :
    ¬ Always (step twoNodes) AtMostOneLeader (start twoNodes)
        [.tick 5001, .startElection 1, .probe 1 false, .finishElection 1] := by
  intro h
  have hend : AtMostOneLeader _ := (((h.2 _ rfl).2 _ rfl).2 _ rfl).2 _ rfl
  exact absurd (hend 0 1 rfl rfl rfl) (by decide)

end TwoNodes

end LeadershipCluster

end Lithair.Cluster
