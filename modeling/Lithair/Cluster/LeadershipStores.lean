import Lithair.Cluster.Leadership

/-!
# The stores of the leadership state

`RaftLeadershipState` of `cluster/mod.rs` keeps the role of a node in four atomics, which
`become_leader`, `become_follower` and `start_election` write one after the other, while the handler
of heartbeats in `app/mod.rs` reads two of them before it decides to follow. Any number of these
calls may be on their way at once, and a request may be answered between any two stores.

`consistent_iff` says in which runs the four agree in all states: when each store writes what goes
with the role that the node has already, so that the role never changes, and, as it is seen between
calls that do not overlap, when no call names the node itself as the leader to follow and no leader
starts an election. A node that is alone agrees with itself from the start only if its id is 0.
-/

namespace Lithair.Cluster

open Lithair.Lib.Run

/-- What is called on the state of a node. A heartbeat carries the id and the port of a leader,
unless its body cannot be read. -/
inductive LeadershipCall
  | becomeLeader
  | becomeFollower (leaderId leaderPort : ℕ)
  | startElection
  | heartbeat (body : Option (ℕ × ℕ))

/-- A store to one of the atomics, or to the time of the last heartbeat. -/
inductive LeadershipStore
  | isLeader (value : Bool)
  | currentState (value : RaftNodeState)
  | currentLeaderId (value : ℕ)
  | leaderPort (value : ℕ)
  | lastHeartbeat

/-- What a call is about to do: its stores, or, for a heartbeat, first to note the time and then to
read whether the node leads and whom it follows. -/
inductive CallProgress
  | storing (store : LeadershipStore) (rest : List LeadershipStore)
  | noting (body : Option (ℕ × ℕ))
  | readingRole (leaderId leaderPort : ℕ)
  | readingLeader (leaderId leaderPort : ℕ)

namespace RaftLeadershipState

/-- The four places in which the role of the node is kept agree. -/
structure Consistent (nodeId selfPort : ℕ) (state : RaftLeadershipState) : Prop where
  currentState : state.isLeader = true ↔ state.currentState = .leader
  currentLeaderId : state.isLeader = true ↔ state.currentLeaderId = nodeId
  leaderPort : state.isLeader = true → state.leaderPort = selfPort

def write (state : RaftLeadershipState) (now : ℕ) : LeadershipStore → RaftLeadershipState
  | .isLeader value => { state with isLeader := value }
  | .currentState value => { state with currentState := value }
  | .currentLeaderId value => { state with currentLeaderId := value }
  | .leaderPort value => { state with leaderPort := value }
  | .lastHeartbeat => state.updateHeartbeat now

/-- A whole call, with no other in between. -/
def perform (nodeId selfPort : ℕ) (state : RaftLeadershipState) (now : ℕ) :
    LeadershipCall → RaftLeadershipState
  | .becomeLeader => .becomeLeader nodeId selfPort now
  | .becomeFollower leaderId leaderPort => .becomeFollower leaderId leaderPort now
  | .startElection => { state with currentState := .candidate }
  | .heartbeat none => state.updateHeartbeat now
  | .heartbeat (some (leaderId, leaderPort)) =>
    if !state.isLeader && leaderId != state.currentLeaderId then
      .becomeFollower leaderId leaderPort now
    else state.updateHeartbeat now

end RaftLeadershipState

/-- `become_leader`. -/
def becomeLeaderStores (nodeId selfPort : ℕ) : CallProgress :=
  .storing (.isLeader true) [.currentState .leader, .currentLeaderId nodeId, .leaderPort selfPort,
    .lastHeartbeat]

/-- `become_follower`. -/
def becomeFollowerStores (leaderId leaderPort : ℕ) : CallProgress :=
  .storing (.isLeader false) [.currentState .follower, .currentLeaderId leaderId,
    .leaderPort leaderPort, .lastHeartbeat]

namespace LeadershipCall

/-- What a call does first. -/
def begin (nodeId selfPort : ℕ) : LeadershipCall → CallProgress
  | .becomeLeader => becomeLeaderStores nodeId selfPort
  | .becomeFollower leaderId leaderPort => becomeFollowerStores leaderId leaderPort
  | .startElection => .storing (.currentState .candidate) []
  | .heartbeat body => .noting body

/-- The call does not name the node itself as a leader to follow, and is no election of a leader. -/
def Fits (nodeId : ℕ) (state : RaftLeadershipState) : LeadershipCall → Prop
  | .becomeLeader => True
  | .becomeFollower leaderId _ => leaderId ≠ nodeId
  | .startElection => state.isLeader = false
  | .heartbeat none => True
  | .heartbeat (some (leaderId, _)) => state.isLeader = false → leaderId ≠ nodeId

end LeadershipCall

namespace CallProgress

/-- One store or one read of a call, and what it does next. -/
def advance (state : RaftLeadershipState) (now : ℕ) :
    CallProgress → RaftLeadershipState × Option CallProgress
  | .storing store [] => (state.write now store, none)
  | .storing store (next :: rest) => (state.write now store, some (.storing next rest))
  | .noting none => (state.updateHeartbeat now, none)
  | .noting (some (leaderId, leaderPort)) =>
    (state.updateHeartbeat now, some (.readingRole leaderId leaderPort))
  | .readingRole leaderId leaderPort =>
    (state, if state.isLeader then none else some (.readingLeader leaderId leaderPort))
  | .readingLeader leaderId leaderPort =>
    (state, if leaderId = state.currentLeaderId then none
      else some (becomeFollowerStores leaderId leaderPort))

end CallProgress

/-- The store writes what goes with the role that the node has. -/
def LeadershipStore.Fits (nodeId selfPort : ℕ) (state : RaftLeadershipState) :
    LeadershipStore → Prop
  | .isLeader value => value = state.isLeader
  | .currentState value => state.isLeader = true ↔ value = .leader
  | .currentLeaderId value => state.isLeader = true ↔ value = nodeId
  | .leaderPort value => state.isLeader = true → value = selfPort
  | .lastHeartbeat => True

/-- If the call is about to store something, that goes with the role that the node has. -/
def CallProgress.Fits (nodeId selfPort : ℕ) (state : RaftLeadershipState) : CallProgress → Prop
  | .storing store _ => store.Fits nodeId selfPort state
  | .noting _ | .readingRole _ _ | .readingLeader _ _ => True

/-! ### Runs -/

/-- The state of a node and the calls that are on their way. -/
structure LeadershipNode where
  state : RaftLeadershipState
  calls : ℕ → Option CallProgress

/-- A call begins or goes on. -/
inductive NodeAction
  | call (c : ℕ) (call : LeadershipCall)
  | advance (c now : ℕ)

namespace LeadershipNode

variable (nodeId selfPort : ℕ)

/-- A node after its construction. -/
def start {ι : Type*} (peers : List (Peer ι)) (now : ℕ) : LeadershipNode where
  state := .new nodeId selfPort peers now
  calls := fun _ ↦ none

def step (s : LeadershipNode) : NodeAction → Option LeadershipNode
  | .call c call =>
    if (s.calls c).isNone then
      some { s with calls := Function.update s.calls c (some (call.begin nodeId selfPort)) }
    else none
  | .advance c now =>
    (s.calls c).map fun progress ↦
      let (state, progress') := progress.advance s.state now
      { state, calls := Function.update s.calls c progress' }

/-- The call that goes on stores nothing that does not go with the role that the node has. -/
def Fits (s : LeadershipNode) : NodeAction → Prop
  | .call _ _ => True
  | .advance c _ => ∀ progress, s.calls c = some progress → progress.Fits nodeId selfPort s.state

/-- Whole calls, one after the other, each with its time. -/
def callStep (state : RaftLeadershipState) (call : LeadershipCall × ℕ) :
    Option RaftLeadershipState :=
  some (state.perform nodeId selfPort call.2 call.1)

end LeadershipNode

/-! ### What one step keeps -/

section Steps

variable {nodeId selfPort : ℕ} {state : RaftLeadershipState}

/-- A node is consistent from the start unless it is alone with an id that is not 0. -/
theorem consistent_new_iff {ι : Type*} {peers : List (Peer ι)} (now : ℕ) :
    (RaftLeadershipState.new nodeId selfPort peers now).Consistent nodeId selfPort ↔
      (nodeId = 0 ∨ peers ≠ []) := by
  have hleader : (RaftLeadershipState.new nodeId selfPort peers now).isLeader = true ↔
      nodeId = 0 ∨ peers = [] := by
    simp [RaftLeadershipState.new]
  constructor
  · intro h
    by_contra hnot
    push Not at hnot
    have hzero : 0 = nodeId := h.currentLeaderId.mp (hleader.mpr (Or.inr hnot.2))
    exact hnot.1 hzero.symm
  · intro h
    have hrole : (nodeId = 0 ∨ peers = []) ↔ nodeId = 0 := by
      constructor
      · rintro (hzero | hnil)
        · exact hzero
        · exact h.resolve_right (not_not.mpr hnil)
      · exact Or.inl
    refine ⟨?_, (hleader.trans hrole).trans eq_comm, ?_⟩
    · unfold RaftLeadershipState.new
      cases (nodeId == 0 || peers.isEmpty)
      · exact iff_of_false Bool.false_ne_true (fun hstate ↦ by nomatch hstate)
      · exact iff_of_true rfl rfl
    · unfold RaftLeadershipState.new
      intro hleads
      exact if_pos hleads

/-- Storing the role alone keeps the state consistent exactly when it is the role of the node. -/
theorem consistent_write_isLeader_iff (h : state.Consistent nodeId selfPort) (value : Bool) :
    ({ state with isLeader := value } : RaftLeadershipState).Consistent nodeId selfPort ↔
      value = state.isLeader := by
  constructor
  · intro h'
    have hsame : value = true ↔ state.isLeader = true := h'.currentState.trans h.currentState.symm
    exact Bool.eq_iff_iff.mpr hsame
  · rintro rfl
    exact h

/-- A store keeps the state consistent exactly when it goes with the role of the node. -/
theorem consistent_write_iff (h : state.Consistent nodeId selfPort) (now : ℕ)
    (store : LeadershipStore) :
    (state.write now store).Consistent nodeId selfPort ↔ store.Fits nodeId selfPort state := by
  cases store with
  | isLeader value => exact consistent_write_isLeader_iff h value
  | currentState value =>
    exact ⟨fun h' ↦ h'.currentState, fun hfits ↦ ⟨hfits, h.currentLeaderId, h.leaderPort⟩⟩
  | currentLeaderId value =>
    exact ⟨fun h' ↦ h'.currentLeaderId, fun hfits ↦ ⟨h.currentState, hfits, h.leaderPort⟩⟩
  | leaderPort value =>
    exact ⟨fun h' ↦ h'.leaderPort, fun hfits ↦ ⟨h.currentState, h.currentLeaderId, hfits⟩⟩
  | lastHeartbeat =>
    exact ⟨fun _ ↦ trivial, fun _ ↦ ⟨h.currentState, h.currentLeaderId, h.leaderPort⟩⟩

theorem consistent_updateHeartbeat (h : state.Consistent nodeId selfPort) (now : ℕ) :
    (state.updateHeartbeat now).Consistent nodeId selfPort :=
  ⟨h.currentState, h.currentLeaderId, h.leaderPort⟩

/-- A call that goes on keeps the state consistent exactly when what it stores, if it stores
something, goes with the role. -/
theorem consistent_advance_iff (h : state.Consistent nodeId selfPort) (now : ℕ)
    (progress : CallProgress) :
    (progress.advance state now).1.Consistent nodeId selfPort ↔
      progress.Fits nodeId selfPort state := by
  cases progress with
  | storing store rest =>
    cases rest with
    | nil => exact consistent_write_iff h now store
    | cons next rest => exact consistent_write_iff h now store
  | noting body =>
    cases body with
    | none => exact iff_of_true (consistent_updateHeartbeat h now) trivial
    | some leader => exact iff_of_true (consistent_updateHeartbeat h now) trivial
  | readingRole leaderId leaderPort => exact iff_of_true h trivial
  | readingLeader leaderId leaderPort => exact iff_of_true h trivial

theorem consistent_becomeLeader (now : ℕ) :
    (RaftLeadershipState.becomeLeader nodeId selfPort now).Consistent nodeId selfPort :=
  ⟨iff_of_true rfl rfl, iff_of_true rfl rfl, fun _ ↦ rfl⟩

theorem consistent_becomeFollower_iff {leaderId : ℕ} (leaderPort now : ℕ) :
    (RaftLeadershipState.becomeFollower leaderId leaderPort now).Consistent nodeId selfPort ↔
      leaderId ≠ nodeId := by
  constructor
  · intro h hself
    exact Bool.false_ne_true (h.currentLeaderId.mpr hself)
  · intro hother
    refine ⟨?_, iff_of_false Bool.false_ne_true hother, fun hleads ↦ Bool.noConfusion hleads⟩
    exact iff_of_false Bool.false_ne_true fun hstate ↦ by nomatch hstate

/-- A whole call keeps the state consistent exactly when it fits. -/
theorem consistent_perform_iff (h : state.Consistent nodeId selfPort) (now : ℕ)
    (call : LeadershipCall) :
    (state.perform nodeId selfPort now call).Consistent nodeId selfPort ↔
      call.Fits nodeId state := by
  cases call with
  | becomeLeader => exact iff_of_true (consistent_becomeLeader now) trivial
  | becomeFollower leaderId leaderPort => exact consistent_becomeFollower_iff leaderPort now
  | startElection =>
    have hrole : (state.write now (.currentState .candidate)).Consistent nodeId selfPort ↔ _ :=
      consistent_write_iff h now _
    refine hrole.trans ?_
    show (state.isLeader = true ↔ RaftNodeState.candidate = .leader) ↔ state.isLeader = false
    rw [← Bool.not_eq_true]
    exact iff_false_right fun hstate ↦ by nomatch hstate
  | heartbeat body =>
    cases body with
    | none => exact iff_of_true (consistent_updateHeartbeat h now) trivial
    | some leader =>
      obtain ⟨leaderId, leaderPort⟩ := leader
      show (if _ then _ else _ : RaftLeadershipState).Consistent _ _ ↔ (_ → _)
      split_ifs with hfollows
      · rw [Bool.and_eq_true, Bool.not_eq_true'] at hfollows
        rw [consistent_becomeFollower_iff]
        exact (imp_iff_right hfollows.1).symm
      · refine iff_of_true (consistent_updateHeartbeat h now) fun hrole hself ↦ hfollows ?_
        -- a node that does not lead does not follow itself either
        have hother : state.currentLeaderId ≠ nodeId := by
          intro hsame
          rw [h.currentLeaderId.mpr hsame] at hrole
          exact Bool.noConfusion hrole
        rw [hrole, hself, Bool.not_false, Bool.true_and, bne_iff_ne]
        exact hother.symm

end Steps

/-! ### What runs keep -/

namespace LeadershipNode

variable {nodeId selfPort : ℕ}

theorem step_advance {s next : LeadershipNode} {c now : ℕ}
    (h : step nodeId selfPort s (.advance c now) = some next) :
    ∃ progress, s.calls c = some progress ∧ next.state = (progress.advance s.state now).1 := by
  obtain ⟨progress, hprogress, rfl⟩ := Option.map_eq_some_iff.mp h
  exact ⟨progress, hprogress, rfl⟩

theorem step_call {s next : LeadershipNode} {c : ℕ} {call : LeadershipCall}
    (h : step nodeId selfPort s (.call c call) = some next) : next.state = s.state := by
  simp only [step, Option.ite_none_right_eq_some, Option.some.injEq] at h
  obtain ⟨-, rfl⟩ := h
  rfl

theorem consistent_step (s : LeadershipNode) (action : NodeAction) (next : LeadershipNode)
    (h : s.state.Consistent nodeId selfPort)
    (hnext : step nodeId selfPort s action = some next) :
    next.state.Consistent nodeId selfPort ↔ s.Fits nodeId selfPort action := by
  cases action with
  | call c call =>
    rw [step_call hnext]
    exact iff_of_true h trivial
  | advance c now =>
    obtain ⟨progress, hprogress, hstate⟩ := step_advance hnext
    rw [hstate, consistent_advance_iff h]
    constructor
    · intro hfits other hother
      rw [hprogress, Option.some.injEq] at hother
      exact hother ▸ hfits
    · exact fun hfits ↦ hfits progress hprogress

/-- A call that is alone goes on. -/
theorem exec_advance {state next : RaftLeadershipState} {progress : CallProgress}
    {progress' : Option CallProgress} {now : ℕ}
    (h : progress.advance state now = (next, progress')) (c k : ℕ) :
    exec (step nodeId selfPort) ⟨state, Function.update (fun _ ↦ none) c (some progress)⟩
        (List.replicate (k + 1) (.advance c now)) =
      exec (step nodeId selfPort) ⟨next, Function.update (fun _ ↦ none) c progress'⟩
        (List.replicate k (.advance c now)) := by
  simp [List.replicate_succ, step, h]

theorem exec_storing (state : RaftLeadershipState) (c now : ℕ) (store : LeadershipStore)
    (rest : List LeadershipStore) :
    exec (step nodeId selfPort)
        ⟨state, Function.update (fun _ ↦ none) c (some (.storing store rest))⟩
        (List.replicate (rest.length + 1) (.advance c now)) =
      some ⟨(store :: rest).foldl (fun state store ↦ state.write now store) state,
        fun _ ↦ none⟩ := by
  induction rest generalizing state store with
  | nil =>
    rw [List.length_nil, exec_advance rfl]
    simp
  | cons next rest ih =>
    rw [List.length_cons, exec_advance rfl]
    exact ih (state.write now store) next

/-- A heartbeat that no other call comes between. -/
theorem exec_noting (state : RaftLeadershipState) (c now leaderId leaderPort : ℕ) :
    ∃ k, exec (step nodeId selfPort)
        ⟨state, Function.update (fun _ ↦ none) c (some (.noting (some (leaderId, leaderPort))))⟩
        (List.replicate k (.advance c now)) =
      some ⟨state.perform nodeId selfPort now (.heartbeat (some (leaderId, leaderPort))),
        fun _ ↦ none⟩ := by
  cases hrole : state.isLeader with
  | true =>
    have hread : CallProgress.advance (state.updateHeartbeat now) now
        (.readingRole leaderId leaderPort) = (state.updateHeartbeat now, none) := by
      simp [CallProgress.advance, RaftLeadershipState.updateHeartbeat, hrole]
    refine ⟨2, ?_⟩
    rw [exec_advance rfl, exec_advance hread]
    simp [RaftLeadershipState.perform, hrole]
  | false =>
    have hread : CallProgress.advance (state.updateHeartbeat now) now
        (.readingRole leaderId leaderPort) =
          (state.updateHeartbeat now, some (.readingLeader leaderId leaderPort)) := by
      simp [CallProgress.advance, RaftLeadershipState.updateHeartbeat, hrole]
    by_cases hknown : leaderId = state.currentLeaderId
    · have hover : CallProgress.advance (state.updateHeartbeat now) now
          (.readingLeader leaderId leaderPort) = (state.updateHeartbeat now, none) := by
        simp [CallProgress.advance, RaftLeadershipState.updateHeartbeat, hknown]
      refine ⟨3, ?_⟩
      rw [exec_advance rfl, exec_advance hread, exec_advance hover]
      simp [RaftLeadershipState.perform, hknown]
    · have hfollows : CallProgress.advance (state.updateHeartbeat now) now
          (.readingLeader leaderId leaderPort) =
            (state.updateHeartbeat now, some (becomeFollowerStores leaderId leaderPort)) := by
        simp [CallProgress.advance, RaftLeadershipState.updateHeartbeat, hknown]
      refine ⟨8, ?_⟩
      rw [exec_advance rfl, exec_advance hread, exec_advance hfollows]
      refine (exec_storing _ c now _ _).trans ?_
      simp [RaftLeadershipState.perform, hrole, hknown, RaftLeadershipState.write,
        RaftLeadershipState.updateHeartbeat, RaftLeadershipState.becomeFollower]

/-- A call that no other comes between ends in what `perform` says. -/
theorem exec_call_alone (state : RaftLeadershipState) (c now : ℕ) (call : LeadershipCall) :
    ∃ k, exec (step nodeId selfPort) ⟨state, fun _ ↦ none⟩
        (.call c call :: List.replicate k (.advance c now)) =
      some ⟨state.perform nodeId selfPort now call, fun _ ↦ none⟩ := by
  have hbegin : step nodeId selfPort ⟨state, fun _ ↦ none⟩ (.call c call) =
      some ⟨state, Function.update (fun _ ↦ none) c (some (call.begin nodeId selfPort))⟩ := by
    simp [step]
  simp only [exec_cons, hbegin, Option.bind_some]
  cases call with
  | becomeLeader => exact ⟨5, exec_storing state c now _ _⟩
  | becomeFollower leaderId leaderPort => exact ⟨5, exec_storing state c now _ _⟩
  | startElection => exact ⟨1, exec_storing state c now _ _⟩
  | heartbeat body =>
    cases body with
    | none =>
      refine ⟨1, ?_⟩
      rw [LeadershipCall.begin, exec_advance rfl]
      simp [RaftLeadershipState.perform]
    | some leader => exact exec_noting state c now leader.1 leader.2

variable (nodeId selfPort)

/-- In which runs the four places agree in all states: as seen between any two stores, and as seen
between whole calls. -/
theorem consistent_iff {ι : Type*} (peers : List (Peer ι)) (now : ℕ) :
    (∀ actions : List NodeAction,
      Always (step nodeId selfPort) (fun s ↦ s.state.Consistent nodeId selfPort)
          (start nodeId selfPort peers now) actions ↔
        (nodeId = 0 ∨ peers ≠ []) ∧
          EachStep (step nodeId selfPort) (Fits nodeId selfPort)
            (start nodeId selfPort peers now) actions) ∧
    ∀ calls : List (LeadershipCall × ℕ),
      Always (callStep nodeId selfPort) (RaftLeadershipState.Consistent nodeId selfPort)
          (.new nodeId selfPort peers now) calls ↔
        (nodeId = 0 ∨ peers ≠ []) ∧
          EachStep (callStep nodeId selfPort) (fun state call ↦ call.1.Fits nodeId state)
            (.new nodeId selfPort peers now) calls := by
  refine ⟨fun actions ↦ ?_, fun calls ↦ ?_⟩
  · rw [always_iff_and_eachStep consistent_step]
    exact and_congr_left fun _ ↦ consistent_new_iff now
  · rw [always_iff_and_eachStep (C := fun state call ↦ call.1.Fits nodeId state)
      fun state call next h hnext ↦ ?_, consistent_new_iff]
    obtain rfl := Option.some.inj hnext
    exact consistent_perform_iff h call.2 call.1

/-- A node that wins an election while it handles a heartbeat of a third one. -/
def electionDuringHeartbeat : List NodeAction :=
  [.call 0 .becomeLeader, .call 1 (.heartbeat (some (2, 8082))), .advance 1 10, .advance 1 10,
    .advance 1 10, .advance 1 10, .advance 0 10, .advance 0 10, .advance 1 10, .advance 0 10,
    .advance 0 10, .advance 0 10, .advance 1 10, .advance 1 10, .advance 1 10]

/-- A node that is alone with the id 5 leads, and takes the node with the id 0 for the leader. A
heartbeat that names a waiting node itself makes it follow itself. And a node may lead as a follower
when an election and a heartbeat are both over. -/
theorem roles_disagree :
    ¬ (RaftLeadershipState.new 5 8080 ([] : List (Peer Unit)) 0).Consistent 5 8080 ∧
    ¬ ((RaftLeadershipState.new 1 8081 [Peer.mk () (some 8080)] 0).perform 1 8081 10
      (.heartbeat (some (1, 8081)))).Consistent 1 8081 ∧
    ∃ final, exec (step 1 8081) (start 1 8081 [Peer.mk () (some 8080)] 0)
        electionDuringHeartbeat = some final ∧
      final.calls 0 = none ∧ final.calls 1 = none ∧
      ¬ Always (step 1 8081) (fun s ↦ s.state.Consistent 1 8081)
        (start 1 8081 [Peer.mk () (some 8080)] 0) electionDuringHeartbeat := by
  refine ⟨fun h ↦ ?_, fun h ↦ ?_, _, rfl, rfl, rfl, fun h ↦ ?_⟩
  · nomatch h.currentLeaderId.mp rfl
  · exact Bool.false_ne_true (h.currentLeaderId.mpr rfl)
  · have hfinal := h.exec rfl
    nomatch hfinal.currentState.mp rfl

end LeadershipNode

end Lithair.Cluster
