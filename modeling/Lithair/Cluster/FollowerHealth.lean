import Lithair.Cluster.ConsensusLog
import Lithair.Lib.Run

/-!
# The health of followers

`FollowerState` and `ReplicationBatcher` of `cluster/replication_batcher.rs`, for any number of
calls at once: `record_success` and `record_failure`, which write the fields of a follower one after
the other, and `mark_follower_desynced`. Incremental replication leaves out a follower whose health
is `Desynced`, and `get_desynced_followers` names the followers to resync.

A failure that was counted as the first or second writes `Lagging` whatever the health is by then,
so it takes back a mark. `needs_resync` compares the gap with 1000, not with the configured one.
`staysDesynced_and_reportsGap_iff` says for which configurations and runs that does no harm.
-/

namespace Lithair.Cluster

open Lithair.Lib.Run

inductive FollowerHealth
  | healthy
  | lagging
  | desynced
  | unknown
  deriving DecidableEq

/-- What the leader knows of a follower. Times are in milliseconds. -/
structure FollowerState (Op : Type*) where
  lastReplicatedIndex : ℕ
  lastResponse : ℕ
  lastLatencyMs : ℕ
  health : FollowerHealth
  pendingEntries : List (LogEntry Op)
  consecutiveFailures : ℕ

/-- How far a call of `record_success` or `record_failure` has come: what it writes next. -/
inductive RecordStage
  | storeIndex (replicatedIndex latencyMs : ℕ)
  | storeLatency (replicatedIndex latencyMs : ℕ)
  | resetFailures (replicatedIndex latencyMs : ℕ)
  | storeResponse (replicatedIndex latencyMs : ℕ)
  | setHealth (replicatedIndex latencyMs : ℕ)
  | clearPending (replicatedIndex : ℕ)
  | countFailure
  | setFailed (failures : ℕ)

namespace FollowerState

variable {Op : Type*}

def new (now : ℕ) : FollowerState Op where
  lastReplicatedIndex := 0
  lastResponse := now
  lastLatencyMs := 0
  health := .unknown
  pendingEntries := []
  consecutiveFailures := 0

/-- One write of a call, and what it writes next. -/
def advance (follower : FollowerState Op) (now : ℕ) :
    RecordStage → FollowerState Op × Option RecordStage
  | .storeIndex index latency =>
    ({ follower with lastReplicatedIndex := index }, some (.storeLatency index latency))
  | .storeLatency index latency =>
    ({ follower with lastLatencyMs := latency }, some (.resetFailures index latency))
  | .resetFailures index latency =>
    ({ follower with consecutiveFailures := 0 }, some (.storeResponse index latency))
  | .storeResponse index latency =>
    ({ follower with lastResponse := now }, some (.setHealth index latency))
  | .setHealth index latency =>
    ({ follower with health := if latency < 500 then .healthy else .lagging },
      some (.clearPending index))
  | .clearPending index =>
    ({ follower with
      pendingEntries := follower.pendingEntries.filter fun e ↦ index < e.index }, none)
  | .countFailure =>
    let failures := follower.consecutiveFailures + 1
    ({ follower with consecutiveFailures := failures }, some (.setFailed failures))
  | .setFailed failures =>
    ({ follower with health := if 3 ≤ failures then .desynced else .lagging }, none)

def needsResync (follower : FollowerState Op) (leaderCommitIndex now : ℕ) : Bool :=
  if follower.health = .desynced then true
  else if follower.lastReplicatedIndex < leaderCommitIndex ∧
      1000 < leaderCommitIndex - follower.lastReplicatedIndex then true
  else !follower.pendingEntries.isEmpty && decide (30000 < now - follower.lastResponse)

end FollowerState

/-- The configuration, of which only the gap is meant to matter for the health. -/
structure BatcherConfig where
  desyncIndexGap : ℕ

def BatcherConfig.default : BatcherConfig := ⟨1000⟩

/-- The followers by address, the calls that are on their way, and, of each follower, whether it was
marked as desynced since the last success was recorded for it. -/
structure ReplicationBatcher (Op : Type*) where
  followers : String → Option (FollowerState Op)
  calls : ℕ → Option (String × RecordStage)
  marked : String → Bool

/-- A call of `record_success` or of `record_failure` begins or goes on, a follower is marked by
hand, an entry is queued for a lagging follower, or its entries are taken. -/
inductive BatcherAction (Op : Type*)
  | recordSuccess (c : ℕ) (address : String) (replicatedIndex latencyMs : ℕ)
  | recordFailure (c : ℕ) (address : String)
  | advance (c now : ℕ)
  | markFollowerDesynced (address : String)
  | queueEntry (address : String) (entry : LogEntry Op)
  | takePending (address : String)

/-- Whether the write marks the follower as desynced, or ends such a mark. -/
def RecordStage.marks : RecordStage → Bool → Bool
  | .setHealth _ _, _ => false
  | .setFailed failures, marked => if 3 ≤ failures then true else marked
  | _, marked => marked

namespace ReplicationBatcher

variable {Op : Type*}

/-- A batcher for the peers. -/
def initialized (peers : List String) (now : ℕ) : ReplicationBatcher Op where
  followers := fun address ↦ if address ∈ peers then some (.new now) else none
  calls := fun _ ↦ none
  marked := fun _ ↦ false

def setFollower (s : ReplicationBatcher Op) (address : String) (follower : FollowerState Op) :
    ReplicationBatcher Op :=
  { s with followers := Function.update s.followers address (some follower) }

/-- A call begins, if there is such a follower. -/
def begin (s : ReplicationBatcher Op) (c : ℕ) (address : String) (stage : RecordStage) :
    Option (ReplicationBatcher Op) :=
  if (s.calls c).isNone ∧ (s.followers address).isSome then
    some { s with calls := Function.update s.calls c (some (address, stage)) }
  else none

def step (s : ReplicationBatcher Op) : BatcherAction Op → Option (ReplicationBatcher Op)
  | .recordSuccess c address index latency => s.begin c address (.storeIndex index latency)
  | .recordFailure c address => s.begin c address .countFailure
  | .advance c now =>
    match s.calls c with
    | some (address, stage) =>
      (s.followers address).map fun follower ↦
        let (follower, stage') := follower.advance now stage
        { s.setFollower address follower with
          calls := Function.update s.calls c (stage'.map fun stage' ↦ (address, stage'))
          marked := Function.update s.marked address (stage.marks (s.marked address)) }
    | none => none
  | .markFollowerDesynced address =>
    (s.followers address).map fun follower ↦
      { s.setFollower address { follower with health := .desynced } with
        marked := Function.update s.marked address true }
  | .queueEntry address entry =>
    match s.followers address with
    | some follower =>
      if follower.health = .lagging then
        some (s.setFollower address { follower with
          pendingEntries := follower.pendingEntries ++ [entry] })
      else none
    | none => none
  | .takePending address =>
    match s.followers address with
    | some follower =>
      if follower.health = .lagging then
        some (s.setFollower address { follower with pendingEntries := [] })
      else none
    | none => none

/-- The followers to resync, in the order in which the map goes through its keys. -/
def getDesyncedFollowers (s : ReplicationBatcher Op) (order : List String)
    (leaderCommitIndex now : ℕ) : List String :=
  order.filter fun address ↦
    (s.followers address).any fun follower ↦ follower.needsResync leaderCommitIndex now

/-! ### What is meant to hold -/

/-- A follower that was marked is desynced until a success is recorded for it. -/
def StaysDesynced (s : ReplicationBatcher Op) : Prop :=
  ∀ address follower, s.followers address = some follower → s.marked address = true →
    follower.health = .desynced

/-- A follower that is further behind than configured is named, at any time. -/
def ReportsGap (config : BatcherConfig) (s : ReplicationBatcher Op) : Prop :=
  ∀ order address follower leaderCommitIndex now, address ∈ order →
    s.followers address = some follower →
    config.desyncIndexGap < leaderCommitIndex - follower.lastReplicatedIndex →
      address ∈ s.getDesyncedFollowers order leaderCommitIndex now

/-- A failure that was counted as the first or the second does not find a desynced follower when it
comes to write the health. -/
def FailsInTime (s : ReplicationBatcher Op) : BatcherAction Op → Prop
  | .advance c _ => ∀ address failures follower, s.calls c = some (address, .setFailed failures) →
      failures < 3 → s.followers address = some follower → follower.health ≠ .desynced
  | _ => True

/-- Only followers that were marked are desynced. -/
def DesyncedMarked (s : ReplicationBatcher Op) : Prop :=
  ∀ address follower, s.followers address = some follower → follower.health = .desynced →
    s.marked address = true

/-! ### One write -/

section Write

variable {follower : FollowerState Op} {stage : RecordStage} {marked : Bool}

theorem marks_of_desynced (now : ℕ) (h : follower.health = .desynced → marked = true)
    (hnext : (follower.advance now stage).1.health = .desynced) : stage.marks marked = true := by
  cases stage with
  | setHealth index latency =>
    simp only [FollowerState.advance] at hnext
    split_ifs at hnext
  | setFailed failures =>
    simp only [FollowerState.advance] at hnext
    simp only [RecordStage.marks]
    split_ifs at hnext ⊢
    rfl
  | storeIndex | storeLatency | resetFailures | storeResponse | clearPending | countFailure =>
    exact h hnext

/-- A write keeps a marked follower desynced unless it is that of a first or second failure. -/
theorem desynced_of_marks_iff (now : ℕ) (h : marked = true ↔ follower.health = .desynced) :
    (stage.marks marked = true → (follower.advance now stage).1.health = .desynced) ↔
      ∀ failures, stage = .setFailed failures → failures < 3 → follower.health ≠ .desynced := by
  cases stage with
  | setFailed failures =>
    simp only [RecordStage.marks, FollowerState.advance, RecordStage.setFailed.injEq]
    split_ifs with hfailures
    · exact iff_of_true (fun _ ↦ rfl) fun _ heq hlt ↦ absurd hlt (heq ▸ not_lt.mpr hfailures)
    · simp only [imp_false, forall_eq', not_le.mp hfailures, h, ne_eq, true_implies]
  | setHealth index latency =>
    exact iff_of_true (fun hfalse ↦ absurd hfalse Bool.false_ne_true) (by simp)
  | storeIndex | storeLatency | resetFailures | storeResponse | clearPending | countFailure =>
    exact iff_of_true h.mp (by simp)

end Write

/-! ### One step -/

section Step

variable {s next : ReplicationBatcher Op} {a : BatcherAction Op}

/-- What becomes of the health of a follower and of its mark in a step that changes the follower. -/
inductive Change (s : ReplicationBatcher Op) (address : String) (old : FollowerState Op) :
    BatcherAction Op → FollowerState Op → Bool → Prop
  | pending {a : BatcherAction Op} {new : FollowerState Op} (ha : ∀ c now, a ≠ .advance c now)
      (hhealth : new.health = old.health) : Change s address old a new (s.marked address)
  | marked {new : FollowerState Op} (hhealth : new.health = .desynced) :
      Change s address old (.markFollowerDesynced address) new true
  | written {c now : ℕ} {stage : RecordStage} (hcall : s.calls c = some (address, stage)) :
      Change s address old (.advance c now) (old.advance now stage).1
        (stage.marks (s.marked address))

/-- A step begins a call, or changes one follower. -/
theorem step_change (h : step s a = some next) :
    (next.followers = s.followers ∧ next.marked = s.marked ∧ ∀ c now, a ≠ .advance c now) ∨
      ∃ address old new marked, s.followers address = some old ∧
        next.followers = Function.update s.followers address (some new) ∧
        next.marked = Function.update s.marked address marked ∧
        Change s address old a new marked := by
  have hbegin : ∀ c address stage, s.begin c address stage = some next →
      next.followers = s.followers ∧ next.marked = s.marked := by
    intro c address stage hbegin
    unfold begin at hbegin
    split_ifs at hbegin
    obtain rfl := Option.some.inj hbegin
    exact ⟨rfl, rfl⟩
  cases a with
  | recordSuccess c address index latency =>
    obtain ⟨hfollowers, hmarked⟩ := hbegin c address _ h
    exact Or.inl ⟨hfollowers, hmarked, by simp⟩
  | recordFailure c address =>
    obtain ⟨hfollowers, hmarked⟩ := hbegin c address _ h
    exact Or.inl ⟨hfollowers, hmarked, by simp⟩
  | advance c now =>
    simp only [step] at h
    split at h
    · next address stage hcall =>
      obtain ⟨old, hold, rfl⟩ := Option.map_eq_some_iff.mp h
      exact Or.inr ⟨address, old, _, _, hold, rfl, rfl, .written hcall⟩
    · exact absurd h (by simp)
  | markFollowerDesynced address =>
    obtain ⟨old, hold, rfl⟩ := Option.map_eq_some_iff.mp h
    exact Or.inr ⟨address, old, _, _, hold, rfl, rfl, .marked rfl⟩
  | queueEntry address entry | takePending address =>
    simp only [step] at h
    split at h
    · next old hold =>
      split_ifs at h
      obtain rfl := Option.some.inj h
      exact Or.inr ⟨address, old, _, _, hold, rfl, (Function.update_eq_self _ _).symm,
        .pending (by simp) rfl⟩
    · exact absurd h (by simp)

/-- A property of every follower and its mark, after one of them was changed. -/
theorem forall_change_iff {R : Bool → FollowerState Op → Prop} {address : String}
    {new : FollowerState Op} {marked : Bool}
    (hfollowers : next.followers = Function.update s.followers address (some new))
    (hmarked : next.marked = Function.update s.marked address marked)
    (h : ∀ other follower, s.followers other = some follower → R (s.marked other) follower) :
    (∀ other follower, next.followers other = some follower → R (next.marked other) follower) ↔
      R marked new := by
  rw [hfollowers, hmarked]
  constructor
  · intro hall
    have hnew := hall address new (Function.update_self _ _ _)
    rwa [Function.update_self] at hnew
  · intro hnew other follower hother
    rcases update_eq_some_iff.mp hother with ⟨rfl, heq⟩ | ⟨hne, hold⟩
    · rw [Function.update_self, ← Option.some.inj heq]
      exact hnew
    · rw [Function.update_of_ne hne]
      exact h other follower hold

theorem kept_desyncedMarked : Kept step (DesyncedMarked : ReplicationBatcher Op → Prop) := by
  intro s a next h hnext
  rcases step_change hnext with ⟨hfollowers, hmarked, -⟩ |
    ⟨address, old, new, marked, hold, hfollowers, hmarked, hchange⟩
  · unfold DesyncedMarked
    rw [hfollowers, hmarked]
    exact h
  · refine (forall_change_iff (R := fun marked follower ↦
      follower.health = .desynced → marked = true) hfollowers hmarked h).mpr ?_
    cases hchange with
    | pending ha hhealth => exact fun hnew ↦ h address old hold (hhealth ▸ hnew)
    | marked hhealth => exact fun _ ↦ rfl
    | written hcall => exact marks_of_desynced _ (h address old hold)

theorem staysDesynced_step_iff (hmarks : DesyncedMarked s) (h : StaysDesynced s)
    (hnext : step s a = some next) : StaysDesynced next ↔ FailsInTime s a := by
  have hother : (∀ c now, a ≠ .advance c now) → FailsInTime s a := by
    intro ha
    cases a with
    | advance c now => exact absurd rfl (ha c now)
    | _ => exact True.intro
  rcases step_change hnext with ⟨hfollowers, hmarked, ha⟩ |
    ⟨address, old, new, marked, hold, hfollowers, hmarked, hchange⟩
  · refine iff_of_true ?_ (hother ha)
    unfold StaysDesynced
    rw [hfollowers, hmarked]
    exact h
  · refine (forall_change_iff (R := fun marked follower ↦
      marked = true → follower.health = .desynced) hfollowers hmarked h).trans ?_
    cases hchange with
    | pending ha hhealth =>
      exact iff_of_true (fun hnew ↦ hhealth.trans (h address old hold hnew)) (hother ha)
    | marked hhealth => exact iff_of_true (fun _ ↦ hhealth) True.intro
    | @written c now stage hcall =>
      rw [desynced_of_marks_iff now ⟨h address old hold, hmarks address old hold⟩]
      constructor
      · rintro hstage other failures follower hother hlt hfollower
        rw [hcall, Option.some.injEq, Prod.mk.injEq] at hother
        obtain ⟨rfl, rfl⟩ := hother
        rw [hold, Option.some.injEq] at hfollower
        exact hfollower ▸ hstage failures rfl hlt
      · rintro hfails failures rfl hlt
        exact hfails address failures old hcall hlt hold

end Step

/-! ### Followers that are far behind -/

section Gap

variable {s : ReplicationBatcher Op} {config : BatcherConfig}

theorem mem_getDesyncedFollowers {order : List String} {address : String}
    {leaderCommitIndex now : ℕ} :
    address ∈ s.getDesyncedFollowers order leaderCommitIndex now ↔
      address ∈ order ∧ ∃ follower, s.followers address = some follower ∧
        follower.needsResync leaderCommitIndex now = true := by
  rw [getDesyncedFollowers, List.mem_filter, Option.any_eq_true]

theorem reportsGap_of_le (h : 1000 ≤ config.desyncIndexGap) : s.ReportsGap config := by
  intro order address follower leaderCommitIndex now horder hfollower hgap
  refine mem_getDesyncedFollowers.mpr ⟨horder, follower, hfollower, ?_⟩
  unfold FollowerState.needsResync
  split_ifs with hhealth hbehind
  · rfl
  · rfl
  · exact absurd ⟨by omega, by omega⟩ hbehind

/-- A new follower is not named while the gap is at most 1000. -/
theorem not_reportsGap_initialized {peers : List String} {address : String}
    (haddress : address ∈ peers) (h : config.desyncIndexGap < 1000) (now : ℕ) :
    ¬ ReportsGap config (initialized peers now : ReplicationBatcher Op) := by
  intro hreports
  have hnew : (initialized peers now : ReplicationBatcher Op).followers address =
      some (.new now) := if_pos haddress
  have hnamed := hreports [address] address (.new now) (config.desyncIndexGap + 1) now
    List.mem_cons_self hnew (by simp [FollowerState.new])
  obtain ⟨-, follower, hfollower, hneeds⟩ := mem_getDesyncedFollowers.mp hnamed
  obtain rfl := Option.some.inj (hnew.symm.trans hfollower)
  have hbehind : ¬ 1000 < config.desyncIndexGap + 1 := by omega
  simp [FollowerState.needsResync, FollowerState.new, hbehind] at hneeds

/-- Without peers there are no followers. -/
def NoFollowers (s : ReplicationBatcher Op) : Prop := ∀ address, s.followers address = none

theorem kept_noFollowers : Kept step (NoFollowers : ReplicationBatcher Op → Prop) := by
  intro s a next h hnext
  rcases step_change hnext with ⟨hfollowers, -, -⟩ | ⟨address, old, _, _, hold, -, -, -⟩
  · intro address
    rw [hfollowers]
    exact h address
  · exact absurd ((h address).symm.trans hold) (Option.some_ne_none old).symm

end Gap

end ReplicationBatcher

/-! ### Every run -/

/-- In every state of a run marked followers stay desynced until a success, and those further behind
than configured are named, exactly when the configured gap is at least 1000 and no first or second
failure writes the health of a desynced follower. -/
theorem staysDesynced_and_reportsGap_iff {Op : Type*} (config : BatcherConfig)
    (peers : List String) (now : ℕ) (actions : List (BatcherAction Op)) :
    Always ReplicationBatcher.step (fun s ↦ s.StaysDesynced ∧ s.ReportsGap config)
        (.initialized peers now) actions ↔
      (peers = [] ∨ 1000 ≤ config.desyncIndexGap) ∧
        EachStep ReplicationBatcher.step ReplicationBatcher.FailsInTime (.initialized peers now)
          actions := by
  have hmarked : ∀ address,
      (ReplicationBatcher.initialized peers now : ReplicationBatcher Op).marked address = false :=
    fun _ ↦ rfl
  have hnew : ∀ address follower,
      (ReplicationBatcher.initialized peers now : ReplicationBatcher Op).followers address =
        some follower → follower.health = .unknown := by
    intro address follower hfollower
    simp only [ReplicationBatcher.initialized] at hfollower
    split_ifs at hfollower
    rw [← Option.some.inj hfollower]
    rfl
  have hstays : Always ReplicationBatcher.step ReplicationBatcher.StaysDesynced
        (.initialized peers now) actions ↔
      EachStep ReplicationBatcher.step ReplicationBatcher.FailsInTime (.initialized peers now)
        actions := by
    refine always_iff_eachStep ReplicationBatcher.kept_desyncedMarked
      (fun _ _ _ hmarks hs hnext ↦ ReplicationBatcher.staysDesynced_step_iff hmarks hs hnext)
      (fun address follower hfollower hhealth ↦ ?_) (fun address follower _ hmark ↦ ?_) actions
    · rw [hnew address follower hfollower] at hhealth
      exact absurd hhealth (by decide)
    · exact absurd hmark (by rw [hmarked]; decide)
  rw [← hstays]
  constructor
  · intro h
    refine ⟨?_, h.mono fun _ hs ↦ hs.1⟩
    by_contra hgap
    push Not at hgap
    obtain ⟨address, haddress⟩ := List.exists_mem_of_ne_nil peers hgap.1
    exact ReplicationBatcher.not_reportsGap_initialized haddress hgap.2 now h.head.2
  · rintro ⟨rfl | hgap, h⟩
    · have hnone : Always ReplicationBatcher.step ReplicationBatcher.NoFollowers
          (.initialized [] now : ReplicationBatcher Op) actions :=
        ReplicationBatcher.kept_noFollowers.always
          (by simp [ReplicationBatcher.NoFollowers, ReplicationBatcher.initialized]) actions
      refine hnone.mono fun s hs ↦ ⟨fun address follower hfollower ↦ ?_,
        fun _ address follower _ _ _ hfollower ↦ ?_⟩
      · exact absurd (hfollower.symm.trans (hs address)) (Option.some_ne_none follower)
      · exact absurd (hfollower.symm.trans (hs address)) (Option.some_ne_none follower)
    · exact h.mono fun _ hs ↦ ⟨hs, ReplicationBatcher.reportsGap_of_le hgap⟩

/-- A follower is marked by hand, and then a failure is recorded for it. -/
theorem failure_takes_mark_back :
    ¬ Always ReplicationBatcher.step
      (fun s : ReplicationBatcher Unit ↦ s.StaysDesynced ∧ s.ReportsGap .default)
      (.initialized ["10.0.0.2:8080"] 0)
      [.markFollowerDesynced "10.0.0.2:8080", .recordFailure 0 "10.0.0.2:8080", .advance 0 0,
        .advance 0 0] := by
  intro h
  obtain ⟨s, hexec, hfollower, hmark⟩ : ∃ s, exec ReplicationBatcher.step
      (.initialized ["10.0.0.2:8080"] 0 : ReplicationBatcher Unit)
      [.markFollowerDesynced "10.0.0.2:8080", .recordFailure 0 "10.0.0.2:8080", .advance 0 0,
        .advance 0 0] = some s ∧
      (s.followers "10.0.0.2:8080").map FollowerState.health = some .lagging ∧
      s.marked "10.0.0.2:8080" = true := ⟨_, rfl, rfl, rfl⟩
  obtain ⟨follower, hsome, hhealth⟩ := Option.map_eq_some_iff.mp hfollower
  have hdesynced := (h.exec hexec).1 _ follower hsome hmark
  rw [hhealth] at hdesynced
  exact absurd hdesynced (by decide)

end Lithair.Cluster
