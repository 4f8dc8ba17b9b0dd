import Lithair.App.AppendHandler
import Lithair.App.WritePath
import Mathlib.Data.Fintype.Card

/-!
# The cluster: one leader and its followers

The leader of `WritePath` with `n` followers of `AppendHandler` and the requests sent between them.
Four senders of `app/mod.rs` put requests on the network: a write handler sends the log with its own
index as commit index while it waits for its majority; once an index is committed, its handler and
the catch-up of the background task send entries with that index; and the batch of the background
task is sent with its greatest index. A request that was sent may reach any follower, any number of
times, or none.

The first and the last of these carry a commit index that nobody has acknowledged yet, so a follower
applies an entry that only it and the leader hold. In a cluster of up to three nodes that is a
majority; in a larger one it is not (`safe_iff_le_two_and_safe_of_commitCovered`). What a run
needs is that a follower, when it collects the entries to apply, has a commit index that covers only
entries held by a majority (`safe_of_commitCovered`).
-/

namespace Lithair.App

open Lithair.Cluster Lithair.Lib.OrderedList Lithair.Lib.Run

variable {Op : Type*} {n : ℕ}

/-- The leader, its followers, and the requests sent so far. -/
structure ClusterState (Op : Type*) (n : ℕ) where
  leader : Leader Op
  followers : Fin n → Follower Op
  messages : List (AppendEntriesRequest Op)

/-- A move of the leader; the end of a handler's replication, with the followers that answered; a
request sent by one of the background senders; the arrival of a request; a move of a follower. -/
inductive ClusterAction (Op : Type*) (n : ℕ)
  | leader (a : LeaderAction Op)
  | acknowledge (i : ℕ) (acks : List (Fin n))
  | sendCommitted (fromIndex leaderCommit : ℕ)
  | sendBatch
  | deliver (f : Fin n) (m : ℕ)
  | follower (f : Fin n) (a : FollowerAction Op)

/-- The action concerns no follower but `f`. -/
def ClusterAction.OnlyFollower (f : Fin n) : ClusterAction Op n → Prop
  | .deliver target _ | .follower target _ => target = f
  | _ => True

namespace ClusterState

def start (n term : ℕ) : ClusterState Op n :=
  ⟨Leader.start term, fun _ ↦ Follower.start, []⟩

/-- A request of the leader. -/
def request (s : ClusterState Op n) (entries : List (LogEntry Op)) (leaderCommit : ℕ) :
    AppendEntriesRequest Op where
  term := s.leader.log.currentTerm
  leaderId := 0
  prevLogIndex := 0
  prevLogTerm := 0
  entries := entries
  leaderCommit := leaderCommit

/-- The follower has answered the request with success. -/
def Answered (s : ClusterState Op n) (f : Fin n) (request : AppendEntriesRequest Op) : Prop :=
  ∃ a ∈ (s.followers f).answered, a.1 = request ∧ a.2.success = true

instance [DecidableEq Op] (s : ClusterState Op n) (f : Fin n)
    (request : AppendEntriesRequest Op) : Decidable (s.Answered f request) :=
  inferInstanceAs (Decidable (∃ a ∈ (s.followers f).answered, a.1 = request ∧ a.2.success = true))

/-- The greatest index of a batch. -/
def maxIndex (entries : List (LogEntry Op)) : ℕ :=
  (entries.map LogEntry.index).foldl max 0

def step [DecidableEq Op] (s : ClusterState Op n) : ClusterAction Op n → Option (ClusterState Op n)
  | .leader (.replicationDone _ _) => none
  | .leader (.readEntries i) =>
    (s.leader.step n (.readEntries i)).map fun leader ↦
      { s with leader, messages := s.messages ++ [s.request (s.leader.log.getEntriesFrom 1) i] }
  | .leader a => (s.leader.step n a).map fun leader ↦ { s with leader }
  | .acknowledge i acks =>
    match s.leader.handlers i with
    | some ⟨_, .joining ⟨some entries, _, none⟩⟩ =>
      if acks.Nodup ∧ ∀ f ∈ acks, s.Answered f (s.request entries i) then
        (s.leader.step n (.replicationDone i acks.length)).map fun leader ↦ { s with leader }
      else none
    | _ => none
  | .sendCommitted fromIndex leaderCommit =>
    if leaderCommit ≤ s.leader.log.commitIndex then
      some { s with
        messages := s.messages ++
          [s.request (s.leader.log.getEntriesFrom fromIndex) leaderCommit] }
    else none
  | .sendBatch =>
    if s.leader.immediateBatch = [] then none
    else
      some { s with
        leader := { s.leader with immediateBatch := [] }
        messages := s.messages ++
          [s.request s.leader.immediateBatch (maxIndex s.leader.immediateBatch)] }
  | .deliver f m =>
    match s.messages[m]? with
    | some request =>
      ((s.followers f).step (.receive request)).map fun follower ↦
        { s with followers := Function.update s.followers f follower }
    | none => none
  | .follower _ (.receive _) => none
  | .follower f a =>
    ((s.followers f).step a).map fun follower ↦
      { s with followers := Function.update s.followers f follower }

/-! ### Majorities -/

/-- The followers that hold the entry in their log. -/
def holders [DecidableEq Op] (s : ClusterState Op n) (e : LogEntry Op) : Finset (Fin n) :=
  Finset.univ.filter fun f ↦ e ∈ (s.followers f).log.entries

/-- The entry is in the logs of a majority of the nodes. -/
def StoredByMajority [DecidableEq Op] (s : ClusterState Op n) (e : LogEntry Op) : Prop :=
  majority n ≤ (s.holders e).card + if e ∈ s.leader.log.entries then 1 else 0

/-- No node has applied an entry that a majority does not hold. -/
structure Safe [DecidableEq Op] (s : ClusterState Op n) : Prop where
  leader : ∀ e ∈ s.leader.applied, s.StoredByMajority e
  followers : ∀ f, ∀ e ∈ (s.followers f).applied, s.StoredByMajority e

/-- When a follower collects the entries to apply, the commit index it has loaded covers, among the
entries it holds, only entries that a majority holds. -/
def CommitCovered [DecidableEq Op] (s : ClusterState Op n) : ClusterAction Op n → Prop
  | .follower f .collect =>
    ∀ holder appliedIndex commitIndex, (s.followers f).holder = some holder →
      holder.stage = .loaded appliedIndex commitIndex →
        ∀ e ∈ (s.followers f).log.entries, e.index ≤ commitIndex → s.StoredByMajority e
  | _ => True

variable [DecidableEq Op]

/-- Every log of `t` holds what the same log of `s` holds. -/
structure Grows (s t : ClusterState Op n) : Prop where
  leader : ∀ e ∈ s.leader.log.entries, e ∈ t.leader.log.entries
  followers : ∀ f, ∀ e ∈ (s.followers f).log.entries, e ∈ (t.followers f).log.entries

theorem StoredByMajority.mono {s t : ClusterState Op n} (hgrows : Grows s t) {e : LogEntry Op}
    (h : s.StoredByMajority e) : t.StoredByMajority e := by
  have hsub : s.holders e ⊆ t.holders e := by
    intro f hf
    rw [holders, Finset.mem_filter] at hf ⊢
    exact ⟨hf.1, hgrows.followers f e hf.2⟩
  have hcard : (s.holders e).card ≤ (t.holders e).card := Finset.card_le_card hsub
  unfold StoredByMajority at h ⊢
  by_cases he : e ∈ s.leader.log.entries
  · rw [if_pos he] at h
    rw [if_pos (hgrows.leader e he)]
    omega
  · rw [if_neg he] at h
    omega

/-! ### What each action does -/

theorem step_follower {s next : ClusterState Op n} {f : Fin n} {a : FollowerAction Op}
    (h : step s (.follower f a) = some next) :
    (∀ request, a ≠ .receive request) ∧ ∃ follower, (s.followers f).step a = some follower ∧
      next = { s with followers := Function.update s.followers f follower } := by
  cases a with
  | receive request => exact absurd h (Option.some_ne_none _).symm
  | checkTerm i | store i | lockApply i | loadIndices | collect | applyNext ok | mark | answer
  | drop i =>
    obtain ⟨follower, hstep, rfl⟩ := Option.map_eq_some_iff.mp h
    exact ⟨by simp, follower, hstep, rfl⟩

theorem step_deliver {s next : ClusterState Op n} {f : Fin n} {m : ℕ}
    (h : step s (.deliver f m) = some next) :
    ∃ request ∈ s.messages, ∃ follower,
      (s.followers f).step (.receive request) = some follower ∧
        next = { s with followers := Function.update s.followers f follower } := by
  unfold step at h
  simp only at h
  split at h
  · next request hm =>
    obtain ⟨follower, hstep, rfl⟩ := Option.map_eq_some_iff.mp h
    exact ⟨request, List.mem_of_getElem? hm, follower, hstep, rfl⟩
  · exact absurd h (by simp)

/-- A move of the leader other than the end of a replication; reading the log also sends it. -/
theorem step_leader {s next : ClusterState Op n} {a : LeaderAction Op}
    (h : step s (.leader a) = some next) :
    (∀ i successCount, a ≠ .replicationDone i successCount) ∧
      ∃ leader, s.leader.step n a = some leader ∧ ∃ sent,
        next = { s with leader, messages := s.messages ++ sent } ∧
          ∀ m ∈ sent, ∀ e ∈ m.entries, e ∈ s.leader.log.entries := by
  cases a with
  | replicationDone i successCount => exact absurd h (Option.some_ne_none _).symm
  | readEntries i =>
    obtain ⟨leader, hstep, rfl⟩ := Option.map_eq_some_iff.mp h
    refine ⟨by simp, leader, hstep, _, rfl, fun m hm e he ↦ ?_⟩
    rw [List.mem_singleton.mp hm] at he
    exact (ConsensusLog.mem_getEntriesFrom.mp he).1
  | accept operation timestampMs =>
    refine ⟨by simp, _, rfl, [], ?_, by simp⟩
    rw [List.append_nil]
    exact (Option.some.inj h).symm
  | insertEntry i | queueEntry i | walDone i ok | join i | commitTimeout i | lockApply i
  | applyOperation i ok | markApplied i | drop i =>
    obtain ⟨leader, hstep, rfl⟩ := Option.map_eq_some_iff.mp h
    exact ⟨by simp, leader, hstep, [], by simp, by simp⟩

theorem step_acknowledge {s next : ClusterState Op n} {i : ℕ} {acks : List (Fin n)}
    (h : step s (.acknowledge i acks) = some next) :
    ∃ entry entries wal, s.leader.handlers i = some ⟨entry, .joining ⟨some entries, wal, none⟩⟩ ∧
      acks.Nodup ∧ (∀ f ∈ acks, s.Answered f (s.request entries i)) ∧
      ∃ leader, s.leader.step n (.replicationDone i acks.length) = some leader ∧
        next = { s with leader } := by
  unfold step at h
  simp only at h
  split at h
  · next entry entries wal hi =>
    split_ifs at h with hacks
    obtain ⟨leader, hstep, rfl⟩ := Option.map_eq_some_iff.mp h
    exact ⟨entry, entries, wal, hi, hacks.1, hacks.2, leader, hstep, rfl⟩
  · exact absurd h (by simp)

theorem step_sendCommitted {s next : ClusterState Op n} {fromIndex leaderCommit : ℕ}
    (h : step s (.sendCommitted fromIndex leaderCommit) = some next) :
    next = { s with messages := s.messages ++
      [s.request (s.leader.log.getEntriesFrom fromIndex) leaderCommit] } := by
  unfold step at h
  simp only at h
  split_ifs at h
  exact (Option.some.inj h).symm

theorem step_sendBatch {s next : ClusterState Op n} (h : step s .sendBatch = some next) :
    next = { s with
      leader := { s.leader with immediateBatch := [] }
      messages := s.messages ++
        [s.request s.leader.immediateBatch (maxIndex s.leader.immediateBatch)] } := by
  unfold step at h
  simp only at h
  split_ifs at h
  exact (Option.some.inj h).symm

/-- The followers that no action of a run concerns are as they were. -/
theorem followers_of_exec {s t : ClusterState Op n} {actions : List (ClusterAction Op n)}
    {f g : Fin n} (hne : g ≠ f) (honly : ∀ a ∈ actions, a.OnlyFollower f)
    (h : exec step s actions = some t) : t.followers g = s.followers g := by
  induction actions generalizing s with
  | nil =>
    rw [exec_nil, Option.some.injEq] at h
    rw [h]
  | cons a rest ih =>
    obtain ⟨next, hnext, hrest⟩ := exec_cons_eq_some.mp h
    rw [ih (fun b hb ↦ honly b (List.mem_cons_of_mem _ hb)) hrest]
    have ha : a.OnlyFollower f := honly a List.mem_cons_self
    cases a with
    | leader a =>
      obtain ⟨-, leader, -, sent, rfl, -⟩ := step_leader hnext
      rfl
    | acknowledge i acks =>
      obtain ⟨_, _, _, -, -, -, leader, -, rfl⟩ := step_acknowledge hnext
      rfl
    | sendCommitted fromIndex leaderCommit => rw [step_sendCommitted hnext]
    | sendBatch => rw [step_sendBatch hnext]
    | deliver target m =>
      obtain ⟨request, -, follower, -, rfl⟩ := step_deliver hnext
      exact Function.update_of_ne (hne.trans_eq ha.symm) _ _
    | follower target a =>
      obtain ⟨-, follower, -, rfl⟩ := step_follower hnext
      exact Function.update_of_ne (hne.trans_eq ha.symm) _ _

/-! ### What every run keeps -/

/-- The invariant of the cluster: every entry anywhere is one of the leader's, the answers keep
their promises, and what the leader counts as replicated is held by a majority. -/
structure Inv (s : ClusterState Op n) : Prop where
  leader : s.leader.Inv
  messages : ∀ m ∈ s.messages, ∀ e ∈ m.entries, e ∈ s.leader.log.entries
  consistent : ∀ f, (s.followers f).Consistent
  source : ∀ f, (s.followers f).From s.leader.log.entries
  promises : ∀ f, (s.followers f).Promises
  replicated : s.leader.ReplicatedAre s.StoredByMajority

theorem inv_start (term : ℕ) : Inv (start n term : ClusterState Op n) where
  leader := Leader.inv_start term
  messages := by simp [start]
  consistent := fun _ ↦ Follower.consistent_start
  source := fun _ ↦ Follower.from_start _
  promises := fun _ ↦ Follower.promises_start
  replicated := ⟨by simp [start, Leader.start], by simp [start, Leader.start]⟩

/-- A follower that has answered a handler's request holds the handler's entry. -/
theorem Inv.mem_of_answered {s : ClusterState Op n} (h : Inv s) {i : ℕ} {entry : LogEntry Op}
    {entries : List (LogEntry Op)} {wal : Option Bool}
    (hi : s.leader.handlers i = some ⟨entry, .joining ⟨some entries, wal, none⟩⟩) {f : Fin n}
    (hf : s.Answered f (s.request entries i)) : entry ∈ (s.followers f).log.entries := by
  have hstage : s.leader.StageOk entry (.joining ⟨some entries, wal, none⟩) :=
    (h.leader.handlers i _ hi).stage
  obtain ⟨hheld, -, hjoin⟩ := hstage
  obtain ⟨⟨_, response⟩, hanswer, rfl, hsuccess⟩ := hf
  have hown : entry.logId ∈ (s.followers f).log.entries.map LogEntry.logId :=
    (h.promises f).answered _ hanswer hsuccess entry (hjoin.own entries rfl)
  obtain ⟨e, he, hid⟩ := List.mem_map.mp hown
  rwa [h.leader.sorted.eq_of_key_eq hheld ((h.source f).log e he) hid.symm]

/-- Enough answers make a majority. -/
theorem Inv.storedByMajority {s : ClusterState Op n} (h : Inv s) {i : ℕ} {entry : LogEntry Op}
    {entries : List (LogEntry Op)} {wal : Option Bool}
    (hi : s.leader.handlers i = some ⟨entry, .joining ⟨some entries, wal, none⟩⟩)
    {acks : List (Fin n)} (hnodup : acks.Nodup)
    (hacks : ∀ f ∈ acks, s.Answered f (s.request entries i)) {c : ℕ}
    (hresult : replicateLogEntriesToFollowers n entries i acks.length = .ok c) :
    s.StoredByMajority entry := by
  have hstage : s.leader.StageOk entry (.joining ⟨some entries, wal, none⟩) :=
    (h.leader.handlers i _ hi).stage
  have hsub : acks.toFinset ⊆ s.holders entry := by
    intro f hf
    rw [holders, Finset.mem_filter]
    exact ⟨Finset.mem_univ f, h.mem_of_answered hi (hacks f (List.mem_toFinset.mp hf))⟩
  have hcard : acks.length ≤ (s.holders entry).card := by
    rw [← List.toFinset_card_of_nodup hnodup]
    exact Finset.card_le_card hsub
  unfold StoredByMajority
  rw [if_pos hstage.1]
  rcases (replicateLogEntriesToFollowers_eq_ok hresult).1 with rfl | hmajority
  · exact Nat.le_add_left _ _
  · omega

/-- The leader goes on, and what it counts as replicated is still held by a majority. -/
theorem Inv.leaderStep {s : ClusterState Op n} (h : Inv s) {a : LeaderAction Op}
    {leader : Leader Op} (hstep : s.leader.step n a = some leader)
    (hdone : ∀ i successCount entry entries wal c, a = .replicationDone i successCount →
      s.leader.handlers i = some ⟨entry, .joining ⟨some entries, wal, none⟩⟩ →
        replicateLogEntriesToFollowers n entries i successCount = .ok c →
          s.StoredByMajority entry)
    {sent : List (AppendEntriesRequest Op)}
    (hsent : ∀ m ∈ sent, ∀ e ∈ m.entries, e ∈ s.leader.log.entries) :
    Inv { s with leader, messages := s.messages ++ sent } := by
  have hentries : ∀ e ∈ s.leader.log.entries, e ∈ leader.log.entries :=
    fun e he ↦ Leader.mem_entries_of_step hstep he
  have hgrows : Grows s { s with leader, messages := s.messages ++ sent } :=
    ⟨hentries, fun _ _ he ↦ he⟩
  have hreplicated := h.replicated.step h.leader hstep hdone
  constructor
  · exact Leader.kept_inv n _ _ _ h.leader hstep
  · intro m hm e he
    rcases List.mem_append.mp hm with hm | hm
    · exact hentries e (h.messages m hm e he)
    · exact hentries e (hsent m hm e he)
  · exact h.consistent
  · exact fun f ↦ (h.source f).mono hentries
  · exact h.promises
  · exact ⟨fun i handler hi hhandler ↦ (hreplicated.handlers i handler hi hhandler).mono hgrows,
      fun e he ↦ (hreplicated.applied e he).mono hgrows⟩

omit [DecidableEq Op] in
theorem grows_update {s : ClusterState Op n} {f : Fin n} {a : FollowerAction Op}
    {follower : Follower Op} (hstep : (s.followers f).step a = some follower) :
    Grows s { s with followers := Function.update s.followers f follower } where
  leader := fun _ he ↦ he
  followers := by
    intro g e he
    by_cases hg : g = f
    · subst hg
      change e ∈ (Function.update s.followers g follower g).log.entries
      rw [Function.update_self]
      exact Follower.mem_entries_of_step hstep he
    · change e ∈ (Function.update s.followers f follower g).log.entries
      rwa [Function.update_of_ne hg]

omit [DecidableEq Op] in
/-- A property of all followers after one of them has moved. -/
theorem forall_update {P : Follower Op → Prop} {followers : Fin n → Follower Op} {f : Fin n}
    {follower : Follower Op} (hothers : ∀ g, P (followers g)) (hnew : P follower) :
    ∀ g, P (Function.update followers f follower g) := by
  intro g
  by_cases hg : g = f
  · rw [hg, Function.update_self]
    exact hnew
  · rw [Function.update_of_ne hg]
    exact hothers g

/-- A follower goes on; a request it receives was sent before. -/
theorem Inv.followerStep {s : ClusterState Op n} (h : Inv s) {f : Fin n}
    {a : FollowerAction Op} {follower : Follower Op}
    (hstep : (s.followers f).step a = some follower)
    (hreceive : ∀ request, a = .receive request → request ∈ s.messages) :
    Inv { s with followers := Function.update s.followers f follower } where
  leader := h.leader
  messages := h.messages
  consistent := forall_update h.consistent
    (Follower.kept_consistent _ _ _ (h.consistent f) hstep)
  source := forall_update h.source ((h.source f).step
    (fun request ha e he ↦ h.messages request (hreceive request ha) e he) hstep)
  promises := forall_update h.promises (Follower.kept_promises _ _ _ (h.promises f) hstep)
  replicated := ⟨fun i handler hi hhandler ↦
      (h.replicated.handlers i handler hi hhandler).mono (grows_update hstep),
    fun e he ↦ (h.replicated.applied e he).mono (grows_update hstep)⟩

/-- Requests made of entries of the leader's log may be sent at any time. -/
theorem Inv.send {s : ClusterState Op n} (h : Inv s) {sent : List (AppendEntriesRequest Op)}
    (hsent : ∀ m ∈ sent, ∀ e ∈ m.entries, e ∈ s.leader.log.entries) :
    Inv { s with messages := s.messages ++ sent } where
  leader := h.leader
  messages := by
    intro m hm
    rcases List.mem_append.mp hm with hm | hm
    · exact h.messages m hm
    · exact hsent m hm
  consistent := h.consistent
  source := h.source
  promises := h.promises
  replicated := h.replicated

theorem kept_inv : Kept step (Inv : ClusterState Op n → Prop) := by
  intro s a next h hnext
  cases a with
  | leader a =>
    obtain ⟨hne, leader, hstep, sent, rfl, hsent⟩ := step_leader hnext
    exact h.leaderStep hstep (fun i k _ _ _ _ ha ↦ absurd ha (hne i k)) hsent
  | acknowledge i acks =>
    obtain ⟨entry, entries, wal, hi, hnodup, hacks, leader, hstep, rfl⟩ := step_acknowledge hnext
    suffices hinv : Inv { s with leader, messages := s.messages ++ [] } by
      rwa [List.append_nil] at hinv
    refine h.leaderStep hstep ?_ (by simp)
    rintro _ _ other otherEntries otherWal c ⟨⟩ hother hresult
    rw [hi, Option.some.injEq, WriteHandler.mk.injEq, WriteStage.joining.injEq,
      Joining.mk.injEq, Option.some.injEq] at hother
    obtain ⟨rfl, rfl, -⟩ := hother
    exact h.storedByMajority hi hnodup hacks hresult
  | sendCommitted fromIndex leaderCommit =>
    obtain rfl := step_sendCommitted hnext
    refine h.send fun m hm e he ↦ ?_
    rw [List.mem_singleton.mp hm] at he
    exact (ConsensusLog.mem_getEntriesFrom.mp he).1
  | sendBatch =>
    obtain rfl := step_sendBatch hnext
    have hbatch : ∀ m ∈ [s.request s.leader.immediateBatch (maxIndex s.leader.immediateBatch)],
        ∀ e ∈ m.entries, e ∈ s.leader.log.entries := by
      intro m hm e he
      rw [List.mem_singleton.mp hm] at he
      exact h.leader.batch e he
    have hsent := h.send hbatch
    have hleader : ({ s.leader with immediateBatch := [] } : Leader Op).Inv :=
      h.leader.congr rfl rfl rfl (by simp)
    exact ⟨hleader, hsent.messages, hsent.consistent, hsent.source, hsent.promises,
      hsent.replicated.handlers, hsent.replicated.applied⟩
  | deliver f m =>
    obtain ⟨request, hmem, follower, hstep, rfl⟩ := step_deliver hnext
    refine h.followerStep hstep ?_
    rintro _ ⟨⟩
    exact hmem
  | follower f a =>
    obtain ⟨hne, follower, hstep, rfl⟩ := step_follower hnext
    exact h.followerStep hstep fun request ha ↦ absurd ha (hne request)

/-! ### Safety -/

/-- Under the condition on collections, followers apply only what a majority holds. -/
theorem appliesOnly_step {s next : ClusterState Op n} {a : ClusterAction Op n}
    (honly : ∀ f, (s.followers f).AppliesOnly s.StoredByMajority) (hcovered : CommitCovered s a)
    (hnext : step s a = some next) :
    ∀ f, (next.followers f).AppliesOnly next.StoredByMajority := by
  have hgrown : ∀ {t : ClusterState Op n}, Grows s t →
      ∀ f, (s.followers f).AppliesOnly t.StoredByMajority :=
    fun hgrows f ↦ (honly f).mono fun _ he ↦ he.mono hgrows
  cases a with
  | leader a =>
    obtain ⟨-, leader, hstep, sent, rfl, -⟩ := step_leader hnext
    exact hgrown ⟨fun _ he ↦ Leader.mem_entries_of_step hstep he, fun _ _ he ↦ he⟩
  | acknowledge i acks =>
    obtain ⟨entry, entries, wal, -, -, -, leader, hstep, rfl⟩ := step_acknowledge hnext
    exact hgrown ⟨fun _ he ↦ Leader.mem_entries_of_step hstep he, fun _ _ he ↦ he⟩
  | sendCommitted fromIndex leaderCommit =>
    obtain rfl := step_sendCommitted hnext
    exact hgrown ⟨fun _ he ↦ he, fun _ _ he ↦ he⟩
  | sendBatch =>
    obtain rfl := step_sendBatch hnext
    exact hgrown ⟨fun _ he ↦ he, fun _ _ he ↦ he⟩
  | deliver f m =>
    obtain ⟨request, -, follower, hstep, rfl⟩ := step_deliver hnext
    have hgrows := grows_update hstep
    exact forall_update (hgrown hgrows)
      ((hgrown hgrows f).step (fun ha ↦ absurd ha (by simp)) hstep)
  | follower f a =>
    obtain ⟨-, follower, hstep, rfl⟩ := step_follower hnext
    have hgrows := grows_update hstep
    refine forall_update (hgrown hgrows) ((hgrown hgrows f).step ?_ hstep)
    rintro rfl holder appliedIndex commitIndex hsome hstage e he hle
    exact (hcovered holder appliedIndex commitIndex hsome hstage e he hle).mono hgrows

/-- With at most two followers, the leader and the follower that holds an entry are a majority. -/
theorem Inv.safe_of_le_two {s : ClusterState Op n} (h : Inv s) (hn : n ≤ 2) : Safe s where
  leader := h.replicated.applied
  followers := by
    intro f e he
    have hheld : e ∈ (s.followers f).log.entries := ((h.consistent f).held e he).1
    have hmem : f ∈ s.holders e := Finset.mem_filter.mpr ⟨Finset.mem_univ f, hheld⟩
    have hcard : 0 < (s.holders e).card := Finset.card_pos.mpr ⟨f, hmem⟩
    unfold StoredByMajority majority
    rw [if_pos ((h.source f).log e hheld)]
    omega

end ClusterState

/-! ### Every run -/

/-- A run in which every collection is covered is safe throughout. -/
theorem safe_of_commitCovered [DecidableEq Op] (term : ℕ) (actions : List (ClusterAction Op n))
    (hcovered : EachStep ClusterState.step ClusterState.CommitCovered (ClusterState.start n term)
      actions) :
    Always ClusterState.step ClusterState.Safe (ClusterState.start n term) actions := by
  have hkept := hcovered.always
    (I := fun s ↦ s.Inv ∧ ∀ f, (s.followers f).AppliesOnly s.StoredByMajority)
    (fun s a next hs hC hnext ↦
      ⟨ClusterState.kept_inv s a next hs.1 hnext, ClusterState.appliesOnly_step hs.2 hC hnext⟩)
    ⟨ClusterState.inv_start term, fun _ ↦ ⟨by simp [ClusterState.start, Follower.start],
      by simp [ClusterState.start, Follower.start]⟩⟩
  exact hkept.mono fun s hs ↦ ⟨hs.1.replicated.applied, fun f ↦ (hs.2 f).applied⟩

/-- One write, stored by one follower, which applies it at once. -/
def oneFollowerApplies (f : Fin n) : List (ClusterAction CrudOperation n) :=
  [.leader (.accept (.delete "/api/products" "a") 0), .leader (.insertEntry 1),
    .leader (.queueEntry 1), .leader (.readEntries 1), .deliver f 0, .follower f (.checkTerm 0),
    .follower f (.store 0), .follower f (.lockApply 0), .follower f .loadIndices,
    .follower f .collect, .follower f (.applyNext true)]

/-- In a cluster of four or more nodes this is one holder too few. -/
theorem not_safe_oneFollowerApplies (hn : 2 < n) :
    ¬ Always ClusterState.step ClusterState.Safe (ClusterState.start n 1)
      (oneFollowerApplies ⟨0, by omega⟩) := by
  intro h
  have hpos : 0 < n := by omega
  let entry : LogEntry CrudOperation := ⟨⟨1, 1⟩, .delete "/api/products" "a", 0⟩
  obtain ⟨s, hexec, happlied⟩ : ∃ s, exec ClusterState.step (ClusterState.start n 1)
      (oneFollowerApplies ⟨0, hpos⟩) = some s ∧ (s.followers ⟨0, hpos⟩).applied = [entry] :=
    ⟨_, rfl, rfl⟩
  have hstored : s.StoredByMajority entry := by
    refine (h.exec hexec).followers ⟨0, hpos⟩ entry ?_
    rw [happlied]
    exact List.mem_cons_self
  have hsub : s.holders entry ⊆ {⟨0, hpos⟩} := by
    intro g hg
    by_contra hne
    have hother : s.followers g = (ClusterState.start n 1).followers g :=
      ClusterState.followers_of_exec (Finset.notMem_singleton.mp hne)
        (by simp [oneFollowerApplies, ClusterAction.OnlyFollower]) hexec
    have hmem := (Finset.mem_filter.mp hg).2
    rw [hother] at hmem
    exact absurd hmem List.not_mem_nil
  have hcard := Finset.card_le_card hsub
  rw [Finset.card_singleton] at hcard
  unfold ClusterState.StoredByMajority majority at hstored
  split_ifs at hstored <;> omega

/-- Every run is safe exactly in clusters with at most two followers. In any cluster, a run is safe
when each follower collects against a commit index that a majority covers. -/
theorem safe_iff_le_two_and_safe_of_commitCovered (n : ℕ) :
    ((∀ actions : List (ClusterAction CrudOperation n),
        Always ClusterState.step ClusterState.Safe (ClusterState.start n 1) actions) ↔ n ≤ 2) ∧
      ∀ actions : List (ClusterAction CrudOperation n),
        EachStep ClusterState.step ClusterState.CommitCovered (ClusterState.start n 1) actions →
          Always ClusterState.step ClusterState.Safe (ClusterState.start n 1) actions := by
  refine ⟨⟨fun h ↦ ?_, fun hn actions ↦ ?_⟩, safe_of_commitCovered 1⟩
  · by_contra hn
    exact not_safe_oneFollowerApplies (not_le.mp hn) (h _)
  · exact (ClusterState.kept_inv.always (ClusterState.inv_start 1) actions).mono
      fun s hs ↦ hs.safe_of_le_two hn

/-- With four followers, one follower applies a write that three of five nodes do not hold. -/
theorem follower_applies_minority_write :
    ¬ ∀ (n : ℕ) (actions : List (ClusterAction CrudOperation n)),
      Always ClusterState.step ClusterState.Safe (ClusterState.start n 1) actions :=
  fun h ↦ not_safe_oneFollowerApplies (by decide : 2 < 4) (h 4 _)

end Lithair.App
