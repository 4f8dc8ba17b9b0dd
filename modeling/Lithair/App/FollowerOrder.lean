import Lithair.App.AppendHandler
import Lithair.App.WritePath

/-!
# A follower of one leader

One leader and one of its followers in a single term, without restarts and snapshots. The requests
that reach the follower carry any entries of the leader's log, in any order and any number of times,
with any commit index; how they overlap on the follower is up to the run.

What the follower applies is at all times a prefix of the leader's log, entry by entry from index 1
(`appliedPrefix_always`): its entries are the leader's (`Follower.From`), the indices it applies are
`1, 2, …` (`Follower.Consistent`), and the leader's log holds each index once.
-/

namespace Lithair.App

open Lithair.Cluster Lithair.Lib.OrderedList Lithair.Lib.Run

variable {Op : Type*}

/-- The leader and the follower. -/
structure ReplicaPair (Op : Type*) where
  leader : Leader Op
  follower : Follower Op

/-- A move of the leader, the arrival of a request with entries of the leader's log, or a move of
the follower. -/
inductive PairAction (Op : Type*)
  | leader (a : LeaderAction Op)
  | deliver (entries : List (LogEntry Op)) (leaderCommit : ℕ)
  | follower (a : FollowerAction Op)

namespace ReplicaPair

def start (term : ℕ) : ReplicaPair Op := ⟨Leader.start term, Follower.start⟩

/-- The request that carries the given entries. -/
def request (s : ReplicaPair Op) (entries : List (LogEntry Op)) (leaderCommit : ℕ) :
    AppendEntriesRequest Op where
  term := s.leader.log.currentTerm
  leaderId := 0
  prevLogIndex := 0
  prevLogTerm := 0
  entries := entries
  leaderCommit := leaderCommit

/-- A step. A request reaches the follower by a delivery only. -/
def step [DecidableEq Op] (peers : ℕ) (s : ReplicaPair Op) :
    PairAction Op → Option (ReplicaPair Op)
  | .leader a => (s.leader.step peers a).map fun leader ↦ { s with leader }
  | .deliver entries leaderCommit =>
    if ∀ e ∈ entries, e ∈ s.leader.log.entries then
      (s.follower.step (.receive (s.request entries leaderCommit))).map
        fun follower ↦ { s with follower }
    else none
  | .follower (.receive _) => none
  | .follower a => (s.follower.step a).map fun follower ↦ { s with follower }

/-- What the follower has applied are the first entries of the leader's log, each once and in index
order. -/
structure AppliedPrefix (s : ReplicaPair Op) : Prop where
  numbered : NumberedFrom LogEntry.index 1 s.follower.applied
  isPrefix : s.follower.applied <+: s.leader.log.entries

structure Inv (s : ReplicaPair Op) : Prop where
  leader : s.leader.Inv
  consistent : s.follower.Consistent
  source : s.follower.From s.leader.log.entries

theorem Inv.appliedPrefix {s : ReplicaPair Op} (h : Inv s) : AppliedPrefix s where
  numbered := h.consistent.numbered
  isPrefix := by
    refine h.consistent.numbered.prefix h.leader.sortedByIndex h.leader.pos fun e he ↦ ?_
    exact h.source.log e (h.consistent.held e he).1

theorem inv_start (term : ℕ) : Inv (start term : ReplicaPair Op) where
  leader := Leader.inv_start term
  consistent := Follower.consistent_start
  source := Follower.from_start _

theorem kept_inv [DecidableEq Op] (peers : ℕ) :
    Kept (step peers) (Inv : ReplicaPair Op → Prop) := by
  intro s a next h hnext
  have hfollower : ∀ {b : FollowerAction Op} {follower : Follower Op},
      s.follower.step b = some follower →
        (∀ request, b = .receive request → ∀ e ∈ request.entries, e ∈ s.leader.log.entries) →
          Inv { s with follower } :=
    fun hstep hreceive ↦ ⟨h.leader, Follower.kept_consistent _ _ _ h.consistent hstep,
      h.source.step hreceive hstep⟩
  cases a with
  | leader a =>
    obtain ⟨leader, hstep, rfl⟩ := Option.map_eq_some_iff.mp hnext
    exact ⟨Leader.kept_inv peers _ _ _ h.leader hstep, h.consistent,
      h.source.mono fun e he ↦ Leader.mem_entries_of_step hstep he⟩
  | deliver entries leaderCommit =>
    simp only [step] at hnext
    split_ifs at hnext with hentries
    obtain ⟨follower, hstep, rfl⟩ := Option.map_eq_some_iff.mp hnext
    refine hfollower hstep ?_
    rintro _ ⟨⟩
    exact hentries
  | follower a =>
    cases a with
    | receive request => exact absurd hnext (by simp [step])
    | checkTerm i | store i | lockApply i | loadIndices | collect | applyNext ok | mark | answer
    | drop i =>
      obtain ⟨follower, hstep, rfl⟩ := Option.map_eq_some_iff.mp hnext
      exact hfollower hstep fun _ hreceive ↦ absurd hreceive (by simp)

end ReplicaPair

end Lithair.App
