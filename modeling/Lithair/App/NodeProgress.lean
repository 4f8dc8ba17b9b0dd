import Lithair.App.AppendHandler
import Lithair.App.WritePath

/-!
# Terms and indices of a node

All that moves the term and the indices of a node's consensus log, at once: the write handlers of
`WritePath`, the append handlers of `AppendHandler`, and the end of an accepted snapshot, which sets
the term and marks the last included index. They share the log and the apply mutex. An append
handler compares the term of its request with the term it has loaded, and stores it later.

The commit and the applied index only grow, but nothing holds the term and the order of the indices
together: a snapshot sets any term, a request names any commit index.
`inOrder_and_neverDecreases_iff_inStep` says which steps keep the term from decreasing and the
applied index within the commit index and that within the log.
-/

namespace Lithair.App

open Lithair.Cluster Lithair.Lib.OrderedList Lithair.Lib.Run

variable {Op : Type*}

/-- A node: its log with the write handlers, the append handlers that have loaded the term, those
that wait and the one that holds the mutex, the accepted snapshots whose last index is still to be
marked, and the greatest index that a snapshot covers. -/
structure ClusterNode (Op : Type*) where
  leader : Leader Op
  checking : List (AppendEntriesRequest Op × ℕ)
  waiting : List (AppendHandler Op)
  holder : Option (ApplyHolder Op)
  received : List (LogEntry Op)
  answered : List (AppendEntriesRequest Op × AppendEntriesResponse)
  installing : List ℕ
  covered : ℕ

/-- What happens on a node: a step of a write handler; the arrival of a request, which loads the
term; the comparison of the terms; another step of an append handler; and the two ends of a snapshot
that was accepted. -/
inductive ClusterNodeAction (Op : Type*)
  | write (a : LeaderAction Op)
  | receive (request : AppendEntriesRequest Op)
  | compareTerm (k : ℕ)
  | append (a : FollowerAction Op)
  | setSnapshotTerm (term lastIncludedIndex : ℕ)
  | markSnapshot (k : ℕ)

namespace ClusterNode

def start (term : ℕ) : ClusterNode Op where
  leader := .start term
  checking := []
  waiting := []
  holder := none
  received := []
  answered := []
  installing := []
  covered := 0

def log (s : ClusterNode Op) : ConsensusLog Op := s.leader.log

/-- The append handlers with the log. -/
def follower (s : ClusterNode Op) : Follower Op where
  log := s.log
  waiting := s.waiting
  holder := s.holder
  applied := s.received
  answered := s.answered

/-- The node after a step of its append handlers. -/
def withFollower (s : ClusterNode Op) (follower : Follower Op) : ClusterNode Op :=
  { s with
    leader := { s.leader with log := follower.log }
    waiting := follower.waiting
    holder := follower.holder
    received := follower.applied
    answered := follower.answered }

/-- The node with another log. -/
def withLog (s : ClusterNode Op) (log : ConsensusLog Op) : ClusterNode Op :=
  { s with leader := { s.leader with log } }

/-- The comparison of a request's term with the term that was loaded. -/
def compareTerm (s : ClusterNode Op) (k : ℕ) (request : AppendEntriesRequest Op) (ourTerm : ℕ) :
    ClusterNode Op :=
  let compared := { s with checking := s.checking.eraseIdx k }
  let accepted := { compared with waiting := s.waiting ++ [⟨request, .accepted⟩] }
  if ourTerm < request.term then accepted.withLog (s.log.setTerm request.term)
  else if request.term < ourTerm then
    { compared with answered :=
      s.answered ++ [(request, { s.follower.response false with term := ourTerm })] }
  else accepted

def step (peers : ℕ) (s : ClusterNode Op) : ClusterNodeAction Op → Option (ClusterNode Op)
  | .write (.lockApply i) =>
    if s.holder.isSome then none
    else (s.leader.step peers (.lockApply i)).map fun leader ↦ { s with leader }
  | .write a => (s.leader.step peers a).map fun leader ↦ { s with leader }
  | .receive request =>
    some { s with checking := s.checking ++ [(request, s.log.currentTerm)] }
  | .compareTerm k =>
    match s.checking[k]? with
    | some (request, ourTerm) => some (s.compareTerm k request ourTerm)
    | none => none
  | .append (.receive _) | .append (.checkTerm _) => none
  | .append (.lockApply i) =>
    if s.leader.applyLock.isSome then none
    else (s.follower.step (.lockApply i)).map s.withFollower
  | .append a => (s.follower.step a).map s.withFollower
  | .setSnapshotTerm term lastIncludedIndex =>
    some { s.withLog (s.log.setTerm term) with
      installing := s.installing ++ [lastIncludedIndex] }
  | .markSnapshot k =>
    match s.installing[k]? with
    | some lastIncludedIndex =>
      some { s.withLog (s.log.markApplied lastIncludedIndex) with
        installing := s.installing.eraseIdx k
        covered := max s.covered lastIncludedIndex }
    | none => none

/-! ### What is meant to hold -/

/-- What is applied is committed, and what is committed is in the log or covered by a snapshot. -/
structure InOrder (s : ClusterNode Op) : Prop where
  applied : s.log.appliedIndex ≤ s.log.commitIndex
  committed : s.log.commitIndex ≤ max s.log.lastIndex s.covered

/-- The term and the two indices are at most what they are in the next state. -/
structure Below (s next : ClusterNode Op) : Prop where
  term : s.log.currentTerm ≤ next.log.currentTerm
  commit : s.log.commitIndex ≤ next.log.commitIndex
  applied : s.log.appliedIndex ≤ next.log.appliedIndex

/-- A step that decreases neither the term nor one of the indices. -/
def NeverDecreases (peers : ℕ) (s : ClusterNode Op) (a : ClusterNodeAction Op) : Prop :=
  ∀ next, step peers s a = some next → Below s next

/-- A step by which the node stays in step: the term that is stored is not below the current one; a
snapshot does not go beyond the commit index; a request's commit index lies within the log that its
entries leave, or is covered, and so does the node's own; an entry that is put last is not below
what is committed; and a write commits within the log and is marked once it is committed. -/
def InStep (s : ClusterNode Op) : ClusterNodeAction Op → Prop
  | .write (.insertEntry i) =>
    ∀ entry, s.leader.handlers i = some ⟨entry, .allocated⟩ →
      (∀ e ∈ s.log.entries, ¬ entry.logId < e.logId) →
        s.log.commitIndex ≤ max entry.index s.covered
  | .write (.join i) =>
    ∀ entry sent c,
      s.leader.handlers i = some ⟨entry, .joining ⟨sent, some true, some (.ok c)⟩⟩ →
        c ≤ max s.log.lastIndex s.covered
  | .write (.markApplied i) => i ≤ s.log.commitIndex
  | .compareTerm k =>
    ∀ request ourTerm, s.checking[k]? = some (request, ourTerm) →
      ourTerm < request.term → s.log.currentTerm ≤ request.term
  | .append (.store i) =>
    ∀ request, s.waiting[i]? = some ⟨request, .accepted⟩ →
      max s.log.commitIndex request.leaderCommit ≤
        max (s.log.appendEntries request.entries request.leaderCommit).lastIndex s.covered
  | .setSnapshotTerm term _ => s.log.currentTerm ≤ term
  | .markSnapshot k =>
    ∀ lastIncludedIndex, s.installing[k]? = some lastIncludedIndex →
      lastIncludedIndex ≤ s.log.commitIndex
  | _ => True

/-! ### The two kinds of handlers -/

section Step

variable {peers : ℕ} {s next : ClusterNode Op}

theorem step_write {a : LeaderAction Op} (h : step peers s (.write a) = some next) :
    ∃ leader, s.leader.step peers a = some leader ∧ next = { s with leader } := by
  have hmap : (s.leader.step peers a).map (fun leader ↦ { s with leader }) = some next := by
    cases a with
    | lockApply i =>
      unfold step at h
      simp only at h
      split_ifs at h
      exact h
    | _ => exact h
  obtain ⟨leader, hleader, hnext⟩ := Option.map_eq_some_iff.mp hmap
  exact ⟨leader, hleader, hnext.symm⟩

theorem step_append {a : FollowerAction Op} (h : step peers s (.append a) = some next) :
    (∀ request, a ≠ .receive request) ∧ (∀ i, a ≠ .checkTerm i) ∧
      ∃ follower, s.follower.step a = some follower ∧ next = s.withFollower follower := by
  have hmap : (∀ request, a ≠ .receive request) ∧ (∀ i, a ≠ .checkTerm i) ∧
      (s.follower.step a).map s.withFollower = some next := by
    cases a with
    | receive request => exact absurd h (Option.some_ne_none _).symm
    | checkTerm i => exact absurd h (Option.some_ne_none _).symm
    | lockApply i =>
      unfold step at h
      simp only at h
      split_ifs at h
      exact ⟨by simp, by simp, h⟩
    | _ => exact ⟨by simp, by simp, h⟩
  obtain ⟨hreceive, hcheck, hmap⟩ := hmap
  obtain ⟨follower, hfollower, hnext⟩ := Option.map_eq_some_iff.mp hmap
  exact ⟨hreceive, hcheck, follower, hfollower, hnext.symm⟩

theorem step_compareTerm {k : ℕ} (h : step peers s (.compareTerm k) = some next) :
    ∃ request ourTerm, s.checking[k]? = some (request, ourTerm) ∧
      next = s.compareTerm k request ourTerm := by
  unfold step at h
  simp only at h
  split at h
  · next request ourTerm hk => exact ⟨request, ourTerm, hk, (Option.some.inj h).symm⟩
  · exact absurd h (by simp)

theorem step_markSnapshot {k : ℕ} (h : step peers s (.markSnapshot k) = some next) :
    ∃ lastIncludedIndex, s.installing[k]? = some lastIncludedIndex ∧
      next = { s.withLog (s.log.markApplied lastIncludedIndex) with
        installing := s.installing.eraseIdx k
        covered := max s.covered lastIncludedIndex } := by
  unfold step at h
  simp only at h
  split at h
  · next lastIncludedIndex hk => exact ⟨lastIncludedIndex, hk, (Option.some.inj h).symm⟩
  · exact absurd h (by simp)

/-! ### What the mutex holder collected is committed -/

/-- The entries that a mutex holder has collected, or is about to, are committed. -/
def CommittedStage (commitIndex : ℕ) : ApplyStage Op → Prop
  | .locked => True
  | .loaded _ loaded => loaded ≤ commitIndex
  | .applying remaining => ∀ e ∈ remaining, e.index ≤ commitIndex
  | .marking entry remaining => ∀ e ∈ entry :: remaining, e.index ≤ commitIndex

def HolderCommitted (s : ClusterNode Op) : Prop :=
  ∀ holder, s.holder = some holder → CommittedStage s.log.commitIndex holder.stage

theorem CommittedStage.mono {c d : ℕ} (hcd : c ≤ d) {stage : ApplyStage Op}
    (h : CommittedStage c stage) : CommittedStage d stage := by
  cases stage with
  | locked => trivial
  | loaded applied loaded => exact le_trans h hcd
  | applying remaining => exact fun e he ↦ (h e he).trans hcd
  | marking entry remaining => exact fun e he ↦ (h e he).trans hcd

theorem holderCommitted_start (term : ℕ) : HolderCommitted (start term : ClusterNode Op) :=
  fun _ h ↦ absurd h (by simp [start])

theorem HolderCommitted.mono (h : HolderCommitted s) (hholder : next.holder = s.holder)
    (hcommit : s.log.commitIndex ≤ next.log.commitIndex) : HolderCommitted next :=
  fun holder hnext ↦ (h holder (hholder ▸ hnext)).mono hcommit

/-- The step leaves the term, the entries and the indices alone. -/
structure SameIndices (s next : ClusterNode Op) : Prop where
  term : next.log.currentTerm = s.log.currentTerm
  entries : next.log.entries = s.log.entries
  commit : next.log.commitIndex = s.log.commitIndex
  applied : next.log.appliedIndex = s.log.appliedIndex
  covered : next.covered = s.covered

/-- A step of a write handler inserts its entry, commits, marks, or leaves all that alone. -/
theorem log_of_leaderStep {leader : Leader Op} {a : LeaderAction Op}
    (h : s.leader.step peers a = some leader) :
    SameIndices s { s with leader } ∧ InStep s (.write a) ∨
      (∃ i entry, a = .insertEntry i ∧ s.leader.handlers i = some ⟨entry, .allocated⟩ ∧
        leader.log = s.log.insertEntry entry) ∨
      (∃ i entry sent c, a = .join i ∧
        s.leader.handlers i = some ⟨entry, .joining ⟨sent, some true, some (.ok c)⟩⟩ ∧
          leader.log = s.log.commit c) ∨
      ∃ i, a = .markApplied i ∧ leader.log = s.log.markApplied i := by
  cases a with
  | accept operation timestampMs =>
    obtain rfl := Leader.step_accept h
    exact Or.inl ⟨⟨rfl, rfl, rfl, rfl, rfl⟩, trivial⟩
  | insertEntry i =>
    obtain ⟨entry, hi, rfl⟩ := Leader.step_insertEntry h
    exact Or.inr (Or.inl ⟨i, entry, rfl, hi, rfl⟩)
  | queueEntry i =>
    obtain ⟨entry, -, rfl⟩ := Leader.step_queueEntry h
    exact Or.inl ⟨⟨rfl, rfl, rfl, rfl, rfl⟩, trivial⟩
  | readEntries i =>
    obtain ⟨entry, wal, -, rfl⟩ := Leader.step_readEntries h
    exact Or.inl ⟨⟨rfl, rfl, rfl, rfl, rfl⟩, trivial⟩
  | walDone i ok =>
    obtain ⟨entry, sent, replication, -, rfl⟩ := Leader.step_walDone h
    exact Or.inl ⟨⟨rfl, rfl, rfl, rfl, rfl⟩, trivial⟩
  | replicationDone i successCount =>
    obtain ⟨entry, entries, wal, -, -, rfl⟩ := Leader.step_replicationDone h
    exact Or.inl ⟨⟨rfl, rfl, rfl, rfl, rfl⟩, trivial⟩
  | join i =>
    rcases Leader.step_join h with ⟨handler, hi, hway, rfl⟩ | ⟨entry, sent, c, hi, rfl⟩
    · refine Or.inl ⟨⟨rfl, rfl, rfl, rfl, rfl⟩, fun entry sent c hother ↦ ?_⟩
      obtain rfl := Option.some.inj (hi.symm.trans hother)
      exact absurd ⟨by simp, by simp⟩ hway
    · exact Or.inr (Or.inr (Or.inl ⟨i, entry, sent, c, rfl, hi, rfl⟩))
  | commitTimeout i =>
    obtain ⟨entry, -, -, rfl⟩ := Leader.step_commitTimeout h
    exact Or.inl ⟨⟨rfl, rfl, rfl, rfl, rfl⟩, trivial⟩
  | lockApply i =>
    obtain ⟨entry, -, -, rfl⟩ := Leader.step_lockApply h
    exact Or.inl ⟨⟨rfl, rfl, rfl, rfl, rfl⟩, trivial⟩
  | applyOperation i ok =>
    obtain ⟨entry, -, rfl⟩ := Leader.step_applyOperation h
    refine Or.inl ⟨?_, trivial⟩
    split_ifs
    · exact ⟨rfl, rfl, rfl, rfl, rfl⟩
    · exact ⟨rfl, rfl, rfl, rfl, rfl⟩
  | markApplied i =>
    obtain ⟨entry, -, rfl⟩ := Leader.step_markApplied h
    exact Or.inr (Or.inr (Or.inr ⟨i, rfl, rfl⟩))
  | drop i =>
    obtain ⟨handler, -, rfl⟩ := Leader.step_drop h
    exact Or.inl ⟨⟨rfl, rfl, rfl, rfl, rfl⟩, trivial⟩

theorem commitIndex_le_of_leaderStep {leader : Leader Op} {a : LeaderAction Op}
    (h : s.leader.step peers a = some leader) : s.log.commitIndex ≤ leader.log.commitIndex := by
  rcases log_of_leaderStep h with ⟨hsame, -⟩ | ⟨i, entry, -, -, hlog⟩ |
    ⟨i, entry, sent, c, -, -, hlog⟩ | ⟨i, -, hlog⟩
  · exact hsame.commit.ge
  · rw [hlog]
    exact le_refl s.log.commitIndex
  · rw [hlog]
    exact le_max_left s.log.commitIndex c
  · rw [hlog]
    exact le_refl s.log.commitIndex

theorem kept_holderCommitted (peers : ℕ) :
    Kept (step peers) (HolderCommitted : ClusterNode Op → Prop) := by
  intro s a next h hnext
  cases a with
  | write a =>
    obtain ⟨leader, hleader, rfl⟩ := step_write hnext
    exact h.mono rfl (commitIndex_le_of_leaderStep hleader)
  | receive request =>
    obtain rfl := Option.some.inj hnext
    exact h.mono rfl le_rfl
  | compareTerm k =>
    obtain ⟨request, ourTerm, -, rfl⟩ := step_compareTerm hnext
    unfold compareTerm
    split_ifs
    · exact h.mono rfl le_rfl
    · exact h.mono rfl le_rfl
    · exact h.mono rfl le_rfl
  | append a =>
    obtain ⟨hreceive, hcheck, follower, hfollower, rfl⟩ := step_append hnext
    cases a with
    | receive request => exact absurd rfl (hreceive request)
    | checkTerm i => exact absurd rfl (hcheck i)
    | store i =>
      obtain ⟨request, -, rfl⟩ := Follower.step_store hfollower
      exact h.mono rfl (le_max_left _ _)
    | lockApply i =>
      obtain ⟨request, -, -, rfl⟩ := Follower.step_lockApply hfollower
      rintro _ ⟨⟩
      trivial
    | loadIndices =>
      obtain ⟨request, -, rfl⟩ := Follower.step_loadIndices hfollower
      rintro _ ⟨⟩
      exact le_refl s.log.commitIndex
    | collect =>
      obtain ⟨request, applied, loaded, hholder, rfl⟩ := Follower.step_collect hfollower
      have hloaded : loaded ≤ s.log.commitIndex := h _ hholder
      rintro _ ⟨⟩ e he
      exact (ConsensusLog.index_le_of_mem_unappliedBetween he).trans hloaded
    | applyNext ok =>
      obtain ⟨request, entry, rest, hholder, rfl⟩ := Follower.step_applyNext hfollower
      have hremaining : ∀ e ∈ entry :: rest, e.index ≤ s.log.commitIndex := h _ hholder
      cases ok with
      | true =>
        rintro _ ⟨⟩
        exact hremaining
      | false => exact fun _ hnone ↦ absurd hnone (by simp [withFollower, Follower.finish])
    | mark =>
      obtain ⟨request, entry, rest, hholder, rfl⟩ := Follower.step_mark hfollower
      have hremaining : ∀ e ∈ entry :: rest, e.index ≤ s.log.commitIndex := h _ hholder
      rintro _ ⟨⟩
      exact fun e he ↦ hremaining e (List.mem_cons_of_mem _ he)
    | answer =>
      obtain ⟨request, -, rfl⟩ := Follower.step_answer hfollower
      exact fun _ hnone ↦ absurd hnone (by simp [withFollower, Follower.finish])
    | drop i =>
      obtain rfl := Follower.step_drop hfollower
      exact h.mono rfl le_rfl
  | setSnapshotTerm term lastIncludedIndex =>
    obtain rfl := Option.some.inj hnext
    exact h.mono rfl le_rfl
  | markSnapshot k =>
    obtain ⟨lastIncludedIndex, -, rfl⟩ := step_markSnapshot hnext
    exact h.mono rfl le_rfl

/-! ### One step -/

theorem lastIndex_congr {log other : ConsensusLog Op} (h : other.entries = log.entries) :
    other.lastIndex = log.lastIndex := by
  rw [ConsensusLog.lastIndex, ConsensusLog.lastIndex, h]

theorem SameIndices.quiet (h : SameIndices s next) (hs : InOrder s) :
    InOrder next ∧ Below s next := by
  refine ⟨⟨?_, ?_⟩, h.term.ge, h.commit.ge, h.applied.ge⟩
  · rw [h.applied, h.commit]
    exact hs.applied
  · rw [h.commit, h.covered, lastIndex_congr h.entries]
    exact hs.committed

/-- Inserting an entry gives the log its index as the last one, if the entry comes last. -/
theorem lastIndex_insertEntry (log : ConsensusLog Op) (entry : LogEntry Op) :
    (log.insertEntry entry).lastIndex =
      if ∃ e ∈ log.entries, entry.logId < e.logId then log.lastIndex else entry.index := by
  unfold ConsensusLog.lastIndex
  rw [ConsensusLog.insertEntry_entries, getLast?_insertByKey]
  split_ifs
  · rfl
  · rfl

theorem write_iff {a : LeaderAction Op} {leader : Leader Op} (hs : InOrder s)
    (hleader : s.leader.step peers a = some leader) :
    InOrder { s with leader } ∧ Below s { s with leader } ↔ InStep s (.write a) := by
  rcases log_of_leaderStep hleader with ⟨hsame, hquiet⟩ | ⟨i, entry, rfl, hi, hlog⟩ |
    ⟨i, entry, sent, c, rfl, hi, hlog⟩ | ⟨i, rfl, hlog⟩
  · exact iff_of_true (hsame.quiet hs) hquiet
  · have hnext : ({ s with leader } : ClusterNode Op).log = s.log.insertEntry entry := hlog
    constructor
    · intro h other hother hlast
      obtain rfl : entry = other := by simpa using hi.symm.trans hother
      have hcommitted := h.1.committed
      rw [hnext, lastIndex_insertEntry, if_neg (by simpa using hlast)] at hcommitted
      exact hcommitted
    · intro h
      refine ⟨⟨?_, ?_⟩, ?_, ?_, ?_⟩ <;> rw [hnext]
      · exact hs.applied
      · rw [lastIndex_insertEntry]
        split_ifs with hlast
        · exact hs.committed
        · exact h entry hi (by simpa using hlast)
      · exact le_refl s.log.currentTerm
      · exact le_refl s.log.commitIndex
      · exact le_refl s.log.appliedIndex
  · have hnext : ({ s with leader } : ClusterNode Op).log = s.log.commit c := hlog
    constructor
    · intro h other otherSent d hother
      obtain rfl : c = d := by
        have hsome := hi.symm.trans hother
        simp only [Option.some.injEq, WriteHandler.mk.injEq, WriteStage.joining.injEq,
          Joining.mk.injEq, Except.ok.injEq] at hsome
        exact hsome.2.2.2
      have hcommitted := h.1.committed
      rw [hnext] at hcommitted
      exact (le_max_right _ _).trans hcommitted
    · intro h
      refine ⟨⟨?_, ?_⟩, ?_, ?_, ?_⟩ <;> rw [hnext]
      · exact hs.applied.trans (le_max_left _ _)
      · exact max_le hs.committed (h entry sent c hi)
      · exact le_refl s.log.currentTerm
      · exact le_max_left _ _
      · exact le_refl s.log.appliedIndex
  · have hnext : ({ s with leader } : ClusterNode Op).log = s.log.markApplied i := hlog
    constructor
    · intro h
      have happlied := h.1.applied
      rw [hnext] at happlied
      exact (le_max_right _ _).trans happlied
    · intro h
      refine ⟨⟨?_, ?_⟩, ?_, ?_, ?_⟩ <;> rw [hnext]
      · exact max_le hs.applied h
      · exact hs.committed
      · exact le_refl s.log.currentTerm
      · exact le_refl s.log.commitIndex
      · exact le_max_left _ _

theorem append_iff {a : FollowerAction Op} {follower : Follower Op} (hinv : HolderCommitted s)
    (hs : InOrder s) (hreceive : ∀ request, a ≠ .receive request) (hcheck : ∀ i, a ≠ .checkTerm i)
    (hfollower : s.follower.step a = some follower) :
    InOrder (s.withFollower follower) ∧ Below s (s.withFollower follower) ↔
      InStep s (.append a) := by
  cases a with
  | receive request => exact absurd rfl (hreceive request)
  | checkTerm i => exact absurd rfl (hcheck i)
  | store i =>
    obtain ⟨request, hi, rfl⟩ := Follower.step_store hfollower
    constructor
    · intro h other hother
      obtain rfl : request = other := by simpa using hi.symm.trans hother
      exact h.1.committed
    · intro h
      exact ⟨⟨hs.applied.trans (le_max_left _ _), h request hi⟩, le_refl s.log.currentTerm,
        le_max_left _ _, le_refl s.log.appliedIndex⟩
  | lockApply i =>
    obtain ⟨request, -, -, rfl⟩ := Follower.step_lockApply hfollower
    exact iff_of_true (SameIndices.quiet ⟨rfl, rfl, rfl, rfl, rfl⟩ hs) trivial
  | loadIndices =>
    obtain ⟨request, -, rfl⟩ := Follower.step_loadIndices hfollower
    exact iff_of_true (SameIndices.quiet ⟨rfl, rfl, rfl, rfl, rfl⟩ hs) trivial
  | collect =>
    obtain ⟨request, applied, loaded, -, rfl⟩ := Follower.step_collect hfollower
    exact iff_of_true (SameIndices.quiet ⟨rfl, rfl, rfl, rfl, rfl⟩ hs) trivial
  | applyNext ok =>
    obtain ⟨request, entry, rest, -, rfl⟩ := Follower.step_applyNext hfollower
    refine iff_of_true (SameIndices.quiet ?_ hs) trivial
    split_ifs
    · exact ⟨rfl, rfl, rfl, rfl, rfl⟩
    · exact ⟨rfl, rfl, rfl, rfl, rfl⟩
  | mark =>
    obtain ⟨request, entry, rest, hholder, rfl⟩ := Follower.step_mark hfollower
    have hremaining : ∀ e ∈ entry :: rest, e.index ≤ s.log.commitIndex := hinv _ hholder
    refine iff_of_true ⟨⟨?_, hs.committed⟩, le_refl s.log.currentTerm,
      le_refl s.log.commitIndex, le_max_left _ _⟩ trivial
    exact max_le hs.applied (hremaining entry List.mem_cons_self)
  | answer =>
    obtain ⟨request, -, rfl⟩ := Follower.step_answer hfollower
    exact iff_of_true (SameIndices.quiet ⟨rfl, rfl, rfl, rfl, rfl⟩ hs) trivial
  | drop i =>
    obtain rfl := Follower.step_drop hfollower
    exact iff_of_true (SameIndices.quiet ⟨rfl, rfl, rfl, rfl, rfl⟩ hs) trivial

theorem compareTerm_iff {k : ℕ} {request : AppendEntriesRequest Op} {ourTerm : ℕ}
    (hs : InOrder s) (hk : s.checking[k]? = some (request, ourTerm)) :
    InOrder (s.compareTerm k request ourTerm) ∧ Below s (s.compareTerm k request ourTerm) ↔
      InStep s (.compareTerm k) := by
  have hstep : InStep s (.compareTerm k) ↔
      (ourTerm < request.term → s.log.currentTerm ≤ request.term) := by
    constructor
    · exact fun h ↦ h request ourTerm hk
    · rintro h _ _ hother
      obtain ⟨rfl, rfl⟩ := Prod.mk.inj (Option.some.inj (hk.symm.trans hother))
      exact h
  rw [hstep]
  unfold compareTerm
  split_ifs with hlt hgt
  · exact ⟨fun h _ ↦ h.2.term,
      fun h ↦ ⟨⟨hs.applied, hs.committed⟩, h hlt, le_refl s.log.commitIndex,
        le_refl s.log.appliedIndex⟩⟩
  · exact iff_of_true (SameIndices.quiet ⟨rfl, rfl, rfl, rfl, rfl⟩ hs) fun h ↦ absurd h hlt
  · exact iff_of_true (SameIndices.quiet ⟨rfl, rfl, rfl, rfl, rfl⟩ hs) fun h ↦ absurd h hlt

/-- A step keeps the indices in order and decreases nothing exactly when it stays in step. -/
theorem inStep_iff {a : ClusterNodeAction Op} (hinv : HolderCommitted s) (hs : InOrder s)
    (hnext : step peers s a = some next) :
    InOrder next ∧ NeverDecreases peers s a ↔ InStep s a := by
  have hnever : NeverDecreases peers s a ↔ Below s next := by
    constructor
    · exact fun h ↦ h next hnext
    · intro h other hother
      obtain rfl := Option.some.inj (hnext.symm.trans hother)
      exact h
  rw [hnever]
  cases a with
  | write a =>
    obtain ⟨leader, hleader, rfl⟩ := step_write hnext
    exact write_iff hs hleader
  | receive request =>
    obtain rfl := Option.some.inj hnext
    exact iff_of_true (SameIndices.quiet ⟨rfl, rfl, rfl, rfl, rfl⟩ hs) trivial
  | compareTerm k =>
    obtain ⟨request, ourTerm, hk, rfl⟩ := step_compareTerm hnext
    exact compareTerm_iff hs hk
  | append a =>
    obtain ⟨hreceive, hcheck, follower, hfollower, rfl⟩ := step_append hnext
    exact append_iff hinv hs hreceive hcheck hfollower
  | setSnapshotTerm term lastIncludedIndex =>
    obtain rfl := Option.some.inj hnext
    exact ⟨fun h ↦ h.2.term, fun h ↦ ⟨⟨hs.applied, hs.committed⟩, h,
      le_refl s.log.commitIndex, le_refl s.log.appliedIndex⟩⟩
  | markSnapshot k =>
    obtain ⟨lastIncludedIndex, hk, rfl⟩ := step_markSnapshot hnext
    constructor
    · intro h other hother
      obtain rfl := Option.some.inj (hk.symm.trans hother)
      exact (le_max_right _ _).trans h.1.applied
    · intro h
      refine ⟨⟨max_le hs.applied (h _ hk), ?_⟩, le_refl s.log.currentTerm,
        le_refl s.log.commitIndex, le_max_left _ _⟩
      exact hs.committed.trans (max_le_max le_rfl (le_max_left _ _))

theorem inOrder_start (term : ℕ) : InOrder (start term : ClusterNode Op) where
  applied := le_rfl
  committed := Nat.zero_le _

end Step

end ClusterNode

/-! ### Every run -/

/-- In a run of a node the indices stay in order and nothing decreases exactly when each step of the
run stays in step. -/
theorem inOrder_and_neverDecreases_iff_inStep (peers term : ℕ)
    (actions : List (ClusterNodeAction Op)) :
    Always (ClusterNode.step peers) ClusterNode.InOrder (ClusterNode.start term) actions ∧
        EachStep (ClusterNode.step peers) (ClusterNode.NeverDecreases peers)
          (ClusterNode.start term) actions ↔
      EachStep (ClusterNode.step peers) ClusterNode.InStep (ClusterNode.start term) actions :=
  always_and_eachStep_iff (ClusterNode.kept_holderCommitted peers)
    (fun _ _ _ hinv hs hnext ↦ ClusterNode.inStep_iff hinv hs hnext)
    (ClusterNode.holderCommitted_start term) (ClusterNode.inOrder_start term) actions

/-- A node that has taken over term 2 from a leader installs a snapshot of term 1, and is in term 1
again. -/
theorem snapshot_lowers_term :
    ¬ ∀ actions : List (ClusterNodeAction CrudOperation),
      Always (ClusterNode.step 2) ClusterNode.InOrder (ClusterNode.start 1) actions ∧
        EachStep (ClusterNode.step 2) (ClusterNode.NeverDecreases 2) (ClusterNode.start 1)
          actions := by
  intro h
  obtain ⟨-, hsteps⟩ := h [.receive ⟨2, 0, 0, 0, [], 0⟩, .compareTerm 0, .setSnapshotTerm 1 0]
  have hbelow := (((hsteps _ rfl).2 _ rfl).2 _ rfl).1 _ rfl
  exact absurd hbelow.term (by decide)

end Lithair.App
