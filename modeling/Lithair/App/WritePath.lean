import Lithair.Cluster.CrudOperation
import Lithair.Lib.Run

/-!
# The leader's write path

The consensus branch of `handle_model_request` in `app/mod.rs`, for any number of write handlers at
once. A handler appends its operation to the consensus log in two halves, queues the entry for the
batcher, waits for its WAL write and for its replication together, commits what the replication
returned, waits until the entry before its own is applied, takes the apply mutex, applies its
operation and marks the index. It can be dropped at any point where it waits.

An entry is applied by its own handler and by nobody else, and only when the entry before it is
marked, so what has been applied is always a prefix of the log in index order
(`Leader.Inv.appliedInOrder`). Nothing makes sure that the handler of a committed entry is still
there: a commit covers every index up to the one it names, also those whose handlers have failed or
gone. `inOrder_and_noOrphan_iff_keepsHandlers` says which runs stay clear of that.
-/

namespace Lithair.App

open Lithair.Cluster Lithair.Lib.OrderedList Lithair.Lib.Run

variable {Op : Type*}

/-! ### Replication to the followers -/

/-- The index of the last entry, or the given index when there is none. -/
def lastIndexOr (entries : List (LogEntry Op)) (index : ℕ) : ℕ :=
  (entries.getLast?.map fun e ↦ e.logId.index).getD index

/-- In a list with increasing indices the last index is the greatest. -/
theorem index_le_lastIndexOr {entries : List (LogEntry Op)}
    (hsorted : StrictSortedBy LogEntry.index entries) {e : LogEntry Op} (he : e ∈ entries)
    (index : ℕ) : e.index ≤ lastIndexOr entries index := by
  rcases List.eq_nil_or_concat entries with rfl | ⟨front, last, rfl⟩
  · exact absurd he List.not_mem_nil
  · rw [List.concat_eq_append] at hsorted he ⊢
    have hlast : lastIndexOr (front ++ [last]) index = last.index := by
      simp [lastIndexOr, LogEntry.index]
    rw [hlast]
    rcases List.mem_append.mp he with he | he
    · exact ((List.pairwise_append.mp hsorted).2.2 e he last List.mem_cons_self).le
    · rw [List.mem_singleton.mp he]

/-- The number of nodes that make a majority of a leader with `peers` followers. -/
def majority (peers : ℕ) : ℕ := (peers + 1) / 2 + 1

/-- The result of sending the entries to the followers, given how many of them answered with
success before the deadline. -/
def replicateLogEntriesToFollowers (peers : ℕ) (entries : List (LogEntry Op)) (leaderCommit : ℕ)
    (successCount : ℕ) : Except String ℕ :=
  if peers = 0 then .ok leaderCommit
  else if majority peers - 1 = 0 then .ok (lastIndexOr entries leaderCommit)
  else if majority peers - 1 ≤ successCount then .ok (lastIndexOr entries leaderCommit)
  else .error (s!"Failed to reach majority: {successCount + 1} of {peers + 1} nodes " ++
    s!"responded successfully (need {majority peers})")

/-- The calls to followers that succeed in returning an index reached a majority, and return the
index of the last entry sent or, in a cluster of one node, the index asked for. -/
theorem replicateLogEntriesToFollowers_eq_ok {peers leaderCommit successCount c : ℕ}
    {entries : List (LogEntry Op)}
    (h : replicateLogEntriesToFollowers peers entries leaderCommit successCount = .ok c) :
    (peers = 0 ∨ majority peers ≤ successCount + 1) ∧
      (c = leaderCommit ∨ c = lastIndexOr entries leaderCommit) := by
  unfold replicateLogEntriesToFollowers at h
  split_ifs at h with hpeers hneeded hcount
  · exact ⟨Or.inl hpeers, Or.inl (Except.ok.inj h).symm⟩
  · exact ⟨Or.inr (by omega), Or.inr (Except.ok.inj h).symm⟩
  · exact ⟨Or.inr (by omega), Or.inr (Except.ok.inj h).symm⟩

/-- With a majority the call does not fail. -/
theorem replicateLogEntriesToFollowers_ne_error {peers leaderCommit successCount : ℕ}
    {entries : List (LogEntry Op)} (h : peers = 0 ∨ majority peers ≤ successCount + 1)
    (e : String) :
    replicateLogEntriesToFollowers peers entries leaderCommit successCount ≠ .error e := by
  unfold replicateLogEntriesToFollowers
  split_ifs with hpeers _ hcount
  · simp
  · simp
  · simp
  · exact absurd h (by omega)

/-! ### The handlers -/

/-- The two futures a handler joins: what its replication has read from the log and sent, the
result of its WAL write and the result of its replication. -/
structure Joining (Op : Type*) where
  sent : Option (List (LogEntry Op))
  wal : Option Bool
  replication : Option (Except String ℕ)

/-- How far a write handler has come. -/
inductive WriteStage (Op : Type*)
  | allocated
  | appended
  | joining (futures : Joining Op)
  | committed
  | locked
  | applied

/-- A write handler with the entry that was created for its operation. -/
structure WriteHandler (Op : Type*) where
  entry : LogEntry Op
  stage : WriteStage Op

/-- The leader: its log, the write handlers in flight under the index of their entry, the holder of
the apply mutex, the entries queued for the batcher, and the entries applied to its models. -/
structure Leader (Op : Type*) where
  log : ConsensusLog Op
  handlers : ℕ → Option (WriteHandler Op)
  applyLock : Option ℕ
  immediateBatch : List (LogEntry Op)
  applied : List (LogEntry Op)

/-- What can happen on the leader. A handler's index names it; `ok` and `successCount` are the
environment's answers. -/
inductive LeaderAction (Op : Type*)
  | accept (operation : Op) (timestampMs : ℕ)
  | insertEntry (i : ℕ)
  | queueEntry (i : ℕ)
  | readEntries (i : ℕ)
  | walDone (i : ℕ) (ok : Bool)
  | replicationDone (i successCount : ℕ)
  | join (i : ℕ)
  | commitTimeout (i : ℕ)
  | lockApply (i : ℕ)
  | applyOperation (i : ℕ) (ok : Bool)
  | markApplied (i : ℕ)
  | drop (i : ℕ)

/-- A handler that has not failed in its WAL write or its replication: left alone, it goes on to
apply its entry. -/
def WriteHandler.OnItsWay (h : WriteHandler Op) : Prop :=
  match h.stage with
  | .joining futures => futures.wal ≠ some false ∧ ∀ e, futures.replication ≠ some (.error e)
  | _ => True

/-- The handler's replication has returned an index. -/
def WriteHandler.Replicated (h : WriteHandler Op) : Prop :=
  match h.stage with
  | .allocated | .appended => False
  | .joining futures => ∃ c, futures.replication = some (.ok c)
  | .committed | .locked | .applied => True

namespace Leader

/-- A leader at the start of its term. -/
def start (term : ℕ) : Leader Op where
  log := { ConsensusLog.new with currentTerm := term }
  handlers := fun _ ↦ none
  applyLock := none
  immediateBatch := []
  applied := []

/-- The handler of index `i` goes on with another stage. -/
def setStage (s : Leader Op) (i : ℕ) (entry : LogEntry Op) (stage : WriteStage Op) : Leader Op :=
  { s with handlers := Function.update s.handlers i (some ⟨entry, stage⟩) }

/-- The handler of index `i` is gone, and with it the mutex guard it may have held. -/
def leave (s : Leader Op) (i : ℕ) : Leader Op :=
  { s with
    handlers := Function.update s.handlers i none
    applyLock := if s.applyLock = some i then none else s.applyLock }

def step (peers : ℕ) (s : Leader Op) : LeaderAction Op → Option (Leader Op)
  | .accept operation timestampMs =>
    let (log, entry) := s.log.allocate operation timestampMs
    some ({ s with log }.setStage entry.index entry .allocated)
  | .insertEntry i =>
    match s.handlers i with
    | some ⟨entry, .allocated⟩ =>
      some ({ s with log := s.log.insertEntry entry }.setStage i entry .appended)
    | _ => none
  | .queueEntry i =>
    match s.handlers i with
    | some ⟨entry, .appended⟩ =>
      some ({ s with immediateBatch := s.immediateBatch ++ [entry] }.setStage i entry
        (.joining ⟨none, none, none⟩))
    | _ => none
  | .readEntries i =>
    match s.handlers i with
    | some ⟨entry, .joining ⟨none, wal, none⟩⟩ =>
      let entriesToSend := s.log.getEntriesFrom 1
      some (s.setStage i entry (.joining ⟨some entriesToSend, wal,
        if entriesToSend.isEmpty then some (.ok i) else none⟩))
    | _ => none
  | .walDone i ok =>
    match s.handlers i with
    | some ⟨entry, .joining ⟨sent, none, replication⟩⟩ =>
      some (s.setStage i entry (.joining ⟨sent, some ok, replication⟩))
    | _ => none
  | .replicationDone i successCount =>
    match s.handlers i with
    | some ⟨entry, .joining ⟨some entries, wal, none⟩⟩ =>
      if successCount ≤ peers then
        some (s.setStage i entry (.joining ⟨some entries, wal,
          some (replicateLogEntriesToFollowers peers entries i successCount)⟩))
      else none
    | _ => none
  | .join i =>
    match s.handlers i with
    | some ⟨_, .joining ⟨_, some false, some _⟩⟩ => some (s.leave i)
    | some ⟨_, .joining ⟨_, some true, some (.error _)⟩⟩ => some (s.leave i)
    | some ⟨entry, .joining ⟨_, some true, some (.ok newCommitIndex)⟩⟩ =>
      some ({ s with log := s.log.commit newCommitIndex }.setStage i entry .committed)
    | _ => none
  | .commitTimeout i =>
    match s.handlers i with
    | some ⟨_, .committed⟩ => if s.log.commitIndex < i - 1 then some (s.leave i) else none
    | _ => none
  | .lockApply i =>
    match s.handlers i with
    | some ⟨entry, .committed⟩ =>
      if i - 1 ≤ s.log.commitIndex ∧ i - 1 ≤ s.log.appliedIndex ∧ s.applyLock = none then
        some ({ s with applyLock := some i }.setStage i entry .locked)
      else none
    | _ => none
  | .applyOperation i ok =>
    match s.handlers i with
    | some ⟨entry, .locked⟩ =>
      if ok then some ({ s with applied := s.applied ++ [entry] }.setStage i entry .applied)
      else some (s.leave i)
    | _ => none
  | .markApplied i =>
    match s.handlers i with
    | some ⟨_, .applied⟩ => some ({ s with log := s.log.markApplied i }.leave i)
    | _ => none
  | .drop i =>
    match s.handlers i with
    | some _ => some (s.leave i)
    | none => none

/-! ### What each action does -/

section Step

variable {peers : ℕ} {s next : Leader Op} {i : ℕ}

theorem step_accept {operation : Op} {timestampMs : ℕ}
    (h : step peers s (.accept operation timestampMs) = some next) :
    next = ({ s with log := (s.log.allocate operation timestampMs).1 }).setStage
      s.log.nextIndex (s.log.allocate operation timestampMs).2 .allocated :=
  (Option.some.inj h).symm

theorem step_insertEntry (h : step peers s (.insertEntry i) = some next) :
    ∃ entry, s.handlers i = some ⟨entry, .allocated⟩ ∧
      next = ({ s with log := s.log.insertEntry entry }).setStage i entry .appended := by
  unfold step at h
  simp only at h
  split at h
  · next entry hi => exact ⟨entry, hi, (Option.some.inj h).symm⟩
  · exact absurd h (by simp)

theorem step_queueEntry (h : step peers s (.queueEntry i) = some next) :
    ∃ entry, s.handlers i = some ⟨entry, .appended⟩ ∧
      next = ({ s with immediateBatch := s.immediateBatch ++ [entry] }).setStage i entry
        (.joining ⟨none, none, none⟩) := by
  unfold step at h
  simp only at h
  split at h
  · next entry hi => exact ⟨entry, hi, (Option.some.inj h).symm⟩
  · exact absurd h (by simp)

theorem step_readEntries (h : step peers s (.readEntries i) = some next) :
    ∃ entry wal, s.handlers i = some ⟨entry, .joining ⟨none, wal, none⟩⟩ ∧
      next = s.setStage i entry (.joining ⟨some (s.log.getEntriesFrom 1), wal,
        if (s.log.getEntriesFrom 1).isEmpty then some (.ok i) else none⟩) := by
  unfold step at h
  simp only at h
  split at h
  · next entry wal hi => exact ⟨entry, wal, hi, (Option.some.inj h).symm⟩
  · exact absurd h (by simp)

theorem step_walDone {ok : Bool} (h : step peers s (.walDone i ok) = some next) :
    ∃ entry sent replication, s.handlers i = some ⟨entry, .joining ⟨sent, none, replication⟩⟩ ∧
      next = s.setStage i entry (.joining ⟨sent, some ok, replication⟩) := by
  unfold step at h
  simp only at h
  split at h
  · next entry sent replication hi =>
    exact ⟨entry, sent, replication, hi, (Option.some.inj h).symm⟩
  · exact absurd h (by simp)

theorem step_replicationDone {successCount : ℕ}
    (h : step peers s (.replicationDone i successCount) = some next) :
    ∃ entry entries wal, s.handlers i = some ⟨entry, .joining ⟨some entries, wal, none⟩⟩ ∧
      successCount ≤ peers ∧
      next = s.setStage i entry (.joining ⟨some entries, wal,
        some (replicateLogEntriesToFollowers peers entries i successCount)⟩) := by
  unfold step at h
  simp only at h
  split at h
  · next entry entries wal hi =>
    split_ifs at h with hcount
    exact ⟨entry, entries, wal, hi, hcount, (Option.some.inj h).symm⟩
  · exact absurd h (by simp)

/-- A handler whose two futures are done either leaves, because one of them failed, or commits what
its replication returned. -/
theorem step_join (h : step peers s (.join i) = some next) :
    (∃ handler, s.handlers i = some handler ∧ ¬ handler.OnItsWay ∧ next = s.leave i) ∨
      ∃ entry sent newCommitIndex,
        s.handlers i = some ⟨entry, .joining ⟨sent, some true, some (.ok newCommitIndex)⟩⟩ ∧
          next = ({ s with log := s.log.commit newCommitIndex }).setStage i entry .committed := by
  unfold step at h
  simp only at h
  split at h
  · next hi => exact Or.inl ⟨_, hi, fun hway ↦ hway.1 rfl, (Option.some.inj h).symm⟩
  · next hi => exact Or.inl ⟨_, hi, fun hway ↦ hway.2 _ rfl, (Option.some.inj h).symm⟩
  · next entry sent newCommitIndex hi =>
    exact Or.inr ⟨entry, sent, newCommitIndex, hi, (Option.some.inj h).symm⟩
  · exact absurd h (by simp)

theorem step_commitTimeout (h : step peers s (.commitTimeout i) = some next) :
    ∃ entry, s.handlers i = some ⟨entry, .committed⟩ ∧ s.log.commitIndex < i - 1 ∧
      next = s.leave i := by
  unfold step at h
  simp only at h
  split at h
  · next entry hi =>
    split_ifs at h with hlt
    exact ⟨entry, hi, hlt, (Option.some.inj h).symm⟩
  · exact absurd h (by simp)

theorem step_lockApply (h : step peers s (.lockApply i) = some next) :
    ∃ entry, s.handlers i = some ⟨entry, .committed⟩ ∧ i - 1 ≤ s.log.appliedIndex ∧
      next = ({ s with applyLock := some i }).setStage i entry .locked := by
  unfold step at h
  simp only at h
  split at h
  · next entry hi =>
    split_ifs at h with hready
    exact ⟨entry, hi, hready.2.1, (Option.some.inj h).symm⟩
  · exact absurd h (by simp)

theorem step_applyOperation {ok : Bool} (h : step peers s (.applyOperation i ok) = some next) :
    ∃ entry, s.handlers i = some ⟨entry, .locked⟩ ∧
      next = if ok then ({ s with applied := s.applied ++ [entry] }).setStage i entry .applied
        else s.leave i := by
  unfold step at h
  simp only at h
  split at h
  · next entry hi =>
    refine ⟨entry, hi, ?_⟩
    split_ifs at h ⊢ <;> exact (Option.some.inj h).symm
  · exact absurd h (by simp)

theorem step_markApplied (h : step peers s (.markApplied i) = some next) :
    ∃ entry, s.handlers i = some ⟨entry, .applied⟩ ∧
      next = ({ s with log := s.log.markApplied i }).leave i := by
  unfold step at h
  simp only at h
  split at h
  · next entry hi => exact ⟨entry, hi, (Option.some.inj h).symm⟩
  · exact absurd h (by simp)

theorem step_drop (h : step peers s (.drop i) = some next) :
    ∃ handler, s.handlers i = some handler ∧ next = s.leave i := by
  unfold step at h
  simp only at h
  split at h
  · next handler hi => exact ⟨handler, hi, (Option.some.inj h).symm⟩
  · exact absurd h (by simp)

/-! ### What every action does -/

/-- A step leaves the log as it is or inserts the entry of a handler, and the entries to be inserted
later are those from before and one with the next index. -/
structure LogGrows (s next : Leader Op) : Prop where
  entries : next.log.entries = s.log.entries ∨ ∃ i e, s.handlers i = some ⟨e, .allocated⟩ ∧
    next.log.entries = insertByKey LogEntry.logId e s.log.entries
  nextIndex : s.log.nextIndex ≤ next.log.nextIndex
  allocated : ∀ i e, next.handlers i = some ⟨e, .allocated⟩ →
    s.handlers i = some ⟨e, .allocated⟩ ∨ e.index = s.log.nextIndex

/-- A step lets the log grow, and applies the entry of a handler or nothing. -/
structure StepGrows (s : Leader Op) (a : LeaderAction Op) (next : Leader Op) : Prop where
  log : LogGrows s next
  applied : (∃ i entry, a = .applyOperation i true ∧ s.handlers i = some ⟨entry, .locked⟩ ∧
      next.applied = s.applied ++ [entry]) ∨
    (∀ i, a ≠ .applyOperation i true) ∧ next.applied = s.applied

theorem allocated_of_update {handlers : ℕ → Option (WriteHandler Op)}
    {new : Option (WriteHandler Op)} (hnew : ∀ e, new ≠ some ⟨e, .allocated⟩) {j : ℕ}
    {e : LogEntry Op} (h : Function.update handlers i new j = some ⟨e, .allocated⟩) :
    handlers j = some ⟨e, .allocated⟩ := by
  rcases update_eq_some_iff.mp h with ⟨-, heq⟩ | ⟨-, hold⟩
  · exact absurd heq (hnew e)
  · exact hold

theorem LogGrows.update {new : Option (WriteHandler Op)}
    (hentries : next.log.entries = s.log.entries) (hnext : next.log.nextIndex = s.log.nextIndex)
    (hhandlers : next.handlers = Function.update s.handlers i new)
    (hnew : ∀ e, new ≠ some ⟨e, .allocated⟩) : LogGrows s next where
  entries := Or.inl hentries
  nextIndex := hnext.ge
  allocated := by
    intro j e hj
    rw [hhandlers] at hj
    exact Or.inl (allocated_of_update hnew hj)

theorem stepGrows {a : LeaderAction Op} (h : step peers s a = some next) :
    StepGrows s a next := by
  cases a with
  | accept operation timestampMs =>
    obtain rfl := step_accept h
    refine ⟨⟨Or.inl rfl, Nat.le_succ _, ?_⟩, Or.inr ⟨by simp, rfl⟩⟩
    intro i e hi
    rcases update_eq_some_iff.mp hi with ⟨-, hnew⟩ | ⟨-, hold⟩
    · rw [Option.some.injEq, WriteHandler.mk.injEq] at hnew
      exact Or.inr (hnew.1 ▸ ConsensusLog.allocate_index _ _ _)
    · exact Or.inl hold
  | insertEntry i =>
    obtain ⟨entry, hi, rfl⟩ := step_insertEntry h
    refine ⟨⟨Or.inr ⟨i, entry, hi, rfl⟩, le_rfl, fun j e hj ↦ Or.inl ?_⟩, Or.inr ⟨by simp, rfl⟩⟩
    exact allocated_of_update (by simp) hj
  | queueEntry i =>
    obtain ⟨entry, -, rfl⟩ := step_queueEntry h
    exact ⟨.update rfl rfl rfl (by simp), Or.inr ⟨by simp, rfl⟩⟩
  | readEntries i =>
    obtain ⟨entry, wal, -, rfl⟩ := step_readEntries h
    exact ⟨.update rfl rfl rfl (by simp), Or.inr ⟨by simp, rfl⟩⟩
  | walDone i ok =>
    obtain ⟨entry, sent, replication, -, rfl⟩ := step_walDone h
    exact ⟨.update rfl rfl rfl (by simp), Or.inr ⟨by simp, rfl⟩⟩
  | replicationDone i successCount =>
    obtain ⟨entry, entries, wal, -, -, rfl⟩ := step_replicationDone h
    exact ⟨.update rfl rfl rfl (by simp), Or.inr ⟨by simp, rfl⟩⟩
  | join i =>
    rcases step_join h with ⟨_, -, -, rfl⟩ | ⟨entry, sent, c, -, rfl⟩
    · exact ⟨.update rfl rfl rfl (by simp), Or.inr ⟨by simp, rfl⟩⟩
    · exact ⟨.update rfl rfl rfl (by simp), Or.inr ⟨by simp, rfl⟩⟩
  | commitTimeout i =>
    obtain ⟨entry, -, -, rfl⟩ := step_commitTimeout h
    exact ⟨.update rfl rfl rfl (by simp), Or.inr ⟨by simp, rfl⟩⟩
  | lockApply i =>
    obtain ⟨entry, -, -, rfl⟩ := step_lockApply h
    exact ⟨.update rfl rfl rfl (by simp), Or.inr ⟨by simp, rfl⟩⟩
  | applyOperation i ok =>
    obtain ⟨entry, hi, rfl⟩ := step_applyOperation h
    cases ok with
    | true => exact ⟨.update rfl rfl rfl (by simp), Or.inl ⟨i, entry, rfl, hi, rfl⟩⟩
    | false => exact ⟨.update rfl rfl rfl (by simp), Or.inr ⟨by simp, rfl⟩⟩
  | markApplied i =>
    obtain ⟨entry, -, rfl⟩ := step_markApplied h
    exact ⟨.update rfl rfl rfl (by simp), Or.inr ⟨by simp, rfl⟩⟩
  | drop i =>
    obtain ⟨handler, -, rfl⟩ := step_drop h
    exact ⟨.update rfl rfl rfl (by simp), Or.inr ⟨by simp, rfl⟩⟩

/-- Only a new operation is given an index. -/
theorem nextIndex_of_step {a : LeaderAction Op}
    (ha : ∀ operation timestampMs, a ≠ .accept operation timestampMs)
    (h : step peers s a = some next) : next.log.nextIndex = s.log.nextIndex := by
  cases a with
  | accept operation timestampMs => exact absurd rfl (ha operation timestampMs)
  | insertEntry i =>
    obtain ⟨entry, -, rfl⟩ := step_insertEntry h
    rfl
  | queueEntry i =>
    obtain ⟨entry, -, rfl⟩ := step_queueEntry h
    rfl
  | readEntries i =>
    obtain ⟨entry, wal, -, rfl⟩ := step_readEntries h
    rfl
  | walDone i ok =>
    obtain ⟨entry, sent, replication, -, rfl⟩ := step_walDone h
    rfl
  | replicationDone i successCount =>
    obtain ⟨entry, entries, wal, -, -, rfl⟩ := step_replicationDone h
    rfl
  | join i =>
    rcases step_join h with ⟨_, -, -, rfl⟩ | ⟨entry, sent, c, -, rfl⟩
    · rfl
    · rfl
  | commitTimeout i =>
    obtain ⟨entry, -, -, rfl⟩ := step_commitTimeout h
    rfl
  | lockApply i =>
    obtain ⟨entry, -, -, rfl⟩ := step_lockApply h
    rfl
  | applyOperation i ok =>
    obtain ⟨entry, -, rfl⟩ := step_applyOperation h
    split_ifs
    · rfl
    · rfl
  | markApplied i =>
    obtain ⟨entry, -, rfl⟩ := step_markApplied h
    rfl
  | drop i =>
    obtain ⟨handler, -, rfl⟩ := step_drop h
    rfl

/-- A step only adds entries to the log. -/
theorem mem_entries_of_step {a : LeaderAction Op} (h : step peers s a = some next)
    {e : LogEntry Op} (he : e ∈ s.log.entries) : e ∈ next.log.entries := by
  rcases (stepGrows h).log.entries with hsame | ⟨_, entry, -, hinsert⟩
  · exact hsame ▸ he
  · rw [hinsert]
    exact mem_insertByKey.mpr (Or.inr he)

end Step

/-! ### What the write path is meant to satisfy -/

/-- The applied entries are the first entries of the log, numbered `1, 2, …`. -/
structure AppliedInOrder (s : Leader Op) : Prop where
  numbered : NumberedFrom LogEntry.index 1 s.applied
  isPrefix : s.applied <+: s.log.entries

/-- Every committed index that is not marked as applied has a handler on its way to apply it. -/
def NoOrphan (s : Leader Op) : Prop :=
  ∀ i, s.log.appliedIndex < i → i ≤ s.log.commitIndex → ∃ h ∈ s.handlers i, h.OnItsWay

/-- A step that ends the way of a handler finds its index uncommitted, and a commit passes no index
whose handler is not on its way. -/
def KeepsHandlers (peers : ℕ) (s : Leader Op) : LeaderAction Op → Prop
  | .drop i | .walDone i false | .applyOperation i false => s.log.commitIndex < i
  | .replicationDone i successCount =>
    majority peers ≤ successCount + 1 ∨ peers = 0 ∨ s.log.commitIndex < i
  | .join i =>
    ∀ entry sent newCommitIndex,
      s.handlers i = some ⟨entry, .joining ⟨sent, some true, some (.ok newCommitIndex)⟩⟩ →
        ∀ j, s.log.commitIndex < j → j ≤ newCommitIndex → ∃ h ∈ s.handlers j, h.OnItsWay
  | _ => True

/-! ### What every run keeps -/

/-- What the two futures of a handler know: what was read from the log is part of it and holds the
handler's own entry, and a successful replication returns an index at or after it. -/
structure JoiningOk (log : ConsensusLog Op) (entry : LogEntry Op) (futures : Joining Op) :
    Prop where
  sorted : ∀ entries ∈ futures.sent, StrictSortedBy LogEntry.index entries
  held : ∀ entries ∈ futures.sent, ∀ e ∈ entries, e ∈ log.entries
  own : ∀ entries ∈ futures.sent, entry ∈ entries
  le : ∀ c, futures.replication = some (.ok c) → entry.index ≤ c

/-- What a handler's stage says about the log and about what is applied. -/
def StageOk (s : Leader Op) (entry : LogEntry Op) : WriteStage Op → Prop
  | .allocated =>
    (∀ e ∈ s.log.entries, e.index ≠ entry.index) ∧ s.applied.length < entry.index
  | .appended => entry ∈ s.log.entries ∧ s.applied.length < entry.index
  | .joining futures =>
    entry ∈ s.log.entries ∧ s.applied.length < entry.index ∧ JoiningOk s.log entry futures
  | .committed =>
    entry ∈ s.log.entries ∧ s.applied.length < entry.index ∧ entry.index ≤ s.log.commitIndex
  | .locked =>
    entry ∈ s.log.entries ∧ entry.index = s.applied.length + 1 ∧
      entry.index = s.log.appliedIndex + 1 ∧ entry.index ≤ s.log.commitIndex
  | .applied =>
    entry ∈ s.log.entries ∧ entry.index = s.applied.length ∧ entry.index ≤ s.log.commitIndex

/-- A handler in flight under index `i` holds the entry with that index, which is not marked. -/
structure HandlerOk (s : Leader Op) (i : ℕ) (h : WriteHandler Op) : Prop where
  index : h.entry.index = i
  term : h.entry.logId.term = s.log.currentTerm
  pos : 1 ≤ i
  lt_next : i < s.log.nextIndex
  not_marked : s.log.appliedIndex < i
  stage : StageOk s h.entry h.stage

/-- The invariant of the write path. -/
structure Inv (s : Leader Op) : Prop where
  sorted : StrictSortedBy LogEntry.logId s.log.entries
  term : ∀ e ∈ s.log.entries, e.logId.term = s.log.currentTerm
  pos : ∀ e ∈ s.log.entries, 1 ≤ e.index
  lt_next : ∀ e ∈ s.log.entries, e.index < s.log.nextIndex
  next_pos : 1 ≤ s.log.nextIndex
  handlers : ∀ i h, s.handlers i = some h → HandlerOk s i h
  numbered : NumberedFrom LogEntry.index 1 s.applied
  held : ∀ e ∈ s.applied, e ∈ s.log.entries
  marked_le : s.log.appliedIndex ≤ s.applied.length
  committed : s.applied.length ≤ s.log.commitIndex
  batch : ∀ e ∈ s.immediateBatch, e ∈ s.log.entries

theorem inv_start (term : ℕ) : Inv (start term : Leader Op) where
  sorted := List.Pairwise.nil
  term := by simp [start, ConsensusLog.new]
  pos := by simp [start, ConsensusLog.new]
  lt_next := by simp [start, ConsensusLog.new]
  next_pos := le_rfl
  handlers := by simp [start]
  numbered := trivial
  held := by simp [start]
  marked_le := le_rfl
  committed := le_rfl
  batch := by simp [start]

/-- Entries of one term that are in order of identifier are in order of index. -/
theorem Inv.sortedByIndex {s : Leader Op} (h : Inv s) :
    StrictSortedBy LogEntry.index s.log.entries := by
  refine List.Pairwise.imp_of_mem ?_ h.sorted
  intro a b ha hb hlt
  exact (LogId.lt_iff_index_lt ((h.term a ha).trans (h.term b hb).symm)).mp hlt

theorem Inv.appliedInOrder {s : Leader Op} (h : Inv s) : AppliedInOrder s where
  numbered := h.numbered
  isPrefix := h.numbered.prefix h.sortedByIndex h.pos h.held

/-- Every index applied so far has been given out. -/
theorem Inv.length_applied_lt {s : Leader Op} (h : Inv s) :
    s.applied.length < s.log.nextIndex := by
  by_contra hle
  have hpos := h.next_pos
  obtain ⟨e, he, hindex⟩ := h.numbered.exists_mem (i := s.applied.length) (by omega) (by omega)
  have hlt := h.lt_next e (h.held e he)
  omega

/-- A property of all handlers after the one of index `i` was replaced. -/
theorem forall_update {P : ℕ → WriteHandler Op → Prop}
    {handlers : ℕ → Option (WriteHandler Op)} {i : ℕ} {new : Option (WriteHandler Op)}
    (hothers : ∀ j h, j ≠ i → handlers j = some h → P j h) (hnew : ∀ h ∈ new, P i h) :
    ∀ j h, Function.update handlers i new j = some h → P j h := by
  intro j h hj
  rcases update_eq_some_iff.mp hj with ⟨rfl, heq⟩ | ⟨hji, hold⟩
  · exact hnew h heq
  · exact hothers j h hji hold

/-- A handler is not disturbed by steps that only let the log grow beside it. -/
theorem HandlerOk.mono {s t : Leader Op} {i : ℕ} {h : WriteHandler Op} (hok : HandlerOk s i h)
    (hterm : t.log.currentTerm = s.log.currentTerm) (hnext : s.log.nextIndex ≤ t.log.nextIndex)
    (hcommit : s.log.commitIndex ≤ t.log.commitIndex)
    (hmarked : t.log.appliedIndex = s.log.appliedIndex) (happlied : t.applied = s.applied)
    (hentries : ∀ e ∈ s.log.entries, e ∈ t.log.entries)
    (hnew : ∀ e ∈ t.log.entries, e ∈ s.log.entries ∨ e.index ≠ i) : HandlerOk t i h where
  index := hok.index
  term := hok.term.trans hterm.symm
  pos := hok.pos
  lt_next := hok.lt_next.trans_le hnext
  not_marked := hmarked ▸ hok.not_marked
  stage := by
    obtain ⟨entry, stage⟩ := h
    have hstage := hok.stage
    have hindex : entry.index = i := hok.index
    cases stage with
    | allocated =>
      refine ⟨fun e he ↦ ?_, happlied ▸ hstage.2⟩
      rcases hnew e he with he | he
      · exact hstage.1 e he
      · exact hindex ▸ he
    | appended => exact ⟨hentries _ hstage.1, happlied ▸ hstage.2⟩
    | joining futures =>
      refine ⟨hentries _ hstage.1, happlied ▸ hstage.2.1, hstage.2.2.sorted, ?_, hstage.2.2.own,
        hstage.2.2.le⟩
      exact fun entries hsent e he ↦ hentries e (hstage.2.2.held entries hsent e he)
    | committed => exact ⟨hentries _ hstage.1, happlied ▸ hstage.2.1, hstage.2.2.trans hcommit⟩
    | locked =>
      refine ⟨hentries _ hstage.1, happlied ▸ hstage.2.1, ?_, hstage.2.2.2.trans hcommit⟩
      rw [hmarked]
      exact hstage.2.2.1
    | applied => exact ⟨hentries _ hstage.1, happlied ▸ hstage.2.1, hstage.2.2.trans hcommit⟩

/-- Nothing beyond the entry of a handler in flight is applied. -/
theorem HandlerOk.length_applied_le {s : Leader Op} {i : ℕ} {h : WriteHandler Op}
    (hok : HandlerOk s i h) : s.applied.length ≤ i := by
  obtain ⟨entry, stage⟩ := h
  have hstage : StageOk s entry stage := hok.stage
  rw [← hok.index]
  change s.applied.length ≤ entry.index
  cases stage with
  | allocated => exact hstage.2.le
  | appended => exact hstage.2.le
  | joining futures => exact hstage.2.1.le
  | committed => exact hstage.2.1.le
  | locked => exact hstage.2.1 ▸ Nat.le_succ _
  | applied => exact hstage.2.1.ge

/-- The mutex plays no part, and the batch may take in entries of the log. -/
theorem Inv.congr {s t : Leader Op} (h : Inv s) (hlog : t.log = s.log)
    (hhandlers : t.handlers = s.handlers) (happlied : t.applied = s.applied)
    (hbatch : ∀ e ∈ t.immediateBatch, e ∈ s.log.entries) : Inv t where
  sorted := hlog ▸ h.sorted
  term := hlog ▸ h.term
  pos := hlog ▸ h.pos
  lt_next := hlog ▸ h.lt_next
  next_pos := hlog ▸ h.next_pos
  handlers := by
    intro i handler hi
    refine (h.handlers i handler (hhandlers ▸ hi)).mono ?_ ?_ ?_ ?_ happlied ?_ ?_
      <;> rw [hlog]
    · exact fun e he ↦ he
    · exact fun e he ↦ Or.inl he
  numbered := happlied ▸ h.numbered
  held := by
    rw [happlied, hlog]
    exact h.held
  marked_le := by
    rw [happlied, hlog]
    exact h.marked_le
  committed := by
    rw [happlied, hlog]
    exact h.committed
  batch := hlog ▸ hbatch

theorem Inv.leave {s : Leader Op} (h : Inv s) (i : ℕ) : Inv (s.leave i) where
  sorted := h.sorted
  term := h.term
  pos := h.pos
  lt_next := h.lt_next
  next_pos := h.next_pos
  handlers := forall_update
    (fun j handler _ hj ↦ (h.handlers j handler hj).mono rfl le_rfl le_rfl rfl rfl
      (fun _ he ↦ he) fun _ he ↦ Or.inl he)
    fun _ hnone ↦ absurd hnone (Option.not_mem_none _)
  numbered := h.numbered
  held := h.held
  marked_le := h.marked_le
  committed := h.committed
  batch := h.batch

theorem Inv.setStage {s : Leader Op} (h : Inv s) {i : ℕ} {entry : LogEntry Op}
    {old new : WriteStage Op} (hi : s.handlers i = some ⟨entry, old⟩)
    (hnew : StageOk s entry new) : Inv (s.setStage i entry new) where
  sorted := h.sorted
  term := h.term
  pos := h.pos
  lt_next := h.lt_next
  next_pos := h.next_pos
  handlers := by
    have hsame : ∀ {j handler}, HandlerOk s j handler →
        HandlerOk (s.setStage i entry new) j handler :=
      fun hok ↦ hok.mono rfl le_rfl le_rfl rfl rfl (fun _ he ↦ he) fun _ he ↦ Or.inl he
    have hok := h.handlers i _ hi
    refine forall_update (fun j handler _ hj ↦ hsame (h.handlers j handler hj)) ?_
    rintro _ ⟨⟩
    exact hsame ⟨hok.index, hok.term, hok.pos, hok.lt_next, hok.not_marked, hnew⟩
  numbered := h.numbered
  held := h.held
  marked_le := h.marked_le
  committed := h.committed
  batch := h.batch

theorem Inv.accept {s : Leader Op} (h : Inv s) (operation : Op) (timestampMs : ℕ) :
    Inv (({ s with log := (s.log.allocate operation timestampMs).1 }).setStage
      s.log.nextIndex (s.log.allocate operation timestampMs).2 .allocated) where
  sorted := h.sorted
  term := h.term
  pos := h.pos
  lt_next := fun e he ↦ (h.lt_next e he).trans (Nat.lt_succ_self _)
  next_pos := Nat.succ_pos _
  handlers := by
    refine forall_update (fun j handler _ hj ↦ (h.handlers j handler hj).mono rfl (Nat.le_succ _)
      le_rfl rfl rfl (fun _ he ↦ he) fun _ he ↦ Or.inl he) ?_
    rintro _ ⟨⟩
    exact {
      index := rfl
      term := rfl
      pos := h.next_pos
      lt_next := Nat.lt_succ_self _
      not_marked := h.marked_le.trans_lt h.length_applied_lt
      stage := ⟨fun e he ↦ (h.lt_next e he).ne, h.length_applied_lt⟩ }
  numbered := h.numbered
  held := h.held
  marked_le := h.marked_le
  committed := h.committed
  batch := h.batch

theorem Inv.insertEntry {s : Leader Op} (h : Inv s) {i : ℕ} {entry : LogEntry Op}
    (hi : s.handlers i = some ⟨entry, .allocated⟩) :
    Inv (({ s with log := s.log.insertEntry entry }).setStage i entry .appended) := by
  have hok := h.handlers i _ hi
  have hindex : entry.index = i := hok.index
  have hstage : StageOk s entry .allocated := hok.stage
  obtain ⟨hfree, happlied⟩ := hstage
  have hmem : ∀ e ∈ (s.log.insertEntry entry).entries, e = entry ∨ e ∈ s.log.entries :=
    fun e he ↦ mem_insertByKey.mp he
  have hnew : ∀ {j handler}, j ≠ i → HandlerOk s j handler →
      HandlerOk (({ s with log := s.log.insertEntry entry }).setStage i entry .appended) j
        handler := by
    intro j handler hj hother
    refine hother.mono rfl le_rfl le_rfl rfl rfl
      (fun e he ↦ mem_insertByKey.mpr (Or.inr he)) fun e he ↦ ?_
    rcases hmem e he with rfl | he
    · exact Or.inr (hindex ▸ hj.symm)
    · exact Or.inl he
  constructor
  · refine h.sorted.insertByKey fun e he hid ↦ hfree e he ?_
    exact congrArg LogId.index hid
  · intro e he
    rcases hmem e he with rfl | he
    · exact hok.term
    · exact h.term e he
  · intro e he
    rcases hmem e he with rfl | he
    · exact hindex ▸ hok.pos
    · exact h.pos e he
  · intro e he
    rcases hmem e he with rfl | he
    · exact hindex ▸ hok.lt_next
    · exact h.lt_next e he
  · exact h.next_pos
  · refine forall_update (fun j handler hj hsome ↦ hnew hj (h.handlers j handler hsome)) ?_
    rintro _ ⟨⟩
    exact ⟨hindex, hok.term, hok.pos, hok.lt_next, hok.not_marked,
      mem_insertByKey.mpr (Or.inl rfl), happlied⟩
  · exact h.numbered
  · exact fun e he ↦ mem_insertByKey.mpr (Or.inr (h.held e he))
  · exact h.marked_le
  · exact h.committed
  · exact fun e he ↦ mem_insertByKey.mpr (Or.inr (h.batch e he))

theorem Inv.commit {s : Leader Op} (h : Inv s) (c : ℕ) :
    Inv { s with log := s.log.commit c } where
  sorted := h.sorted
  term := h.term
  pos := h.pos
  lt_next := h.lt_next
  next_pos := h.next_pos
  handlers := fun i handler hi ↦ (h.handlers i handler hi).mono rfl le_rfl (le_max_left _ _) rfl
    rfl (fun _ he ↦ he) fun _ he ↦ Or.inl he
  numbered := h.numbered
  held := h.held
  marked_le := h.marked_le
  committed := h.committed.trans (le_max_left _ _)
  batch := h.batch

/-- The entry applied next is the one after those applied so far. -/
theorem Inv.applyOperation {s : Leader Op} (h : Inv s) {i : ℕ} {entry : LogEntry Op}
    (hi : s.handlers i = some ⟨entry, .locked⟩) :
    Inv (({ s with applied := s.applied ++ [entry] }).setStage i entry .applied) := by
  have hok := h.handlers i _ hi
  have hindex : entry.index = i := hok.index
  have hstage : StageOk s entry .locked := hok.stage
  obtain ⟨hheld, hnext, hmarked, hcommitted⟩ := hstage
  have hlength : (s.applied ++ [entry]).length = s.applied.length + 1 := by simp
  have hothers : ∀ j handler, j ≠ i → s.handlers j = some handler → HandlerOk
      (({ s with applied := s.applied ++ [entry] }).setStage i entry .applied) j handler := by
    intro j handler hj hsome
    have hother := h.handlers j handler hsome
    refine ⟨hother.index, hother.term, hother.pos, hother.lt_next, hother.not_marked, ?_⟩
    obtain ⟨otherEntry, stage⟩ := handler
    have hotherIndex : otherEntry.index = j := hother.index
    have hotherMarked : s.log.appliedIndex < j := hother.not_marked
    have hstage : StageOk s otherEntry stage := hother.stage
    have hlt : s.applied.length < otherEntry.index →
        (s.applied ++ [entry]).length < otherEntry.index := by
      intro hlt
      rw [hlength]
      omega
    cases stage with
    | allocated => exact ⟨hstage.1, hlt hstage.2⟩
    | appended => exact ⟨hstage.1, hlt hstage.2⟩
    | joining futures => exact ⟨hstage.1, hlt hstage.2.1, hstage.2.2.1, hstage.2.2.2,
        hstage.2.2.3, hstage.2.2.4⟩
    | committed => exact ⟨hstage.1, hlt hstage.2.1, hstage.2.2⟩
    | locked =>
      have hsame : otherEntry.index = s.applied.length + 1 := hstage.2.1
      omega
    | applied =>
      have hsame : otherEntry.index = s.applied.length := hstage.2.1
      omega
  constructor
  · exact h.sorted
  · exact h.term
  · exact h.pos
  · exact h.lt_next
  · exact h.next_pos
  · refine forall_update hothers ?_
    rintro _ ⟨⟩
    exact ⟨hindex, hok.term, hok.pos, hok.lt_next, hok.not_marked, hheld,
      hnext.trans hlength.symm, hcommitted⟩
  · refine numberedFrom_append.mpr ⟨h.numbered, ?_, trivial⟩
    omega
  · intro e he
    rcases List.mem_append.mp he with he | he
    · exact h.held e he
    · rw [List.mem_singleton.mp he]
      exact hheld
  · exact h.marked_le.trans ((Nat.le_succ _).trans hlength.ge)
  · exact hlength.trans_le (hnext.symm.trans_le hcommitted)
  · exact h.batch

theorem Inv.markApplied {s : Leader Op} (h : Inv s) {i : ℕ} {entry : LogEntry Op}
    (hi : s.handlers i = some ⟨entry, .applied⟩) :
    Inv (({ s with log := s.log.markApplied i }).leave i) := by
  have hok := h.handlers i _ hi
  have hindex : entry.index = i := hok.index
  have hstage : StageOk s entry .applied := hok.stage
  obtain ⟨-, hlength, -⟩ := hstage
  have hmax : (s.log.markApplied i).appliedIndex = i := by
    rw [ConsensusLog.markApplied_appliedIndex]
    exact max_eq_right hok.not_marked.le
  have hothers : ∀ j handler, j ≠ i → s.handlers j = some handler → HandlerOk
      (({ s with log := s.log.markApplied i }).leave i) j handler := by
    intro j handler hj hsome
    have hother := h.handlers j handler hsome
    have hlt : i < j := by
      have hle : s.applied.length ≤ j := hother.length_applied_le
      omega
    obtain ⟨otherEntry, stage⟩ := handler
    have hstage : StageOk s otherEntry stage := hother.stage
    refine ⟨hother.index, hother.term, hother.pos, hother.lt_next, hmax.trans_lt hlt, ?_⟩
    cases stage with
    | allocated => exact hstage
    | appended => exact hstage
    | joining futures => exact ⟨hstage.1, hstage.2.1, hstage.2.2.1, hstage.2.2.2, hstage.2.2.3,
        hstage.2.2.4⟩
    | committed => exact hstage
    | locked =>
      refine ⟨hstage.1, hstage.2.1, ?_, hstage.2.2.2⟩
      have hlast : s.applied.length + 1 = (s.log.markApplied i).appliedIndex + 1 := by
        rw [hmax, ← hlength, hindex]
      exact hstage.2.1.trans hlast
    | applied => exact hstage
  constructor
  · exact h.sorted
  · exact h.term
  · exact h.pos
  · exact h.lt_next
  · exact h.next_pos
  · exact forall_update hothers fun _ hnone ↦ absurd hnone (Option.not_mem_none _)
  · exact h.numbered
  · exact h.held
  · exact hmax.trans_le (hindex.symm.trans hlength).le
  · exact h.committed
  · exact h.batch

/-- Reading the log gives the handler what it sends. -/
theorem Inv.joiningOk_read {s : Leader Op} (h : Inv s) {entry : LogEntry Op}
    (hentry : entry ∈ s.log.entries) (wal : Option Bool)
    {replication : Option (Except String ℕ)}
    (hreplication : ∀ c, replication = some (.ok c) → entry.index ≤ c) :
    JoiningOk s.log entry ⟨some (s.log.getEntriesFrom 1), wal, replication⟩ where
  sorted := by
    rintro _ ⟨⟩
    exact h.sortedByIndex.filter _
  held := by
    rintro _ ⟨⟩ e he
    exact (ConsensusLog.mem_getEntriesFrom.mp he).1
  own := by
    rintro _ ⟨⟩
    exact ConsensusLog.mem_getEntriesFrom.mpr ⟨hentry, h.pos entry hentry⟩
  le := hreplication

/-- A successful replication returns an index at or after the handler's own. -/
theorem JoiningOk.replicate {log : ConsensusLog Op} {entry : LogEntry Op}
    {entries : List (LogEntry Op)} {wal : Option Bool} {replication : Option (Except String ℕ)}
    (hok : JoiningOk log entry ⟨some entries, wal, replication⟩) (peers successCount : ℕ) :
    JoiningOk log entry ⟨some entries, wal,
      some (replicateLogEntriesToFollowers peers entries entry.index successCount)⟩ where
  sorted := hok.sorted
  held := hok.held
  own := hok.own
  le := by
    intro c hc
    obtain ⟨-, hlast⟩ := replicateLogEntriesToFollowers_eq_ok (Option.some.inj hc)
    rcases hlast with rfl | rfl
    · exact le_rfl
    · exact index_le_lastIndexOr (hok.sorted entries rfl) (hok.own entries rfl) _

/-- A handler that has committed never waits for an earlier commit: its own commit covers it. -/
theorem Inv.not_commitTimeout {s : Leader Op} (h : Inv s) (peers i : ℕ) :
    step peers s (.commitTimeout i) = none := by
  refine Option.eq_none_iff_forall_ne_some.mpr fun next hnext ↦ ?_
  obtain ⟨entry, hi, hlt, -⟩ := step_commitTimeout hnext
  have hok := h.handlers i _ hi
  have hindex : entry.index = i := hok.index
  have hstage : StageOk s entry .committed := hok.stage
  have hcommitted : entry.index ≤ s.log.commitIndex := hstage.2.2
  omega

theorem kept_inv (peers : ℕ) : Kept (step peers) (Inv : Leader Op → Prop) := by
  intro s a next h hnext
  cases a with
  | accept operation timestampMs =>
    obtain rfl := step_accept hnext
    exact h.accept operation timestampMs
  | insertEntry i =>
    obtain ⟨entry, hi, rfl⟩ := step_insertEntry hnext
    exact h.insertEntry hi
  | queueEntry i =>
    obtain ⟨entry, hi, rfl⟩ := step_queueEntry hnext
    have hstage : StageOk s entry .appended := (h.handlers i _ hi).stage
    have hbatch : Inv { s with immediateBatch := s.immediateBatch ++ [entry] } := by
      refine h.congr rfl rfl rfl fun e he ↦ ?_
      rcases List.mem_append.mp he with he | he
      · exact h.batch e he
      · exact List.mem_singleton.mp he ▸ hstage.1
    refine hbatch.setStage hi ⟨hstage.1, hstage.2, ?_, ?_, ?_, ?_⟩ <;> simp
  | readEntries i =>
    obtain ⟨entry, wal, hi, rfl⟩ := step_readEntries hnext
    have hok := h.handlers i _ hi
    have hindex : entry.index = i := hok.index
    have hstage : StageOk s entry (.joining ⟨none, wal, none⟩) := hok.stage
    refine h.setStage hi ⟨hstage.1, hstage.2.1, h.joiningOk_read hstage.1 wal ?_⟩
    intro c hc
    split_ifs at hc
    rw [Option.some.injEq, Except.ok.injEq] at hc
    exact (hindex.trans hc).le
  | walDone i ok =>
    obtain ⟨entry, sent, replication, hi, rfl⟩ := step_walDone hnext
    have hstage : StageOk s entry (.joining ⟨sent, none, replication⟩) :=
      (h.handlers i _ hi).stage
    obtain ⟨hheld, happlied, hjoin⟩ := hstage
    exact h.setStage hi ⟨hheld, happlied, hjoin.sorted, hjoin.held, hjoin.own, hjoin.le⟩
  | replicationDone i successCount =>
    obtain ⟨entry, entries, wal, hi, -, rfl⟩ := step_replicationDone hnext
    have hok := h.handlers i _ hi
    have hindex : entry.index = i := hok.index
    have hstage : StageOk s entry (.joining ⟨some entries, wal, none⟩) := hok.stage
    obtain ⟨hheld, happlied, hjoin⟩ := hstage
    exact h.setStage hi ⟨hheld, happlied, hindex ▸ hjoin.replicate peers successCount⟩
  | join i =>
    rcases step_join hnext with ⟨_, -, -, rfl⟩ | ⟨entry, sent, newCommitIndex, hi, rfl⟩
    · exact h.leave i
    · have hstage : StageOk s entry (.joining ⟨sent, some true, some (.ok newCommitIndex)⟩) :=
        (h.handlers i _ hi).stage
      obtain ⟨hheld, happlied, hjoin⟩ := hstage
      exact (h.commit newCommitIndex).setStage hi
        ⟨hheld, happlied, (hjoin.le _ rfl).trans (le_max_right _ _)⟩
  | commitTimeout i => exact absurd hnext (by rw [h.not_commitTimeout]; simp)
  | lockApply i =>
    obtain ⟨entry, hi, hready, rfl⟩ := step_lockApply hnext
    have hok := h.handlers i _ hi
    have hindex : entry.index = i := hok.index
    have hmarked : s.log.appliedIndex < i := hok.not_marked
    have hstage : StageOk s entry .committed := hok.stage
    obtain ⟨hheld, happlied, hcommitted⟩ := hstage
    have hle := h.marked_le
    have hlock : Inv { s with applyLock := some i } := h.congr rfl rfl rfl h.batch
    refine hlock.setStage hi ⟨hheld, ?_, ?_, hcommitted⟩
    · change entry.index = s.applied.length + 1
      omega
    · change entry.index = s.log.appliedIndex + 1
      omega
  | applyOperation i ok =>
    obtain ⟨entry, hi, rfl⟩ := step_applyOperation hnext
    split_ifs
    · exact h.applyOperation hi
    · exact h.leave i
  | markApplied i =>
    obtain ⟨entry, hi, rfl⟩ := step_markApplied hnext
    exact h.markApplied hi
  | drop i =>
    obtain ⟨handler, hi, rfl⟩ := step_drop hnext
    exact h.leave i

/-! ### Entries with a majority -/

/-- Every entry whose replication has returned an index, and every applied entry, satisfies `P`. -/
structure ReplicatedAre (P : LogEntry Op → Prop) (s : Leader Op) : Prop where
  handlers : ∀ i h, s.handlers i = some h → h.Replicated → P h.entry
  applied : ∀ e ∈ s.applied, P e

/-- One handler is replaced, and what is applied beyond before satisfies `P`. -/
theorem ReplicatedAre.update {P : LogEntry Op → Prop} {s t : Leader Op} (h : ReplicatedAre P s)
    {i : ℕ} {new : Option (WriteHandler Op)}
    (hhandlers : t.handlers = Function.update s.handlers i new)
    (happlied : ∀ e ∈ t.applied, e ∈ s.applied ∨ P e)
    (hnew : ∀ handler ∈ new, handler.Replicated → P handler.entry) : ReplicatedAre P t where
  handlers := by
    rw [hhandlers]
    exact forall_update (fun j handler _ hj ↦ h.handlers j handler hj) hnew
  applied := fun e he ↦ (happlied e he).elim (h.applied e) id

/-- A handler that goes on without a replication result, or leaves, adds nothing. -/
theorem ReplicatedAre.update_of_not {P : LogEntry Op → Prop} {s t : Leader Op}
    (h : ReplicatedAre P s) {i : ℕ} {new : Option (WriteHandler Op)}
    (hhandlers : t.handlers = Function.update s.handlers i new) (happlied : t.applied = s.applied)
    (hnew : ∀ handler ∈ new, ¬ handler.Replicated) : ReplicatedAre P t :=
  h.update hhandlers (fun _ he ↦ Or.inl (happlied ▸ he))
    fun handler hmem hreplicated ↦ absurd hreplicated (hnew handler hmem)

/-- An entry comes to be replicated by the end of its replication only. -/
theorem ReplicatedAre.step {P : LogEntry Op → Prop} {peers : ℕ} {s next : Leader Op}
    {a : LeaderAction Op} (h : ReplicatedAre P s) (hinv : Inv s)
    (hnext : step peers s a = some next)
    (hdone : ∀ i successCount entry entries wal c, a = .replicationDone i successCount →
      s.handlers i = some ⟨entry, .joining ⟨some entries, wal, none⟩⟩ →
        replicateLogEntriesToFollowers peers entries i successCount = .ok c → P entry) :
    ReplicatedAre P next := by
  have hleave : ∀ {i}, ReplicatedAre P (s.leave i) :=
    h.update_of_not rfl rfl fun _ hnone ↦ absurd hnone (Option.not_mem_none _)
  cases a with
  | accept operation timestampMs =>
    obtain rfl := step_accept hnext
    exact h.update_of_not rfl rfl (by rintro _ ⟨⟩; exact id)
  | insertEntry i =>
    obtain ⟨entry, -, rfl⟩ := step_insertEntry hnext
    exact h.update_of_not rfl rfl (by rintro _ ⟨⟩; exact id)
  | queueEntry i =>
    obtain ⟨entry, -, rfl⟩ := step_queueEntry hnext
    exact h.update_of_not rfl rfl (by rintro _ ⟨⟩; simp [WriteHandler.Replicated])
  | readEntries i =>
    obtain ⟨entry, wal, hi, rfl⟩ := step_readEntries hnext
    have hstage : StageOk s entry (.joining ⟨none, wal, none⟩) := (hinv.handlers i _ hi).stage
    -- the handler's own entry is in the log, so there is something to send
    have hown : entry ∈ s.log.getEntriesFrom 1 :=
      ConsensusLog.mem_getEntriesFrom.mpr ⟨hstage.1, hinv.pos entry hstage.1⟩
    have hsome : (s.log.getEntriesFrom 1).isEmpty = false :=
      List.isEmpty_eq_false_iff.mpr (List.ne_nil_of_mem hown)
    rw [hsome]
    exact h.update_of_not rfl rfl (by rintro _ ⟨⟩; simp [WriteHandler.Replicated])
  | walDone i ok =>
    obtain ⟨entry, sent, replication, hi, rfl⟩ := step_walDone hnext
    have hold : WriteHandler.Replicated ⟨entry, .joining ⟨sent, none, replication⟩⟩ → P entry :=
      h.handlers i _ hi
    exact h.update rfl (fun _ he ↦ Or.inl he) (by rintro _ ⟨⟩; exact hold)
  | replicationDone i successCount =>
    obtain ⟨entry, entries, wal, hi, -, rfl⟩ := step_replicationDone hnext
    refine h.update rfl (fun _ he ↦ Or.inl he) ?_
    rintro _ ⟨⟩ ⟨c, hc⟩
    exact hdone i successCount entry entries wal c rfl hi (Option.some.inj hc)
  | join i =>
    rcases step_join hnext with ⟨_, -, -, rfl⟩ | ⟨entry, sent, c, hi, rfl⟩
    · exact hleave
    · have hentry : P entry := h.handlers i _ hi ⟨c, rfl⟩
      exact h.update rfl (fun _ he ↦ Or.inl he) (by rintro _ ⟨⟩ -; exact hentry)
  | commitTimeout i =>
    obtain ⟨entry, -, -, rfl⟩ := step_commitTimeout hnext
    exact hleave
  | lockApply i =>
    obtain ⟨entry, hi, -, rfl⟩ := step_lockApply hnext
    have hentry : P entry := h.handlers i _ hi trivial
    exact h.update rfl (fun _ he ↦ Or.inl he) (by rintro _ ⟨⟩ -; exact hentry)
  | applyOperation i ok =>
    obtain ⟨entry, hi, rfl⟩ := step_applyOperation hnext
    have hentry : P entry := h.handlers i _ hi trivial
    split_ifs
    · refine h.update rfl (fun e he ↦ ?_) (by rintro _ ⟨⟩ -; exact hentry)
      rcases List.mem_append.mp he with he | he
      · exact Or.inl he
      · exact Or.inr (List.mem_singleton.mp he ▸ hentry)
    · exact hleave
  | markApplied i =>
    obtain ⟨entry, -, rfl⟩ := step_markApplied hnext
    exact h.update_of_not rfl rfl fun _ hnone ↦ absurd hnone (Option.not_mem_none _)
  | drop i =>
    obtain ⟨handler, -, rfl⟩ := step_drop hnext
    exact hleave

/-! ### One step -/

/-- A step that replaces one handler and moves no index orphans at most the index of that
handler. -/
theorem noOrphan_update_iff {s t : Leader Op} (hno : NoOrphan s) {i : ℕ}
    {new : Option (WriteHandler Op)} (hcommit : t.log.commitIndex = s.log.commitIndex)
    (hmarked : t.log.appliedIndex = s.log.appliedIndex)
    (hhandlers : t.handlers = Function.update s.handlers i new) :
    NoOrphan t ↔
      (s.log.appliedIndex < i → i ≤ s.log.commitIndex → ∃ h ∈ new, h.OnItsWay) := by
  unfold NoOrphan
  rw [hcommit, hmarked, hhandlers]
  constructor
  · intro h hlt hle
    obtain ⟨handler, hi, hway⟩ := h i hlt hle
    rw [Function.update_self] at hi
    exact ⟨handler, hi, hway⟩
  · intro h j hlt hle
    by_cases hj : j = i
    · subst hj
      rw [Function.update_self]
      exact h hlt hle
    · rw [Function.update_of_ne hj]
      exact hno j hlt hle

theorem noOrphan_leave_iff {s : Leader Op} (h : Inv s) (hno : NoOrphan s) {i : ℕ}
    {handler : WriteHandler Op} (hi : s.handlers i = some handler) :
    NoOrphan (s.leave i) ↔ s.log.commitIndex < i := by
  rw [noOrphan_update_iff (t := s.leave i) hno rfl rfl rfl]
  have hmarked : s.log.appliedIndex < i := (h.handlers i _ hi).not_marked
  simp [hmarked]

theorem noOrphan_commit_iff {s : Leader Op} (h : Inv s) (hno : NoOrphan s) {i c : ℕ}
    {entry : LogEntry Op} {handler : WriteHandler Op} (hi : s.handlers i = some handler)
    (hway : handler.OnItsWay) :
    NoOrphan (({ s with log := s.log.commit c }).setStage i entry .committed) ↔
      ∀ j, s.log.commitIndex < j → j ≤ c → ∃ h ∈ s.handlers j, h.OnItsWay := by
  have hmarked : s.log.appliedIndex ≤ s.log.commitIndex := h.marked_le.trans h.committed
  constructor
  · intro hnext j hlt hle
    by_cases hj : j = i
    · exact hj ▸ ⟨handler, hi, hway⟩
    · obtain ⟨other, hother, hotherWay⟩ :=
        hnext j (hmarked.trans_lt hlt) (hle.trans (le_max_right _ _))
      change other ∈ Function.update s.handlers i _ j at hother
      rw [Function.update_of_ne hj] at hother
      exact ⟨other, hother, hotherWay⟩
  · intro hkeeps j hlt hle
    change ∃ h ∈ Function.update s.handlers i (some ⟨entry, .committed⟩) j, h.OnItsWay
    by_cases hj : j = i
    · subst hj
      rw [Function.update_self]
      exact ⟨_, rfl, trivial⟩
    · rw [Function.update_of_ne hj]
      rcases le_or_gt j s.log.commitIndex with hold | hnew
      · exact hno j hlt hold
      · refine hkeeps j hnew ?_
        have hmax : j ≤ max s.log.commitIndex c := hle
        omega

/-- A replication that fails leaves its entry an orphan when that is committed already. -/
theorem noOrphan_replicationDone_iff {s : Leader Op} (h : Inv s) (hno : NoOrphan s) {i : ℕ}
    {entry : LogEntry Op} {entries : List (LogEntry Op)} {wal : Option Bool}
    (hi : s.handlers i = some ⟨entry, .joining ⟨some entries, wal, none⟩⟩)
    (peers successCount : ℕ) :
    NoOrphan (s.setStage i entry (.joining ⟨some entries, wal,
        some (replicateLogEntriesToFollowers peers entries i successCount)⟩)) ↔
      majority peers ≤ successCount + 1 ∨ peers = 0 ∨ s.log.commitIndex < i := by
  refine Iff.trans (noOrphan_update_iff hno rfl rfl rfl) ?_
  have hmarked : s.log.appliedIndex < i := (h.handlers i _ hi).not_marked
  constructor
  · intro hkept
    rcases Nat.lt_or_ge s.log.commitIndex i with hlt | hle
    · exact Or.inr (Or.inr hlt)
    obtain ⟨_, ⟨⟩, -, hway⟩ := hkept hmarked hle
    cases hresult : replicateLogEntriesToFollowers peers entries i successCount with
    | error e => exact absurd (congrArg some hresult) (hway e)
    | ok c =>
      rcases (replicateLogEntriesToFollowers_eq_ok hresult).1 with hpeers | hmajority
      · exact Or.inr (Or.inl hpeers)
      · exact Or.inl hmajority
  · intro hkeeps hlt hle
    obtain ⟨handler, hhandler, hway⟩ := hno i hlt hle
    obtain rfl := Option.some.inj (hi.symm.trans hhandler)
    have hmajority : peers = 0 ∨ majority peers ≤ successCount + 1 := by
      rcases hkeeps with hmajority | hpeers | hlt
      · exact Or.inr hmajority
      · exact Or.inl hpeers
      · exact absurd hlt (not_lt.mpr hle)
    refine ⟨_, rfl, hway.1, fun e he ↦ ?_⟩
    exact replicateLogEntriesToFollowers_ne_error hmajority e (Option.some.inj he)

/-- A handler that is not on its way may leave: its entry is not committed. -/
theorem noOrphan_leave_of_not_onItsWay {s : Leader Op} (h : Inv s) (hno : NoOrphan s) {i : ℕ}
    {handler : WriteHandler Op} (hi : s.handlers i = some handler) (hway : ¬ handler.OnItsWay) :
    NoOrphan (s.leave i) := by
  rw [noOrphan_leave_iff h hno hi]
  by_contra hle
  obtain ⟨other, hother, hotherWay⟩ := hno i (h.handlers i _ hi).not_marked (not_lt.mp hle)
  obtain rfl := Option.some.inj (hi.symm.trans hother)
  exact hway hotherWay

theorem noOrphan_step (peers : ℕ) (s : Leader Op) (a : LeaderAction Op) (next : Leader Op)
    (h : Inv s) (hno : NoOrphan s) (hnext : step peers s a = some next) :
    NoOrphan next ↔ KeepsHandlers peers s a := by
  cases a with
  | accept operation timestampMs =>
    obtain rfl := step_accept hnext
    refine Iff.trans (noOrphan_update_iff hno rfl rfl rfl) ?_
    exact iff_of_true (fun _ _ ↦ ⟨_, rfl, trivial⟩) trivial
  | insertEntry i =>
    obtain ⟨entry, hi, rfl⟩ := step_insertEntry hnext
    refine Iff.trans (noOrphan_update_iff hno rfl rfl rfl) ?_
    exact iff_of_true (fun _ _ ↦ ⟨_, rfl, trivial⟩) trivial
  | queueEntry i =>
    obtain ⟨entry, hi, rfl⟩ := step_queueEntry hnext
    refine Iff.trans (noOrphan_update_iff hno rfl rfl rfl) ?_
    exact iff_of_true (fun _ _ ↦ ⟨_, rfl, by simp [WriteHandler.OnItsWay]⟩) trivial
  | readEntries i =>
    obtain ⟨entry, wal, hi, rfl⟩ := step_readEntries hnext
    refine Iff.trans (noOrphan_update_iff hno rfl rfl rfl) ?_
    refine iff_of_true (fun hlt hle ↦ ⟨_, rfl, ?_⟩) trivial
    obtain ⟨handler, hhandler, hway⟩ := hno i hlt hle
    obtain rfl := Option.some.inj (hi.symm.trans hhandler)
    exact ⟨hway.1, fun e ↦ by split_ifs <;> simp⟩
  | walDone i ok =>
    obtain ⟨entry, sent, replication, hi, rfl⟩ := step_walDone hnext
    refine Iff.trans (noOrphan_update_iff hno rfl rfl rfl) ?_
    have hmarked : s.log.appliedIndex < i := (h.handlers i _ hi).not_marked
    cases ok with
    | false => simp [KeepsHandlers, WriteHandler.OnItsWay, hmarked]
    | true =>
      refine iff_of_true (fun hlt hle ↦ ⟨_, rfl, ?_⟩) trivial
      obtain ⟨handler, hhandler, hway⟩ := hno i hlt hle
      obtain rfl := Option.some.inj (hi.symm.trans hhandler)
      exact ⟨by simp, hway.2⟩
  | replicationDone i successCount =>
    obtain ⟨entry, entries, wal, hi, -, rfl⟩ := step_replicationDone hnext
    exact noOrphan_replicationDone_iff h hno hi peers successCount
  | join i =>
    rcases step_join hnext with ⟨handler, hi, hway, rfl⟩ | ⟨entry, sent, c, hi, rfl⟩
    · refine iff_of_true (noOrphan_leave_of_not_onItsWay h hno hi hway) ?_
      intro entry sent c hother
      obtain rfl := Option.some.inj (hi.symm.trans hother)
      exact absurd ⟨by simp, by simp⟩ hway
    · rw [noOrphan_commit_iff h hno hi ⟨by simp, by simp⟩]
      constructor
      · intro hkeeps _ _ _ hother
        rw [hi, Option.some.injEq, WriteHandler.mk.injEq, WriteStage.joining.injEq,
          Joining.mk.injEq, Option.some.injEq, Option.some.injEq, Except.ok.injEq] at hother
        exact hother.2.2.2 ▸ hkeeps
      · exact fun hkeeps ↦ hkeeps entry sent c hi
  | commitTimeout i => exact absurd hnext (by rw [h.not_commitTimeout]; simp)
  | lockApply i =>
    obtain ⟨entry, hi, -, rfl⟩ := step_lockApply hnext
    refine Iff.trans (noOrphan_update_iff hno rfl rfl rfl) ?_
    exact iff_of_true (fun _ _ ↦ ⟨_, rfl, trivial⟩) trivial
  | applyOperation i ok =>
    obtain ⟨entry, hi, rfl⟩ := step_applyOperation hnext
    cases ok with
    | true =>
      refine Iff.trans (noOrphan_update_iff hno rfl rfl rfl) ?_
      exact iff_of_true (fun _ _ ↦ ⟨_, rfl, trivial⟩) trivial
    | false => exact noOrphan_leave_iff h hno hi
  | markApplied i =>
    obtain ⟨entry, hi, rfl⟩ := step_markApplied hnext
    refine iff_of_true (fun j hlt hle ↦ ?_) trivial
    have hmax : max s.log.appliedIndex i < j := hlt
    change ∃ h ∈ Function.update s.handlers i none j, h.OnItsWay
    rw [Function.update_of_ne (by omega)]
    exact hno j (by omega) hle
  | drop i =>
    obtain ⟨handler, hi, rfl⟩ := step_drop hnext
    exact noOrphan_leave_iff h hno hi

theorem noOrphan_start (term : ℕ) : NoOrphan (start term : Leader Op) := by
  intro i hlt hle
  exact absurd (hlt.trans_le hle) (lt_irrefl _)

end Leader

/-! ### Every run -/

/-- A run applies the log in order and leaves every committed index to a handler on its way exactly
when its steps keep the handlers of committed entries. -/
theorem inOrder_and_noOrphan_iff_keepsHandlers (peers term : ℕ)
    (actions : List (LeaderAction Op)) :
    Always (Leader.step peers) (fun s ↦ s.AppliedInOrder ∧ s.NoOrphan) (Leader.start term)
        actions ↔
      EachStep (Leader.step peers) (Leader.KeepsHandlers peers) (Leader.start term) actions := by
  refine always_iff_eachStep (Leader.kept_inv peers) ?_ (Leader.inv_start term)
    ⟨(Leader.inv_start term).appliedInOrder, Leader.noOrphan_start term⟩ actions
  intro s a next hinv hs hnext
  have hnextInv : next.Inv := Leader.kept_inv peers s a next hinv hnext
  rw [and_iff_right hnextInv.appliedInOrder]
  exact Leader.noOrphan_step peers s a next hinv hs.2 hnext

/-- Two writes on a leader with two followers. The second is acknowledged and commits index 2, and
with it index 1, whose client then disconnects. -/
theorem disconnect_orphans_committed_entry :
    ¬ ∀ actions : List (LeaderAction CrudOperation),
      Always (Leader.step 2) (fun s ↦ s.AppliedInOrder ∧ s.NoOrphan) (Leader.start 1) actions := by
  intro h
  let operation : CrudOperation := .delete "/api/products" "a"
  have horphan := (h [.accept operation 0, .insertEntry 1, .accept operation 0, .insertEntry 2,
    .queueEntry 1, .queueEntry 2, .readEntries 1, .readEntries 2, .walDone 2 true,
    .replicationDone 2 1, .join 2, .drop 1]).exec rfl
  obtain ⟨handler, hhandler, -⟩ := horphan.2 1 (by decide) (by decide)
  exact absurd hhandler (Option.not_mem_none _)

end Lithair.App
