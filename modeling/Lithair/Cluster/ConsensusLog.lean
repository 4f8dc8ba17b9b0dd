import Lithair.Lib.OrderedList
import Mathlib.Data.Prod.Lex

/-!
# The consensus log

`cluster/consensus_log.rs`: the ordered log of operations that a cluster node keeps, with the
current term, the next index to assign, and the commit and applied indices. The operation type is
a parameter, since the log never looks inside an operation.

`append` runs in two steps that other calls may interleave with: it loads the term and takes the
next index (`allocate`), and only then, under the write lock, inserts the entry in `LogId` order
(`insertEntry`). `appendEntries` is the follower's side: it stores every entry whose `LogId` it
does not hold yet and raises the commit index. Neither of them looks at `nextIndex` beyond the one
increment, and nothing removes an entry. `getUnappliedEntries` collects the committed entries that
follow the applied index up to the first missing index, so what it returns is numbered
consecutively (`numberedFrom_unappliedBetween`).
-/

namespace Lithair.Cluster

open Lithair.Lib.OrderedList

/-- The identifier of a log entry. The derived order of the source compares the term first. -/
structure LogId where
  term : ℕ
  index : ℕ
  deriving DecidableEq, Repr

namespace LogId

/-- The term and the index in the order the derived comparison reads them. -/
def key (id : LogId) : ℕ ×ₗ ℕ := toLex (id.term, id.index)

theorem key_injective : Function.Injective key := by
  rintro ⟨term, index⟩ ⟨otherTerm, otherIndex⟩ h
  have hpair : (term, index) = (otherTerm, otherIndex) := toLex.injective h
  rw [Prod.mk.injEq] at hpair
  rw [hpair.1, hpair.2]

instance : LinearOrder LogId := LinearOrder.lift' key key_injective

theorem lt_iff {a b : LogId} :
    a < b ↔ a.term < b.term ∨ a.term = b.term ∧ a.index < b.index :=
  Prod.Lex.toLex_lt_toLex

/-- Within one term the order of identifiers is the order of indices. -/
theorem lt_iff_index_lt {a b : LogId} (h : a.term = b.term) : a < b ↔ a.index < b.index := by
  rw [lt_iff]
  omega

end LogId

/-- A log entry: an operation with its identifier and the time it was created. -/
structure LogEntry (Op : Type*) where
  logId : LogId
  operation : Op
  timestampMs : ℕ
  deriving DecidableEq, Repr

instance {Op : Type*} [DecidableEq Op] : LawfulBEq (LogEntry Op) := inferInstance

/-- The index of an entry. -/
def LogEntry.index {Op : Type*} (entry : LogEntry Op) : ℕ := entry.logId.index

/-- The consensus log of a node. -/
structure ConsensusLog (Op : Type*) where
  currentTerm : ℕ
  nextIndex : ℕ
  commitIndex : ℕ
  entries : List (LogEntry Op)
  appliedIndex : ℕ
  deriving DecidableEq, Repr

/-- The request a leader sends to a follower. -/
structure AppendEntriesRequest (Op : Type*) where
  term : ℕ
  leaderId : ℕ
  prevLogIndex : ℕ
  prevLogTerm : ℕ
  entries : List (LogEntry Op)
  leaderCommit : ℕ
  deriving DecidableEq, Repr

/-- The answer of a follower. -/
structure AppendEntriesResponse where
  term : ℕ
  success : Bool
  lastLogIndex : ℕ
  appliedIndex : ℕ
  deriving DecidableEq, Repr

namespace ConsensusLog

variable {Op : Type*}

/-! ### The operations -/

def new : ConsensusLog Op where
  currentTerm := 1
  nextIndex := 1
  commitIndex := 0
  entries := []
  appliedIndex := 0

def incrementTerm (log : ConsensusLog Op) : ConsensusLog Op :=
  { log with currentTerm := log.currentTerm + 1 }

def setTerm (log : ConsensusLog Op) (term : ℕ) : ConsensusLog Op :=
  { log with currentTerm := term }

/-- The first half of `append`: load the term and take the next index. -/
def allocate (log : ConsensusLog Op) (operation : Op) (timestampMs : ℕ) :
    ConsensusLog Op × LogEntry Op :=
  ({ log with nextIndex := log.nextIndex + 1 },
    { logId := { term := log.currentTerm, index := log.nextIndex }, operation, timestampMs })

/-- The second half of `append`, under the write lock: insert in order of `LogId`. -/
def insertEntry (log : ConsensusLog Op) (entry : LogEntry Op) : ConsensusLog Op :=
  { log with entries := insertByKey LogEntry.logId entry log.entries }

/-- Append an operation and return the entry it was given. -/
def append (log : ConsensusLog Op) (operation : Op) (timestampMs : ℕ) :
    ConsensusLog Op × LogEntry Op :=
  let (allocated, entry) := log.allocate operation timestampMs
  (allocated.insertEntry entry, entry)

/-- Store a received entry unless one with its identifier is there already. -/
def storeEntry (entries : List (LogEntry Op)) (entry : LogEntry Op) : List (LogEntry Op) :=
  match entries.find? fun e ↦ e.logId == entry.logId with
  | some _ => entries
  | none => insertByKey LogEntry.logId entry entries

/-- Store the entries received from a leader and raise the commit index to the leader's. -/
def appendEntries (log : ConsensusLog Op) (entries : List (LogEntry Op)) (leaderCommit : ℕ) :
    ConsensusLog Op :=
  { log with
    entries := entries.foldl storeEntry log.entries
    commitIndex := max log.commitIndex leaderCommit }

def commit (log : ConsensusLog Op) (index : ℕ) : ConsensusLog Op :=
  { log with commitIndex := max log.commitIndex index }

/-- The loop of `get_unapplied_entries`: the entry with the expected index, then the next, and so
on for at most `remaining` indices, stopping at the first index that no entry has. -/
def collectFrom (entries : List (LogEntry Op)) : ℕ → ℕ → List (LogEntry Op)
  | _, 0 => []
  | expected, remaining + 1 =>
    match entries.find? fun e ↦ e.logId.index == expected with
    | some e => e :: collectFrom entries (expected + 1) remaining
    | none => []

/-- `get_unapplied_entries` once the applied and the commit index are loaded. -/
def unappliedBetween (entries : List (LogEntry Op)) (applied committed : ℕ) :
    List (LogEntry Op) :=
  if committed ≤ applied then []
  else collectFrom entries (applied + 1) (committed - applied)

def getUnappliedEntries (log : ConsensusLog Op) : List (LogEntry Op) :=
  unappliedBetween log.entries log.appliedIndex log.commitIndex

def markApplied (log : ConsensusLog Op) (index : ℕ) : ConsensusLog Op :=
  { log with appliedIndex := max log.appliedIndex index }

def getEntriesFrom (log : ConsensusLog Op) (fromIndex : ℕ) : List (LogEntry Op) :=
  log.entries.filter fun e ↦ decide (fromIndex ≤ e.logId.index)

def lastEntry (log : ConsensusLog Op) : Option (LogEntry Op) := log.entries.getLast?

def lastIndex (log : ConsensusLog Op) : ℕ :=
  (log.entries.getLast?.map fun e ↦ e.logId.index).getD 0

/-! ### What the operations give -/

theorem allocate_index (log : ConsensusLog Op) (operation : Op) (timestampMs : ℕ) :
    (log.allocate operation timestampMs).2.index = log.nextIndex := rfl

theorem insertEntry_entries (log : ConsensusLog Op) (entry : LogEntry Op) :
    (log.insertEntry entry).entries = insertByKey LogEntry.logId entry log.entries := rfl

theorem markApplied_appliedIndex (log : ConsensusLog Op) (n : ℕ) :
    (log.markApplied n).appliedIndex = max log.appliedIndex n := rfl

/-! ### Storing received entries -/

theorem storeEntry_eq (entries : List (LogEntry Op)) (entry : LogEntry Op) :
    storeEntry entries entry =
      if entry.logId ∈ entries.map LogEntry.logId then entries
      else insertByKey LogEntry.logId entry entries := by
  unfold storeEntry
  cases hfind : entries.find? fun e ↦ e.logId == entry.logId with
  | some e =>
    have hmem : entry.logId ∈ entries.map LogEntry.logId :=
      List.mem_map.mpr ⟨e, List.mem_of_find?_eq_some hfind,
        by simpa using List.find?_some hfind⟩
    rw [if_pos hmem]
  | none =>
    have hmem : entry.logId ∉ entries.map LogEntry.logId := by
      intro h
      obtain ⟨e, he, hid⟩ := List.mem_map.mp h
      have hne := List.find?_eq_none.mp hfind e he
      simp [hid] at hne
    rw [if_neg hmem]

/-- A stored list holds the old entries, and the received one when its identifier is new. -/
theorem mem_storeEntry {entries : List (LogEntry Op)} {entry e : LogEntry Op} :
    e ∈ storeEntry entries entry ↔
      e ∈ entries ∨ e = entry ∧ entry.logId ∉ entries.map LogEntry.logId := by
  rw [storeEntry_eq]
  split_ifs with h
  · exact ⟨Or.inl, fun he ↦ he.elim id fun he ↦ absurd h he.2⟩
  · rw [mem_insertByKey]
    tauto

theorem mem_of_mem_foldl_storeEntry {received entries : List (LogEntry Op)} {e : LogEntry Op}
    (h : e ∈ received.foldl storeEntry entries) : e ∈ entries ∨ e ∈ received := by
  induction received generalizing entries with
  | nil => exact Or.inl h
  | cons entry rest ih =>
    rcases ih h with h | h
    · rcases mem_storeEntry.mp h with h | ⟨rfl, -⟩
      · exact Or.inl h
      · exact Or.inr List.mem_cons_self
    · exact Or.inr (List.mem_cons_of_mem _ h)

theorem mem_foldl_storeEntry_of_mem {received entries : List (LogEntry Op)} {e : LogEntry Op}
    (h : e ∈ entries) : e ∈ received.foldl storeEntry entries := by
  induction received generalizing entries with
  | nil => exact h
  | cons entry rest ih => exact ih (mem_storeEntry.mpr (Or.inl h))

/-- After storing, the identifier of every received entry is held. -/
theorem logId_mem_foldl_storeEntry {received entries : List (LogEntry Op)} {e : LogEntry Op}
    (h : e ∈ received) :
    e.logId ∈ (received.foldl storeEntry entries).map LogEntry.logId := by
  induction received generalizing entries with
  | nil => exact absurd h List.not_mem_nil
  | cons entry rest ih =>
    rw [List.foldl_cons]
    rcases List.mem_cons.mp h with rfl | h
    · by_cases hheld : e.logId ∈ entries.map LogEntry.logId
      · obtain ⟨held, hmem, hid⟩ := List.mem_map.mp hheld
        exact List.mem_map.mpr ⟨held,
          mem_foldl_storeEntry_of_mem (mem_storeEntry.mpr (Or.inl hmem)), hid⟩
      · exact List.mem_map.mpr ⟨e,
          mem_foldl_storeEntry_of_mem (mem_storeEntry.mpr (Or.inr ⟨rfl, hheld⟩)), rfl⟩
    · exact ih h

/-- Storing keeps the entries in order of identifier, also when identifiers repeat. -/
theorem sortedBy_foldl_storeEntry_of_sortedBy {entries : List (LogEntry Op)}
    (h : SortedBy LogEntry.logId entries) (received : List (LogEntry Op)) :
    SortedBy LogEntry.logId (received.foldl storeEntry entries) := by
  induction received generalizing entries with
  | nil => exact h
  | cons entry rest ih =>
    refine ih ?_
    rw [storeEntry_eq]
    split_ifs
    · exact h
    · exact h.insertByKey entry

/-! ### Collecting unapplied entries -/

theorem collectFrom_succ (entries : List (LogEntry Op)) (expected remaining : ℕ) :
    collectFrom entries expected (remaining + 1) =
      (entries.find? fun e ↦ e.logId.index == expected).elim []
        (· :: collectFrom entries (expected + 1) remaining) := by
  show (match entries.find? fun e ↦ e.logId.index == expected with
    | some e => e :: collectFrom entries (expected + 1) remaining
    | none => []) = _
  cases entries.find? fun e ↦ e.logId.index == expected with
  | some e => rfl
  | none => rfl

/-- The collected entries are numbered consecutively from the expected index. -/
theorem numberedFrom_collectFrom (entries : List (LogEntry Op)) (expected remaining : ℕ) :
    NumberedFrom LogEntry.index expected (collectFrom entries expected remaining) := by
  induction remaining generalizing expected with
  | zero => trivial
  | succ remaining ih =>
    rw [collectFrom_succ]
    cases hfind : entries.find? fun e ↦ e.logId.index == expected with
    | none => trivial
    | some e =>
      have hindex : e.logId.index = expected := by simpa using List.find?_some hfind
      exact ⟨hindex, ih (expected + 1)⟩

theorem mem_of_mem_collectFrom {entries : List (LogEntry Op)} {expected remaining : ℕ}
    {e : LogEntry Op} (h : e ∈ collectFrom entries expected remaining) : e ∈ entries := by
  induction remaining generalizing expected with
  | zero => exact absurd h List.not_mem_nil
  | succ remaining ih =>
    rw [collectFrom_succ] at h
    cases hfind : entries.find? fun e ↦ e.logId.index == expected with
    | none => simp [hfind] at h
    | some found =>
      rw [hfind, Option.elim_some, List.mem_cons] at h
      rcases h with rfl | h
      · exact List.mem_of_find?_eq_some hfind
      · exact ih h

theorem length_collectFrom_le (entries : List (LogEntry Op)) (expected remaining : ℕ) :
    (collectFrom entries expected remaining).length ≤ remaining := by
  induction remaining generalizing expected with
  | zero => exact le_rfl
  | succ remaining ih =>
    rw [collectFrom_succ]
    cases entries.find? fun e ↦ e.logId.index == expected with
    | some e => exact Nat.succ_le_succ (ih _)
    | none => exact Nat.zero_le _

/-- The unapplied entries are numbered consecutively from the index after the applied one. -/
theorem numberedFrom_unappliedBetween (entries : List (LogEntry Op)) (applied committed : ℕ) :
    NumberedFrom LogEntry.index (applied + 1) (unappliedBetween entries applied committed) := by
  unfold unappliedBetween
  split_ifs
  · trivial
  · exact numberedFrom_collectFrom _ _ _

theorem mem_of_mem_unappliedBetween {entries : List (LogEntry Op)} {applied committed : ℕ}
    {e : LogEntry Op} (h : e ∈ unappliedBetween entries applied committed) : e ∈ entries := by
  unfold unappliedBetween at h
  split_ifs at h
  · exact absurd h List.not_mem_nil
  · exact mem_of_mem_collectFrom h

/-- No unapplied entry lies beyond the commit index. -/
theorem index_le_of_mem_unappliedBetween {entries : List (LogEntry Op)} {applied committed : ℕ}
    {e : LogEntry Op} (h : e ∈ unappliedBetween entries applied committed) :
    e.index ≤ committed := by
  have hbounds := (numberedFrom_unappliedBetween entries applied committed).bounds h
  unfold unappliedBetween at h hbounds
  split_ifs at h hbounds with hle
  · exact absurd h List.not_mem_nil
  · have hlength := length_collectFrom_le entries (applied + 1) (committed - applied)
    omega

/-! ### Reading entries back -/

theorem mem_getEntriesFrom {log : ConsensusLog Op} {fromIndex : ℕ} {e : LogEntry Op} :
    e ∈ log.getEntriesFrom fromIndex ↔ e ∈ log.entries ∧ fromIndex ≤ e.index := by
  rw [getEntriesFrom, List.mem_filter, decide_eq_true_iff]
  rfl

end ConsensusLog

end Lithair.Cluster
