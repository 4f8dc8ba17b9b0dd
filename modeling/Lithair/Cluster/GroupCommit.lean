import Lithair.Cluster.WalRecovery
import Lithair.Lib.Run

/-!
# Group commit

`append_buffered`, `flush`, `spawn_flush_task` and `shutdown` of `cluster/wal.rs`, for any number of
appends and flushes at once. An append puts its entry into the buffer and waits. A flush takes the
whole buffer, then writes the batch under the write lock, and then notifies the waiters one after
the other; between these it can be overtaken by another flush, and when the write fails, what it has
taken is gone and nobody tells the waiters.

The background task flushes at any time, since its interval may end at any time; a full buffer only
wakes it up earlier. It ends with the flush that it begins after the shutdown flag is set.

`commits_iff_flushesInOrder`: a run does what group commit promises exactly when no write fails and
the batches are written in the order in which they were taken.
-/

namespace Lithair.Cluster

open Lithair.Lib.OrderedList Lithair.Lib.Run

/-! ### The buffer and its flushes -/

/-- An entry of the buffer, with the number of the append that waits for it. -/
structure PendingEntry where
  entry : LogEntry CrudOperation
  waiter : ℕ

/-- Who flushes: the background task, or a caller of `flush` or `shutdown`. -/
inductive Flusher
  | background
  | caller (n : ℕ)
  deriving DecidableEq

/-- A flush that has taken entries: they are still to be written, or their waiters to be
notified. -/
inductive Flush
  | writing (entries : List PendingEntry)
  | notifying (entries : List PendingEntry)

/-- The log with its buffer, the flushes in progress, the shutdown flag, and whether the background
task has begun its last flush; beside these all entries that were ever buffered, the results of the
appends by number, and the entries of the flushes that failed. -/
structure GroupCommit where
  wal : WriteAheadLog
  pending : List PendingEntry
  flushes : Flusher → Option Flush
  shutdown : Bool
  stopped : Bool
  buffered : List (LogEntry CrudOperation)
  returned : List (ℕ × Bool)
  failed : List PendingEntry

inductive GroupCommitAction
  | appendBuffered (entry : LogEntry CrudOperation)
  | flush (n : ℕ)
  | tick
  | signalShutdown
  | writeBatch (flusher : Flusher) (outcome : IoOutcome)
  | notifyNext (flusher : Flusher)

namespace GroupCommit

variable (serde : Serde) (codec : RkyvCodec)

/-- A log that was opened. -/
def start (wal : WriteAheadLog) : GroupCommit where
  wal := wal
  pending := []
  flushes := fun _ ↦ none
  shutdown := false
  stopped := false
  buffered := []
  returned := []
  failed := []

/-- A flush takes the buffer, and is done when there is nothing in it. -/
def takeBuffer (s : GroupCommit) (flusher : Flusher) : GroupCommit :=
  if s.pending.isEmpty then s
  else
    { s with
      wal := { s.wal with pendingBuffer := [] }
      pending := []
      flushes := Function.update s.flushes flusher (some (.writing s.pending)) }

def step (s : GroupCommit) : GroupCommitAction → Option GroupCommit
  | .appendBuffered entry =>
    -- without group commit the entry is appended at once, and there is no buffer
    if s.wal.groupCommit then
      some { s with
        wal := { s.wal with
          pendingBuffer := s.wal.pendingBuffer ++ [entry]
          lastBufferedIndex := entry.index }
        pending := s.pending ++ [⟨entry, s.buffered.length⟩]
        buffered := s.buffered ++ [entry] }
    else none
  | .flush n => if (s.flushes (.caller n)).isNone then some (s.takeBuffer (.caller n)) else none
  | .tick =>
    if s.stopped = false ∧ (s.flushes .background).isNone then
      some ({ s with stopped := s.shutdown }.takeBuffer .background)
    else none
  | .signalShutdown => some { s with shutdown := true }
  | .writeBatch flusher outcome =>
    match s.flushes flusher with
    | some (.writing entries) =>
      match s.wal.appendBatch serde codec (entries.map PendingEntry.entry) outcome with
      | (wal, true) =>
        some { s with
          wal
          flushes := Function.update s.flushes flusher (some (.notifying entries)) }
      | (wal, false) =>
        some { s with
          wal
          flushes := Function.update s.flushes flusher none
          failed := s.failed ++ entries }
    | _ => none
  | .notifyNext flusher =>
    match s.flushes flusher with
    | some (.notifying (p :: rest)) =>
      some { s with
        flushes := Function.update s.flushes flusher
          (if rest.isEmpty then none else some (.notifying rest))
        returned := s.returned ++ [(p.waiter, true)] }
    | _ => none

/-! ### What is promised -/

/-- The entry of an append is in the buffer, or with a flush that is still to write it. -/
def Held (s : GroupCommit) (id : ℕ) : Prop :=
  (∃ p ∈ s.pending, p.waiter = id) ∨
    ∃ flusher entries, s.flushes flusher = some (.writing entries) ∧ ∃ p ∈ entries, p.waiter = id

/-- An append returns `Ok` only when its entry can be read; what can be read is what was in the log
before and the entries that were buffered and are not held any more, each once and in the order of
the buffer; and an entry of a flush that failed is in the buffer, or its append has returned an
error. -/
structure Commits (earlier : List (LogEntry CrudOperation)) (s : GroupCommit) : Prop where
  readable : ∀ id, (id, true) ∈ s.returned →
    ∃ entry read, s.buffered[id]? = some entry ∧
      WriteAheadLog.readAll serde codec s.wal.file = .ok read ∧ WalEntry.reread serde entry ∈ read
  inOrder : ∃ n ≤ s.buffered.length,
    WriteAheadLog.readAll serde codec s.wal.file =
        .ok ((earlier ++ s.buffered.take n).map (WalEntry.reread serde)) ∧
      ∀ id < s.buffered.length, s.Held id ↔ n ≤ id
  notLost : ∀ p ∈ s.failed, p ∈ s.pending ∨ (p.waiter, false) ∈ s.returned

/-- A batch is written without an error, and before the batches that were taken after it. -/
def FlushesInOrder (s : GroupCommit) : GroupCommitAction → Prop
  | .writeBatch flusher outcome =>
    ∀ entries, s.flushes flusher = some (.writing entries) →
      outcome = .synced ∧
      WriteAheadLog.Serialise serde codec (entries.map PendingEntry.entry) ∧
      ∀ other others, other ≠ flusher → s.flushes other = some (.writing others) →
        ∀ p ∈ entries, ∀ q ∈ others, p.waiter < q.waiter
  | _ => True

/-! ### What every run keeps -/

/-- The number of appends whose entries a flush has taken. -/
def taken (s : GroupCommit) : ℕ := s.buffered.length - s.pending.length

/-- The append has been or is being notified, or its flush has failed. -/
def Done (s : GroupCommit) (id : ℕ) : Prop :=
  (id, true) ∈ s.returned ∨ (∃ p ∈ s.failed, p.waiter = id) ∨
    ∃ flusher entries, s.flushes flusher = some (.notifying entries) ∧ ∃ p ∈ entries, p.waiter = id

/-- What a flush is to write: entries that were buffered one after the other. -/
structure BatchOk (buffered : List (LogEntry CrudOperation)) (taken : ℕ)
    (entries : List PendingEntry) : Prop where
  nonempty : entries ≠ []
  numbered : ∃ first, NumberedFrom PendingEntry.waiter first entries ∧
    first + entries.length ≤ taken
  entry : ∀ p ∈ entries, buffered[p.waiter]? = some p.entry

/-- The invariant of group commit. -/
structure Inv (earlier : List (LogEntry CrudOperation)) (s : GroupCommit) : Prop where
  length : s.pending.length ≤ s.buffered.length
  numbered : NumberedFrom PendingEntry.waiter s.taken s.pending
  entry : ∀ p ∈ s.pending, s.buffered[p.waiter]? = some p.entry
  batch : ∀ flusher entries, s.flushes flusher = some (.writing entries) →
    BatchOk s.buffered s.taken entries
  apart : ∀ flusher entries other others, flusher ≠ other →
    s.flushes flusher = some (.writing entries) → s.flushes other = some (.writing others) →
      ∀ p ∈ entries, ∀ q ∈ others, p.waiter ≠ q.waiter
  done : ∀ id, s.Done id → id < s.taken ∧
    ∀ flusher entries, s.flushes flusher = some (.writing entries) → ∀ p ∈ entries, p.waiter ≠ id
  noError : ∀ id, (id, false) ∉ s.returned
  file : s.failed = [] → ∃ written, WriteAheadLog.Serialise serde codec (earlier ++ written) ∧
    s.wal.file =
      walHeader ++ (WriteAheadLog.batchBytes serde codec (earlier ++ written)).1

section Invariant

variable {serde codec} {earlier : List (LogEntry CrudOperation)} {s next : GroupCommit}

theorem inv_start {wal : WriteAheadLog} (h : wal.Stores serde codec earlier) :
    Inv serde codec earlier (start wal) where
  length := le_rfl
  numbered := trivial
  entry := fun _ hp ↦ absurd hp List.not_mem_nil
  batch := fun _ _ h ↦ absurd h (by simp [start])
  apart := fun _ _ _ _ _ h ↦ absurd h (by simp [start])
  done := by
    rintro id (h | ⟨_, h, -⟩ | ⟨_, _, h, -⟩)
    · exact absurd h List.not_mem_nil
    · exact absurd h List.not_mem_nil
    · exact absurd h (by simp [start])
  noError := fun _ h ↦ absurd h List.not_mem_nil
  file := by
    intro _
    refine ⟨[], ?_, ?_⟩
    · rw [List.append_nil]
      exact h.serialises
    · rw [List.append_nil]
      exact h.file

theorem Inv.taken_add (h : Inv serde codec earlier s) :
    s.taken + s.pending.length = s.buffered.length := Nat.sub_add_cancel h.length

/-- The batch of a flush is a part of what was buffered. -/
theorem BatchOk.exists_first {buffered : List (LogEntry CrudOperation)} {taken : ℕ}
    {entries : List PendingEntry} (h : BatchOk buffered taken entries) :
    ∃ first, first + entries.length ≤ taken ∧
      entries.map PendingEntry.entry = (buffered.drop first).take entries.length ∧
      ∀ id, (∃ p ∈ entries, p.waiter = id) ↔ first ≤ id ∧ id < first + entries.length := by
  obtain ⟨first, hnumbered, hle⟩ := h.numbered
  refine ⟨first, hle, ?_, fun id ↦ ⟨?_, fun hid ↦ hnumbered.exists_mem hid.1 hid.2⟩⟩
  · have hentry := h.entry
    clear h hle
    induction entries generalizing first with
    | nil => rfl
    | cons p rest ih =>
      obtain ⟨hfirst, hrest⟩ := hnumbered
      have hp := hentry p List.mem_cons_self
      rw [hfirst] at hp
      obtain ⟨hlt, hget⟩ := List.getElem?_eq_some_iff.mp hp
      rw [List.drop_eq_getElem_cons hlt, List.map_cons, List.length_cons, List.take_succ_cons,
        hget, ← ih (first + 1) hrest fun q hq ↦ hentry q (List.mem_cons_of_mem p hq)]
  · rintro ⟨p, hp, rfl⟩
    exact hnumbered.bounds hp

theorem BatchOk.waiter_lt {buffered : List (LogEntry CrudOperation)} {taken : ℕ}
    {entries : List PendingEntry} (h : BatchOk buffered taken entries) {p : PendingEntry}
    (hp : p ∈ entries) : p.waiter < taken := by
  obtain ⟨first, hle, -, hids⟩ := h.exists_first
  have hlt := ((hids p.waiter).mp ⟨p, hp, rfl⟩).2
  omega

theorem getElem?_append_of_eq_some {buffered : List (LogEntry CrudOperation)} {i : ℕ}
    {entry : LogEntry CrudOperation} (h : buffered[i]? = some entry)
    (more : List (LogEntry CrudOperation)) : (buffered ++ more)[i]? = some entry := by
  obtain ⟨hlt, -⟩ := List.getElem?_eq_some_iff.mp h
  rw [List.getElem?_append_left hlt]
  exact h

/-- An entry is put into the buffer. -/
theorem Inv.appendBuffered (h : Inv serde codec earlier s) {entry : LogEntry CrudOperation}
    (hnext : step serde codec s (.appendBuffered entry) = some next) :
    Inv serde codec earlier next := by
  unfold step at hnext
  simp only at hnext
  split_ifs at hnext with hgroup
  obtain rfl := Option.some.inj hnext
  have htaken : (s.buffered ++ [entry]).length -
      (s.pending ++ [(⟨entry, s.buffered.length⟩ : PendingEntry)]).length = s.taken := by
    rw [List.length_append, List.length_append, List.length_singleton, List.length_singleton,
      Nat.add_sub_add_right]
    rfl
  have hlength := h.length
  refine { h with length := ?_, numbered := ?_, entry := ?_, batch := ?_, done := ?_ }
  · simpa using hlength
  · show NumberedFrom _ (_ - _) _
    rw [htaken]
    exact numberedFrom_append.mpr ⟨h.numbered, h.taken_add.symm, trivial⟩
  · intro p hp
    rcases List.mem_append.mp hp with hp | hp
    · exact getElem?_append_of_eq_some (h.entry p hp) _
    · rw [List.mem_singleton.mp hp]
      exact List.getElem?_concat_length
  · intro flusher entries hwriting
    have hbatch := h.batch flusher entries hwriting
    refine ⟨hbatch.nonempty, ?_, fun p hp ↦ getElem?_append_of_eq_some (hbatch.entry p hp) _⟩
    show ∃ first, _ ∧ _ ≤ _ - _
    rw [htaken]
    exact hbatch.numbered
  · intro id hid
    show id < _ - _ ∧ _
    rw [htaken]
    exact h.done id hid

/-- A flush takes the buffer. -/
theorem Inv.takeBuffer (h : Inv serde codec earlier s) {flusher : Flusher}
    (hfree : (s.flushes flusher).isNone) : Inv serde codec earlier (s.takeBuffer flusher) := by
  unfold GroupCommit.takeBuffer
  split_ifs with hempty
  · exact h
  have hnone : s.flushes flusher = none := Option.isNone_iff_eq_none.mp hfree
  have hpending : s.pending ≠ [] := fun hnil ↦ hempty (by rw [hnil]; rfl)
  have hadd := h.taken_add
  have hlow : ∀ p ∈ s.pending, s.taken ≤ p.waiter := fun p hp ↦ (h.numbered.bounds hp).1
  refine { h with
    length := Nat.zero_le _
    numbered := trivial
    entry := fun _ hp ↦ absurd hp List.not_mem_nil
    batch := ?_
    apart := ?_
    done := ?_ }
  · intro other others hwriting
    rcases update_eq_some_iff.mp hwriting with ⟨-, hnew⟩ | ⟨-, hold⟩
    · obtain rfl := Flush.writing.inj (Option.some.inj hnew)
      exact ⟨hpending, ⟨s.taken, h.numbered, hadd.le⟩, h.entry⟩
    · have hbatch := h.batch other others hold
      obtain ⟨first, hnumbered, hle⟩ := hbatch.numbered
      refine ⟨hbatch.nonempty, ⟨first, hnumbered, ?_⟩, hbatch.entry⟩
      show _ ≤ s.buffered.length - 0
      omega
  · intro one entries other others hne hone hother p hp q hq
    rcases update_eq_some_iff.mp hone with ⟨rfl, hnew⟩ | ⟨-, hold⟩
    · obtain rfl := Flush.writing.inj (Option.some.inj hnew)
      rcases update_eq_some_iff.mp hother with ⟨rfl, -⟩ | ⟨-, hold⟩
      · exact absurd rfl hne
      · have hlt := (h.batch other others hold).waiter_lt hq
        have hle := hlow p hp
        omega
    · rcases update_eq_some_iff.mp hother with ⟨rfl, hnew⟩ | ⟨-, hold'⟩
      · obtain rfl := Flush.writing.inj (Option.some.inj hnew)
        have hlt := (h.batch one entries hold).waiter_lt hp
        have hle := hlow q hq
        omega
      · exact h.apart one entries other others hne hold hold' p hp q hq
  · intro id hid
    have hdone : s.Done id := by
      rcases hid with hid | hid | ⟨other, others, hother, hp⟩
      · exact Or.inl hid
      · exact Or.inr (Or.inl hid)
      · rcases update_eq_some_iff.mp hother with ⟨-, hnew⟩ | ⟨-, hold⟩
        · exact absurd hnew (by simp)
        · exact Or.inr (Or.inr ⟨other, others, hold, hp⟩)
    obtain ⟨hlt, hapart⟩ := h.done id hdone
    refine ⟨?_, fun other others hother p hp ↦ ?_⟩
    · show id < s.buffered.length - 0
      omega
    · rcases update_eq_some_iff.mp hother with ⟨-, hnew⟩ | ⟨-, hold⟩
      · obtain rfl := Flush.writing.inj (Option.some.inj hnew)
        have hle := hlow p hp
        omega
      · exact hapart other others hold p hp

/-- A flush goes on from its write, or from one waiter to the next. -/
theorem Inv.replace (h : Inv serde codec earlier s) {flusher : Flusher} {new : Option Flush}
    (hpending : next.pending = s.pending) (hbuffered : next.buffered = s.buffered)
    (hflushes : next.flushes = Function.update s.flushes flusher new)
    (hnew : ∀ entries, new ≠ some (.writing entries))
    (hdone : ∀ id, next.Done id → s.Done id ∨
      ∃ entries, s.flushes flusher = some (.writing entries) ∧ ∃ p ∈ entries, p.waiter = id)
    (hnoError : ∀ id, (id, false) ∉ next.returned)
    (hfile : next.failed = [] → ∃ written,
      WriteAheadLog.Serialise serde codec (earlier ++ written) ∧ next.wal.file =
        walHeader ++ (WriteAheadLog.batchBytes serde codec (earlier ++ written)).1) :
    Inv serde codec earlier next := by
  have htaken : next.taken = s.taken := by
    unfold taken
    rw [hpending, hbuffered]
  have hwriting : ∀ other others, next.flushes other = some (.writing others) →
      other ≠ flusher ∧ s.flushes other = some (.writing others) := by
    intro other others hother
    rw [hflushes] at hother
    rcases update_eq_some_iff.mp hother with ⟨-, habsurd⟩ | hold
    · exact absurd habsurd (hnew others)
    · exact hold
  constructor
  · rw [hpending, hbuffered]
    exact h.length
  · rw [htaken, hpending]
    exact h.numbered
  · rw [hpending, hbuffered]
    exact h.entry
  · intro other others hother
    rw [htaken, hbuffered]
    exact h.batch other others (hwriting other others hother).2
  · intro one entries other others hne hone hother
    exact h.apart one entries other others hne (hwriting one entries hone).2
      (hwriting other others hother).2
  · intro id hid
    rw [htaken]
    rcases hdone id hid with hold | ⟨entries, hentries, p, hp, rfl⟩
    · obtain ⟨hlt, hapart⟩ := h.done id hold
      exact ⟨hlt, fun other others hother ↦ hapart other others (hwriting other others hother).2⟩
    · refine ⟨(h.batch flusher entries hentries).waiter_lt hp, fun other others hother q hq ↦ ?_⟩
      obtain ⟨hne, hold⟩ := hwriting other others hother
      exact h.apart other others flusher entries hne hold hentries q hq p hp
  · exact hnoError
  · exact hfile

/-- A batch is written without an error exactly when it serialises and nothing fails. -/
theorem appendBatch_isOk_iff {wal : WriteAheadLog} {entries : List (LogEntry CrudOperation)}
    (hempty : entries ≠ []) {outcome : IoOutcome} :
    (wal.appendBatch serde codec entries outcome).2 = true ↔
      outcome = .synced ∧ WriteAheadLog.Serialise serde codec entries := by
  unfold WriteAheadLog.appendBatch WriteAheadLog.Serialise
  rw [if_neg hempty]
  cases outcome with
  | failedAfter n => simp
  | synced =>
    by_cases hok : (WriteAheadLog.batchBytes serde codec entries).2 = true
    · simp [hok]
    · simp [hok]

/-- What writing a batch does. -/
theorem step_writeBatch {flusher : Flusher} {outcome : IoOutcome}
    (hnext : step serde codec s (.writeBatch flusher outcome) = some next) :
    ∃ entries wal ok, s.flushes flusher = some (.writing entries) ∧
      s.wal.appendBatch serde codec (entries.map PendingEntry.entry) outcome = (wal, ok) ∧
      next = if ok then
        { s with wal, flushes := Function.update s.flushes flusher (some (.notifying entries)) }
      else
        { s with
          wal
          flushes := Function.update s.flushes flusher none
          failed := s.failed ++ entries } := by
  unfold step at hnext
  simp only at hnext
  split at hnext
  · next entries hflusher =>
    split at hnext
    · next wal hwal =>
      exact ⟨entries, wal, true, hflusher, hwal, (Option.some.inj hnext).symm⟩
    · next wal hwal =>
      exact ⟨entries, wal, false, hflusher, hwal, (Option.some.inj hnext).symm⟩
  · exact absurd hnext (by simp)

theorem step_notifyNext {flusher : Flusher}
    (hnext : step serde codec s (.notifyNext flusher) = some next) :
    ∃ p rest, s.flushes flusher = some (.notifying (p :: rest)) ∧
      next = { s with
        flushes := Function.update s.flushes flusher
          (if rest.isEmpty then none else some (.notifying rest))
        returned := s.returned ++ [(p.waiter, true)] } := by
  unfold step at hnext
  simp only at hnext
  split at hnext
  · next p rest hflusher => exact ⟨p, rest, hflusher, (Option.some.inj hnext).symm⟩
  · exact absurd hnext (by simp)

/-- A batch that is written extends what is in the file. -/
theorem written_append {entries : List PendingEntry}
    (hserialise : WriteAheadLog.Serialise serde codec (entries.map PendingEntry.entry))
    {wal : WriteAheadLog}
    (hwal : s.wal.appendBatch serde codec (entries.map PendingEntry.entry) .synced = (wal, true))
    {written : List (LogEntry CrudOperation)}
    (hwritten : WriteAheadLog.Serialise serde codec (earlier ++ written))
    (hfile : s.wal.file =
      walHeader ++ (WriteAheadLog.batchBytes serde codec (earlier ++ written)).1) :
    WriteAheadLog.Serialise serde codec
        (earlier ++ (written ++ entries.map PendingEntry.entry)) ∧
      wal.file = walHeader ++ (WriteAheadLog.batchBytes serde codec
        (earlier ++ (written ++ entries.map PendingEntry.entry))).1 := by
  rw [← List.append_assoc]
  refine ⟨WriteAheadLog.serialise_append.mpr ⟨hwritten, hserialise⟩, ?_⟩
  have hextended := WriteAheadLog.file_appendBatch hserialise s.wal
  rw [hwal, hfile] at hextended
  rw [WriteAheadLog.batchBytes_append hwritten, ← List.append_assoc]
  exact hextended

theorem Inv.writeBatch (h : Inv serde codec earlier s) {flusher : Flusher} {outcome : IoOutcome}
    (hnext : step serde codec s (.writeBatch flusher outcome) = some next) :
    Inv serde codec earlier next := by
  obtain ⟨entries, wal, ok, hflusher, hwal, rfl⟩ := step_writeBatch hnext
  have hempty : entries.map PendingEntry.entry ≠ [] := by
    rw [ne_eq, List.map_eq_nil_iff]
    exact (h.batch flusher entries hflusher).nonempty
  cases ok with
  | true =>
    obtain ⟨rfl, hserialise⟩ := (appendBatch_isOk_iff hempty).mp (congrArg Prod.snd hwal)
    refine h.replace rfl rfl rfl (by simp) ?_ h.noError fun hfailed ↦ ?_
    · rintro id (hid | hid | ⟨other, others, hother, hp⟩)
      · exact Or.inl (Or.inl hid)
      · exact Or.inl (Or.inr (Or.inl hid))
      · rcases update_eq_some_iff.mp hother with ⟨-, hnew⟩ | ⟨-, hold⟩
        · obtain rfl := Flush.notifying.inj (Option.some.inj hnew)
          exact Or.inr ⟨entries, hflusher, hp⟩
        · exact Or.inl (Or.inr (Or.inr ⟨other, others, hold, hp⟩))
    · obtain ⟨written, hwritten, hfile⟩ := h.file hfailed
      exact ⟨_, written_append hserialise hwal hwritten hfile⟩
  | false =>
    refine h.replace rfl rfl rfl (by simp) ?_ h.noError fun hfailed ↦ ?_
    · rintro id (hid | ⟨p, hp, hid⟩ | ⟨other, others, hother, hp⟩)
      · exact Or.inl (Or.inl hid)
      · rcases List.mem_append.mp hp with hp | hp
        · exact Or.inl (Or.inr (Or.inl ⟨p, hp, hid⟩))
        · exact Or.inr ⟨entries, hflusher, p, hp, hid⟩
      · rcases update_eq_some_iff.mp hother with ⟨-, hnew⟩ | ⟨-, hold⟩
        · exact absurd hnew (by simp)
        · exact Or.inl (Or.inr (Or.inr ⟨other, others, hold, hp⟩))
    · exact absurd (List.append_eq_nil_iff.mp hfailed).2
        (h.batch flusher entries hflusher).nonempty

theorem Inv.notifyNext (h : Inv serde codec earlier s) {flusher : Flusher}
    (hnext : step serde codec s (.notifyNext flusher) = some next) :
    Inv serde codec earlier next := by
  obtain ⟨p, rest, hflusher, rfl⟩ := step_notifyNext hnext
  refine h.replace rfl rfl rfl ?_ ?_ ?_ h.file
  · intro entries
    split_ifs
    · simp
    · simp
  · rintro id (hid | hid | ⟨other, others, hother, hp⟩)
    · rcases List.mem_append.mp hid with hid | hid
      · exact Or.inl (Or.inl hid)
      · have hsame : id = p.waiter := (Prod.mk.inj (List.mem_singleton.mp hid)).1
        exact Or.inl (Or.inr (Or.inr ⟨flusher, p :: rest, hflusher, p, List.mem_cons_self,
          hsame.symm⟩))
    · exact Or.inl (Or.inr (Or.inl hid))
    · rcases update_eq_some_iff.mp hother with ⟨-, hnew⟩ | ⟨-, hold⟩
      · split_ifs at hnew
        obtain rfl := Flush.notifying.inj (Option.some.inj hnew)
        obtain ⟨q, hq, hid⟩ := hp
        exact Or.inl (Or.inr (Or.inr ⟨flusher, p :: rest, hflusher, q,
          List.mem_cons_of_mem p hq, hid⟩))
      · exact Or.inl (Or.inr (Or.inr ⟨other, others, hold, hp⟩))
  · intro id hid
    rcases List.mem_append.mp hid with hid | hid
    · exact h.noError id hid
    · exact Bool.noConfusion (Prod.mk.inj (List.mem_singleton.mp hid)).2

theorem kept_inv : Kept (step serde codec) (Inv serde codec earlier) := by
  intro s a next h hnext
  cases a with
  | appendBuffered entry => exact h.appendBuffered hnext
  | flush n =>
    unfold step at hnext
    simp only at hnext
    split_ifs at hnext with hfree
    obtain rfl := Option.some.inj hnext
    exact h.takeBuffer hfree
  | tick =>
    unfold step at hnext
    simp only at hnext
    split_ifs at hnext with hfree
    obtain rfl := Option.some.inj hnext
    have hflag : Inv serde codec earlier { s with stopped := s.shutdown } := { h with }
    exact hflag.takeBuffer hfree.2
  | signalShutdown =>
    obtain rfl := Option.some.inj hnext
    exact { h with }
  | writeBatch flusher outcome => exact h.writeBatch hnext
  | notifyNext flusher => exact h.notifyNext hnext

end Invariant

/-! ### When the promise is kept -/

/-- The part of the promise about the file. -/
def InOrder (serde : Serde) (codec : RkyvCodec) (earlier : List (LogEntry CrudOperation))
    (s : GroupCommit) : Prop :=
  ∃ n ≤ s.buffered.length,
    WriteAheadLog.readAll serde codec s.wal.file =
        .ok ((earlier ++ s.buffered.take n).map (WalEntry.reread serde)) ∧
      ∀ id < s.buffered.length, s.Held id ↔ n ≤ id

section Promise

variable {serde codec} {earlier : List (LogEntry CrudOperation)} {s next : GroupCommit}

theorem Inv.not_held_of_done (h : Inv serde codec earlier s) {id : ℕ} (hid : s.Done id) :
    ¬ s.Held id := by
  obtain ⟨hlt, hapart⟩ := h.done id hid
  rintro (⟨p, hp, rfl⟩ | ⟨flusher, entries, hwriting, p, hp, hwaiter⟩)
  · exact absurd (h.numbered.bounds hp).1 (by omega)
  · exact hapart flusher entries hwriting p hp hwaiter

/-- An append that has returned is in the file when the file has what is not held. -/
theorem Inv.readable (h : Inv serde codec earlier s) (horder : InOrder serde codec earlier s)
    {id : ℕ} (hid : (id, true) ∈ s.returned) :
    ∃ entry read, s.buffered[id]? = some entry ∧
      WriteAheadLog.readAll serde codec s.wal.file = .ok read ∧
        WalEntry.reread serde entry ∈ read := by
  obtain ⟨n, hn, hread, hheld⟩ := horder
  have hlt : id < s.buffered.length := by
    have htaken := (h.done id (Or.inl hid)).1
    have hadd := h.taken_add
    omega
  have hidn : id < n := by
    by_contra hle
    exact h.not_held_of_done (Or.inl hid) ((hheld id hlt).mpr (by omega))
  refine ⟨s.buffered[id], _, List.getElem?_eq_getElem hlt, hread, List.mem_map.mpr ⟨_, ?_, rfl⟩⟩
  refine List.mem_append.mpr (Or.inr (List.mem_take_iff_getElem.mpr ⟨id, ?_, rfl⟩))
  rwa [min_eq_left hn]

/-- No entry of a flush that failed comes back, and no append returns an error. -/
theorem Inv.failed_eq_nil (h : Inv serde codec earlier s)
    (hlost : ∀ p ∈ s.failed, p ∈ s.pending ∨ (p.waiter, false) ∈ s.returned) : s.failed = [] := by
  refine List.eq_nil_iff_forall_not_mem.mpr fun p hp ↦ ?_
  have hdone : s.Done p.waiter := Or.inr (Or.inl ⟨p, hp, rfl⟩)
  rcases hlost p hp with hpending | herror
  · exact h.not_held_of_done hdone (Or.inl ⟨p, hpending, rfl⟩)
  · exact h.noError p.waiter herror

theorem Inv.commits_iff (h : Inv serde codec earlier s) :
    Commits serde codec earlier s ↔ InOrder serde codec earlier s ∧ s.failed = [] := by
  constructor
  · intro hcommits
    exact ⟨hcommits.inOrder, h.failed_eq_nil hcommits.notLost⟩
  · rintro ⟨horder, hfailed⟩
    refine ⟨fun id hid ↦ h.readable horder hid, horder, fun p hp ↦ ?_⟩
    rw [hfailed] at hp
    exact absurd hp List.not_mem_nil

/-- The promise is kept by a step that leaves the file, the failures and what is held as they
are. -/
theorem InOrder.congr (h : InOrder serde codec earlier s)
    (hbuffered : next.buffered = s.buffered) (hfile : next.wal.file = s.wal.file)
    (hheld : ∀ id, next.Held id ↔ s.Held id) : InOrder serde codec earlier next := by
  obtain ⟨n, hn, hread, hids⟩ := h
  refine ⟨n, hbuffered ▸ hn, ?_, fun id hid ↦ ?_⟩
  · rw [hfile, hbuffered]
    exact hread
  · rw [hheld]
    rw [hbuffered] at hid
    exact hids id hid

theorem held_takeBuffer {flusher : Flusher} (hfree : (s.flushes flusher).isNone) (id : ℕ) :
    (s.takeBuffer flusher).Held id ↔ s.Held id := by
  have hnone : s.flushes flusher = none := Option.isNone_iff_eq_none.mp hfree
  unfold takeBuffer
  split_ifs
  · rfl
  constructor
  · rintro (⟨p, hp, -⟩ | ⟨other, others, hother, hp⟩)
    · exact absurd hp List.not_mem_nil
    · rcases update_eq_some_iff.mp hother with ⟨-, hnew⟩ | ⟨-, hold⟩
      · obtain rfl := Flush.writing.inj (Option.some.inj hnew)
        exact Or.inl hp
      · exact Or.inr ⟨other, others, hold, hp⟩
  · rintro (hp | ⟨other, others, hother, hp⟩)
    · exact Or.inr ⟨flusher, s.pending, update_eq_some_iff.mpr (Or.inl ⟨rfl, rfl⟩), hp⟩
    · refine Or.inr ⟨other, others, update_eq_some_iff.mpr (Or.inr ⟨?_, hother⟩), hp⟩
      rintro rfl
      exact absurd (hnone.symm.trans hother) (by simp)

theorem buffered_takeBuffer (s : GroupCommit) (flusher : Flusher) :
    (s.takeBuffer flusher).buffered = s.buffered := by
  unfold takeBuffer
  split_ifs
  · rfl
  · rfl

theorem file_takeBuffer (s : GroupCommit) (flusher : Flusher) :
    (s.takeBuffer flusher).wal.file = s.wal.file := by
  unfold takeBuffer
  split_ifs
  · rfl
  · rfl

theorem failed_takeBuffer (s : GroupCommit) (flusher : Flusher) :
    (s.takeBuffer flusher).failed = s.failed := by
  unfold takeBuffer
  split_ifs
  · rfl
  · rfl

/-- Held is what was held, less what the flush was to write. -/
theorem held_update (flusher : Flusher) (new : Option Flush)
    (hpending : next.pending = s.pending)
    (hflushes : next.flushes = Function.update s.flushes flusher new)
    (hnew : ∀ entries, new ≠ some (.writing entries)) (id : ℕ) :
    next.Held id ↔ (∃ p ∈ s.pending, p.waiter = id) ∨
      ∃ other others, other ≠ flusher ∧ s.flushes other = some (.writing others) ∧
        ∃ p ∈ others, p.waiter = id := by
  unfold Held
  rw [hpending, hflushes]
  refine or_congr Iff.rfl ⟨?_, ?_⟩
  · rintro ⟨other, others, hother, hp⟩
    rcases update_eq_some_iff.mp hother with ⟨-, habsurd⟩ | ⟨hne, hold⟩
    · exact absurd habsurd (hnew others)
    · exact ⟨other, others, hne, hold, hp⟩
  · rintro ⟨other, others, hne, hold, hp⟩
    exact ⟨other, others, update_eq_some_iff.mpr (Or.inr ⟨hne, hold⟩), hp⟩

theorem readAll_written {written : List (LogEntry CrudOperation)} {file : List UInt8}
    (hwritten : WriteAheadLog.Serialise serde codec written)
    (hfile : file = walHeader ++ (WriteAheadLog.batchBytes serde codec written).1) :
    WriteAheadLog.readAll serde codec file = .ok (written.map (WalEntry.reread serde)) := by
  rw [hfile, WriteAheadLog.readAll_header_append]
  exact WriteAheadLog.readEntries_batchBytes hwritten

/-- What is held once a batch is written. -/
theorem held_written (h : Inv serde codec earlier s) {flusher : Flusher}
    {entries : List PendingEntry} (hflusher : s.flushes flusher = some (.writing entries))
    (new : Option Flush) (hpending : next.pending = s.pending)
    (hflushes : next.flushes = Function.update s.flushes flusher new)
    (hnew : ∀ entries, new ≠ some (.writing entries)) (id : ℕ) :
    next.Held id ↔ s.Held id ∧ ¬ ∃ p ∈ entries, p.waiter = id := by
  rw [held_update flusher new hpending hflushes hnew]
  constructor
  · rintro (⟨p, hp, rfl⟩ | ⟨other, others, hne, hother, p, hp, rfl⟩)
    · refine ⟨Or.inl ⟨p, hp, rfl⟩, ?_⟩
      rintro ⟨q, hq, hwaiter⟩
      have hlt := (h.batch flusher entries hflusher).waiter_lt hq
      have hle := (h.numbered.bounds hp).1
      omega
    · refine ⟨Or.inr ⟨other, others, hother, p, hp, rfl⟩, ?_⟩
      rintro ⟨q, hq, hwaiter⟩
      exact h.apart other others flusher entries hne hother hflusher p hp q hq hwaiter.symm
  · rintro ⟨hpend | ⟨other, others, hother, hp⟩, hnot⟩
    · exact Or.inl hpend
    · by_cases hsame : other = flusher
      · subst hsame
        obtain rfl := Flush.writing.inj (Option.some.inj (hflusher.symm.trans hother))
        exact absurd hp hnot
      · exact Or.inr ⟨other, others, hsame, hother, hp⟩

/-- A batch that is written in its turn begins with the first entry that is not in the file. -/
theorem first_eq_of_inOrder (h : Inv serde codec earlier s) {flusher : Flusher}
    {entries : List PendingEntry} (hflusher : s.flushes flusher = some (.writing entries))
    (hturn : ∀ other others, other ≠ flusher → s.flushes other = some (.writing others) →
      ∀ p ∈ entries, ∀ q ∈ others, p.waiter < q.waiter) {n first : ℕ}
    (hheld : ∀ id < s.buffered.length, s.Held id ↔ n ≤ id)
    (hle : first + entries.length ≤ s.taken)
    (hids : ∀ id, (∃ p ∈ entries, p.waiter = id) ↔ first ≤ id ∧ id < first + entries.length) :
    first = n := by
  have hadd := h.taken_add
  have hpos : 0 < entries.length :=
    List.length_pos_iff.mpr (h.batch flusher entries hflusher).nonempty
  obtain ⟨p, hp, hfirst⟩ := (hids first).mpr ⟨le_rfl, by omega⟩
  have hnle : n ≤ first := (hheld first (by omega)).mp
    (Or.inr ⟨flusher, entries, hflusher, p, hp, hfirst⟩)
  refine le_antisymm ?_ hnle
  rcases (hheld n (by omega)).mpr le_rfl with ⟨q, hq, hn⟩ | ⟨other, others, hother, q, hq, hn⟩
  · have hlow := (h.numbered.bounds hq).1
    omega
  · by_cases hsame : other = flusher
    · subst hsame
      obtain rfl := Flush.writing.inj (Option.some.inj (hflusher.symm.trans hother))
      exact ((hids n).mp ⟨q, hq, hn⟩).1
    · have hlt := hturn other others hsame hother p hp q hq
      omega

/-- When what is still held begins at one place, the batch that was written was before the
others. -/
theorem turn_of_held (h : Inv serde codec earlier s) {flusher : Flusher}
    {entries : List PendingEntry} (hflusher : s.flushes flusher = some (.writing entries))
    {n first : ℕ}
    (hids : ∀ id, (∃ p ∈ entries, p.waiter = id) ↔ first ≤ id ∧ id < first + entries.length)
    (hheld : ∀ id < s.buffered.length,
      s.Held id ∧ ¬ (first ≤ id ∧ id < first + entries.length) ↔ n ≤ id) :
    ∀ other others, other ≠ flusher → s.flushes other = some (.writing others) →
      ∀ p ∈ entries, ∀ q ∈ others, p.waiter < q.waiter := by
  intro other others hne hother p hp q hq
  have hadd := h.taken_add
  have hpless : p.waiter < n := by
    by_contra hle
    have hlt := (h.batch flusher entries hflusher).waiter_lt hp
    have hstill := (hheld p.waiter (by omega)).mpr (by omega)
    exact hstill.2 ((hids p.waiter).mp ⟨p, hp, rfl⟩)
  have hqmore : n ≤ q.waiter := by
    have hlt := (h.batch other others hother).waiter_lt hq
    refine (hheld q.waiter (by omega)).mp
      ⟨Or.inr ⟨other, others, hother, q, hq, rfl⟩, fun hin ↦ ?_⟩
    obtain ⟨r, hr, hwaiter⟩ := (hids q.waiter).mpr hin
    exact h.apart other others flusher entries hne hother hflusher q hq r hr hwaiter.symm
  exact hpless.trans_le hqmore

/-- Writing a batch keeps the promise exactly when it does not fail and is the batch's turn. -/
theorem commits_writeBatch_iff (h : Inv serde codec earlier s)
    (hcommits : Commits serde codec earlier s) {flusher : Flusher} {outcome : IoOutcome}
    (hnext : step serde codec s (.writeBatch flusher outcome) = some next) :
    Commits serde codec earlier next ↔
      FlushesInOrder serde codec s (.writeBatch flusher outcome) := by
  rw [(h.writeBatch hnext).commits_iff]
  obtain ⟨⟨n, hn, hread, hheld⟩, hfailed⟩ := h.commits_iff.mp hcommits
  obtain ⟨entries, wal, ok, hflusher, hwal, rfl⟩ := step_writeBatch hnext
  have hbatch := h.batch flusher entries hflusher
  have hempty : entries.map PendingEntry.entry ≠ [] := by
    rw [ne_eq, List.map_eq_nil_iff]
    exact hbatch.nonempty
  cases ok with
  | false =>
    refine iff_of_false ?_ ?_
    · rintro ⟨-, hnone⟩
      exact hbatch.nonempty (List.append_eq_nil_iff.mp hnone).2
    · intro hturn
      obtain ⟨hsynced, hserialise, -⟩ := hturn entries hflusher
      have hok :
          (s.wal.appendBatch serde codec (entries.map PendingEntry.entry) outcome).2 = true :=
        (appendBatch_isOk_iff hempty).mpr ⟨hsynced, hserialise⟩
      rw [hwal] at hok
      exact Bool.noConfusion hok
  | true =>
    obtain ⟨rfl, hserialise⟩ := (appendBatch_isOk_iff hempty).mp (congrArg Prod.snd hwal)
    obtain ⟨written, hwritten, hfile⟩ := h.file hfailed
    obtain ⟨hwritten', hfile'⟩ := written_append hserialise hwal hwritten hfile
    have hsame := Except.ok.inj (hread.symm.trans (readAll_written hwritten hfile))
    have hlength : written.length = n := by
      have hlengths := congrArg List.length hsame
      simp only [List.length_map, List.length_append, List.length_take] at hlengths
      omega
    obtain ⟨first, hle, hslice, hids⟩ := hbatch.exists_first
    have hadd := h.taken_add
    rw [if_pos rfl]
    have hheld' : ∀ id, Held { s with
          wal, flushes := Function.update s.flushes flusher (some (.notifying entries)) } id ↔
        s.Held id ∧ ¬ (first ≤ id ∧ id < first + entries.length) := by
      intro id
      rw [← hids]
      refine held_written h hflusher (some (.notifying entries)) ?_ ?_ ?_ id
      · rfl
      · rfl
      · simp
    constructor
    · rintro ⟨⟨n', hn', hread', hheld''⟩, -⟩ others hothers
      obtain rfl := Flush.writing.inj (Option.some.inj (hflusher.symm.trans hothers))
      exact ⟨rfl, hserialise, turn_of_held h hflusher hids fun id hid ↦
        (hheld' id).symm.trans (hheld'' id hid)⟩
    · intro hturn
      obtain rfl := first_eq_of_inOrder h hflusher (hturn entries hflusher).2.2 hheld hle hids
      refine ⟨⟨first + entries.length, ?_, ?_, fun id hid ↦ ?_⟩, hfailed⟩
      · show _ ≤ s.buffered.length
        omega
      · show WriteAheadLog.readAll serde codec wal.file = _
        rw [readAll_written hwritten' hfile', ← List.append_assoc, List.map_append, ← hsame, hslice,
          ← List.map_append, List.append_assoc, ← List.take_add]
      · rw [hheld' id, hheld id hid]
        omega

/-- A new entry is behind all others, and is held. -/
theorem InOrder.appendBuffered (h : InOrder serde codec earlier s)
    (entry : LogEntry CrudOperation) :
    InOrder serde codec earlier { s with
      wal := { s.wal with
        pendingBuffer := s.wal.pendingBuffer ++ [entry]
        lastBufferedIndex := entry.index }
      pending := s.pending ++ [⟨entry, s.buffered.length⟩]
      buffered := s.buffered ++ [entry] } := by
  obtain ⟨n, hn, hread, hheld⟩ := h
  refine ⟨n, ?_, ?_, fun id hid ↦ ?_⟩
  · show n ≤ (s.buffered ++ [entry]).length
    rw [List.length_append]
    omega
  · show WriteAheadLog.readAll serde codec s.wal.file =
      .ok ((earlier ++ (s.buffered ++ [entry]).take n).map _)
    rw [List.take_append_of_le_length hn]
    exact hread
  · change id < (s.buffered ++ [entry]).length at hid
    rw [List.length_append, List.length_singleton] at hid
    have hlast : Held { s with
        wal := { s.wal with
          pendingBuffer := s.wal.pendingBuffer ++ [entry]
          lastBufferedIndex := entry.index }
        pending := s.pending ++ [⟨entry, s.buffered.length⟩]
        buffered := s.buffered ++ [entry] } id ↔ s.Held id ∨ s.buffered.length = id := by
      unfold Held
      simp only [List.mem_append, List.mem_singleton, or_and_right, exists_or, exists_eq_left]
      exact or_right_comm
    rw [hlast]
    by_cases hnew : id = s.buffered.length
    · exact iff_of_true (Or.inr hnew.symm) (by omega)
    · rw [or_iff_left (Ne.symm hnew)]
      exact hheld id (by omega)

/-- A flush that tells its waiters holds nothing. -/
theorem held_notifyNext {flusher : Flusher} {p : PendingEntry} {rest : List PendingEntry}
    (hflusher : s.flushes flusher = some (.notifying (p :: rest))) (id : ℕ) :
    Held { s with
        flushes := Function.update s.flushes flusher
          (if rest.isEmpty then none else some (.notifying rest))
        returned := s.returned ++ [(p.waiter, true)] } id ↔ s.Held id := by
  have hnew : ∀ entries, (if rest.isEmpty then none else some (Flush.notifying rest)) ≠
      some (.writing entries) := by
    intro entries
    split_ifs
    · simp
    · simp
  refine (held_update flusher _ ?_ ?_ hnew id).trans (or_congr Iff.rfl ⟨?_, ?_⟩)
  · rfl
  · rfl
  · rintro ⟨other, others, -, hother, hp⟩
    exact ⟨other, others, hother, hp⟩
  · rintro ⟨other, others, hother, hp⟩
    refine ⟨other, others, ?_, hother, hp⟩
    rintro rfl
    exact absurd (hflusher.symm.trans hother) (by simp)

theorem commits_step_iff (s : GroupCommit) (a : GroupCommitAction) (next : GroupCommit)
    (h : Inv serde codec earlier s) (hcommits : Commits serde codec earlier s)
    (hnext : step serde codec s a = some next) :
    Commits serde codec earlier next ↔ FlushesInOrder serde codec s a := by
  have hinv := kept_inv s a next h hnext
  obtain ⟨horder, hfailed⟩ := h.commits_iff.mp hcommits
  cases a with
  | writeBatch flusher outcome => exact commits_writeBatch_iff h hcommits hnext
  | appendBuffered entry =>
    refine iff_of_true (hinv.commits_iff.mpr ?_) trivial
    unfold step at hnext
    simp only at hnext
    split_ifs at hnext
    obtain rfl := Option.some.inj hnext
    exact ⟨horder.appendBuffered entry, hfailed⟩
  | flush n =>
    refine iff_of_true (hinv.commits_iff.mpr ?_) trivial
    unfold step at hnext
    simp only at hnext
    split_ifs at hnext with hfree
    obtain rfl := Option.some.inj hnext
    exact ⟨horder.congr (buffered_takeBuffer s _) (file_takeBuffer s _) (held_takeBuffer hfree),
      (failed_takeBuffer s _).trans hfailed⟩
  | tick =>
    refine iff_of_true (hinv.commits_iff.mpr ?_) trivial
    unfold step at hnext
    simp only at hnext
    split_ifs at hnext with hfree
    obtain rfl := Option.some.inj hnext
    exact ⟨horder.congr (buffered_takeBuffer _ _) (file_takeBuffer _ _) (held_takeBuffer hfree.2),
      (failed_takeBuffer _ _).trans hfailed⟩
  | signalShutdown =>
    refine iff_of_true (hinv.commits_iff.mpr ?_) trivial
    obtain rfl := Option.some.inj hnext
    exact ⟨horder.congr rfl rfl fun _ ↦ Iff.rfl, hfailed⟩
  | notifyNext flusher =>
    refine iff_of_true (hinv.commits_iff.mpr ?_) trivial
    obtain ⟨p, rest, hflusher, rfl⟩ := step_notifyNext hnext
    exact ⟨horder.congr rfl rfl (held_notifyNext hflusher), hfailed⟩

theorem commits_start {wal : WriteAheadLog} (h : wal.Stores serde codec earlier) :
    Commits serde codec earlier (start wal) := by
  refine (inv_start h).commits_iff.mpr ⟨⟨0, le_rfl, ?_, fun id hid ↦ absurd hid (by simp [start])⟩,
    rfl⟩
  rw [List.take_zero, List.append_nil]
  exact WriteAheadLog.readAll_of_stores h

end Promise

/-- A run from a log that was opened keeps the promise of group commit in every state exactly when
each batch is written without an error, and before the batches that were taken after it. -/
theorem commits_iff_flushesInOrder (serde : Serde) (codec : RkyvCodec) (wal : WriteAheadLog)
    (earlier : List (LogEntry CrudOperation)) (h : wal.Stores serde codec earlier)
    (actions : List GroupCommitAction) :
    Always (step serde codec) (Commits serde codec earlier) (start wal) actions ↔
      EachStep (step serde codec) (FlushesInOrder serde codec) (start wal) actions :=
  always_iff_eachStep kept_inv commits_step_iff (inv_start h) (commits_start h) actions

/-! ### One buffered deletion -/

section OneDeletion

open WriteAheadLog

/-- The deletion is buffered, and the background task takes and writes it. -/
def bufferAndWrite (outcome : IoOutcome) : List GroupCommitAction :=
  [.appendBuffered deletion, .tick, .writeBatch .background outcome]

/-- The write goes through, and the append is told. -/
theorem commits_deletion :
    Always (step silentSerde deletionCodec) (Commits silentSerde deletionCodec [])
      (start (WriteAheadLog.new deletionCodec none))
      (bufferAndWrite .synced ++ [.notifyNext .background]) := by
  refine (commits_iff_flushesInOrder silentSerde deletionCodec _ [] stores_new _).mpr ?_
  refine fun _ hbuffered ↦ ⟨trivial, fun _ htaken ↦ ⟨trivial, fun _ _ ↦ ⟨?_, fun _ _ ↦
    ⟨trivial, trivial⟩⟩⟩⟩
  obtain rfl := Option.some.inj hbuffered
  obtain rfl := Option.some.inj htaken
  intro entries hentries
  obtain rfl := Flush.writing.inj (Option.some.inj hentries)
  refine ⟨rfl, rfl, fun other others hne hother ↦ ?_⟩
  rcases update_eq_some_iff.mp hother with ⟨hsame, -⟩ | ⟨-, hold⟩
  · exact absurd hsame hne
  · exact absurd hold (by simp [start])

/-- The write fails: the deletion is in neither the file nor the buffer, and its append waits. -/
theorem deletion_lost :
    ¬ ∀ actions : List GroupCommitAction,
      Always (step silentSerde deletionCodec) (Commits silentSerde deletionCodec [])
        (start (WriteAheadLog.new deletionCodec none)) actions := by
  intro h
  have hrun : (exec (step silentSerde deletionCodec) (start (WriteAheadLog.new deletionCodec none))
      (bufferAndWrite (.failedAfter 0))).map (fun s ↦ (s.failed, s.pending, s.returned)) =
      some ([⟨deletion, 0⟩], [], []) := rfl
  obtain ⟨t, ht, hfinal⟩ := Option.map_eq_some_iff.mp hrun
  simp only [Prod.mk.injEq] at hfinal
  obtain ⟨hfailed, hpending, hreturned⟩ := hfinal
  have hlost := ((h _).exec ht).notLost ⟨deletion, 0⟩ (hfailed ▸ List.mem_cons_self)
  rw [hpending, hreturned] at hlost
  exact hlost.elim List.not_mem_nil List.not_mem_nil

end OneDeletion

end GroupCommit

end Lithair.Cluster
