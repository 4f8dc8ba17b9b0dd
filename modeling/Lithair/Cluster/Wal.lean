import Lithair.Cluster.CrudOperation
import Lithair.Lib.Framing

/-!
# The write-ahead log

`cluster/wal.rs`: the file in which a node records the entries of its consensus log, the operations
that extend it (`append`, `appendBatch`, and `appendBuffered` with `flush`), and the two that read
it, `readAll` for recovery and `findLastIndex` when the file is opened. A record is a frame of
`Lib.Framing` with an FNV-1a checksum around the serialised entry.

The rkyv codec is a parameter, of which only the round trip is asked; the texts and values of the
JSON, version and schema types are the parameters of `Serde`. An I/O error may cut a write off at
any byte. `readAll_of_stores` reads back all that acknowledged writes stored, and
`withConfig_of_stores` says that opening the file again finds the position and the last index it
had.
-/

namespace Lithair.Cluster

open Lithair.Lib Lithair.Lib.Framing

/-! ### Entries and their operations -/

/-- An operation as the file keeps it, with values as JSON texts. -/
inductive WalOperation
  | create (modelPath data : String)
  | update (modelPath id data : String)
  | delete (modelPath id : String)
  | migration (migrationType payload : String)
  deriving DecidableEq

variable (serde : Serde)

namespace WalOperation

def ofCrudOperation : CrudOperation → WalOperation
  | .create modelPath data => .create modelPath (serde.jsonText data)
  | .update modelPath id data => .update modelPath id (serde.jsonText data)
  | .delete modelPath id => .delete modelPath id
  | .migrationBegin fromVersion toVersion migrationId =>
    .migration "begin" (serde.jsonText (Json.ofFields [
      ("from_version", serde.versionValue fromVersion),
      ("to_version", serde.versionValue toVersion),
      ("migration_id", .string (serde.uuidText migrationId))]))
  | .migrationStep migrationId stepIndex operation =>
    .migration "step" (serde.jsonText (Json.ofFields [
      ("migration_id", .string (serde.uuidText migrationId)),
      ("step_index", .number (.posInt stepIndex.toUInt64)),
      ("operation", serde.changeValue operation)]))
  | .migrationCommit migrationId checksum =>
    .migration "commit" (serde.jsonText (Json.ofFields [
      ("migration_id", .string (serde.uuidText migrationId)),
      ("checksum", .string checksum)]))
  | .migrationRollback migrationId failedStep reason =>
    .migration "rollback" (serde.jsonText (Json.ofFields [
      ("migration_id", .string (serde.uuidText migrationId)),
      ("failed_step", .number (.posInt failedStep.toUInt64)),
      ("reason", .string reason)]))

/-- The identifier of a migration in its payload; nil where there is none. -/
def migrationIdOf (json : Json) : Uuid :=
  (((json.index "migration_id").asStr).bind serde.parseUuid).getD 0

def toCrudOperation : WalOperation → CrudOperation
  | .create modelPath data => .create modelPath ((serde.parseJson data).getD .null)
  | .update modelPath id data => .update modelPath id ((serde.parseJson data).getD .null)
  | .delete modelPath id => .delete modelPath id
  | .migration migrationType payload =>
    let json := (serde.parseJson payload).getD .null
    if migrationType = "begin" then
      .migrationBegin ((serde.versionOfValue (json.index "from_version")).getD .default)
        ((serde.versionOfValue (json.index "to_version")).getD .default) (migrationIdOf serde json)
    else if migrationType = "step" then
      .migrationStep (migrationIdOf serde json)
        (((json.index "step_index").asU64).getD 0).toUInt32
        ((serde.changeOfValue (json.index "operation")).getD (.custom "parse_error" "" ""))
    else if migrationType = "commit" then
      .migrationCommit (migrationIdOf serde json) (((json.index "checksum").asStr).getD "")
    else if migrationType = "rollback" then
      .migrationRollback (migrationIdOf serde json)
        (((json.index "failed_step").asU64).getD 0).toUInt32
        (((json.index "reason").asStr).getD "")
    else .migrationRollback 0 0 ("Unknown migration type: " ++ migrationType)

end WalOperation

/-- A record of the file. -/
structure WalEntry where
  term : ℕ
  index : ℕ
  timestampMs : ℕ
  operation : WalOperation
  deriving DecidableEq

namespace WalEntry

def fromLogEntry (entry : LogEntry CrudOperation) : WalEntry where
  term := entry.logId.term
  index := entry.logId.index
  timestampMs := entry.timestampMs
  operation := .ofCrudOperation serde entry.operation

def toLogEntry (entry : WalEntry) : LogEntry CrudOperation where
  logId := ⟨entry.term, entry.index⟩
  operation := entry.operation.toCrudOperation serde
  timestampMs := entry.timestampMs

/-- What an entry becomes when it is written and read. -/
def reread (entry : LogEntry CrudOperation) : LogEntry CrudOperation :=
  (fromLogEntry serde entry).toLogEntry serde

end WalEntry

/-- The rkyv serialisation of records. -/
structure RkyvCodec where
  toBytes : WalEntry → Option (List UInt8)
  fromBytes : List UInt8 → Option WalEntry
  /-- A record reads back from the bytes it was written as. -/
  fromBytes_toBytes : ∀ {entry bytes}, toBytes entry = some bytes → fromBytes bytes = some entry
  /-- The bytes fit into memory. -/
  length_toBytes : ∀ {entry bytes}, toBytes entry = some bytes → bytes.length < 2 ^ 64

variable (codec : RkyvCodec)

/-! ### The file -/

def walMagic : List UInt8 := [0x4c, 0x57, 0x41, 0x4c]

/-- The header: the magic and the version. -/
def walHeader : List UInt8 := walMagic ++ leBytes 4 1

/-- The errors of the reads. -/
inductive IoError
  | unexpectedEof
  | invalidData (message : String)
  deriving DecidableEq

/-- How a write to the file ends: written and synced, or with an error after some of its bytes
reached the file. -/
inductive IoOutcome
  | synced
  | failedAfter (bytes : ℕ)
  deriving DecidableEq

/-- The write-ahead log of a node: its file, and what the process keeps beside it. -/
structure WriteAheadLog where
  file : List UInt8
  writePosition : ℕ
  lastSyncedIndex : ℕ
  lastBufferedIndex : ℕ
  pendingBuffer : List (LogEntry CrudOperation)
  groupCommit : Bool

namespace WriteAheadLog

/-! ### Reading the file -/

/-- The records behind the header, up to the end or the first that is corrupted. -/
def readEntries (bytes : List UInt8) : Except IoError (List (LogEntry CrudOperation)) :=
  match _hread : readFrame fnv1aHash bytes with
  | .done => .ok []
  | .truncated => .error .unexpectedEof
  | .corrupt => .ok []
  | .frame data rest =>
    match codec.fromBytes data with
    | none => .ok []
    | some walEntry => (readEntries rest).map fun entries ↦ walEntry.toLogEntry serde :: entries
termination_by bytes.length
decreasing_by exact length_of_readFrame fnv1aHash _hread

/-- All entries of the file, for recovery. -/
def readAll (file : List UInt8) : Except IoError (List (LogEntry CrudOperation)) :=
  match readExact 8 file with
  | none => .error .unexpectedEof
  | some (header, rest) =>
    if header.take 4 ≠ walMagic then .error (.invalidData "Invalid WAL magic number")
    else readEntries serde codec rest

/-- The index of the last record that can be read, given the last one so far. The checksum is
passed over. -/
def findLastIndexFrom (last : ℕ) (bytes : List UInt8) : ℕ :=
  match _hlen : readExact 8 bytes with
  | none => last
  | some (len, rest) =>
    match _hdata : readExact (ofLeBytes len) (rest.drop 8) with
    | none => last
    | some (data, rest) =>
      findLastIndexFrom (((codec.fromBytes data).map WalEntry.index).getD last) rest
termination_by bytes.length
decreasing_by
  have hlen := length_of_readExact _hlen
  have hrest := length_of_readExact _hdata
  rw [List.length_drop] at hrest
  omega

def findLastIndex (file : List UInt8) : ℕ := findLastIndexFrom codec 0 (file.drop 8)

/-- Open the file, or create it with a header. -/
def withConfig (file : Option (List UInt8)) (groupCommit : Bool) : WriteAheadLog :=
  match file with
  | some file =>
    { file, writePosition := file.length, lastSyncedIndex := findLastIndex codec file
      lastBufferedIndex := findLastIndex codec file, pendingBuffer := [], groupCommit }
  | none =>
    { file := walHeader, writePosition := 8, lastSyncedIndex := 0, lastBufferedIndex := 0
      pendingBuffer := [], groupCommit }

/-- Open the file with group commit, which is the default. -/
def new (file : Option (List UInt8)) : WriteAheadLog := withConfig codec file true

/-! ### Writing the file -/

/-- The bytes that a batch writes, up to the first entry that does not serialise, and whether all
of them do. -/
def batchBytes : List (LogEntry CrudOperation) → List UInt8 × Bool
  | [] => ([], true)
  | entry :: rest =>
    match codec.toBytes (.fromLogEntry serde entry) with
    | none => ([], false)
    | some bytes =>
      let (restBytes, ok) := batchBytes rest
      (frame fnv1aHash bytes ++ restBytes, ok)

/-- Append one entry; the second component says whether the write is acknowledged. -/
def append (wal : WriteAheadLog) (entry : LogEntry CrudOperation) (outcome : IoOutcome) :
    WriteAheadLog × Bool :=
  match codec.toBytes (.fromLogEntry serde entry), outcome with
  | none, _ => (wal, false)
  | some bytes, .failedAfter n =>
    ({ wal with file := wal.file ++ (frame fnv1aHash bytes).take n }, false)
  | some bytes, .synced =>
    ({ wal with
        file := wal.file ++ frame fnv1aHash bytes
        writePosition := wal.writePosition + 16 + bytes.length
        lastSyncedIndex := entry.index },
      true)

/-- Append a batch with a single sync. -/
def appendBatch (wal : WriteAheadLog) (entries : List (LogEntry CrudOperation))
    (outcome : IoOutcome) : WriteAheadLog × Bool :=
  if entries = [] then (wal, true)
  else
    let (bytes, ok) := batchBytes serde codec entries
    match outcome with
    | .failedAfter n => ({ wal with file := wal.file ++ bytes.take n }, false)
    | .synced =>
      if ok then
        ({ wal with
            file := wal.file ++ bytes
            writePosition := wal.writePosition + bytes.length
            lastSyncedIndex := (entries.getLast?.map LogEntry.index).getD 0 },
          true)
      else ({ wal with file := wal.file ++ bytes }, false)

/-- Put an entry into the buffer; with group commit disabled, append it at once. -/
def appendBuffered (wal : WriteAheadLog) (entry : LogEntry CrudOperation) (outcome : IoOutcome) :
    WriteAheadLog × Bool :=
  if wal.groupCommit then
    ({ wal with
        pendingBuffer := wal.pendingBuffer ++ [entry]
        lastBufferedIndex := entry.index },
      true)
  else wal.append serde codec entry outcome

/-- Write the buffer. The entries of a flush that fails are gone from it. -/
def flush (wal : WriteAheadLog) (outcome : IoOutcome) : WriteAheadLog × Bool :=
  if wal.pendingBuffer = [] then (wal, true)
  else { wal with pendingBuffer := [] }.appendBatch serde codec wal.pendingBuffer outcome

/-! ### What was stored is read back -/

/-- The file holds exactly these entries, and the process agrees with it. -/
structure Stores (wal : WriteAheadLog) (written : List (LogEntry CrudOperation)) : Prop where
  serialises : (batchBytes serde codec written).2 = true
  file : wal.file = walHeader ++ (batchBytes serde codec written).1
  position : wal.writePosition = wal.file.length
  last : wal.lastSyncedIndex = (written.getLast?.map LogEntry.index).getD 0

variable {serde codec}

theorem batchBytes_cons {entry : LogEntry CrudOperation} {rest : List (LogEntry CrudOperation)}
    (h : (batchBytes serde codec (entry :: rest)).2 = true) :
    ∃ bytes, codec.toBytes (.fromLogEntry serde entry) = some bytes ∧
      (batchBytes serde codec rest).2 = true ∧
      (batchBytes serde codec (entry :: rest)).1 =
        frame fnv1aHash bytes ++ (batchBytes serde codec rest).1 := by
  cases hbytes : codec.toBytes (.fromLogEntry serde entry) with
  | none => simp [batchBytes, hbytes] at h
  | some bytes =>
    simp only [batchBytes, hbytes] at h ⊢
    exact ⟨bytes, rfl, h, rfl⟩

theorem batchBytes_append {first second : List (LogEntry CrudOperation)}
    (hfirst : (batchBytes serde codec first).2 = true) :
    batchBytes serde codec (first ++ second) =
      ((batchBytes serde codec first).1 ++ (batchBytes serde codec second).1,
        (batchBytes serde codec second).2) := by
  induction first with
  | nil => rfl
  | cons entry rest ih =>
    obtain ⟨bytes, hbytes, hrest, heq⟩ := batchBytes_cons hfirst
    rw [heq, List.cons_append, batchBytes, hbytes]
    simp only [ih hrest, List.append_assoc]

theorem readEntries_nil : readEntries serde codec [] = .ok [] := by
  rw [readEntries]
  rfl

theorem readEntries_frame_append {entry : WalEntry} {bytes : List UInt8}
    (h : codec.toBytes entry = some bytes) (rest : List UInt8) :
    readEntries serde codec (frame fnv1aHash bytes ++ rest) =
      (readEntries serde codec rest).map fun entries ↦ entry.toLogEntry serde :: entries := by
  have hframe := readFrame_frame_append fnv1aHash (codec.length_toBytes h) rest
  rw [readEntries]
  split
  · next hread => exact absurd (hread.symm.trans hframe) (by simp)
  · next hread => exact absurd (hread.symm.trans hframe) (by simp)
  · next hread => exact absurd (hread.symm.trans hframe) (by simp)
  · next data tail hread =>
    obtain ⟨rfl, rfl⟩ := FrameRead.frame.inj (hread.symm.trans hframe)
    rw [codec.fromBytes_toBytes h]

/-- The records of a batch are read back. -/
theorem readEntries_batchBytes {written : List (LogEntry CrudOperation)}
    (h : (batchBytes serde codec written).2 = true) :
    readEntries serde codec (batchBytes serde codec written).1 =
      .ok (written.map (WalEntry.reread serde)) := by
  induction written with
  | nil => exact readEntries_nil
  | cons entry rest ih =>
    obtain ⟨bytes, hbytes, hrest, heq⟩ := batchBytes_cons h
    rw [heq, readEntries_frame_append hbytes, ih hrest]
    rfl

theorem findLastIndexFrom_nil (last : ℕ) : findLastIndexFrom codec last [] = last := by
  rw [findLastIndexFrom]
  rfl

theorem findLastIndexFrom_frame_append {entry : WalEntry} {bytes : List UInt8}
    (h : codec.toBytes entry = some bytes) (last : ℕ) (rest : List UInt8) :
    findLastIndexFrom codec last (frame fnv1aHash bytes ++ rest) =
      findLastIndexFrom codec entry.index rest := by
  have hlen : readExact 8 (frame fnv1aHash bytes ++ rest) =
      some (leBytes 8 bytes.length, leBytes 8 (fnv1aHash bytes).toNat ++ (bytes ++ rest)) := by
    unfold frame
    rw [List.append_assoc, List.append_assoc]
    exact readExact_append (length_leBytes 8 _) _
  have hdata : readExact (ofLeBytes (leBytes 8 bytes.length))
      ((leBytes 8 (fnv1aHash bytes).toNat ++ (bytes ++ rest)).drop 8) = some (bytes, rest) := by
    rw [ofLeBytes_leBytes (codec.length_toBytes h), List.drop_left' (length_leBytes 8 _)]
    exact readExact_append rfl _
  rw [findLastIndexFrom]
  split
  · next hread => exact absurd (hread.symm.trans hlen) (by simp)
  · next len tail hread =>
    obtain ⟨rfl, rfl⟩ := Prod.mk.inj (Option.some.inj (hread.symm.trans hlen))
    split
    · next hread => exact absurd (hread.symm.trans hdata) (by simp)
    · next data tail hread =>
      obtain ⟨rfl, rfl⟩ := Prod.mk.inj (Option.some.inj (hread.symm.trans hdata))
      rw [codec.fromBytes_toBytes h]
      rfl

/-- The scan for the last index ends at the last record. -/
theorem findLastIndexFrom_batchBytes {written : List (LogEntry CrudOperation)}
    (h : (batchBytes serde codec written).2 = true) (last : ℕ) :
    findLastIndexFrom codec last (batchBytes serde codec written).1 =
      (written.getLast?.map LogEntry.index).getD last := by
  induction written generalizing last with
  | nil => exact findLastIndexFrom_nil last
  | cons entry rest ih =>
    obtain ⟨bytes, hbytes, hrest, heq⟩ := batchBytes_cons h
    rw [heq, findLastIndexFrom_frame_append hbytes, ih hrest]
    cases rest with
    | nil => rfl
    | cons next rest =>
      rw [List.getLast?_cons_cons, List.getLast?_eq_some_getLast (List.cons_ne_nil next rest)]
      rfl

section Stored

variable {wal next : WriteAheadLog} {written : List (LogEntry CrudOperation)}

/-- Recovery reads every acknowledged entry, in the order of the writes. -/
theorem readAll_of_stores (h : wal.Stores serde codec written) :
    readAll serde codec wal.file = .ok (written.map (WalEntry.reread serde)) := by
  have hheader : walHeader.length = 8 := rfl
  unfold readAll
  rw [h.file, readExact_append hheader]
  exact readEntries_batchBytes h.serialises

theorem stores_new : (new codec none).Stores serde codec [] where
  serialises := rfl
  file := rfl
  position := rfl
  last := rfl

/-- Opening the file again finds the entries, the position and the last index it had. -/
theorem withConfig_of_stores (h : wal.Stores serde codec written) (groupCommit : Bool) :
    (withConfig codec (some wal.file) groupCommit).Stores serde codec written where
  serialises := h.serialises
  file := h.file
  position := rfl
  last := by
    change findLastIndex codec wal.file = _
    unfold findLastIndex
    rw [h.file]
    exact findLastIndexFrom_batchBytes h.serialises 0

/-- A batch that is acknowledged is stored behind what was there. -/
theorem Stores.appendBatch (h : wal.Stores serde codec written)
    {entries : List (LogEntry CrudOperation)} {outcome : IoOutcome}
    (hack : wal.appendBatch serde codec entries outcome = (next, true)) :
    next.Stores serde codec (written ++ entries) := by
  unfold WriteAheadLog.appendBatch at hack
  split_ifs at hack with hempty
  · obtain ⟨rfl, -⟩ := Prod.mk.inj hack
    rwa [hempty, List.append_nil]
  · cases outcome with
    | failedAfter n => simp at hack
    | synced =>
      by_cases hok : (batchBytes serde codec entries).2 = true
      · simp only [hok, if_true, Prod.mk.injEq, and_true] at hack
        have hbatch : batchBytes serde codec (written ++ entries) = _ :=
          batchBytes_append h.serialises
        rw [← hack]
        constructor
        · rw [hbatch]
          exact hok
        · rw [hbatch, h.file, List.append_assoc]
        · rw [h.position, List.length_append]
        · rw [List.getLast?_append_of_ne_nil _ hempty]
      · simp [hok] at hack

/-- A single entry is stored as a batch of one. -/
theorem append_eq_appendBatch (wal : WriteAheadLog) (entry : LogEntry CrudOperation)
    (hack : (wal.append serde codec entry .synced).2 = true) :
    wal.append serde codec entry .synced = wal.appendBatch serde codec [entry] .synced := by
  cases hbytes : codec.toBytes (.fromLogEntry serde entry) with
  | none => simp [WriteAheadLog.append, hbytes] at hack
  | some bytes =>
    simp [WriteAheadLog.append, WriteAheadLog.appendBatch, batchBytes, hbytes, Nat.add_assoc]

theorem Stores.append (h : wal.Stores serde codec written) {entry : LogEntry CrudOperation}
    {outcome : IoOutcome} (hack : wal.append serde codec entry outcome = (next, true)) :
    next.Stores serde codec (written ++ [entry]) := by
  cases outcome with
  | failedAfter n =>
    cases hbytes : codec.toBytes (.fromLogEntry serde entry) with
    | none => simp [WriteAheadLog.append, hbytes] at hack
    | some bytes => simp [WriteAheadLog.append, hbytes] at hack
  | synced =>
    rw [append_eq_appendBatch wal entry (congrArg Prod.snd hack)] at hack
    exact h.appendBatch hack

/-- A flush that is acknowledged stores the buffer. -/
theorem Stores.flush (h : wal.Stores serde codec written) {outcome : IoOutcome}
    (hack : wal.flush serde codec outcome = (next, true)) :
    next.Stores serde codec (written ++ wal.pendingBuffer) := by
  unfold WriteAheadLog.flush at hack
  split_ifs at hack with hempty
  · obtain ⟨rfl, -⟩ := Prod.mk.inj hack
    rwa [hempty, List.append_nil]
  · have hcleared : { wal with pendingBuffer := [] }.Stores serde codec written :=
      ⟨h.serialises, h.file, h.position, h.last⟩
    exact hcleared.appendBatch hack

end Stored

end WriteAheadLog

end Lithair.Cluster
