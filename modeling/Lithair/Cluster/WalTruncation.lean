import Lithair.Cluster.WalCodec
import Lithair.Cluster.WalRecovery
import Lithair.Lib.Run
import Mathlib.Data.List.Perm.Subperm

/-!
# Truncation of the write-ahead log

`truncate_after` of `cluster/wal.rs`: the entries of the file up to an index are read, and the file
is created again and written with them. The buffer of the group commit is not looked at, so what
was put there before is written behind what is left, whatever its index, and behind what is
appended directly in the meantime (`truncated_iff_bufferLow`). Between the creation and the last
byte the entries are nowhere but in memory (`keepsLow_iff_rewritten`).
-/

namespace Lithair.Cluster

open Lithair.Lib Lithair.Lib.Framing Lithair.Lib.Run

/-! ### What is read has no default value of null -/

namespace SchemaChange

theorem readOption_ne_some_null {value : Json} {defaultValue : Option Json}
    (h : readOption some value = some defaultValue) : defaultValue ≠ some .null := by
  cases value with
  | null =>
    obtain rfl := Option.some.inj h
    exact (Option.some_ne_none _).symm
  | _ =>
    obtain rfl := Option.some.inj h
    simp

/-- The default value of a change that was read is not `null`. -/
theorem defaultValue_ne_of_ofValue {value : Json} {model : String} {field : FieldDefinition}
    {defaultValue : Option Json}
    (h : ofValue value = some (.addField model field defaultValue)) :
    defaultValue ≠ some .null := by
  unfold ofValue at h
  obtain ⟨name, -, h⟩ := Option.bind_eq_some_iff.mp h
  split at h
  all_goals simp only [Option.bind_eq_bind, Option.bind_eq_some_iff, Option.some.injEq,
    reduceCtorEq, and_false, exists_false] at h
  obtain ⟨readModel, -, readField, -, readDefault, hdefault, hchange⟩ := h
  obtain ⟨-, -, rfl⟩ := SchemaChange.addField.inj hchange
  unfold readFieldOr at hdefault
  cases hget : value.get "default_value" with
  | none =>
    rw [hget] at hdefault
    obtain rfl := Option.some.inj hdefault
    exact (Option.some_ne_none _).symm
  | some found =>
    rw [hget] at hdefault
    exact readOption_ne_some_null hdefault

end SchemaChange

section Reread

variable {texts : TextLibrary}

theorem not_setsNullDefault_toCrudOperation (operation : WalOperation) :
    ¬ (operation.toCrudOperation texts.serde).SetsNullDefault := by
  cases operation with
  | create modelPath data => exact id
  | update modelPath key data => exact id
  | delete modelPath key => exact id
  | migration migrationType payload =>
    simp only [WalOperation.toCrudOperation]
    split_ifs
    · exact id
    · cases hchange : texts.serde.changeOfValue
        ((((texts.serde).parseJson payload).getD .null).index "operation") with
      | none => exact id
      | some change =>
        cases change with
        | addField model field defaultValue => exact SchemaChange.defaultValue_ne_of_ofValue hchange
        | _ => exact id
    · exact id
    · exact id
    · exact id

/-- An entry that was read is written as the record it was read from. -/
theorem reread_toLogEntry {entry : WalEntry}
    (hjson : ∀ value ∈ (entry.toLogEntry texts.serde).operation.payload texts.serde,
      texts.parseJson (texts.jsonText value) = some value)
    (huuid : ∀ id ∈ (entry.toLogEntry texts.serde).operation.migrationId,
      texts.parseUuid (texts.uuidText id) = some id) :
    WalEntry.reread texts.serde (entry.toLogEntry texts.serde) = entry.toLogEntry texts.serde := by
  have hnull : (entry.toLogEntry texts.serde).operation.withoutNull =
      (entry.toLogEntry texts.serde).operation :=
    (CrudOperation.withoutNull_eq_self_iff _).mpr (not_setsNullDefault_toCrudOperation _)
  rw [reread_eq hjson huuid, hnull]

end Reread

namespace WriteAheadLog

variable (serde : Serde) (codec : RkyvCodec)

/-! ### The truncation -/

/-- How far the rewriting of the file comes: not to its creation, to some of the bytes, or to the
end. -/
inductive RewriteOutcome
  | notCreated
  | stoppedAfter (bytes : ℕ)
  | synced
  deriving DecidableEq

/-- The entries that a truncation keeps. -/
def upTo (index : ℕ) (entries : List (LogEntry CrudOperation)) : List (LogEntry CrudOperation) :=
  entries.filter (·.index ≤ index)

/-- Remove the entries behind an index; the second component says whether it returns `Ok`. -/
def truncateAfter (wal : WriteAheadLog) (index : ℕ) (outcome : RewriteOutcome) :
    WriteAheadLog × Bool :=
  match readAll serde codec wal.file with
  | .error _ => (wal, false)
  | .ok entries =>
    let entriesToKeep := upTo index entries
    let (bytes, ok) := batchBytes serde codec entriesToKeep
    match outcome with
    | .notCreated => (wal, false)
    | .stoppedAfter n => ({ wal with file := (walHeader ++ bytes).take n }, false)
    | .synced =>
      if ok then
        ({ wal with
            file := walHeader ++ bytes
            writePosition := (walHeader ++ bytes).length
            lastSyncedIndex := (entriesToKeep.getLast?.map LogEntry.index).getD 0 },
          true)
      else ({ wal with file := walHeader ++ bytes }, false)

/-! ### Calls -/

/-- A call of one of the writers, with how its write ends. -/
inductive WalCall
  | append (entry : LogEntry CrudOperation) (outcome : IoOutcome)
  | appendBatch (entries : List (LogEntry CrudOperation)) (outcome : IoOutcome)
  | appendBuffered (entry : LogEntry CrudOperation) (outcome : IoOutcome)
  | flush (outcome : IoOutcome)

def perform (wal : WriteAheadLog) : WalCall → WriteAheadLog × Bool
  | .append entry outcome => wal.append serde codec entry outcome
  | .appendBatch entries outcome => wal.appendBatch serde codec entries outcome
  | .appendBuffered entry outcome => wal.appendBuffered serde codec entry outcome
  | .flush outcome => wal.flush serde codec outcome

/-- The step of a call that returns `Ok`. -/
def acknowledged (wal : WriteAheadLog) (call : WalCall) : Option WriteAheadLog :=
  let (next, ok) := wal.perform serde codec call
  if ok then some next else none

/-- The entries that the caller hands over. -/
def WalCall.entries : WalCall → List (LogEntry CrudOperation)
  | .append entry _ | .appendBuffered entry _ => [entry]
  | .appendBatch entries _ => entries
  | .flush _ => []

def WalCall.outcome : WalCall → IoOutcome
  | .append _ outcome | .appendBatch _ outcome | .appendBuffered _ outcome | .flush outcome =>
    outcome

/-- The entries that the call writes to the file. -/
def WalCall.written (wal : WriteAheadLog) : WalCall → List (LogEntry CrudOperation)
  | .append entry _ => [entry]
  | .appendBatch entries _ => entries
  | .appendBuffered entry _ => if wal.groupCommit then [] else [entry]
  | .flush _ => wal.pendingBuffer

/-- The buffer behind the call. -/
def WalCall.pending (wal : WriteAheadLog) : WalCall → List (LogEntry CrudOperation)
  | .append _ _ | .appendBatch _ _ => wal.pendingBuffer
  | .appendBuffered entry _ =>
    if wal.groupCommit then wal.pendingBuffer ++ [entry] else wal.pendingBuffer
  | .flush _ => []

/-- The bytes that a write gets into the file. -/
def reached (entries : List (LogEntry CrudOperation)) : IoOutcome → List UInt8
  | .synced => (batchBytes serde codec entries).1
  | .failedAfter n => (batchBytes serde codec entries).1.take n

/-! ### What is meant to hold -/

/-- After a truncation and later calls the log reads the entries up to the index, those of the
buffer among them, and behind them only entries of the later calls. -/
def Truncated (wal : WriteAheadLog) (index : ℕ) (later : List (LogEntry CrudOperation))
    (last : WriteAheadLog) : Prop :=
  ∀ entries, readAll serde codec wal.file = .ok entries →
    ∃ rest, rest.Subperm (later.map (WalEntry.reread serde)) ∧
      readAll serde codec last.file =
        .ok (upTo index (entries ++ wal.pendingBuffer.map (WalEntry.reread serde)) ++ rest)

/-- Whatever becomes of a truncation, the file has all entries up to the index. -/
def KeepsLow (wal : WriteAheadLog) (index : ℕ) (outcome : RewriteOutcome) : Prop :=
  ∀ entries, readAll serde codec wal.file = .ok entries → upTo index entries = [] ∨
    ∃ left, readAll serde codec (wal.truncateAfter serde codec index outcome).1.file = .ok left ∧
      (upTo index entries).Sublist left

/-- The file is not created, or there is nothing to keep, or all of it is written. -/
def Rewritten (wal : WriteAheadLog) (index : ℕ) (outcome : RewriteOutcome) : Prop :=
  ∀ entries, readAll serde codec wal.file = .ok entries →
    outcome = .notCreated ∨ upTo index entries = [] ∨
      Serialise serde codec (upTo index entries) ∧ ∀ n, outcome = .stoppedAfter n →
        (walHeader ++ (batchBytes serde codec (upTo index entries)).1).length ≤ n

/-! ### What a call does -/

/-- The result of a call. -/
structure Performed (wal : WriteAheadLog) (call : WalCall) (next : WriteAheadLog) (ok : Bool) :
    Prop where
  groupCommit : next.groupCommit = wal.groupCommit
  pending : next.pendingBuffer = call.pending wal
  file : next.file = wal.file ++ reached serde codec (call.written wal) call.outcome
  ok_iff : ok = true ↔ call.written wal = [] ∨
    call.outcome = .synced ∧ Serialise serde codec (call.written wal)
  last : next.lastSyncedIndex =
    if ok then ((call.written wal).getLast?.map LogEntry.index).getD wal.lastSyncedIndex
    else wal.lastSyncedIndex

variable {serde codec}

theorem reached_nil (outcome : IoOutcome) : reached serde codec [] outcome = [] := by
  cases outcome with
  | synced => rfl
  | failedAfter n => exact List.take_nil

theorem append_eq (wal : WriteAheadLog) (entry : LogEntry CrudOperation) (outcome : IoOutcome) :
    wal.append serde codec entry outcome = wal.appendBatch serde codec [entry] outcome := by
  cases hbytes : codec.toBytes (.fromLogEntry serde entry) with
  | none =>
    cases outcome <;>
      simp [WriteAheadLog.append, WriteAheadLog.appendBatch, batchBytes, hbytes]
  | some bytes =>
    cases outcome <;>
      simp [WriteAheadLog.append, WriteAheadLog.appendBatch, batchBytes, hbytes, Nat.add_assoc]

theorem performed_appendBatch (wal : WriteAheadLog) (entries : List (LogEntry CrudOperation))
    (outcome : IoOutcome) :
    Performed serde codec wal (.appendBatch entries outcome)
      (wal.appendBatch serde codec entries outcome).1
      (wal.appendBatch serde codec entries outcome).2 := by
  unfold WriteAheadLog.appendBatch
  by_cases hempty : entries = []
  · subst hempty
    exact ⟨rfl, rfl, by simp [WalCall.written, reached_nil], by simp [WalCall.written], rfl⟩
  rw [if_neg hempty]
  cases outcome with
  | failedAfter n => exact ⟨rfl, rfl, rfl, by simp [WalCall.written, WalCall.outcome, hempty], rfl⟩
  | synced =>
    by_cases hok : (batchBytes serde codec entries).2 = true
    · simp only [hok, if_true]
      refine ⟨rfl, rfl, rfl, by simp [WalCall.outcome, WalCall.written, Serialise, hok], ?_⟩
      simp only [WalCall.written, List.getLast?_eq_some_getLast hempty, if_true]
      rfl
    · simp only [hok]
      exact ⟨rfl, rfl, rfl, by simp [WalCall.outcome, WalCall.written, Serialise, hok, hempty], rfl⟩

theorem performed_append (wal : WriteAheadLog) (entry : LogEntry CrudOperation)
    (outcome : IoOutcome) :
    Performed serde codec wal (.append entry outcome) (wal.append serde codec entry outcome).1
      (wal.append serde codec entry outcome).2 := by
  have hbatch := @performed_appendBatch serde codec wal [entry] outcome
  rw [← append_eq] at hbatch
  exact ⟨hbatch.groupCommit, hbatch.pending, hbatch.file, hbatch.ok_iff, hbatch.last⟩

theorem performed (wal : WriteAheadLog) (call : WalCall) :
    Performed serde codec wal call (wal.perform serde codec call).1
      (wal.perform serde codec call).2 := by
  cases call with
  | append entry outcome => exact performed_append wal entry outcome
  | appendBatch entries outcome => exact performed_appendBatch wal entries outcome
  | appendBuffered entry outcome =>
    cases hgroup : wal.groupCommit with
    | true =>
      have hwritten : (WalCall.appendBuffered entry outcome).written wal = [] := by
        simp [WalCall.written, hgroup]
      simp only [perform, appendBuffered, hgroup, if_true]
      constructor
      · exact hgroup.symm
      · simp [WalCall.pending, hgroup]
      · rw [hwritten, reached_nil, List.append_nil]
      · simp [hwritten]
      · rw [hwritten]
        rfl
    | false =>
      have happend := @performed_append serde codec wal entry outcome
      have hwritten : (WalCall.appendBuffered entry outcome).written wal = [entry] := by
        simp [WalCall.written, hgroup]
      have hpending : (WalCall.appendBuffered entry outcome).pending wal = wal.pendingBuffer := by
        simp [WalCall.pending, hgroup]
      simp only [perform, appendBuffered, hgroup, Bool.false_eq_true, if_false]
      constructor
      · exact happend.groupCommit
      · rw [hpending]
        exact happend.pending
      · rw [hwritten]
        exact happend.file
      · rw [hwritten]
        exact happend.ok_iff
      · rw [hwritten]
        exact happend.last
  | flush outcome =>
    by_cases hempty : wal.pendingBuffer = []
    · simp only [perform, WriteAheadLog.flush, hempty, if_true]
      constructor
      · rfl
      · exact hempty
      · simp [WalCall.written, hempty, reached_nil]
      · simp [WalCall.written, hempty]
      · simp [WalCall.written, hempty]
    · have hbatch := @performed_appendBatch serde codec { wal with pendingBuffer := [] }
        wal.pendingBuffer outcome
      simp only [perform, WriteAheadLog.flush, if_neg hempty]
      exact ⟨hbatch.groupCommit, hbatch.pending, hbatch.file, hbatch.ok_iff, hbatch.last⟩

/-- A call that returns `Ok` puts its entries behind the file. -/
theorem acknowledged_eq_some {wal next : WriteAheadLog} {call : WalCall}
    (h : acknowledged serde codec wal call = some next) :
    Serialise serde codec (call.written wal) ∧
      next.file = wal.file ++ (batchBytes serde codec (call.written wal)).1 ∧
      next.pendingBuffer = call.pending wal ∧ next.groupCommit = wal.groupCommit := by
  change (if (wal.perform serde codec call).2 = true then some (wal.perform serde codec call).1
    else none) = some next at h
  have hspec := @performed serde codec wal call
  rw [Option.ite_none_right_eq_some, Option.some.injEq] at h
  obtain ⟨hok, rfl⟩ := h
  have hfile := hspec.file
  rcases hspec.ok_iff.mp hok with hempty | ⟨houtcome, hserialise⟩
  · rw [hempty, reached_nil] at hfile
    rw [hempty]
    exact ⟨rfl, hfile, hspec.pending, hspec.groupCommit⟩
  · rw [houtcome] at hfile
    exact ⟨hserialise, hfile, hspec.pending, hspec.groupCommit⟩

/-! ### What is in the file after a run -/

/-- What calls and a last flush write to the file, in the order of the file. -/
def settled (groupCommit : Bool) : List (LogEntry CrudOperation) → List WalCall →
    List (LogEntry CrudOperation)
  | pending, [] => pending
  | pending, .append entry _ :: rest => entry :: settled groupCommit pending rest
  | pending, .appendBatch entries _ :: rest => entries ++ settled groupCommit pending rest
  | pending, .appendBuffered entry _ :: rest =>
    if groupCommit then settled groupCommit (pending ++ [entry]) rest
    else entry :: settled groupCommit pending rest
  | pending, .flush _ :: rest => pending ++ settled groupCommit [] rest

/-- What calls write to the file before the first flush. -/
def direct (groupCommit : Bool) : List WalCall → List (LogEntry CrudOperation)
  | [] => []
  | .append entry _ :: rest => entry :: direct groupCommit rest
  | .appendBatch entries _ :: rest => entries ++ direct groupCommit rest
  | .appendBuffered entry _ :: rest =>
    if groupCommit then direct groupCommit rest else entry :: direct groupCommit rest
  | .flush _ :: _ => []

/-- The entries that calls are given. -/
def givenEntries (calls : List WalCall) : List (LogEntry CrudOperation) :=
  calls.flatMap WalCall.entries

theorem file_of_exec {wal last : WriteAheadLog} {calls : List WalCall} {outcome : IoOutcome}
    (h : exec (acknowledged serde codec) wal (calls ++ [.flush outcome]) = some last) :
    Serialise serde codec (settled wal.groupCommit wal.pendingBuffer calls) ∧
      last.file = wal.file ++
        (batchBytes serde codec (settled wal.groupCommit wal.pendingBuffer calls)).1 := by
  induction calls generalizing wal with
  | nil =>
    obtain ⟨next, hstep, hlast⟩ := exec_cons_eq_some.mp h
    obtain rfl := Option.some.inj hlast
    obtain ⟨hserialise, hfile, -⟩ := acknowledged_eq_some hstep
    exact ⟨hserialise, hfile⟩
  | cons call rest ih =>
    obtain ⟨next, hstep, hlast⟩ := exec_cons_eq_some.mp h
    obtain ⟨hserialise, hfile, hpending, hgroup⟩ := acknowledged_eq_some hstep
    obtain ⟨hrest, hlastFile⟩ := ih hlast
    have hsettled : settled wal.groupCommit wal.pendingBuffer (call :: rest) =
        call.written wal ++ settled next.groupCommit next.pendingBuffer rest := by
      rw [hpending, hgroup]
      cases call with
      | append entry outcome => rfl
      | appendBatch entries outcome => rfl
      | appendBuffered entry outcome =>
        cases hcommit : wal.groupCommit <;>
          simp [settled, WalCall.written, WalCall.pending, hcommit]
      | flush outcome => rfl
    rw [hsettled, serialise_append, batchBytes_append hserialise, hlastFile, hfile,
      List.append_assoc]
    exact ⟨⟨hserialise, hrest⟩, rfl⟩

theorem givenEntries_cons (call : WalCall) (rest : List WalCall) :
    givenEntries (call :: rest) = call.entries ++ givenEntries rest := List.flatMap_cons

theorem settled_perm (groupCommit : Bool) (pending : List (LogEntry CrudOperation))
    (calls : List WalCall) :
    (settled groupCommit pending calls).Perm (pending ++ givenEntries calls) := by
  induction calls generalizing pending with
  | nil => exact List.Perm.of_eq (List.append_nil pending).symm
  | cons call rest ih =>
    rw [givenEntries_cons]
    cases call with
    | append entry outcome => exact ((ih pending).cons entry).trans List.perm_middle.symm
    | appendBatch entries outcome =>
      exact ((ih pending).append_left entries).trans (List.perm_append_comm_assoc ..)
    | appendBuffered entry outcome =>
      cases groupCommit with
      | true =>
        have hrest := ih (pending ++ [entry])
        rwa [List.append_assoc] at hrest
      | false => exact ((ih pending).cons entry).trans List.perm_middle.symm
    | flush outcome => exact (ih []).append_left pending

/-- The pending entries stand together, behind those that are written directly. -/
theorem exists_settled_append (groupCommit : Bool) (first second : List (LogEntry CrudOperation))
    (calls : List WalCall) :
    ∃ behind, settled groupCommit (first ++ second) calls =
        direct groupCommit calls ++ first ++ behind ∧
      (direct groupCommit calls ++ behind).Perm (second ++ givenEntries calls) := by
  induction calls generalizing second with
  | nil => exact ⟨second, rfl, List.Perm.of_eq (List.append_nil second).symm⟩
  | cons call rest ih =>
    rw [givenEntries_cons]
    cases call with
    | append entry outcome =>
      obtain ⟨behind, hsettled, hperm⟩ := ih second
      exact ⟨behind, congrArg (entry :: ·) hsettled,
        (hperm.cons entry).trans List.perm_middle.symm⟩
    | appendBatch entries outcome =>
      obtain ⟨behind, hsettled, hperm⟩ := ih second
      refine ⟨behind, ?_, ?_⟩
      · simp only [settled, direct, hsettled, List.append_assoc]
      · rw [direct, List.append_assoc]
        exact (hperm.append_left entries).trans (List.perm_append_comm_assoc ..)
    | appendBuffered entry outcome =>
      cases groupCommit with
      | true =>
        obtain ⟨behind, hsettled, hperm⟩ := ih (second ++ [entry])
        refine ⟨behind, ?_, ?_⟩
        · rw [← List.append_assoc] at hsettled
          exact hsettled
        · rwa [List.append_assoc] at hperm
      | false =>
        obtain ⟨behind, hsettled, hperm⟩ := ih second
        exact ⟨behind, congrArg (entry :: ·) hsettled,
          (hperm.cons entry).trans List.perm_middle.symm⟩
    | flush outcome =>
      exact ⟨second ++ settled groupCommit [] rest, List.append_assoc ..,
        (settled_perm groupCommit [] rest).append_left second⟩

/-- The buffer has nothing behind the index, and stands in front of what is written directly. -/
def BufferLow (serde : Serde) (wal : WriteAheadLog) (index : ℕ) (later : List WalCall) : Prop :=
  (∀ entry ∈ wal.pendingBuffer, entry.index ≤ index) ∧
    wal.pendingBuffer.map (WalEntry.reread serde) <+:
      (direct wal.groupCommit later ++ wal.pendingBuffer).map (WalEntry.reread serde)

/-! ### Sound records -/

theorem readEntries_eq (bytes : List UInt8) :
    readEntries serde codec bytes =
      match readFrame fnv1aHash bytes with
      | .done => .ok []
      | .truncated => .error .unexpectedEof
      | .corrupt => .ok []
      | .frame data rest =>
        match codec.fromBytes data with
        | none => .ok []
        | some walEntry => (readEntries serde codec rest).map (walEntry.toLogEntry serde :: ·) := by
  rw [readEntries]
  cases readFrame fnv1aHash bytes with
  | done => rfl
  | truncated => rfl
  | corrupt => rfl
  | frame data rest => rfl

/-- The records at the front that have their checksum and decode, and the bytes behind them. -/
def soundRecords (codec : RkyvCodec) (bytes : List UInt8) : List WalEntry × List UInt8 :=
  match _hread : readFrame fnv1aHash bytes with
  | .frame data rest =>
    match codec.fromBytes data with
    | none => ([], bytes)
    | some walEntry =>
      let (others, behind) := soundRecords codec rest
      (walEntry :: others, behind)
  | _ => ([], bytes)
termination_by bytes.length
decreasing_by exact length_of_readFrame fnv1aHash _hread

theorem soundRecords_frame {bytes data rest : List UInt8} {walEntry : WalEntry}
    (hread : readFrame fnv1aHash bytes = .frame data rest)
    (hdecode : codec.fromBytes data = some walEntry) :
    soundRecords codec bytes =
      (walEntry :: (soundRecords codec rest).1, (soundRecords codec rest).2) := by
  rw [soundRecords]
  split
  · next other behind hother =>
    obtain ⟨rfl, rfl⟩ := FrameRead.frame.inj (hread.symm.trans hother)
    rw [hdecode]
  · next hother => exact absurd hread (hother _ _)

/-- Nothing that is read: the end, a record that is cut off, or one that is damaged. -/
def Stops (codec : RkyvCodec) (bytes : List UInt8) : Prop :=
  ∀ data rest, readFrame fnv1aHash bytes = .frame data rest → codec.fromBytes data = none

theorem soundRecords_stops {bytes : List UInt8} (h : Stops codec bytes) :
    soundRecords codec bytes = ([], bytes) := by
  rw [soundRecords]
  split
  · next data rest hread => rw [h data rest hread]
  · rfl

theorem readEntries_eq_soundRecords (bytes : List UInt8) :
    readEntries serde codec bytes =
      if readFrame fnv1aHash (soundRecords codec bytes).2 = .truncated then .error .unexpectedEof
      else .ok ((soundRecords codec bytes).1.map (WalEntry.toLogEntry serde)) := by
  induction bytes using readEntries.induct codec with
  | case1 bytes hread =>
    rw [readEntries_eq, soundRecords_stops (by simp [Stops, hread]), hread]
    rfl
  | case2 bytes hread =>
    rw [readEntries_eq, soundRecords_stops (by simp [Stops, hread]), hread]
    rfl
  | case3 bytes hread =>
    rw [readEntries_eq, soundRecords_stops (by simp [Stops, hread]), hread]
    rfl
  | case4 bytes data rest hread hdecode =>
    rw [soundRecords_stops (by simp [Stops, hread, hdecode])]
    simp only [readEntries_eq bytes, hread, hdecode]
    rfl
  | case5 bytes data rest hread walEntry hdecode ih =>
    rw [soundRecords_frame hread hdecode]
    simp only [readEntries_eq bytes, hread, hdecode, ih]
    split_ifs
    · rfl
    · rfl

/-- What is read comes from records. -/
theorem exists_toLogEntry_of_readAll {file : List UInt8} {entries : List (LogEntry CrudOperation)}
    (h : readAll serde codec file = .ok entries) :
    ∀ entry ∈ entries, ∃ walEntry : WalEntry, entry = walEntry.toLogEntry serde := by
  unfold readAll at h
  split at h
  · exact nomatch h
  · split_ifs at h
    rw [readEntries_eq_soundRecords] at h
    split_ifs at h
    obtain rfl := Except.ok.inj h
    intro entry hentry
    obtain ⟨walEntry, -, rfl⟩ := List.mem_map.mp hentry
    exact ⟨walEntry, rfl⟩

/-! ### What a truncation leaves -/

/-- Entries between others are the kept ones and some of the others only if all of them are kept
and they come first. -/
theorem exists_rest_iff {α : Type*} {p : α → Bool} {front pending behind given : List α}
    (hperm : (front ++ behind).Perm given) :
    (∃ rest, rest.Subperm given ∧ front ++ pending ++ behind = pending.filter p ++ rest) ↔
      (∀ a ∈ pending, p a = true) ∧ pending <+: front ++ pending := by
  constructor
  · rintro ⟨rest, hrest, heq⟩
    have hall : pending.filter p = pending := by
      refine List.filter_sublist.eq_of_length_le ?_
      have hlength := congrArg List.length heq
      have hgiven := hperm.length_eq
      have hle := hrest.length_le
      simp only [List.length_append] at hlength hgiven
      omega
    rw [hall] at heq
    exact ⟨List.filter_eq_self.mp hall,
      List.prefix_of_prefix_length_le ⟨rest, heq.symm⟩ (List.prefix_append _ behind) (by simp)⟩
  · rintro ⟨hall, tail, htail⟩
    have hfront : tail.Perm front := (List.perm_append_left_iff pending).mp
      ((List.Perm.of_eq htail).trans List.perm_append_comm)
    refine ⟨tail ++ behind, ((hfront.append_right behind).trans hperm).subperm, ?_⟩
    rw [List.filter_eq_self.mpr hall, ← List.append_assoc, htail]

theorem readAll_batchBytes {written : List (LogEntry CrudOperation)}
    (h : Serialise serde codec written) :
    readAll serde codec (walHeader ++ (batchBytes serde codec written).1) =
      .ok (written.map (WalEntry.reread serde)) := by
  rw [readAll_header_append, readEntries_batchBytes h]

/-- What is written of a batch is written of those in front that serialise. -/
theorem exists_serialise_front (entries : List (LogEntry CrudOperation)) :
    ∃ front, front <+: entries ∧ Serialise serde codec front ∧
      (batchBytes serde codec entries).1 = (batchBytes serde codec front).1 := by
  induction entries with
  | nil => exact ⟨[], List.prefix_rfl, rfl, rfl⟩
  | cons entry rest ih =>
    cases hbytes : codec.toBytes (.fromLogEntry serde entry) with
    | none => exact ⟨[], List.nil_prefix, rfl, by simp [batchBytes, hbytes]⟩
    | some bytes =>
      obtain ⟨front, hfront, hserialise, heq⟩ := ih
      refine ⟨entry :: front, List.cons_prefix_cons.mpr ⟨rfl, hfront⟩, ?_, ?_⟩
      · unfold Serialise at hserialise ⊢
        simp only [batchBytes, hbytes, hserialise]
      · simp only [batchBytes, hbytes, heq]

theorem readEntries_short {bytes : List UInt8} (h : bytes.length < 8) :
    readEntries serde codec bytes = .ok [] := by
  rw [readEntries_eq, show readFrame fnv1aHash bytes = .done by
    rw [readFrame, readExact_eq_none h]]

/-- What is read of a file that was cut is what was written whole. -/
theorem readAll_take {entries left : List (LogEntry CrudOperation)} {n : ℕ}
    (h : readAll serde codec ((walHeader ++ (batchBytes serde codec entries).1).take n) =
      .ok left) :
    ∃ front, front <+: entries ∧ Serialise serde codec front ∧
      left = front.map (WalEntry.reread serde) ∧
      (walHeader ++ (batchBytes serde codec front).1).length ≤ n := by
  have hheader : walHeader.length = 8 := rfl
  obtain ⟨whole, hwhole, hserialise, hbytes⟩ := @exists_serialise_front serde codec entries
  by_cases hn : n < 8
  · rw [readAll_short (by rw [List.length_take]; omega)] at h
    exact nomatch h
  obtain ⟨front, torn, hfront, htake, htorn⟩ := exists_take_batchBytes hserialise (n - 8)
  have hfrontSerialise : Serialise serde codec front := by
    obtain ⟨lost, rfl⟩ := hfront
    exact (serialise_append.mp hserialise).1
  rw [List.take_append, List.take_of_length_le (by omega), hheader, hbytes, htake,
    readAll_header_append, readEntries_batchBytes_append hfrontSerialise] at h
  refine ⟨front, hfront.trans hwhole, hfrontSerialise, ?_, ?_⟩
  · have htornRead : readEntries serde codec torn = .ok [] := by
      rcases htorn with rfl | ⟨data, k, hdata, hpos, hk, rfl⟩
      · exact readEntries_nil
      · by_cases hk8 : 8 ≤ k
        · rw [readEntries_truncated (readFrame_take_frame fnv1aHash hdata hk8 hk)] at h
          exact nomatch h
        · exact readEntries_short (by rw [List.length_take]; omega)
    rw [htornRead] at h
    obtain rfl := Except.ok.inj h
    exact List.append_nil _
  · have hlength := congrArg List.length htake
    rw [List.length_take, List.length_append] at hlength
    rw [List.length_append, hheader]
    omega

section Truncation

variable {wal : WriteAheadLog} {index : ℕ} {entries : List (LogEntry CrudOperation)}
  (hread : readAll serde codec wal.file = .ok entries)
  (hreread : ∀ entry ∈ entries, WalEntry.reread serde entry = entry)

include hreread in
theorem map_reread_upTo : (upTo index entries).map (WalEntry.reread serde) = upTo index entries :=
  (List.map_congr_left fun entry hentry ↦ hreread entry (List.mem_of_mem_filter hentry)).trans
    (List.map_id _)

include hreread in
/-- A file that was cut has all that is kept exactly when all of it was written. -/
theorem sublist_take_iff {n : ℕ} :
    (∃ left, readAll serde codec
        ((walHeader ++ (batchBytes serde codec (upTo index entries)).1).take n) = .ok left ∧
      (upTo index entries).Sublist left) ↔
    Serialise serde codec (upTo index entries) ∧
      (walHeader ++ (batchBytes serde codec (upTo index entries)).1).length ≤ n := by
  constructor
  · rintro ⟨left, hleft, hsublist⟩
    obtain ⟨front, hfront, hserialise, rfl, hlength⟩ := readAll_take hleft
    have hle := hsublist.length_le
    rw [List.length_map] at hle
    rw [← hfront.eq_of_length_le hle]
    exact ⟨hserialise, hlength⟩
  · rintro ⟨hserialise, hlength⟩
    refine ⟨upTo index entries, ?_, List.Sublist.refl _⟩
    rw [List.take_of_length_le hlength, readAll_batchBytes hserialise, map_reread_upTo hreread]

include hread

theorem truncateAfter_synced {next : WriteAheadLog}
    (h : wal.truncateAfter serde codec index .synced = (next, true)) :
    Serialise serde codec (upTo index entries) ∧
      next.file = walHeader ++ (batchBytes serde codec (upTo index entries)).1 ∧
      next.pendingBuffer = wal.pendingBuffer ∧ next.groupCommit = wal.groupCommit := by
  unfold truncateAfter at h
  rw [hread] at h
  simp only at h
  split_ifs at h with hok
  · obtain ⟨rfl, -⟩ := Prod.mk.inj h
    exact ⟨hok, rfl, rfl, rfl⟩
  · exact absurd (Prod.mk.inj h).2 Bool.false_ne_true

include hreread

/-- Behind what is kept stands all that is written later. -/
theorem readAll_of_exec {next last : WriteAheadLog} {later : List WalCall} {outcome : IoOutcome}
    (h : wal.truncateAfter serde codec index .synced = (next, true))
    (hlater : exec (acknowledged serde codec) next (later ++ [.flush outcome]) = some last) :
    readAll serde codec last.file =
      .ok (upTo index entries ++
        (settled wal.groupCommit wal.pendingBuffer later).map (WalEntry.reread serde)) := by
  obtain ⟨hkept, hfile, hpending, hgroup⟩ := truncateAfter_synced hread h
  obtain ⟨hsettled, hlast⟩ := file_of_exec hlater
  rw [hpending, hgroup] at hsettled hlast
  have hboth := readAll_batchBytes (serialise_append.mpr ⟨hkept, hsettled⟩)
  rw [batchBytes_append hkept, List.map_append, map_reread_upTo hreread] at hboth
  rw [hlast, hfile, List.append_assoc]
  exact hboth

/-- What is read is as claimed exactly when the buffer has nothing behind the index and stands in
front of what is written directly. -/
theorem truncated_iff_bufferLow {next last : WriteAheadLog} {later : List WalCall}
    {outcome : IoOutcome}
    (h : wal.truncateAfter serde codec index .synced = (next, true))
    (hlater : exec (acknowledged serde codec) next (later ++ [.flush outcome]) = some last) :
    Truncated serde codec wal index (givenEntries later) last ↔
      BufferLow serde wal index later := by
  have hlast := readAll_of_exec hread hreread h hlater
  obtain ⟨behind, hsettled, hperm⟩ :=
    exists_settled_append wal.groupCommit wal.pendingBuffer [] later
  rw [List.append_nil] at hsettled
  rw [hsettled, List.map_append] at hlast
  have hgiven := hperm.map (WalEntry.reread serde)
  rw [List.nil_append, List.map_append] at hgiven
  have hupTo : upTo index (entries ++ wal.pendingBuffer.map (WalEntry.reread serde)) =
      upTo index entries ++ upTo index (wal.pendingBuffer.map (WalEntry.reread serde)) :=
    List.filter_append ..
  have hiff : (∃ rest, rest.Subperm ((givenEntries later).map (WalEntry.reread serde)) ∧
      (direct wal.groupCommit later ++ wal.pendingBuffer).map (WalEntry.reread serde) ++
        behind.map (WalEntry.reread serde) =
      upTo index (wal.pendingBuffer.map (WalEntry.reread serde)) ++ rest) ↔
      (∀ entry ∈ wal.pendingBuffer.map (WalEntry.reread serde),
        decide (entry.index ≤ index) = true) ∧
      wal.pendingBuffer.map (WalEntry.reread serde) <+:
        (direct wal.groupCommit later ++ wal.pendingBuffer).map (WalEntry.reread serde) := by
    rw [List.map_append]
    exact exists_rest_iff hgiven
  constructor
  · intro htruncated
    obtain ⟨rest, hrest, hlastRead⟩ := htruncated entries hread
    rw [hlast, hupTo, List.append_assoc, Except.ok.injEq, List.append_cancel_left_eq] at hlastRead
    obtain ⟨hall, hprefix⟩ := hiff.mp ⟨rest, hrest, hlastRead⟩
    exact ⟨fun entry hentry ↦
      of_decide_eq_true (hall (WalEntry.reread serde entry) (List.mem_map_of_mem hentry)), hprefix⟩
  · rintro ⟨hlow, hprefix⟩ others hothers
    obtain rfl := Except.ok.inj (hread.symm.trans hothers)
    obtain ⟨rest, hrest, heq⟩ := hiff.mpr
      ⟨List.forall_mem_map.mpr fun entry hentry ↦ decide_eq_true (hlow entry hentry), hprefix⟩
    exact ⟨rest, hrest, by rw [hlast, hupTo, List.append_assoc, heq]⟩

/-- Nothing is lost exactly when the file is not created or is written to the end. -/
theorem keepsLow_iff_rewritten (outcome : RewriteOutcome) :
    KeepsLow serde codec wal index outcome ↔ Rewritten serde codec wal index outcome := by
  refine forall₂_congr fun others hothers ↦ ?_
  obtain rfl := Except.ok.inj (hread.symm.trans hothers)
  by_cases hempty : upTo index entries = []
  · exact iff_of_true (.inl hempty) (.inr (.inl hempty))
  cases outcome with
  | notCreated =>
    refine iff_of_true (.inr ⟨entries, ?_, List.filter_sublist⟩) (.inl rfl)
    rw [truncateAfter, hread]
    exact hread
  | stoppedAfter n =>
    have hfile : (wal.truncateAfter serde codec index (.stoppedAfter n)).1.file =
        (walHeader ++ (batchBytes serde codec (upTo index entries)).1).take n := by
      rw [truncateAfter, hread]
    rw [hfile, sublist_take_iff hreread]
    simp [hempty]
  | synced =>
    have hfile : (wal.truncateAfter serde codec index .synced).1.file =
        (walHeader ++ (batchBytes serde codec (upTo index entries)).1).take
          (walHeader ++ (batchBytes serde codec (upTo index entries)).1).length := by
      rw [truncateAfter, hread, List.take_length]
      simp only
      split_ifs
      · rfl
      · rfl
    rw [hfile, sublist_take_iff hreread]
    simp [hempty]

end Truncation

/-- With libraries that read back the texts they wrote for the entries of the file: for every
content, buffer and index, a truncation with later calls and a flush is as claimed exactly when the
buffer is low, and one that fails or stops loses nothing exactly when it stopped before the file was
created, or after all of it was written. -/
theorem truncateAfter_iff (texts : TextLibrary) (codec : RkyvCodec) (wal : WriteAheadLog)
    (index : ℕ)
    (hjson : ∀ entries, readAll texts.serde codec wal.file = .ok entries → ∀ entry ∈ entries,
      ∀ value ∈ entry.operation.payload texts.serde,
        texts.parseJson (texts.jsonText value) = some value)
    (huuid : ∀ entries, readAll texts.serde codec wal.file = .ok entries → ∀ entry ∈ entries,
      ∀ id ∈ entry.operation.migrationId, texts.parseUuid (texts.uuidText id) = some id) :
    (∀ next last later outcome,
      wal.truncateAfter texts.serde codec index .synced = (next, true) →
      exec (acknowledged texts.serde codec) next (later ++ [.flush outcome]) = some last →
        (Truncated texts.serde codec wal index (givenEntries later) last ↔
          BufferLow texts.serde wal index later)) ∧
      ∀ outcome, KeepsLow texts.serde codec wal index outcome ↔
        Rewritten texts.serde codec wal index outcome := by
  cases hread : readAll texts.serde codec wal.file with
  | error e =>
    constructor
    · intro next last later outcome h
      rw [truncateAfter, hread] at h
      exact absurd (Prod.mk.inj h).2 Bool.false_ne_true
    · intro outcome
      exact forall₂_congr fun entries hentries ↦ nomatch hread.symm.trans hentries
  | ok entries =>
    have hreread : ∀ entry ∈ entries, WalEntry.reread texts.serde entry = entry := by
      intro entry hentry
      obtain ⟨walEntry, rfl⟩ := exists_toLogEntry_of_readAll hread entry hentry
      exact reread_toLogEntry (hjson entries hread _ hentry) (huuid entries hread _ hentry)
    exact ⟨fun next last later outcome ↦ truncated_iff_bufferLow hread hreread,
      keepsLow_iff_rewritten hread hreread⟩

/-! ### A deletion in the file and in the buffer -/

section BufferedDeletion

/-- A log with the deletion in its file and, once more, in its buffer. -/
def bufferedDeletion : WriteAheadLog where
  file := walHeader ++ (batchBytes noteTexts.serde deletionCodec [deletion]).1
  writePosition := 27
  lastSyncedIndex := 1
  lastBufferedIndex := 1
  pendingBuffer := [deletion]
  groupCommit := true

theorem readAll_bufferedDeletion :
    readAll noteTexts.serde deletionCodec bufferedDeletion.file = .ok [deletion] :=
  readAll_batchBytes rfl

/-- Truncated behind its index, both deletions are kept; and the file has the first one as soon as
its 27 bytes are written. -/
theorem truncateAfter_iff_deletion :
    (∃ next last, bufferedDeletion.truncateAfter noteTexts.serde deletionCodec 1 .synced =
        (next, true) ∧
      exec (acknowledged noteTexts.serde deletionCodec) next [.flush .synced] = some last ∧
        Truncated noteTexts.serde deletionCodec bufferedDeletion 1 [] last) ∧
      KeepsLow noteTexts.serde deletionCodec bufferedDeletion 1 (.stoppedAfter 27) := by
  obtain ⟨htruncated, hkeeps⟩ := truncateAfter_iff noteTexts deletionCodec bufferedDeletion 1
    (fun entries hentries entry hentry value hvalue ↦ by
      obtain rfl := Except.ok.inj (readAll_bufferedDeletion.symm.trans hentries)
      obtain rfl := List.mem_singleton.mp hentry
      exact nomatch hvalue)
    (fun entries hentries entry hentry id hid ↦ by
      obtain rfl := Except.ok.inj (readAll_bufferedDeletion.symm.trans hentries)
      obtain rfl := List.mem_singleton.mp hentry
      exact nomatch hid)
  constructor
  · have htruncate : bufferedDeletion.truncateAfter noteTexts.serde deletionCodec 1 .synced =
        (bufferedDeletion, true) := by
      rw [truncateAfter, readAll_bufferedDeletion]
      rfl
    obtain ⟨last, hlast⟩ : ∃ last, exec (acknowledged noteTexts.serde deletionCodec)
      bufferedDeletion ([] ++ [.flush .synced]) = some last := ⟨_, rfl⟩
    refine ⟨bufferedDeletion, last, htruncate, hlast,
      (htruncated _ last [] .synced htruncate hlast).mpr ⟨?_, List.prefix_rfl⟩⟩
    intro entry hentry
    obtain rfl := List.mem_singleton.mp hentry
    exact le_rfl
  · refine (hkeeps _).mpr fun entries hentries ↦ .inr (.inr ?_)
    obtain rfl := Except.ok.inj (readAll_bufferedDeletion.symm.trans hentries)
    refine ⟨rfl, fun n hn ↦ ?_⟩
    obtain rfl := RewriteOutcome.stoppedAfter.inj hn
    decide

/-- Truncated in front of its index, the log has the deletion again after the flush; and a stop
before the first byte takes it from a log that was to keep it. -/
theorem truncateAfter_buffered_returns :
    (∃ next last, bufferedDeletion.truncateAfter noteTexts.serde deletionCodec 0 .synced =
        (next, true) ∧
      exec (acknowledged noteTexts.serde deletionCodec) next [.flush .synced] = some last ∧
        ¬ Truncated noteTexts.serde deletionCodec bufferedDeletion 0 [] last) ∧
      ¬ KeepsLow noteTexts.serde deletionCodec bufferedDeletion 1 (.stoppedAfter 0) := by
  have hreread : ∀ entry ∈ [deletion], WalEntry.reread noteTexts.serde entry = entry := by
    intro entry hentry
    obtain rfl := List.mem_singleton.mp hentry
    rfl
  constructor
  · have htruncate : bufferedDeletion.truncateAfter noteTexts.serde deletionCodec 0 .synced =
        ({ bufferedDeletion with file := walHeader, writePosition := 8, lastSyncedIndex := 0 },
          true) := by
      rw [truncateAfter, readAll_bufferedDeletion]
      rfl
    obtain ⟨last, hlast⟩ : ∃ last, exec (acknowledged noteTexts.serde deletionCodec)
      { bufferedDeletion with file := walHeader, writePosition := 8, lastSyncedIndex := 0 }
      ([] ++ [.flush .synced]) = some last := ⟨_, rfl⟩
    refine ⟨_, last, htruncate, hlast, fun h ↦ ?_⟩
    have hlow := (truncated_iff_bufferLow readAll_bufferedDeletion hreread htruncate hlast).mp h
    exact absurd (hlow.1 deletion (List.mem_singleton_self _)) (by decide)
  · intro h
    have hrewritten := (keepsLow_iff_rewritten readAll_bufferedDeletion hreread _).mp h
    rcases hrewritten _ readAll_bufferedDeletion with hcreated | hempty | ⟨-, hlength⟩
    · exact nomatch hcreated
    · exact absurd hempty (by decide)
    · exact absurd (hlength 0 rfl) (by decide)

end BufferedDeletion

end WriteAheadLog

end Lithair.Cluster
