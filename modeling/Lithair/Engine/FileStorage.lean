import Lithair.Engine.EventStore
import Lithair.Lib.Text

/-!
# The file of events

`FileStorage` of `engine/persistence.rs` on its synchronous path: events are gathered in a batch and
written to the log as lines, each with the CRC-32 of its text in front; `read_all_events` reads the
lines back, the ones of the rotated segment first, and leaves out those whose checksum is wrong. The
file system does what it is asked. The CRC-32 is a parameter.

An event whose text is one line reads back as it was written (`readEvents_eventLine`), and a text
that ends in a line feed reads back the same whatever is appended to it (`readEvents_append`).
-/

namespace Lithair.Engine

open Lithair.Lib.Text

/-! ### Lines of the log -/

section EventLine

variable (crc32 : List UInt8 → UInt32)

/-- The line of an event: its checksum in eight digits, a colon, and its text. -/
def formatEventWithCrc32 (eventJson : String) : List Char :=
  hexDigits 8 (crc32 (asBytes eventJson)).toNat ++ ':' :: eventJson.toList

/-- The event of a line, or why it is rejected; a line without a checksum is an event as it is.
There is no result where the split of the line panics, inside a character. -/
def parseAndValidateEvent (line : List Char) : Option (Except String String) :=
  if 9 < byteLength line ∧ (line)[8]? = some ':' then
    match splitAtByte 9 line with
    | none => none
    | some (crcHex, jsonData) =>
      match splitAtByte 8 crcHex with
      | none => none
      | some (crcHex, _) =>
        match fromStrRadix16 crcHex with
        | none => some (.error ("Invalid CRC32 hex: " ++ String.ofList crcHex))
        | some expectedCrc =>
          let actualCrc := (crc32 (asBytes (String.ofList jsonData))).toNat
          if expectedCrc ≠ actualCrc then
            some (.error ("CRC32 mismatch: expected " ++ String.ofList (hexDigits 8 expectedCrc) ++
              ", got " ++ String.ofList (hexDigits 8 actualCrc) ++ " - DATA CORRUPTED"))
          else some (.ok (String.ofList jsonData))
  else some (.ok (String.ofList line))

/-- The events of the lines: blank lines are passed over, rejected ones left out. -/
def readLines : List (List Char) → Option (List String)
  | [] => some []
  | line :: rest =>
    if line.all isWhitespace then readLines rest
    else
      match parseAndValidateEvent crc32 line with
      | none => none
      | some (.error _) => readLines rest
      | some (.ok event) => (readLines rest).map (event :: ·)

/-- The events of a file. -/
def readEvents (content : List Char) : Option (List String) := readLines crc32 (lines content)

theorem readLines_append (first second : List (List Char)) :
    readLines crc32 (first ++ second) =
      (readLines crc32 first).bind fun events ↦ (readLines crc32 second).map (events ++ ·) := by
  induction first with
  | nil =>
    show _ = (readLines crc32 second).map fun events ↦ [] ++ events
    simp
  | cons line first ih =>
    rw [List.cons_append, readLines, readLines]
    split_ifs
    · exact ih
    · split
      · rfl
      · exact ih
      · rw [ih]
        cases readLines crc32 first with
        | none => rfl
        | some events =>
          show Option.map _ (Option.map _ _) = Option.map _ _
          rw [Option.map_map]
          rfl

/-- What is appended to a text that ends in a line feed adds its own events. -/
theorem readEvents_append {content : List Char} (h : Ended content) (more : List Char) :
    readEvents crc32 (content ++ more) =
      (readEvents crc32 content).bind fun events ↦
        (readEvents crc32 more).map (events ++ ·) := by
  rw [readEvents, lines_append h, readLines_append]
  rfl

/-- The parts of a line. -/
theorem splitAtByte_line {digits : List Char} (hlength : digits.length = 8)
    (hascii : ∀ c ∈ digits, c.utf8Size = 1) (data : List Char) :
    splitAtByte 9 (digits ++ ':' :: data) = some (digits ++ [':'], data) ∧
      splitAtByte 8 (digits ++ [':']) = some (digits, [':']) ∧
      (digits ++ ':' :: data)[8]? = some ':' ∧
      byteLength (digits ++ ':' :: data) = 9 + byteLength data := by
  have hcolon : ∀ c ∈ digits ++ [':'], c.utf8Size = 1 := by
    intro c hc
    rcases List.mem_append.mp hc with hc | hc
    · exact hascii c hc
    · rw [List.mem_singleton.mp hc]
      rfl
  have hsplit : digits ++ ':' :: data = (digits ++ [':']) ++ data := by
    rw [List.append_assoc]
    rfl
  refine ⟨?_, ?_, ?_, ?_⟩
  · have h := splitAtByte_length hcolon data
    rw [List.length_append, hlength] at h
    rw [hsplit]
    exact h
  · have h := splitAtByte_length hascii [':']
    rwa [hlength] at h
  · rw [List.getElem?_append_right hlength.le, hlength]
    rfl
  · rw [hsplit, byteLength_append, byteLength_eq_length hcolon, List.length_append, hlength,
      List.length_singleton]

/-- The digits of a checksum. -/
theorem checksum_spec (eventJson : String) :
    (hexDigits 8 (crc32 (asBytes eventJson)).toNat).length = 8 ∧
      (∀ c ∈ hexDigits 8 (crc32 (asBytes eventJson)).toNat, c.utf8Size = 1) ∧
      ∀ c ∈ hexDigits 8 (crc32 (asBytes eventJson)).toNat, c ≠ '\n' ∧ isWhitespace c = false := by
  refine ⟨length_hexDigits 8 _, fun c hc ↦ utf8Size_of_mem_hexDigits hc, fun c hc ↦ ?_⟩
  obtain ⟨digit, hlt, rfl⟩ := mem_hexDigits hc
  exact (hexDigit_spec digit hlt).2.2.2

/-- A line reads back as its event. -/
theorem parse_formatEventWithCrc32 {eventJson : String} (hne : eventJson ≠ "") :
    parseAndValidateEvent crc32 (formatEventWithCrc32 crc32 eventJson) = some (.ok eventJson) := by
  obtain ⟨hlength, hascii, -⟩ := checksum_spec crc32 eventJson
  have hread := fromStrRadix16_hexDigits (crc32 (asBytes eventJson)).toNat_lt
  unfold formatEventWithCrc32
  generalize hexDigits 8 (crc32 (asBytes eventJson)).toNat = digits at hlength hascii hread
  obtain ⟨hline, hcrc, hmark, hbytes⟩ := splitAtByte_line hlength hascii eventJson.toList
  have hlong : 9 < byteLength (digits ++ ':' :: eventJson.toList) := by
    have hpos : 0 < byteLength eventJson.toList :=
      byteLength_pos fun hnil ↦ hne (String.toList_eq_nil_iff.mp hnil)
    omega
  rw [parseAndValidateEvent, if_pos ⟨hlong, hmark⟩, hline]
  simp only [hcrc, hread, String.ofList_toList]
  rw [if_neg (not_not.mpr rfl)]

/-- The line of a text without line feeds is read without the carriage return at its end. -/
theorem lines_formatEventWithCrc32 {eventJson : String} (h : '\n' ∉ eventJson.toList) :
    lines (formatEventWithCrc32 crc32 eventJson ++ ['\n']) =
      [hexDigits 8 (crc32 (asBytes eventJson)).toNat ++
        ':' :: stripCarriageReturn eventJson.toList] := by
  obtain ⟨-, -, hdigit⟩ := checksum_spec crc32 eventJson
  unfold formatEventWithCrc32
  generalize hexDigits 8 (crc32 (asBytes eventJson)).toNat = digits at hdigit
  have hline : '\n' ∉ digits ++ ':' :: eventJson.toList := by
    intro hmem
    rcases List.mem_append.mp hmem with hmem | hmem
    · exact (hdigit _ hmem).1 rfl
    · rcases List.mem_cons.mp hmem with hcolon | hmem
      · exact absurd hcolon (by decide)
      · exact h hmem
  rw [lines, linesFrom_line hline, List.nil_append]
  refine congrArg (fun line ↦ [line]) ?_
  by_cases hnil : eventJson.toList = []
  · rw [hnil, stripCarriageReturn, List.getLast?_concat, if_neg (by decide)]
    rfl
  · unfold stripCarriageReturn
    rw [List.getLast?_append_of_ne_nil _ (List.cons_ne_nil _ _), List.getLast?_cons_of_ne_nil hnil,
      List.dropLast_append_of_ne_nil (List.cons_ne_nil _ _), List.dropLast_cons_of_ne_nil hnil]
    split_ifs <;> rfl

/-- What is read back of a text without line feeds. -/
theorem readEvents_line {eventJson : String} (h : '\n' ∉ eventJson.toList) :
    readEvents crc32 (formatEventWithCrc32 crc32 eventJson ++ ['\n']) =
      readLines crc32 [hexDigits 8 (crc32 (asBytes eventJson)).toNat ++
        ':' :: stripCarriageReturn eventJson.toList] := by
  rw [readEvents, lines_formatEventWithCrc32 crc32 h]

theorem not_blank_of_colon (digits data : List Char) :
    (digits ++ ':' :: data).all isWhitespace = false := by
  have hcolon : isWhitespace ':' = false := by decide
  rw [List.all_append, List.all_cons, hcolon, Bool.false_and, Bool.and_false]

/-- A text that a line holds: there is one, it has no line feed, and no carriage return at its
end. -/
structure OneLine (eventJson : String) : Prop where
  nonempty : eventJson ≠ ""
  noLineFeed : '\n' ∉ eventJson.toList
  noCarriageReturn : eventJson.toList.getLast? ≠ some '\r'

/-- An event whose text is one line is read back from its line. -/
theorem readEvents_formatEventWithCrc32 {eventJson : String} (h : OneLine eventJson) :
    readEvents crc32 (formatEventWithCrc32 crc32 eventJson ++ ['\n']) = some [eventJson] := by
  rw [readEvents_line crc32 h.noLineFeed, stripCarriageReturn, if_neg h.noCarriageReturn, readLines,
    if_neg (by rw [not_blank_of_colon]; decide)]
  have hparse := parse_formatEventWithCrc32 crc32 h.nonempty
  rw [formatEventWithCrc32] at hparse
  rw [hparse]
  rfl

end EventLine

/-! ### The storage -/

/-- The files of a directory with the events that are not yet written: the log, its rotated segment,
the snapshot, the batch with its limit, the size from which the log is rotated, where 0 is never,
and whether lines get a checksum. -/
structure FileStorage where
  events : List Char
  rotated : List Char
  snapshot : Option String
  eventBatch : List String
  maxBatchSize : ℕ
  maxLogFileSize : ℕ
  enableChecksums : Bool
  deriving DecidableEq

namespace FileStorage

variable (crc32 : List UInt8 → UInt32)

/-- A storage over the files that another has written. -/
def reopen (s : FileStorage) : FileStorage :=
  { s with
    eventBatch := []
    maxBatchSize := 1000
    enableChecksums := true }

/-- A storage in an empty directory. -/
def empty : FileStorage where
  events := []
  rotated := []
  snapshot := none
  eventBatch := []
  maxBatchSize := 1000
  maxLogFileSize := 0
  enableChecksums := true

/-- The line that is written for an event. -/
def eventLine (enableChecksums : Bool) (eventJson : String) : List Char :=
  (if enableChecksums then formatEventWithCrc32 crc32 eventJson else eventJson.toList) ++ ['\n']

/-- The lines that are written for events. -/
def eventLines (enableChecksums : Bool) (events : List String) : List Char :=
  events.flatMap (eventLine crc32 enableChecksums)

/-- Rename a log that has reached the size; the segment renamed before is lost. -/
def maybeRotate (s : FileStorage) : FileStorage :=
  if s.maxLogFileSize = 0 then s
  else if s.maxLogFileSize ≤ byteLength s.events then
    { s with
      events := []
      rotated := s.events }
  else s

/-- Write the batch to the log. -/
def flushBatch (s : FileStorage) : FileStorage :=
  if s.eventBatch = [] then s
  else
    { s with
      events := s.events ++ eventLines crc32 s.enableChecksums s.eventBatch
      eventBatch := [] }.maybeRotate

/-- Put an event into the batch. -/
def appendEvent (s : FileStorage) (eventJson : String) : FileStorage :=
  let s := { s with eventBatch := s.eventBatch ++ [eventJson] }
  if s.maxBatchSize ≤ s.eventBatch.length then s.flushBatch crc32 else s

/-- The writer behind the batch is flushed with each batch, so there is nothing else to write. -/
def flushEvents (s : FileStorage) : FileStorage := s.flushBatch crc32

def configureBatching (s : FileStorage) (maxBatchSize : ℕ) : FileStorage := { s with maxBatchSize }

/-- Empty the log. -/
def truncateEvents (s : FileStorage) : FileStorage := { s with events := [] }

/-- The events in the files. -/
def readAllEvents (s : FileStorage) : Option (List String) :=
  (readEvents crc32 s.rotated).bind fun first ↦
    (readEvents crc32 s.events).map fun second ↦ first ++ second

def saveSnapshot (s : FileStorage) (stateJson : String) : FileStorage :=
  { s with snapshot := some stateJson }

def loadSnapshot (s : FileStorage) : Option String := s.snapshot

/-! ### What is written -/

theorem ended_eventLine (enableChecksums : Bool) (eventJson : String) :
    Ended (eventLine crc32 enableChecksums eventJson) := ended_concat _

theorem ended_eventLines (enableChecksums : Bool) (events : List String) :
    Ended (eventLines crc32 enableChecksums events) := by
  induction events with
  | nil => exact ended_nil
  | cons event rest ih => exact (ended_eventLine crc32 enableChecksums event).append ih

theorem eventLines_append (enableChecksums : Bool) (first second : List String) :
    eventLines crc32 enableChecksums (first ++ second) =
      eventLines crc32 enableChecksums first ++ eventLines crc32 enableChecksums second :=
  List.flatMap_append

/-- The log as it is when the batch has been written. -/
def written (s : FileStorage) : List Char :=
  s.events ++ eventLines crc32 s.enableChecksums s.eventBatch

/-- What a storage without rotation keeps while events come in and are written. -/
structure SameFiles (s t : FileStorage) : Prop where
  rotated : t.rotated = s.rotated
  maxLogFileSize : t.maxLogFileSize = s.maxLogFileSize
  enableChecksums : t.enableChecksums = s.enableChecksums
  snapshot : t.snapshot = s.snapshot

theorem SameFiles.trans {s t u : FileStorage} (h : SameFiles s t) (h' : SameFiles t u) :
    SameFiles s u :=
  ⟨h'.1.trans h.1, h'.2.trans h.2, h'.3.trans h.3, h'.4.trans h.4⟩

variable {s : FileStorage}

theorem flushBatch_eq (hrotate : s.maxLogFileSize = 0) :
    s.flushBatch crc32 = { s with
      events := s.written crc32
      eventBatch := [] } := by
  unfold flushBatch
  split_ifs with hempty
  · rw [written, hempty]
    show s = { s with
      events := s.events ++ []
      eventBatch := [] }
    rw [List.append_nil, ← hempty]
  · rw [maybeRotate, if_pos hrotate]
    rfl

theorem appendEvent_spec (hrotate : s.maxLogFileSize = 0) (eventJson : String) :
    SameFiles s (s.appendEvent crc32 eventJson) ∧
      (s.appendEvent crc32 eventJson).written crc32 =
        s.written crc32 ++ eventLine crc32 s.enableChecksums eventJson := by
  have hwritten : ({ s with eventBatch := s.eventBatch ++ [eventJson] }).written crc32 =
      s.written crc32 ++ eventLine crc32 s.enableChecksums eventJson := by
    show s.events ++ eventLines crc32 _ (_ ++ _) = _
    rw [eventLines_append, ← List.append_assoc]
    show _ ++ (_ ++ []) = _
    rw [List.append_nil]
    rfl
  unfold appendEvent
  simp only
  split_ifs
  · rw [flushBatch_eq crc32 (s := { s with eventBatch := s.eventBatch ++ [eventJson] }) hrotate]
    refine ⟨⟨rfl, rfl, rfl, rfl⟩, ?_⟩
    show _ ++ [] = _
    rw [List.append_nil, hwritten]
  · exact ⟨⟨rfl, rfl, rfl, rfl⟩, hwritten⟩

end FileStorage

end Lithair.Engine
