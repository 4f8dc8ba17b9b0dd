import Lithair.Engine.EventLine
import Lithair.Engine.OptimizedPersistence
import Lithair.Lib.Utf8

/-!
# A batch that is written again

`flush_batch` of `engine/persistence.rs` on the plain path, where writing, flushing and syncing may
fail. An attempt that fails keeps the whole batch, also when the buffered writer has accepted a part
of its lines or all of them, so that the next attempt writes them once more behind that part.

`retried_iff`: attempts that fail with nothing accepted lose and repeat nothing, however many there
are. When a part was accepted each event is still read once exactly when the part is the first line
and a piece of the second one (`HarmlessCut`): the whole line then stands for the first event, and
the piece and the first line behind it, which is rejected, for nothing.
-/

namespace Lithair.Engine

open Lithair.Lib.Run Lithair.Lib.Text Lithair.Lib.Utf8

/-- What becomes of an attempt to write a batch: its lines are in the log; or an error, after the
buffered writer had accepted so many bytes of them and so many of the bytes that wait in it had
reached the log. -/
inductive FlushOutcome
  | written
  | failed (accepted wrote : ℕ)
  deriving DecidableEq

/-- A storage with the bytes that wait in its buffered writer. -/
structure BufferedStorage where
  storage : PlainStorage
  held : List UInt8
  deriving DecidableEq

namespace BufferedStorage

variable (crc32 : List UInt8 → UInt32)

/-- A storage in an empty directory with the two limits. -/
def fresh (maxBatchSize maxLogFileSize : ℕ) : BufferedStorage where
  storage := .new .empty maxBatchSize maxLogFileSize
  held := []

/-- The storage with bytes at the end of its log. -/
def withLog (s : BufferedStorage) (bytes : List UInt8) : PlainStorage :=
  { s.storage with files := { s.storage.files with events := s.storage.files.events ++ bytes } }

/-- Write the batch; the second component says whether the call succeeded. -/
def flushBatch (s : BufferedStorage) (outcome : FlushOutcome) : BufferedStorage × Bool :=
  if s.storage.eventBatch = [] then (s, true)
  else
    match outcome with
    | .written => (⟨(s.withLog s.held).flushBatch crc32, []⟩, true)
    | .failed accepted wrote =>
      let waiting := s.held ++ (jsonLines crc32 s.storage.eventBatch).take accepted
      (⟨s.withLog (waiting.take wrote), waiting.drop wrote⟩, false)

/-- Put an event into the batch. -/
def push (s : BufferedStorage) (eventJson : String) : BufferedStorage :=
  { s with storage := { s.storage with eventBatch := s.storage.eventBatch ++ [eventJson] } }

def appendEvent (s : BufferedStorage) (eventJson : String) (outcome : FlushOutcome) :
    BufferedStorage × Bool :=
  let s := s.push eventJson
  if s.storage.maxBatchSize ≤ s.storage.eventBatch.length then s.flushBatch crc32 outcome
  else (s, true)

/-- Nothing waits in the buffered writer when the batch has been written. -/
def flushEvents (s : BufferedStorage) (outcome : FlushOutcome) : BufferedStorage × Bool :=
  s.flushBatch crc32 outcome

def step (s : BufferedStorage) : LogCall × FlushOutcome → Option BufferedStorage
  | (.appendEvent eventJson, outcome) => some (s.appendEvent crc32 eventJson outcome).1
  | (.flushEvents, outcome) => some (s.flushEvents crc32 outcome).1

/-- An attempt fails with nothing accepted, or does not rotate the log over a segment that is
there. -/
def SoundWrite (s : BufferedStorage) : FlushOutcome → Prop
  | .written => (s.withLog s.held).Rotates crc32 → s.storage.files.rotated = []
  | .failed accepted _ => s.storage.eventBatch = [] ∨ accepted = 0

def Sound (s : BufferedStorage) : LogCall × FlushOutcome → Prop
  | (.appendEvent eventJson, outcome) =>
    (s.push eventJson).storage.maxBatchSize ≤ (s.push eventJson).storage.eventBatch.length →
      (s.push eventJson).SoundWrite crc32 outcome
  | (.flushEvents, outcome) => s.SoundWrite crc32 outcome

/-- The files and the batch have the events, and nothing waits in the writer. -/
structure Has (s : BufferedStorage) (events : List String) : Prop where
  lines : ∃ segment current, HoldsLines crc32 s.storage.files segment current ∧
    segment ++ current ++ s.storage.eventBatch = events
  held : s.held = []

section Steps

variable {crc32} {s : BufferedStorage} {events : List String}

theorem withLog_nil (s : BufferedStorage) : s.withLog [] = s.storage := by
  rw [withLog, List.append_nil]

theorem Has.flushBatch (h : Has crc32 s events) {outcome : FlushOutcome}
    (hsound : s.SoundWrite crc32 outcome) : Has crc32 (s.flushBatch crc32 outcome).1 events := by
  unfold BufferedStorage.flushBatch
  split_ifs with hbatch
  · exact h
  · obtain ⟨segment, current, hholds, hevents⟩ := h.lines
    cases outcome with
    | written =>
      rw [SoundWrite, h.held, withLog_nil] at hsound
      obtain ⟨segment', current', hwritten, hsplit⟩ := hholds.flushBatch hsound
      simp only [h.held, withLog_nil]
      refine ⟨⟨segment', current', hwritten, ?_⟩, rfl⟩
      rw [PlainStorage.eventBatch_flushBatch, List.append_nil, hsplit, hevents]
    | failed accepted wrote =>
      have hnone : accepted = 0 := hsound.resolve_left hbatch
      simp only [h.held, hnone, List.take_zero, List.append_nil, List.take_nil, List.drop_nil,
        withLog_nil]
      exact ⟨⟨segment, current, hholds, hevents⟩, rfl⟩

theorem Has.push (h : Has crc32 s events) (eventJson : String) :
    Has crc32 (s.push eventJson) (events ++ [eventJson]) := by
  obtain ⟨segment, current, hholds, rfl⟩ := h.lines
  exact ⟨⟨segment, current, hholds, (List.append_assoc _ _ _).symm⟩, h.held⟩

theorem Has.step (h : Has crc32 s events) {a : LogCall × FlushOutcome} {next : BufferedStorage}
    (hsound : s.Sound crc32 a) (hnext : s.step crc32 a = some next) :
    Has crc32 next (events ++ appended [a.1]) := by
  obtain ⟨call, outcome⟩ := a
  cases call with
  | appendEvent eventJson =>
    obtain rfl := Option.some.inj hnext
    unfold appendEvent
    dsimp only
    split_ifs with hfull
    · exact (h.push eventJson).flushBatch (hsound hfull)
    · exact h.push eventJson
  | flushEvents =>
    obtain rfl := Option.some.inj hnext
    rw [appended, List.filterMap_cons_none rfl, List.filterMap_nil, List.append_nil]
    exact h.flushBatch hsound

theorem appended_append (first second : List LogCall) :
    appended (first ++ second) = appended first ++ appended second := List.filterMap_append

/-- What a run of sound calls keeps. -/
theorem Has.exec (h : Has crc32 s events) {calls : List (LogCall × FlushOutcome)}
    {t : BufferedStorage} (hsound : EachStep (BufferedStorage.step crc32) (Sound crc32) s calls)
    (hexec : exec (BufferedStorage.step crc32) s calls = some t) :
    Has crc32 t (events ++ appended (calls.map Prod.fst)) := by
  induction calls generalizing s events with
  | nil =>
    obtain rfl := Option.some.inj hexec
    rw [List.map_nil, appended, List.filterMap_nil, List.append_nil]
    exact h
  | cons a rest ih =>
    obtain ⟨next, hnext, hrest⟩ := exec_cons_eq_some.mp hexec
    obtain ⟨hfirst, hlater⟩ := hsound next hnext
    have happended : appended ((a :: rest).map Prod.fst) =
        appended [a.1] ++ appended (rest.map Prod.fst) := appended_append [a.1] _
    rw [happended, ← List.append_assoc]
    exact ih (h.step hfirst hnext) hlater hrest

/-- Nothing is left in the batch by a flush that succeeds. -/
theorem eventBatch_flushEvents (s : BufferedStorage) :
    (s.flushEvents crc32 .written).1.storage.eventBatch = [] := by
  unfold flushEvents BufferedStorage.flushBatch
  split_ifs with hbatch
  · exact hbatch
  · exact PlainStorage.eventBatch_flushBatch _

end Steps

end BufferedStorage

/-! ### A part of the lines in front of them -/

section Cuts

variable {crc32 : List UInt8 → UInt32} {kept batch : List String} {bytes : List UInt8}

theorem asBytes_ofList (text : List Char) : asBytes (String.ofList text) = utf8 text := by
  simp [asBytes, utf8, List.utf8Encode]

theorem decodeUtf8_eq_fromUtf8 (bytes : List UInt8) : decodeUtf8 bytes = fromUtf8 bytes := by
  cases htext : fromUtf8 bytes with
  | some text =>
    rw [← fromUtf8_eq_some_iff.mp htext, ← asBytes_ofList, decodeUtf8_asBytes,
      String.toList_ofList]
  | none =>
    cases hdecode : decodeUtf8 bytes with
    | none => rfl
    | some text =>
      obtain ⟨s, hs, rfl⟩ := Option.map_eq_some_iff.mp hdecode
      have hbytes : bytes = utf8 s.toList := by
        unfold String.fromUTF8? at hs
        split_ifs at hs with hvalid
        obtain rfl := Option.some.inj hs
        rw [← asBytes_ofList, String.ofList_toList]
        rfl
      rw [hbytes, fromUtf8_utf8] at htext
      cases htext

theorem jsonLines_eq_utf8 (events : List String) :
    jsonLines crc32 events = utf8 (FileStorage.eventLines crc32 true events) := by
  rw [jsonLines_eq, asBytes_ofList]

/-- What is read of whole lines and of bytes behind them. -/
theorem readFile_append (h : ∀ event ∈ kept, OneLine event) :
    LogFiles.readFile crc32 (jsonLines crc32 kept ++ bytes) =
      (LogFiles.readFile crc32 bytes).map (kept ++ ·) := by
  rw [LogFiles.readFile, LogFiles.readFile, decodeUtf8_eq_fromUtf8, decodeUtf8_eq_fromUtf8,
    jsonLines_eq_utf8, fromUtf8_utf8_append]
  cases fromUtf8 bytes with
  | none => rfl
  | some text =>
    simp only [Option.map_some]
    rw [readEvents_append crc32 (FileStorage.ended_eventLines crc32 true kept),
      FileStorage.readEvents_eventLines h]
    cases readEvents crc32 text <;> rfl

variable (crc32) in
/-- The bytes of lines up to any place are whole lines and a part of the next one. -/
theorem exists_cut (batch : List String) (n : ℕ) :
    ∃ whole rest part, batch = whole ++ rest ∧
      (jsonLines crc32 batch).take n = jsonLines crc32 whole ++ part ∧
      (part = [] ∨ ∃ event more, rest = event :: more ∧ part <+: jsonLine crc32 event ∧
        part ≠ jsonLine crc32 event) := by
  induction batch generalizing n with
  | nil => exact ⟨[], [], [], rfl, List.take_nil, Or.inl rfl⟩
  | cons event batch ih =>
    have hlines : jsonLines crc32 (event :: batch) =
        jsonLine crc32 event ++ jsonLines crc32 batch := List.flatMap_cons
    by_cases hshort : n < (jsonLine crc32 event).length
    · refine ⟨[], event :: batch, (jsonLine crc32 event).take n, rfl, ?_,
        Or.inr ⟨event, batch, rfl, List.take_prefix _ _, fun heq ↦ ?_⟩⟩
      · rw [hlines, List.take_append_of_le_length hshort.le]
        rfl
      · have hlength := congrArg List.length heq
        rw [List.length_take] at hlength
        omega
    · obtain ⟨whole, rest, part, rfl, htake, hpart⟩ := ih (n - (jsonLine crc32 event).length)
      refine ⟨event :: whole, rest, part, rfl, ?_, hpart⟩
      rw [hlines, List.take_append, List.take_of_length_le (Nat.le_of_not_lt hshort), htake,
        ← List.append_assoc]
      rfl

theorem noLineFeed_format {event : String} (h : OneLine event) :
    '\n' ∉ formatEventWithCrc32 crc32 event := by
  obtain ⟨-, -, hdigit⟩ := checksum_spec crc32 event
  intro hmem
  rcases List.mem_append.mp hmem with hmem | hmem
  · exact (hdigit _ hmem).1 rfl
  · exact h.noLineFeed (List.mem_of_ne_of_mem (by decide) hmem)

/-- What is read of a line with a part of another in front of it, and of the lines behind it. -/
theorem readFile_front {front : List Char} {first : String} {later : List String}
    (hfront : '\n' ∉ front) (hfirst : OneLine first) (hlater : ∀ event ∈ later, OneLine event) :
    LogFiles.readFile crc32 (utf8 front ++ jsonLines crc32 (first :: later)) =
      match parseAndValidateEvent crc32 (front ++ formatEventWithCrc32 crc32 first) with
      | none => .error .panicked
      | some (.error _) => .ok later
      | some (.ok event) => .ok (event :: later) := by
  have hfree : '\n' ∉ front ++ formatEventWithCrc32 crc32 first := by
    intro hmem
    rcases List.mem_append.mp hmem with hmem | hmem
    · exact hfront hmem
    · exact noLineFeed_format hfirst hmem
  have hline : lines (front ++ formatEventWithCrc32 crc32 first ++ ['\n']) =
      [front ++ formatEventWithCrc32 crc32 first] := by
    have hlast : (front ++ formatEventWithCrc32 crc32 first).getLast? ≠ some '\r' := by
      have hne : first.toList ≠ [] := fun hnil ↦
        hfirst.nonempty (String.toList_eq_nil_iff.mp hnil)
      rw [formatEventWithCrc32, List.getLast?_append_of_ne_nil _ (by simp),
        List.getLast?_append_of_ne_nil _ (List.cons_ne_nil _ _), List.getLast?_cons_of_ne_nil hne]
      exact hfirst.noCarriageReturn
    rw [lines, linesFrom_line hfree, List.nil_append, stripCarriageReturn, if_neg hlast]
  have htext : utf8 front ++ jsonLines crc32 (first :: later) =
      utf8 ((front ++ formatEventWithCrc32 crc32 first ++ ['\n']) ++
        FileStorage.eventLines crc32 true later) := by
    rw [jsonLines_eq_utf8, ← utf8_append]
    simp [FileStorage.eventLines, FileStorage.eventLine]
  rw [LogFiles.readFile, decodeUtf8_eq_fromUtf8, htext, fromUtf8_utf8]
  dsimp only
  rw [readEvents_append crc32 (ended_concat _), readEvents, hline,
    FileStorage.readEvents_eventLines hlater, readLines, formatEventWithCrc32,
    ← List.append_assoc, not_blank_of_colon, if_neg Bool.false_ne_true]
  cases hparse : parseAndValidateEvent crc32 _ with
  | none => rfl
  | some result => cases result <;> rfl

/-- What is read behind a part of a line was cut between two characters. -/
theorem front_of_readFile {part : List UInt8} {event first : String} {later found : List String}
    (hpart : part <+: jsonLine crc32 event) (hne : part ≠ jsonLine crc32 event)
    (h : LogFiles.readFile crc32 (part ++ jsonLines crc32 (first :: later)) = .ok found) :
    ∃ front, part = utf8 front ∧ front <+: formatEventWithCrc32 crc32 event := by
  have hline : jsonLine crc32 event = utf8 (formatEventWithCrc32 crc32 event ++ ['\n']) :=
    asBytes_ofList _
  obtain ⟨c, rest, hdigits⟩ : ∃ c rest,
      hexDigits 8 (crc32 (asBytes first)).toNat = c :: rest :=
    List.exists_cons_of_length_pos (by rw [length_hexDigits]; decide)
  have hc : c.utf8Size = 1 := by
    obtain ⟨-, hascii, -⟩ := checksum_spec crc32 first
    exact hascii c (hdigits ▸ List.mem_cons_self)
  obtain ⟨behind, hbehind⟩ : ∃ behind, FileStorage.eventLines crc32 true (first :: later) =
      c :: behind := by
    refine ⟨rest ++ ':' :: first.toList ++ ['\n'] ++ FileStorage.eventLines crc32 true later, ?_⟩
    simp [FileStorage.eventLines, FileStorage.eventLine, formatEventWithCrc32, hdigits]
  rw [LogFiles.readFile, decodeUtf8_eq_fromUtf8, jsonLines_eq_utf8, hbehind] at h
  have hsome : fromUtf8 (part ++ utf8 (c :: behind)) ≠ none := by
    intro hnone
    rw [hnone] at h
    cases h
  rw [hline] at hpart hne
  obtain ⟨front, rfl, hfront⟩ := exists_prefix_of_fromUtf8 hpart hc hsome
  refine ⟨front, rfl, ?_⟩
  rcases List.prefix_concat_iff.mp hfront with rfl | hfront
  · exact absurd rfl hne
  · exact hfront

/-- The event of a line has all of its bytes but nine. -/
theorem byteLength_of_parse {line : List Char} {event : String}
    (h : parseAndValidateEvent crc32 line = some (.ok event)) :
    byteLength line ≤ byteLength event.toList + 9 := by
  by_cases hline : Checksummed line
  · obtain ⟨crcHex, hsplit⟩ := splitAtByte_of_parse hline h
    rw [← append_of_splitAtByte hsplit, byteLength_append, byteLength_of_splitAtByte hsplit,
      Nat.add_comm]
  · rw [parse_of_not_checksummed hline] at h
    obtain rfl := Except.ok.inj (Option.some.inj h)
    rw [String.toList_ofList]
    exact Nat.le_add_right _ _

/-- Nothing of the batch was accepted; or its first line and a part of the second one, which ends
between two characters and is rejected with the first line behind it. -/
def HarmlessCut (crc32 : List UInt8 → UInt32) (batch : List String) (accepted : ℕ) : Prop :=
  accepted = 0 ∨ ∃ first second rest front, batch = first :: second :: rest ∧ front ≠ [] ∧
    front <+: formatEventWithCrc32 crc32 second ∧
      (jsonLines crc32 batch).take accepted = jsonLine crc32 first ++ utf8 front ∧
        Rejects crc32 (front ++ formatEventWithCrc32 crc32 first)

/-- A line with something in front of it does not give the event of the line. -/
theorem parse_front_ne {front : List Char} (hfront : front ≠ []) (event : String) :
    parseAndValidateEvent crc32 (front ++ formatEventWithCrc32 crc32 event) ≠
      some (.ok event) := by
  intro h
  obtain ⟨hlength, hascii, -⟩ := checksum_spec crc32 event
  obtain ⟨-, -, -, hbytes⟩ := splitAtByte_line hlength hascii event.toList
  have hle := byteLength_of_parse h
  have hpos := byteLength_pos hfront
  rw [byteLength_append, formatEventWithCrc32, hbytes] at hle
  omega

/-- A part that does no harm is read away. -/
theorem readFile_of_harmlessCut {more : List String} {accepted : ℕ}
    (hline : ∀ event ∈ batch ++ more, OneLine event) (h : HarmlessCut crc32 batch accepted) :
    LogFiles.readFile crc32 ((jsonLines crc32 batch).take accepted ++
      jsonLines crc32 (batch ++ more)) = .ok (batch ++ more) := by
  obtain rfl | ⟨first, second, rest, front, rfl, hne, hfront, htake, error, hreject⟩ := h
  · rw [List.take_zero, List.nil_append, readFile_jsonLines_of_oneLine hline]
  · have hsecond : OneLine second := hline second (by simp)
    have hfree : '\n' ∉ front := fun hmem ↦ noLineFeed_format hsecond (hfront.subset hmem)
    have hfirst : ∀ event ∈ [first], OneLine event := fun event hevent ↦
      List.mem_singleton.mp hevent ▸ hline first List.mem_cons_self
    have hkept : jsonLine crc32 first = jsonLines crc32 [first] :=
      (List.flatMap_singleton ..).symm
    have hlater : ∀ other ∈ second :: rest ++ more, OneLine other :=
      fun other hother ↦ hline other (List.mem_cons_of_mem first hother)
    rw [htake, List.append_assoc, hkept, readFile_append hfirst, List.cons_append,
      readFile_front hfree (hline first List.mem_cons_self) hlater, hreject]
    rfl

/-- A part in front of the lines is none, or ends within the second line. -/
theorem harmlessCut_of_readFile {more : List String} {accepted : ℕ} (hbatch : batch ≠ [])
    (hline : ∀ event ∈ batch ++ more, OneLine event)
    (h : LogFiles.readFile crc32 ((jsonLines crc32 batch).take accepted ++
      jsonLines crc32 (batch ++ more)) = .ok (batch ++ more)) :
    HarmlessCut crc32 batch accepted := by
  obtain ⟨whole, rest, part, hsplit, htake, hpart⟩ := exists_cut crc32 batch accepted
  have hwhole : ∀ event ∈ whole, OneLine event := fun event hevent ↦
    hline event (List.mem_append_left _ (hsplit ▸ List.mem_append_left _ hevent))
  rw [htake, List.append_assoc, readFile_append hwhole] at h
  obtain ⟨found, hread, hfound⟩ : ∃ found,
      LogFiles.readFile crc32 (part ++ jsonLines crc32 (batch ++ more)) = .ok found ∧
        whole ++ found = batch ++ more := by
    cases hread : LogFiles.readFile crc32 (part ++ jsonLines crc32 (batch ++ more)) with
    | error error =>
      rw [hread] at h
      cases h
    | ok found =>
      rw [hread] at h
      exact ⟨found, rfl, Except.ok.inj h⟩
  by_cases hnil : part = []
  · -- Whole lines only, whose events are read twice.
    rw [hnil, List.nil_append, readFile_jsonLines_of_oneLine hline] at hread
    obtain rfl := Except.ok.inj hread
    rw [List.append_left_eq_self.mp hfound, hnil] at htake
    refine Or.inl ((List.take_eq_nil_iff.mp htake).resolve_right fun hlines ↦ ?_)
    exact hbatch (jsonLines_eq_nil_iff.mp hlines)
  · obtain ⟨event, behind, rfl, hprefix, hcut⟩ := hpart.resolve_left hnil
    obtain ⟨first, others, rfl⟩ := List.exists_cons_of_ne_nil hbatch
    obtain ⟨front, rfl, hfront⟩ := front_of_readFile hprefix hcut hread
    have hne : front ≠ [] := fun hempty ↦ hnil (hempty ▸ utf8_nil)
    have hevent : OneLine event := hline event (List.mem_append_left _
      (hsplit ▸ List.mem_append_right _ List.mem_cons_self))
    have hfree : '\n' ∉ front := fun hmem ↦ noLineFeed_format hevent (hfront.subset hmem)
    have hlater : ∀ other ∈ others ++ more, OneLine other :=
      fun other hother ↦ hline other (List.mem_cons_of_mem first hother)
    rw [List.cons_append,
      readFile_front hfree (hline first List.mem_cons_self) hlater] at hread
    split at hread
    · cases hread
    · next error hreject =>
      -- The retried line is lost, and the whole one stands for it.
      obtain rfl := Except.ok.inj hread
      have hone : whole = [first] :=
        List.append_cancel_right (hfound.trans (List.singleton_append).symm)
      rw [hone] at hsplit htake
      obtain rfl := (List.cons.inj hsplit).2
      refine Or.inr ⟨first, event, behind, front, rfl, hne, hfront, ?_, error, hreject⟩
      rw [htake, jsonLines, List.flatMap_singleton]
    · next other hparse =>
      obtain rfl := Except.ok.inj hread
      have hlength := congrArg List.length hfound
      simp only [List.length_append, List.length_cons] at hlength
      obtain rfl : whole = [] := List.eq_nil_of_length_eq_zero (by omega)
      obtain rfl := (List.cons.inj hfound).1
      exact absurd hparse (parse_front_ne hne other)

/-- Of a batch with a part of its lines in front of it, each event is read once exactly when that
part does no harm. -/
theorem readFile_cut_iff {more : List String} (hbatch : batch ≠ [])
    (hline : ∀ event ∈ batch ++ more, OneLine event) (accepted : ℕ) :
    LogFiles.readFile crc32 ((jsonLines crc32 batch).take accepted ++
        jsonLines crc32 (batch ++ more)) = .ok (batch ++ more) ↔
      HarmlessCut crc32 batch accepted :=
  ⟨harmlessCut_of_readFile hbatch hline, readFile_of_harmlessCut hline⟩

end Cuts

namespace BufferedStorage

section Retry

variable {crc32 : List UInt8 → UInt32} {s : BufferedStorage} {events : List String}

theorem foldl_push (s : BufferedStorage) (more : List String) :
    more.foldl push s =
      { s with storage := { s.storage with eventBatch := s.storage.eventBatch ++ more } } := by
  induction more generalizing s with
  | nil => simp
  | cons event more ih =>
    rw [List.foldl_cons, ih]
    simp [push]

/-- What the files give when the batch is written, with bytes in front of it that wait in the
writer. -/
theorem readAllEvents_flushBatch {segment current : List String} {front : List UInt8}
    (hrotated : s.storage.files.rotated = jsonLines crc32 segment)
    (hevents : s.storage.files.events ++ s.held = jsonLines crc32 current ++ front)
    (hbatch : s.storage.eventBatch ≠ []) (hkeeps : s.SoundWrite crc32 .written)
    (hline : ∀ event ∈ segment ++ current, OneLine event) :
    (s.flushBatch crc32 .written).1.storage.files.readAllEvents crc32 =
      (LogFiles.readFile crc32 (front ++ jsonLines crc32 s.storage.eventBatch)).map
        (segment ++ current ++ ·) := by
  have hsegment : ∀ event ∈ segment, OneLine event :=
    fun event hevent ↦ hline event (List.mem_append_left _ hevent)
  have hcurrent : ∀ event ∈ current, OneLine event :=
    fun event hevent ↦ hline event (List.mem_append_right _ hevent)
  have hwritten : (s.withLog s.held).written crc32 =
      jsonLines crc32 current ++ (front ++ jsonLines crc32 s.storage.eventBatch) := by
    show s.storage.files.events ++ s.held ++ _ = _
    rw [hevents, List.append_assoc]
    rfl
  have hread : LogFiles.readFile crc32 ((s.withLog s.held).written crc32) =
      (LogFiles.readFile crc32 (front ++ jsonLines crc32 s.storage.eventBatch)).map
        (current ++ ·) := by
    rw [hwritten, readFile_append hcurrent]
  have hfiles : (s.flushBatch crc32 .written).1.storage =
      (s.withLog s.held).flushBatch crc32 := by
    rw [flushBatch, if_neg hbatch]
  rw [hfiles]
  by_cases hrotates : (s.withLog s.held).Rotates crc32
  · have hnone : segment = [] :=
      jsonLines_eq_nil_iff.mp (hrotated.symm.trans (hkeeps hrotates))
    rw [PlainStorage.flushBatch_of_rotates hrotates, LogFiles.readAllEvents, hread, hnone]
    cases LogFiles.readFile crc32 (front ++ jsonLines crc32 s.storage.eventBatch) with
    | error error => rfl
    | ok found =>
      show Except.ok (current ++ found ++ []) = _
      rw [List.append_nil]
      rfl
  · rw [PlainStorage.flushBatch_of_not_rotates hrotates, LogFiles.readAllEvents]
    have hfirst : LogFiles.readFile crc32 (s.withLog s.held).files.rotated = .ok segment := by
      show LogFiles.readFile crc32 s.storage.files.rotated = _
      rw [hrotated, readFile_jsonLines_of_oneLine hsegment]
    simp only [hfirst, hread]
    cases LogFiles.readFile crc32 (front ++ jsonLines crc32 s.storage.eventBatch) with
    | error error => rfl
    | ok found =>
      show Except.ok (segment ++ (current ++ found)) = _
      rw [← List.append_assoc]
      rfl

/-- A failed attempt, the events that come in without filling the batch, and an attempt that
succeeds. -/
def retry (crc32 : List UInt8 → UInt32) (s : BufferedStorage) (accepted wrote : ℕ)
    (more : List String) : BufferedStorage :=
  more.foldl push (s.flushBatch crc32 (.failed accepted wrote)).1

theorem Has.readAllEvents (h : Has crc32 s events) (hline : ∀ event ∈ events, OneLine event)
    (hkeeps : s.SoundWrite crc32 .written) :
    (s.flushEvents crc32 .written).1.storage.files.readAllEvents crc32 = .ok events := by
  obtain ⟨segment, current, hholds, hsplit⟩ := (h.flushBatch hkeeps).lines
  have hbatch : (s.flushBatch crc32 .written).1.storage.eventBatch = [] :=
    eventBatch_flushEvents s
  rw [hbatch, List.append_nil] at hsplit
  rw [flushEvents, hholds.readAllEvents, hsplit, FileStorage.readEvents_eventLines hline]

/-- After one failed attempt each event is read once exactly when the part that was accepted does no
harm. -/
theorem Has.readAllEvents_retry_iff (h : Has crc32 s events)
    (hline : ∀ event ∈ events, OneLine event) (hbatch : s.storage.eventBatch ≠ [])
    {accepted wrote : ℕ} {more : List String} (hmore : ∀ event ∈ more, OneLine event)
    (hkeeps : (s.retry crc32 accepted wrote more).SoundWrite crc32 .written) :
    ((s.retry crc32 accepted wrote more).flushBatch crc32 .written).1.storage.files.readAllEvents
        crc32 = .ok (events ++ more) ↔ HarmlessCut crc32 s.storage.eventBatch accepted := by
  obtain ⟨segment, current, hholds, rfl⟩ := h.lines
  have hretry : s.retry crc32 accepted wrote more =
      ⟨{ s.withLog (((jsonLines crc32 s.storage.eventBatch).take accepted).take wrote) with
          eventBatch := s.storage.eventBatch ++ more },
        ((jsonLines crc32 s.storage.eventBatch).take accepted).drop wrote⟩ := by
    rw [retry, foldl_push, BufferedStorage.flushBatch, if_neg hbatch, h.held]
    rfl
  have hfront : (s.retry crc32 accepted wrote more).storage.files.events ++
        (s.retry crc32 accepted wrote more).held =
      jsonLines crc32 current ++ (jsonLines crc32 s.storage.eventBatch).take accepted := by
    rw [hretry]
    show s.storage.files.events ++ _ ++ _ = _
    rw [List.append_assoc, List.take_append_drop, hholds.events]
  have hwaiting : (s.retry crc32 accepted wrote more).storage.eventBatch =
      s.storage.eventBatch ++ more := by
    rw [hretry]
  have hrotated : (s.retry crc32 accepted wrote more).storage.files.rotated =
      jsonLines crc32 segment := by
    rw [hretry]
    exact hholds.rotated
  have hbatchLine : ∀ event ∈ s.storage.eventBatch ++ more, OneLine event := by
    intro event hevent
    rcases List.mem_append.mp hevent with hevent | hevent
    · exact hline event (List.mem_append_right _ hevent)
    · exact hmore event hevent
  rw [readAllEvents_flushBatch hrotated hfront
    (by rw [hwaiting]; exact List.append_ne_nil_of_left_ne_nil hbatch _) hkeeps
    fun event hevent ↦ hline event (List.mem_append_left _ hevent), hwaiting,
    ← readFile_cut_iff hbatch hbatchLine]
  cases LogFiles.readFile crc32 ((jsonLines crc32 s.storage.eventBatch).take accepted ++
      jsonLines crc32 (s.storage.eventBatch ++ more)) with
  | error error => exact iff_of_false (by simp [Except.map]) (by simp)
  | ok found =>
    show Except.ok (segment ++ current ++ found) = _ ↔ _
    rw [Except.ok.injEq, Except.ok.injEq, List.append_assoc _ s.storage.eventBatch,
      List.append_cancel_left_eq]

end Retry

end BufferedStorage

/-- When attempts fail only with nothing accepted and no log is rotated over a segment, a flush that
succeeds leaves each event once and in order; and when one further attempt fails, wherever, it does
so exactly when the part that was accepted does no harm. -/
theorem retried_iff (crc32 : List UInt8 → UInt32) (maxBatchSize maxLogFileSize : ℕ)
    (calls : List (LogCall × FlushOutcome))
    (hline : ∀ event ∈ appended (calls.map Prod.fst), OneLine event)
    (hsound : EachStep (BufferedStorage.step crc32) (BufferedStorage.Sound crc32)
      (.fresh maxBatchSize maxLogFileSize) calls) :
    ∃ s : BufferedStorage,
      exec (BufferedStorage.step crc32) (.fresh maxBatchSize maxLogFileSize) calls = some s ∧
      (s.SoundWrite crc32 .written →
        (s.flushEvents crc32 .written).1.storage.files.readAllEvents crc32 =
          .ok (appended (calls.map Prod.fst))) ∧
      ∀ accepted wrote more, s.storage.eventBatch ≠ [] → (∀ event ∈ more, OneLine event) →
        (s.retry crc32 accepted wrote more).SoundWrite crc32 .written →
          (((s.retry crc32 accepted wrote more).flushBatch crc32
              .written).1.storage.files.readAllEvents crc32 =
            .ok (appended (calls.map Prod.fst) ++ more) ↔
              HarmlessCut crc32 s.storage.eventBatch accepted) := by
  have htotal : ∀ (s : BufferedStorage) (a : LogCall × FlushOutcome),
      ∃ next, s.step crc32 a = some next := by
    rintro s ⟨call, outcome⟩
    cases call <;> exact ⟨_, rfl⟩
  obtain ⟨s, hs⟩ := exists_exec htotal (.fresh maxBatchSize maxLogFileSize) calls
  have hfresh : (BufferedStorage.fresh maxBatchSize maxLogFileSize).Has crc32 [] :=
    ⟨⟨[], [], ⟨rfl, rfl⟩, rfl⟩, rfl⟩
  have hhas := hfresh.exec hsound hs
  rw [List.nil_append] at hhas
  exact ⟨s, hs, hhas.readAllEvents hline, fun accepted wrote more hbatch hmore hkeeps ↦
    hhas.readAllEvents_retry_iff hline hbatch hmore hkeeps⟩

theorem oneLine_empty : ∀ event ∈ ["\x7b\x7d"], OneLine event := by
  intro event hevent
  obtain rfl := List.mem_singleton.mp hevent
  exact ⟨by decide, by decide, by decide⟩

/-- An append, and a flush that cannot open the file. -/
def refused : List (LogCall × FlushOutcome) :=
  [(.appendEvent "\x7b\x7d", .written), (.flushEvents, .failed 0 0)]

/-- One event is kept through a failure in which nothing was accepted. -/
theorem retried_iff_refused :
    (∀ event ∈ appended (refused.map Prod.fst), OneLine event) ∧
      EachStep (BufferedStorage.step fun _ ↦ 0) (BufferedStorage.Sound fun _ ↦ 0) (.fresh 1000 0)
        refused ∧
      ∃ s : BufferedStorage,
        exec (BufferedStorage.step fun _ ↦ 0) (.fresh 1000 0) refused = some s ∧
          (s.flushEvents (fun _ ↦ 0) .written).1.storage.files.readAllEvents (fun _ ↦ 0) =
            .ok ["\x7b\x7d"] := by
  have hsound : EachStep (BufferedStorage.step fun _ ↦ 0) (BufferedStorage.Sound fun _ ↦ 0)
      (.fresh 1000 0) refused :=
    fun _ _ ↦ ⟨fun hfull ↦ absurd hfull (by decide), fun _ _ ↦ ⟨Or.inr rfl, trivial⟩⟩
  obtain ⟨s, hs, hread, -⟩ := retried_iff (fun _ ↦ 0) 1000 0 refused oneLine_empty hsound
  refine ⟨oneLine_empty, hsound, s, hs, hread ?_⟩
  obtain rfl := Option.some.inj hs
  exact fun hrotates ↦ absurd rfl hrotates.2.1

/-- An event whose line is written, but not synced, is written again. -/
theorem unsynced_repeats : ¬ ∀ (crc32 : List UInt8 → UInt32) (batch : List String)
    (accepted wrote : ℕ), (∀ event ∈ batch, OneLine event) →
      (((batch.foldl BufferedStorage.push (.fresh 1000 0)).retry crc32 accepted wrote
        []).flushBatch crc32 .written).1.storage.files.readAllEvents crc32 = .ok batch := by
  intro h
  have hfresh : (BufferedStorage.fresh 1000 0).Has (fun _ ↦ 0) [] :=
    ⟨⟨[], [], ⟨rfl, rfl⟩, rfl⟩, rfl⟩
  have hharmless := ((hfresh.push "\x7b\x7d").readAllEvents_retry_iff oneLine_empty
    (List.cons_ne_nil _ _) (fun event hevent ↦ absurd hevent List.not_mem_nil)
    fun hrotates ↦ absurd rfl hrotates.2.1).mp (h (fun _ ↦ 0) ["\x7b\x7d"] 12 12 oneLine_empty)
  rcases hharmless with hzero | ⟨first, second, rest, front, hbatch, -⟩
  · exact absurd hzero (by decide)
  · exact absurd (congrArg List.length hbatch) (by
      simp [BufferedStorage.push, BufferedStorage.fresh, PlainStorage.new])

end Lithair.Engine
