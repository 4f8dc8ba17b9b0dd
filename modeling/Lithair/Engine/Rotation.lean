import Lithair.Engine.FileStorage
import Lithair.Lib.Run

/-!
# Rotation of the log

`append_event`, `flush_events` and `maybe_rotate` of `engine/persistence.rs`, with any size of a
batch and any size from which the log is rotated. A log that has reached the size takes the place of
the segment that was renamed before it, and what was in that segment is lost.

`readAllEvents_eq_appended_iff`: after a last flush the files hold the events that were appended
exactly when the text of each is one line and no call rotates the log over a segment that is there.
-/

namespace Lithair.Engine

open Lithair.Lib.Run Lithair.Lib.Text

/-! ### What the lines of a file can give -/

section ReadBack

variable {crc32 : List UInt8 → UInt32}

/-- The event of a line is a part of it. -/
theorem suffix_of_parse {line : List Char} {event : String}
    (h : parseAndValidateEvent crc32 line = some (.ok event)) : event.toList <:+ line := by
  unfold parseAndValidateEvent at h
  split_ifs at h
  · split at h
    · exact absurd h (by simp)
    · next crcHex jsonData hsplit =>
      split at h
      · exact absurd h (by simp)
      · split at h
        · exact absurd h (by simp)
        · simp only at h
          split_ifs at h
          · exact absurd h (by simp)
          · obtain rfl := Except.ok.inj (Option.some.inj h)
            rw [String.toList_ofList]
            exact ⟨crcHex, append_of_splitAtByte hsplit⟩
  · obtain rfl := Except.ok.inj (Option.some.inj h)
    simp only [String.toList_ofList, List.suffix_rfl]

/-- Each event is read from a line of its own. -/
theorem readLines_spec {lines : List (List Char)} {events : List String}
    (h : readLines crc32 lines = some events) :
    events.length ≤ lines.length ∧ ∀ event ∈ events, ∃ line ∈ lines, event.toList <:+ line := by
  induction lines generalizing events with
  | nil =>
    obtain rfl := Option.some.inj h
    exact ⟨le_rfl, fun event hevent ↦ absurd hevent List.not_mem_nil⟩
  | cons line rest ih =>
    have hrest : ∀ found, readLines crc32 rest = some found →
        found.length ≤ (line :: rest).length ∧
          ∀ event ∈ found, ∃ line' ∈ line :: rest, event.toList <:+ line' := by
      intro found hfound
      obtain ⟨hlength, hlines⟩ := ih hfound
      refine ⟨hlength.trans (Nat.le_succ _), fun event hevent ↦ ?_⟩
      obtain ⟨line', hline', hsuffix⟩ := hlines event hevent
      exact ⟨line', List.mem_cons_of_mem line hline', hsuffix⟩
    unfold readLines at h
    split_ifs at h
    · exact hrest events h
    · split at h
      · exact absurd h (by simp)
      · exact hrest events h
      · next event hparse =>
        obtain ⟨found, hfound, rfl⟩ := Option.map_eq_some_iff.mp h
        refine ⟨Nat.succ_le_succ (ih hfound).1, fun other hother ↦ ?_⟩
        rcases List.mem_cons.mp hother with rfl | hother
        · exact ⟨line, List.mem_cons_self, suffix_of_parse hparse⟩
        · exact (hrest found hfound).2 other hother

/-- No event that is read has a line feed. -/
theorem noLineFeed_of_readEvents {content : List Char} {events : List String}
    (h : readEvents crc32 content = some events) : ∀ event ∈ events, '\n' ∉ event.toList := by
  intro event hevent hmem
  obtain ⟨line, hline, hsuffix⟩ := (readLines_spec h).2 event hevent
  exact noLineFeed_of_mem_lines hline (hsuffix.subset hmem)

/-- What a line with a checksum gives: the text behind the checksum, or the line when there is
none. -/
theorem toList_of_parse_line {digits data : List Char} {event : String}
    (hlength : digits.length = 8) (hascii : ∀ c ∈ digits, c.utf8Size = 1)
    (h : parseAndValidateEvent crc32 (digits ++ ':' :: data) = some (.ok event)) :
    event.toList = if data = [] then digits ++ [':'] else data := by
  obtain ⟨hline, hcrc, hmark, hbytes⟩ := splitAtByte_line hlength hascii data
  rw [parseAndValidateEvent] at h
  by_cases hnil : data = []
  · subst hnil
    have hshort : ¬ 9 < byteLength (digits ++ [':']) := by
      rw [hbytes]
      exact lt_irrefl 9
    rw [if_neg fun hlong ↦ hshort hlong.1] at h
    rw [if_pos rfl, ← Except.ok.inj (Option.some.inj h), String.toList_ofList]
  · have hlong : 9 < byteLength (digits ++ ':' :: data) := by
      have hpos := byteLength_pos hnil
      omega
    rw [if_pos ⟨hlong, hmark⟩, hline] at h
    simp only [hcrc] at h
    rw [if_neg hnil]
    split at h
    · exact absurd h (by simp)
    · split_ifs at h
      · exact absurd h (by simp)
      · rw [← Except.ok.inj (Option.some.inj h), String.toList_ofList]

/-- A text without line feeds that is read back from its line is one line. -/
theorem oneLine_of_readEvents {event : String} (hevent : '\n' ∉ event.toList)
    (h : readEvents crc32 (formatEventWithCrc32 crc32 event ++ ['\n']) = some [event]) :
    OneLine event := by
  obtain ⟨hlength, hascii, -⟩ := checksum_spec crc32 event
  rw [readEvents_line crc32 hevent, readLines, if_neg (by rw [not_blank_of_colon]; decide)] at h
  generalize hexDigits 8 (crc32 (asBytes event)).toNat = digits at hlength hascii h
  have hread : parseAndValidateEvent crc32 (digits ++ ':' :: stripCarriageReturn event.toList) =
      some (.ok event) := by
    split at h
    · exact absurd h (by simp)
    · exact absurd h (by simp [readLines])
    · next found hparse =>
      rw [readLines, Option.map_some, Option.some.injEq, List.singleton_inj] at h
      rw [hparse, h]
  have htext := toList_of_parse_line hlength hascii hread
  refine ⟨?_, hevent, fun hend ↦ ?_⟩
  · rintro rfl
    rw [show stripCarriageReturn "".toList = [] from rfl, if_pos rfl] at htext
    exact absurd (congrArg List.length htext) (by simp [hlength])
  · have hshorter : event.toList.dropLast.length + 1 = event.toList.length := by
      rw [List.length_dropLast]
      exact Nat.sub_add_cancel (List.length_pos_of_ne_nil (by rintro hnil; simp [hnil] at hend))
    rw [stripCarriageReturn, if_pos hend] at htext
    have hlengths := congrArg List.length htext
    split_ifs at hlengths with hnil
    · rw [hnil] at hshorter
      rw [← hshorter, List.length_append, hlength] at hlengths
      exact absurd hlengths (by decide)
    · omega

end ReadBack

/-! ### Calls -/

/-- A call of a storage. -/
inductive LogCall
  | appendEvent (eventJson : String)
  | flushEvents
  deriving DecidableEq

/-- The events that calls append. -/
def appended (calls : List LogCall) : List String :=
  calls.filterMap fun
    | .appendEvent eventJson => some eventJson
    | .flushEvents => none

namespace FileStorage

variable (crc32 : List UInt8 → UInt32)

/-- A storage in an empty directory with the two limits. -/
def fresh (maxBatchSize maxLogFileSize : ℕ) : FileStorage :=
  { empty with
    maxBatchSize
    maxLogFileSize }

def call (s : FileStorage) : LogCall → Option FileStorage
  | .appendEvent eventJson => some (s.appendEvent crc32 eventJson)
  | .flushEvents => some (s.flushEvents crc32)

/-- The storage whose batch the call writes, if it writes one. -/
def writing (s : FileStorage) : LogCall → Option FileStorage
  | .appendEvent eventJson =>
    let s := { s with eventBatch := s.eventBatch ++ [eventJson] }
    if s.maxBatchSize ≤ s.eventBatch.length then some s else none
  | .flushEvents => if s.eventBatch = [] then none else some s

/-- The call does not rotate the log over a segment that is there. -/
def KeepsSegment (s : FileStorage) (c : LogCall) : Prop :=
  ∀ t ∈ s.writing c, t.maxLogFileSize ≠ 0 → t.maxLogFileSize ≤ byteLength (t.written crc32) →
    t.rotated = []

/-- The files hold the lines of the events. -/
structure Stores (s : FileStorage) (segment current : List String) : Prop where
  checksums : s.enableChecksums = true
  rotated : s.rotated = eventLines crc32 true segment
  events : s.events = eventLines crc32 true current

section Steps

variable {crc32} {s next : FileStorage} {segment current : List String}

theorem eventLines_eq_nil_iff {enableChecksums : Bool} {events : List String} :
    eventLines crc32 enableChecksums events = [] ↔ events = [] := by
  cases events with
  | nil => exact iff_of_true rfl rfl
  | cons event rest => simp [eventLines, eventLine]

/-- A batch is written, and what was in the segment is lost when the log takes its place. -/
theorem Stores.flushBatch (h : Stores crc32 s segment current) (hbatch : s.eventBatch ≠ []) :
    ∃ lost segment' current', Stores crc32 (s.flushBatch crc32) segment' current' ∧
      (s.flushBatch crc32).eventBatch = [] ∧
      lost ++ segment' ++ current' = segment ++ current ++ s.eventBatch ∧
      (lost = [] ↔ (s.maxLogFileSize ≠ 0 → s.maxLogFileSize ≤ byteLength (s.written crc32) →
        s.rotated = [])) := by
  have hwritten : s.written crc32 = eventLines crc32 true (current ++ s.eventBatch) := by
    rw [written, h.events, h.checksums, eventLines_append]
  rw [FileStorage.flushBatch, if_neg hbatch, maybeRotate]
  split_ifs with hnever hsize
  · refine ⟨[], segment, current ++ s.eventBatch, ⟨h.checksums, h.rotated, hwritten⟩, rfl, ?_, ?_⟩
    · rw [List.nil_append, List.append_assoc]
    · exact iff_of_true rfl fun hrotates ↦ absurd hnever hrotates
  · refine ⟨segment, current ++ s.eventBatch, [], ⟨h.checksums, hwritten, rfl⟩, rfl, ?_, ?_⟩
    · rw [List.append_nil, List.append_assoc]
    · rw [h.rotated, eventLines_eq_nil_iff]
      exact ⟨fun hnil _ _ ↦ hnil, fun hkeeps ↦ hkeeps hnever hsize⟩
  · refine ⟨[], segment, current ++ s.eventBatch, ⟨h.checksums, h.rotated, hwritten⟩, rfl, ?_, ?_⟩
    · rw [List.nil_append, List.append_assoc]
    · exact iff_of_true rfl fun _ hrotates ↦ absurd hrotates hsize

/-- What a call does to the events in the files and in the batch. -/
theorem Stores.after_call {c : LogCall} (h : Stores crc32 s segment current)
    (hnext : s.call crc32 c = some next) :
    ∃ lost segment' current', Stores crc32 next segment' current' ∧
      lost ++ segment' ++ current' ++ next.eventBatch =
        segment ++ current ++ s.eventBatch ++ appended [c] ∧
      (lost = [] ↔ s.KeepsSegment crc32 c) := by
  cases c with
  | appendEvent eventJson =>
    obtain rfl := Option.some.inj hnext
    have hput : Stores crc32 { s with eventBatch := s.eventBatch ++ [eventJson] } segment current :=
      ⟨h.checksums, h.rotated, h.events⟩
    unfold appendEvent KeepsSegment writing
    simp only
    split_ifs with hfull
    · obtain ⟨lost, segment', current', hstores, hnil, hsplit, hkeeps⟩ :=
        hput.flushBatch (by simp)
      refine ⟨lost, segment', current', hstores, ?_, hkeeps.trans (by simp)⟩
      rw [hnil, List.append_nil, hsplit, ← List.append_assoc]
      rfl
    · refine ⟨[], segment, current, hput, ?_, by simp⟩
      rw [List.nil_append, ← List.append_assoc]
      rfl
  | flushEvents =>
    obtain rfl := Option.some.inj hnext
    unfold flushEvents KeepsSegment writing
    by_cases hbatch : s.eventBatch = []
    · rw [FileStorage.flushBatch, if_pos hbatch]
      refine ⟨[], segment, current, h, ?_, by simp [hbatch]⟩
      rw [List.nil_append]
      exact (List.append_nil _).symm
    · obtain ⟨lost, segment', current', hstores, hnil, hsplit, hkeeps⟩ := h.flushBatch hbatch
      refine ⟨lost, segment', current', hstores, ?_, hkeeps.trans (by simp [hbatch])⟩
      rw [hnil, List.append_nil, hsplit]
      exact (List.append_nil _).symm

/-- What calls do to the events in the files and in the batch. -/
theorem Stores.after_exec {calls : List LogCall} (h : Stores crc32 s segment current)
    (hexec : exec (call crc32) s calls = some next) :
    ∃ lost segment' current', Stores crc32 next segment' current' ∧
      lost ++ segment' ++ current' ++ next.eventBatch =
        segment ++ current ++ s.eventBatch ++ appended calls ∧
      (lost = [] ↔ EachStep (call crc32) (KeepsSegment crc32) s calls) := by
  induction calls generalizing s segment current with
  | nil =>
    obtain rfl := Option.some.inj hexec
    exact ⟨[], segment, current, h, (List.append_nil _).symm, iff_of_true rfl trivial⟩
  | cons c rest ih =>
    obtain ⟨mid, hmid, hrest⟩ := exec_cons_eq_some.mp hexec
    obtain ⟨lost, segment', current', hstores, hsplit, hkeeps⟩ := h.after_call hmid
    obtain ⟨lost', segment'', current'', hstores', hsplit', hkeeps'⟩ := ih hstores hrest
    refine ⟨lost ++ lost', segment'', current'', hstores', ?_, ?_⟩
    · have happended : appended (c :: rest) = appended [c] ++ appended rest :=
        List.filterMap_append (l := [c])
      calc lost ++ lost' ++ segment'' ++ current'' ++ next.eventBatch
          = lost ++ (lost' ++ segment'' ++ current'' ++ next.eventBatch) := by
            simp only [List.append_assoc]
        _ = lost ++ (segment' ++ current' ++ mid.eventBatch ++ appended rest) := by rw [hsplit']
        _ = (lost ++ segment' ++ current' ++ mid.eventBatch) ++ appended rest := by
            simp only [List.append_assoc]
        _ = segment ++ current ++ s.eventBatch ++ appended (c :: rest) := by
            rw [hsplit, happended, List.append_assoc _ (appended [c])]
    · rw [List.append_eq_nil_iff, hkeeps, hkeeps']
      constructor
      · rintro ⟨hstep, hsteps⟩ t ht
        obtain rfl := Option.some.inj (hmid.symm.trans ht)
        exact ⟨hstep, hsteps⟩
      · intro hsteps
        exact hsteps mid hmid

end Steps

/-! ### What the files give -/

section Files

variable {crc32 : List UInt8 → UInt32} {kept : List String}

theorem readEvents_eventLines_cons (event : String) (rest : List String) :
    readEvents crc32 (eventLines crc32 true (event :: rest)) =
      (readEvents crc32 (formatEventWithCrc32 crc32 event ++ ['\n'])).bind fun first ↦
        (readEvents crc32 (eventLines crc32 true rest)).map (first ++ ·) := by
  rw [← readEvents_append crc32 (ended_concat _)]
  rfl

/-- Events that are one line each are read back from their lines. -/
theorem readEvents_eventLines (h : ∀ event ∈ kept, OneLine event) :
    readEvents crc32 (eventLines crc32 true kept) = some kept := by
  induction kept with
  | nil => rfl
  | cons event rest ih =>
    have hevent := readEvents_formatEventWithCrc32 crc32 (h event List.mem_cons_self)
    rw [readEvents_eventLines_cons, hevent,
      ih fun other hother ↦ h other (List.mem_cons_of_mem event hother)]
    rfl

/-- The line of an event without line feeds gives one event at most, so that what is read back are
the events only when each of them is. -/
theorem readEvents_eventLines_spec {found : List String}
    (hfree : ∀ event ∈ kept, '\n' ∉ event.toList)
    (h : readEvents crc32 (eventLines crc32 true kept) = some found) :
    found.length ≤ kept.length ∧ (found = kept → ∀ event ∈ kept, OneLine event) := by
  induction kept generalizing found with
  | nil =>
    obtain rfl := Option.some.inj h
    exact ⟨le_rfl, fun _ event hevent ↦ absurd hevent List.not_mem_nil⟩
  | cons event rest ih =>
    have hevent := hfree event List.mem_cons_self
    rw [readEvents_eventLines_cons, Option.bind_eq_some_iff] at h
    obtain ⟨first, hfirst, hmap⟩ := h
    obtain ⟨more, hmore, rfl⟩ := Option.map_eq_some_iff.mp hmap
    obtain ⟨hrest, honeLine⟩ := ih (fun other hother ↦ hfree other (List.mem_cons_of_mem _ hother))
      hmore
    have hone : first.length ≤ 1 := by
      rw [readEvents_line crc32 hevent] at hfirst
      exact (readLines_spec hfirst).1
    refine ⟨?_, fun hsame ↦ ?_⟩
    · rw [List.length_append, List.length_cons]
      omega
    · have hlength := congrArg List.length hsame
      rw [List.length_append, List.length_cons] at hlength
      have hfirstLength : first.length = [event].length := by
        rw [List.length_singleton]
        omega
      have hparts : first ++ more = [event] ++ rest := hsame
      obtain ⟨rfl, rfl⟩ := List.append_inj hparts hfirstLength
      intro other hother
      rcases List.mem_cons.mp hother with rfl | hother
      · exact oneLine_of_readEvents hevent hfirst
      · exact honeLine rfl other hother

/-- The files give the events that they hold and none that are lost, exactly when nothing is lost
and each event is one line. -/
theorem readEvents_eventLines_iff {lost : List String} :
    readEvents crc32 (eventLines crc32 true kept) = some (lost ++ kept) ↔
      lost = [] ∧ ∀ event ∈ kept, OneLine event := by
  constructor
  · intro h
    have hfree : ∀ event ∈ kept, '\n' ∉ event.toList := fun event hevent ↦
      noLineFeed_of_readEvents h event (List.mem_append_right lost hevent)
    obtain ⟨hlength, honeLine⟩ := readEvents_eventLines_spec hfree h
    have hlost : lost = [] := by
      rw [List.length_append] at hlength
      exact List.eq_nil_of_length_eq_zero (by omega)
    exact ⟨hlost, honeLine (by rw [hlost, List.nil_append])⟩
  · rintro ⟨rfl, honeLine⟩
    exact readEvents_eventLines honeLine

theorem Stores.readAllEvents {s : FileStorage} {segment current : List String}
    (h : Stores crc32 s segment current) :
    s.readAllEvents crc32 = readEvents crc32 (eventLines crc32 true (segment ++ current)) := by
  rw [eventLines_append, readEvents_append crc32 (ended_eventLines crc32 true segment),
    FileStorage.readAllEvents, h.rotated, h.events]

/-- Nothing is left in the batch by a flush. -/
theorem eventBatch_flushEvents (s : FileStorage) : (s.flushEvents crc32).eventBatch = [] := by
  unfold flushEvents flushBatch maybeRotate
  split_ifs with hbatch
  · exact hbatch
  all_goals rfl

end Files

/-- In every run that ends in a flush, what is read back is what was appended exactly when each
event is one line and no call rotates the log over a segment that is there. -/
theorem readAllEvents_eq_appended_iff (crc32 : List UInt8 → UInt32)
    (maxBatchSize maxLogFileSize : ℕ) (calls : List LogCall) :
    ((exec (call crc32) (fresh maxBatchSize maxLogFileSize) (calls ++ [.flushEvents])).bind
        fun s ↦ s.readAllEvents crc32) = some (appended calls) ↔
      (∀ eventJson ∈ appended calls, OneLine eventJson) ∧
        EachStep (call crc32) (KeepsSegment crc32) (fresh maxBatchSize maxLogFileSize)
          (calls ++ [.flushEvents]) := by
  have htotal : ∀ (s : FileStorage) (c : LogCall), ∃ next, s.call crc32 c = some next :=
    fun s c ↦ by cases c <;> exact ⟨_, rfl⟩
  obtain ⟨mid, hmid⟩ := exists_exec htotal (fresh maxBatchSize maxLogFileSize) calls
  have hexec : exec (call crc32) (fresh maxBatchSize maxLogFileSize) (calls ++ [.flushEvents]) =
      some (mid.flushEvents crc32) := by
    rw [exec_append, hmid]
    rfl
  have hfresh : Stores crc32 (fresh maxBatchSize maxLogFileSize) [] [] := ⟨rfl, rfl, rfl⟩
  obtain ⟨lost, segment, current, hstores, hsplit, hkeeps⟩ := hfresh.after_exec hexec
  have happended : appended calls = lost ++ (segment ++ current) := by
    rw [eventBatch_flushEvents, List.append_nil, List.append_assoc] at hsplit
    rw [hsplit]
    show _ = [] ++ appended (calls ++ [.flushEvents])
    rw [appended, appended, List.filterMap_append]
    exact (List.append_nil _).symm
  rw [hexec, Option.bind_some, hstores.readAllEvents, ← hkeeps, happended,
    readEvents_eventLines_iff]
  constructor
  · rintro ⟨rfl, honeLine⟩
    exact ⟨honeLine, rfl⟩
  · rintro ⟨honeLine, rfl⟩
    exact ⟨rfl, honeLine⟩

/-- Each event fills the log, and the second takes the place of the first. -/
theorem second_rotation_loses : ¬ ∀ (crc32 : List UInt8 → UInt32)
    (maxBatchSize maxLogFileSize : ℕ) (calls : List LogCall),
    ((exec (call crc32) (fresh maxBatchSize maxLogFileSize) (calls ++ [.flushEvents])).bind
      fun s ↦ s.readAllEvents crc32) = some (appended calls) := by
  intro h
  exact absurd (h (fun _ ↦ 0) 1 1 [.appendEvent "a", .appendEvent "b"]) (by decide)

end FileStorage

end Lithair.Engine
