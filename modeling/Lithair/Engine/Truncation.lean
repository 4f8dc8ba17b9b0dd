import Lithair.Engine.SingleFileStore

/-!
# Truncation of the log

`truncate_events` of `engine/persistence.rs` and `engine/events.rs` empties the events file, closes
its writer and sets the count back. The batch stays, the segment that was renamed, the index, and
the writer of binary events, which may be that of the segment.

`truncated_iff`: the store holds what is appended later and nothing else exactly when nothing is in
the index and what stays gives no event (`Clean`): in JSON the batch does not, and the segment does
not or is replaced once, since the second rotation loses later events; in binary the segment does
not, with an empty batch and the writer of the log.
-/

namespace Lithair.Engine

namespace PlainStorage

variable {crc32 : List UInt8 → UInt32} {p : PlainStorage} {rotated : List UInt8} {n : ℕ}
  {pending later lost segment current : List String}

instance (p : PlainStorage) : Decidable (p.Rotates crc32) :=
  inferInstanceAs (Decidable
    (p.eventBatch ≠ [] ∧ p.maxLogFileSize ≠ 0 ∧ p.maxLogFileSize ≤ (p.written crc32).length))

variable (crc32) in
/-- The lines in the files and in the batch after `n` rotations of a log that was empty, with a
segment and a batch that were there before. -/
structure Since (rotated : List UInt8) (pending : List String) (n : ℕ)
    (later lost segment current : List String) (p : PlainStorage) : Prop where
  events : p.files.events = jsonLines crc32 current
  split : lost ++ segment ++ current ++ p.eventBatch = pending ++ later
  never : n = 0 → p.files.rotated = rotated ∧ lost = [] ∧ segment = []
  renamed : 0 < n → p.files.rotated = jsonLines crc32 segment
  once : n = 1 → lost = []
  behind : 0 < n → later ≠ [] → pending.length < (lost ++ segment).length
  twice : 1 < n → pending.length < lost.length

/-- The batch from before is written with a later line. -/
theorem Since.push (h : Since crc32 rotated pending n later lost segment current p)
    (hlater : later ≠ [] ∨ n = 0) (eventJson : String) :
    Since crc32 rotated pending n (later ++ [eventJson]) lost segment current
      { p with eventBatch := p.eventBatch ++ [eventJson] } := by
  refine ⟨h.events, ?_, h.never, h.renamed, h.once, fun hn _ ↦ ?_, h.twice⟩
  · rw [← List.append_assoc, ← List.append_assoc, h.split]
  · exact h.behind hn (hlater.resolve_right (Nat.pos_iff_ne_zero.mp hn))

/-- A rotation loses the segment that was there. -/
theorem Since.flushBatch (h : Since crc32 rotated pending n later lost segment current p)
    (hlater : later ≠ [] ∨ n = 0) :
    ∃ lost' segment' current', Since crc32 rotated pending
      (n + if p.Rotates crc32 then 1 else 0) later lost' segment' current'
        (p.flushBatch crc32) := by
  have hwritten : p.written crc32 = jsonLines crc32 (current ++ p.eventBatch) := by
    rw [written, h.events, jsonLines_append]
  by_cases hrotates : p.Rotates crc32
  · rw [if_pos hrotates, flushBatch_of_rotates hrotates]
    have hsplit : lost ++ segment ++ (current ++ p.eventBatch) = pending ++ later := by
      rw [← List.append_assoc, h.split]
    refine ⟨lost ++ segment, current ++ p.eventBatch, [], rfl, ?_, fun hn ↦ absurd hn (by omega),
      fun _ ↦ hwritten, fun hn ↦ ?_, fun _ hne ↦ ?_, fun hn ↦ ?_⟩
    · rw [List.append_nil, List.append_nil, hsplit]
    · obtain ⟨-, hlost, hsegment⟩ := h.never (by omega)
      rw [hlost, hsegment]
      rfl
    · have hpos := List.length_pos_of_ne_nil hne
      rw [hsplit, List.length_append]
      omega
    · have hpos : 0 < n := by omega
      exact h.behind hpos (hlater.resolve_right (Nat.pos_iff_ne_zero.mp hpos))
  · rw [if_neg hrotates, Nat.add_zero, flushBatch_of_not_rotates hrotates]
    refine ⟨lost, segment, current ++ p.eventBatch, hwritten, ?_, h.never, h.renamed, h.once,
      h.behind, h.twice⟩
    rw [List.append_nil, ← List.append_assoc, h.split]

/-- When everything has been written, the files give the later events and nothing else exactly when
the batch from before gives none, and the segment from before gives none or was replaced once. -/
theorem Since.readAllEvents_iff
    (h : Since crc32 rotated pending n later lost segment current p) (hbatch : p.eventBatch = [])
    (honeLine : ∀ event ∈ later, OneLine event) :
    p.files.readAllEvents crc32 = .ok later ↔
      LogFiles.readFile crc32 (jsonLines crc32 pending) = .ok [] ∧
        (n = 0 ∧ LogFiles.readFile crc32 rotated = .ok [] ∨ n = 1) := by
  have hsplit := h.split
  rw [hbatch, List.append_nil] at hsplit
  rcases Nat.lt_trichotomy n 1 with hnone | hone | hmore
  · obtain rfl : n = 0 := by omega
    obtain ⟨hrotated, rfl, rfl⟩ := h.never rfl
    have hcurrent : current = pending ++ later := hsplit
    rw [LogFiles.readAllEvents, hrotated, h.events, hcurrent,
      readFile_jsonLines_append pending honeLine]
    cases LogFiles.readFile crc32 rotated with
    | error error => simp
    | ok first =>
      cases LogFiles.readFile crc32 (jsonLines crc32 pending) with
      | error error => simp [Except.map]
      | ok second =>
        have hboth : first ++ (second ++ later) = later ↔ second = [] ∧ first = [] := by
          rw [← List.append_assoc, List.append_left_eq_self, List.append_eq_nil_iff, and_comm]
        simpa [Except.map] using hboth
  · obtain rfl := h.once hone
    have hholds : HoldsLines crc32 p.files segment current := ⟨h.renamed (by omega), h.events⟩
    have hread : p.files.readAllEvents crc32 =
        (LogFiles.readFile crc32 (jsonLines crc32 pending)).map (· ++ later) := by
      rw [hholds.readAllEvents, ← readFile_jsonLines, ← readFile_jsonLines_append pending honeLine]
      exact congrArg (fun events ↦ LogFiles.readFile crc32 (jsonLines crc32 events)) hsplit
    rw [hread, or_iff_right (fun hnever ↦ absurd hnever.1 (by omega)), and_iff_left hone]
    cases LogFiles.readFile crc32 (jsonLines crc32 pending) with
    | error error => simp [Except.map]
    | ok second => simp [Except.map]
  · -- A later event is in what is lost.
    refine iff_of_false (fun hread ↦ ?_) (fun hclean ↦ ?_)
    · have hlost := h.twice hmore
      obtain ⟨early, hearly, hlater⟩ :
          ∃ early, early ≠ [] ∧ later = early ++ (segment ++ current) := by
        rw [List.append_assoc] at hsplit
        rcases List.append_eq_append_iff.mp hsplit
          with ⟨early, hpending, -⟩ | ⟨early, hlost', hlater⟩
        · rw [hpending, List.length_append] at hlost
          omega
        · refine ⟨early, fun hnil ↦ ?_, hlater⟩
          rw [hlost', hnil, List.append_nil] at hlost
          exact lt_irrefl _ hlost
      have hkept : ∀ event ∈ segment ++ current, OneLine event := fun event hevent ↦
        honeLine event (hlater ▸ List.mem_append_right early hevent)
      have hholds : HoldsLines crc32 p.files segment current := ⟨h.renamed (by omega), h.events⟩
      rw [hholds.readAllEvents, ← readFile_jsonLines, readFile_jsonLines_of_oneLine hkept] at hread
      have hsame := Except.ok.inj hread
      rw [hlater, List.self_eq_append_left] at hsame
      exact hearly hsame
    · omega

end PlainStorage

namespace SingleFileStore

variable (crc32 : List UInt8 → UInt32) (sha256 : List UInt8 → String) (json : EnvelopeJson)
  (bincode : EnvelopeBincode)

/-- Appends and a flush behind them. -/
def appendAll (s : SingleFileStore) (later : List EventEnvelope) : SingleFileStore :=
  (later.foldl (appendEnvelope crc32 sha256 json bincode) s).flush crc32

/-- The records that appends write into the index. -/
def recordsOf (s : SingleFileStore) : List EventEnvelope → List (String × ℕ)
  | [] => []
  | envelope :: rest =>
    s.indexEntries envelope ++
      recordsOf (s.appendEnvelope crc32 sha256 json bincode envelope) rest

/-- How often appends of lines and the flush behind them rotate the log. -/
def rotations (s : SingleFileStore) : List EventEnvelope → ℕ
  | [] => if s.storage.plain.Rotates crc32 then 1 else 0
  | envelope :: rest =>
    (if s.WritesBatch ∧ (s.pushed sha256 json envelope).Rotates crc32 then 1 else 0) +
      rotations (s.appendEnvelope crc32 sha256 json bincode envelope) rest

/-- The files give the envelopes in the format of the store. -/
def ReadsBack (s : SingleFileStore) (events : List EventEnvelope) : Prop :=
  if s.binaryMode then
    s.storage.plain.files.readAllEventBytes = some (events.map bincode.encode)
  else s.storage.plain.files.readAllEvents crc32 = .ok (events.map json.render)

/-- The store has the events and no others, and finds the records in the index and no others. -/
structure HoldsOnly (s : SingleFileStore) (events : List EventEnvelope)
    (records : List (String × ℕ)) : Prop where
  readsBack : s.ReadsBack crc32 json bincode events
  eventCount : s.eventCount = events.length
  lookups : ∀ aggregateId, s.storage.readIndexOffsets aggregateId =
    { s.storage with index := records }.readIndexOffsets aggregateId

/-- The writer of binary events is that of the log, or is not open. -/
def BinaryCurrent (s : SingleFileStore) : Prop :=
  s.storage.plain.eventBatch = [] ∧
    s.storage.plain.binaryWriter.getD s.storage.plain.files.generation =
      s.storage.plain.files.generation

/-- Nothing that a truncation leaves is seen behind later appends. -/
structure Clean (s : SingleFileStore) (later : List EventEnvelope) : Prop where
  index : s.storage.index = []
  log : if s.binaryMode then
      s.BinaryCurrent ∧ readFrames s.storage.plain.files.rotated = some []
    else
      LogFiles.readFile crc32 (jsonLines crc32 s.storage.plain.eventBatch) = .ok [] ∧
        (s.truncateEvents.rotations crc32 sha256 json bincode later = 0 ∧
            LogFiles.readFile crc32 s.storage.plain.files.rotated = .ok [] ∨
          s.truncateEvents.rotations crc32 sha256 json bincode later = 1)

section Runs

variable {crc32 sha256 json bincode} {s : SingleFileStore} {later : List EventEnvelope}

/-- What appends do beside the log. -/
structure Follows (s next : SingleFileStore) (events : ℕ) (records : List (String × ℕ)) :
    Prop where
  asyncWriter : next.storage.asyncWriter = none
  binaryMode : next.binaryMode = s.binaryMode
  eventsCount : next.eventsCount = s.eventsCount + events
  index : next.storage.index = s.storage.index ++ records

variable (crc32 sha256 json bincode) in
theorem follows_foldl (hplain : s.storage.asyncWriter = none) (later : List EventEnvelope) :
    Follows s (later.foldl (appendEnvelope crc32 sha256 json bincode) s) later.length
      (s.recordsOf crc32 sha256 json bincode later) := by
  induction later generalizing s with
  | nil => exact ⟨hplain, rfl, rfl, (List.append_nil _).symm⟩
  | cons envelope rest ih =>
    have happend : s.appendEnvelope crc32 sha256 json bincode envelope = _ :=
      appendEnvelope_of_plain hplain
    have hsync : (s.appendEnvelope crc32 sha256 json bincode envelope).storage.asyncWriter =
        none := by
      rw [happend]
    obtain ⟨hplain', hmode, hcount, hindex⟩ := ih hsync
    rw [List.foldl_cons]
    refine ⟨hplain', hmode.trans (by rw [happend]), hcount.trans ?_, hindex.trans ?_⟩
    · rw [happend, List.length_cons]
      exact Nat.add_right_comm _ _ _
    · rw [recordsOf, ← List.append_assoc]
      refine congrArg (· ++ _) ?_
      rw [happend]

variable (crc32 sha256 json bincode) in
theorem follows_appendAll (hplain : s.storage.asyncWriter = none) (later : List EventEnvelope) :
    Follows s (s.appendAll crc32 sha256 json bincode later) later.length
      (s.recordsOf crc32 sha256 json bincode later) := by
  have h := follows_foldl crc32 sha256 json bincode
    hplain later
  rw [appendAll, flush_of_plain h.asyncWriter]
  exact ⟨h.asyncWriter, h.binaryMode, h.eventsCount, h.index⟩

variable (sha256 json bincode) in
/-- Lines that are appended and flushed. -/
theorem since_appendAll {rotated : List UInt8} {n : ℕ}
    {pending events lost segment current : List String} (hplain : s.storage.asyncWriter = none)
    (hjson : s.binaryMode = false) (hevents : events ≠ [] ∨ n = 0)
    (h : PlainStorage.Since crc32 rotated pending n events lost segment current s.storage.plain)
    (later : List EventEnvelope) :
    ∃ lost' segment' current', PlainStorage.Since crc32 rotated pending
      (n + s.rotations crc32 sha256 json bincode later)
      (events ++ (s.persistedOf sha256 later).map json.render) lost' segment' current'
      (s.appendAll crc32 sha256 json bincode later).storage.plain := by
  induction later generalizing s n events lost segment current with
  | nil =>
    have hflush : (s.appendAll crc32 sha256 json bincode []).storage.plain =
        s.storage.plain.flushBatch crc32 := by
      rw [appendAll, List.foldl_nil, flush_of_plain hplain]
    rw [hflush, persistedOf, linkAll, List.map_nil, List.append_nil]
    exact h.flushBatch hevents
  | cons envelope rest ih =>
    obtain ⟨hmode, -⟩ := appendEnvelope_spec crc32 sha256 json bincode s envelope
    have hsync : (s.appendEnvelope crc32 sha256 json bincode envelope).storage.asyncWriter =
        none := by
      rw [appendEnvelope_of_plain hplain]
    have hstorage : (s.appendEnvelope crc32 sha256 json bincode envelope).storage.plain =
        if s.WritesBatch then (s.pushed sha256 json envelope).flushBatch crc32
        else s.pushed sha256 json envelope := storage_append_json hplain hjson
    have hpushed : PlainStorage.Since crc32 rotated pending n
        (events ++ [json.render (s.envelopeToPersist sha256 envelope)]) lost segment current
        (s.pushed sha256 json envelope) := h.push hevents _
    have hne : events ++ [json.render (s.envelopeToPersist sha256 envelope)] ≠ [] :=
      List.append_ne_nil_of_right_ne_nil _ (List.cons_ne_nil _ _)
    have happended : events ++ (s.persistedOf sha256 (envelope :: rest)).map json.render =
        events ++ [json.render (s.envelopeToPersist sha256 envelope)] ++
          ((s.appendEnvelope crc32 sha256 json bincode envelope).persistedOf sha256 rest).map
            json.render := by
      rw [persistedOf_cons crc32 json bincode, List.map_cons, List.append_assoc]
      rfl
    rw [happended, rotations, ← Nat.add_assoc]
    by_cases hwrites : s.WritesBatch
    · obtain ⟨lost', segment', current', hflushed⟩ := hpushed.flushBatch (Or.inl hne)
      have hrotates : (s.WritesBatch ∧ (s.pushed sha256 json envelope).Rotates crc32) ↔
          (s.pushed sha256 json envelope).Rotates crc32 := and_iff_right hwrites
      simp only [hrotates]
      rw [if_pos hwrites] at hstorage
      exact ih hsync (hmode.trans hjson) (Or.inl hne) (hstorage ▸ hflushed)
    · rw [if_neg fun hboth ↦ hwrites hboth.1, Nat.add_zero]
      rw [if_neg hwrites] at hstorage
      exact ih hsync (hmode.trans hjson) (Or.inl hne) (hstorage ▸ hpushed)

theorem storage_truncateEvents (s : SingleFileStore) :
    s.truncateEvents.storage.asyncWriter = none := rfl

theorem plain_truncateEvents (s : SingleFileStore) : s.truncateEvents.storage.plain =
    { s.storage.plain with files := { s.storage.plain.files with events := [] } } := by
  unfold truncateEvents IndexedStorage.truncateEvents
  cases s.storage.asyncWriter <;> rfl

variable (crc32 sha256 json bincode) in
/-- In JSON the files give the later events and nothing else when what was there gives none. -/
theorem readsBack_json_iff (hjson : s.binaryMode = false) (later : List EventEnvelope) :
    (s.truncateEvents.appendAll crc32 sha256 json bincode later).ReadsBack crc32 json bincode
        (s.truncateEvents.persistedOf sha256 later) ↔
      LogFiles.readFile crc32 (jsonLines crc32 s.storage.plain.eventBatch) = .ok [] ∧
        (s.truncateEvents.rotations crc32 sha256 json bincode later = 0 ∧
            LogFiles.readFile crc32 s.storage.plain.files.rotated = .ok [] ∨
          s.truncateEvents.rotations crc32 sha256 json bincode later = 1) := by
  have hstart : PlainStorage.Since crc32 s.storage.plain.files.rotated s.storage.plain.eventBatch 0
      [] [] [] [] s.truncateEvents.storage.plain := by
    rw [plain_truncateEvents]
    exact ⟨rfl, (List.append_nil _).symm, fun _ ↦ ⟨rfl, rfl, rfl⟩, fun hn ↦ absurd hn (by decide),
      fun hn ↦ absurd hn (by decide), fun hn ↦ absurd hn (by decide),
      fun hn ↦ absurd hn (by decide)⟩
  obtain ⟨lost, segment, current, hsince⟩ := since_appendAll sha256 json bincode
    (s.storage_truncateEvents) hjson (Or.inr rfl) hstart later
  have hfollows := follows_appendAll crc32 sha256 json bincode s.storage_truncateEvents later
  have hbatch : (s.truncateEvents.appendAll crc32 sha256 json bincode
      later).storage.plain.eventBatch = [] := by
    have hfoldl := follows_foldl crc32 sha256 json bincode s.storage_truncateEvents later
    rw [appendAll, flush_of_plain hfoldl.asyncWriter]
    exact PlainStorage.eventBatch_flushBatch _
  have honeLine : ∀ event ∈ (s.truncateEvents.persistedOf sha256 later).map json.render,
      OneLine event := by
    intro event hevent
    obtain ⟨envelope, -, rfl⟩ := List.mem_map.mp hevent
    exact json.oneLine envelope
  have hmode : (s.truncateEvents.appendAll crc32 sha256 json bincode later).binaryMode = false :=
    hfollows.binaryMode.trans hjson
  rw [Nat.zero_add, List.nil_append] at hsince
  rw [ReadsBack, hmode, if_neg Bool.false_ne_true]
  exact hsince.readAllEvents_iff hbatch honeLine

/-- In binary, over the log that is written, when the segment that was there gives none. -/
theorem readsBack_binary_iff (hbinary : s.binaryMode = true) (hcurrent : s.BinaryCurrent)
    (later : List EventEnvelope)
    (hfits : (binaryFrames ((s.truncateEvents.persistedOf sha256 later).map
      bincode.encode)).length < 2 ^ 64) :
    (s.truncateEvents.appendAll crc32 sha256 json bincode later).ReadsBack crc32 json bincode
        (s.truncateEvents.persistedOf sha256 later) ↔
      readFrames s.storage.plain.files.rotated = some [] := by
  have hatOnce : s.truncateEvents.AtOnce := by
    refine ⟨rfl, hbinary, ?_⟩
    rw [plain_truncateEvents]
    exact hcurrent.1
  obtain ⟨hlast, hplain⟩ := hatOnce.foldl crc32 sha256 json bincode later
  have hhandle : s.truncateEvents.storage.plain.binaryWriter.getD
      s.truncateEvents.storage.plain.files.generation =
        s.truncateEvents.storage.plain.files.generation := by
    rw [plain_truncateEvents]
    exact hcurrent.2
  have hfiles : (s.truncateEvents.appendAll crc32 sha256 json bincode later).storage.plain.files =
      { s.storage.plain.files with
        events := binaryFrames
          ((s.truncateEvents.persistedOf sha256 later).map bincode.encode) } := by
    have hwritten := PlainStorage.files_foldl_appendBinaryEventBytes hhandle
      ((s.truncateEvents.persistedOf sha256 later).map bincode.encode)
    rw [← hplain, plain_truncateEvents] at hwritten
    rw [appendAll, flush_of_plain hlast.asyncWriter]
    dsimp only
    rw [PlainStorage.flushBatch, if_pos hlast.eventBatch, hwritten]
    rfl
  have hread : readFrames (binaryFrames ((s.truncateEvents.persistedOf sha256 later).map
      bincode.encode)) = some ((s.truncateEvents.persistedOf sha256 later).map bincode.encode) :=
    readFramesFrom_binaryFrames le_rfl (by rwa [Nat.zero_add])
  have hmode : (s.truncateEvents.appendAll crc32 sha256 json bincode later).binaryMode = true :=
    (follows_appendAll crc32 sha256 json bincode s.storage_truncateEvents later).binaryMode.trans
      hbinary
  rw [ReadsBack, hmode, if_pos rfl, hfiles, LogFiles.readAllEventBytes]
  dsimp only
  rw [hread]
  cases readFrames s.storage.plain.files.rotated with
  | none => simp
  | some first => simp

/-- The lookups find the later records alone when the index was empty. -/
theorem holdsOnly_iff (later : List EventEnvelope) :
    (s.truncateEvents.appendAll crc32 sha256 json bincode later).HoldsOnly crc32 json bincode
        (s.truncateEvents.persistedOf sha256 later)
        (s.truncateEvents.recordsOf crc32 sha256 json bincode later) ↔
      s.storage.index = [] ∧
        (s.truncateEvents.appendAll crc32 sha256 json bincode later).ReadsBack crc32 json bincode
          (s.truncateEvents.persistedOf sha256 later) := by
  have hfollows := follows_appendAll crc32 sha256 json bincode s.storage_truncateEvents later
  have hcount : (s.truncateEvents.appendAll crc32 sha256 json bincode later).eventCount =
      (s.truncateEvents.persistedOf sha256 later).length := by
    rw [persistedOf, length_linkAll]
    exact hfollows.eventsCount.trans (Nat.zero_add _)
  have hlookups : ∀ aggregateId,
      (s.truncateEvents.appendAll crc32 sha256 json bincode later).storage.readIndexOffsets
          aggregateId =
        s.storage.readIndexOffsets aggregateId ++
          { (s.truncateEvents.appendAll crc32 sha256 json bincode later).storage with
            index := s.truncateEvents.recordsOf crc32 sha256 json bincode
              later }.readIndexOffsets aggregateId := by
    intro aggregateId
    rw [IndexedStorage.readIndexOffsets, hfollows.index, List.filterMap_append]
    rfl
  rw [index_eq_nil_iff]
  constructor
  · intro h
    refine ⟨fun aggregateId ↦ ?_, h.readsBack⟩
    have hsame := h.lookups aggregateId
    rw [hlookups, List.append_left_eq_self] at hsame
    exact hsame
  · rintro ⟨hindex, hreadsBack⟩
    refine ⟨hreadsBack, hcount, fun aggregateId ↦ ?_⟩
    rw [hlookups, hindex, List.nil_append]

end Runs

end SingleFileStore

open SingleFileStore in
/-- Behind a truncation the store has what is appended later and nothing else, if nothing that stays
is seen, and, but for a binary store with lines in its batch or the writer of a renamed log, only
then. -/
theorem truncated_iff (crc32 : List UInt8 → UInt32) (sha256 : List UInt8 → String)
    (json : EnvelopeJson) (bincode : EnvelopeBincode) (s : SingleFileStore)
    (later : List EventEnvelope)
    (hfits : (binaryFrames ((s.truncateEvents.persistedOf sha256 later).map
      bincode.encode)).length < 2 ^ 64) :
    (s.Clean crc32 sha256 json bincode later →
      (s.truncateEvents.appendAll crc32 sha256 json bincode later).HoldsOnly crc32 json bincode
        (s.truncateEvents.persistedOf sha256 later)
        (s.truncateEvents.recordsOf crc32 sha256 json bincode later)) ∧
    ((s.binaryMode = true → s.BinaryCurrent) →
      (s.truncateEvents.appendAll crc32 sha256 json bincode later).HoldsOnly crc32 json bincode
        (s.truncateEvents.persistedOf sha256 later)
        (s.truncateEvents.recordsOf crc32 sha256 json bincode later) →
      s.Clean crc32 sha256 json bincode later) := by
  rw [holdsOnly_iff]
  cases hmode : s.binaryMode with
  | true =>
    constructor
    · rintro ⟨hindex, hlog⟩
      rw [hmode, if_pos rfl] at hlog
      exact ⟨hindex, (readsBack_binary_iff hmode hlog.1 later hfits).mpr hlog.2⟩
    · rintro hcurrent ⟨hindex, hreadsBack⟩
      refine ⟨hindex, ?_⟩
      rw [hmode, if_pos rfl]
      exact ⟨hcurrent rfl,
        (readsBack_binary_iff hmode (hcurrent rfl) later hfits).mp hreadsBack⟩
  | false =>
    have hreadsBack := readsBack_json_iff crc32 sha256 json bincode hmode later
    constructor
    · rintro ⟨hindex, hlog⟩
      rw [hmode, if_neg Bool.false_ne_true] at hlog
      exact ⟨hindex, hreadsBack.mpr hlog⟩
    · rintro - ⟨hindex, hread⟩
      refine ⟨hindex, ?_⟩
      rw [hmode, if_neg Bool.false_ne_true]
      exact hreadsBack.mp hread

open SingleFileStore in
theorem truncated_iff_flushed :
    let s := (fresh ⟨false, false, false⟩ 0 true).appendEnvelope (fun _ ↦ 0) (fun _ ↦ "00")
      .ofFormat .ofCodec ⟨"created", "e1", 1, "{}", none, none, none⟩
    let later : List EventEnvelope := [⟨"updated", "e2", 2, "{}", some "a", none, none⟩]
    (s.truncateEvents.appendAll (fun _ ↦ 0) (fun _ ↦ "00") .ofFormat .ofCodec later).HoldsOnly
      (fun _ ↦ 0) .ofFormat .ofCodec (s.truncateEvents.persistedOf (fun _ ↦ "00") later)
      (s.truncateEvents.recordsOf (fun _ ↦ 0) (fun _ ↦ "00") .ofFormat .ofCodec later) := by
  refine (truncated_iff (fun _ ↦ 0) (fun _ ↦ "00") .ofFormat .ofCodec _ _ (by decide)).1 ⟨rfl, ?_⟩
  exact ⟨⟨rfl, rfl⟩, rfl⟩

/-- An event that waits in the batch is in the log again. -/
theorem batch_survives_truncation : ¬ ∀ (crc32 : List UInt8 → UInt32)
    (sha256 : List UInt8 → String) (json : EnvelopeJson) (bincode : EnvelopeBincode)
    (s : SingleFileStore) (later : List EventEnvelope),
    (s.truncateEvents.appendAll crc32 sha256 json bincode later).HoldsOnly crc32 json bincode
      (s.truncateEvents.persistedOf sha256 later)
      (s.truncateEvents.recordsOf crc32 sha256 json bincode later) := by
  intro h
  have hreadsBack := (h (fun _ ↦ 0) (fun _ ↦ "00") .ofFormat .ofCodec
    (((SingleFileStore.fresh ⟨false, false, false⟩ 0 false).setFlushEvery 0).appendEnvelope
      (fun _ ↦ 0) (fun _ ↦ "00") .ofFormat .ofCodec
      ⟨"created", "e1", 1, "{}", none, none, none⟩) []).readsBack
  obtain ⟨hnone, -⟩ := (SingleFileStore.readsBack_json_iff (fun _ ↦ 0) (fun _ ↦ "00") .ofFormat
    .ofCodec rfl []).mp hreadsBack
  have hread : LogFiles.readFile (fun _ ↦ 0) (jsonLines (fun _ ↦ 0) [EnvelopeJson.ofFormat.render
      ⟨"created", "e1", 1, "{}", none, some "00", none⟩]) = .ok [EnvelopeJson.ofFormat.render
        ⟨"created", "e1", 1, "{}", none, some "00", none⟩] :=
    readFile_jsonLines_of_oneLine fun event hevent ↦
      List.mem_singleton.mp hevent ▸ EnvelopeJson.ofFormat.oneLine _
  cases hread.symm.trans hnone

end Lithair.Engine
