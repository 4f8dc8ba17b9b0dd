import Lithair.Engine.SingleFileStore
import Lithair.Lib.RecordIndex

/-!
# The index of aggregates

`append_envelope` of `engine/events.rs` writes into the index, for an envelope of an aggregate, the
size of the log when it is appended. That is where its record will start when no event waits in the
batch, and it is in the log as long as that is not rotated; a log of which the index has records is
rotated all the same.

`offsets_iff`: after a last flush the places of every aggregate are those of its envelopes, in their
order, exactly when each call that appends an envelope of an aggregate finds the index enabled and
the batch empty (`Places`), and no call rotates a log of which the index has or gets a record.
-/

namespace Lithair.Engine

open Lithair.Lib Lithair.Lib.RecordIndex Lithair.Lib.Run

/-- A call of a store. -/
inductive IndexCall
  | append (envelope : EventEnvelope)
  | flush
  | setFlushEvery (count : ℕ)
  | configureBatching (maxBatchSize : ℕ)

/-- The envelopes that calls append. -/
def appendedBy (calls : List IndexCall) : List EventEnvelope :=
  calls.filterMap fun
    | .append envelope => some envelope
    | .flush | .setFlushEvery _ | .configureBatching _ => none

/-- The envelope is one of the aggregate. -/
def ofAggregate (aggregateId : String) (envelope : EventEnvelope) : Bool :=
  envelope.aggregateId = some aggregateId

namespace SingleFileStore

variable (crc32 : List UInt8 → UInt32) (sha256 : List UInt8 → String) (json : EnvelopeJson)
  (bincode : EnvelopeBincode)

def call (s : SingleFileStore) : IndexCall → SingleFileStore
  | .append envelope => s.appendEnvelope crc32 sha256 json bincode envelope
  | .flush => s.flush crc32
  | .setFlushEvery count => s.setFlushEvery count
  | .configureBatching maxBatchSize => s.configureBatching maxBatchSize

/-- The storage whose batch the call writes, if it writes one. A binary event is in no batch. -/
def writing (s : SingleFileStore) : IndexCall → Option PlainStorage
  | .append envelope =>
    if s.binaryMode then none
    else if s.WritesBatch then some (s.pushed sha256 json envelope)
    else none
  | .flush => some s.storage.plain
  | .setFlushEvery _ | .configureBatching _ => none

/-- The call rotates the log. -/
def RotatesAt (s : SingleFileStore) (c : IndexCall) : Prop :=
  ∃ p ∈ s.writing sha256 json c, p.Rotates crc32

/-- An envelope of an aggregate is appended with the index enabled and no event in the batch, and
the log is rotated only while nothing is in the index and nothing comes into it. -/
def Places (s : SingleFileStore) (c : IndexCall) : Prop :=
  (∀ envelope ∈ appendedBy [c], envelope.aggregateId ≠ none →
    s.disableIndex = false ∧ s.storage.plain.eventBatch = []) ∧
  (s.RotatesAt crc32 sha256 json c →
    s.storage.index = [] ∧ ∀ envelope ∈ appendedBy [c], envelope.aggregateId = none)

/-- For every aggregate the index has the places in the log of its envelopes. -/
def OffsetsMatch (s : SingleFileStore) (persisted : List EventEnvelope) : Prop :=
  ∀ aggregateId, Indexed (record crc32 json bincode s.binaryMode) s.storage.plain.files.events
    (s.storage.readIndexOffsets aggregateId) (persisted.filter (ofAggregate aggregateId))

/-! ### What the log and the batch hold -/

/-- The log holds the records of envelopes, and the batch those of others. -/
structure Logs (s : SingleFileStore) (current pending : List EventEnvelope) : Prop where
  asyncWriter : s.storage.asyncWriter = none
  events : s.storage.plain.files.events =
    current.flatMap (record crc32 json bincode s.binaryMode)
  eventBatch : s.storage.plain.eventBatch = pending.map json.render
  binary : s.binaryMode = true → pending = [] ∧
    s.storage.plain.binaryWriter.getD s.storage.plain.files.generation =
      s.storage.plain.files.generation
  index : s.disableIndex = true → s.storage.index = []

variable {crc32 sha256 json bincode} {s : SingleFileStore} {envelope : EventEnvelope}
  {current pending gone kept : List EventEnvelope} {c : IndexCall}

theorem flatMap_record_json (envelopes : List EventEnvelope) :
    envelopes.flatMap (record crc32 json bincode false) =
      jsonLines crc32 (envelopes.map json.render) := by
  rw [jsonLines, List.flatMap_map]
  rfl

theorem record_ne_nil (binaryMode : Bool) (envelope : EventEnvelope) :
    record crc32 json bincode binaryMode envelope ≠ [] := by
  cases binaryMode with
  | true =>
    intro hnil
    have hlength := congrArg List.length hnil
    rw [record, if_pos rfl, Twin.length_binaryFrame, List.length_nil] at hlength
    omega
  | false =>
    intro hnil
    have hline : jsonLines crc32 [json.render envelope] = [] := by
      rw [jsonLines, List.flatMap_singleton]
      exact hnil
    exact absurd (jsonLines_eq_nil_iff.mp hline) (List.cons_ne_nil _ _)

/-- The envelopes of lines can be told from them. -/
theorem injective_flatMap_record : Function.Injective fun envelopes : List EventEnvelope ↦
    envelopes.flatMap (record crc32 json bincode false) := by
  intro first second hsame
  have htext : (FileStorage.eventLines crc32 true (first.map json.render)) =
      FileStorage.eventLines crc32 true (second.map json.render) := by
    have hdecode := congrArg decodeUtf8 hsame
    simp only [flatMap_record_json, decodeUtf8_jsonLines] at hdecode
    exact Option.some.inj hdecode
  have hlines := congrArg (readEvents crc32) htext
  rw [json.readEvents_eventLines, json.readEvents_eventLines, Option.some.injEq] at hlines
  rw [← json.filterMap_parse_render first, hlines, json.filterMap_parse_render]

theorem Logs.not_rotates_of_binary (h : Logs crc32 json bincode s current pending)
    (hbinary : s.binaryMode = true) : ¬ s.storage.plain.Rotates crc32 := by
  intro hrotates
  refine hrotates.1 ?_
  rw [h.eventBatch, (h.binary hbinary).1]
  rfl

/-- The index apart, the storage and the format are all that counts. -/
theorem Logs.of_plain {t : SingleFileStore} (h : Logs crc32 json bincode t current pending)
    (hsync : s.storage.asyncWriter = none) (hplain : s.storage.plain = t.storage.plain)
    (hmode : s.binaryMode = t.binaryMode) (hindex : s.disableIndex = true → s.storage.index = []) :
    Logs crc32 json bincode s current pending := by
  refine ⟨hsync, ?_, ?_, ?_, hindex⟩
  · rw [hplain, hmode, h.events]
  · rw [hplain, h.eventBatch]
  · rw [hplain, hmode]
    exact h.binary

/-- A flush moves the batch into the log, and what the log holds out of it when it is rotated. -/
theorem Logs.flush (h : Logs crc32 json bincode s current pending) :
    ∃ current', Logs crc32 json bincode (s.flush crc32) current' [] ∧
      (s.storage.plain.Rotates crc32 → current' = []) ∧
      (¬ s.storage.plain.Rotates crc32 → current' = current ++ pending) := by
  rw [flush_of_plain h.asyncWriter]
  by_cases hrotates : s.storage.plain.Rotates crc32
  · refine ⟨[], ?_, fun _ ↦ rfl, fun hnot ↦ absurd hrotates hnot⟩
    rw [PlainStorage.flushBatch_of_rotates hrotates]
    exact ⟨h.asyncWriter, rfl, rfl, fun hbinary ↦
      absurd hrotates (h.not_rotates_of_binary hbinary), h.index⟩
  · refine ⟨current ++ pending, ?_, fun hyes ↦ absurd hyes hrotates, fun _ ↦ rfl⟩
    rw [PlainStorage.flushBatch_of_not_rotates hrotates]
    refine ⟨h.asyncWriter, ?_, rfl, fun hbinary ↦ ⟨rfl, (h.binary hbinary).2⟩, h.index⟩
    show s.storage.plain.written crc32 = _
    rw [PlainStorage.written, h.events, h.eventBatch, List.flatMap_append]
    cases hmode : s.binaryMode with
    | true =>
      rw [(h.binary hmode).1]
      rfl
    | false => rw [flatMap_record_json pending]

variable (sha256 envelope) in
/-- A binary event is behind the others at once. -/
theorem Logs.append_binary (h : Logs crc32 json bincode s current pending)
    (hmode : s.binaryMode = true)
    (hindex : (s.appendEnvelope crc32 sha256 json bincode envelope).disableIndex = true →
      (s.appendEnvelope crc32 sha256 json bincode envelope).storage.index = []) :
    Logs crc32 json bincode (s.appendEnvelope crc32 sha256 json bincode envelope)
      (current ++ [s.envelopeToPersist sha256 envelope]) [] := by
  obtain ⟨hpending, hhandle⟩ := h.binary hmode
  have hatOnce : s.AtOnce := ⟨h.asyncWriter, hmode, by rw [h.eventBatch, hpending]; rfl⟩
  obtain ⟨hnext, hwrites⟩ := hatOnce.appendEnvelope crc32 sha256 json bincode envelope
  rw [PlainStorage.appendBinaryEventBytes, hhandle, LogFiles.write, if_pos rfl] at hwrites
  refine ⟨hnext.asyncWriter, ?_, hnext.eventBatch, fun _ ↦ ⟨rfl, ?_⟩, hindex⟩
  · rw [hwrites, hnext.binaryMode]
    dsimp only
    rw [h.events, hmode, List.flatMap_append, List.flatMap_singleton]
    rfl
  · rw [hwrites]
    rfl

variable (sha256 envelope) in
/-- The line of an envelope comes into the batch. -/
theorem Logs.pushed (h : Logs crc32 json bincode s current pending) (hmode : s.binaryMode = false) :
    Logs crc32 json bincode
      { s with storage := { s.storage with plain := s.pushed sha256 json envelope } } current
      (pending ++ [s.envelopeToPersist sha256 envelope]) := by
  refine ⟨h.asyncWriter, h.events, ?_, fun hbinary ↦ ?_, h.index⟩
  · show s.storage.plain.eventBatch ++ _ = _
    rw [h.eventBatch, List.map_append]
    rfl
  · rw [hmode] at hbinary
    exact absurd hbinary Bool.false_ne_true

/-- In JSON an append rotates the log with the batch that it writes. -/
theorem rotatesAt_append_iff (hmode : s.binaryMode = false) :
    s.RotatesAt crc32 sha256 json (.append envelope) ↔
      s.WritesBatch ∧ (s.pushed sha256 json envelope).Rotates crc32 := by
  rw [RotatesAt, writing, hmode, if_neg Bool.false_ne_true]
  by_cases hwrites : s.WritesBatch
  · rw [if_pos hwrites, and_iff_right hwrites]
    constructor
    · rintro ⟨p, hp, hrotates⟩
      rwa [Option.some.inj hp]
    · exact fun hrotates ↦ ⟨_, rfl, hrotates⟩
  · rw [if_neg hwrites]
    exact iff_of_false (fun ⟨_, hp, _⟩ ↦ absurd hp nofun) fun hboth ↦ hwrites hboth.1

variable (sha256) in
/-- What an append does to the log and to the batch. -/
theorem Logs.append (h : Logs crc32 json bincode s current pending) (envelope : EventEnvelope) :
    ∃ current' pending',
      Logs crc32 json bincode (s.appendEnvelope crc32 sha256 json bincode envelope)
        current' pending' ∧
      (s.RotatesAt crc32 sha256 json (.append envelope) → current' ++ pending' = []) ∧
      (¬ s.RotatesAt crc32 sha256 json (.append envelope) → current' ++ pending' =
        current ++ pending ++ [s.envelopeToPersist sha256 envelope]) := by
  have hindex : s.disableIndex = true → s.storage.index ++ s.indexEntries envelope = [] := by
    intro hdisabled
    rw [h.index hdisabled, indexEntries, hdisabled]
    cases envelope.aggregateId <;> rfl
  have hnext : (s.appendEnvelope crc32 sha256 json bincode envelope).storage.asyncWriter = none ∧
      (s.appendEnvelope crc32 sha256 json bincode envelope).binaryMode = s.binaryMode ∧
      ((s.appendEnvelope crc32 sha256 json bincode envelope).disableIndex = true →
        (s.appendEnvelope crc32 sha256 json bincode envelope).storage.index = []) := by
    rw [appendEnvelope_of_plain h.asyncWriter]
    exact ⟨rfl, rfl, hindex⟩
  obtain ⟨hsync, hsame, hindex'⟩ := hnext
  cases hmode : s.binaryMode with
  | true =>
    refine ⟨_, [], h.append_binary sha256 envelope hmode hindex', ?_, fun _ ↦ ?_⟩
    · rintro ⟨p, hp, -⟩
      rw [writing, hmode, if_pos rfl] at hp
      exact absurd hp nofun
    · rw [List.append_nil, (h.binary hmode).1, List.append_nil]
  | false =>
    have hpushed := h.pushed sha256 envelope hmode
    have hstorage : (s.appendEnvelope crc32 sha256 json bincode envelope).storage.plain =
        if s.WritesBatch then (s.pushed sha256 json envelope).flushBatch crc32
        else s.pushed sha256 json envelope := storage_append_json h.asyncWriter hmode
    rw [rotatesAt_append_iff hmode]
    by_cases hwrites : s.WritesBatch
    · rw [if_pos hwrites] at hstorage
      obtain ⟨current', hflushed, hrotated, hkept⟩ := hpushed.flush
      have hflush : ({ s with
          storage := { s.storage with
            plain := s.pushed sha256 json envelope } }.flush crc32).storage.plain =
          (s.pushed sha256 json envelope).flushBatch crc32 := by
        rw [flush_of_plain hpushed.asyncWriter]
      refine ⟨current', [], hflushed.of_plain hsync (hstorage.trans hflush.symm) hsame hindex',
        fun hboth ↦ ?_, fun hnot ↦ ?_⟩
      · rw [List.append_nil, hrotated hboth.2]
      · rw [List.append_nil, hkept fun hrotates ↦ hnot ⟨hwrites, hrotates⟩, List.append_assoc]
    · rw [if_neg hwrites] at hstorage
      exact ⟨current, pending ++ [s.envelopeToPersist sha256 envelope],
        hpushed.of_plain hsync hstorage hsame hindex', fun hboth ↦ absurd hboth.1 hwrites,
        fun _ ↦ (List.append_assoc _ _ _).symm⟩

/-! ### The places that the index has -/

variable (crc32 json bincode) in
/-- The index has the places of the envelopes that are kept, and no envelope of an aggregate is
gone. -/
structure Good (s : SingleFileStore) (gone kept : List EventEnvelope) : Prop where
  offsets : ∀ aggregateId, s.storage.readIndexOffsets aggregateId =
    startsOf (record crc32 json bincode s.binaryMode) (ofAggregate aggregateId) kept
  gone : ∀ aggregateId, gone.filter (ofAggregate aggregateId) = []

/-- When everything that was kept goes, nothing may be in the index. -/
theorem good_rotated_iff : Good crc32 json bincode s (gone ++ kept) [] ↔
    Good crc32 json bincode s gone kept ∧ s.storage.index = [] := by
  constructor
  · rintro ⟨hoffsets, hgone⟩
    have hkept : ∀ aggregateId, gone.filter (ofAggregate aggregateId) = [] ∧
        kept.filter (ofAggregate aggregateId) = [] := by
      intro aggregateId
      rw [← List.append_eq_nil_iff, ← List.filter_append]
      exact hgone aggregateId
    have hindex : s.storage.index = [] := index_eq_nil_iff.mpr hoffsets
    refine ⟨⟨fun aggregateId ↦ ?_, fun aggregateId ↦ (hkept aggregateId).1⟩, hindex⟩
    rw [startsOf_eq_nil_iff.mpr (hkept aggregateId).2]
    exact hoffsets aggregateId
  · rintro ⟨⟨hoffsets, hgone⟩, hindex⟩
    have hnone := index_eq_nil_iff.mp hindex
    refine ⟨hnone, fun aggregateId ↦ ?_⟩
    rw [List.filter_append, hgone aggregateId, List.nil_append]
    exact startsOf_eq_nil_iff.mp ((hoffsets aggregateId).symm.trans (hnone aggregateId))

theorem index_appendEnvelope (hplain : s.storage.asyncWriter = none) :
    (s.appendEnvelope crc32 sha256 json bincode envelope).storage.index =
      s.storage.index ++ s.indexEntries envelope := by
  rw [appendEnvelope_of_plain hplain]

theorem readIndexOffsets_appendEnvelope (hplain : s.storage.asyncWriter = none)
    (aggregateId : String) :
    (s.appendEnvelope crc32 sha256 json bincode envelope).storage.readIndexOffsets aggregateId =
      s.storage.readIndexOffsets aggregateId ++
        if ofAggregate aggregateId envelope = true ∧ s.disableIndex = false then
          [s.storage.plain.files.events.length]
        else [] := by
  rw [IndexedStorage.readIndexOffsets, index_appendEnvelope hplain, List.filterMap_append]
  refine congrArg (_ ++ ·) ?_
  unfold indexEntries ofAggregate
  cases envelope.aggregateId with
  | none => rfl
  | some agg =>
    cases s.disableIndex with
    | true => simp
    | false => by_cases hagg : agg = aggregateId <;> simp [hagg, IndexedStorage.currentEventsSize]

variable (sha256 envelope) in
/-- The places of an aggregate are right after an append when they were right before it and, for an
envelope of the aggregate, the index is enabled and no event is in the batch. -/
theorem offsets_appendEnvelope_iff (h : Logs crc32 json bincode s current pending)
    (aggregateId : String) :
    (s.appendEnvelope crc32 sha256 json bincode envelope).storage.readIndexOffsets aggregateId =
        startsOf (record crc32 json bincode
          (s.appendEnvelope crc32 sha256 json bincode envelope).binaryMode)
          (ofAggregate aggregateId)
          (current ++ pending ++ [s.envelopeToPersist sha256 envelope]) ↔
      s.storage.readIndexOffsets aggregateId =
          startsOf (record crc32 json bincode s.binaryMode) (ofAggregate aggregateId)
            (current ++ pending) ∧
        (envelope.aggregateId = some aggregateId → s.disableIndex = false ∧ pending = []) := by
  have hmode : (s.appendEnvelope crc32 sha256 json bincode envelope).binaryMode =
      s.binaryMode := by
    rw [appendEnvelope_of_plain h.asyncWriter]
  have hpersisted : ofAggregate aggregateId (s.envelopeToPersist sha256 envelope) =
      ofAggregate aggregateId envelope := by
    rw [ofAggregate, ofAggregate, aggregateId_envelopeToPersist]
  rw [readIndexOffsets_appendEnvelope h.asyncWriter, hmode, startsOf_concat, hpersisted]
  by_cases hof : envelope.aggregateId = some aggregateId
  · have hyes : ofAggregate aggregateId envelope = true := decide_eq_true hof
    rw [hyes, if_pos rfl, forall_prop_of_true hof]
    cases hdisabled : s.disableIndex with
    | true =>
      -- Nothing is in the index, and the envelope has a place.
      rw [index_eq_nil_iff.mp (h.index hdisabled) aggregateId]
      refine iff_of_false (fun hsame ↦ ?_) fun hboth ↦ Bool.false_ne_true hboth.2.1.symm
      exact absurd (congrArg List.length hsame) (by simp)
    | false =>
      rw [if_pos ⟨rfl, rfl⟩, and_iff_right rfl, h.events, List.flatMap_append, List.length_append]
      constructor
      · intro hsame
        obtain ⟨hbefore, hlast⟩ := List.append_inj' hsame rfl
        have hlength := List.singleton_inj.mp hlast
        refine ⟨hbefore, by_contra fun hpending ↦ ?_⟩
        obtain ⟨e, rest, rfl⟩ := List.exists_cons_of_ne_nil hpending
        have hpos : 0 < (record crc32 json bincode s.binaryMode e).length :=
          List.length_pos_of_ne_nil (record_ne_nil s.binaryMode e)
        rw [List.flatMap_cons, List.length_append] at hlength
        omega
      · rintro ⟨hbefore, rfl⟩
        rw [hbefore]
        rfl
  · have hnot : ofAggregate aggregateId envelope = false := decide_eq_false hof
    rw [hnot, if_neg (by simp), if_neg (by simp), List.append_nil, List.append_nil]
    exact (and_iff_left fun hyes ↦ absurd hyes hof).symm

variable (sha256 envelope gone) in
theorem good_appendEnvelope_iff (h : Logs crc32 json bincode s current pending) :
    Good crc32 json bincode (s.appendEnvelope crc32 sha256 json bincode envelope) gone
        (current ++ pending ++ [s.envelopeToPersist sha256 envelope]) ↔
      Good crc32 json bincode s gone (current ++ pending) ∧
        (envelope.aggregateId ≠ none →
          s.disableIndex = false ∧ s.storage.plain.eventBatch = []) := by
  have hbatch : s.storage.plain.eventBatch = [] ↔ pending = [] := by
    rw [h.eventBatch, List.map_eq_nil_iff]
  rw [hbatch]
  constructor
  · rintro ⟨hoffsets, hgone⟩
    have hparts := fun aggregateId ↦
      (offsets_appendEnvelope_iff sha256 envelope h aggregateId).mp (hoffsets aggregateId)
    refine ⟨⟨fun aggregateId ↦ (hparts aggregateId).1, hgone⟩, fun hagg ↦ ?_⟩
    obtain ⟨agg, hagg⟩ := Option.ne_none_iff_exists'.mp hagg
    exact (hparts agg).2 hagg
  · rintro ⟨⟨hoffsets, hgone⟩, hplaces⟩
    refine ⟨fun aggregateId ↦ ?_, hgone⟩
    refine (offsets_appendEnvelope_iff sha256 envelope h aggregateId).mpr
      ⟨hoffsets aggregateId, fun hof ↦ hplaces ?_⟩
    rw [hof]
    exact Option.some_ne_none _

theorem good_congr {t : SingleFileStore} (hindex : s.storage.index = t.storage.index)
    (hmode : s.binaryMode = t.binaryMode) :
    Good crc32 json bincode s gone kept ↔ Good crc32 json bincode t gone kept := by
  have hoffsets : s.storage.readIndexOffsets = t.storage.readIndexOffsets := by
    funext aggregateId
    rw [IndexedStorage.readIndexOffsets, IndexedStorage.readIndexOffsets, hindex]
  constructor
  · rintro ⟨hs, hgone⟩
    rw [hoffsets, hmode] at hs
    exact ⟨hs, hgone⟩
  · rintro ⟨ht, hgone⟩
    rw [← hoffsets, ← hmode] at ht
    exact ⟨ht, hgone⟩

/-! ### Runs -/

theorem places_append_iff : s.Places crc32 sha256 json (.append envelope) ↔
    (envelope.aggregateId ≠ none → s.disableIndex = false ∧ s.storage.plain.eventBatch = []) ∧
      (s.RotatesAt crc32 sha256 json (.append envelope) →
        s.storage.index = [] ∧ envelope.aggregateId = none) := by
  have happended : appendedBy [.append envelope] = [envelope] := rfl
  rw [Places, happended, List.forall_mem_singleton, List.forall_mem_singleton]

theorem rotatesAt_flush_iff :
    s.RotatesAt crc32 sha256 json .flush ↔ s.storage.plain.Rotates crc32 := by
  constructor
  · rintro ⟨p, hp, hrotates⟩
    obtain rfl := Option.some.inj hp
    exact hrotates
  · exact fun hrotates ↦ ⟨_, rfl, hrotates⟩

theorem places_flush_iff : s.Places crc32 sha256 json .flush ↔
    (s.storage.plain.Rotates crc32 → s.storage.index = []) := by
  have happended : appendedBy [.flush] = [] := rfl
  rw [Places, happended, rotatesAt_flush_iff]
  simp

/-- A call that writes nothing and appends nothing. -/
theorem places_of_quiet (happended : appendedBy [c] = [])
    (hwriting : s.writing sha256 json c = none) : s.Places crc32 sha256 json c := by
  refine ⟨fun envelope hmem ↦ ?_, ?_⟩
  · rw [happended] at hmem
    exact absurd hmem List.not_mem_nil
  · rintro ⟨p, hp, -⟩
    rw [hwriting] at hp
    exact absurd hp nofun

variable (sha256) in
/-- What a call does to the log and to the batch, and when the index stays right. -/
theorem Logs.call (h : Logs crc32 json bincode s current pending) (gone : List EventEnvelope)
    (c : IndexCall) :
    ∃ gone' current' pending',
      Logs crc32 json bincode (s.call crc32 sha256 json bincode c) current' pending' ∧
      gone' ++ (current' ++ pending') =
        gone ++ (current ++ pending) ++ (appendedBy [c]).map (s.envelopeToPersist sha256) ∧
      (Good crc32 json bincode (s.call crc32 sha256 json bincode c) gone' (current' ++ pending') ↔
        Good crc32 json bincode s gone (current ++ pending) ∧ s.Places crc32 sha256 json c) := by
  cases c with
  | append envelope =>
    obtain ⟨current', pending', hlogs, hrotated, hkept⟩ := h.append sha256 envelope
    have hgood := good_appendEnvelope_iff sha256 envelope gone h
    have happended : (appendedBy [.append envelope]).map (s.envelopeToPersist sha256) =
        [s.envelopeToPersist sha256 envelope] := rfl
    rw [places_append_iff, happended]
    by_cases hrotates : s.RotatesAt crc32 sha256 json (.append envelope)
    · refine ⟨gone ++ (current ++ pending ++ [s.envelopeToPersist sha256 envelope]), current',
        pending', hlogs, ?_, ?_⟩
      · rw [hrotated hrotates, List.append_nil, ← List.append_assoc]
      · rw [hrotated hrotates, forall_prop_of_true hrotates, SingleFileStore.call, good_rotated_iff,
          hgood, index_appendEnvelope h.asyncWriter, List.append_eq_nil_iff, and_assoc]
        refine and_congr_right fun _ ↦ and_congr_right fun hplaces ↦ and_congr_right fun _ ↦ ?_
        unfold indexEntries
        cases hagg : envelope.aggregateId with
        | none => exact iff_of_true rfl rfl
        | some agg =>
          have henabled := (hplaces (by rw [hagg]; exact Option.some_ne_none _)).1
          simp [henabled]
    · refine ⟨gone, current', pending', hlogs, ?_, ?_⟩
      · rw [hkept hrotates, ← List.append_assoc]
      · rw [hkept hrotates, SingleFileStore.call, hgood]
        exact and_congr_right fun _ ↦ (and_iff_left fun hyes ↦ absurd hyes hrotates).symm
  | flush =>
    obtain ⟨current', hlogs, hrotated, hkept⟩ := h.flush
    have hindex : (s.flush crc32).storage.index = s.storage.index := by
      rw [flush_of_plain h.asyncWriter]
    have happended : (appendedBy [.flush]).map (s.envelopeToPersist sha256) = [] := rfl
    rw [places_flush_iff, happended, List.append_nil]
    by_cases hrotates : s.storage.plain.Rotates crc32
    · refine ⟨gone ++ (current ++ pending), current', [], hlogs, ?_, ?_⟩
      · rw [hrotated hrotates, List.append_nil, List.append_nil]
      · rw [hrotated hrotates, List.append_nil, forall_prop_of_true hrotates, SingleFileStore.call,
          good_rotated_iff, hindex]
        exact and_congr_left fun _ ↦ good_congr hindex rfl
    · refine ⟨gone, current', [], hlogs, ?_, ?_⟩
      · rw [hkept hrotates, List.append_nil]
      · rw [hkept hrotates, List.append_nil, SingleFileStore.call]
        exact (good_congr hindex rfl).trans (and_iff_left fun hyes ↦ absurd hyes hrotates).symm
  | setFlushEvery count =>
    refine ⟨gone, current, pending, h.of_plain h.asyncWriter rfl rfl h.index, ?_, ?_⟩
    · exact (List.append_nil _).symm
    · have hquiet : s.Places crc32 sha256 json (.setFlushEvery count) := places_of_quiet rfl rfl
      rw [and_iff_left hquiet]
      exact good_congr rfl rfl
  | configureBatching maxBatchSize =>
    refine ⟨gone, current, pending, ⟨h.asyncWriter, h.events, h.eventBatch, h.binary, h.index⟩,
      ?_, ?_⟩
    · exact (List.append_nil _).symm
    · have hquiet : s.Places crc32 sha256 json (.configureBatching maxBatchSize) :=
        places_of_quiet rfl rfl
      rw [and_iff_left hquiet]
      exact good_congr rfl rfl

variable (crc32 sha256 json bincode) in
def after (s : SingleFileStore) (calls : List IndexCall) : SingleFileStore :=
  calls.foldl (call crc32 sha256 json bincode) s

variable (crc32 sha256 json bincode) in
theorem call_spec (s : SingleFileStore) (c : IndexCall) :
    (s.call crc32 sha256 json bincode c).binaryMode = s.binaryMode ∧
      (s.call crc32 sha256 json bincode c).disableIndex = s.disableIndex := by
  cases c with
  | append envelope =>
    obtain ⟨hmode, hindex, -⟩ := appendEnvelope_spec crc32 sha256 json bincode s envelope
    exact ⟨hmode, hindex⟩
  | flush => exact ⟨rfl, rfl⟩
  | setFlushEvery count => exact ⟨rfl, rfl⟩
  | configureBatching maxBatchSize => exact ⟨rfl, rfl⟩

variable (crc32 sha256 json bincode) in
theorem after_spec (s : SingleFileStore) (calls : List IndexCall) :
    (s.after crc32 sha256 json bincode calls).binaryMode = s.binaryMode ∧
      (s.after crc32 sha256 json bincode calls).disableIndex = s.disableIndex := by
  induction calls generalizing s with
  | nil => exact ⟨rfl, rfl⟩
  | cons c rest ih =>
    obtain ⟨hmode, hindex⟩ := call_spec crc32 sha256 json bincode s c
    exact ⟨(ih _).1.trans hmode, (ih _).2.trans hindex⟩

variable (crc32 json bincode) in
theorem persistedOf_appendedBy_cons (s : SingleFileStore) (c : IndexCall) (rest : List IndexCall) :
    s.persistedOf sha256 (appendedBy (c :: rest)) =
      (appendedBy [c]).map (s.envelopeToPersist sha256) ++
        (s.call crc32 sha256 json bincode c).persistedOf sha256 (appendedBy rest) := by
  cases c with
  | append envelope => exact persistedOf_cons crc32 json bincode s envelope (appendedBy rest)
  | flush => rfl
  | setFlushEvery count => rfl
  | configureBatching maxBatchSize => rfl

variable (sha256) in
/-- What calls do to the log and to the batch, and when the index is right at their end. -/
theorem Logs.after (h : Logs crc32 json bincode s current pending) (gone : List EventEnvelope)
    (calls : List IndexCall) :
    ∃ gone' current' pending',
      Logs crc32 json bincode (s.after crc32 sha256 json bincode calls) current' pending' ∧
      gone' ++ (current' ++ pending') =
        gone ++ (current ++ pending) ++ s.persistedOf sha256 (appendedBy calls) ∧
      (Good crc32 json bincode (s.after crc32 sha256 json bincode calls) gone'
          (current' ++ pending') ↔
        Good crc32 json bincode s gone (current ++ pending) ∧
          EachStep (fun s c ↦ some (s.call crc32 sha256 json bincode c))
            (Places crc32 sha256 json) s calls) := by
  induction calls generalizing s gone current pending with
  | nil => exact ⟨gone, current, pending, h, (List.append_nil _).symm, (and_iff_left trivial).symm⟩
  | cons c rest ih =>
    obtain ⟨gone', current', pending', hlogs, hsplit, hgood⟩ := h.call sha256 gone c
    obtain ⟨gone'', current'', pending'', hlogs', hsplit', hgood'⟩ := ih hlogs gone'
    refine ⟨gone'', current'', pending'', hlogs', ?_, ?_⟩
    · rw [hsplit', hsplit, persistedOf_appendedBy_cons crc32 json bincode, List.append_assoc,
        List.append_assoc]
    · rw [eachStep_cons rfl, ← and_assoc, ← hgood]
      exact hgood'

/-- Binary events are at their places whenever the index is enabled. -/
theorem Logs.places_of_binary (h : Logs crc32 json bincode s current pending)
    (hbinary : s.binaryMode = true) (henabled : s.disableIndex = false) (calls : List IndexCall) :
    EachStep (fun s c ↦ some (s.call crc32 sha256 json bincode c)) (Places crc32 sha256 json) s
      calls := by
  induction calls generalizing s current pending with
  | nil => trivial
  | cons c rest ih =>
    obtain ⟨-, current', pending', hlogs, -, -⟩ := h.call sha256 [] c
    obtain ⟨hmode, hindex⟩ := call_spec crc32 sha256 json bincode s c
    refine EachStep.cons rfl ⟨fun envelope _ _ ↦ ⟨henabled, ?_⟩, ?_⟩
      (ih hlogs (hmode.trans hbinary) (hindex.trans henabled))
    · rw [h.eventBatch, (h.binary hbinary).1]
      rfl
    · rintro ⟨p, hp, hrotates⟩
      cases c with
      | append envelope =>
        rw [writing, hbinary] at hp
        exact absurd hp nofun
      | flush =>
        obtain rfl := Option.some.inj hp
        exact absurd hrotates (h.not_rotates_of_binary hbinary)
      | setFlushEvery count => exact absurd hp nofun
      | configureBatching maxBatchSize => exact absurd hp nofun

/-- After a flush, when the index is right the places are those of the envelopes, and in JSON only
then. -/
theorem Logs.offsetsMatch (h : Logs crc32 json bincode s current [])
    (hgood : Good crc32 json bincode s gone current) :
    s.OffsetsMatch crc32 json bincode (gone ++ current) := by
  intro aggregateId
  rw [hgood.offsets aggregateId, h.events, List.filter_append, hgood.gone aggregateId,
    List.nil_append]
  exact indexed_startsOf (record_ne_nil s.binaryMode) _

theorem Logs.good_of_offsetsMatch (h : Logs crc32 json bincode s current [])
    (hmatch : s.OffsetsMatch crc32 json bincode (gone ++ current))
    (hmode : s.binaryMode = false ∨ s.disableIndex = true) :
    Good crc32 json bincode s gone current := by
  have hplaces : ∀ aggregateId, s.storage.readIndexOffsets aggregateId =
      startsOf (record crc32 json bincode s.binaryMode) (ofAggregate aggregateId) current ∧
        gone.filter (ofAggregate aggregateId) = [] := by
    intro aggregateId
    have hindexed := hmatch aggregateId
    rcases hmode with hjson | hdisabled
    · rw [h.events, hjson] at hindexed
      rw [hjson]
      obtain ⟨hoffsets, hlength⟩ := hindexed.eq_startsOf (record_ne_nil false)
        injective_flatMap_record (fun e he ↦ (List.mem_filter.mp he).2) (by
          rw [List.filter_append, List.length_append]
          exact Nat.le_add_left _ _)
      rw [List.filter_append, List.length_append] at hlength
      exact ⟨hoffsets, List.eq_nil_of_length_eq_zero (by omega)⟩
    · have hnone := index_eq_nil_iff.mp (h.index hdisabled) aggregateId
      have hfilter : (gone ++ current).filter (ofAggregate aggregateId) = [] := by
        have hlength := hindexed.places.length_eq
        rw [hnone] at hlength
        exact List.eq_nil_of_length_eq_zero hlength.symm
      rw [List.filter_append, List.append_eq_nil_iff] at hfilter
      exact ⟨hnone.trans (startsOf_eq_nil_iff.mpr hfilter.2).symm, hfilter.1⟩
  exact ⟨fun aggregateId ↦ (hplaces aggregateId).1, fun aggregateId ↦ (hplaces aggregateId).2⟩

end SingleFileStore

open SingleFileStore in
/-- In every run that ends in a flush, the places of each aggregate are those of its envelopes
exactly when every call meets the condition. -/
theorem offsets_iff (crc32 : List UInt8 → UInt32) (sha256 : List UInt8 → String)
    (json : EnvelopeJson) (bincode : EnvelopeBincode) (env : StoreEnvironment)
    (maxLogFileSize : ℕ) (binaryMode : Bool) (calls : List IndexCall) :
    ((fresh env maxLogFileSize binaryMode).after crc32 sha256 json bincode
        (calls ++ [.flush])).OffsetsMatch crc32 json bincode
          ((fresh env maxLogFileSize binaryMode).persistedOf sha256 (appendedBy calls)) ↔
      EachStep (fun s c ↦ some (s.call crc32 sha256 json bincode c)) (Places crc32 sha256 json)
        (fresh env maxLogFileSize binaryMode) (calls ++ [.flush]) := by
  have hstart : Logs crc32 json bincode (fresh env maxLogFileSize binaryMode) [] [] :=
    ⟨rfl, rfl, rfl, fun _ ↦ ⟨rfl, rfl⟩, fun _ ↦ rfl⟩
  have hempty : Good crc32 json bincode (fresh env maxLogFileSize binaryMode) [] [] :=
    ⟨fun _ ↦ rfl, fun _ ↦ rfl⟩
  obtain ⟨gone, current, pending, hlogs, hsplit, hgood⟩ :=
    hstart.after sha256 [] (calls ++ [.flush])
  -- The batch is empty at the end.
  have hpending : pending = [] := by
    obtain ⟨_, _, _, hbefore, _⟩ := hstart.after sha256 [] calls
    have hbatch := hlogs.eventBatch
    rw [after, List.foldl_concat, ← after, call, flush_of_plain hbefore.asyncWriter,
      PlainStorage.eventBatch_flushBatch] at hbatch
    exact List.map_eq_nil_iff.mp hbatch.symm
  subst hpending
  have happended : appendedBy (calls ++ [.flush]) = appendedBy calls := by
    rw [appendedBy, List.filterMap_append]
    exact List.append_nil _
  have hpersisted : (fresh env maxLogFileSize binaryMode).persistedOf sha256 (appendedBy calls) =
      gone ++ current := by
    rw [happended, List.append_nil] at hsplit
    exact hsplit.symm
  rw [List.append_nil] at hgood
  have hright := hgood.trans (and_iff_right hempty)
  rw [hpersisted, ← hright]
  constructor
  · intro hmatch
    by_cases hplain : (binaryMode || env.enableBinary) = true ∧ env.disableIndex = false
    · exact hright.mpr (hstart.places_of_binary hplain.1 hplain.2 _)
    · refine hlogs.good_of_offsetsMatch hmatch ?_
      obtain ⟨hmode, hindex⟩ := after_spec crc32 sha256 json bincode
        (fresh env maxLogFileSize binaryMode) (calls ++ [.flush])
      rw [hmode, hindex]
      show (binaryMode || env.enableBinary) = false ∨ env.disableIndex = true
      rcases Bool.eq_false_or_eq_true (binaryMode || env.enableBinary) with hbinary | hjson
      · exact Or.inr (Bool.not_eq_false _ ▸ fun hfalse ↦ hplain ⟨hbinary, hfalse⟩)
      · exact Or.inl hjson
  · exact hlogs.offsetsMatch

/-- With a batch of two, the second envelope has the place of the first. -/
theorem batched_offsets_collide : ¬ ∀ (crc32 : List UInt8 → UInt32) (sha256 : List UInt8 → String)
    (json : EnvelopeJson) (bincode : EnvelopeBincode) (env : StoreEnvironment)
    (maxLogFileSize : ℕ) (binaryMode : Bool) (calls : List IndexCall),
    ((SingleFileStore.fresh env maxLogFileSize binaryMode).after crc32 sha256 json bincode
      (calls ++ [.flush])).OffsetsMatch crc32 json bincode
        ((SingleFileStore.fresh env maxLogFileSize binaryMode).persistedOf sha256
          (appendedBy calls)) := by
  intro h
  have hincreasing := (h (fun _ ↦ 0) (fun _ ↦ "00") .ofFormat .ofCodec ⟨false, false, false⟩ 0 false
    [.setFlushEvery 2, .append ⟨"created", "e1", 1, "{}", some "a", none, none⟩,
      .append ⟨"updated", "e2", 2, "{}", some "a", none, none⟩] "a").increasing
  have hplaces : ([0, 0] : List ℕ).Pairwise (· < ·) := hincreasing
  exact absurd hplaces (by decide)

end Lithair.Engine
