import Lithair.Cluster.WalTruncation

/-!
# The last index of the write-ahead log

What `last_index` of `cluster/wal.rs` says beside what `read_all` reads, over runs of writes,
truncations and reopenings. A writer stores the index of the last entry that it wrote, and
`find_last_index` takes the last record that decodes, whether it has its checksum or not; neither
looks for the greatest one, or at what an interrupted write has left. `tracks_of_inOrder` has the
conditions on the steps under which the last index is the greatest that is read.
-/

namespace Lithair.Cluster

open Lithair.Lib Lithair.Lib.Framing Lithair.Lib.Run

namespace WriteAheadLog

variable (serde : Serde) (codec : RkyvCodec)

/-! ### Runs -/

/-- A step of a run: a call of a writer, a truncation, or a reopening of the first bytes of the file
with others behind them. -/
inductive WalAction
  | call (call : WalCall)
  | truncate (index : ℕ) (outcome : RewriteOutcome)
  | reopen (bytes : ℕ) (tail : List UInt8) (groupCommit : Bool)

def act (wal : WriteAheadLog) : WalAction → Option WriteAheadLog
  | .call call => some (wal.perform serde codec call).1
  | .truncate index outcome => some (wal.truncateAfter serde codec index outcome).1
  | .reopen bytes tail groupCommit =>
    some (withConfig codec (some (wal.file.take bytes ++ tail)) groupCommit)

/-- The greatest of some indices, zero if there are none. -/
def greatest (indices : List ℕ) : ℕ := indices.foldr max 0

/-- The last index is the greatest that is read. -/
def Tracks (wal : WriteAheadLog) : Prop :=
  ∃ entries, readAll serde codec wal.file = .ok entries ∧
    wal.lastSyncedIndex = greatest (entries.map LogEntry.index)

/-- A step that is no truncation does not decrease the last index. -/
def Grows (wal : WriteAheadLog) (action : WalAction) : Prop :=
  (∃ index outcome, action = .truncate index outcome) ∨
    ∀ next, wal.act serde codec action = some next → wal.lastSyncedIndex ≤ next.lastSyncedIndex

/-! ### Steps in order -/

/-- A record that has a wrong checksum or does not decode, with all its bytes there. -/
def Damaged (bytes : List UInt8) : Prop :=
  readFrame fnv1aHash bytes ≠ .done ∧ readFrame fnv1aHash bytes ≠ .truncated ∧ Stops codec bytes

/-- The sound records of a file, and what is behind them. -/
def layout (file : List UInt8) : List WalEntry × List UInt8 := soundRecords codec (file.drop 8)

/-- The last index of a batch. -/
def lastIndexOf (entries : List (LogEntry CrudOperation)) : ℕ :=
  (entries.getLast?.map LogEntry.index).getD 0

/-- A write in order: an acknowledged one ends with the greatest index of the file and of its own
entries and finds nothing but sound records; a failing one leaves whole records with no greater
index and at most the beginning of a length field. What is behind a damaged record is not read. -/
inductive WritesInOrder (wal : WriteAheadLog) (call : WalCall) : Prop
  | nothing (hwritten : call.written wal = [])
  | acknowledged (houtcome : call.outcome = .synced)
    (hserialise : Serialise serde codec (call.written wal))
    (hclean : (layout codec wal.file).2 = [])
    (hfile : wal.lastSyncedIndex ≤ lastIndexOf (call.written wal))
    (hbatch : ∀ entry ∈ call.written wal, entry.index ≤ lastIndexOf (call.written wal))
  | acknowledgedBehindDamage (houtcome : call.outcome = .synced)
    (hserialise : Serialise serde codec (call.written wal))
    (hdamaged : Damaged codec (layout codec wal.file).2)
    (hlast : lastIndexOf (call.written wal) = wal.lastSyncedIndex)
  | failed (kept : List (LogEntry CrudOperation)) (torn : List UInt8)
    (hrefused : ¬ (call.outcome = .synced ∧ Serialise serde codec (call.written wal)))
    (hreached : reached serde codec (call.written wal) call.outcome =
      (batchBytes serde codec kept).1 ++ torn)
    (hserialise : Serialise serde codec kept)
    (hclean : kept = [] ∨ (layout codec wal.file).2 = [])
    (hkept : ∀ entry ∈ kept, entry.index ≤ wal.lastSyncedIndex)
    (htorn : ((layout codec wal.file).2 ++ torn).length < 8)
  | failedBehindDamage
    (hrefused : ¬ (call.outcome = .synced ∧ Serialise serde codec (call.written wal)))
    (hdamaged : Damaged codec (layout codec wal.file).2)

/-- The bytes that a truncation gets into the new file. -/
def rewritten (kept : List (LogEntry CrudOperation)) : RewriteOutcome → List UInt8
  | .stoppedAfter n => (walHeader ++ (batchBytes serde codec kept).1).take n
  | _ => walHeader ++ (batchBytes serde codec kept).1

/-- A truncation in order: one that returns `Ok` keeps entries of which the last has the greatest
index; one that fails had not created the file, or has written the entry with the greatest index. -/
def TruncatesInOrder (wal : WriteAheadLog) (index : ℕ) (outcome : RewriteOutcome) : Prop :=
  ∀ entries, readAll serde codec wal.file = .ok entries →
    outcome = .notCreated ∨
    (outcome = .synced ∧ Serialise serde codec (upTo index entries) ∧
      ∀ entry ∈ upTo index entries, entry.index ≤ lastIndexOf (upTo index entries)) ∨
    (¬ (outcome = .synced ∧ Serialise serde codec (upTo index entries)) ∧
      ∃ front torn, rewritten serde codec (upTo index entries) outcome =
          walHeader ++ ((batchBytes serde codec front).1 ++ torn) ∧
        Serialise serde codec front ∧ torn.length < 8 ∧
        greatest (front.map LogEntry.index) = wal.lastSyncedIndex)

/-- The indices of the records that are there by their lengths and decode, whatever their
checksums. -/
def decodable (bytes : List UInt8) : List ℕ :=
  match _hlen : readExact 8 bytes with
  | none => []
  | some (len, rest) =>
    match _hdata : readExact (ofLeBytes len) (rest.drop 8) with
    | none => []
    | some (data, rest) =>
      ((codec.fromBytes data).map WalEntry.index).toList ++ decodable rest
termination_by bytes.length
decreasing_by
  have hlen := length_of_readExact _hlen
  have hrest := length_of_readExact _hdata
  rw [List.length_drop] at hrest
  omega

/-- A reopening in order: the header is there, no record is cut off behind its length, the sound
records still have the greatest index, and of all that decodes, they and what is behind them, the
last has the greatest index of the sound ones. -/
structure ReopensInOrder (wal : WriteAheadLog) (file : List UInt8) : Prop where
  length : 8 ≤ file.length
  magic : file.take 4 = walMagic
  notCut : readFrame fnv1aHash (layout codec file).2 ≠ .truncated
  kept : wal.lastSyncedIndex ≤ greatest ((layout codec file).1.map WalEntry.index)
  last : (((layout codec file).1.map WalEntry.index ++
      decodable codec (layout codec file).2).getLast?).getD 0 =
    greatest ((layout codec file).1.map WalEntry.index)

/-- The condition on a step. -/
def InOrder (wal : WriteAheadLog) : WalAction → Prop
  | .call call => WritesInOrder serde codec wal call
  | .truncate index outcome => TruncatesInOrder serde codec wal index outcome
  | .reopen bytes tail _ => ReopensInOrder codec wal (wal.file.take bytes ++ tail)

variable {serde codec}

/-! ### The greatest index -/

theorem greatest_append (first second : List ℕ) :
    greatest (first ++ second) = max (greatest first) (greatest second) := by
  induction first with
  | nil => exact (Nat.zero_max _).symm
  | cons index rest ih =>
    change max index (greatest (rest ++ second)) = max (max index (greatest rest)) _
    rw [ih, max_assoc]

theorem greatest_le_iff {indices : List ℕ} {bound : ℕ} :
    greatest indices ≤ bound ↔ ∀ index ∈ indices, index ≤ bound := by
  induction indices with
  | nil => exact iff_of_true (Nat.zero_le _) fun _ h ↦ absurd h List.not_mem_nil
  | cons index rest ih =>
    change max index (greatest rest) ≤ bound ↔ _
    rw [max_le_iff, ih, List.forall_mem_cons]

/-- The last index of a batch that is nowhere exceeded is the greatest. -/
theorem greatest_eq_lastIndexOf {entries : List (LogEntry CrudOperation)}
    (h : ∀ entry ∈ entries, entry.index ≤ lastIndexOf entries) :
    greatest (entries.map LogEntry.index) = lastIndexOf entries := by
  refine le_antisymm (greatest_le_iff.mpr (List.forall_mem_map.mpr h)) ?_
  unfold lastIndexOf
  cases hlast : entries.getLast? with
  | none => exact Nat.zero_le _
  | some last =>
    exact greatest_le_iff.mp le_rfl _ (List.mem_map_of_mem (List.mem_of_getLast? hlast))

theorem map_index_reread (entries : List (LogEntry CrudOperation)) :
    (entries.map (WalEntry.reread serde)).map LogEntry.index = entries.map LogEntry.index := by
  rw [List.map_map]
  rfl

/-! ### What is read of a longer file -/

/-- Bytes begin with a record, or with nothing that is read. -/
theorem records_induction (codec : RkyvCodec) {motive : List UInt8 → Prop}
    (stops : ∀ bytes, Stops codec bytes → motive bytes)
    (record : ∀ bytes data rest walEntry, readFrame fnv1aHash bytes = .frame data rest →
      codec.fromBytes data = some walEntry → motive rest → motive bytes) (bytes : List UInt8) :
    motive bytes := by
  induction bytes using readEntries.induct codec with
  | case1 bytes hread => exact stops bytes (by simp [Stops, hread])
  | case2 bytes hread => exact stops bytes (by simp [Stops, hread])
  | case3 bytes hread => exact stops bytes (by simp [Stops, hread])
  | case4 bytes data rest hread hdecode => exact stops bytes (by simp [Stops, hread, hdecode])
  | case5 bytes data rest hread walEntry hdecode ih =>
    exact record bytes data rest walEntry hread hdecode ih

theorem soundRecords_append (bytes more : List UInt8) :
    soundRecords codec (bytes ++ more) =
      ((soundRecords codec bytes).1 ++
          (soundRecords codec ((soundRecords codec bytes).2 ++ more)).1,
        (soundRecords codec ((soundRecords codec bytes).2 ++ more)).2) := by
  induction bytes using records_induction codec with
  | stops bytes hstops =>
    rw [soundRecords_stops hstops]
    rfl
  | record bytes data rest walEntry hread hdecode ih =>
    have hmore : readFrame fnv1aHash (bytes ++ more) = .frame data (rest ++ more) := by
      rw [readFrame_append fnv1aHash (by simp [hread]) (by simp [hread]), hread]
    rw [soundRecords_frame hmore hdecode, soundRecords_frame hread hdecode, ih, List.cons_append]

theorem soundRecords_rest_stops (bytes : List UInt8) :
    Stops codec (soundRecords codec bytes).2 := by
  induction bytes using records_induction codec with
  | stops bytes hstops =>
    rw [soundRecords_stops hstops]
    exact hstops
  | record bytes data rest walEntry hread hdecode ih =>
    rw [soundRecords_frame hread hdecode]
    exact ih

/-- The sound records are read, and then what is behind them together with the bytes that were
added. -/
theorem readEntries_append {bytes more : List UInt8}
    {entries behind : List (LogEntry CrudOperation)}
    (h : readEntries serde codec bytes = .ok entries)
    (hbehind : readEntries serde codec ((soundRecords codec bytes).2 ++ more) = .ok behind) :
    readEntries serde codec (bytes ++ more) = .ok (entries ++ behind) := by
  rw [readEntries_eq_soundRecords] at h hbehind ⊢
  rw [soundRecords_append]
  split_ifs at h hbehind ⊢ with hcut hcutBehind
  obtain rfl := Except.ok.inj h
  obtain rfl := Except.ok.inj hbehind
  rw [List.map_append]

/-- What is behind a damaged record is not read. -/
theorem readEntries_damaged {bytes : List UInt8} (h : Damaged codec bytes) (more : List UInt8) :
    readEntries serde codec (bytes ++ more) = .ok [] := by
  obtain ⟨hdone, hcut, hstops⟩ := h
  have hmore := readFrame_append fnv1aHash hdone hcut more
  rw [readEntries_eq, hmore]
  cases hread : readFrame fnv1aHash bytes with
  | done => exact absurd hread hdone
  | truncated => exact absurd hread hcut
  | corrupt => rfl
  | frame data rest => simp only [hstops data rest hread]

/-! ### What is found when the file is opened -/

theorem decodable_eq_nil {bytes : List UInt8} (h : ∀ len rest data behind,
    readExact 8 bytes = some (len, rest) →
      readExact (ofLeBytes len) (rest.drop 8) ≠ some (data, behind)) :
    decodable codec bytes = [] := by
  rw [decodable]
  split
  · rfl
  · next len rest hlen =>
    split
    · rfl
    · next data behind hdata => exact absurd hdata (h len rest data behind hlen)

theorem decodable_eq {bytes len rest data behind : List UInt8}
    (hlen : readExact 8 bytes = some (len, rest))
    (hdata : readExact (ofLeBytes len) (rest.drop 8) = some (data, behind)) :
    decodable codec bytes =
      ((codec.fromBytes data).map WalEntry.index).toList ++ decodable codec behind := by
  rw [decodable]
  split
  · next hnone => exact absurd (hnone.symm.trans hlen) (by simp)
  · next otherLen otherRest hother =>
    obtain ⟨rfl, rfl⟩ := Prod.mk.inj (Option.some.inj (hother.symm.trans hlen))
    split
    · next hnone => exact absurd (hnone.symm.trans hdata) (by simp)
    · next otherData otherBehind hotherData =>
      obtain ⟨rfl, rfl⟩ := Prod.mk.inj (Option.some.inj (hotherData.symm.trans hdata))
      rfl

/-- The scan of a file that is opened finds the last of the records that decode. -/
theorem findLastIndexFrom_eq (last : ℕ) (bytes : List UInt8) :
    findLastIndexFrom codec last bytes = ((decodable codec bytes).getLast?).getD last := by
  induction last, bytes using findLastIndexFrom.induct codec with
  | case1 last bytes hlen =>
    rw [decodable_eq_nil (by simp [hlen]), findLastIndexFrom]
    split
    · rfl
    · next hsome => exact absurd (hsome.symm.trans hlen) (by simp)
  | case2 last bytes len rest hlen hdata =>
    have hnil : decodable codec bytes = [] := by
      refine decodable_eq_nil fun otherLen otherRest data behind hother ↦ ?_
      obtain ⟨rfl, rfl⟩ := Prod.mk.inj (Option.some.inj (hlen.symm.trans hother))
      rw [hdata]
      exact Option.some_ne_none _ |>.symm
    rw [hnil, findLastIndexFrom]
    split
    · rfl
    · next otherLen otherRest hother =>
      obtain ⟨rfl, rfl⟩ := Prod.mk.inj (Option.some.inj (hlen.symm.trans hother))
      split
      · rfl
      · next hsome => exact absurd (hsome.symm.trans hdata) (by simp)
  | case3 last bytes len rest hlen data behind hdata ih =>
    rw [decodable_eq hlen hdata, findLastIndexFrom]
    split
    · next hnone => exact absurd (hnone.symm.trans hlen) (by simp)
    · next otherLen otherRest hother =>
      obtain ⟨rfl, rfl⟩ := Prod.mk.inj (Option.some.inj (hlen.symm.trans hother))
      split
      · next hnone => exact absurd (hnone.symm.trans hdata) (by simp)
      · next otherData otherBehind hotherData =>
        obtain ⟨rfl, rfl⟩ := Prod.mk.inj (Option.some.inj (hdata.symm.trans hotherData))
        rw [ih]
        cases hdecode : codec.fromBytes data with
        | none => rfl
        | some walEntry =>
          change _ = ((walEntry.index :: decodable codec behind).getLast?).getD last
          rw [List.getLast?_cons]
          rfl

/-- A record is there by its length. -/
theorem decodable_frame {bytes data rest : List UInt8}
    (h : readFrame fnv1aHash bytes = .frame data rest) :
    decodable codec bytes =
      ((codec.fromBytes data).map WalEntry.index).toList ++ decodable codec rest := by
  unfold readFrame at h
  cases hlen : readExact 8 bytes with
  | none => simp [hlen] at h
  | some first =>
    obtain ⟨len, rest⟩ := first
    cases hsum : readExact 8 rest with
    | none => simp [hlen, hsum] at h
    | some second =>
      obtain ⟨stored, behindSum⟩ := second
      obtain ⟨hstored, rfl⟩ := append_of_readExact hsum
      cases hdata : readExact (ofLeBytes len) behindSum with
      | none => simp [hlen, hsum, hdata] at h
      | some third =>
        obtain ⟨found, behind⟩ := third
        simp only [hlen, hsum, hdata] at h
        split_ifs at h
        obtain ⟨rfl, rfl⟩ := FrameRead.frame.inj h
        refine decodable_eq hlen ?_
        rwa [List.drop_left' hstored]

theorem decodable_eq_soundRecords (bytes : List UInt8) :
    decodable codec bytes =
      (soundRecords codec bytes).1.map WalEntry.index ++
        decodable codec (soundRecords codec bytes).2 := by
  induction bytes using records_induction codec with
  | stops bytes hstops =>
    rw [soundRecords_stops hstops]
    rfl
  | record bytes data rest walEntry hread hdecode ih =>
    rw [decodable_frame hread, soundRecords_frame hread hdecode, hdecode, ih]
    rfl

theorem findLastIndex_eq (file : List UInt8) :
    findLastIndex codec file = (((layout codec file).1.map WalEntry.index ++
      decodable codec (layout codec file).2).getLast?).getD 0 := by
  rw [findLastIndex, findLastIndexFrom_eq, decodable_eq_soundRecords]
  rfl

/-! ### One step -/

theorem readAll_eq_ok_iff {file : List UInt8} {entries : List (LogEntry CrudOperation)} :
    readAll serde codec file = .ok entries ↔
      (8 ≤ file.length ∧ file.take 4 = walMagic) ∧
        readEntries serde codec (file.drop 8) = .ok entries := by
  unfold readAll readExact
  by_cases hlength : 8 ≤ file.length
  · rw [if_pos hlength]
    simp only [List.take_take, ne_eq]
    by_cases hmagic : file.take (min 4 8) = walMagic
    · rw [if_neg (not_not.mpr hmagic)]
      exact ⟨fun h ↦ ⟨⟨hlength, hmagic⟩, h⟩, fun h ↦ h.2⟩
    · rw [if_pos hmagic]
      exact ⟨fun h ↦ (nomatch h), fun h ↦ absurd h.1.2 hmagic⟩
  · rw [if_neg hlength]
    exact ⟨fun h ↦ (nomatch h), fun h ↦ absurd h.1.1 hlength⟩

/-- A file that is read, with more bytes behind it. -/
theorem readAll_append {file more : List UInt8} {entries behind : List (LogEntry CrudOperation)}
    (h : readAll serde codec file = .ok entries)
    (hbehind : readEntries serde codec ((layout codec file).2 ++ more) = .ok behind) :
    readAll serde codec (file ++ more) = .ok (entries ++ behind) := by
  obtain ⟨⟨hlength, hmagic⟩, hentries⟩ := readAll_eq_ok_iff.mp h
  refine readAll_eq_ok_iff.mpr ⟨⟨?_, ?_⟩, ?_⟩
  · rw [List.length_append]
    exact le_add_right hlength
  · rwa [List.take_append_of_le_length (by omega)]
  · rw [List.drop_append_of_le_length hlength]
    exact readEntries_append hentries hbehind

variable {wal : WriteAheadLog}

/-- The call leaves entries behind those that were read, and a last index that is the greatest of
both. -/
theorem tracks_of_behind {call : WalCall} {entries : List (LogEntry CrudOperation)}
    (behind : List (LogEntry CrudOperation))
    (hread : readAll serde codec wal.file = .ok entries)
    (hlast : wal.lastSyncedIndex = greatest (entries.map LogEntry.index))
    (hbehind : readEntries serde codec ((layout codec wal.file).2 ++
      reached serde codec (call.written wal) call.outcome) = .ok behind)
    (hnext : (wal.perform serde codec call).1.lastSyncedIndex =
      max wal.lastSyncedIndex (greatest (behind.map LogEntry.index))) :
    (wal.perform serde codec call).1.Tracks serde codec ∧
      wal.lastSyncedIndex ≤ (wal.perform serde codec call).1.lastSyncedIndex := by
  refine ⟨⟨entries ++ behind, ?_, ?_⟩, ?_⟩
  · rw [(performed wal call).file]
    exact readAll_append hread hbehind
  · rw [hnext, hlast, List.map_append, greatest_append]
  · rw [hnext]
    exact le_max_left _ _

theorem readEntries_rest {file : List UInt8} {entries : List (LogEntry CrudOperation)}
    (h : readAll serde codec file = .ok entries) :
    readEntries serde codec (layout codec file).2 = .ok [] := by
  obtain ⟨-, hentries⟩ := readAll_eq_ok_iff.mp h
  rw [readEntries_eq_soundRecords] at hentries ⊢
  rw [layout, soundRecords_stops (soundRecords_rest_stops _)]
  split_ifs at hentries ⊢
  rfl

theorem lastSyncedIndex_acknowledged {call : WalCall} (houtcome : call.outcome = .synced)
    (hserialise : Serialise serde codec (call.written wal)) (hwritten : call.written wal ≠ []) :
    (wal.perform serde codec call).1.lastSyncedIndex = lastIndexOf (call.written wal) := by
  have hspec := @performed serde codec wal call
  rw [hspec.last, if_pos (hspec.ok_iff.mpr (.inr ⟨houtcome, hserialise⟩)), lastIndexOf,
    List.getLast?_eq_some_getLast hwritten]
  rfl

theorem lastSyncedIndex_refused {call : WalCall} (hwritten : call.written wal ≠ [])
    (h : ¬ (call.outcome = .synced ∧ Serialise serde codec (call.written wal))) :
    (wal.perform serde codec call).1.lastSyncedIndex = wal.lastSyncedIndex := by
  have hspec := @performed serde codec wal call
  rw [hspec.last, if_neg fun hok ↦ (hspec.ok_iff.mp hok).elim hwritten h]

theorem tracks_call {call : WalCall} (h : wal.Tracks serde codec)
    (horder : WritesInOrder serde codec wal call) :
    (wal.perform serde codec call).1.Tracks serde codec ∧
      wal.lastSyncedIndex ≤ (wal.perform serde codec call).1.lastSyncedIndex := by
  obtain ⟨entries, hread, hlast⟩ := h
  by_cases hwritten : call.written wal = []
  · have hspec := @performed serde codec wal call
    refine tracks_of_behind [] hread hlast ?_ ?_
    · rw [hwritten, reached_nil, List.append_nil]
      exact readEntries_rest hread
    · rw [hspec.last, hwritten]
      simp [greatest]
  cases horder with
  | nothing hnothing => exact absurd hnothing hwritten
  | acknowledged houtcome hserialise hclean hfile hbatch =>
    refine tracks_of_behind ((call.written wal).map (WalEntry.reread serde)) hread hlast ?_ ?_
    · rw [hclean, houtcome]
      exact readEntries_batchBytes hserialise
    · rw [lastSyncedIndex_acknowledged houtcome hserialise hwritten, map_index_reread,
        greatest_eq_lastIndexOf hbatch, max_eq_right hfile]
  | acknowledgedBehindDamage houtcome hserialise hdamaged hlastIndex =>
    refine tracks_of_behind [] hread hlast (readEntries_damaged hdamaged _) ?_
    rw [lastSyncedIndex_acknowledged houtcome hserialise hwritten, hlastIndex]
    exact (Nat.max_zero _).symm
  | failed kept torn hrefused hreached hserialise hclean hkept htorn =>
    refine tracks_of_behind (kept.map (WalEntry.reread serde)) hread hlast ?_ ?_
    · rw [hreached]
      rcases hclean with rfl | hclean
      · exact readEntries_short htorn
      · rw [hclean, List.nil_append] at htorn ⊢
        rw [readEntries_batchBytes_append hserialise, readEntries_short htorn]
        exact congrArg Except.ok (List.append_nil _)
    · rw [lastSyncedIndex_refused hwritten hrefused, map_index_reread,
        max_eq_left (greatest_le_iff.mpr (List.forall_mem_map.mpr hkept))]
  | failedBehindDamage hrefused hdamaged =>
    refine tracks_of_behind [] hread hlast (readEntries_damaged hdamaged _) ?_
    rw [lastSyncedIndex_refused hwritten hrefused]
    exact (Nat.max_zero _).symm

theorem truncateAfter_refused {index : ℕ} {outcome : RewriteOutcome}
    {entries : List (LogEntry CrudOperation)} (hread : readAll serde codec wal.file = .ok entries)
    (hcreated : outcome ≠ .notCreated)
    (hrefused : ¬ (outcome = .synced ∧ Serialise serde codec (upTo index entries))) :
    (wal.truncateAfter serde codec index outcome).1.file =
        rewritten serde codec (upTo index entries) outcome ∧
      (wal.truncateAfter serde codec index outcome).1.lastSyncedIndex = wal.lastSyncedIndex := by
  rw [truncateAfter, hread]
  cases outcome with
  | notCreated => exact absurd rfl hcreated
  | stoppedAfter n => exact ⟨rfl, rfl⟩
  | synced =>
    have hok : ¬ (batchBytes serde codec (upTo index entries)).2 = true :=
      fun hok ↦ hrefused ⟨rfl, hok⟩
    simp only [hok]
    exact ⟨rfl, rfl⟩

theorem tracks_truncate {index : ℕ} {outcome : RewriteOutcome} (h : wal.Tracks serde codec)
    (horder : TruncatesInOrder serde codec wal index outcome) :
    (wal.truncateAfter serde codec index outcome).1.Tracks serde codec := by
  obtain ⟨entries, hread, hlast⟩ := h
  by_cases hcreated : outcome = .notCreated
  · rw [hcreated, truncateAfter, hread]
    exact ⟨entries, hread, hlast⟩
  rcases (horder entries hread).resolve_left hcreated with ⟨rfl, hserialise, hkept⟩ |
    ⟨hrefused, front, torn, hreached, hserialise, htorn, hgreatest⟩
  · have hok : (batchBytes serde codec (upTo index entries)).2 = true := hserialise
    rw [truncateAfter, hread]
    simp only [hok, if_true]
    refine ⟨(upTo index entries).map (WalEntry.reread serde), readAll_batchBytes hserialise, ?_⟩
    rw [map_index_reread, greatest_eq_lastIndexOf hkept]
    rfl
  · obtain ⟨hfile, hkeptLast⟩ := truncateAfter_refused hread hcreated hrefused
    refine ⟨front.map (WalEntry.reread serde), ?_, ?_⟩
    · rw [hfile, hreached, readAll_header_append, readEntries_batchBytes_append hserialise,
        readEntries_short htorn]
      exact congrArg Except.ok (List.append_nil _)
    · rw [hkeptLast, map_index_reread, hgreatest]

theorem tracks_reopen {file : List UInt8} (groupCommit : Bool)
    (horder : ReopensInOrder codec wal file) :
    (withConfig codec (some file) groupCommit).Tracks serde codec ∧
      wal.lastSyncedIndex ≤ (withConfig codec (some file) groupCommit).lastSyncedIndex := by
  have hlast : (withConfig codec (some file) groupCommit).lastSyncedIndex =
      greatest ((layout codec file).1.map WalEntry.index) :=
    (findLastIndex_eq file).trans horder.last
  refine ⟨⟨(layout codec file).1.map (WalEntry.toLogEntry serde), ?_, ?_⟩, ?_⟩
  · refine readAll_eq_ok_iff.mpr ⟨⟨horder.length, horder.magic⟩, ?_⟩
    rw [readEntries_eq_soundRecords]
    exact if_neg horder.notCut
  · rw [hlast, List.map_map]
    rfl
  · rw [hlast]
    exact horder.kept

/-! ### Runs -/

theorem tracks_act {action : WalAction} {next : WriteAheadLog} (h : wal.Tracks serde codec)
    (horder : InOrder serde codec wal action) (hnext : wal.act serde codec action = some next) :
    next.Tracks serde codec := by
  cases action with
  | call call =>
    obtain rfl := Option.some.inj hnext
    exact (tracks_call h horder).1
  | truncate index outcome =>
    obtain rfl := Option.some.inj hnext
    exact tracks_truncate h horder
  | reopen bytes tail groupCommit =>
    obtain rfl := Option.some.inj hnext
    exact (tracks_reopen groupCommit horder).1

theorem grows_act {action : WalAction} (h : wal.Tracks serde codec)
    (horder : InOrder serde codec wal action) : wal.Grows serde codec action := by
  cases action with
  | call call =>
    refine .inr fun next hnext ↦ ?_
    obtain rfl := Option.some.inj hnext
    exact (tracks_call h horder).2
  | truncate index outcome => exact .inl ⟨index, outcome, rfl⟩
  | reopen bytes tail groupCommit =>
    refine .inr fun next hnext ↦ ?_
    obtain rfl := Option.some.inj hnext
    exact (@tracks_reopen serde codec wal _ groupCommit horder).2

theorem tracks_new (groupCommit : Bool) : (withConfig codec none groupCommit).Tracks serde codec :=
  ⟨[], @readAll_batchBytes serde codec [] rfl, rfl⟩

/-- In every run of writes, truncations and reopenings that begins with a new file and whose steps
are in order, the last index is always the greatest that is read, and only a truncation decreases
it. -/
theorem tracks_of_inOrder (serde : Serde) (codec : RkyvCodec) (groupCommit : Bool)
    (actions : List WalAction)
    (hsteps : EachStep (act serde codec) (InOrder serde codec) (withConfig codec none groupCommit)
      actions) :
    Always (act serde codec) (Tracks serde codec) (withConfig codec none groupCommit) actions ∧
      EachStep (act serde codec) (Grows serde codec) (withConfig codec none groupCommit)
        actions := by
  have hkept : ∀ wal action next, Tracks serde codec wal → InOrder serde codec wal action →
      wal.act serde codec action = some next → Tracks serde codec next :=
    fun wal action next ↦ tracks_act
  exact ⟨EachStep.always hkept (tracks_new groupCommit) hsteps,
    EachStep.imp hkept (fun wal action next h horder _ ↦ grows_act h horder)
      (tracks_new groupCommit) hsteps⟩

/-! ### Entries out of order -/

section TwoDeletions

/-- The deletion of a product at an index. -/
def deletionAt (index : ℕ) : LogEntry CrudOperation :=
  ⟨⟨1, index⟩, .delete "/api/products" "a", 0⟩

/-- A codec for the records of the deletions at 1 and 2. -/
def twoDeletionsCodec : RkyvCodec where
  toBytes := fun entry ↦
    if entry = .fromLogEntry silentSerde (deletionAt 1) then some [1]
    else if entry = .fromLogEntry silentSerde (deletionAt 2) then some [2] else none
  fromBytes := fun bytes ↦
    if bytes = [1] then some (.fromLogEntry silentSerde (deletionAt 1))
    else if bytes = [2] then some (.fromLogEntry silentSerde (deletionAt 2)) else none
  fromBytes_toBytes := by
    intro entry bytes h
    split_ifs at h with hfirst hsecond
    · obtain rfl := Option.some.inj h
      exact congrArg some hfirst.symm
    · obtain rfl := Option.some.inj h
      exact congrArg some hsecond.symm
  length_toBytes := by
    intro entry bytes h
    split_ifs at h
    · obtain rfl := Option.some.inj h
      decide
    · obtain rfl := Option.some.inj h
      decide

/-- A file of whole records is clean. -/
theorem layout_batchBytes {written : List (LogEntry CrudOperation)}
    (h : Serialise serde codec written) :
    (layout codec (walHeader ++ (batchBytes serde codec written).1)).2 = [] := by
  change (soundRecords codec (batchBytes serde codec written).1).2 = []
  induction written with
  | nil =>
    have hstops : Stops codec [] := fun data rest hread ↦ nomatch hread
    exact congrArg Prod.snd (soundRecords_stops hstops)
  | cons entry rest ih =>
    obtain ⟨bytes, hbytes, hrest, heq⟩ := batchBytes_cons h
    rw [heq, soundRecords_frame (readFrame_frame_append fnv1aHash (codec.length_toBytes hbytes) _)
      (codec.fromBytes_toBytes hbytes)]
    exact ih hrest

/-- Appended in the order of their indices, the deletions are tracked. -/
theorem tracks_of_inOrder_deletions :
    Always (act silentSerde twoDeletionsCodec) (Tracks silentSerde twoDeletionsCodec)
        (withConfig twoDeletionsCodec none true)
        [.call (.append (deletionAt 1) .synced), .call (.append (deletionAt 2) .synced)] ∧
      EachStep (act silentSerde twoDeletionsCodec) (Grows silentSerde twoDeletionsCodec)
        (withConfig twoDeletionsCodec none true)
        [.call (.append (deletionAt 1) .synced), .call (.append (deletionAt 2) .synced)] := by
  refine tracks_of_inOrder silentSerde twoDeletionsCodec true _
    (EachStep.cons rfl (.acknowledged rfl rfl ?_ ?_ ?_)
      (EachStep.cons rfl (.acknowledged rfl rfl ?_ ?_ ?_) trivial))
  · exact @layout_batchBytes silentSerde twoDeletionsCodec [] rfl
  · decide
  · decide
  · exact @layout_batchBytes silentSerde twoDeletionsCodec [deletionAt 1] rfl
  · decide
  · decide

/-- The record of the deletion at 2 with a wrong checksum. -/
def damagedRecord : List UInt8 := leBytes 8 1 ++ (leBytes 8 0 ++ [2])

/-- The record of the deletion at 1, and the damaged one behind it. -/
def damagedFile : List UInt8 :=
  walHeader ++ ((batchBytes silentSerde twoDeletionsCodec [deletionAt 1]).1 ++ damagedRecord)

/-- Only the first one is read. -/
theorem readAll_damagedFile :
    readAll silentSerde twoDeletionsCodec damagedFile = .ok [deletionAt 1] := by
  have hcorrupt : readFrame fnv1aHash damagedRecord = .corrupt := by decide
  have hnothing : readEntries silentSerde twoDeletionsCodec damagedRecord = .ok [] := by
    rw [readEntries_eq, hcorrupt]
  have hserialise : Serialise silentSerde twoDeletionsCodec [deletionAt 1] := rfl
  rw [damagedFile, readAll_header_append, readEntries_batchBytes_append hserialise, hnothing]
  rfl

/-- The last index is that of the damaged one. -/
theorem findLastIndex_damagedFile : findLastIndex twoDeletionsCodec damagedFile = 2 := by
  have hfirst : readFrame fnv1aHash (damagedFile.drop 8) = .frame [1] damagedRecord := by decide
  have hsecond : decodable twoDeletionsCodec damagedRecord = [2] := by
    have hlen : readExact 8 damagedRecord = some (leBytes 8 1, leBytes 8 0 ++ [2]) := by decide
    have hdata : readExact (ofLeBytes (leBytes 8 1)) ((leBytes 8 0 ++ [2]).drop 8) =
      some ([2], []) := by decide
    rw [decodable_eq hlen hdata, decodable_eq_nil (by simp [readExact])]
    rfl
  rw [findLastIndex, findLastIndexFrom_eq, decodable_frame hfirst, hsecond]
  rfl

/-- Appended in the other order, the second deletion takes the last index back to 1; and of a file
with a damaged record the last index is that of the record, which is not read. -/
theorem not_tracks_deletions :
    ¬ EachStep (act silentSerde twoDeletionsCodec) (Grows silentSerde twoDeletionsCodec)
        (withConfig twoDeletionsCodec none true)
        [.call (.append (deletionAt 2) .synced), .call (.append (deletionAt 1) .synced)] ∧
      ¬ Always (act silentSerde twoDeletionsCodec) (Tracks silentSerde twoDeletionsCodec)
        (withConfig twoDeletionsCodec none true) [.reopen 0 damagedFile true] := by
  constructor
  · intro hgrows
    rcases ((hgrows _ rfl).2 _ rfl).1 with ⟨index, outcome, htruncate⟩ | hle
    · exact nomatch htruncate
    · exact absurd (hle _ rfl) (by decide)
  · intro htracks
    obtain ⟨entries, hread, hlast⟩ := htracks.2 _ rfl
    obtain rfl := Except.ok.inj (readAll_damagedFile.symm.trans hread)
    exact absurd (findLastIndex_damagedFile.symm.trans hlast) (by decide)

end TwoDeletions

end WriteAheadLog

end Lithair.Cluster
