import Lithair.Cluster.Wal

/-!
# Recovery after a crash

What is left of the write-ahead log when the process dies in the middle of an append: the file is
cut at some byte, opened again, and appended to. Neither `with_config` nor anything else removes
what is left of a record that was cut; `read_all` ends without an error only where fewer than eight
bytes of it are left, and what is appended behind it is read from the wrong place.

`recovers_iff_cutBetweenRecords`: recovery does what it is for exactly when the file is cut between
two records.
-/

namespace Lithair.Cluster

open Lithair.Lib Lithair.Lib.Framing

/-- A write to the log: of one entry, or of a batch with a single sync. -/
inductive WalWrite
  | append (entry : LogEntry CrudOperation)
  | appendBatch (entries : List (LogEntry CrudOperation))

def WalWrite.entries : WalWrite → List (LogEntry CrudOperation)
  | .append entry => [entry]
  | .appendBatch entries => entries

/-- The entries of a sequence of writes. -/
def entriesOf (writes : List WalWrite) : List (LogEntry CrudOperation) :=
  writes.flatMap WalWrite.entries

namespace WriteAheadLog

variable (serde : Serde) (codec : RkyvCodec)

/-- The log after writes that reach the disk. -/
def writeAll (wal : WriteAheadLog) : List WalWrite → WriteAheadLog
  | [] => wal
  | .append entry :: rest => writeAll (wal.append serde codec entry .synced).1 rest
  | .appendBatch entries :: rest => writeAll (wal.appendBatch serde codec entries .synced).1 rest

/-- All entries serialise, so no write fails on its own. -/
def Serialise (entries : List (LogEntry CrudOperation)) : Prop :=
  (batchBytes serde codec entries).2 = true

/-- Recovery from a crash that leaves the first `n` bytes of the file: a prefix of the entries is
read, with every entry whose append had returned, and what is appended later is read behind it. -/
def Recovers (groupCommit : Bool) (writes : List WalWrite) (n : ℕ) : Prop :=
  let created := withConfig codec none groupCommit
  let crashed := (created.writeAll serde codec writes).file.take n
  let reopened := withConfig codec (some crashed) groupCommit
  ∃ kept, kept <+: entriesOf writes ∧
    (∀ returned, returned <+: writes →
      (created.writeAll serde codec returned).file.length ≤ n → entriesOf returned <+: kept) ∧
    readAll serde codec reopened.file = .ok (kept.map (WalEntry.reread serde)) ∧
    ∀ later, Serialise serde codec (entriesOf later) →
      readAll serde codec (reopened.writeAll serde codec later).file =
        .ok ((kept ++ entriesOf later).map (WalEntry.reread serde))

/-- The cut is behind the header, between two records or at an end. -/
def CutBetweenRecords (writes : List WalWrite) (n : ℕ) : Prop :=
  ∃ kept, kept <+: entriesOf writes ∧
    n = (walHeader ++ (batchBytes serde codec kept).1).length

/-- There is an entry with a short record whose length is not a multiple of 256. -/
def HasShortRecord : Prop :=
  ∃ entry bytes, codec.toBytes (.fromLogEntry serde entry) = some bytes ∧
    bytes.length < 2 ^ 32 ∧ bytes.length % 256 ≠ 0

variable {serde codec}

/-! ### What is in the file -/

theorem serialise_append {first second : List (LogEntry CrudOperation)} :
    Serialise serde codec (first ++ second) ↔
      Serialise serde codec first ∧ Serialise serde codec second := by
  unfold Serialise
  constructor
  · intro h
    have hfirst : (batchBytes serde codec first).2 = true := by
      induction first with
      | nil => rfl
      | cons entry rest ih =>
        obtain ⟨bytes, hbytes, hrest, -⟩ := batchBytes_cons h
        rw [batchBytes, hbytes]
        exact ih hrest
    rw [batchBytes_append hfirst] at h
    exact ⟨hfirst, h⟩
  · rintro ⟨hfirst, hsecond⟩
    rw [batchBytes_append hfirst]
    exact hsecond

theorem file_appendBatch {entries : List (LogEntry CrudOperation)}
    (h : Serialise serde codec entries) (wal : WriteAheadLog) :
    (wal.appendBatch serde codec entries .synced).1.file =
      wal.file ++ (batchBytes serde codec entries).1 := by
  have hok : (batchBytes serde codec entries).2 = true := h
  unfold WriteAheadLog.appendBatch
  by_cases hempty : entries = []
  · rw [if_pos hempty, hempty]
    exact (List.append_nil _).symm
  · rw [if_neg hempty]
    simp only [hok, if_true]

theorem file_append {entry : LogEntry CrudOperation} (h : Serialise serde codec [entry])
    (wal : WriteAheadLog) :
    (wal.append serde codec entry .synced).1.file =
      wal.file ++ (batchBytes serde codec [entry]).1 := by
  obtain ⟨bytes, hbytes, -⟩ := batchBytes_cons h
  rw [append_eq_appendBatch wal entry, file_appendBatch h]
  simp only [WriteAheadLog.append, hbytes]

/-- Writes put their records behind what is in the file. -/
theorem file_writeAll {writes : List WalWrite} (h : Serialise serde codec (entriesOf writes))
    (wal : WriteAheadLog) :
    (wal.writeAll serde codec writes).file =
      wal.file ++ (batchBytes serde codec (entriesOf writes)).1 := by
  induction writes generalizing wal with
  | nil => exact (List.append_nil _).symm
  | cons write rest ih =>
    have hsplit : entriesOf (write :: rest) = write.entries ++ entriesOf rest := List.flatMap_cons
    rw [hsplit] at h ⊢
    obtain ⟨hwrite, hrest⟩ := serialise_append.mp h
    rw [batchBytes_append hwrite]
    cases write with
    | append entry =>
      have hentry : Serialise serde codec [entry] := hwrite
      rw [writeAll, ih hrest, file_append hentry, List.append_assoc]
      rfl
    | appendBatch entries =>
      have hentries : Serialise serde codec entries := hwrite
      rw [writeAll, ih hrest, file_appendBatch hentries, List.append_assoc]
      rfl

theorem file_created {writes : List WalWrite} (h : Serialise serde codec (entriesOf writes))
    (groupCommit : Bool) :
    ((withConfig codec none groupCommit).writeAll serde codec writes).file =
      walHeader ++ (batchBytes serde codec (entriesOf writes)).1 :=
  file_writeAll h _

theorem file_reopened {later : List WalWrite} (h : Serialise serde codec (entriesOf later))
    (file : List UInt8) (groupCommit : Bool) :
    ((withConfig codec (some file) groupCommit).writeAll serde codec later).file =
      file ++ (batchBytes serde codec (entriesOf later)).1 :=
  file_writeAll h _

/-! ### What is read -/

theorem readAll_header_append (bytes : List UInt8) :
    readAll serde codec (walHeader ++ bytes) = readEntries serde codec bytes := by
  have hheader : walHeader.length = 8 := rfl
  unfold readAll
  rw [readExact_append hheader]
  rfl

theorem readAll_short {file : List UInt8} (h : file.length < 8) :
    readAll serde codec file = .error .unexpectedEof := by
  unfold readAll
  rw [readExact_eq_none h]

theorem readEntries_truncated {bytes : List UInt8} (h : readFrame fnv1aHash bytes = .truncated) :
    readEntries serde codec bytes = .error .unexpectedEof := by
  rw [readEntries]
  split
  · next hread => exact absurd (hread.symm.trans h) (by simp)
  · rfl
  · next hread => exact absurd (hread.symm.trans h) (by simp)
  · next hread => exact absurd (hread.symm.trans h) (by simp)

/-- The records of a batch are read in front of what is behind them. -/
theorem readEntries_batchBytes_append {entries : List (LogEntry CrudOperation)}
    (h : Serialise serde codec entries) (rest : List UInt8) :
    readEntries serde codec ((batchBytes serde codec entries).1 ++ rest) =
      (readEntries serde codec rest).map (entries.map (WalEntry.reread serde) ++ ·) := by
  induction entries with
  | nil =>
    show readEntries serde codec rest = _
    cases readEntries serde codec rest with
    | error e => rfl
    | ok read => rfl
  | cons entry tail ih =>
    obtain ⟨bytes, hbytes, htail, heq⟩ := batchBytes_cons h
    rw [heq, List.append_assoc, readEntries_frame_append hbytes, ih htail]
    cases readEntries serde codec rest with
    | error e => rfl
    | ok read => rfl

/-! ### Where a cut falls -/

/-- A record takes more than its data. -/
theorem eq_nil_of_batchBytes_eq_nil {entries : List (LogEntry CrudOperation)}
    (h : Serialise serde codec entries) (hempty : (batchBytes serde codec entries).1.length = 0) :
    entries = [] := by
  cases entries with
  | nil => rfl
  | cons entry rest =>
    obtain ⟨bytes, -, -, heq⟩ := batchBytes_cons h
    rw [heq, List.length_append, length_frame] at hempty
    omega

/-- The bytes of some records, cut: whole records, and then nothing or the beginning of one. -/
theorem exists_take_batchBytes {entries : List (LogEntry CrudOperation)}
    (h : Serialise serde codec entries) (m : ℕ) :
    ∃ kept torn, kept <+: entries ∧
      (batchBytes serde codec entries).1.take m = (batchBytes serde codec kept).1 ++ torn ∧
      (torn = [] ∨ ∃ data n, data.length < 2 ^ 64 ∧ 0 < n ∧ n < 16 + data.length ∧
        torn = (frame fnv1aHash data).take n) := by
  induction entries generalizing m with
  | nil => exact ⟨[], [], List.prefix_rfl, List.take_nil, Or.inl rfl⟩
  | cons entry rest ih =>
    obtain ⟨bytes, hbytes, hrest, heq⟩ := batchBytes_cons h
    by_cases hzero : m = 0
    · exact ⟨[], [], List.nil_prefix, by rw [hzero]; rfl, Or.inl rfl⟩
    by_cases hm : m < 16 + bytes.length
    · refine ⟨[], (frame fnv1aHash bytes).take m, List.nil_prefix, ?_, Or.inr
        ⟨bytes, m, codec.length_toBytes hbytes, Nat.pos_of_ne_zero hzero, hm, rfl⟩⟩
      rw [heq, List.take_append_of_le_length (by rw [length_frame]; exact hm.le)]
      rfl
    · obtain ⟨kept, torn, hkept, htake, htorn⟩ := ih hrest (m - (16 + bytes.length))
      refine ⟨entry :: kept, torn, List.cons_prefix_cons.mpr ⟨rfl, hkept⟩, ?_, htorn⟩
      rw [heq, List.take_append, length_frame, htake, List.take_of_length_le
        (by rw [length_frame]; omega), batchBytes, hbytes, List.append_assoc]

section Proof

variable {groupCommit : Bool} {writes : List WalWrite} {n : ℕ}

/-- Between two records everything is there. -/
theorem recovers_of_cutBetweenRecords (h : Serialise serde codec (entriesOf writes))
    (hcut : CutBetweenRecords serde codec writes n) :
    Recovers serde codec groupCommit writes n := by
  obtain ⟨kept, hprefix, rfl⟩ := hcut
  obtain ⟨lost, hlost⟩ := hprefix
  have hkept : Serialise serde codec kept := by
    rw [← hlost] at h
    exact (serialise_append.mp h).1
  have hcrashed : ((withConfig codec none groupCommit).writeAll serde codec writes).file.take
      (walHeader ++ (batchBytes serde codec kept).1).length =
      walHeader ++ (batchBytes serde codec kept).1 := by
    rw [file_created h, ← hlost, batchBytes_append hkept, ← List.append_assoc, List.take_left]
  have hread : ∀ later, Serialise serde codec later →
      readAll serde codec (walHeader ++ (batchBytes serde codec kept).1 ++
        (batchBytes serde codec later).1) = .ok ((kept ++ later).map (WalEntry.reread serde)) := by
    intro later hlater
    rw [List.append_assoc, readAll_header_append, readEntries_batchBytes_append hkept,
      readEntries_batchBytes hlater, List.map_append]
    rfl
  refine ⟨kept, ⟨lost, hlost⟩, fun returned hreturned hlength ↦ ?_, ?_, fun later hlater ↦ ?_⟩
  · obtain ⟨rest, hrest⟩ := hreturned
    have hentries : entriesOf returned ++ entriesOf rest = entriesOf writes := by
      rw [← hrest]
      exact List.flatMap_append.symm
    rcases List.prefix_or_prefix_of_prefix ⟨entriesOf rest, hentries⟩ ⟨lost, hlost⟩ with hle | hle
    · exact hle
    · obtain ⟨more, hmore⟩ := hle
      have hserialise : Serialise serde codec (kept ++ more) := by
        rw [← hentries, ← hmore] at h
        exact (serialise_append.mp h).1
      have hnone : (batchBytes serde codec more).1.length = 0 := by
        rw [file_created (hmore ▸ hserialise), ← hmore, batchBytes_append hkept,
          List.length_append, List.length_append, List.length_append] at hlength
        omega
      rw [← hmore, eq_nil_of_batchBytes_eq_nil (serialise_append.mp hserialise).2 hnone,
        List.append_nil]
  · show readAll serde codec (List.take _ _) = _
    rw [hcrashed]
    have hnothing := hread [] rfl
    rwa [show (batchBytes serde codec []).1 = [] from rfl, List.append_nil,
      List.append_nil] at hnothing
  · rw [hcrashed, file_reopened hlater]
    exact hread (entriesOf later) hlater

end Proof

/-- For all appends to a new log and every length at which its file is cut, recovery works exactly
when the cut is between two records. -/
theorem recovers_iff_cutBetweenRecords (hshort : HasShortRecord serde codec) (groupCommit : Bool)
    (writes : List WalWrite) (hwrites : Serialise serde codec (entriesOf writes)) (n : ℕ)
    (hn : n ≤ ((withConfig codec none groupCommit).writeAll serde codec writes).file.length) :
    Recovers serde codec groupCommit writes n ↔ CutBetweenRecords serde codec writes n := by
  refine ⟨?_, recovers_of_cutBetweenRecords hwrites⟩
  rintro ⟨read, -, -, hread, hlater⟩
  have hheader : walHeader.length = 8 := rfl
  rw [file_created hwrites] at hn
  change readAll serde codec (List.take _ _) = _ at hread
  rw [file_created hwrites] at hread hlater
  by_cases hn8 : n < 8
  · rw [readAll_short (by rw [List.length_take]; omega)] at hread
    exact absurd hread (by simp)
  obtain ⟨kept, torn, hkept, htake, htorn⟩ := exists_take_batchBytes hwrites (n - 8)
  have hcrashed : (walHeader ++ (batchBytes serde codec (entriesOf writes)).1).take n =
      walHeader ++ ((batchBytes serde codec kept).1 ++ torn) := by
    rw [List.take_append, List.take_of_length_le (by omega), hheader, htake]
  have hserialise : Serialise serde codec kept := by
    obtain ⟨lost, hlost⟩ := hkept
    rw [← hlost] at hwrites
    exact (serialise_append.mp hwrites).1
  rcases htorn with rfl | ⟨data, k, hdata, hpos, hk, rfl⟩
  · refine ⟨kept, hkept, ?_⟩
    have hlength := congrArg List.length hcrashed
    rw [List.append_nil, List.length_take, min_eq_left hn] at hlength
    exact hlength
  rw [hcrashed] at hread hlater
  by_cases hk8 : 8 ≤ k
  · rw [readAll_header_append, readEntries_batchBytes_append hserialise,
      readEntries_truncated (readFrame_take_frame fnv1aHash hdata hk8 hk)] at hread
    exact absurd hread (by simp [Except.map])
  · obtain ⟨entry, bytes, hbytes, hbound, hbyte⟩ := hshort
    have hentry : batchBytes serde codec (entriesOf [.append entry]) =
        (frame fnv1aHash bytes, true) := by
      show batchBytes serde codec [entry] = _
      rw [batchBytes, hbytes]
      simp [batchBytes]
    have hone := hlater [.append entry] (congrArg Prod.snd hentry)
    rw [file_reopened (congrArg Prod.snd hentry), hentry, List.append_assoc, List.append_assoc,
      readAll_header_append, readEntries_batchBytes_append hserialise,
      readEntries_truncated (readFrame_take_frame_append fnv1aHash hpos (by omega) hbound
        hbyte)] at hone
    exact absurd hone (by simp [Except.map])

/-! ### A log with one record -/

section OneRecord

/-- Serialisation to texts that nothing is read back from. -/
def silentSerde : Serde where
  jsonText := fun _ ↦ ""
  parseJson := fun _ ↦ none
  versionValue := fun _ ↦ .null
  versionOfValue := fun _ ↦ none
  changeValue := fun _ ↦ .null
  changeOfValue := fun _ ↦ none
  uuidText := fun _ ↦ ""
  parseUuid := fun _ ↦ none

/-- The deletion of a product. -/
def deletion : LogEntry CrudOperation := ⟨⟨1, 1⟩, .delete "/api/products" "a", 0⟩

/-- A codec for the record of the deletion alone. -/
def deletionCodec : RkyvCodec where
  toBytes := fun entry ↦
    if entry = .fromLogEntry silentSerde deletion then some [1, 2, 3] else none
  fromBytes := fun bytes ↦
    if bytes = [1, 2, 3] then some (.fromLogEntry silentSerde deletion) else none
  fromBytes_toBytes := by
    intro entry bytes h
    rw [Option.ite_none_right_eq_some, Option.some.injEq] at h
    obtain ⟨rfl, rfl⟩ := h
    rfl
  length_toBytes := by
    intro entry bytes h
    rw [Option.ite_none_right_eq_some, Option.some.injEq] at h
    obtain ⟨-, rfl⟩ := h
    decide

theorem hasShortRecord_deletion : HasShortRecord silentSerde deletionCodec :=
  ⟨deletion, [1, 2, 3], rfl, by decide, by decide⟩

/-- The whole file, of 27 bytes, is recovered from. -/
theorem recovers_whole_file : Recovers silentSerde deletionCodec true [.append deletion] 27 :=
  (recovers_iff_cutBetweenRecords hasShortRecord_deletion true [.append deletion] rfl 27
    (by decide)).mpr ⟨[deletion], List.prefix_rfl, by decide⟩

/-- A crash that leaves the length and half of the checksum behind the header makes the file
unreadable. -/
theorem not_recovers_torn_checksum :
    ¬ Recovers silentSerde deletionCodec true [.append deletion] 20 := by
  rintro ⟨kept, -, -, hread, -⟩
  have hcrashed : ((withConfig deletionCodec none true).writeAll silentSerde deletionCodec
      [.append deletion]).file.take 20 =
      walHeader ++ (frame fnv1aHash [1, 2, 3]).take 12 := by decide
  change readAll silentSerde deletionCodec (List.take _ _) = _ at hread
  rw [hcrashed, readAll_header_append, readEntries_truncated
    (readFrame_take_frame fnv1aHash (by decide) (by decide) (by decide))] at hread
  exact absurd hread (by simp)

end OneRecord

end WriteAheadLog

end Lithair.Cluster
