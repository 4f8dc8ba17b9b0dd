import Lithair.Engine.EventLine
import Lithair.Engine.MultiFileStore
import Lithair.Lib.Utf8

/-!
# The snapshot file

`SnapshotStore` of `engine/snapshot.rs` on the bytes of its files: `save_snapshot` writes the line
of a snapshot's JSON text, `load_snapshot` reads the file as UTF-8, takes the text out of the line
and the snapshot out of the text, and checks the checksum of the state. The file system does what it
is asked, and `serde_json` is a parameter.

`loadSnapshot_saveSnapshot` says that a new snapshot is read back from the file it is saved to, and
that no file is read that stops before the end of what was written. A cut inside a character leaves
no text; one behind the colon leaves a text that the checksum rejects or that stops before its end;
and one in front of it a few digits, which the reader takes for an event without a checksum but
which are no JSON object.
-/

namespace Lithair.Engine

open Lithair.Lib.JsonText Lithair.Lib.Text Lithair.Lib.Utf8

/-- The errors of the engine that the snapshot store returns. -/
inductive EngineError
  | persistenceError (message : String)
  | serializationError (message : String)
  deriving DecidableEq

/-- What is used of `serde_json`: the indented text of a snapshot, and the snapshot of a text. -/
structure SnapshotSerde where
  toStringPretty : Snapshot → String
  fromStr : String → Except String Snapshot

namespace SnapshotSerde

def Refuses (serde : SnapshotSerde) (text : List Char) : Prop :=
  ∃ error, serde.fromStr (String.ofList text) = .error error

/-- A snapshot is written as an object and read back, no text is read that stops before the end of
an object, and none that is neither an object nor an array. -/
structure Lawful (serde : SnapshotSerde) : Prop where
  fromStr_toStringPretty : ∀ snapshot, serde.fromStr (serde.toStringPretty snapshot) = .ok snapshot
  isObject : ∀ snapshot, ∃ rest, (serde.toStringPretty snapshot).toList = '\x7b' :: rest
  refuses_torn : ∀ snapshot torn, torn <+: (serde.toStringPretty snapshot).toList →
    torn ≠ (serde.toStringPretty snapshot).toList → serde.Refuses torn
  refuses_other : ∀ c rest, isWhitespace c = false → c ≠ '\x7b' → c ≠ '[' →
    serde.Refuses (c :: rest)

end SnapshotSerde

/-- The bytes of the files, under their paths. -/
abbrev SnapshotFiles := String → Option (List UInt8)

/-- A directory for the snapshot files. -/
structure SnapshotStore where
  baseDir : String

namespace SnapshotStore

variable (crc32 : List UInt8 → UInt32) (serde : SnapshotSerde) (store : SnapshotStore)

def snapshotPath (aggregateId : Option String) : String :=
  match aggregateId with
  | some id => store.baseDir ++ "/" ++ id ++ "/snapshot.raftsnap"
  | none => store.baseDir ++ "/global/snapshot.raftsnap"

/-- Read a snapshot off its JSON text, and validate it. -/
def fromJson (json : String) : Except EngineError Snapshot :=
  match serde.fromStr json with
  | .error error => .error (.serializationError ("Failed to deserialize snapshot: " ++ error))
  | .ok snapshot =>
    match snapshot.validate crc32 with
    | .error error => .error (.persistenceError ("Snapshot validation failed: " ++ error))
    | .ok () => .ok snapshot

/-- What is written of a snapshot. -/
def written (snapshot : Snapshot) : List UInt8 :=
  utf8 (formatEventWithCrc32 crc32 (serde.toStringPretty snapshot))

def saveSnapshot (files : SnapshotFiles) (snapshot : Snapshot) : SnapshotFiles :=
  Function.update files (store.snapshotPath snapshot.metadata.aggregateId)
    (some (written crc32 serde snapshot))

/-- Load a snapshot. There is no result where the split of the line panics. -/
def loadSnapshot (files : SnapshotFiles) (aggregateId : Option String) :
    Option (Except EngineError (Option Snapshot)) :=
  match files (store.snapshotPath aggregateId) with
  | none => some (.ok none)
  | some bytes =>
    match fromUtf8 bytes with
    | none => some (.error (.persistenceError
        "Failed to read snapshot: stream did not contain valid UTF-8"))
    | some content =>
      match parseAndValidateEvent crc32 content with
      | none => none
      | some (.error error) =>
        some (.error (.persistenceError ("Snapshot file corrupted: " ++ error)))
      | some (.ok json) => some ((fromJson crc32 serde json).map some)

/-- Loading fails for an aggregate. -/
def Fails (files : SnapshotFiles) (aggregateId : Option String) : Prop :=
  ∃ error, store.loadSnapshot crc32 serde files aggregateId = some (.error error)

variable {crc32 serde store} {files : SnapshotFiles} {aggregateId : Option String}

/-- A file with a text is read through its line. -/
theorem loadSnapshot_of_fromUtf8 {bytes : List UInt8} {content : List Char}
    (hfile : files (store.snapshotPath aggregateId) = some bytes)
    (hcontent : fromUtf8 bytes = some content) :
    store.loadSnapshot crc32 serde files aggregateId =
      match parseAndValidateEvent crc32 content with
      | none => none
      | some (.error error) =>
        some (.error (.persistenceError ("Snapshot file corrupted: " ++ error)))
      | some (.ok json) => some ((fromJson crc32 serde json).map some) := by
  rw [loadSnapshot, hfile]
  simp only [hcontent]

theorem fromJson_toStringPretty (h : serde.Lawful) (eventCount : ℕ) (lastEventId : Option String)
    (state : String) (timestamp : ℕ) :
    fromJson crc32 serde (serde.toStringPretty
      (Snapshot.new crc32 aggregateId eventCount lastEventId state timestamp)) =
      .ok (Snapshot.new crc32 aggregateId eventCount lastEventId state timestamp) := by
  have hvalid : (Snapshot.new crc32 aggregateId eventCount lastEventId state timestamp).validate
      crc32 = .ok () := if_neg (not_not.mpr rfl)
  rw [fromJson, h.fromStr_toStringPretty]
  simp only [hvalid]

theorem fails_of_refuses (crc32 : List UInt8 → UInt32) {text : List Char}
    (h : serde.Refuses text) :
    ∃ error, fromJson crc32 serde (String.ofList text) = .error error := by
  obtain ⟨error, herror⟩ := h
  rw [fromJson, herror]
  exact ⟨_, rfl⟩

theorem hexDigit_ne_bracket : ∀ n < 16, hexDigit n ≠ '\x7b' ∧ hexDigit n ≠ '[' := by decide

/-- A line that stops in its checksum is read as it stands, and begins with no bracket. -/
theorem parse_torn_checksum (crc32 : List UInt8 → UInt32) {digits torn : List Char}
    (hlength : digits.length = 8) (hdigit : ∀ c ∈ digits, ∃ n < 16, c = hexDigit n)
    (hbegins : torn <+: digits ++ [':']) :
    parseAndValidateEvent crc32 torn = some (.ok (String.ofList torn)) ∧
      ∀ c ∈ torn, isWhitespace c = false ∧ c ≠ '\x7b' ∧ c ≠ '[' := by
  have hchar : ∀ c ∈ torn, c.utf8Size = 1 ∧ isWhitespace c = false ∧ c ≠ '\x7b' ∧ c ≠ '[' := by
    intro c hc
    rcases List.mem_append.mp (hbegins.subset hc) with hc | hc
    · obtain ⟨n, hn, rfl⟩ := hdigit c hc
      obtain ⟨-, hsize, -, -, hspace⟩ := hexDigit_spec n hn
      exact ⟨hsize, hspace, hexDigit_ne_bracket n hn⟩
    · obtain rfl := List.mem_singleton.mp hc
      decide
  refine ⟨parse_of_not_checksummed fun hline ↦ ?_, fun c hc ↦ (hchar c hc).2⟩
  have hshort := hbegins.length_le
  rw [List.length_append, hlength, List.length_singleton,
    ← byteLength_eq_length fun c hc ↦ (hchar c hc).1] at hshort
  exact absurd hline.1 (by omega)

/-- A line that stops before its end is rejected, or gives a text that is no snapshot. -/
theorem parse_torn (h : serde.Lawful) {snapshot : Snapshot} {torn : List Char}
    (hbegins : torn <+: formatEventWithCrc32 crc32 (serde.toStringPretty snapshot))
    (hne : torn ≠ formatEventWithCrc32 crc32 (serde.toStringPretty snapshot)) :
    (∃ error, parseAndValidateEvent crc32 torn = some (.error error)) ∨
      ∃ json, parseAndValidateEvent crc32 torn = some (.ok (String.ofList json)) ∧
        serde.Refuses json := by
  obtain ⟨hlength, hascii, -⟩ := checksum_spec crc32 (serde.toStringPretty snapshot)
  have hread := fromStrRadix16_hexDigits (crc32 (asBytes (serde.toStringPretty snapshot))).toNat_lt
  have hdigit : ∀ c ∈ hexDigits 8 (crc32 (asBytes (serde.toStringPretty snapshot))).toNat,
      ∃ n < 16, c = hexDigit n := fun c hc ↦ mem_hexDigits hc
  have hwhole : (serde.toStringPretty snapshot).toList ≠ [] := by
    obtain ⟨rest, hobject⟩ := h.isObject snapshot
    rw [hobject]
    exact List.cons_ne_nil _ _
  unfold formatEventWithCrc32 at hbegins hne
  generalize hexDigits 8 (crc32 (asBytes (serde.toStringPretty snapshot))).toNat = digits
    at hlength hascii hread hdigit hbegins hne
  by_cases hfront : torn <+: digits ++ [':']
  · -- The cut is in the checksum: the text is the digits themselves.
    obtain ⟨hparse, hchar⟩ := parse_torn_checksum crc32 hlength hdigit hfront
    refine Or.inr ⟨torn, hparse, ?_⟩
    cases torn with
    | nil => exact h.refuses_torn snapshot [] List.nil_prefix hwhole.symm
    | cons c rest =>
      obtain ⟨hspace, hbrace, hbracket⟩ := hchar c List.mem_cons_self
      exact h.refuses_other c rest hspace hbrace hbracket
  · -- The cut is behind the colon.
    rw [List.append_cons] at hbegins hne
    obtain ⟨data, rfl⟩ := (List.prefix_or_prefix_of_prefix hbegins
      (List.prefix_append _ _)).resolve_left hfront
    have hdata : data ≠ [] := by
      rintro rfl
      exact hfront (List.append_nil _ ▸ List.prefix_rfl)
    have hrefuses : serde.Refuses data :=
      h.refuses_torn snapshot data ((List.prefix_append_right_inj _).mp hbegins)
        fun heq ↦ hne (heq ▸ rfl)
    rw [← List.append_cons, parse_line crc32 hlength hascii hdata hread]
    split_ifs
    · exact Or.inl ⟨_, rfl⟩
    · exact Or.inr ⟨data, rfl, hrefuses⟩

/-- A file that stops before the end of what was written is not read. -/
theorem fails_of_torn (h : serde.Lawful) {snapshot : Snapshot} {torn : List UInt8}
    (hfile : files (store.snapshotPath aggregateId) = some torn)
    (hbegins : torn <+: written crc32 serde snapshot) (hne : torn ≠ written crc32 serde snapshot) :
    store.Fails crc32 serde files aggregateId := by
  cases hcontent : fromUtf8 torn with
  | none =>
    refine ⟨.persistenceError "Failed to read snapshot: stream did not contain valid UTF-8", ?_⟩
    rw [loadSnapshot, hfile]
    simp only [hcontent]
  | some content =>
    obtain rfl := fromUtf8_eq_some_iff.mp hcontent
    unfold Fails
    rw [loadSnapshot_of_fromUtf8 hfile hcontent]
    rcases parse_torn h (prefix_of_utf8 hbegins) (fun heq ↦ hne (heq ▸ rfl)) with
      ⟨error, hparse⟩ | ⟨json, hparse, hrefuses⟩
    · rw [hparse]
      exact ⟨_, rfl⟩
    · obtain ⟨error, herror⟩ := fails_of_refuses crc32 hrefuses
      rw [hparse]
      simp only [herror]
      exact ⟨_, rfl⟩

end SnapshotStore

/-! ### The format of the text -/

/-- The reader of the texts that the derived serializer writes. -/
def SnapshotSerde.ofFormat : SnapshotSerde where
  toStringPretty := snapshotFormat.toText
  fromStr := fun text ↦
    match snapshotFormat.fromText text with
    | some snapshot =>
      if snapshotFormat.toText snapshot = text then .ok snapshot else .error "expected value"
    | none => .error "expected value"

theorem SnapshotSerde.refuses_ofFormat {text : List Char}
    (h : ∀ snapshot, snapshotFormat.write snapshot ≠ text) : ofFormat.Refuses text := by
  refine ⟨"expected value", ?_⟩
  unfold ofFormat
  dsimp only
  split
  · next snapshot _ => exact if_neg fun heq ↦ h snapshot (String.ofList_injective heq)
  · rfl

theorem write_snapshotFormat (snapshot : Snapshot) :
    ∃ rest, snapshotFormat.write snapshot = '\x7b' :: rest := ⟨_, rfl⟩

theorem SnapshotSerde.lawful_ofFormat : ofFormat.Lawful where
  fromStr_toStringPretty := by
    intro snapshot
    unfold ofFormat
    simp only [snapshotFormat.fromText_toText, if_true]
  isObject := by
    intro snapshot
    obtain ⟨rest, hrest⟩ := write_snapshotFormat snapshot
    refine ⟨rest, ?_⟩
    rw [← hrest]
    exact String.toList_ofList
  refuses_torn := by
    intro snapshot torn hbegins hne
    have htext : (ofFormat.toStringPretty snapshot).toList = snapshotFormat.write snapshot :=
      String.toList_ofList
    rw [htext] at hbegins hne
    refine refuses_ofFormat fun other hother ↦ hne ?_
    rw [← hother] at hbegins ⊢
    rw [snapshotFormat.write_eq_of_prefix hbegins]
  refuses_other := by
    intro c rest _ hbrace _
    refine refuses_ofFormat fun other hother ↦ hbrace ?_
    obtain ⟨rest', hrest⟩ := write_snapshotFormat other
    exact (List.cons.inj (hother.symm.trans hrest)).1

/-! ### Saved and loaded -/

/-- A new snapshot that is saved is loaded unchanged, and when the file stops anywhere before the
end of what was written, loading fails. -/
theorem loadSnapshot_saveSnapshot (crc32 : List UInt8 → UInt32) {serde : SnapshotSerde}
    (h : serde.Lawful) (store : SnapshotStore) (files : SnapshotFiles) (aggregateId : Option String)
    (eventCount : ℕ) (lastEventId : Option String) (state : String) (timestamp : ℕ) :
    let snapshot := Snapshot.new crc32 aggregateId eventCount lastEventId state timestamp
    let saved := store.saveSnapshot crc32 serde files snapshot
    store.loadSnapshot crc32 serde saved aggregateId = some (.ok (some snapshot)) ∧
      ∃ bytes, saved (store.snapshotPath aggregateId) = some bytes ∧
        ∀ torn, torn <+: bytes → torn ≠ bytes → store.Fails crc32 serde
          (Function.update saved (store.snapshotPath aggregateId) (some torn)) aggregateId := by
  intro snapshot saved
  have hfile : saved (store.snapshotPath aggregateId) =
      some (SnapshotStore.written crc32 serde snapshot) := Function.update_self _ _ _
  have hne : serde.toStringPretty snapshot ≠ "" := by
    obtain ⟨rest, hobject⟩ := h.isObject snapshot
    rintro hempty
    rw [hempty] at hobject
    cases hobject
  refine ⟨?_, _, hfile, fun torn hbegins hne ↦ ?_⟩
  · rw [SnapshotStore.loadSnapshot_of_fromUtf8 hfile (fromUtf8_utf8 _),
      parse_formatEventWithCrc32 crc32 hne]
    simp only [snapshot, SnapshotStore.fromJson_toStringPretty h]
    rfl
  · exact SnapshotStore.fails_of_torn h (Function.update_self _ _ _) hbegins hne

/-- A snapshot of one event that is saved and loaded, and whose file is cut in its checksum. -/
theorem loadSnapshot_saveSnapshot_users :
    let snapshot := Snapshot.new (fun _ ↦ 7) (some "users") 1 none "\x7b\"n\":1\x7d" 1700000000
    let store : SnapshotStore := ⟨"data/snapshots"⟩
    let saved := store.saveSnapshot (fun _ ↦ 7) SnapshotSerde.ofFormat (fun _ ↦ none) snapshot
    store.loadSnapshot (fun _ ↦ 7) SnapshotSerde.ofFormat saved (some "users") =
        some (.ok (some snapshot)) ∧
      ∃ bytes, saved (store.snapshotPath (some "users")) = some bytes ∧
        ∀ torn, torn <+: bytes → torn ≠ bytes → store.Fails (fun _ ↦ 7) SnapshotSerde.ofFormat
          (Function.update saved (store.snapshotPath (some "users")) (some torn)) (some "users") :=
  loadSnapshot_saveSnapshot (fun _ ↦ 7) SnapshotSerde.lawful_ofFormat _ _ _ _ _ _ _

end Lithair.Engine
