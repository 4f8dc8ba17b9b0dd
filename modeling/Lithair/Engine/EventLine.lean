import Lithair.Engine.Rotation
import Lithair.Serialization.Grammar

/-!
# The codec of a line

`format_event_with_crc32` and `parse_and_validate_event` of `engine/persistence.rs` on every text.
A line counts as one with a checksum when it has more than nine bytes and its ninth character is a
colon; it is then split behind its ninth and its eighth byte, which panics inside a character.

`codec_iff` says which texts the codec keeps: all but the empty one are read back, a JSON array or
object is read as it stands unless its ninth character is a colon, a payload with another checksum
is rejected unless it is empty, and the reader returns unless it splits inside a character.
-/

namespace Lithair.Engine

open Lithair.Lib.Text Lithair.Serialization.Json

/-! ### What the codec is for -/

section Codec

variable (crc32 : List UInt8 → UInt32)

/-- A text is read back from its line. -/
def RoundTrips (eventJson : String) : Prop :=
  parseAndValidateEvent crc32 (formatEventWithCrc32 crc32 eventJson) = some (.ok eventJson)

/-- The whole line is the text of a JSON array or object. -/
def IsContainer (line : List Char) : Prop :=
  ∃ tree, IsText tree (String.ofList line) ∧
    ((∃ items, tree = .array items) ∨ ∃ members, tree = .object members)

/-- The line begins with eight hexadecimal digits and a colon. -/
def HasChecksumPrefix (line : List Char) : Prop :=
  (∃ n, readHex 0 (line.take 8) = some n) ∧ (line)[8]? = some ':'

/-- A line without a checksum is the event as it stands. -/
def Kept (line : List Char) : Prop :=
  parseAndValidateEvent crc32 line = some (.ok (String.ofList line))

/-- A line with this payload behind the checksum of a text. -/
def changedLine (eventJson payload : String) : List Char :=
  hexDigits 8 (crc32 (asBytes eventJson)).toNat ++ ':' :: payload.toList

def Rejects (line : List Char) : Prop :=
  ∃ error, parseAndValidateEvent crc32 line = some (.error error)

/-- The reader does not panic on the line. -/
def Returns (line : List Char) : Prop := parseAndValidateEvent crc32 line ≠ none

/-- What the two functions are for. -/
structure Codec : Prop where
  roundTrips : ∀ eventJson, RoundTrips crc32 eventJson
  kept : ∀ line, IsContainer line → ¬ HasChecksumPrefix line → Kept crc32 line
  rejects : ∀ eventJson payload, crc32 (asBytes payload) ≠ crc32 (asBytes eventJson) →
    Rejects crc32 (changedLine crc32 eventJson payload)
  returns : ∀ line, Returns crc32 line

end Codec

/-! ### How a line is read -/

section Lines

variable {crc32 : List UInt8 → UInt32} {line : List Char}

/-- The reader takes the line for one with a checksum. -/
def Checksummed (line : List Char) : Prop := 9 < byteLength line ∧ (line)[8]? = some ':'

theorem parse_of_not_checksummed (h : ¬ Checksummed line) :
    parseAndValidateEvent crc32 line = some (.ok (String.ofList line)) := if_neg h

theorem parse_of_checksummed (h : Checksummed line) :
    parseAndValidateEvent crc32 line =
      match splitAtByte 9 line with
      | none => none
      | some (crcHex, jsonData) =>
        match splitAtByte 8 crcHex with
        | none => none
        | some (crcHex, _) =>
          match fromStrRadix16 crcHex with
          | none => some (.error ("Invalid CRC32 hex: " ++ String.ofList crcHex))
          | some expectedCrc =>
            let actualCrc := (crc32 (asBytes (String.ofList jsonData))).toNat
            if expectedCrc ≠ actualCrc then
              some (.error ("CRC32 mismatch: expected " ++
                String.ofList (hexDigits 8 expectedCrc) ++
                ", got " ++ String.ofList (hexDigits 8 actualCrc) ++ " - DATA CORRUPTED"))
            else some (.ok (String.ofList jsonData)) := if_pos h

/-- A line that is taken for one with a checksum gives what is behind it, if anything. -/
theorem splitAtByte_of_parse {event : String} (h : Checksummed line)
    (hparse : parseAndValidateEvent crc32 line = some (.ok event)) :
    ∃ crcHex, splitAtByte 9 line = some (crcHex, event.toList) := by
  rw [parse_of_checksummed h] at hparse
  split at hparse
  · cases hparse
  · next crcHex jsonData hsplit =>
    split at hparse
    · cases hparse
    · split at hparse
      · exact absurd (Option.some.inj hparse) (by simp)
      · simp only at hparse
        split_ifs at hparse
        · exact absurd (Option.some.inj hparse) (by simp)
        · obtain rfl := Except.ok.inj (Option.some.inj hparse)
          exact ⟨crcHex, by rw [hsplit, String.toList_ofList]⟩

theorem not_kept_of_checksummed (h : Checksummed line) : ¬ Kept crc32 line := by
  intro hkept
  obtain ⟨crcHex, hsplit⟩ := splitAtByte_of_parse h hkept
  rw [String.toList_ofList] at hsplit
  have hparts := append_of_splitAtByte hsplit
  have hbytes := byteLength_of_splitAtByte hsplit
  rw [List.append_left_eq_self.mp hparts] at hbytes
  exact absurd hbytes (by decide)

/-- The two splits are the only ones that can panic. -/
theorem returns_of_checksummed (h : Checksummed line) :
    Returns crc32 line ↔ CharBoundary 8 line ∧ CharBoundary 9 line := by
  rw [Returns, parse_of_checksummed h]
  cases hsplit : splitAtByte 9 line with
  | none =>
    refine iff_of_false (fun hne ↦ hne rfl) fun hboundary ↦ ?_
    have hnine := hboundary.2
    rw [CharBoundary, hsplit] at hnine
    cases hnine
  | some parts =>
    obtain ⟨crcHex, jsonData⟩ := parts
    have hnine : CharBoundary 9 line := by
      rw [CharBoundary, hsplit]
      rfl
    rw [and_iff_left hnine, ← charBoundary_front (by decide) hsplit, CharBoundary]
    dsimp only
    cases splitAtByte 8 crcHex with
    | none => exact iff_of_false (fun hne ↦ hne rfl) Bool.false_ne_true
    | some front =>
      refine iff_of_true ?_ rfl
      dsimp only
      split
      · simp
      · split_ifs <;> simp

theorem returns_iff :
    Returns crc32 line ↔ (Checksummed line → CharBoundary 8 line ∧ CharBoundary 9 line) := by
  by_cases h : Checksummed line
  · rw [returns_of_checksummed h]
    exact ⟨fun hboundary _ ↦ hboundary, fun himp ↦ himp h⟩
  · refine iff_of_true ?_ fun hline ↦ absurd hline h
    rw [Returns, parse_of_not_checksummed h]
    simp

/-- The last character of an array or object is a bracket, or white space. -/
theorem getLast?_ne_colon (h : IsContainer line) : line.getLast? ≠ some ':' := by
  intro hlast
  obtain ⟨tree, ⟨⟨before, inner, after, hline, -, hafter, hspells⟩, -⟩, hkind⟩ := h
  rw [String.toList_ofList] at hline
  obtain ⟨closing, body, hinner, hclosing⟩ :
      ∃ closing body, inner = body ++ [closing] ∧ closing ≠ ':' := by
    rcases hkind with ⟨items, rfl⟩ | ⟨members, rfl⟩
    · rw [Tree.Spells] at hspells
      obtain ⟨inside, rfl, -⟩ := hspells
      exact ⟨']', '[' :: inside, rfl, by decide⟩
    · rw [Tree.Spells] at hspells
      obtain ⟨inside, rfl, -⟩ := hspells
      exact ⟨'\x7d', '\x7b' :: inside, rfl, by decide⟩
  rw [hline, hinner] at hlast
  by_cases hnil : after = []
  · rw [hnil, List.append_nil, ← List.append_assoc, List.getLast?_concat] at hlast
    exact hclosing (Option.some.inj hlast)
  · rw [← List.append_assoc, List.getLast?_append_of_ne_nil _ hnil] at hlast
    have hgap : ':' ∈ [' ', '\t', '\n', '\r'] := hafter ':' (List.mem_of_getLast? hlast)
    exact absurd hgap (by decide)

theorem checksummed_iff_of_isContainer (h : IsContainer line) :
    Checksummed line ↔ (line)[8]? = some ':' := by
  refine ⟨fun hline ↦ hline.2, fun hcolon ↦ ⟨?_, hcolon⟩⟩
  obtain ⟨hlong, -⟩ := List.getElem?_eq_some_iff.mp hcolon
  have hnine : line.length ≠ 9 := by
    intro hnine
    apply getLast?_ne_colon h
    rw [List.getLast?_eq_getElem?, hnine]
    exact hcolon
  have hbytes := length_le_byteLength line
  omega

theorem kept_iff_of_isContainer (h : IsContainer line) :
    Kept crc32 line ↔ (line)[8]? ≠ some ':' := by
  rw [Ne, ← checksummed_iff_of_isContainer h]
  exact ⟨fun hkept hline ↦ not_kept_of_checksummed hline hkept, parse_of_not_checksummed⟩

variable (crc32)

theorem roundTrips_iff (eventJson : String) : RoundTrips crc32 eventJson ↔ eventJson ≠ "" := by
  refine ⟨?_, parse_formatEventWithCrc32 crc32⟩
  rintro h rfl
  obtain ⟨hlength, hascii, -⟩ := checksum_spec crc32 ""
  have htext := toList_of_parse_line hlength hascii h
  rw [if_pos String.toList_empty] at htext
  exact absurd htext (List.append_ne_nil_of_right_ne_nil _ (List.cons_ne_nil _ _)).symm

/-- A line with a checksum and a text behind it. -/
theorem parse_line {digits data : List Char} (hlength : digits.length = 8)
    (hascii : ∀ c ∈ digits, c.utf8Size = 1) (hne : data ≠ []) {expectedCrc : ℕ}
    (hread : fromStrRadix16 digits = some expectedCrc) :
    parseAndValidateEvent crc32 (digits ++ ':' :: data) =
      if expectedCrc ≠ (crc32 (asBytes (String.ofList data))).toNat then
        some (.error ("CRC32 mismatch: expected " ++ String.ofList (hexDigits 8 expectedCrc) ++
          ", got " ++ String.ofList (hexDigits 8 (crc32 (asBytes (String.ofList data))).toNat) ++
          " - DATA CORRUPTED"))
      else some (.ok (String.ofList data)) := by
  obtain ⟨hline, hfront, hmark, hbytes⟩ := splitAtByte_line hlength hascii data
  have hpos := byteLength_pos hne
  rw [parse_of_checksummed ⟨by omega, hmark⟩, hline]
  simp only [hfront, hread]

/-- A payload under the checksum of another text. -/
theorem rejects_changedLine_iff {eventJson payload : String}
    (h : crc32 (asBytes payload) ≠ crc32 (asBytes eventJson)) :
    Rejects crc32 (changedLine crc32 eventJson payload) ↔ payload ≠ "" := by
  obtain ⟨hlength, hascii, -⟩ := checksum_spec crc32 eventJson
  have hread := fromStrRadix16_hexDigits (crc32 (asBytes eventJson)).toNat_lt
  have hcrc : (crc32 (asBytes eventJson)).toNat ≠ (crc32 (asBytes payload)).toNat :=
    fun heq ↦ h (UInt32.toNat_inj.mp heq).symm
  unfold Rejects changedLine
  by_cases hnil : payload = ""
  · have hshort : ¬ Checksummed (hexDigits 8 (crc32 (asBytes eventJson)).toNat ++
        ':' :: payload.toList) := by
      obtain ⟨-, -, -, hbytes⟩ := splitAtByte_line hlength hascii payload.toList
      rw [Checksummed, hbytes, hnil]
      exact fun hlong ↦ absurd hlong.1 (by decide)
    rw [parse_of_not_checksummed hshort]
    exact iff_of_false (by simp) (not_not.mpr hnil)
  · have hne : payload.toList ≠ [] := fun hempty ↦ hnil (String.toList_eq_nil_iff.mp hempty)
    rw [parse_line crc32 hlength hascii hne hread, String.ofList_toList, if_pos hcrc]
    exact iff_of_true ⟨_, rfl⟩ hnil

end Lines

/-- The texts the codec is right about: each but the empty one, the arrays and objects without a
colon at the ninth place, the changed payloads but the empty one, and the lines that are split
between characters. -/
theorem codec_iff (crc32 : List UInt8 → UInt32) :
    (∀ eventJson, RoundTrips crc32 eventJson ↔ eventJson ≠ "") ∧
      (∀ line, IsContainer line → (Kept crc32 line ↔ (line)[8]? ≠ some ':')) ∧
      (∀ eventJson payload, crc32 (asBytes payload) ≠ crc32 (asBytes eventJson) →
        (Rejects crc32 (changedLine crc32 eventJson payload) ↔ payload ≠ "")) ∧
      ∀ line, Returns crc32 line ↔
        (Checksummed line → CharBoundary 8 line ∧ CharBoundary 9 line) :=
  ⟨roundTrips_iff crc32, fun _ h ↦ kept_iff_of_isContainer h,
    fun _ _ h ↦ rejects_changedLine_iff crc32 h, fun _ ↦ returns_iff⟩

/-- An object with a name of five letters has its colon at the ninth place. -/
theorem not_codec : ¬ ∀ crc32, Codec crc32 := by
  intro h
  have htext : IsText (.object [("abcde".toList, .null)])
      (String.ofList "\x7b\"abcde\":null\x7d".toList) := by
    refine ⟨?_, ⟨fun raw hraw ↦ ?_, fun n hn ↦ absurd hn List.not_mem_nil⟩⟩
    · rw [String.toList_ofList]
      refine padded_self ?_
      rw [Tree.Spells]
      refine ⟨"\"abcde\":null".toList, by decide, "\"abcde\"".toList, "null".toList, by decide,
        padded_self ⟨'"', rfl, by decide⟩, padded_self ?_⟩
      rw [Tree.Spells]
      decide
    · obtain rfl := List.mem_singleton.mp hraw
      have hletters : "abcde".toList.all (fun c ↦ decide (c ≠ '\\' ∧ ¬ (c = '"' ∨ c.toNat < 32))) =
          true := by decide
      exact isSome_pieces fun c hc ↦ of_decide_eq_true (List.all_eq_true.mp hletters c hc)
  have hplain : ¬ HasChecksumPrefix "\x7b\"abcde\":null\x7d".toList := by
    rintro ⟨⟨n, hn⟩, -⟩
    have hnone : readHex 0 ("\x7b\"abcde\":null\x7d".toList.take 8) = none := by decide
    cases hnone.symm.trans hn
  have hkept := (h fun _ ↦ 0).kept _ ⟨_, htext, Or.inr ⟨_, rfl⟩⟩ hplain
  exact (kept_iff_of_isContainer ⟨_, htext, Or.inr ⟨_, rfl⟩⟩).mp hkept (by decide)

end Lithair.Engine
