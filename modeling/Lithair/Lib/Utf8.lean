import Mathlib.Data.String.Basic

/-!
# The bytes of a text

The UTF-8 encoding of a list of characters, what a cut of the bytes is when it is the encoding of a
text again, namely a cut of the text (`prefix_of_utf8`), and the text that bytes encode
(`fromUtf8`).
-/

namespace Lithair.Lib.Utf8

/-- The bytes of a text. -/
def utf8 (text : List Char) : List UInt8 := text.flatMap String.utf8EncodeChar

@[simp] theorem utf8_nil : utf8 [] = [] := rfl

theorem utf8_append (first second : List Char) :
    utf8 (first ++ second) = utf8 first ++ utf8 second := List.flatMap_append

theorem utf8EncodeChar_ne_nil (c : Char) : String.utf8EncodeChar c ≠ [] := by
  intro hnil
  have hlength := String.length_utf8EncodeChar c
  rw [hnil] at hlength
  exact absurd hlength.symm c.utf8Size_pos.ne'

@[simp] theorem utf8_eq_nil_iff {text : List Char} : utf8 text = [] ↔ text = [] := by
  unfold utf8
  rw [List.flatMap_eq_nil_iff]
  constructor
  · intro h
    exact List.eq_nil_iff_forall_not_mem.mpr fun c hc ↦ utf8EncodeChar_ne_nil c (h c hc)
  · rintro rfl c hc
    exact absurd hc List.not_mem_nil

/-- The character in front of encoded bytes is read off them. -/
theorem utf8DecodeChar_cons (c : Char) (bytes : List UInt8) :
    ByteArray.utf8DecodeChar? (String.utf8EncodeChar c ++ bytes).toByteArray 0 = some c := by
  rw [List.toByteArray_append]
  exact ByteArray.utf8DecodeChar?_utf8EncodeChar_append

theorem prefix_of_utf8 {first second : List Char} (h : utf8 first <+: utf8 second) :
    first <+: second := by
  induction first generalizing second with
  | nil => exact List.nil_prefix
  | cons c rest ih =>
    obtain ⟨bytes, hbytes⟩ := h
    cases second with
    | nil =>
      have hnil := (List.append_eq_nil_iff.mp hbytes).1
      exact absurd (utf8_eq_nil_iff.mp hnil) (List.cons_ne_nil _ _)
    | cons d tail =>
      have hsplit : String.utf8EncodeChar c ++ (utf8 rest ++ bytes) =
          String.utf8EncodeChar d ++ utf8 tail := by
        rw [← List.append_assoc]
        exact hbytes
      have hsame : c = d := by
        have hread := utf8DecodeChar_cons c (utf8 rest ++ bytes)
        rw [hsplit, utf8DecodeChar_cons, Option.some.injEq] at hread
        exact hread.symm
      subst hsame
      rw [List.append_cancel_left_eq] at hsplit
      exact List.cons_prefix_cons.mpr ⟨rfl, ih ⟨bytes, hsplit⟩⟩

/-- A byte below 128 stands for the character with its number. -/
theorem toNat_of_mem_utf8EncodeChar {b : UInt8} (hb : b.toNat < 128) {c : Char}
    (h : b ∈ String.utf8EncodeChar c) : c.toNat = b.toNat := by
  unfold String.utf8EncodeChar at h
  simp only at h
  have hval : c.val.toNat = c.toNat := rfl
  split_ifs at h <;> simp only [List.mem_cons, List.not_mem_nil, or_false, ← UInt8.toNat_inj] at h
  · simp at h
    omega
  all_goals
    simp at h
    omega

/-- A text whose last byte is a line feed ends in one. -/
theorem getLast?_of_utf8 {text : List Char} (h : (utf8 text).getLast? = some 10) :
    text.getLast? = some '\n' := by
  rcases List.eq_nil_or_concat text with rfl | ⟨front, c, rfl⟩
  · exact absurd h (by simp)
  · rw [List.concat_eq_append] at h ⊢
    have hlast : utf8 [c] = String.utf8EncodeChar c := List.append_nil _
    rw [utf8_append, hlast, List.getLast?_append_of_ne_nil _ (utf8EncodeChar_ne_nil c)] at h
    have hc : c.toNat = 10 := toNat_of_mem_utf8EncodeChar (by decide) (List.mem_of_getLast? h)
    rw [List.getLast?_concat]
    exact congrArg some (Char.toNat_inj.mp hc)

/-! ### Reading bytes as a text -/

/-- The text of bytes, character after character. There are at most `fuel` of them. -/
def decodeFrom : ℕ → List UInt8 → Option (List Char)
  | _, [] => some []
  | 0, _ :: _ => none
  | fuel + 1, b :: bytes =>
    match ByteArray.utf8DecodeChar? (b :: bytes).toByteArray 0 with
    | none => none
    | some c => (decodeFrom fuel ((b :: bytes).drop c.utf8Size)).map (c :: ·)

/-- The text that bytes are the encoding of. -/
def fromUtf8 (bytes : List UInt8) : Option (List Char) := decodeFrom bytes.length bytes

/-- Bytes whose first character can be read start with its encoding. -/
theorem eq_of_utf8DecodeChar {bytes : List UInt8} {c : Char}
    (h : ByteArray.utf8DecodeChar? bytes.toByteArray 0 = some c) :
    bytes = String.utf8EncodeChar c ++ bytes.drop c.utf8Size := by
  obtain ⟨rest, hrest⟩ := ByteArray.exists_of_utf8DecodeChar?_eq_some h
  have hbytes : bytes = String.utf8EncodeChar c ++ rest.data.toList := by
    have hdata := congrArg (fun b : ByteArray ↦ b.data.toList) hrest
    simpa using hdata
  have hlength := String.length_utf8EncodeChar c
  rw [hbytes, ← hlength, List.drop_left]

theorem utf8_of_decodeFrom {fuel : ℕ} {bytes : List UInt8} {text : List Char}
    (h : decodeFrom fuel bytes = some text) : utf8 text = bytes := by
  induction fuel generalizing bytes text with
  | zero =>
    cases bytes with
    | nil => rw [← Option.some.inj h, utf8_nil]
    | cons b bytes => exact absurd h nofun
  | succ fuel ih =>
    cases bytes with
    | nil => rw [← Option.some.inj h, utf8_nil]
    | cons b bytes =>
      unfold decodeFrom at h
      split at h
      · exact absurd h nofun
      · next c hc =>
        obtain ⟨rest, hrest, rfl⟩ := Option.map_eq_some_iff.mp h
        rw [eq_of_utf8DecodeChar hc, ← ih hrest]
        rfl

theorem decodeFrom_utf8 {fuel : ℕ} {text : List Char} (h : (utf8 text).length ≤ fuel) :
    decodeFrom fuel (utf8 text) = some text := by
  induction text generalizing fuel with
  | nil => cases fuel <;> rfl
  | cons c text ih =>
    have hcons : utf8 (c :: text) = String.utf8EncodeChar c ++ utf8 text := rfl
    have hlength := String.length_utf8EncodeChar c
    have hpos := c.utf8Size_pos
    obtain ⟨b, bytes, hb⟩ : ∃ b bytes, utf8 (c :: text) = b :: bytes :=
      List.exists_cons_of_ne_nil (utf8_eq_nil_iff.not.mpr (List.cons_ne_nil c text))
    have hread : ByteArray.utf8DecodeChar? (b :: bytes).toByteArray 0 = some c := by
      rw [← hb, hcons]
      exact utf8DecodeChar_cons c (utf8 text)
    have hdrop : (b :: bytes).drop c.utf8Size = utf8 text := by
      rw [← hb, hcons, ← hlength, List.drop_left]
    rw [hcons, List.length_append, hlength] at h
    obtain ⟨fuel, rfl⟩ : ∃ m, fuel = m + 1 := ⟨fuel - 1, by omega⟩
    rw [hb, decodeFrom, hread]
    simp only [hdrop]
    rw [ih (by omega)]
    rfl

theorem fromUtf8_eq_some_iff {bytes : List UInt8} {text : List Char} :
    fromUtf8 bytes = some text ↔ utf8 text = bytes := by
  constructor
  · exact utf8_of_decodeFrom
  · rintro rfl
    exact decodeFrom_utf8 le_rfl

@[simp] theorem fromUtf8_utf8 (text : List Char) : fromUtf8 (utf8 text) = some text :=
  fromUtf8_eq_some_iff.mpr rfl

/-- What is behind a text is the encoding of a text, or the whole is not. -/
theorem fromUtf8_utf8_append (text : List Char) (bytes : List UInt8) :
    fromUtf8 (utf8 text ++ bytes) = (fromUtf8 bytes).map (text ++ ·) := by
  cases hbytes : fromUtf8 bytes with
  | some rest =>
    rw [← fromUtf8_eq_some_iff.mp hbytes, ← utf8_append, fromUtf8_utf8]
    rfl
  | none =>
    cases hwhole : fromUtf8 (utf8 text ++ bytes) with
    | none => rfl
    | some whole =>
      have hutf8 := fromUtf8_eq_some_iff.mp hwhole
      obtain ⟨rest, rfl⟩ := prefix_of_utf8 ⟨bytes, hutf8.symm⟩
      rw [utf8_append, List.append_cancel_left_eq] at hutf8
      rw [← hutf8, fromUtf8_utf8] at hbytes
      exact absurd hbytes nofun

theorem char_eq_of_prefix {c d : Char} (h : String.utf8EncodeChar c <+: String.utf8EncodeChar d) :
    c = d := by
  have hprefix : utf8 [c] <+: utf8 [d] := by simpa [utf8] using h
  obtain ⟨hsame, -⟩ := List.cons_prefix_cons.mp (prefix_of_utf8 hprefix)
  exact hsame

/-- No text goes on with a character of one byte inside another character. -/
theorem not_inside_char {c d e : Char} {part : List UInt8} {text rest : List Char}
    (hnil : part ≠ []) (hpart : part <+: String.utf8EncodeChar d)
    (hne : part ≠ String.utf8EncodeChar d) (hc : c.utf8Size = 1) :
    utf8 (e :: text) ≠ part ++ utf8 (c :: rest) := by
  intro h
  have hbehind : utf8 (c :: rest) = c.val.toUInt8 :: utf8 rest := by
    show String.utf8EncodeChar c ++ utf8 rest = _
    rw [String.utf8EncodeChar_eq_singleton hc]
    rfl
  have hfront : String.utf8EncodeChar e <+: part ++ c.val.toUInt8 :: utf8 rest := by
    rw [← hbehind, ← h]
    exact List.prefix_append _ _
  rcases List.prefix_or_prefix_of_prefix hfront (List.prefix_append part _)
    with hshort | ⟨more, hmore⟩
  · obtain rfl := char_eq_of_prefix (hshort.trans hpart)
    exact hne (hpart.eq_of_length_le hshort.length_le)
  · rw [← hmore, List.prefix_append_right_inj] at hfront
    cases more with
    | nil =>
      rw [List.append_nil] at hmore
      obtain rfl := char_eq_of_prefix (hmore ▸ hpart)
      exact hne hmore
    | cons b more =>
      obtain ⟨rfl, -⟩ := List.cons_prefix_cons.mp hfront
      have hascii : c.val.toUInt8.toNat < 128 := by
        have hle : c.val.toNat ≤ 127 :=
          UInt32.le_iff_toNat_le.mp (Char.utf8Size_eq_one_iff.mp hc)
        rw [UInt32.toNat_toUInt8]
        omega
      have hmem : c.val.toUInt8 ∈ String.utf8EncodeChar e := by
        rw [← hmore]
        exact List.mem_append_right _ List.mem_cons_self
      have hnat := toNat_of_mem_utf8EncodeChar hascii hmem
      have hsize : e.utf8Size = 1 := by
        rw [Char.utf8Size_eq_one_iff, UInt32.le_iff_toNat_le]
        have hval : e.val.toNat = e.toNat := rfl
        rw [hval, hnat]
        exact Nat.le_of_lt_succ hascii
      have hlength := congrArg List.length hmore
      rw [String.length_utf8EncodeChar, hsize, List.length_append, List.length_cons] at hlength
      exact hnil (List.eq_nil_of_length_eq_zero (by omega))

/-- A part of a text with a character of one byte behind it is a text only when it ends between two
characters. -/
theorem exists_prefix_of_fromUtf8 {line : List Char} {part : List UInt8} {c : Char}
    {rest : List Char} (hpart : part <+: utf8 line) (hc : c.utf8Size = 1)
    (h : fromUtf8 (part ++ utf8 (c :: rest)) ≠ none) :
    ∃ front, part = utf8 front ∧ front <+: line := by
  obtain ⟨text, htext⟩ := Option.ne_none_iff_exists'.mp h
  rw [fromUtf8_eq_some_iff] at htext
  clear h
  induction line generalizing part text with
  | nil => exact ⟨[], List.prefix_nil.mp hpart, List.prefix_rfl⟩
  | cons d line ih =>
    by_cases hnil : part = []
    · exact ⟨[], hnil, List.nil_prefix⟩
    · have hline : utf8 (d :: line) = String.utf8EncodeChar d ++ utf8 line := rfl
      cases text with
      | nil => exact absurd (List.append_eq_nil_iff.mp htext.symm).1 hnil
      | cons e text =>
        have hchar : String.utf8EncodeChar d <+: part := by
          rcases List.prefix_or_prefix_of_prefix hpart (List.prefix_append _ _) with hinside | hchar
          · by_contra hcut
            exact not_inside_char hnil hinside (fun heq ↦ hcut (heq ▸ List.prefix_rfl)) hc htext
          · exact hchar
        obtain ⟨more, rfl⟩ := hchar
        rw [hline, List.prefix_append_right_inj] at hpart
        have hsame : e = d := by
          have hread := utf8DecodeChar_cons e (utf8 text)
          have hwhole : String.utf8EncodeChar e ++ utf8 text =
              String.utf8EncodeChar d ++ (more ++ utf8 (c :: rest)) := by
            rw [← List.append_assoc]
            exact htext
          rw [hwhole, utf8DecodeChar_cons, Option.some.injEq] at hread
          exact hread.symm
        subst hsame
        rw [List.append_assoc] at htext
        obtain ⟨front, rfl, hfront⟩ := ih hpart text (List.append_cancel_left htext)
        exact ⟨e :: front, rfl, List.cons_prefix_cons.mpr ⟨rfl, hfront⟩⟩

/-- Every character takes a byte at least. -/
theorem length_le_length_utf8 (text : List Char) : text.length ≤ (utf8 text).length := by
  induction text with
  | nil => exact Nat.zero_le _
  | cons c text ih =>
    have hcons : utf8 (c :: text) = String.utf8EncodeChar c ++ utf8 text := rfl
    have hpos := c.utf8Size_pos
    rw [hcons, List.length_cons, List.length_append, String.length_utf8EncodeChar]
    omega

/-- A byte below 128 is in the bytes of a text as the character with its number. -/
theorem mem_of_mem_utf8 {b : UInt8} (hb : b.toNat < 128) {text : List Char} (h : b ∈ utf8 text) :
    ∃ c ∈ text, c.toNat = b.toNat := by
  obtain ⟨c, hc, hmem⟩ := List.mem_flatMap.mp h
  exact ⟨c, hc, toNat_of_mem_utf8EncodeChar hb hmem⟩

end Lithair.Lib.Utf8
