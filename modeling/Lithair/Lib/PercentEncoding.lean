import Lithair.Lib.Text
import Lithair.Lib.Utf8

/-!
# Percent-encoding

The texts that stand for bytes: an unreserved character for itself, and a percent sign with two
hexadecimal digits, in upper or lower case, for any byte. Bytes have many such texts. None is
shorter than the bytes, and one of the same length is the text that the bytes are the encoding of
(`Encodes.eq_of_length`).
-/

namespace Lithair.Lib.PercentEncoding

open Lithair.Lib.Text Lithair.Lib.Utf8

/-- Letters, digits and the four marks that a URL leaves as they are. -/
def Unreserved (c : Char) : Prop := c.isAlphanum = true ∨ c ∈ ['-', '.', '_', '~']

instance (c : Char) : Decidable (Unreserved c) := inferInstanceAs (Decidable (_ ∨ _))

/-- The text stands for the bytes. -/
inductive Encodes : List UInt8 → List Char → Prop
  | nil : Encodes [] []
  | kept {c : Char} {bytes : List UInt8} {text : List Char} (hc : Unreserved c)
      (rest : Encodes bytes text) : Encodes (UInt8.ofNat c.toNat :: bytes) (c :: text)
  | encoded {first second : Char} {high low : ℕ} {bytes : List UInt8} {text : List Char}
      (hhigh : hexValue first = some high) (hlow : hexValue second = some low)
      (rest : Encodes bytes text) :
      Encodes (UInt8.ofNat (16 * high + low) :: bytes) ('%' :: first :: second :: text)

/-! ### The characters of such a text -/

theorem Unreserved.ascii {c : Char} (h : Unreserved c) : c.toNat < 128 := by
  unfold Unreserved Char.isAlphanum Char.isAlpha Char.isUpper Char.isLower Char.isDigit at h
  have hval : c.val.toNat = c.toNat := rfl
  simp only [Bool.or_eq_true, Bool.and_eq_true, decide_eq_true_eq, ge_iff_le,
    UInt32.le_iff_toNat_le, hval, List.mem_cons, List.not_mem_nil, or_false] at h
  rcases h with h | rfl | rfl | rfl | rfl
  · simp at h
    omega
  all_goals decide

theorem hexValue_ascii {c : Char} {n : ℕ} (h : hexValue c = some n) : c.toNat < 128 := by
  unfold hexValue at h
  have hval : c.val.toNat = c.toNat := rfl
  simp only [Char.le_def, UInt32.le_iff_toNat_le, hval] at h
  split_ifs at h with hdigit hlower hupper
  · exact Nat.lt_of_le_of_lt hdigit.2 (by decide)
  · exact Nat.lt_of_le_of_lt hlower.2 (by decide)
  · exact Nat.lt_of_le_of_lt hupper.2 (by decide)

theorem unreserved_of_hexValue {c : Char} {n : ℕ} (h : hexValue c = some n) : Unreserved c := by
  have hall : ∀ n < 128, (hexValue (Char.ofNat n)).isSome = true → Unreserved (Char.ofNat n) := by
    decide
  have hchar : Char.ofNat c.toNat = c := Char.ofNat_toNat c
  have hunreserved := hall c.toNat (hexValue_ascii h)
  rw [hchar, h] at hunreserved
  exact hunreserved rfl

variable {bytes : List UInt8} {text : List Char}

theorem Encodes.mem (h : Encodes bytes text) {c : Char} (hc : c ∈ text) :
    Unreserved c ∨ c = '%' := by
  induction h with
  | nil => exact absurd hc List.not_mem_nil
  | kept hd rest ih =>
    rcases List.mem_cons.mp hc with rfl | hc
    · exact .inl hd
    · exact ih hc
  | encoded hhigh hlow rest ih =>
    rcases List.mem_cons.mp hc with rfl | hc
    · exact .inr rfl
    rcases List.mem_cons.mp hc with rfl | hc
    · exact .inl (unreserved_of_hexValue hhigh)
    rcases List.mem_cons.mp hc with rfl | hc
    · exact .inl (unreserved_of_hexValue hlow)
    · exact ih hc

theorem Encodes.ascii (h : Encodes bytes text) {c : Char} (hc : c ∈ text) : c.toNat < 128 := by
  rcases h.mem hc with hc | rfl
  · exact hc.ascii
  · decide

/-- The characters that separate the parts of a query do not stand in such a text. -/
theorem Encodes.not_mem (h : Encodes bytes text) {c : Char} (hc : ¬ Unreserved c)
    (hpercent : c ≠ '%') : c ∉ text :=
  fun hmem ↦ (h.mem hmem).elim hc hpercent

/-! ### The bytes of such a text -/

theorem utf8_cons_of_ascii {c : Char} (hc : c.toNat < 128) (text : List Char) :
    utf8 (c :: text) = UInt8.ofNat c.toNat :: utf8 text := by
  have hsize : c.utf8Size = 1 := by
    rw [Char.utf8Size_eq_one_iff, UInt32.le_iff_toNat_le]
    exact Nat.le_of_lt_succ hc
  have hcons : utf8 (c :: text) = String.utf8EncodeChar c ++ utf8 text := rfl
  rw [hcons, String.utf8EncodeChar_eq_singleton hsize]
  rfl

theorem Encodes.length_le (h : Encodes bytes text) : bytes.length ≤ text.length := by
  induction h with
  | nil => exact le_rfl
  | kept hc rest ih => exact Nat.succ_le_succ ih
  | encoded hhigh hlow rest ih =>
    simp only [List.length_cons]
    omega

/-- A text that is as long as its bytes has no percent sign. -/
theorem Encodes.eq_of_length (h : Encodes bytes text) (hlength : text.length = bytes.length) :
    utf8 text = bytes := by
  induction h with
  | nil => rfl
  | kept hc rest ih =>
    rw [utf8_cons_of_ascii hc.ascii, ih (Nat.succ.inj hlength)]
  | encoded hhigh hlow rest ih =>
    have hle := rest.length_le
    simp only [List.length_cons] at hlength
    omega

theorem Encodes.length_utf8 (h : Encodes bytes text) : (utf8 text).length = text.length := by
  induction h with
  | nil => rfl
  | kept hc rest ih => rw [utf8_cons_of_ascii hc.ascii, List.length_cons, ih, List.length_cons]
  | encoded hhigh hlow rest ih =>
    rw [utf8_cons_of_ascii (by decide), utf8_cons_of_ascii (hexValue_ascii hhigh),
      utf8_cons_of_ascii (hexValue_ascii hlow)]
    simp only [List.length_cons, ih]

/-- A text of the same length is the text itself. -/
theorem Encodes.eq_self {plain : List Char} (h : Encodes (utf8 plain) text)
    (hlength : (utf8 text).length = (utf8 plain).length) : text = plain := by
  rw [h.length_utf8] at hlength
  have hbytes := congrArg fromUtf8 (h.eq_of_length hlength)
  rwa [fromUtf8_utf8, fromUtf8_utf8, Option.some_inj] at hbytes

/-! ### An encoding -/

/-- The text that has an unreserved character where it can, and lower-case digits elsewhere. -/
def percentEncode (bytes : List UInt8) : List Char :=
  bytes.flatMap fun b ↦
    if Unreserved (Char.ofNat b.toNat) then [Char.ofNat b.toNat]
    else ['%', hexDigit (b.toNat / 16), hexDigit (b.toNat % 16)]

theorem encodes_percentEncode (bytes : List UInt8) : Encodes bytes (percentEncode bytes) := by
  induction bytes with
  | nil => exact .nil
  | cons b bytes ih =>
    have hlt := b.toNat_lt
    have hcons : percentEncode (b :: bytes) =
        (if Unreserved (Char.ofNat b.toNat) then [Char.ofNat b.toNat]
          else ['%', hexDigit (b.toNat / 16), hexDigit (b.toNat % 16)]) ++
            percentEncode bytes := rfl
    rw [hcons]
    split_ifs with hc
    · have hvalid : b.toNat.isValidChar := Or.inl (by omega)
      have hnat : (Char.ofNat b.toNat).toNat = b.toNat := by
        rw [Char.ofNat, dif_pos hvalid]
        rfl
      have hkept := Encodes.kept hc ih
      rwa [hnat, UInt8.ofNat_toNat] at hkept
    · have hhigh := (hexDigit_spec (b.toNat / 16) (by omega)).1
      have hlow := (hexDigit_spec (b.toNat % 16) (by omega)).1
      have hencoded := Encodes.encoded hhigh hlow ih
      rwa [Nat.div_add_mod, UInt8.ofNat_toNat] at hencoded

end Lithair.Lib.PercentEncoding
