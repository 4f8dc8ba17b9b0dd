import Lithair.Lib.Binary64
import Mathlib.Data.List.TakeWhile

/-!
# Texts of doubles

What a text is read as when a double is expected: a number in decimal digits, with a point and an
exponent of ten where they are wanted, or one of the words for what is no number, with a sign in
front. A whole number in its digits is always read (`parseDouble_digits`).
-/

namespace Lithair.Lib.DoubleText

/-- The number of digits with an optional sign. -/
def parseSigned (digits : List Char) : Option ℤ :=
  let (negative, digits) := match digits with
    | '-' :: rest => (true, rest)
    | '+' :: rest => (false, rest)
    | digits => (false, digits)
  if digits = [] ∨ digits.all Char.isDigit = false then none
  else
    let number : ℤ := Nat.ofDigitChars 10 digits 0
    some (if negative then -number else number)

/-- What is behind the digits: nothing, or an exponent. -/
def parseExponent : List Char → Option ℤ
  | [] => some 0
  | mark :: rest => if mark = 'e' ∨ mark = 'E' then parseSigned rest else none

/-- The digits behind a point, if there is one, and the rest. -/
def splitFraction : List Char → List Char × List Char
  | '.' :: rest => (rest.takeWhile Char.isDigit, rest.dropWhile Char.isDigit)
  | rest => ([], rest)

/-- A text without a sign. -/
def parseUnsigned (negative : Bool) (text : List Char) : Option Binary64 :=
  let word := text.map Char.toLower
  if word = "inf".toList ∨ word = "infinity".toList then some (.infinite negative)
  else if word = "nan".toList then some .nan
  else
    let whole := text.takeWhile Char.isDigit
    let (fraction, rest) := splitFraction (text.dropWhile Char.isDigit)
    if whole ++ fraction = [] then none
    else (parseExponent rest).map fun exponent : ℤ ↦
      .nearest negative ((Nat.ofDigitChars 10 (whole ++ fraction) 0 : ℚ≥0) *
        ((10 : ℕ) : ℚ≥0) ^ (exponent - fraction.length))

/-- The double nearest to the number in a text. -/
def parseDouble : List Char → Option Binary64
  | '-' :: rest => parseUnsigned true rest
  | '+' :: rest => parseUnsigned false rest
  | text => parseUnsigned false text

theorem isDigit_of_mem_toDigits {n : ℕ} {c : Char} (h : c ∈ Nat.toDigits 10 n) :
    c.isDigit = true := Nat.isDigit_of_mem_toDigits (by decide) (by decide) h

/-- No word begins with a digit. -/
theorem toLower_of_isDigit {c : Char} (h : c.isDigit = true) :
    c.toLower ≠ 'i' ∧ c.toLower ≠ 'n' := by
  have hall : ∀ k < 58, (Char.ofNat k).isDigit = true →
      (Char.ofNat k).toLower ≠ 'i' ∧ (Char.ofNat k).toLower ≠ 'n' := by
    decide
  have hchar : Char.ofNat c.toNat = c := Char.ofNat_toNat c
  have hlt : c.toNat < 58 := by
    simp only [Char.isDigit, Bool.and_eq_true, decide_eq_true_eq, UInt32.le_iff_toNat_le] at h
    exact Nat.lt_succ_of_le h.2
  have hdigit := hall c.toNat hlt
  rw [hchar] at hdigit
  exact hdigit h

theorem parseUnsigned_digits (negative : Bool) (n : ℕ) :
    parseUnsigned negative (Nat.toDigits 10 n) = some (.nearest negative n) := by
  have hdigits : ∀ c ∈ Nat.toDigits 10 n, c.isDigit = true := fun c ↦ isDigit_of_mem_toDigits
  have htake : (Nat.toDigits 10 n).takeWhile Char.isDigit = Nat.toDigits 10 n :=
    List.takeWhile_eq_self_iff.mpr hdigits
  have hdrop : (Nat.toDigits 10 n).dropWhile Char.isDigit = [] :=
    List.dropWhile_eq_nil_iff.mpr hdigits
  obtain ⟨c, digits, hcons⟩ := List.exists_cons_of_ne_nil (@Nat.toDigits_ne_nil n 10)
  obtain ⟨hi, hn⟩ := toLower_of_isDigit (hdigits c (hcons ▸ List.mem_cons_self))
  have hword : ∀ first rest, c.toLower ≠ first →
      (Nat.toDigits 10 n).map Char.toLower ≠ first :: rest := by
    intro first rest hfirst heq
    rw [hcons, List.map_cons] at heq
    exact hfirst (List.cons.inj heq).1
  have hread : Nat.ofDigitChars 10 (Nat.toDigits 10 n) 0 = n := Nat.ofDigitChars_ten_toDigits
  have hinf : (Nat.toDigits 10 n).map Char.toLower ≠ "inf".toList := hword 'i' ['n', 'f'] hi
  have hinfinity : (Nat.toDigits 10 n).map Char.toLower ≠ "infinity".toList :=
    hword 'i' ['n', 'f', 'i', 'n', 'i', 't', 'y'] hi
  have hnan : (Nat.toDigits 10 n).map Char.toLower ≠ "nan".toList := hword 'n' ['a', 'n'] hn
  unfold parseUnsigned
  simp only [htake, hdrop, splitFraction, List.append_nil, hread]
  rw [if_neg (not_or.mpr ⟨hinf, hinfinity⟩), if_neg hnan, if_neg Nat.toDigits_ne_nil,
    parseExponent, Option.map_some]
  simp

/-- A whole number is read as the double nearest to it. -/
theorem parseDouble_digits (n : ℕ) :
    parseDouble (Nat.toDigits 10 n) = some (.nearest false n) ∧
      parseDouble ('-' :: Nat.toDigits 10 n) = some (.nearest true n) := by
  refine ⟨?_, parseUnsigned_digits true n⟩
  unfold parseDouble
  split
  · next rest heq =>
    have hmem : '-' ∈ Nat.toDigits 10 n := heq ▸ List.mem_cons_self
    exact absurd (isDigit_of_mem_toDigits hmem) (by decide)
  · next rest heq =>
    have hmem : '+' ∈ Nat.toDigits 10 n := heq ▸ List.mem_cons_self
    exact absurd (isDigit_of_mem_toDigits hmem) (by decide)
  · exact parseUnsigned_digits false n

end Lithair.Lib.DoubleText
