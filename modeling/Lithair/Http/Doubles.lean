import Lithair.Http.Query
import Lithair.Lib.DoubleText

/-!
# The doubles of a query

The operations of queries with the doubles of 64 bits for numbers (`QueryOps.withDoubles`): `as_f64`
and the digits of a JSON number, `parse::<f64>` for a text, `partial_cmp`, and `f64::EPSILON`. A
whole number below `2 ^ 53` is a double, so that such numbers are compared as what they are
(`Number.partialCmp_asF64`), and its digits are read as a number.
-/

namespace Lithair.Lib

open DoubleText

namespace Number

/-- `as_f64`. -/
def asF64 : Number → Binary64
  | posInt n => .nearest false n.toNat
  | negInt n => .nearest (decide (n.toInt < 0)) n.toInt.natAbs
  | float bits => .ofBits bits

/-- The number that it is, if it is one. -/
def value : Number → Option ℚ
  | posInt n => some n.toNat
  | negInt n => some n.toInt
  | float bits => (Binary64.ofBits bits).value

/-- A whole number below `2 ^ 53`. -/
def IsWhole (n : Number) : Prop := ∃ z : ℤ, z.natAbs < 2 ^ 53 ∧ n.value = some (z : ℚ)

theorem value_nearest (negative : Bool) {n : ℕ} (hn : n < 2 ^ 53) :
    (Binary64.nearest negative n).value = some (Binary64.signed negative n) := by
  rw [Binary64.nearest_natCast negative hn]
  rfl

/-- A whole number is a double. -/
theorem IsWhole.value_asF64 {n : Number} (h : n.IsWhole) : n.asF64.value = n.value := by
  obtain ⟨z, hz, hvalue⟩ := h
  cases n with
  | posInt n =>
    have hn : ((n.toNat : ℤ) : ℚ) = z := Option.some.inj hvalue
    have hnz : (n.toNat : ℤ) = z := by exact_mod_cast hn
    rw [asF64, value_nearest false (by omega)]
    rfl
  | negInt n =>
    have hn : (n.toInt : ℚ) = z := Option.some.inj hvalue
    have hnz : n.toInt = z := by exact_mod_cast hn
    rw [asF64, value_nearest _ (by omega), value, Option.some_inj, Binary64.signed]
    have habs : ((n.toInt.natAbs : ℚ≥0) : ℚ) = ((n.toInt.natAbs : ℤ) : ℚ) :=
      (NNRat.cast_natCast _).trans (Int.cast_natCast _).symm
    rw [habs]
    split_ifs with hneg
    · rw [decide_eq_true_eq] at hneg
      have hnat : (n.toInt.natAbs : ℤ) = -n.toInt := by omega
      rw [hnat]
      push_cast
      ring
    · rw [decide_eq_true_eq] at hneg
      have hnat : (n.toInt.natAbs : ℤ) = n.toInt := by omega
      rw [hnat]
  | float bits => rfl

theorem partialCmp_asF64 {a b : Number} {p q : ℚ} (ha : a.IsWhole) (hb : b.IsWhole)
    (hp : a.value = some p) (hq : b.value = some q) :
    Binary64.partialCmp a.asF64 b.asF64 = some (compare p q) :=
  Binary64.partialCmp_of_value (ha.value_asF64.trans hp) (hb.value_asF64.trans hq)

end Number

/-- The digits of an integer are read as a number. -/
theorem DoubleText.isSome_parseDouble_toString (z : ℤ) :
    (parseDouble (toString z).toList).isSome = true := by
  cases z with
  | ofNat n =>
    have htext : (toString (Int.ofNat n)).toList = Nat.toDigits 10 n := Nat.toList_repr
    rw [htext, (parseDouble_digits n).1]
    rfl
  | negSucc n =>
    have htext : (toString (Int.negSucc n)).toList = '-' :: Nat.toDigits 10 (n + 1) := by
      show ("-" ++ (n + 1).repr).toList = _
      rw [String.toList_append, Nat.toList_repr]
      rfl
    rw [htext, (parseDouble_digits (n + 1)).2]
    rfl

end Lithair.Lib

namespace Lithair.Http

open Lithair.Lib Lithair.Lib.DoubleText

/-- `f64::EPSILON`. -/
def epsilon : ℚ≥0 := 1 / ((2 : ℕ) : ℚ≥0) ^ 52

/-- The same operations with doubles for numbers. The text of a number that is not an integer is
left as it is. -/
def QueryOps.withDoubles (ops : QueryOps) : QueryOps :=
  { ops with
    Double := Binary64
    ofNumber := fun n ↦ some (n.asF64)
    ofText := fun text ↦ parseDouble text.toList
    zero := .finite false 0
    partialCmp := Binary64.partialCmp
    near := Binary64.near epsilon
    numberText := fun n ↦
      match n with
      | .posInt n => toString n.toNat
      | .negInt n => toString n.toInt
      | .float bits => ops.numberText (.float bits) }

end Lithair.Http
