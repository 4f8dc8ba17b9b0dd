import Mathlib.Data.Int.Log
import Mathlib.Data.NNRat.Floor
import Mathlib.Tactic.Positivity

/-!
# Doubles

The values of the binary interchange format of 64 bits (`Binary64`), a finite one as its sign and
its magnitude, so that the two zeros differ. `nearest` rounds a magnitude to the nearest double,
ties to even, as reading a decimal does, and an integer below `2 ^ 53` is a double already
(`nearest_natCast`). `Binary64.decimals` is the shortest decimal that reads back as a magnitude.
-/

namespace Lithair.Lib

/-- A double. -/
inductive Binary64
  | nan
  | infinite (negative : Bool)
  | finite (negative : Bool) (magnitude : ℚ≥0)
  deriving DecidableEq

namespace Binary64

/-- Equality of doubles: a NaN is equal to nothing and the two zeros are equal. -/
def eq : Binary64 → Binary64 → Bool
  | infinite a, infinite b => a == b
  | finite a m, finite b n => m == n && (a == b || m == 0)
  | _, _ => false

def roundHalfEven (x : ℚ≥0) : ℕ :=
  let below := ⌊x⌋₊
  if x - below < 1 / 2 then below
  else if 1 / 2 < x - below then below + 1
  else below + below % 2

/-- The distance of the doubles around a magnitude. -/
def unit (x : ℚ≥0) : ℚ≥0 := 2 ^ max (Int.log 2 x - 52) (-1074)

/-- The double nearest to a magnitude with this sign. -/
def nearest (negative : Bool) (x : ℚ≥0) : Binary64 :=
  let rounded : ℚ≥0 := roundHalfEven (x / unit x) * unit x
  if rounded < 2 ^ 1024 then finite negative rounded else infinite negative

/-- The least number of places after the point with a decimal that reads back as a magnitude, and
the nearest such decimal without its point. -/
def decimals (magnitude : ℚ≥0) : Option (ℕ × ℕ) :=
  (List.range 1075).findSome? fun places ↦
    let scaled : ℚ≥0 := magnitude * 10 ^ places
    let below := ⌊scaled⌋₊
    let readsBack := fun decimal : ℕ ↦
      nearest false (decimal / 10 ^ places) = finite false magnitude
    if readsBack below ∧ (scaled - below ≤ 1 / 2 ∨ ¬ readsBack (below + 1)) then
      some (places, below)
    else if readsBack (below + 1) then some (places, below + 1)
    else none

theorem roundHalfEven_natCast (n : ℕ) : roundHalfEven n = n := by
  unfold roundHalfEven
  rw [Nat.floor_natCast]
  simp

/-- A natural number below `2 ^ 53` is rounded to itself. -/
theorem nearest_natCast (negative : Bool) {n : ℕ} (h : n < 2 ^ 53) :
    nearest negative n = finite negative n := by
  have hunit : ∃ places : ℕ, unit (n : ℚ≥0) = (2 ^ places)⁻¹ := by
    have hlog : Int.log 2 (n : ℚ≥0) < 53 := by
      rw [Int.log_natCast]
      have hlt := Nat.log_lt_of_lt_pow' (b := 2) (by decide : 53 ≠ 0) h
      exact_mod_cast hlt
    refine ⟨(-max (Int.log 2 (n : ℚ≥0) - 52) (-1074)).toNat, ?_⟩
    rw [unit, ← zpow_natCast, Int.toNat_of_nonneg (by omega), zpow_neg, inv_inv]
  obtain ⟨places, hplaces⟩ := hunit
  have hpow : (2 : ℚ≥0) ^ places ≠ 0 := by positivity
  have hscaled : (n : ℚ≥0) / unit n = ((n * 2 ^ places : ℕ) : ℚ≥0) := by
    rw [hplaces, div_inv_eq_mul]
    push_cast
    rfl
  have hrounded : (roundHalfEven ((n : ℚ≥0) / unit n) : ℚ≥0) * unit n = n := by
    rw [hscaled, roundHalfEven_natCast, hplaces]
    push_cast
    field_simp
  have hlarge : (n : ℚ≥0) < 2 ^ 1024 := by
    have hbound : (n : ℚ≥0) < 2 ^ 53 := by exact_mod_cast h
    exact lt_of_lt_of_le hbound (pow_le_pow_right₀ one_le_two (by decide))
  unfold nearest
  simp only [hrounded, if_pos hlarge]

/-! ### Order and distance -/

/-- The number that a finite double is. -/
def signed (negative : Bool) (magnitude : ℚ≥0) : ℚ := if negative then -magnitude else magnitude

def value : Binary64 → Option ℚ
  | finite negative magnitude => some (signed negative magnitude)
  | _ => none

/-- The order of doubles, in which a NaN has no place. -/
def partialCmp : Binary64 → Binary64 → Option Ordering
  | nan, _ | _, nan => none
  | infinite a, infinite b => some (compare b a)
  | infinite a, finite _ _ => some (if a then .lt else .gt)
  | finite _ _, infinite b => some (if b then .gt else .lt)
  | finite a m, finite b n => some (compare (signed a m) (signed b n))

/-- The absolute difference of two doubles, rounded. -/
def distance : Binary64 → Binary64 → Binary64
  | nan, _ | _, nan => nan
  | infinite a, infinite b => if a = b then nan else infinite false
  | infinite _, finite _ _ | finite _ _, infinite _ => infinite false
  | finite a m, finite b n => nearest false (Rat.nnabs (signed a m - signed b n))

/-- The absolute difference is less than `epsilon`. -/
def near (epsilon : ℚ≥0) (x y : Binary64) : Bool :=
  partialCmp (distance x y) (finite false epsilon) == some .lt

/-- The double with these bits: sign, exponent and fraction. -/
def ofBits (bits : UInt64) : Binary64 :=
  let negative := decide (2 ^ 63 ≤ bits.toNat)
  let exponent : ℕ := bits.toNat / 2 ^ 52 % 2 ^ 11
  let fraction : ℕ := bits.toNat % 2 ^ 52
  if exponent = 2047 then (if fraction = 0 then infinite negative else nan)
  else if exponent = 0 then finite negative ((fraction : ℚ≥0) * 2 ^ (-1074 : ℤ))
  else finite negative (((2 ^ 52 + fraction : ℕ) : ℚ≥0) * 2 ^ ((exponent : ℤ) - 1075))

/-- A double has a value if it is finite. -/
theorem value_eq_some_iff {x : Binary64} {q : ℚ} :
    x.value = some q ↔ ∃ negative magnitude, x = finite negative magnitude ∧
      signed negative magnitude = q := by
  cases x with
  | nan => exact iff_of_false nofun (by simp)
  | infinite negative => exact iff_of_false nofun (by simp)
  | finite negative magnitude =>
    constructor
    · intro h
      exact ⟨negative, magnitude, rfl, Option.some.inj h⟩
    · rintro ⟨other, size, hsame, rfl⟩
      obtain ⟨rfl, rfl⟩ := finite.inj hsame
      rfl

theorem partialCmp_of_value {x y : Binary64} {p q : ℚ} (hx : x.value = some p)
    (hy : y.value = some q) : partialCmp x y = some (compare p q) := by
  obtain ⟨a, m, rfl, rfl⟩ := value_eq_some_iff.mp hx
  obtain ⟨b, n, rfl, rfl⟩ := value_eq_some_iff.mp hy
  rfl

theorem nearest_eq_or (negative : Bool) (x : ℚ≥0) :
    nearest negative x = infinite negative ∨
      nearest negative x = finite negative (roundHalfEven (x / unit x) * unit x) := by
  unfold nearest
  simp only
  split_ifs
  · exact .inr rfl
  · exact .inl rfl

theorem near_iff {epsilon : ℚ≥0} {x y : Binary64} {p q : ℚ} (hx : x.value = some p)
    (hy : y.value = some q) :
    near epsilon x y = true ↔
      ∃ d < epsilon, nearest false (Rat.nnabs (p - q)) = finite false d := by
  obtain ⟨a, m, rfl, rfl⟩ := value_eq_some_iff.mp hx
  obtain ⟨b, n, rfl, rfl⟩ := value_eq_some_iff.mp hy
  have hdistance : distance (finite a m) (finite b n) =
      nearest false (Rat.nnabs (signed a m - signed b n)) := rfl
  rw [near, hdistance]
  rcases nearest_eq_or false (Rat.nnabs (signed a m - signed b n)) with h | h
  · have hlarge : partialCmp (infinite false) (finite false epsilon) = some .gt := rfl
    rw [h, hlarge]
    exact iff_of_false (by decide) (by simp)
  · rw [h]
    have hvalue : ∀ d : ℚ≥0, (finite false d).value = some (d : ℚ) := fun _ ↦ rfl
    rw [partialCmp_of_value (hvalue _) (hvalue _), beq_iff_eq, Option.some_inj, compare_lt_iff_lt]
    constructor
    · intro hlt
      exact ⟨_, by exact_mod_cast hlt, rfl⟩
    · rintro ⟨d, hd, hsame⟩
      rw [(finite.inj hsame).2]
      exact_mod_cast hd

theorem floor_le_roundHalfEven (x : ℚ≥0) : ⌊x⌋₊ ≤ roundHalfEven x := by
  unfold roundHalfEven
  simp only
  split_ifs <;> omega

theorem unit_pos (x : ℚ≥0) : 0 < unit x := zpow_pos two_pos _

/-- A magnitude from one on is not rounded to less than one. -/
theorem one_le_rounded {x : ℚ≥0} (h : 1 ≤ x) :
    1 ≤ (roundHalfEven (x / unit x) : ℚ≥0) * unit x := by
  have hlog : 0 ≤ Int.log 2 x := by
    have hmono := Int.log_mono_right (b := 2) one_pos h
    rwa [Int.log_one_right] at hmono
  have hunit : unit x = 2 ^ (Int.log 2 x - 52) := by
    rw [unit, max_eq_left (by omega)]
  have hsplit : (2 : ℚ≥0) ^ Int.log 2 x = ((2 ^ 52 : ℕ) : ℚ≥0) * unit x := by
    rw [hunit, zpow_sub₀ two_ne_zero]
    push_cast
    field_simp
    norm_cast
  have hquotient : ((2 ^ 52 : ℕ) : ℚ≥0) ≤ x / unit x := by
    rw [le_div_iff₀ (unit_pos x), ← hsplit]
    exact Int.zpow_log_le_self one_lt_two (one_pos.trans_le h)
  have hround : ((2 ^ 52 : ℕ) : ℚ≥0) ≤ roundHalfEven (x / unit x) := by
    exact_mod_cast (Nat.le_floor hquotient).trans (floor_le_roundHalfEven _)
  calc (1 : ℚ≥0) ≤ 2 ^ Int.log 2 x := one_le_zpow₀ one_le_two hlog
    _ = ((2 ^ 52 : ℕ) : ℚ≥0) * unit x := hsplit
    _ ≤ roundHalfEven (x / unit x) * unit x := mul_le_mul_of_nonneg_right hround (unit_pos x).le

/-- Doubles with different whole values are not near each other. -/
theorem eq_of_near {epsilon : ℚ≥0} (hepsilon : epsilon ≤ 1) {x y : Binary64} {p q : ℤ}
    (hx : x.value = some (p : ℚ)) (hy : y.value = some (q : ℚ)) (h : near epsilon x y = true) :
    p = q := by
  obtain ⟨d, hd, hnearest⟩ := (near_iff hx hy).mp h
  have hlt : Rat.nnabs ((p : ℚ) - q) < 1 := by
    by_contra hle
    have hone := one_le_rounded (not_lt.mp hle)
    rcases nearest_eq_or false (Rat.nnabs ((p : ℚ) - q)) with hrounded | hrounded
    · rw [hrounded] at hnearest
      nomatch hnearest
    · rw [hrounded] at hnearest
      rw [(finite.inj hnearest).2] at hone
      exact absurd (hone.trans_lt hd) (not_lt.mpr hepsilon)
  have habs : |(p : ℚ) - q| < 1 := by
    have hcoe : ((Rat.nnabs ((p : ℚ) - q) : ℚ≥0) : ℚ) < 1 := by exact_mod_cast hlt
    simpa using hcoe
  have hint : |p - q| < 1 := by exact_mod_cast habs
  exact sub_eq_zero.mp (Int.abs_lt_one_iff.mp hint)

/-- Doubles with the same value are near each other. -/
theorem near_of_value {epsilon : ℚ≥0} (hepsilon : 0 < epsilon) {x y : Binary64} {q : ℚ}
    (hx : x.value = some q) (hy : y.value = some q) : near epsilon x y = true := by
  refine (near_iff hx hy).mpr ⟨0, hepsilon, ?_⟩
  have hzero : nearest false ((0 : ℕ) : ℚ≥0) = finite false ((0 : ℕ) : ℚ≥0) :=
    nearest_natCast false (by decide)
  have habs : Rat.nnabs (q - q) = ((0 : ℕ) : ℚ≥0) := by
    rw [sub_self]
    rfl
  rw [habs]
  simpa using hzero

theorem eq_self_of_finite (negative : Bool) (magnitude : ℚ≥0) :
    eq (finite negative magnitude) (finite negative magnitude) = true := by
  simp [eq]

end Binary64

end Lithair.Lib
