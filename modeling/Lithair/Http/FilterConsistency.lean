import Lithair.Http.SortOrder

/-!
# Filter operations among themselves

`matches_filter` in `http/query.rs` has one function for equality and one for the order, each with
cases of its own for the kinds of values. Filters on one field and one text are meant to agree
(`Consistent`): `>=` is `>` or `=`, at most one of `<`, `=` and `>` holds, and `!=` is the opposite
of `=`. They do where the two functions agree on equality (`filters_consistent_iff`), which leaves
out `null` with its own text (`not_consistent_null`) and a number with a text so close to it that it
is taken for equal.
-/

namespace Lithair.Http

open Lithair.Lib Lithair.Lib.DoubleText

section Filters

variable (ops : QueryOps) (item : Json) (field target : String)

/-- The item passes the filter with this operation. -/
def Passes (op : FilterOp) : Prop := matchesFilter ops item ⟨field, op, target⟩ = true

/-- The operations agree on the item. -/
structure Consistent : Prop where
  gte : Passes ops item field target .gte ↔
    Passes ops item field target .gt ∨ Passes ops item field target .eq
  lte : Passes ops item field target .lte ↔
    Passes ops item field target .lt ∨ Passes ops item field target .eq
  not_lt_eq : ¬ (Passes ops item field target .lt ∧ Passes ops item field target .eq)
  not_lt_gt : ¬ (Passes ops item field target .lt ∧ Passes ops item field target .gt)
  not_eq_gt : ¬ (Passes ops item field target .eq ∧ Passes ops item field target .gt)
  ne : Passes ops item field target .ne ↔
    (item.get field).isSome = true ∧ ¬ Passes ops item field target .eq

/-- The field is not `null` with a text that stands for it. -/
def NotNullText : Prop := item.get field = some .null → target ≠ "" ∧ target ≠ "null"

/-- Nor is it a number with the text of another number within `f64::EPSILON`. -/
def NotNearText : Prop :=
  ∀ n t, item.get field = some (.number n) → parseDouble target.toList = some t →
    Binary64.near epsilon n.asF64 t = true → t.value = n.value

variable {ops item field target}

section Present

variable {value : Json} (h : item.get field = some value)

include h

theorem passes_eq_iff : Passes ops item field target .eq ↔ valueEquals ops value target = true := by
  unfold Passes matchesFilter
  rw [h]

theorem passes_ne_iff :
    Passes ops item field target .ne ↔ ¬ valueEquals ops value target = true := by
  unfold Passes matchesFilter
  rw [h]
  simp

theorem passes_gt_iff :
    Passes ops item field target .gt ↔ valueCompare ops value target = some .gt := by
  unfold Passes matchesFilter
  rw [h]
  exact beq_iff_eq

theorem passes_lt_iff :
    Passes ops item field target .lt ↔ valueCompare ops value target = some .lt := by
  unfold Passes matchesFilter
  rw [h]
  exact beq_iff_eq

theorem passes_gte_iff :
    Passes ops item field target .gte ↔ (valueCompare ops value target).any (· != .lt) = true := by
  unfold Passes matchesFilter
  rw [h]

theorem passes_lte_iff :
    Passes ops item field target .lte ↔ (valueCompare ops value target).any (· != .gt) = true := by
  unfold Passes matchesFilter
  rw [h]

/-- Equality and order have to say the same of equality. -/
theorem consistent_iff_eq :
    Consistent ops item field target ↔
      (valueEquals ops value target = true ↔ valueCompare ops value target = some .eq) := by
  constructor
  · intro hconsistent
    have hgte := hconsistent.gte
    have hlt := hconsistent.not_lt_eq
    have hgt := hconsistent.not_eq_gt
    rw [passes_gte_iff h, passes_gt_iff h, passes_eq_iff h] at hgte
    rw [passes_lt_iff h, passes_eq_iff h] at hlt
    rw [passes_eq_iff h, passes_gt_iff h] at hgt
    generalize valueCompare ops value target = cmp at hgte hlt hgt
    rcases cmp with _ | _ | _ | _ <;> simp_all
  · intro hiff
    constructor
    all_goals simp only [passes_eq_iff h, passes_ne_iff h, passes_gt_iff h, passes_lt_iff h,
      passes_gte_iff h, passes_lte_iff h, h, Option.isSome_some, true_and, hiff]
    all_goals rcases valueCompare ops value target with _ | _ | _ | _ <;> simp

end Present

theorem consistent_of_none (h : item.get field = none) : Consistent ops item field target := by
  have hpasses : ∀ op, ¬ Passes ops item field target op := by
    intro op
    simp [Passes, matchesFilter, h]
  constructor
  all_goals simp [hpasses, h]

/-! ### Kind by kind -/

theorem partialCmp_eq_iff {x t : Binary64} {q : ℚ} (hx : x.value = some q) :
    x.partialCmp t = some .eq ↔ t.value = x.value := by
  obtain ⟨negative, magnitude, rfl, rfl⟩ := Binary64.value_eq_some_iff.mp hx
  cases t with
  | nan => exact iff_of_false nofun nofun
  | infinite b => exact iff_of_false (by cases b <;> nofun) nofun
  | finite b n =>
    have hvalue : (Binary64.finite b n).value = some (Binary64.signed b n) := rfl
    rw [Binary64.partialCmp_of_value hx hvalue, Option.some_inj, compare_eq_iff_eq, hx, hvalue,
      Option.some_inj, eq_comm]

theorem epsilon_pos : 0 < epsilon := by
  unfold epsilon
  positivity

theorem valueEquals_number (n : Number) :
    valueEquals ops.withDoubles (.number n) target =
      (parseDouble target.toList).elim (ops.withDoubles.numberText n == target)
        (Binary64.near epsilon n.asF64) := by
  unfold valueEquals QueryOps.withDoubles
  simp only
  cases parseDouble target.toList with
  | none => rfl
  | some t => rfl

theorem valueCompare_number (n : Number) :
    valueCompare ops.withDoubles (.number n) target =
      (parseDouble target.toList).bind n.asF64.partialCmp := rfl

/-- A number with a text that is read as one. -/
theorem valueEquals_iff_of_text {n : Number} {t : Binary64} (hwhole : n.IsWhole)
    (ht : parseDouble target.toList = some t) :
    (valueEquals ops.withDoubles (.number n) target = true ↔
        valueCompare ops.withDoubles (.number n) target = some .eq) ↔
      (Binary64.near epsilon n.asF64 t = true → t.value = n.value) := by
  obtain ⟨-, q, hq⟩ : n.IsWhole ∧ ∃ q : ℚ, n.value = some q := by
    obtain ⟨z, hz, hvalue⟩ := hwhole
    exact ⟨⟨z, hz, hvalue⟩, z, hvalue⟩
  have hx : n.asF64.value = some q := hwhole.value_asF64.trans hq
  have hequals : valueEquals ops.withDoubles (.number n) target =
      Binary64.near epsilon n.asF64 t := by
    rw [valueEquals_number, ht, Option.elim_some]
  have hcompare : valueCompare ops.withDoubles (.number n) target = n.asF64.partialCmp t := by
    rw [valueCompare_number, ht, Option.bind_some]
  rw [hequals, hcompare, partialCmp_eq_iff hx, hwhole.value_asF64]
  refine ⟨Iff.mp, fun hnear ↦ ⟨hnear, fun hsame ↦ ?_⟩⟩
  exact Binary64.near_of_value epsilon_pos hx (hsame.trans hq)

/-- The digits of a number are read as one, so that it has not the text of anything else. -/
theorem valueEquals_of_no_text {n : Number} (ht : parseDouble target.toList = none)
    (htext : (parseDouble (ops.withDoubles.numberText n).toList).isSome = true) :
    valueEquals ops.withDoubles (.number n) target = false ∧
      valueCompare ops.withDoubles (.number n) target = none := by
  constructor
  · have hequals : valueEquals ops.withDoubles (.number n) target =
        (ops.withDoubles.numberText n == target) := by
      rw [valueEquals_number, ht, Option.elim_none]
    rw [hequals, beq_eq_false_iff_ne]
    rintro rfl
    rw [ht] at htext
    exact Bool.false_ne_true htext
  · rw [valueCompare_number, ht, Option.bind_none]

theorem isSome_parseDouble_numberText {n : Number}
    (hfloat : ∀ bits, n = .float bits →
      (parseDouble (ops.numberText (.float bits)).toList).isSome = true) :
    (parseDouble (ops.withDoubles.numberText n).toList).isSome = true := by
  cases n with
  | posInt n => exact isSome_parseDouble_toString n.toNat
  | negInt n => exact isSome_parseDouble_toString n.toInt
  | float bits => exact hfloat bits rfl

/-- Values of the other kinds are compared in one way. -/
theorem valueEquals_iff_of_kind {value : Json} (hnull : value ≠ .null)
    (hnumber : ∀ n, value ≠ .number n) :
    valueEquals ops value target = true ↔ valueCompare ops value target = some .eq := by
  cases value with
  | null => exact absurd rfl hnull
  | number n => exact absurd rfl (hnumber n)
  | string s =>
    simp [valueEquals, valueCompare]
  | bool b =>
    show ((target == "true" && b) || (target == "false" && !b)) = true ↔
      (if target = "true" then some (compare b true)
        else if target = "false" then some (compare b false) else none) = some .eq
    by_cases htrue : target = "true"
    · subst htrue
      cases b <;> decide
    · by_cases hfalse : target = "false"
      · subst hfalse
        cases b <;> decide
      · simp [htrue, hfalse]
  | array items => exact iff_of_false nofun nofun
  | object fields => exact iff_of_false nofun nofun

/-! ### Where the operations agree -/

/-- For `null` the operations agree on every text but its own, for a number on every text that is
read as the same number or as one that is not within `f64::EPSILON`, and for other values on all
texts. Among texts of whole numbers there is none so close. -/
theorem filters_consistent_iff (hwhole : ∀ value, item.get field = some value → Whole value)
    (hfloat : ∀ bits, item.get field = some (.number (.float bits)) →
      (parseDouble (ops.numberText (.float bits)).toList).isSome = true) :
    (Consistent ops.withDoubles item field target ↔
      NotNullText item field target ∧ NotNearText item field target) ∧
    ((∀ t, parseDouble target.toList = some t → ∃ z : ℤ, t.value = some (z : ℚ)) →
      (Consistent ops.withDoubles item field target ↔ NotNullText item field target)) := by
  have hall : Consistent ops.withDoubles item field target ↔
      NotNullText item field target ∧ NotNearText item field target := by
    cases hvalue : item.get field with
    | none =>
      refine iff_of_true (consistent_of_none hvalue) ⟨fun h ↦ ?_, fun n t h ↦ ?_⟩
      · rw [hvalue] at h
        nomatch h
      · rw [hvalue] at h
        nomatch h
    | some value =>
      rw [consistent_iff_eq hvalue, NotNullText, NotNearText, hvalue]
      by_cases hnull : value = .null
      · subst hnull
        simp [valueEquals, valueCompare, not_or, and_comm]
      by_cases hnumber : ∃ n, value = .number n
      · obtain ⟨n, rfl⟩ := hnumber
        cases ht : parseDouble target.toList with
        | some t =>
          rw [valueEquals_iff_of_text (hwhole _ hvalue n rfl) ht]
          simp
        | none =>
          obtain ⟨hequals, hcompare⟩ := valueEquals_of_no_text ht
            (isSome_parseDouble_numberText fun bits hbits ↦ hfloat bits (hbits ▸ hvalue))
          simp [hequals, hcompare]
      · rw [not_exists] at hnumber
        refine iff_of_true (valueEquals_iff_of_kind hnull hnumber) ⟨fun h ↦ ?_, fun n t h ↦ ?_⟩
        · exact absurd (Option.some.inj h) hnull
        · exact absurd (Option.some.inj h) (hnumber n)
  refine ⟨hall, fun htext ↦ ?_⟩
  rw [hall, and_iff_left_iff_imp]
  intro _ n t hvalue ht hnear
  obtain ⟨z, hz⟩ := htext t ht
  obtain ⟨m, hm, hn⟩ := hwhole _ hvalue n rfl
  have hepsilon : epsilon ≤ 1 := by
    unfold epsilon
    exact div_le_one_of_le₀ (one_le_pow₀ one_le_two) (by positivity)
  have hx : n.asF64.value = some (m : ℚ) := ((hwhole _ hvalue n rfl).value_asF64).trans hn
  rw [hn, hz, Binary64.eq_of_near hepsilon hx hz hnear]

theorem filters_consistent_iff_text :
    Consistent wholeNumbers.withDoubles (.object [("name", .string "b")]) "name" "a" :=
  (@filters_consistent_iff wholeNumbers (.object [("name", .string "b")]) "name" "a"
    (by rintro value ⟨⟩ n ⟨⟩) (by rintro bits ⟨⟩)).1.mpr
    ⟨by rintro ⟨⟩, by rintro n t ⟨⟩⟩

/-- A field that is `null` has the text of `null`, and is not greater than or equal to it. -/
theorem not_consistent_null :
    Passes wholeNumbers.withDoubles (.object [("name", .null)]) "name" "null" .eq ∧
      ¬ Passes wholeNumbers.withDoubles (.object [("name", .null)]) "name" "null" .gte ∧
      ¬ Consistent wholeNumbers.withDoubles (.object [("name", .null)]) "name" "null" := by
  have heq : Passes wholeNumbers.withDoubles (.object [("name", .null)]) "name" "null" .eq := rfl
  have hgte : ¬ Passes wholeNumbers.withDoubles (.object [("name", .null)]) "name" "null" .gte :=
    nofun
  exact ⟨heq, hgte, fun h ↦ hgte (h.gte.mpr (.inr heq))⟩

end Filters

end Lithair.Http
