import Lithair.Http.Doubles

/-!
# The order of a sorted list

`compare_json_values` in `http/query.rs`, by which `handle_list` sorts. It orders values of one
kind, with `null` in front, and takes values of different kinds for equal. What a sort needs of it
(`OrdersOn`) it has on the values of one kind and `null`, or where all values of a kind are the same
(`ordersOn_iff_comparable`): a value between two others that it is taken for equal to makes those
two equal and different (`not_ordersOn_mixed`).
-/

namespace Lithair.Http

open Lithair.Lib

/-! ### Comparators -/

/-- On these values the comparator is that of a total preorder. -/
structure OrdersOn {α : Type*} (cmp : α → α → Ordering) (values : Set α) : Prop where
  eq_swap : ∀ a ∈ values, ∀ b ∈ values, cmp b a = (cmp a b).swap
  isLE_trans : ∀ a ∈ values, ∀ b ∈ values, ∀ c ∈ values,
    (cmp a b).isLE = true → (cmp b c).isLE = true → (cmp a c).isLE = true

section Comparators

variable {α β : Type*} {cmp : α → α → Ordering} {values : Set α}

theorem OrdersOn.swap (h : OrdersOn cmp values) :
    OrdersOn (fun a b ↦ (cmp a b).swap) values where
  eq_swap a ha b hb := congrArg Ordering.swap (h.eq_swap a ha b hb)
  isLE_trans a ha b hb c hc hab hbc := by
    rw [← h.eq_swap a ha b hb] at hab
    rw [← h.eq_swap b hb c hc] at hbc
    show (cmp a c).swap.isLE = true
    rw [← h.eq_swap a ha c hc]
    exact h.isLE_trans c hc b hb a ha hbc hab

theorem ordersOn_swap_iff : OrdersOn (fun a b ↦ (cmp a b).swap) values ↔ OrdersOn cmp values := by
  refine ⟨fun h ↦ ?_, OrdersOn.swap⟩
  have htwice := h.swap
  simp only [Ordering.swap_swap] at htwice
  exact htwice

/-- Values that are compared by what they are mapped to. -/
theorem ordersOn_image_iff {f : β → α} {others : Set β} :
    OrdersOn (fun a b ↦ cmp (f a) (f b)) others ↔ OrdersOn cmp (f '' others) := by
  constructor
  · intro h
    refine ⟨?_, ?_⟩
    · rintro _ ⟨a, ha, rfl⟩ _ ⟨b, hb, rfl⟩
      exact h.eq_swap a ha b hb
    · rintro _ ⟨a, ha, rfl⟩ _ ⟨b, hb, rfl⟩ _ ⟨c, hc, rfl⟩
      exact h.isLE_trans a ha b hb c hc
  · intro h
    have hmem : ∀ a ∈ others, f a ∈ f '' others := fun a ha ↦ ⟨a, ha, rfl⟩
    exact ⟨fun a ha b hb ↦ h.eq_swap _ (hmem a ha) _ (hmem b hb),
      fun a ha b hb c hc ↦ h.isLE_trans _ (hmem a ha) _ (hmem b hb) _ (hmem c hc)⟩

end Comparators

/-! ### What is compared -/

inductive Kind
  | null | bool | number | string | array | object
  deriving DecidableEq

def kind : Json → Kind
  | .null => .null
  | .bool _ => .bool
  | .number _ => .number
  | .string _ => .string
  | .array _ => .array
  | .object _ => .object

/-- If both are numbers, or texts, or truth values, they are the same. -/
def SameValue : Json → Json → Prop
  | .number a, .number b => a.value = b.value
  | .string a, .string b => a = b
  | .bool a, .bool b => a = b
  | _, _ => True

/-- Besides `null`, all values are of one kind, or all values of a kind are the same. -/
def Comparable (values : Set Json) : Prop :=
  (∀ a ∈ values, ∀ b ∈ values, a ≠ .null → b ≠ .null → kind a = kind b) ∨
    ∀ a ∈ values, ∀ b ∈ values, SameValue a b

/-- If the value is a number, it is a whole one. -/
def Whole (value : Json) : Prop := ∀ n, value = .number n → n.IsWhole

/-- What an item is sorted by. -/
def SortSpec.fieldValue (sort : SortSpec) (item : Json) : Json := (item.get sort.field).getD .null

section Compare

variable {ops : QueryOps} {a b c : Json}

theorem exists_value_of_whole {n : Number} (h : Whole (.number n)) :
    n.IsWhole ∧ ∃ q : ℚ, n.value = some q := by
  obtain ⟨z, hz, hvalue⟩ := h n rfl
  exact ⟨⟨z, hz, hvalue⟩, z, hvalue⟩

theorem compareJsonValues_number {m n : Number} {p q : ℚ} (hm : m.IsWhole) (hn : n.IsWhole)
    (hp : m.value = some p) (hq : n.value = some q) :
    compareJsonValues ops.withDoubles (.number m) (.number n) = compare p q := by
  have hcmp := Number.partialCmp_asF64 hm hn hp hq
  show (Binary64.partialCmp m.asF64 n.asF64).getD .eq = compare p q
  rw [hcmp]
  rfl

theorem compareJsonValues_swap (ha : Whole a) (hb : Whole b) :
    compareJsonValues ops.withDoubles b a = (compareJsonValues ops.withDoubles a b).swap := by
  cases a with
  | number m =>
    cases b with
    | number n =>
      obtain ⟨hm, p, hp⟩ := exists_value_of_whole ha
      obtain ⟨hn, q, hq⟩ := exists_value_of_whole hb
      rw [compareJsonValues_number hm hn hp hq, compareJsonValues_number hn hm hq hp]
      exact Std.OrientedCmp.eq_swap
    | _ => rfl
  | string s =>
    cases b with
    | string t =>
      show compare t s = (compare s t).swap
      exact Std.OrientedCmp.eq_swap
    | _ => rfl
  | bool s =>
    cases b with
    | bool t =>
      show compare t s = (compare s t).swap
      exact Std.OrientedCmp.eq_swap
    | _ => rfl
  | null => cases b <;> rfl
  | array items => cases b <;> rfl
  | object fields => cases b <;> rfl

/-- Of values that are not `null`, those that are not the same are comparable by more than that they
are equal. -/
theorem compareJsonValues_eq_iff (ha : Whole a) (hb : Whole b) (hanull : a ≠ .null)
    (hbnull : b ≠ .null) : compareJsonValues ops.withDoubles a b = .eq ↔ SameValue a b := by
  cases a with
  | null => exact absurd rfl hanull
  | number m =>
    cases b with
    | null => exact absurd rfl hbnull
    | number n =>
      obtain ⟨hm, p, hp⟩ := exists_value_of_whole ha
      obtain ⟨hn, q, hq⟩ := exists_value_of_whole hb
      rw [compareJsonValues_number hm hn hp hq, compare_eq_iff_eq, SameValue, hp, hq,
        Option.some_inj]
    | _ => exact iff_of_true rfl trivial
  | string s =>
    cases b with
    | null => exact absurd rfl hbnull
    | string t =>
      show compare s t = .eq ↔ s = t
      exact Std.LawfulEqCmp.compare_eq_iff_eq
    | _ => exact iff_of_true rfl trivial
  | bool s =>
    cases b with
    | null => exact absurd rfl hbnull
    | bool t =>
      show compare s t = .eq ↔ s = t
      exact Std.LawfulEqCmp.compare_eq_iff_eq
    | _ => exact iff_of_true rfl trivial
  | array items =>
    cases b with
    | null => exact absurd rfl hbnull
    | _ => exact iff_of_true rfl trivial
  | object fields =>
    cases b with
    | null => exact absurd rfl hbnull
    | _ => exact iff_of_true rfl trivial

theorem sameValue_of_kind_ne (h : kind a ≠ kind b) : SameValue a b := by
  cases a <;> cases b <;> first | exact trivial | exact absurd rfl h

/-- Nothing but `null` is in front of `null`. -/
theorem isLE_null (h : (compareJsonValues ops.withDoubles a .null).isLE = true) : a = .null := by
  cases a with
  | null => rfl
  | _ => exact absurd h Bool.false_ne_true

theorem null_isLE (b : Json) : (compareJsonValues ops.withDoubles .null b).isLE = true := by
  cases b <;> rfl

/-- On one kind the comparison is the order of its values. -/
theorem isLE_trans_of_kind (ha : Whole a) (hb : Whole b) (hc : Whole c) (hab : kind a = kind b)
    (hbc : kind b = kind c) (hle : (compareJsonValues ops.withDoubles a b).isLE = true)
    (hle' : (compareJsonValues ops.withDoubles b c).isLE = true) :
    (compareJsonValues ops.withDoubles a c).isLE = true := by
  cases a <;> cases b <;> try exact Kind.noConfusion hab
  all_goals cases c <;> try exact Kind.noConfusion hbc
  case null.null.null => rfl
  case array.array.array => rfl
  case object.object.object => rfl
  case bool.bool.bool a b c =>
    exact @Std.TransCmp.isLE_trans _ compare _ _ _ _ hle hle'
  case string.string.string a b c =>
    exact @Std.TransCmp.isLE_trans _ compare _ _ _ _ hle hle'
  case number.number.number m n k =>
    obtain ⟨hm, p, hp⟩ := exists_value_of_whole ha
    obtain ⟨hn, q, hq⟩ := exists_value_of_whole hb
    obtain ⟨hk, r, hr⟩ := exists_value_of_whole hc
    rw [compareJsonValues_number hm hn hp hq] at hle
    rw [compareJsonValues_number hn hk hq hr] at hle'
    rw [compareJsonValues_number hm hk hp hr]
    exact Std.TransCmp.isLE_trans hle hle'

end Compare

/-! ### Where it is an order -/

section Orders

variable {ops : QueryOps} {values : Set Json}

theorem ordersOn_of_comparable (hwhole : ∀ v ∈ values, Whole v) (h : Comparable values) :
    OrdersOn (compareJsonValues ops.withDoubles) values where
  eq_swap a ha b hb := compareJsonValues_swap (hwhole a ha) (hwhole b hb)
  isLE_trans a ha b hb c hc hab hbc := by
    by_cases hanull : a = .null
    · rw [hanull]
      exact null_isLE c
    by_cases hbnull : b = .null
    · rw [hbnull] at hab
      exact absurd (isLE_null hab) hanull
    by_cases hcnull : c = .null
    · rw [hcnull] at hbc
      exact absurd (isLE_null hbc) hbnull
    rcases h with hkind | hsame
    · exact isLE_trans_of_kind (hwhole a ha) (hwhole b hb) (hwhole c hc)
        (hkind a ha b hb hanull hbnull) (hkind b hb c hc hbnull hcnull) hab hbc
    · rw [(compareJsonValues_eq_iff (hwhole a ha) (hwhole c hc) hanull hcnull).mpr
        (hsame a ha c hc)]
      rfl

/-- Two values that differ, and one of another kind beside them, are in no order. -/
theorem not_ordersOn_of_between {a b c : Json} (ha : a ∈ values) (hb : b ∈ values)
    (hc : c ∈ values) (hwhole : ∀ v ∈ values, Whole v) (hac : ¬ SameValue a c)
    (hbnull : b ≠ .null) (hab : kind a ≠ kind b) :
    ¬ OrdersOn (compareJsonValues ops.withDoubles) values := by
  intro horders
  have hkind : kind a = kind c := by
    by_contra hne
    exact hac (sameValue_of_kind_ne hne)
  have hanull : a ≠ .null := by
    rintro rfl
    exact hac trivial
  have hcnull : c ≠ .null := by
    rintro rfl
    cases a <;> exact hac trivial
  have heq : ∀ x ∈ values, x ≠ .null → kind x ≠ kind b →
      compareJsonValues ops.withDoubles x b = .eq := fun x hx hxnull hxkind ↦
    (compareJsonValues_eq_iff (hwhole x hx) (hwhole b hb) hxnull hbnull).mpr
      (sameValue_of_kind_ne hxkind)
  have hbefore : ∀ x ∈ values, ∀ y ∈ values, x ≠ .null → y ≠ .null → kind x ≠ kind b →
      kind y ≠ kind b → (compareJsonValues ops.withDoubles x y).isLE = true := by
    intro x hx y hy hxnull hynull hxkind hykind
    refine horders.isLE_trans x hx b hb y hy ?_ ?_
    · rw [heq x hx hxnull hxkind]
      rfl
    · rw [horders.eq_swap y hy b hb, heq y hy hynull hykind]
      rfl
  have hcb : kind c ≠ kind b := hkind ▸ hab
  have hle := hbefore a ha c hc hanull hcnull hab hcb
  have hge := hbefore c hc a ha hcnull hanull hcb hab
  rw [horders.eq_swap a ha c hc] at hge
  have hne : compareJsonValues ops.withDoubles a c ≠ .eq := fun hcmp ↦
    hac ((compareJsonValues_eq_iff (hwhole a ha) (hwhole c hc) hanull hcnull).mp hcmp)
  cases hcmp : compareJsonValues ops.withDoubles a c with
  | eq => exact hne hcmp
  | lt =>
    rw [hcmp] at hge
    exact absurd hge (by decide)
  | gt =>
    rw [hcmp] at hle
    exact absurd hle (by decide)

theorem comparable_of_ordersOn (hwhole : ∀ v ∈ values, Whole v)
    (h : OrdersOn (compareJsonValues ops.withDoubles) values) : Comparable values := by
  by_contra hnot
  unfold Comparable at hnot
  push Not at hnot
  obtain ⟨⟨a, ha, b, hb, hanull, hbnull, hkind⟩, c, hc, d, hd, hdiffer⟩ := hnot
  by_cases hca : kind c = kind a
  · exact not_ordersOn_of_between hc hb hd hwhole hdiffer hbnull (hca ▸ hkind) h
  · exact not_ordersOn_of_between hc ha hd hwhole hdiffer hanull hca h

theorem compareItems_eq (ops : QueryOps) (sort : SortSpec) :
    sort.compareItems ops = if sort.descending then
        fun a b ↦ (compareJsonValues ops (sort.fieldValue a) (sort.fieldValue b)).swap
      else fun a b ↦ compareJsonValues ops (sort.fieldValue a) (sort.fieldValue b) := by
  funext a b
  unfold SortSpec.compareItems SortSpec.fieldValue
  split_ifs <;> rfl

theorem ordersOn_compareItems_iff (sort : SortSpec) (items : Set Json) :
    OrdersOn (sort.compareItems ops) items ↔
      OrdersOn (compareJsonValues ops) (sort.fieldValue '' items) := by
  rw [← ordersOn_image_iff, compareItems_eq]
  split_ifs
  · exact ordersOn_swap_iff
  · exact Iff.rfl

/-- The values of a set, and items that have them in the field that they are sorted by, are in an
order where they are of one kind, besides `null`, or those of a kind are the same. -/
theorem ordersOn_iff_comparable (ops : QueryOps) (hwhole : ∀ v ∈ values, Whole v) :
    (OrdersOn (compareJsonValues ops.withDoubles) values ↔ Comparable values) ∧
      ∀ (sort : SortSpec) (items : Set Json), sort.fieldValue '' items = values →
        (OrdersOn (sort.compareItems ops.withDoubles) items ↔ Comparable values) := by
  have hvalues : OrdersOn (compareJsonValues ops.withDoubles) values ↔ Comparable values :=
    ⟨comparable_of_ordersOn hwhole, ordersOn_of_comparable hwhole⟩
  refine ⟨hvalues, fun sort items hitems ↦ ?_⟩
  rw [ordersOn_compareItems_iff, hitems]
  exact hvalues

/-- Two numbers and nothing. -/
def numbersAndNull : Set Json := {.null, .number (.posInt 1), .number (.posInt 2)}

theorem ordersOn_iff_comparable_numbers :
    OrdersOn (compareJsonValues wholeNumbers.withDoubles) numbersAndNull := by
  refine (@ordersOn_iff_comparable numbersAndNull wholeNumbers ?_).1.mpr (.inl ?_)
  · rintro v (rfl | rfl | rfl) n hn
    · nomatch hn
    · rw [← Json.number.inj hn]
      exact ⟨1, by decide, rfl⟩
    · rw [← Json.number.inj hn]
      exact ⟨2, by decide, rfl⟩
  · rintro a (rfl | rfl | rfl) b (rfl | rfl | rfl) ha hb
    all_goals first | rfl | exact absurd rfl ha | exact absurd rfl hb

/-- A text is taken for equal to two numbers, which are not. -/
theorem not_ordersOn_mixed :
    ¬ OrdersOn (compareJsonValues wholeNumbers.withDoubles)
      {.number (.posInt 2), .string "a", .number (.posInt 1)} := by
  refine @not_ordersOn_of_between wholeNumbers _ (.number (.posInt 2)) (.string "a")
    (.number (.posInt 1)) (by simp) (by simp) (by simp) ?_ ?_ nofun nofun
  · rintro v (rfl | rfl | rfl) n hn
    · rw [← Json.number.inj hn]
      exact ⟨2, by decide, rfl⟩
    · nomatch hn
    · rw [← Json.number.inj hn]
      exact ⟨1, by decide, rfl⟩
  · intro hsame
    have hvalues : some ((2 : ℕ) : ℚ) = some ((1 : ℕ) : ℚ) := hsame
    exact absurd hvalues (by norm_num)

end Orders

end Lithair.Http
