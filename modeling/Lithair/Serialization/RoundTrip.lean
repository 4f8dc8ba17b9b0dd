import Lithair.Lib.Recency
import Lithair.Serialization.Spelling

/-!
# Printing and parsing back

`stringifyJson` escapes five characters and `parseJson` takes a string as it stands up to the next
quote, so that `parseJson (stringifyJson v)` has every string of `v` escaped, as long as there is no
quote in them, and has no string with a quote at all. What is read back of a value with integral
numbers is equal to the value exactly when none of these characters is in a string or a key of it
(`parseJson_stringifyJson_iff`).
-/

namespace Lithair.Serialization.Json

open Lithair.Lib Lithair.Lib.Text Lithair.Lib.Recency

namespace JsonValue

/-! ### Parts of a value -/

/-- Induction over a value, with the items of an array and the fields of an object as lists. -/
theorem induction {P : JsonValue → Prop} (null : P .null) (bool : ∀ b, P (.bool b))
    (number : ∀ n, P (.number n)) (string : ∀ s, P (.string s))
    (array : ∀ items, (∀ v ∈ items, P v) → P (.array items))
    (object : ∀ fields : List (String × JsonValue), (∀ field ∈ fields, P field.2) →
      P (.object fields)) (v : JsonValue) : P v :=
  JsonValue.rec (motive_1 := P) (motive_2 := fun items ↦ ∀ v ∈ items, P v)
    (motive_3 := fun fields ↦ ∀ field ∈ fields, P field.2) (motive_4 := fun field ↦ P field.2)
    null bool number string array object (fun _ h ↦ absurd h List.not_mem_nil)
    (fun _ _ hfirst hrest ↦ List.forall_mem_cons.mpr ⟨hfirst, hrest⟩)
    (fun _ h ↦ absurd h List.not_mem_nil)
    (fun _ _ hfirst hrest ↦ List.forall_mem_cons.mpr ⟨hfirst, hrest⟩) (fun _ _ h ↦ h) v

mutual

/-- The strings and the keys of a value. -/
def strings : JsonValue → List String
  | string s => [s]
  | array items => stringsItems items
  | object fields => stringsFields fields
  | _ => []

def stringsItems : List JsonValue → List String
  | [] => []
  | v :: items => strings v ++ stringsItems items

def stringsFields : List (String × JsonValue) → List String
  | [] => []
  | (key, v) :: fields => key :: (strings v ++ stringsFields fields)

end

mutual

/-- Every number of the value is an integer of absolute value below `2 ^ 53`. -/
def Integral : JsonValue → Prop
  | number n => ∃ negative, ∃ k : ℕ, k < 2 ^ 53 ∧ n = .finite negative k
  | array items => IntegralItems items
  | object fields => IntegralFields fields
  | _ => True

def IntegralItems : List JsonValue → Prop
  | [] => True
  | v :: items => Integral v ∧ IntegralItems items

def IntegralFields : List (String × JsonValue) → Prop
  | [] => True
  | (_, v) :: fields => Integral v ∧ IntegralFields fields

end

mutual

/-- Every object of the value has each key once. -/
def Distinct : JsonValue → Prop
  | array items => DistinctItems items
  | object fields => (fields.map Prod.fst).Nodup ∧ DistinctFields fields
  | _ => True

def DistinctItems : List JsonValue → Prop
  | [] => True
  | v :: items => Distinct v ∧ DistinctItems items

def DistinctFields : List (String × JsonValue) → Prop
  | [] => True
  | (_, v) :: fields => Distinct v ∧ DistinctFields fields

end

theorem stringsItems_eq (items : List JsonValue) : stringsItems items = items.flatMap strings := by
  induction items with
  | nil => rfl
  | cons v items ih => rw [stringsItems, ih, List.flatMap_cons]

theorem stringsFields_eq (fields : List (String × JsonValue)) :
    stringsFields fields = fields.flatMap fun field ↦ field.1 :: strings field.2 := by
  induction fields with
  | nil => rfl
  | cons field fields ih =>
    rw [stringsFields, ih, List.flatMap_cons]
    rfl

theorem integralItems_iff {items : List JsonValue} :
    IntegralItems items ↔ ∀ v ∈ items, v.Integral := by
  induction items with
  | nil => simp [IntegralItems]
  | cons v items ih => rw [IntegralItems, ih, List.forall_mem_cons]

theorem integralFields_iff {fields : List (String × JsonValue)} :
    IntegralFields fields ↔ ∀ field ∈ fields, field.2.Integral := by
  induction fields with
  | nil => simp [IntegralFields]
  | cons field fields ih => rw [IntegralFields, ih, List.forall_mem_cons]

theorem distinctItems_iff {items : List JsonValue} :
    DistinctItems items ↔ ∀ v ∈ items, v.Distinct := by
  induction items with
  | nil => simp [DistinctItems]
  | cons v items ih => rw [DistinctItems, ih, List.forall_mem_cons]

theorem distinctFields_iff {fields : List (String × JsonValue)} :
    DistinctFields fields ↔ ∀ field ∈ fields, field.2.Distinct := by
  induction fields with
  | nil => simp [DistinctFields]
  | cons field fields ih => rw [DistinctFields, ih, List.forall_mem_cons]

/-! ### Equality -/

theorem exists_eq_of_eqItems {items others : List JsonValue} (h : eqItems items others = true)
    {v : JsonValue} (hv : v ∈ items) : ∃ w ∈ others, v.eq w = true := by
  induction items generalizing others with
  | nil => exact absurd hv List.not_mem_nil
  | cons first items ih =>
    cases others with
    | nil => exact absurd h (by simp [eqItems])
    | cons w others =>
      rw [eqItems, Bool.and_eq_true] at h
      rcases List.mem_cons.mp hv with rfl | hv
      · exact ⟨w, List.mem_cons_self, h.1⟩
      · obtain ⟨w, hw, heq⟩ := ih h.2 hv
        exact ⟨w, List.mem_cons_of_mem _ hw, heq⟩

theorem eqItems_map {items : List JsonValue} {f : JsonValue → JsonValue}
    (h : ∀ v ∈ items, v.eq (f v) = true) : eqItems items (items.map f) = true := by
  induction items with
  | nil => rfl
  | cons v items ih =>
    obtain ⟨hv, hitems⟩ := List.forall_mem_cons.mp h
    rw [List.map_cons, eqItems, hv, ih hitems]
    rfl

theorem eqFields_iff {fields others : List (String × JsonValue)} :
    eqFields fields others = true ↔
      ∀ field ∈ fields, ∃ w, others.lookup field.1 = some w ∧ field.2.eq w = true := by
  induction fields with
  | nil => simp [eqFields]
  | cons field fields ih =>
    rw [eqFields, Bool.and_eq_true, ih, List.forall_mem_cons]
    refine and_congr_left fun _ ↦ ?_
    cases others.lookup field.1 <;> simp

theorem mem_of_lookup_eq_some {fields : List (String × JsonValue)} {key : String} {v : JsonValue}
    (h : fields.lookup key = some v) : (key, v) ∈ fields := by
  obtain ⟨before, behind, rfl, -⟩ := List.lookup_eq_some_iff.mp h
  exact List.mem_append_right before List.mem_cons_self

/-- What is equal to a value has its strings. -/
theorem strings_subset_of_eq {v w : JsonValue} (h : v.eq w = true) : v.strings ⊆ w.strings := by
  induction v using JsonValue.induction generalizing w with
  | null | bool | number =>
    rw [strings]
    · exact List.nil_subset _
    all_goals exact fun _ h ↦ nomatch h
  | string s =>
    cases w with
    | string t =>
      rw [eq, beq_iff_eq] at h
      rw [h]
      exact List.Subset.refl _
    | null | bool | number | array | object => exact absurd h (by simp [eq])
  | array items ih =>
    cases w with
    | array others =>
      rw [eq] at h
      rw [strings, strings, stringsItems_eq, stringsItems_eq]
      intro s hs
      obtain ⟨v, hv, hs⟩ := List.mem_flatMap.mp hs
      obtain ⟨w, hw, heq⟩ := exists_eq_of_eqItems h hv
      exact List.mem_flatMap_of_mem hw (ih v hv heq hs)
    | null | bool | number | string | object => exact absurd h (by simp [eq])
  | object fields ih =>
    cases w with
    | object others =>
      rw [eq, Bool.and_eq_true, eqFields_iff] at h
      rw [strings, strings, stringsFields_eq, stringsFields_eq]
      intro s hs
      obtain ⟨field, hfield, hs⟩ := List.mem_flatMap.mp hs
      obtain ⟨w, hw, heq⟩ := h.2 field hfield
      refine List.mem_flatMap_of_mem (mem_of_lookup_eq_some hw) ?_
      rcases List.mem_cons.mp hs with rfl | hs
      · exact List.mem_cons_self
      · exact List.mem_cons_of_mem _ (ih field hfield heq hs)
    | null | bool | number | string | array => exact absurd h (by simp [eq])

end JsonValue

/-! ### The tree of a printed value -/

/-- The number that an integral double is printed as. -/
def numeralOf : Binary64 → Numeral
  | .finite negative magnitude =>
    { negative := negative && magnitude != 0
      whole := Nat.toDigits 10 magnitude.num
      fraction := none
      exponent := none }
  | _ => { negative := false, whole := [], fraction := none, exponent := none }

mutual

/-- The tree of what a value is printed as. -/
def treeOf : JsonValue → Tree
  | .null => .null
  | .bool b => .bool b
  | .number n => .number (numeralOf n)
  | .string s => .string (escapeString s)
  | .array items => .array (treesOf items)
  | .object fields => .object (membersOf fields)

def treesOf : List JsonValue → List Tree
  | [] => []
  | v :: items => treeOf v :: treesOf items

def membersOf : List (String × JsonValue) → List (List Char × Tree)
  | [] => []
  | (key, v) :: fields => (escapeString key, treeOf v) :: membersOf fields

end

theorem treesOf_eq (items : List JsonValue) : treesOf items = items.map treeOf := by
  induction items with
  | nil => rfl
  | cons v items ih => rw [treesOf, ih, List.map_cons]

theorem membersOf_eq (fields : List (String × JsonValue)) :
    membersOf fields = fields.map fun field ↦ (escapeString field.1, treeOf field.2) := by
  induction fields with
  | nil => rfl
  | cons field fields ih => rw [membersOf, ih, List.map_cons]

theorem gap_nil (style : Style) : Gap style [] := fun _ h ↦ absurd h List.not_mem_nil

theorem padded_self {style : Style} {Spelled : List Char → Prop} {text : List Char}
    (h : Spelled text) : Padded style Spelled text :=
  ⟨[], text, [], by simp, gap_nil style, gap_nil style, h⟩

theorem stringifyNumber_eq_text (negative : Bool) {k : ℕ} (hk : k < 2 ^ 53) :
    stringifyNumber (.finite negative k) = (numeralOf (.finite negative k)).text := by
  have hcast : formatInt (castI64 negative k) =
      (if (negative && k != 0) = true then ['-'] else []) ++ Nat.toDigits 10 k := by
    cases negative with
    | false =>
      have hmin : castI64 false k = k := by
        simp only [castI64, Bool.false_eq_true, if_false]
        omega
      rw [hmin, formatInt, if_neg (by omega), Int.natAbs_natCast]
      rfl
    | true =>
      have hmax : castI64 true k = -k := by
        simp only [castI64, if_true]
        omega
      rw [hmax, formatInt, Int.natAbs_neg, Int.natAbs_natCast]
      by_cases hzero : k = 0
      · subst hzero
        rfl
      · have hsign : (true && k != 0) = true := by simp [hzero]
        rw [if_pos (by omega), if_pos hsign]
        rfl
  have hsign : ((k : ℚ≥0) != 0) = (k != 0) := by
    rw [Bool.eq_iff_iff, bne_iff_ne, bne_iff_ne, Nat.cast_ne_zero]
  rw [stringifyNumber, if_pos (NNRat.den_natCast k), NNRat.num_natCast, hcast, numeralOf,
    NNRat.num_natCast, hsign]
  simp [Numeral.text, Numeral.mantissa, Numeral.magnitudeText, Numeral.exponentText]

theorem digital_numeralOf (negative : Bool) (k : ℕ) :
    (numeralOf (.finite negative k)).Digital where
  digit := List.append_ne_nil_of_left_ne_nil Nat.toDigits_ne_nil _
  begins := Or.inl Nat.toDigits_ne_nil
  whole_digits _ hc := Nat.isDigit_of_mem_toDigits (by decide) (by decide) hc
  fraction_digits _ hdigits := nomatch hdigits

theorem reading_numeralOf (negative : Bool) {k : ℕ} (hk : k < 2 ^ 53) :
    (numeralOf (.finite negative k)).reading = .finite (negative && (k : ℚ≥0) != 0) k := by
  have hdigits : Nat.ofDigitChars 10 (Nat.toDigits 10 k) 0 = k :=
    Nat.ofDigitChars_toDigits (by decide) (by decide)
  have hdecimal : decimal (Nat.toDigits 10 k) [] = k := by
    rw [decimal, List.append_nil, hdigits, List.length_nil, pow_zero, div_one]
  rw [Numeral.reading]
  simp only [numeralOf, NNRat.num_natCast, Option.getD_none, hdecimal,
    Binary64.nearest_natCast _ hk]

/-- A printed value is a text of its tree. -/
theorem spells_stringify {v : JsonValue} (h : v.Integral) :
    (treeOf v).Spells strict (stringify v) := by
  induction v using JsonValue.induction with
  | null => rw [treeOf, Tree.Spells, stringify]
  | bool b => cases b <;> rw [treeOf, Tree.Spells, stringify]
  | number n =>
    rw [JsonValue.Integral] at h
    obtain ⟨negative, k, hk, rfl⟩ := h
    rw [treeOf, Tree.Spells, stringify]
    exact stringifyNumber_eq_text negative hk
  | string s =>
    rw [treeOf, Tree.Spells, stringify]
    rfl
  | array items ih =>
    rw [JsonValue.Integral, JsonValue.integralItems_iff] at h
    rw [treeOf, Tree.Spells, stringify]
    refine ⟨stringifyItems items, rfl, ?_⟩
    induction items with
    | nil =>
      rw [treesOf, Tree.SpellsItems, stringifyItems]
      exact gap_nil strict
    | cons v items ihitems =>
      obtain ⟨hv, hitems⟩ := List.forall_mem_cons.mp h
      have hfirst : Padded strict ((treeOf v).Spells strict) (stringify v) :=
        padded_self (ih v List.mem_cons_self hv)
      have hothers := ihitems (fun w hw ↦ ih w (List.mem_cons_of_mem _ hw)) hitems
      cases items with
      | nil =>
        rw [treesOf, treesOf, Tree.SpellsItems, stringifyItems]
        exact hfirst
      | cons next items =>
        rw [treesOf, stringifyItems]
        · exact Tree.spellsItems_of_cons hfirst
            (Or.inr ⟨List.cons_ne_nil _ _, stringifyItems (next :: items), rfl, hothers⟩)
        · exact fun hnil ↦ absurd hnil (List.cons_ne_nil _ _)
  | object fields ih =>
    rw [JsonValue.Integral, JsonValue.integralFields_iff] at h
    rw [treeOf, Tree.Spells, stringify]
    refine ⟨stringifyFields fields, rfl, ?_⟩
    generalize true = leading
    induction fields generalizing leading with
    | nil =>
      rw [membersOf, Tree.SpellsMembers, stringifyFields]
      exact gap_nil strict
    | cons field fields ihfields =>
      obtain ⟨hv, hfields⟩ := List.forall_mem_cons.mp h
      obtain ⟨key, v⟩ := field
      have hname : Padded strict (Named strict leading (escapeString key)) (quoted key) :=
        padded_self ⟨'"', rfl, rfl⟩
      have hvalue : Padded strict ((treeOf v).Spells strict) (stringify v) :=
        padded_self (ih (key, v) List.mem_cons_self hv)
      have hothers := ihfields (fun w hw ↦ ih w (List.mem_cons_of_mem _ hw)) hfields false
      cases fields with
      | nil =>
        rw [membersOf, membersOf, Tree.SpellsMembers, stringifyFields]
        exact ⟨_, _, rfl, hname, hvalue⟩
      | cons next fields =>
        rw [membersOf, stringifyFields]
        · have htext := Tree.spellsMembers_of_cons hname hvalue
            (Or.inr ⟨List.cons_ne_nil _ _, stringifyFields (next :: fields), rfl, hothers⟩)
          rw [List.append_assoc, List.cons_append]
          exact htext
        · exact fun hnil ↦ absurd hnil (List.cons_ne_nil _ _)

theorem raws_treeOf (v : JsonValue) : (treeOf v).raws = v.strings.map escapeString := by
  induction v using JsonValue.induction with
  | null | bool | number | string => rfl
  | array items ih =>
    rw [treeOf, treesOf_eq, Tree.raws, Tree.rawsItems_eq, JsonValue.strings,
      JsonValue.stringsItems_eq, List.flatMap_map, List.map_flatMap]
    exact List.flatMap_congr ih
  | object fields ih =>
    rw [treeOf, membersOf_eq, Tree.raws, Tree.rawsMembers_eq, JsonValue.strings,
      JsonValue.stringsFields_eq, List.flatMap_map, List.map_flatMap]
    exact List.flatMap_congr fun field hfield ↦
      congrArg (escapeString field.1 :: ·) (ih field hfield)

theorem numerals_treeOf {v : JsonValue} (h : v.Integral) {n : Numeral}
    (hn : n ∈ (treeOf v).numerals) :
    ∃ negative, ∃ k : ℕ, n = numeralOf (.finite negative k) := by
  induction v using JsonValue.induction with
  | null | bool | string => exact absurd hn List.not_mem_nil
  | number m =>
    rw [JsonValue.Integral] at h
    obtain ⟨negative, k, -, rfl⟩ := h
    rw [treeOf, Tree.numerals] at hn
    exact ⟨negative, k, List.mem_singleton.mp hn⟩
  | array items ih =>
    rw [JsonValue.Integral, JsonValue.integralItems_iff] at h
    rw [treeOf, treesOf_eq, Tree.numerals, Tree.numeralsItems_eq, List.flatMap_map] at hn
    obtain ⟨v, hv, hn⟩ := List.mem_flatMap.mp hn
    exact ih v hv (h v hv) hn
  | object fields ih =>
    rw [JsonValue.Integral, JsonValue.integralFields_iff] at h
    rw [treeOf, membersOf_eq, Tree.numerals, Tree.numeralsMembers_eq, List.flatMap_map] at hn
    obtain ⟨field, hfield, hn⟩ := List.mem_flatMap.mp hn
    exact ih field hfield (h field hfield) hn

theorem not_hasExponent_treeOf {v : JsonValue} (h : v.Integral) : ¬ (treeOf v).HasExponent := by
  rintro ⟨n, hn, hexponent⟩
  obtain ⟨negative, k, rfl⟩ := numerals_treeOf h hn
  exact absurd hexponent Bool.false_ne_true

/-! ### Escaped characters -/

/-- The characters that are escaped. -/
def escaped : List Char := ['"', '\\', '\n', '\r', '\t']

theorem escapeChar_of_notMem {c : Char} (h : c ∉ escaped) : escapeChar c = [c] := by
  simp only [escaped, List.mem_cons, List.not_mem_nil, or_false, not_or] at h
  obtain ⟨hquote, hslash, hfeed, hreturn, htab⟩ := h
  rw [escapeChar, if_neg hquote, if_neg hslash, if_neg hfeed, if_neg hreturn, if_neg htab]

theorem escapeChar_of_mem : ∀ c ∈ escaped, ∃ letter, escapeChar c = ['\\', letter] := by
  intro c hc
  simp only [escaped, List.mem_cons, List.not_mem_nil, or_false] at hc
  rcases hc with rfl | rfl | rfl | rfl | rfl <;> exact ⟨_, rfl⟩

theorem flatMap_escapeChar_of_forall {text : List Char} (h : ∀ c ∈ text, c ∉ escaped) :
    text.flatMap escapeChar = text := by
  induction text with
  | nil => rfl
  | cons c text ih =>
    obtain ⟨hc, htext⟩ := List.forall_mem_cons.mp h
    rw [List.flatMap_cons, escapeChar_of_notMem hc, ih htext]
    rfl

theorem escapeString_of_forall {s : String} (h : ∀ c ∈ s.toList, c ∉ escaped) :
    escapeString s = s.toList := flatMap_escapeChar_of_forall h

theorem quote_notMem_escapeString {s : String} (h : '"' ∉ s.toList) : '"' ∉ escapeString s := by
  intro hmem
  obtain ⟨c, hc, hquote⟩ := List.mem_flatMap.mp hmem
  have hne : c ≠ '"' := fun heq ↦ h (heq ▸ hc)
  rw [escapeChar, if_neg hne] at hquote
  split_ifs at hquote
  iterate 4 exact absurd hquote (by decide)
  exact hne (List.mem_singleton.mp hquote).symm

theorem length_flatMap_escapeChar (text : List Char) :
    text.length ≤ (text.flatMap escapeChar).length := by
  induction text with
  | nil => exact Nat.zero_le _
  | cons c text ih =>
    have hc : 1 ≤ (escapeChar c).length := by
      by_cases hmem : c ∈ escaped
      · obtain ⟨letter, hletter⟩ := escapeChar_of_mem c hmem
        rw [hletter]
        exact Nat.le_succ _
      · rw [escapeChar_of_notMem hmem]
        rfl
    rw [List.flatMap_cons, List.length_append, List.length_cons]
    omega

/-- Escaping makes a string longer. -/
theorem length_lt_of_mem_escaped {text : List Char} {c : Char} (hc : c ∈ text)
    (hmem : c ∈ escaped) : text.length < (text.flatMap escapeChar).length := by
  obtain ⟨before, behind, rfl⟩ := List.append_of_mem hc
  obtain ⟨letter, hletter⟩ := escapeChar_of_mem c hmem
  have hbefore := length_flatMap_escapeChar before
  have hbehind := length_flatMap_escapeChar behind
  rw [List.flatMap_append, List.flatMap_cons, hletter]
  simp only [List.length_append, List.length_cons, List.length_nil]
  omega

/-! ### The strings of what is read -/

theorem mem_insert {key : String} {v : JsonValue} {obj : List (String × JsonValue)}
    {field : String × JsonValue} (h : field ∈ insert key v obj) :
    field = (key, v) ∨ field ∈ obj := by
  induction obj with
  | nil =>
    rw [insert] at h
    exact Or.inl (List.mem_singleton.mp h)
  | cons first obj ih =>
    rw [insert] at h
    split_ifs at h
    · rcases List.mem_cons.mp h with rfl | h
      · exact Or.inl rfl
      · exact Or.inr (List.mem_cons_of_mem _ h)
    · rcases List.mem_cons.mp h with rfl | h
      · exact Or.inr List.mem_cons_self
      · exact (ih h).imp_right (List.mem_cons_of_mem _)

/-- Of a condition on the strings of a value. -/
def StringsIn (P : String → Prop) (v : JsonValue) : Prop := ∀ s ∈ v.strings, P s

section StringsIn

variable {P : String → Prop}

theorem stringsIn_string {s : String} (h : P s) : StringsIn P (.string s) := by
  intro t ht
  rw [JsonValue.strings] at ht
  exact List.mem_singleton.mp ht ▸ h

theorem stringsIn_array {items : List JsonValue} (h : ∀ v ∈ items, StringsIn P v) :
    StringsIn P (.array items) := by
  intro s hs
  rw [JsonValue.strings, JsonValue.stringsItems_eq] at hs
  obtain ⟨v, hv, hs⟩ := List.mem_flatMap.mp hs
  exact h v hv s hs

theorem stringsIn_object {fields : List (String × JsonValue)}
    (h : ∀ field ∈ fields, P field.1 ∧ StringsIn P field.2) : StringsIn P (.object fields) := by
  intro s hs
  rw [JsonValue.strings, JsonValue.stringsFields_eq] at hs
  obtain ⟨field, hfield, hs⟩ := List.mem_flatMap.mp hs
  rcases List.mem_cons.mp hs with rfl | hs
  · exact (h field hfield).1
  · exact (h field hfield).2 s hs

theorem stringsIn_insert {key : String} {v : JsonValue} {obj : List (String × JsonValue)}
    (hkey : P key) (hv : StringsIn P v) (h : ∀ field ∈ obj, P field.1 ∧ StringsIn P field.2) :
    ∀ field ∈ insert key v obj, P field.1 ∧ StringsIn P field.2 := by
  intro field hfield
  rcases mem_insert hfield with rfl | hfield
  · exact ⟨hkey, hv⟩
  · exact h field hfield

/-- The strings of the value of a tree stand in it. -/
theorem stringsIn_eval (meaning : Meaning) {tree : Tree}
    (h : ∀ raw ∈ tree.raws, P (meaning.string raw)) : StringsIn P (tree.eval meaning) := by
  induction tree using Tree.induction with
  | null | bool | number => exact fun s hs ↦ absurd hs List.not_mem_nil
  | string raw => exact stringsIn_string (h raw (List.mem_singleton_self raw))
  | array items ih =>
    rw [Tree.raws, Tree.rawsItems_eq] at h
    rw [Tree.eval, Tree.evalItems_eq]
    refine stringsIn_array fun v hv ↦ ?_
    obtain ⟨tree, htree, rfl⟩ := List.mem_map.mp hv
    exact ih tree htree fun raw hraw ↦ h raw (List.mem_flatMap_of_mem htree hraw)
  | object members ih =>
    rw [Tree.raws, Tree.rawsMembers_eq] at h
    rw [Tree.eval]
    refine stringsIn_object ?_
    have hread (obj : List (String × JsonValue))
        (hobj : ∀ field ∈ obj, P field.1 ∧ StringsIn P field.2) :
        ∀ field ∈ Tree.evalMembers meaning obj members, P field.1 ∧ StringsIn P field.2 := by
      induction members generalizing obj with
      | nil => exact hobj
      | cons member members ihmembers =>
        have hmember : ∀ raw ∈ member.1 :: member.2.raws, P (meaning.string raw) :=
          fun raw hraw ↦ h raw (List.mem_flatMap_of_mem List.mem_cons_self hraw)
        obtain ⟨hname, hraws⟩ := List.forall_mem_cons.mp hmember
        refine ihmembers (fun m hm ↦ ih m (List.mem_cons_of_mem _ hm)) (fun raw hraw ↦ ?_) _
          (stringsIn_insert hname (ih member List.mem_cons_self hraws) hobj)
        rw [List.flatMap_cons] at h
        exact h raw (List.mem_append_right _ hraw)
    exact hread [] fun _ h ↦ absurd h List.not_mem_nil

/-- No string that is read has a quote. -/
theorem stringsIn_of_parse (fuel : ℕ) (hP : ∀ raw, '"' ∉ raw → P (String.ofList raw)) :
    (∀ {text v rest}, parseValue fuel text = .ok (v, rest) → StringsIn P v) ∧
      (∀ {items text v rest}, (∀ w ∈ items, StringsIn P w) →
        parseItems fuel items text = .ok (v, rest) → StringsIn P v) ∧
      (∀ {obj text v rest}, (∀ field ∈ obj, P field.1 ∧ StringsIn P field.2) →
        parseFields fuel obj text = .ok (v, rest) → StringsIn P v) := by
  induction fuel with
  | zero => exact ⟨fun h ↦ absurd h nofun, fun _ h ↦ absurd h nofun, fun _ h ↦ absurd h nofun⟩
  | succ fuel ih =>
    obtain ⟨ihvalue, ihitems, ihfields⟩ := ih
    refine ⟨fun {text v rest} h ↦ ?_, fun {items text v rest} hitems h ↦ ?_,
      fun {obj text v rest} hobj h ↦ ?_⟩
    · obtain ⟨n, c, tail, hn, -, hcases⟩ := parseValue_cases h
      obtain rfl := Nat.succ.inj hn
      rcases hcases with ⟨-, h⟩ | ⟨-, h⟩ | ⟨-, h⟩ | ⟨-, h⟩ | ⟨-, h⟩ | ⟨-, h⟩
      · rw [(parseNull_cases h).2]
        exact fun s hs ↦ absurd hs List.not_mem_nil
      · rcases parseBool_cases h with ⟨-, rfl⟩ | ⟨-, rfl⟩ <;>
          exact fun s hs ↦ absurd hs List.not_mem_nil
      · obtain ⟨_, raw, -, hraw, rfl⟩ := parseString_cases h
        exact stringsIn_string (hP raw hraw)
      · rcases parseArray_cases h with ⟨-, rfl⟩ | ⟨-, h⟩
        · exact stringsIn_array fun _ h ↦ absurd h List.not_mem_nil
        · exact ihitems (fun _ h ↦ absurd h List.not_mem_nil) h
      · rcases parseObject_cases h with ⟨-, rfl⟩ | ⟨-, h⟩
        · exact stringsIn_object fun _ h ↦ absurd h List.not_mem_nil
        · exact ihfields (fun _ h ↦ absurd h List.not_mem_nil) h
      · obtain ⟨m, rfl⟩ := parseNumber_cases h
        exact fun s hs ↦ absurd hs List.not_mem_nil
    · obtain ⟨n, item, behind, hn, hitem, hcases⟩ := parseItems_cases h
      obtain rfl := Nat.succ.inj hn
      have hmore : ∀ w ∈ items ++ [item], StringsIn P w := by
        intro w hw
        rcases List.mem_append.mp hw with hw | hw
        · exact hitems w hw
        · exact List.mem_singleton.mp hw ▸ ihvalue hitem
      rcases hcases with ⟨-, rfl⟩ | ⟨more, -, h⟩
      · exact stringsIn_array hmore
      · exact ihitems hmore h
    · obtain ⟨n, key, name, behind, value, after, hn, hkey, -, hvalue, hcases⟩ :=
        parseFields_cases h
      obtain rfl := Nat.succ.inj hn
      obtain ⟨_, raw, -, hraw, hsame⟩ := parseString_cases hkey
      obtain rfl := JsonValue.string.inj hsame
      have hmore := stringsIn_insert (hP raw hraw) (ihvalue hvalue) hobj
      rcases hcases with ⟨-, rfl⟩ | ⟨more, -, h⟩
      · exact stringsIn_object hmore
      · exact ihfields hmore h

end StringsIn

/-! ### The round trip -/

theorem insert_of_notMem {key : String} (v : JsonValue) {obj : List (String × JsonValue)}
    (h : key ∉ obj.map Prod.fst) : insert key v obj = obj ++ [(key, v)] := by
  induction obj with
  | nil => rfl
  | cons field obj ih =>
    rw [List.map_cons, List.mem_cons, not_or] at h
    rw [insert, if_neg (Ne.symm h.1), ih h.2]
    rfl

/-- Of members with different names each is a field. -/
theorem evalMembers_of_nodup (meaning : Meaning) {members : List (List Char × Tree)}
    (obj : List (String × JsonValue))
    (h : (obj.map Prod.fst ++ members.map fun member ↦ meaning.string member.1).Nodup) :
    Tree.evalMembers meaning obj members =
      obj ++ members.map fun member ↦ (meaning.string member.1, member.2.eval meaning) := by
  induction members generalizing obj with
  | nil => exact (List.append_nil obj).symm
  | cons member members ih =>
    obtain ⟨name, tree⟩ := member
    have hname : meaning.string name ∉ obj.map Prod.fst := fun hmem ↦
      (List.disjoint_of_nodup_append h) hmem List.mem_cons_self
    rw [Tree.evalMembers, insert_of_notMem _ hname, ih, List.append_assoc]
    · rfl
    · rw [List.map_append, List.append_assoc]
      exact h

/-- Without characters to escape a printed value is read as a value equal to it. -/
theorem eq_reading_treeOf {v : JsonValue} (hintegral : v.Integral) (hdistinct : v.Distinct)
    (h : StringsIn (fun s ↦ escapeString s = s.toList) v) :
    v.eq (treeOf v).reading = true := by
  induction v using JsonValue.induction with
  | null => rfl
  | bool b => cases b <;> rfl
  | number n =>
    rw [JsonValue.Integral] at hintegral
    obtain ⟨negative, k, hk, rfl⟩ := hintegral
    have hnumber : verbatim.number (numeralOf (.finite negative k)) =
        .finite (negative && (k : ℚ≥0) != 0) k := reading_numeralOf negative hk
    rw [treeOf, Tree.reading, Tree.eval, hnumber, JsonValue.eq, Binary64.eq]
    by_cases hzero : (k : ℚ≥0) = 0 <;> simp [hzero]
  | string s =>
    have hs : verbatim.string (escapeString s) = s := by
      rw [h s (List.mem_singleton_self s)]
      exact String.ofList_toList
    rw [treeOf, Tree.reading, Tree.eval, hs, JsonValue.eq, beq_self_eq_true]
  | array items ih =>
    rw [JsonValue.Integral, JsonValue.integralItems_iff] at hintegral
    rw [JsonValue.Distinct, JsonValue.distinctItems_iff] at hdistinct
    rw [treeOf, Tree.reading, Tree.eval, treesOf_eq, Tree.evalItems_eq, List.map_map, JsonValue.eq]
    refine JsonValue.eqItems_map fun v hv ↦ ih v hv (hintegral v hv) (hdistinct v hv) fun s hs ↦ ?_
    refine h s ?_
    rw [JsonValue.strings, JsonValue.stringsItems_eq]
    exact List.mem_flatMap_of_mem hv hs
  | object fields ih =>
    rw [JsonValue.Integral, JsonValue.integralFields_iff] at hintegral
    rw [JsonValue.Distinct, JsonValue.distinctFields_iff] at hdistinct
    have hfields : ∀ field ∈ fields, String.ofList (escapeString field.1) = field.1 ∧
        StringsIn (fun s ↦ escapeString s = s.toList) field.2 := by
      intro field hfield
      have hstrings : ∀ s ∈ field.1 :: field.2.strings, escapeString s = s.toList := by
        intro s hs
        refine h s ?_
        rw [JsonValue.strings, JsonValue.stringsFields_eq]
        exact List.mem_flatMap_of_mem hfield hs
      refine ⟨?_, fun s hs ↦ hstrings s (List.mem_cons_of_mem _ hs)⟩
      rw [hstrings field.1 List.mem_cons_self, String.ofList_toList]
    have hmembers : Tree.evalMembers verbatim [] (membersOf fields) =
        fields.map fun field ↦ (field.1, (treeOf field.2).reading) := by
      have hkeys : ((membersOf fields).map fun member ↦ verbatim.string member.1) =
          fields.map Prod.fst := by
        rw [membersOf_eq, List.map_map]
        exact List.map_congr_left fun field hfield ↦ (hfields field hfield).1
      rw [evalMembers_of_nodup verbatim [] (by rw [hkeys]; exact hdistinct.1), List.nil_append,
        membersOf_eq, List.map_map]
      exact List.map_congr_left fun field hfield ↦
        congrArg (·, (treeOf field.2).reading) (hfields field hfield).1
    rw [treeOf, Tree.reading, Tree.eval, hmembers, JsonValue.eq, List.length_map, beq_self_eq_true,
      Bool.true_and, JsonValue.eqFields_iff]
    intro field hfield
    refine ⟨(treeOf field.2).reading, (lookup_eq_some_iff_mem ?_).mpr ?_, ih field hfield
      (hintegral field hfield) (hdistinct.2 field hfield) (hfields field hfield).2⟩
    · rw [List.map_map]
      exact hdistinct.1
    · exact List.mem_map_of_mem hfield

/-- What is printed of a value is read back as a value equal to it. -/
def RoundTrips (v : JsonValue) : Prop :=
  ∃ w, parseJson (stringifyJson v) = .ok w ∧ v.eq w = true

theorem parseJson_stringifyJson {v : JsonValue} (hintegral : v.Integral)
    (h : ∀ s ∈ v.strings, '"' ∉ s.toList) :
    parseJson (stringifyJson v) = .ok (treeOf v).reading := by
  have hclear : (treeOf v).Clear := by
    refine ⟨fun raw hraw ↦ ?_, fun n hn ↦ ?_⟩
    · rw [raws_treeOf] at hraw
      obtain ⟨s, hs, rfl⟩ := List.mem_map.mp hraw
      exact quote_notMem_escapeString (h s hs)
    · obtain ⟨negative, k, rfl⟩ := numerals_treeOf hintegral hn
      exact digital_numeralOf negative k
  have hread := Tree.readsAs_reading hclear (not_hasExponent_treeOf hintegral) (stringify v)
    (Tree.spells_lenient (spells_stringify hintegral)) []
    (Tree.stopsBehind_of_stops fun c hc ↦ nomatch hc) _ (le_refl _)
  rw [List.append_nil] at hread
  rw [stringifyJson, parseJson_ofList, hread]
  rfl

/-- A value with integral numbers round trips exactly when its strings and keys have no quote, no
backslash, no line feed, no carriage return and no tab. -/
theorem parseJson_stringifyJson_iff {v : JsonValue} (hintegral : v.Integral)
    (hdistinct : v.Distinct) :
    RoundTrips v ↔ ∀ s ∈ v.strings, ∀ c ∈ s.toList, c ∉ escaped := by
  constructor
  · rintro ⟨w, hparse, heq⟩
    have hsubset := JsonValue.strings_subset_of_eq heq
    have hquote : ∀ s ∈ v.strings, '"' ∉ s.toList := by
      intro s hs
      obtain ⟨rest, hvalue⟩ := parseJson_eq_ok_iff.mp hparse
      exact (stringsIn_of_parse _ (P := fun s ↦ '"' ∉ s.toList)
        (fun raw hraw ↦ by rwa [String.toList_ofList])).1 hvalue s (hsubset hs)
    rw [parseJson_stringifyJson hintegral hquote] at hparse
    obtain rfl := Except.ok.inj hparse
    -- a string to escape is what another one, which is shorter, is escaped to
    have hshorter : ∀ length, ∀ s ∈ v.strings, s.toList.length = length →
        ∀ c ∈ s.toList, c ∉ escaped := by
      intro length
      induction length using Nat.strong_induction_on with
      | _ length ih =>
        intro s hs hlength c hc hmem
        have hraw : ∃ t ∈ v.strings, escapeString t = s.toList := by
          have hreading : StringsIn (fun s ↦ ∃ t ∈ v.strings, escapeString t = s.toList)
              (treeOf v).reading := by
            refine stringsIn_eval verbatim fun raw hraw ↦ ?_
            rw [raws_treeOf] at hraw
            obtain ⟨t, ht, rfl⟩ := List.mem_map.mp hraw
            exact ⟨t, ht, String.toList_ofList.symm⟩
          exact hreading s (hsubset hs)
        obtain ⟨t, ht, hescape⟩ := hraw
        have hdirty : ∃ d ∈ t.toList, d ∈ escaped := by
          by_contra hclean
          push Not at hclean
          rw [escapeString_of_forall hclean] at hescape
          exact hclean c (hescape ▸ hc) hmem
        obtain ⟨d, hd, hdmem⟩ := hdirty
        have hlt := length_lt_of_mem_escaped hd hdmem
        rw [show t.toList.flatMap escapeChar = s.toList from hescape, hlength] at hlt
        exact ih _ hlt t ht rfl d hd hdmem
    exact fun s hs ↦ hshorter _ s hs rfl
  · intro h
    have hquote : ∀ s ∈ v.strings, '"' ∉ s.toList := fun s hs hmem ↦
      h s hs '"' hmem (by decide)
    exact ⟨_, parseJson_stringifyJson hintegral hquote,
      eq_reading_treeOf hintegral hdistinct fun s hs ↦ escapeString_of_forall (h s hs)⟩

theorem roundTrips_array : RoundTrips (.array [.null, .string (String.ofList ['a'])]) := by
  refine (parseJson_stringifyJson_iff ?_ ?_).mpr ?_
  · simp [JsonValue.Integral, JsonValue.IntegralItems]
  · simp [JsonValue.Distinct, JsonValue.DistinctItems]
  · simp [JsonValue.strings, JsonValue.stringsItems, escaped]

/-- A line feed is read back as a backslash and an `n`. -/
theorem not_roundTrips_lineFeed :
    ¬ ∀ v : JsonValue, v.Integral → v.Distinct → RoundTrips v := by
  intro h
  obtain ⟨w, hparse, heq⟩ := h (.string (String.ofList ['\n'])) (by simp [JsonValue.Integral])
    (by simp [JsonValue.Distinct])
  have hread : parseJson (stringifyJson (.string (String.ofList ['\n']))) =
      .ok (.string (String.ofList ['\\', 'n'])) := by
    have htext : stringify (.string (String.ofList ['\n'])) = ['"', '\\', 'n', '"'] := by
      rw [stringify, quoted, escapeString, String.toList_ofList]
      rfl
    rw [stringifyJson, htext, parseJson_ofList]
    rfl
  rw [hread] at hparse
  obtain rfl := Except.ok.inj hparse
  rw [JsonValue.eq, beq_iff_eq, String.ofList_inj] at heq
  exact absurd heq (by decide)

end Lithair.Serialization.Json
