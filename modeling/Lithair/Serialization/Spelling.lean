import Lithair.Serialization.Json
import Mathlib.Data.List.DropRight

/-!
# The spelling of JSON texts and what the parser makes of it

A `Tree` is a JSON text without its white space: numbers by their parts, and strings and names as
they stand between their quotes. `Tree.Spells` says which texts a tree has, in a `Style` that says
what white space is and what a name opens with.

On a text, in the style `lenient`, of a tree whose strings have no quote in them and whose numbers
have no exponent the parser gives `Tree.reading`, every string as it stands, and stops right behind
the text (`Tree.readsAs_reading`). When a number inside an array or an object has an exponent, the
parser gives an error (`Tree.refuses_of_hasExponent`).
-/

namespace Lithair.Serialization.Json

open Lithair.Lib Lithair.Lib.Text

/-! ### Trees and their texts -/

structure Exponent where
  mark : Char
  sign : Option Char
  digits : List Char

structure Numeral where
  negative : Bool
  whole : List Char
  fraction : Option (List Char)
  exponent : Option Exponent

namespace Numeral

/-- A number up to its exponent and without its sign. -/
def magnitudeText (n : Numeral) : List Char :=
  n.whole ++ match n.fraction with
    | some digits => '.' :: digits
    | none => []

def mantissa (n : Numeral) : List Char := (if n.negative then ['-'] else []) ++ n.magnitudeText

def exponentText (n : Numeral) : List Char :=
  match n.exponent with
  | some e => e.mark :: (e.sign.toList ++ e.digits)
  | none => []

def text (n : Numeral) : List Char := n.mantissa ++ n.exponentText

/-- The mantissa is made of digits, and begins with one or with a sign. -/
structure Digital (n : Numeral) : Prop where
  digit : n.whole ++ n.fraction.getD [] ≠ []
  begins : n.whole ≠ [] ∨ n.negative = true
  whole_digits : ∀ c ∈ n.whole, c.isDigit = true
  fraction_digits : ∀ digits ∈ n.fraction, ∀ c ∈ digits, c.isDigit = true

/-- The value of the mantissa. -/
def reading (n : Numeral) : Binary64 :=
  Binary64.nearest n.negative (decimal n.whole (n.fraction.getD []))

end Numeral

/-- What the numbers and the strings of a text stand for. -/
structure Meaning where
  number : Numeral → Binary64
  string : List Char → String

/-- Numbers without their exponents and strings as they stand. -/
def verbatim : Meaning where
  number := Numeral.reading
  string := String.ofList

inductive Tree
  | null
  | bool (b : Bool)
  | number (n : Numeral)
  | string (raw : List Char)
  | array (items : List Tree)
  | object (members : List (List Char × Tree))

/-- What white space is and what a name opens with, the first of its object or another one. -/
structure Style where
  gap : Char → Prop
  opens : Bool → Char → Prop

/-- White space is made of four characters, and a name opens with a quote. -/
def strict : Style where
  gap := fun c ↦ c ∈ [' ', '\t', '\n', '\r']
  opens := fun _ c ↦ c = '"'

/-- What the parser takes: all white space of Unicode, and any character that is not white space
in front of a name. -/
def lenient : Style where
  gap := fun c ↦ isWhitespace c = true
  opens := fun first c ↦ isWhitespace c = false ∧ (first = true → c ≠ '\x7d')

/-- White space of a JSON text. -/
def Gap (style : Style) (text : List Char) : Prop := ∀ c ∈ text, style.gap c

/-- A text with white space around it. -/
def Padded (style : Style) (Spelled : List Char → Prop) (text : List Char) : Prop :=
  ∃ before inner after,
    text = before ++ (inner ++ after) ∧ Gap style before ∧ Gap style after ∧ Spelled inner

/-- A name from its opening to its closing quote. -/
def Named (style : Style) (first : Bool) (name text : List Char) : Prop :=
  ∃ opening, style.opens first opening ∧ text = opening :: (name ++ ['"'])

namespace Tree

mutual

/-- The texts of a tree. -/
def Spells (style : Style) : Tree → List Char → Prop
  | null, text => text = ['n', 'u', 'l', 'l']
  | bool true, text => text = ['t', 'r', 'u', 'e']
  | bool false, text => text = ['f', 'a', 'l', 's', 'e']
  | number n, text => text = n.text
  | string raw, text => text = '"' :: (raw ++ ['"'])
  | array items, text => ∃ inside, text = '[' :: (inside ++ [']']) ∧ SpellsItems style items inside
  | object members, text =>
    ∃ inside, text = '\x7b' :: (inside ++ ['\x7d']) ∧ SpellsMembers style true members inside

def SpellsItems (style : Style) : List Tree → List Char → Prop
  | [], inside => Gap style inside
  | [tree], inside => Padded style (Spells style tree) inside
  | tree :: items, inside =>
    ∃ first rest, inside = first ++ ',' :: rest ∧ Padded style (Spells style tree) first ∧
      SpellsItems style items rest

def SpellsMembers (style : Style) (leading : Bool) : List (List Char × Tree) → List Char → Prop
  | [], inside => Gap style inside
  | [(name, tree)], inside =>
    ∃ first value, inside = first ++ ':' :: value ∧
      Padded style (Named style leading name) first ∧ Padded style (Spells style tree) value
  | (name, tree) :: members, inside =>
    ∃ first value rest, inside = first ++ ':' :: (value ++ ',' :: rest) ∧
      Padded style (Named style leading name) first ∧ Padded style (Spells style tree) value ∧
      SpellsMembers style false members rest

end

mutual

/-- The strings of a tree and the names of its members, as they stand between their quotes. -/
def raws : Tree → List (List Char)
  | string raw => [raw]
  | array items => rawsItems items
  | object members => rawsMembers members
  | _ => []

def rawsItems : List Tree → List (List Char)
  | [] => []
  | tree :: items => raws tree ++ rawsItems items

def rawsMembers : List (List Char × Tree) → List (List Char)
  | [] => []
  | (name, tree) :: members => name :: (raws tree ++ rawsMembers members)

end

mutual

def numerals : Tree → List Numeral
  | number n => [n]
  | array items => numeralsItems items
  | object members => numeralsMembers members
  | _ => []

def numeralsItems : List Tree → List Numeral
  | [] => []
  | tree :: items => numerals tree ++ numeralsItems items

def numeralsMembers : List (List Char × Tree) → List Numeral
  | [] => []
  | (_, tree) :: members => numerals tree ++ numeralsMembers members

end

mutual

/-- The value of a tree. Of members with one name the last one counts. -/
def eval (meaning : Meaning) : Tree → JsonValue
  | null => .null
  | bool b => .bool b
  | number n => .number (meaning.number n)
  | string raw => .string (meaning.string raw)
  | array items => .array (evalItems meaning items)
  | object members => .object (evalMembers meaning [] members)

def evalItems (meaning : Meaning) : List Tree → List JsonValue
  | [] => []
  | tree :: items => eval meaning tree :: evalItems meaning items

def evalMembers (meaning : Meaning) :
    List (String × JsonValue) → List (List Char × Tree) → List (String × JsonValue)
  | obj, [] => obj
  | obj, (name, tree) :: members =>
    evalMembers meaning (insert (meaning.string name) (eval meaning tree) obj) members

end

/-- The value of a tree with its strings as they stand and its numbers without their exponents. -/
abbrev reading (tree : Tree) : JsonValue := tree.eval verbatim

end Tree

/-! ### White space -/

theorem skipWhitespace_gap {lead : List Char} (h : Gap lenient lead) (rest : List Char) :
    skipWhitespace (lead ++ rest) = skipWhitespace rest :=
  dropWhile_append_of_all h

theorem skipWhitespace_cons {c : Char} (h : isWhitespace c = false) (rest : List Char) :
    skipWhitespace (c :: rest) = c :: rest :=
  List.dropWhile_cons_of_neg (by simp [h])

@[simp] theorem skipWhitespace_skip (text : List Char) :
    skipWhitespace (skipWhitespace text) = skipWhitespace text :=
  List.dropWhile_idempotent _ text

/-- The parser skips white space in front of a value. -/
theorem parseValue_skip (fuel : ℕ) (text : List Char) :
    parseValue fuel (skipWhitespace text) = parseValue fuel text := by
  cases fuel with
  | zero => rfl
  | succ fuel => rw [parseValue, parseValue, skipWhitespace_skip]

theorem parseItems_skip (fuel : ℕ) (items : List JsonValue) (text : List Char) :
    parseItems fuel items (skipWhitespace text) = parseItems fuel items text := by
  cases fuel with
  | zero => rfl
  | succ fuel => rw [parseItems, parseItems, parseValue_skip]

/-! ### Strings and numbers -/

theorem parseString_raw {raw : List Char} (h : '"' ∉ raw) (opening : Char) (rest : List Char) :
    parseString (opening :: (raw ++ '"' :: rest)) = .ok (.string (String.ofList raw), rest) := by
  have hraw : ∀ c ∈ raw, (c != '"') = true := by
    intro c hc
    exact bne_iff_ne.mpr fun heq ↦ h (heq ▸ hc)
  have hdrop : (raw ++ '"' :: rest).dropWhile (· != '"') = '"' :: rest := by
    rw [List.dropWhile_append_of_pos hraw]
    exact List.dropWhile_cons_of_neg (by decide)
  have htake : (raw ++ '"' :: rest).takeWhile (· != '"') = raw := by
    rw [List.takeWhile_append_of_pos hraw]
    exact List.append_nil raw
  rw [parseString, List.tail_cons, hdrop, htake]

/-- What is behind a number does not go on with it. -/
def Stops (rest : List Char) : Prop := ∀ c ∈ rest.head?, isNumeric c = false

theorem stops_cons {c : Char} (h : isNumeric c = false) (rest : List Char) : Stops (c :: rest) := by
  intro d hd
  exact Option.some.inj hd ▸ h

theorem takeWhile_dropWhile_of_stops {front rest : List Char}
    (hfront : ∀ c ∈ front, isNumeric c = true) (hrest : Stops rest) :
    (front ++ rest).takeWhile isNumeric = front ∧ (front ++ rest).dropWhile isNumeric = rest := by
  rw [List.takeWhile_append_of_pos hfront, List.dropWhile_append_of_pos hfront]
  cases rest with
  | nil => exact ⟨List.append_nil front, rfl⟩
  | cons c rest =>
    have hc : ¬ isNumeric c = true := by
      rw [hrest c rfl]
      exact Bool.false_ne_true
    rw [List.takeWhile_cons_of_neg hc, List.dropWhile_cons_of_neg hc]
    exact ⟨List.append_nil front, rfl⟩

theorem isNumeric_of_isDigit {c : Char} (h : c.isDigit = true) : isNumeric c = true := by
  rw [isNumeric, h, Bool.true_or]

namespace Numeral

theorem isNumeric_of_mem_magnitudeText {n : Numeral} (h : n.Digital) :
    ∀ c ∈ n.magnitudeText, isNumeric c = true := by
  intro c hc
  rcases List.mem_append.mp hc with hwhole | hfraction
  · exact isNumeric_of_isDigit (h.whole_digits c hwhole)
  · cases hn : n.fraction with
    | none =>
      rw [hn] at hfraction
      exact absurd hfraction List.not_mem_nil
    | some digits =>
      rw [hn] at hfraction
      rcases List.mem_cons.mp hfraction with rfl | hdigit
      · rfl
      · exact isNumeric_of_isDigit (h.fraction_digits digits hn c hdigit)

theorem parseMagnitude_magnitudeText {n : Numeral} (h : n.Digital) :
    parseMagnitude n.magnitudeText = some (decimal n.whole (n.fraction.getD [])) := by
  unfold parseMagnitude magnitudeText
  rw [List.takeWhile_append_of_pos h.whole_digits, List.dropWhile_append_of_pos h.whole_digits]
  cases hn : n.fraction with
  | none =>
    have hwhole : n.whole ≠ [] := by
      have hdigit := h.digit
      rwa [hn, Option.getD_none, List.append_nil] at hdigit
    simp [hwhole]
  | some digits =>
    have hall : digits.all Char.isDigit = true :=
      List.all_eq_true.mpr (h.fraction_digits digits hn)
    have hpoint : ¬ Char.isDigit '.' = true := by decide
    rw [List.takeWhile_cons_of_neg hpoint, List.dropWhile_cons_of_neg hpoint, List.append_nil]
    have hdigit : n.whole ++ digits ≠ [] := by
      have hdigit := h.digit
      rwa [hn, Option.getD_some] at hdigit
    simp only [hall, ne_eq, hdigit, not_false_eq_true, and_self, if_true, Option.getD_some]

/-- A number begins with its sign or a digit. -/
theorem mantissa_head {n : Numeral} (h : n.Digital) :
    ∃ c rest, n.mantissa = c :: rest ∧
      (c.isDigit = true ∧ n.negative = false ∧ n.magnitudeText = c :: rest ∨
        c = '-' ∧ n.negative = true ∧ n.magnitudeText = rest) := by
  rw [mantissa]
  cases hn : n.negative with
  | true => exact ⟨'-', n.magnitudeText, rfl, Or.inr ⟨rfl, rfl, rfl⟩⟩
  | false =>
    have hwhole : n.whole ≠ [] := h.begins.resolve_right (by simp [hn])
    obtain ⟨c, whole, hc⟩ := List.exists_cons_of_ne_nil hwhole
    have hdigit : c.isDigit = true := h.whole_digits c (hc ▸ List.mem_cons_self)
    rw [magnitudeText, hc]
    exact ⟨c, _, rfl, Or.inl ⟨hdigit, rfl, rfl⟩⟩

end Numeral

/-- No other value begins as a number does. -/
theorem number_head {c : Char} (h : c.isDigit = true ∨ c = '-') :
    isWhitespace c = false ∧
      ∀ d ∈ ['n', 't', 'f', '"', '[', ']', '\x7b', '\x7d'], c ≠ d := by
  rcases h with hdigit | rfl
  · constructor
    · simp only [Char.isDigit, Bool.and_eq_true, decide_eq_true_eq] at hdigit
      have hlow : '0'.toNat ≤ c.toNat := UInt32.le_iff_toNat_le.mp hdigit.1
      have hhigh : c.toNat ≤ '9'.toNat := UInt32.le_iff_toNat_le.mp hdigit.2
      have hzero : '0'.toNat = 48 := by decide
      have hnine : '9'.toNat = 57 := by decide
      simp only [isWhitespace, Bool.or_eq_false_iff, Bool.and_eq_false_iff,
        decide_eq_false_iff_not, beq_eq_false_iff_ne]
      omega
    · have hother : ∀ d ∈ ['n', 't', 'f', '"', '[', ']', '\x7b', '\x7d'],
          d.isDigit = false := forall_of_all (by decide)
      rintro d hd rfl
      rw [hother c hd] at hdigit
      exact absurd hdigit Bool.false_ne_true
  · exact ⟨by decide, forall_of_all (by decide)⟩

theorem isNumeric_of_isWhitespace {c : Char} (h : isWhitespace c = true) :
    isNumeric c = false := by
  cases hdigit : c.isDigit with
  | true => exact absurd ((number_head (Or.inl hdigit)).1.symm.trans h) Bool.false_ne_true
  | false =>
    have hpoint : c ≠ '.' := by
      rintro rfl
      exact absurd h (by decide)
    rw [isNumeric, hdigit, Bool.false_or]
    exact beq_false_of_ne hpoint

/-- A number is read up to its exponent. -/
theorem parseNumber_mantissa {n : Numeral} (h : n.Digital) {rest : List Char} (hrest : Stops rest) :
    parseNumber (n.mantissa ++ rest) = .ok (.number n.reading, rest) := by
  obtain ⟨htake, hdrop⟩ :=
    takeWhile_dropWhile_of_stops (Numeral.isNumeric_of_mem_magnitudeText h) hrest
  have hread := Numeral.parseMagnitude_magnitudeText h
  obtain ⟨c, tail, hc, ⟨hdigit, hn, htext⟩ | ⟨rfl, hn, htext⟩⟩ := Numeral.mantissa_head h
  · have hsign : c ≠ '-' := by
      rintro rfl
      exact absurd hdigit (by decide)
    have hhead : (c :: (tail ++ rest)).head? ≠ some '-' := fun heq ↦ hsign (Option.some.inj heq)
    have hparse : parseF64 (c :: tail) = some n.reading := by
      rw [htext] at hread
      rw [parseF64.eq_2 _ (fun text heq ↦ hsign (List.cons.inj heq).1), hread, Numeral.reading, hn]
      rfl
    rw [htext, List.cons_append] at htake hdrop
    rw [hc, List.cons_append, parseNumber]
    simp only [if_neg hhead, List.length_nil, List.drop_zero, htake, hdrop, List.nil_append, hparse]
  · rw [← htext] at hc
    rw [hc, List.cons_append, parseNumber]
    simp only [List.head?_cons, if_true, List.length_singleton, List.drop_one, List.tail_cons,
      htake, hdrop, List.singleton_append, parseF64, hread, Option.map_some, Numeral.reading, hn]

/-! ### What is read of a spelled text -/

theorem parseValue_gap (fuel : ℕ) {lead : List Char} (h : Gap lenient lead) (rest : List Char) :
    parseValue fuel (lead ++ rest) = parseValue fuel rest := by
  rw [← parseValue_skip, skipWhitespace_gap h, parseValue_skip]

theorem stops_gap {after : List Char} (h : Gap lenient after) {c : Char}
    (hc : isNumeric c = false) (rest : List Char) : Stops (after ++ c :: rest) := by
  cases after with
  | nil => exact stops_cons hc rest
  | cons d after => exact stops_cons (isNumeric_of_isWhitespace (h d List.mem_cons_self)) _

namespace Tree

/-- The strings and names have no quote in them and the numbers are made of digits. -/
structure Clear (tree : Tree) : Prop where
  quote_notMem : ∀ raw ∈ tree.raws, '"' ∉ raw
  digital : ∀ n ∈ tree.numerals, n.Digital

/-- Some number has an exponent. -/
def HasExponent (tree : Tree) : Prop := ∃ n ∈ tree.numerals, n.exponent.isSome

/-- What is behind the tree does not go on with it. -/
def StopsBehind : Tree → List Char → Prop
  | number _, rest => Stops rest
  | _, _ => True

/-- On the texts of a tree the parser gives a value and stops behind them. -/
def ReadsAs (tree : Tree) (v : JsonValue) : Prop :=
  ∀ text, tree.Spells lenient text → ∀ rest, tree.StopsBehind rest → ∀ fuel,
    2 * text.length ≤ fuel → parseValue fuel (text ++ rest) = .ok (v, rest)

theorem stopsBehind_of_stops {tree : Tree} {rest : List Char} (h : Stops rest) :
    tree.StopsBehind rest := by
  cases tree with
  | number n => exact h
  | null | bool | string | array | object => trivial

/-- The first character of a text of a tree. -/
theorem spells_head {tree : Tree} (hclear : tree.Clear) {style : Style} {text : List Char}
    (h : tree.Spells style text) :
    ∃ c rest, text = c :: rest ∧ isWhitespace c = false ∧ c ≠ ']' ∧ c ≠ '\x7d' := by
  cases tree with
  | null =>
    rw [Spells] at h
    exact ⟨_, _, h, by decide⟩
  | bool b =>
    cases b <;> rw [Spells] at h <;> exact ⟨_, _, h, by decide⟩
  | number n =>
    rw [Spells] at h
    obtain ⟨c, rest, hc, hfirst⟩ :=
      Numeral.mantissa_head (hclear.digital n (by rw [numerals]; exact List.mem_singleton_self n))
    obtain ⟨hspace, hne⟩ := number_head (hfirst.imp And.left And.left)
    refine ⟨c, rest ++ n.exponentText, by rw [h, Numeral.text, hc]; rfl, hspace, ?_, ?_⟩
    · exact hne ']' (by decide)
    · exact hne '\x7d' (by decide)
  | string raw =>
    rw [Spells] at h
    exact ⟨_, _, h, by decide⟩
  | array items =>
    rw [Spells] at h
    obtain ⟨inside, h, -⟩ := h
    exact ⟨_, _, h, by decide⟩
  | object members =>
    rw [Spells] at h
    obtain ⟨inside, h, -⟩ := h
    exact ⟨_, _, h, by decide⟩

/-- A value with white space around it, and the mark behind that. -/
theorem ReadsAs.padded {tree : Tree} {v : JsonValue} (h : tree.ReadsAs v) {text : List Char}
    (htext : Padded lenient (tree.Spells lenient) text) {c : Char} (hnumeric : isNumeric c = false)
    (hspace : isWhitespace c = false) (more : List Char) {fuel : ℕ}
    (hfuel : 2 * text.length ≤ fuel) :
    ∃ rest, parseValue fuel (text ++ c :: more) = .ok (v, rest) ∧
      skipWhitespace rest = c :: more := by
  obtain ⟨before, inner, after, rfl, hbefore, hafter, hinner⟩ := htext
  refine ⟨after ++ c :: more, ?_, ?_⟩
  · rw [List.append_assoc, List.append_assoc, parseValue_gap fuel hbefore]
    refine h inner hinner _ (stopsBehind_of_stops (stops_gap hafter hnumeric more)) fuel ?_
    simp only [List.length_append] at hfuel
    omega
  · rw [skipWhitespace_gap hafter, skipWhitespace_cons hspace]

/-- A name with white space around it, and the colon behind that. -/
theorem parseString_padded {name text : List Char} (hname : '"' ∉ name) {leading : Bool}
    (htext : Padded lenient (Named lenient leading name) text) (more : List Char) :
    ∃ rest, parseString (skipWhitespace (text ++ ':' :: more)) =
        .ok (.string (String.ofList name), rest) ∧ skipWhitespace rest = ':' :: more := by
  obtain ⟨before, inner, after, rfl, hbefore, hafter, opening, hopening, rfl⟩ := htext
  refine ⟨after ++ ':' :: more, ?_, ?_⟩
  · rw [List.append_assoc, List.append_assoc, skipWhitespace_gap hbefore, List.cons_append,
      skipWhitespace_cons hopening.1, List.append_assoc]
    exact parseString_raw hname opening _
  · rw [skipWhitespace_gap hafter, skipWhitespace_cons (by decide)]

/-- Induction over a tree, with the items of an array and the members of an object as lists. -/
theorem induction {P : Tree → Prop} (null : P .null) (bool : ∀ b, P (.bool b))
    (number : ∀ n, P (.number n)) (string : ∀ raw, P (.string raw))
    (array : ∀ items, (∀ tree ∈ items, P tree) → P (.array items))
    (object : ∀ members : List (List Char × Tree), (∀ member ∈ members, P member.2) →
      P (.object members)) (tree : Tree) : P tree :=
  Tree.rec (motive_1 := P) (motive_2 := fun items ↦ ∀ tree ∈ items, P tree)
    (motive_3 := fun members ↦ ∀ member ∈ members, P member.2) (motive_4 := fun member ↦ P member.2)
    null bool number string array object (fun _ h ↦ absurd h List.not_mem_nil)
    (fun _ _ hfirst hrest ↦ List.forall_mem_cons.mpr ⟨hfirst, hrest⟩)
    (fun _ h ↦ absurd h List.not_mem_nil)
    (fun _ _ hfirst hrest ↦ List.forall_mem_cons.mpr ⟨hfirst, hrest⟩) (fun _ _ h ↦ h) tree

theorem rawsItems_eq (items : List Tree) : rawsItems items = items.flatMap raws := by
  induction items with
  | nil => rfl
  | cons tree items ih => rw [rawsItems, ih, List.flatMap_cons]

theorem rawsMembers_eq (members : List (List Char × Tree)) :
    rawsMembers members = members.flatMap fun member ↦ member.1 :: raws member.2 := by
  induction members with
  | nil => rfl
  | cons member members ih =>
    rw [rawsMembers, ih, List.flatMap_cons]
    rfl

theorem numeralsItems_eq (items : List Tree) : numeralsItems items = items.flatMap numerals := by
  induction items with
  | nil => rfl
  | cons tree items ih => rw [numeralsItems, ih, List.flatMap_cons]

theorem numeralsMembers_eq (members : List (List Char × Tree)) :
    numeralsMembers members = members.flatMap fun member ↦ numerals member.2 := by
  induction members with
  | nil => rfl
  | cons member members ih => rw [numeralsMembers, ih, List.flatMap_cons]

theorem evalItems_eq (meaning : Meaning) (items : List Tree) :
    evalItems meaning items = items.map (eval meaning) := by
  induction items with
  | nil => rfl
  | cons tree items ih => rw [evalItems, ih, List.map_cons]

theorem Clear.item {items : List Tree} (h : (array items).Clear) {tree : Tree}
    (htree : tree ∈ items) : tree.Clear where
  quote_notMem raw hraw := h.quote_notMem raw (by
    rw [raws, rawsItems_eq]
    exact List.mem_flatMap_of_mem htree hraw)
  digital n hn := h.digital n (by
    rw [numerals, numeralsItems_eq]
    exact List.mem_flatMap_of_mem htree hn)

theorem Clear.member {members : List (List Char × Tree)} (h : (object members).Clear)
    {member : List Char × Tree} (hmember : member ∈ members) :
    '"' ∉ member.1 ∧ member.2.Clear := by
  have hraws : ∀ raw ∈ member.1 :: member.2.raws, '"' ∉ raw := by
    intro raw hraw
    refine h.quote_notMem raw ?_
    rw [raws, rawsMembers_eq]
    exact List.mem_flatMap_of_mem hmember hraw
  refine ⟨hraws _ List.mem_cons_self, fun raw hraw ↦ hraws raw (List.mem_cons_of_mem _ hraw),
    fun n hn ↦ h.digital n ?_⟩
  rw [numerals, numeralsMembers_eq]
  exact List.mem_flatMap_of_mem hmember hn

theorem hasExponent_array {items : List Tree} :
    (array items).HasExponent ↔ ∃ tree ∈ items, tree.HasExponent := by
  unfold HasExponent
  rw [numerals, numeralsItems_eq]
  simp only [List.mem_flatMap]
  tauto

theorem hasExponent_object {members : List (List Char × Tree)} :
    (object members).HasExponent ↔ ∃ member ∈ members, member.2.HasExponent := by
  unfold HasExponent
  rw [numerals, numeralsMembers_eq]
  simp only [List.mem_flatMap]
  tauto

end Tree

/-! ### The loops -/

section Loops

variable {fuel : ℕ} {text rest more : List Char} {v : JsonValue} {items : List JsonValue}
  {obj : List (String × JsonValue)} {key : String}

theorem parseItems_last (hv : parseValue fuel text = .ok (v, rest))
    (hrest : skipWhitespace rest = ']' :: more) :
    parseItems (fuel + 1) items text = .ok (.array (items ++ [v]), more) := by
  rw [parseItems, hv]
  simp only [hrest, if_true]

theorem parseItems_more (hv : parseValue fuel text = .ok (v, rest))
    (hrest : skipWhitespace rest = ',' :: more) :
    parseItems (fuel + 1) items text = parseItems fuel (items ++ [v]) more := by
  have hcomma : ¬ ',' = ']' := by decide
  rw [parseItems, hv]
  simp only [hrest, if_neg hcomma, if_true, parseItems_skip]

theorem parseItems_error {e : JsonError} (hv : parseValue fuel text = .error e) :
    parseItems (fuel + 1) items text = .error e := by
  rw [parseItems, hv]

theorem parseItems_other (hv : parseValue fuel text = .ok (v, rest)) {c : Char}
    (hrest : skipWhitespace rest = c :: more) (hclose : c ≠ ']') (hcomma : c ≠ ',') :
    parseItems (fuel + 1) items text = .error (.unexpectedToken c) := by
  rw [parseItems, hv]
  simp only [hrest, if_neg hclose, if_neg hcomma]

variable {name behind : List Char}

theorem parseFields_last (hkey : parseString text = .ok (.string key, name))
    (hcolon : skipWhitespace name = ':' :: behind) (hv : parseValue fuel behind = .ok (v, rest))
    (hrest : skipWhitespace rest = '\x7d' :: more) :
    parseFields (fuel + 1) obj text = .ok (.object (insert key v obj), more) := by
  rw [parseFields, hkey]
  simp only [hcolon, hv, hrest, if_true]

theorem parseFields_more (hkey : parseString text = .ok (.string key, name))
    (hcolon : skipWhitespace name = ':' :: behind) (hv : parseValue fuel behind = .ok (v, rest))
    (hrest : skipWhitespace rest = ',' :: more) :
    parseFields (fuel + 1) obj text =
      parseFields fuel (insert key v obj) (skipWhitespace more) := by
  have hcomma : ¬ ',' = '\x7d' := by decide
  rw [parseFields, hkey]
  simp only [hcolon, hv, hrest, if_neg hcomma, if_true]

theorem parseFields_other (hkey : parseString text = .ok (.string key, name))
    (hcolon : skipWhitespace name = ':' :: behind) (hv : parseValue fuel behind = .ok (v, rest))
    {c : Char} (hrest : skipWhitespace rest = c :: more) (hclose : c ≠ '\x7d') (hcomma : c ≠ ',') :
    parseFields (fuel + 1) obj text = .error (.unexpectedToken c) := by
  rw [parseFields, hkey]
  simp only [hcolon, hv, hrest, if_neg hclose, if_neg hcomma, if_true]

theorem parseFields_error (hkey : parseString text = .ok (.string key, name))
    (hcolon : skipWhitespace name = ':' :: behind) {e : JsonError}
    (hv : parseValue fuel behind = .error e) : parseFields (fuel + 1) obj text = .error e := by
  rw [parseFields, hkey]
  simp only [hcolon, hv, if_true]

end Loops

namespace Tree

theorem spellsItems_cons {style : Style} {tree : Tree} {items : List Tree} {inside : List Char}
    (h : SpellsItems style (tree :: items) inside) :
    ∃ first others, inside = first ++ others ∧ Padded style (tree.Spells style) first ∧
      (items = [] ∧ others = [] ∨
        items ≠ [] ∧ ∃ more, others = ',' :: more ∧ SpellsItems style items more) := by
  cases items with
  | nil =>
    rw [SpellsItems] at h
    exact ⟨inside, [], (List.append_nil inside).symm, h, Or.inl ⟨rfl, rfl⟩⟩
  | cons next items =>
    rw [SpellsItems] at h
    · obtain ⟨first, more, hinside, hfirst, hmore⟩ := h
      exact ⟨first, ',' :: more, hinside, hfirst, Or.inr ⟨List.cons_ne_nil _ _, more, rfl, hmore⟩⟩
    · exact fun hnil ↦ absurd hnil (List.cons_ne_nil _ _)

theorem spellsMembers_cons {style : Style} {leading : Bool} {name : List Char} {tree : Tree}
    {members : List (List Char × Tree)} {inside : List Char}
    (h : SpellsMembers style leading ((name, tree) :: members) inside) :
    ∃ first value others, inside = first ++ ':' :: (value ++ others) ∧
      Padded style (Named style leading name) first ∧ Padded style (tree.Spells style) value ∧
      (members = [] ∧ others = [] ∨
        members ≠ [] ∧ ∃ more, others = ',' :: more ∧ SpellsMembers style false members more) := by
  cases members with
  | nil =>
    rw [SpellsMembers] at h
    obtain ⟨first, value, rfl, hfirst, hvalue⟩ := h
    exact ⟨first, value, [], by rw [List.append_nil], hfirst, hvalue, Or.inl ⟨rfl, rfl⟩⟩
  | cons next members =>
    rw [SpellsMembers] at h
    · obtain ⟨first, value, more, hinside, hfirst, hvalue, hmore⟩ := h
      exact ⟨first, value, ',' :: more, hinside, hfirst, hvalue,
        Or.inr ⟨List.cons_ne_nil _ _, more, rfl, hmore⟩⟩
    · exact fun hnil ↦ absurd hnil (List.cons_ne_nil _ _)

theorem parseItems_of_spells {items : List Tree} (hne : items ≠ [])
    (hitems : ∀ tree ∈ items, tree.ReadsAs tree.reading) {inside : List Char}
    (h : SpellsItems lenient items inside) (done : List JsonValue) (rest : List Char) {fuel : ℕ}
    (hfuel : 2 * inside.length + 1 ≤ fuel) :
    parseItems fuel done (inside ++ ']' :: rest) =
      .ok (.array (done ++ evalItems verbatim items), rest) := by
  induction items generalizing inside done fuel with
  | nil => exact absurd rfl hne
  | cons tree items ih =>
    obtain ⟨fuel, rfl⟩ : ∃ n, fuel = n + 1 := ⟨fuel - 1, by omega⟩
    have htree := hitems tree List.mem_cons_self
    obtain ⟨first, others, rfl, hfirst, ⟨rfl, rfl⟩ | ⟨hitemsne, more, rfl, hmore⟩⟩ :=
      spellsItems_cons h
    · rw [List.append_nil] at hfuel ⊢
      obtain ⟨after, hv, hafter⟩ := htree.padded hfirst (c := ']') (by decide) (by decide) rest
        (show 2 * first.length ≤ fuel by omega)
      exact parseItems_last hv hafter
    · rw [List.length_append, List.length_cons] at hfuel
      obtain ⟨after, hv, hafter⟩ := htree.padded hfirst (c := ',') (by decide) (by decide)
        (more ++ ']' :: rest) (show 2 * first.length ≤ fuel by omega)
      rw [List.append_assoc, List.cons_append, parseItems_more hv hafter,
        ih hitemsne (fun t ht ↦ hitems t (List.mem_cons_of_mem _ ht)) hmore _ (by omega),
        List.append_assoc]
      rfl

theorem parseFields_of_spells {members : List (List Char × Tree)} (hne : members ≠ [])
    (hmembers : ∀ member ∈ members, '"' ∉ member.1 ∧ member.2.ReadsAs member.2.reading)
    {inside : List Char} {leading : Bool} (h : SpellsMembers lenient leading members inside)
    (obj : List (String × JsonValue)) (rest : List Char) {fuel : ℕ}
    (hfuel : 2 * inside.length + 1 ≤ fuel) :
    parseFields fuel obj (skipWhitespace (inside ++ '\x7d' :: rest)) =
      .ok (.object (evalMembers verbatim obj members), rest) := by
  induction members generalizing inside obj fuel leading with
  | nil => exact absurd rfl hne
  | cons member members ih =>
    obtain ⟨fuel, rfl⟩ : ∃ n, fuel = n + 1 := ⟨fuel - 1, by omega⟩
    obtain ⟨hname, htree⟩ := hmembers member List.mem_cons_self
    obtain ⟨name, tree⟩ := member
    obtain ⟨first, value, others, rfl, hfirst, hvalue,
      ⟨rfl, rfl⟩ | ⟨hmembersne, more, rfl, hmore⟩⟩ := spellsMembers_cons h
    · rw [List.append_nil] at hfuel ⊢
      rw [List.length_append, List.length_cons] at hfuel
      obtain ⟨behind, hkey, hcolon⟩ := parseString_padded hname hfirst (value ++ '\x7d' :: rest)
      obtain ⟨after, hv, hafter⟩ := htree.padded hvalue (c := '\x7d') (by decide) (by decide) rest
        (show 2 * value.length ≤ fuel by omega)
      rw [List.append_assoc, List.cons_append]
      exact parseFields_last hkey hcolon hv hafter
    · simp only [List.length_append, List.length_cons] at hfuel
      obtain ⟨behind, hkey, hcolon⟩ :=
        parseString_padded hname hfirst (value ++ ',' :: (more ++ '\x7d' :: rest))
      obtain ⟨after, hv, hafter⟩ := htree.padded hvalue (c := ',') (by decide) (by decide)
        (more ++ '\x7d' :: rest) (show 2 * value.length ≤ fuel by omega)
      simp only [List.append_assoc, List.cons_append]
      rw [parseFields_more hkey hcolon hv hafter,
        ih hmembersne (fun m hm ↦ hmembers m (List.mem_cons_of_mem _ hm)) hmore _ (by omega)]
      rfl

/-- The items of an array do not begin with the bracket that closes it. -/
theorem head_of_spellsItems {items : List Tree} (hne : items ≠ [])
    (hclear : ∀ tree ∈ items, tree.Clear) {inside : List Char}
    (h : SpellsItems lenient items inside) (more : List Char) :
    (skipWhitespace (inside ++ more)).head? ≠ some ']' := by
  obtain ⟨tree, items, rfl⟩ := List.exists_cons_of_ne_nil hne
  obtain ⟨first, others, rfl, ⟨before, inner, after, rfl, hbefore, -, hinner⟩, -⟩ :=
    spellsItems_cons h
  obtain ⟨c, rest, rfl, hspace, hclose, -⟩ :=
    spells_head (hclear tree List.mem_cons_self) hinner
  simp only [List.append_assoc, List.cons_append]
  rw [skipWhitespace_gap hbefore, skipWhitespace_cons hspace]
  exact fun heq ↦ hclose (Option.some.inj heq)

theorem head_of_spellsMembers {members : List (List Char × Tree)} (hne : members ≠ [])
    {inside : List Char} (h : SpellsMembers lenient true members inside) (more : List Char) :
    (skipWhitespace (inside ++ more)).head? ≠ some '\x7d' := by
  obtain ⟨⟨name, tree⟩, members, rfl⟩ := List.exists_cons_of_ne_nil hne
  obtain ⟨first, value, others, rfl,
    ⟨before, _, after, rfl, hbefore, -, opening, hopening, rfl⟩, -⟩ := spellsMembers_cons h
  simp only [List.append_assoc, List.cons_append]
  rw [skipWhitespace_gap hbefore, skipWhitespace_cons hopening.1]
  exact fun heq ↦ hopening.2 rfl (Option.some.inj heq)

end Tree

theorem parseValue_array (fuel : ℕ) (text : List Char) :
    parseValue (fuel + 1) ('[' :: text) = parseArray (parseItems fuel []) text := by
  rw [parseValue, skipWhitespace_cons (by decide)]
  rfl

theorem parseValue_object (fuel : ℕ) (text : List Char) :
    parseValue (fuel + 1) ('\x7b' :: text) = parseObject (parseFields fuel []) text := by
  rw [parseValue, skipWhitespace_cons (by decide)]
  rfl

theorem parseValue_string (fuel : ℕ) (text : List Char) :
    parseValue (fuel + 1) ('"' :: text) = parseString ('"' :: text) := by
  rw [parseValue, skipWhitespace_cons (by decide)]
  rfl

theorem parseValue_number (fuel : ℕ) {n : Numeral} (h : n.Digital) {rest : List Char}
    (hrest : Stops rest) :
    parseValue (fuel + 1) (n.mantissa ++ rest) = .ok (.number n.reading, rest) := by
  have hnumber := parseNumber_mantissa h hrest
  obtain ⟨c, tail, hc, hfirst⟩ := Numeral.mantissa_head h
  rw [hc, List.cons_append] at hnumber ⊢
  have hnumber_first := hfirst.imp And.left And.left
  obtain ⟨hspace, hne⟩ := number_head hnumber_first
  have hword : ¬ (c = 't' ∨ c = 'f') := by
    rintro (rfl | rfl)
    · exact hne 't' (by decide) rfl
    · exact hne 'f' (by decide) rfl
  rw [parseValue, skipWhitespace_cons hspace]
  simp only [if_neg (hne 'n' (by decide)), if_neg hword, if_neg (hne '"' (by decide)),
    if_neg (hne '[' (by decide)), if_neg (hne '\x7b' (by decide)), if_pos hnumber_first]
  exact hnumber

namespace Tree

theorem readsAs_of_succ {tree : Tree} (hclear : tree.Clear) {v : JsonValue}
    (h : ∀ text, tree.Spells lenient text → ∀ rest, tree.StopsBehind rest → ∀ fuel,
      2 * text.length ≤ fuel + 1 → parseValue (fuel + 1) (text ++ rest) = .ok (v, rest)) :
    tree.ReadsAs v := by
  intro text htext rest hrest fuel hfuel
  obtain ⟨c, tail, rfl, -⟩ := spells_head hclear htext
  cases fuel with
  | zero => exact absurd hfuel (by simp)
  | succ fuel => exact h _ htext rest hrest fuel hfuel

/-- On a text of a clear tree without exponents the parser reads the tree, its strings as they
stand. -/
theorem readsAs_reading {tree : Tree} (hclear : tree.Clear) (hexponent : ¬ tree.HasExponent) :
    tree.ReadsAs tree.reading := by
  induction tree using Tree.induction with
  | null =>
    refine readsAs_of_succ hclear fun text h rest _ fuel _ ↦ ?_
    rw [Spells] at h
    rw [h]
    rfl
  | bool b =>
    refine readsAs_of_succ hclear fun text h rest _ fuel _ ↦ ?_
    cases b <;> rw [Spells] at h <;> rw [h] <;> rfl
  | number n =>
    have hn : n ∈ (number n).numerals := by
      rw [numerals]
      exact List.mem_singleton_self n
    have hplain : n.exponentText = [] := by
      cases he : n.exponent with
      | none => rw [Numeral.exponentText, he]
      | some e => exact absurd ⟨n, hn, by rw [he]; rfl⟩ hexponent
    refine readsAs_of_succ hclear fun text h rest hrest fuel _ ↦ ?_
    rw [Spells, Numeral.text, hplain, List.append_nil] at h
    rw [h]
    exact parseValue_number fuel (hclear.digital n hn) hrest
  | string raw =>
    have hraw : '"' ∉ raw := by
      refine hclear.quote_notMem raw ?_
      rw [raws]
      exact List.mem_singleton_self raw
    refine readsAs_of_succ hclear fun text h rest _ fuel _ ↦ ?_
    rw [Spells] at h
    rw [h, List.cons_append, List.append_assoc, parseValue_string]
    exact parseString_raw hraw '"' rest
  | array items ih =>
    have hitems : ∀ tree ∈ items, tree.ReadsAs tree.reading := fun tree htree ↦
      ih tree htree (hclear.item htree) fun hexp ↦
        hexponent (hasExponent_array.mpr ⟨tree, htree, hexp⟩)
    refine readsAs_of_succ hclear fun text h rest _ fuel hfuel ↦ ?_
    rw [Spells] at h
    obtain ⟨inside, rfl, hinside⟩ := h
    simp only [List.length_cons, List.length_append] at hfuel
    rw [List.cons_append, List.append_assoc, List.singleton_append, parseValue_array, parseArray]
    by_cases hne : items = []
    · subst hne
      rw [SpellsItems] at hinside
      rw [skipWhitespace_gap hinside, skipWhitespace_cons (by decide)]
      rfl
    · simp only [if_neg (head_of_spellsItems hne (fun _ ↦ hclear.item) hinside _), parseItems_skip]
      exact parseItems_of_spells hne hitems hinside [] rest (by omega)
  | object members ih =>
    have hmembers : ∀ member ∈ members, '"' ∉ member.1 ∧ member.2.ReadsAs member.2.reading := by
      intro member hmember
      obtain ⟨hname, htree⟩ := hclear.member hmember
      exact ⟨hname, ih member hmember htree fun hexp ↦
        hexponent (hasExponent_object.mpr ⟨member, hmember, hexp⟩)⟩
    refine readsAs_of_succ hclear fun text h rest _ fuel hfuel ↦ ?_
    rw [Spells] at h
    obtain ⟨inside, rfl, hinside⟩ := h
    simp only [List.length_cons, List.length_append] at hfuel
    rw [List.cons_append, List.append_assoc, List.singleton_append, parseValue_object, parseObject]
    by_cases hne : members = []
    · subst hne
      rw [SpellsMembers] at hinside
      rw [skipWhitespace_gap hinside, skipWhitespace_cons (by decide)]
      rfl
    · simp only [if_neg (head_of_spellsMembers hne hinside _)]
      exact parseFields_of_spells hne hmembers hinside [] rest (by omega)

/-! ### Numbers with an exponent -/

/-- A text of the tree, with white space around it, is not read up to what is behind it. -/
def Breaks (tree : Tree) : Prop :=
  ∀ text, Padded lenient (tree.Spells lenient) text → ∀ more fuel, 2 * text.length ≤ fuel →
    (∃ e, parseValue fuel (text ++ more) = .error e) ∨
      ∃ v rest c tail, parseValue fuel (text ++ more) = .ok (v, rest) ∧
        skipWhitespace rest = c :: tail ∧ c ∉ [',', ']', '\x7d']

/-- On the texts of the tree the parser gives an error. -/
def Refuses (tree : Tree) : Prop :=
  ∀ text, tree.Spells lenient text → ∀ rest fuel, 2 * text.length ≤ fuel →
    ∃ e, parseValue fuel (text ++ rest) = .error e

theorem Refuses.breaks {tree : Tree} (h : tree.Refuses) : tree.Breaks := by
  rintro text ⟨before, inner, after, rfl, hbefore, -, hinner⟩ more fuel hfuel
  refine Or.inl ?_
  rw [List.append_assoc, List.append_assoc, parseValue_gap fuel hbefore]
  refine h inner hinner _ fuel ?_
  simp only [List.length_append] at hfuel
  omega

/-- The exponent of each number begins with its letter. -/
def Marked (tree : Tree) : Prop :=
  ∀ n ∈ tree.numerals, ∀ e ∈ n.exponent, e.mark = 'e' ∨ e.mark = 'E'

/-- A number is read up to its exponent, and the letter is left. -/
theorem breaks_number {n : Numeral} (hn : n.Digital) {e : Exponent} (he : n.exponent = some e)
    (hmark : e.mark = 'e' ∨ e.mark = 'E') : (number n).Breaks := by
  rintro text ⟨before, inner, after, rfl, hbefore, -, hinner⟩ more fuel hfuel
  rw [Spells, Numeral.text, Numeral.exponentText, he] at hinner
  subst hinner
  obtain ⟨hspace, hnumeric, hother⟩ : isWhitespace e.mark = false ∧ isNumeric e.mark = false ∧
      e.mark ∉ [',', ']', '\x7d'] := by
    rcases hmark with h | h <;> rw [h] <;> decide
  refine Or.inr ⟨.number n.reading, e.mark :: (e.sign.toList ++ (e.digits ++ (after ++ more))),
    e.mark, _, ?_, skipWhitespace_cons hspace _, hother⟩
  obtain ⟨c, tail, hc, -⟩ := Numeral.mantissa_head hn
  obtain ⟨fuel, rfl⟩ : ∃ k, fuel = k + 1 := by
    simp only [List.length_append, hc, List.length_cons] at hfuel
    exact ⟨fuel - 1, by omega⟩
  simp only [List.append_assoc, List.cons_append]
  rw [parseValue_gap _ hbefore]
  exact parseValue_number fuel hn (stops_cons hnumeric _)

theorem parseItems_of_hasExponent {items : List Tree}
    (hreads : ∀ tree ∈ items, ¬ tree.HasExponent → tree.ReadsAs tree.reading)
    (hbreaks : ∀ tree ∈ items, tree.HasExponent → tree.Breaks)
    (hexponent : ∃ tree ∈ items, tree.HasExponent) {inside : List Char}
    (h : SpellsItems lenient items inside) (done : List JsonValue) (rest : List Char) {fuel : ℕ}
    (hfuel : 2 * inside.length + 1 ≤ fuel) :
    ∃ e, parseItems fuel done (inside ++ ']' :: rest) = .error e := by
  induction items generalizing inside done fuel with
  | nil =>
    obtain ⟨tree, htree, -⟩ := hexponent
    exact absurd htree List.not_mem_nil
  | cons tree items ih =>
    obtain ⟨fuel, rfl⟩ : ∃ n, fuel = n + 1 := ⟨fuel - 1, by omega⟩
    obtain ⟨first, others, rfl, hfirst, hothers⟩ := spellsItems_cons h
    rw [List.length_append] at hfuel
    rw [List.append_assoc]
    by_cases htree : tree.HasExponent
    · rcases hbreaks tree List.mem_cons_self htree first hfirst (others ++ ']' :: rest) fuel
        (by omega) with ⟨e, he⟩ | ⟨v, behind, c, tail, hv, hbehind, hc⟩
      · exact ⟨e, parseItems_error he⟩
      · exact ⟨_, parseItems_other hv hbehind (fun heq ↦ hc (by simp [heq]))
          (fun heq ↦ hc (by simp [heq]))⟩
    · have hlater : ∃ tree ∈ items, tree.HasExponent :=
        (List.or_exists_of_exists_mem_cons hexponent).resolve_left htree
      have ⟨other, hother, _⟩ := hlater
      obtain ⟨-, more, rfl, hmore⟩ := hothers.resolve_left fun hnil ↦
        List.ne_nil_of_mem hother hnil.1
      obtain ⟨after, hv, hafter⟩ := (hreads tree List.mem_cons_self htree).padded hfirst
        (c := ',') (by decide) (by decide) (more ++ ']' :: rest)
        (show 2 * first.length ≤ fuel by omega)
      rw [List.length_cons] at hfuel
      rw [List.cons_append, parseItems_more hv hafter]
      exact ih (fun t ht ↦ hreads t (List.mem_cons_of_mem _ ht))
        (fun t ht ↦ hbreaks t (List.mem_cons_of_mem _ ht)) hlater hmore _ (by omega)

theorem parseFields_of_hasExponent {members : List (List Char × Tree)}
    (hnames : ∀ member ∈ members, '"' ∉ member.1)
    (hreads : ∀ member ∈ members, ¬ member.2.HasExponent → member.2.ReadsAs member.2.reading)
    (hbreaks : ∀ member ∈ members, member.2.HasExponent → member.2.Breaks)
    (hexponent : ∃ member ∈ members, member.2.HasExponent) {inside : List Char} {leading : Bool}
    (h : SpellsMembers lenient leading members inside) (obj : List (String × JsonValue))
    (rest : List Char) {fuel : ℕ} (hfuel : 2 * inside.length + 1 ≤ fuel) :
    ∃ e, parseFields fuel obj (skipWhitespace (inside ++ '\x7d' :: rest)) = .error e := by
  induction members generalizing inside obj fuel leading with
  | nil =>
    obtain ⟨member, hmember, -⟩ := hexponent
    exact absurd hmember List.not_mem_nil
  | cons member members ih =>
    obtain ⟨fuel, rfl⟩ : ∃ n, fuel = n + 1 := ⟨fuel - 1, by omega⟩
    obtain ⟨name, tree⟩ := member
    have hname := hnames (name, tree) List.mem_cons_self
    obtain ⟨first, value, others, rfl, hfirst, hvalue, hothers⟩ := spellsMembers_cons h
    simp only [List.length_append, List.length_cons] at hfuel
    simp only [List.append_assoc, List.cons_append]
    obtain ⟨behind, hkey, hcolon⟩ :=
      parseString_padded hname hfirst (value ++ (others ++ '\x7d' :: rest))
    by_cases htree : tree.HasExponent
    · rcases hbreaks (name, tree) List.mem_cons_self htree value hvalue
        (others ++ '\x7d' :: rest) fuel (by omega) with
        ⟨e, he⟩ | ⟨v, after, c, tail, hv, hafter, hc⟩
      · exact ⟨e, parseFields_error hkey hcolon he⟩
      · exact ⟨_, parseFields_other hkey hcolon hv hafter (fun heq ↦ hc (by simp [heq]))
          (fun heq ↦ hc (by simp [heq]))⟩
    · have hlater : ∃ member ∈ members, member.2.HasExponent :=
        (List.or_exists_of_exists_mem_cons hexponent).resolve_left htree
      have ⟨other, hother, _⟩ := hlater
      obtain ⟨-, more, rfl, hmore⟩ := hothers.resolve_left fun hnil ↦
        List.ne_nil_of_mem hother hnil.1
      obtain ⟨after, hv, hafter⟩ := (hreads (name, tree) List.mem_cons_self htree).padded hvalue
        (c := ',') (by decide) (by decide) (more ++ '\x7d' :: rest)
        (show 2 * value.length ≤ fuel by omega)
      rw [List.length_cons] at hfuel
      rw [List.cons_append] at hkey ⊢
      rw [parseFields_more hkey hcolon hv hafter]
      exact ih (fun m hm ↦ hnames m (List.mem_cons_of_mem _ hm))
        (fun m hm ↦ hreads m (List.mem_cons_of_mem _ hm))
        (fun m hm ↦ hbreaks m (List.mem_cons_of_mem _ hm)) hlater hmore _ (by omega)

/-- When a number inside an array or an object has an exponent there is an error. -/
theorem refuses_of_hasExponent {tree : Tree} (hclear : tree.Clear) (hmarked : tree.Marked)
    (hexponent : tree.HasExponent) : tree.Breaks ∧ ((∀ n, tree ≠ .number n) → tree.Refuses) := by
  induction tree using Tree.induction with
  | null | bool | string =>
    obtain ⟨n, hn, -⟩ := hexponent
    exact absurd hn List.not_mem_nil
  | number n =>
    obtain ⟨m, hm, he⟩ := hexponent
    obtain rfl := List.mem_singleton.mp hm
    obtain ⟨e, he⟩ := Option.isSome_iff_exists.mp he
    exact ⟨breaks_number (hclear.digital m hm) he (hmarked m hm e he), fun h ↦ absurd rfl (h m)⟩
  | array items ih =>
    have hbreaks : ∀ tree ∈ items, tree.HasExponent → tree.Breaks := by
      intro tree htree hexp
      refine (ih tree htree (hclear.item htree) (fun n hn ↦ hmarked n ?_) hexp).1
      rw [numerals, numeralsItems_eq]
      exact List.mem_flatMap_of_mem htree hn
    have hrefuses : (array items).Refuses := by
      intro text h rest fuel hfuel
      rw [Spells] at h
      obtain ⟨inside, rfl, hinside⟩ := h
      have hitems := hasExponent_array.mp hexponent
      have hne : items ≠ [] := by
        obtain ⟨tree, htree, -⟩ := hitems
        exact List.ne_nil_of_mem htree
      simp only [List.length_cons, List.length_append] at hfuel
      obtain ⟨fuel, rfl⟩ : ∃ n, fuel = n + 1 := ⟨fuel - 1, by omega⟩
      rw [List.cons_append, List.append_assoc, List.singleton_append, parseValue_array, parseArray]
      simp only [if_neg (head_of_spellsItems hne (fun _ ↦ hclear.item) hinside _), parseItems_skip]
      exact parseItems_of_hasExponent (fun tree htree ↦ readsAs_reading (hclear.item htree))
        hbreaks hitems hinside [] rest (by omega)
    exact ⟨hrefuses.breaks, fun _ ↦ hrefuses⟩
  | object members ih =>
    have hbreaks : ∀ member ∈ members, member.2.HasExponent → member.2.Breaks := by
      intro member hmember hexp
      refine (ih member hmember (hclear.member hmember).2 (fun n hn ↦ hmarked n ?_) hexp).1
      rw [numerals, numeralsMembers_eq]
      exact List.mem_flatMap_of_mem hmember hn
    have hrefuses : (object members).Refuses := by
      intro text h rest fuel hfuel
      rw [Spells] at h
      obtain ⟨inside, rfl, hinside⟩ := h
      have hmembers := hasExponent_object.mp hexponent
      have hne : members ≠ [] := by
        obtain ⟨member, hmember, -⟩ := hmembers
        exact List.ne_nil_of_mem hmember
      simp only [List.length_cons, List.length_append] at hfuel
      obtain ⟨fuel, rfl⟩ : ∃ n, fuel = n + 1 := ⟨fuel - 1, by omega⟩
      rw [List.cons_append, List.append_assoc, List.singleton_append, parseValue_object,
        parseObject]
      simp only [if_neg (head_of_spellsMembers hne hinside _)]
      exact parseFields_of_hasExponent (fun member hmember ↦ (hclear.member hmember).1)
        (fun member hmember ↦ readsAs_reading (hclear.member hmember).2) hbreaks hmembers hinside
        [] rest (by omega)
    exact ⟨hrefuses.breaks, fun _ ↦ hrefuses⟩

/-! ### Styles -/

theorem gap_mono {style style' : Style} (hgap : ∀ c, style.gap c → style'.gap c)
    {text : List Char} (h : Gap style text) : Gap style' text :=
  fun c hc ↦ hgap c (h c hc)

theorem padded_mono {style style' : Style} (hgap : ∀ c, style.gap c → style'.gap c)
    {Spelled Spelled' : List Char → Prop} (hspelled : ∀ text, Spelled text → Spelled' text)
    {text : List Char} (h : Padded style Spelled text) : Padded style' Spelled' text := by
  obtain ⟨before, inner, after, rfl, hbefore, hafter, hinner⟩ := h
  exact ⟨before, inner, after, rfl, gap_mono hgap hbefore, gap_mono hgap hafter,
    hspelled inner hinner⟩

theorem spellsItems_of_cons {style : Style} {tree : Tree} {items : List Tree}
    {first others : List Char} (hfirst : Padded style (tree.Spells style) first)
    (h : items = [] ∧ others = [] ∨
      items ≠ [] ∧ ∃ more, others = ',' :: more ∧ SpellsItems style items more) :
    SpellsItems style (tree :: items) (first ++ others) := by
  rcases h with ⟨rfl, rfl⟩ | ⟨hne, more, rfl, hmore⟩
  · rw [SpellsItems, List.append_nil]
    exact hfirst
  · rw [SpellsItems]
    · exact ⟨first, more, rfl, hfirst, hmore⟩
    · exact hne

theorem spellsMembers_of_cons {style : Style} {leading : Bool} {name : List Char} {tree : Tree}
    {members : List (List Char × Tree)} {first value others : List Char}
    (hfirst : Padded style (Named style leading name) first)
    (hvalue : Padded style (tree.Spells style) value)
    (h : members = [] ∧ others = [] ∨
      members ≠ [] ∧ ∃ more, others = ',' :: more ∧ SpellsMembers style false members more) :
    SpellsMembers style leading ((name, tree) :: members) (first ++ ':' :: (value ++ others)) := by
  rcases h with ⟨rfl, rfl⟩ | ⟨hne, more, rfl, hmore⟩
  · rw [SpellsMembers, List.append_nil]
    exact ⟨first, value, rfl, hfirst, hvalue⟩
  · rw [SpellsMembers]
    · exact ⟨first, value, more, rfl, hfirst, hvalue, hmore⟩
    · exact hne

/-- A text in one style is one in a style that takes more. -/
theorem spells_mono {style style' : Style} (hgap : ∀ c, style.gap c → style'.gap c)
    (hopens : ∀ leading c, style.opens leading c → style'.opens leading c) {tree : Tree}
    {text : List Char} (h : tree.Spells style text) : tree.Spells style' text := by
  induction tree using Tree.induction generalizing text with
  | null | number | string =>
    rw [Spells] at h ⊢
    exact h
  | bool b => cases b <;> rw [Spells] at h ⊢ <;> exact h
  | array items ih =>
    rw [Spells] at h ⊢
    obtain ⟨inside, htext, hinside⟩ := h
    refine ⟨inside, htext, ?_⟩
    clear htext
    induction items generalizing inside with
    | nil =>
      rw [SpellsItems] at hinside ⊢
      exact gap_mono hgap hinside
    | cons tree items ihitems =>
      obtain ⟨first, others, rfl, hfirst, hothers⟩ := spellsItems_cons hinside
      refine spellsItems_of_cons (padded_mono hgap (fun _ ↦ ih tree List.mem_cons_self) hfirst) ?_
      refine hothers.imp_right fun ⟨hne, more, hmore, hitems⟩ ↦ ⟨hne, more, hmore, ?_⟩
      exact ihitems (fun t ht ↦ ih t (List.mem_cons_of_mem _ ht)) more hitems
  | object members ih =>
    rw [Spells] at h ⊢
    obtain ⟨inside, htext, hinside⟩ := h
    refine ⟨inside, htext, ?_⟩
    clear htext
    generalize true = leading at hinside ⊢
    induction members generalizing inside leading with
    | nil =>
      rw [SpellsMembers] at hinside ⊢
      exact gap_mono hgap hinside
    | cons member members ihmembers =>
      obtain ⟨name, tree⟩ := member
      obtain ⟨first, value, others, rfl, hfirst, hvalue, hothers⟩ := spellsMembers_cons hinside
      refine spellsMembers_of_cons (padded_mono hgap ?_ hfirst)
        (padded_mono hgap (fun _ ↦ ih (name, tree) List.mem_cons_self) hvalue) ?_
      · rintro text ⟨opening, hopening, htext⟩
        exact ⟨opening, hopens leading opening hopening, htext⟩
      · refine hothers.imp_right fun ⟨hne, more, hmore, hmembers⟩ ↦ ⟨hne, more, hmore, ?_⟩
        exact ihmembers (fun m hm ↦ ih m (List.mem_cons_of_mem _ hm)) more false hmembers

theorem gap_lenient (c : Char) (hc : strict.gap c) : lenient.gap c := by
  have hblank : ∀ c ∈ [' ', '\t', '\n', '\r'], isWhitespace c = true := forall_of_all (by decide)
  exact hblank c hc

theorem spells_lenient {tree : Tree} {text : List Char} (h : tree.Spells strict text) :
    tree.Spells lenient text := by
  refine spells_mono gap_lenient (fun leading c hc ↦ ?_) h
  obtain rfl : c = '"' := hc
  exact ⟨by decide, fun _ ↦ by decide⟩

end Tree

end Lithair.Serialization.Json
