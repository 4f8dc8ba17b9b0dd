import Lithair.Lib.Text

/-!
# String literals

String literals as they are written, between quotes with escapes or raw, and the texts that they
mean. What stands between the quotes has no more quotes than the text (`count_quote_body_le`), no
comma in an escape, and, when it has an escape, more visible characters than the text
(`count_visible_lt`).
-/

namespace Lithair.Lib.StringLiteral

open Lithair.Lib.Text

/-- The character of an escape of one character; number 39 is the apostrophe. -/
def simpleEscape (c : Char) : Option Char :=
  if c = 'n' then some '\n'
  else if c = 'r' then some '\r'
  else if c = 't' then some '\t'
  else if c = '0' then some (Char.ofNat 0)
  else if c = '\\' ∨ c = '"' ∨ c = Char.ofNat 39 then some c
  else none

/-- What the text behind a backslash stands for: a character, or nothing at the end of a line that
goes on. -/
def decodeEscape : List Char → Option (List Char)
  | [] => none
  | 'x' :: digits =>
    if digits.length = 2 then
      ((readHex 0 digits).filter fun n ↦ decide (n < 128)).map fun n ↦ [Char.ofNat n]
    else none
  | 'u' :: text =>
    let digits := (text.drop 1).dropLast.filter (· != '_')
    if text.head? = some '{' ∧ text.getLast? = some '}' ∧ digits ≠ [] ∧ digits.length ≤ 6 then
      ((readHex 0 digits).filter fun n ↦ decide n.isValidChar).map fun n ↦ [Char.ofNat n]
    else none
  | '\n' :: blanks => if blanks.all (· ∈ [' ', '\t', '\n', '\r']) then some [] else none
  | c :: rest => if rest = [] then (simpleEscape c).map fun c ↦ [c] else none

structure Escape where
  code : List Char
  value : List Char
  decoded : decodeEscape code = some value

/-- A character between the quotes, or an escape. -/
inductive LiteralUnit
  | char (c : Char) (plain : c ≠ '"' ∧ c ≠ '\\')
  | escape (coded : Escape)

def LiteralUnit.source : LiteralUnit → List Char
  | .char c _ => [c]
  | .escape coded => '\\' :: coded.code

def LiteralUnit.value : LiteralUnit → List Char
  | .char c _ => [c]
  | .escape coded => coded.value

/-- In a raw literal no quote is followed by as many hashes as stand around it. -/
inductive StrLiteral
  | quoted (units : List LiteralUnit)
  | raw (hashes : ℕ) (body : List Char)
    (unclosed : ¬ '"' :: List.replicate hashes '#' <:+: body)

namespace StrLiteral

/-- What is written between the quotes. -/
def body : StrLiteral → List Char
  | .quoted units => units.flatMap LiteralUnit.source
  | .raw _ body _ => body

/-- The text that is meant. -/
def value : StrLiteral → List Char
  | .quoted units => units.flatMap LiteralUnit.value
  | .raw _ body _ => body

def hashes : StrLiteral → List Char
  | .quoted _ => []
  | .raw hashes _ _ => List.replicate hashes '#'

/-- What is written in front of the first quote. -/
def start : StrLiteral → List Char
  | .quoted _ => []
  | .raw hashes _ _ => 'r' :: List.replicate hashes '#'

/-- The literal as it is written. -/
def token (literal : StrLiteral) : List Char :=
  literal.start ++ '"' :: (literal.body ++ '"' :: literal.hashes)

/-- A text without quotes and backslashes between quotes. -/
def plain (text : List Char) (h : ∀ c ∈ text, c ≠ '"' ∧ c ≠ '\\') : StrLiteral :=
  .quoted (text.pmap LiteralUnit.char h)

theorem body_plain (text : List Char) (h : ∀ c ∈ text, c ≠ '"' ∧ c ≠ '\\') :
    (plain text h).body = text ∧ (plain text h).value = text := by
  show (text.pmap _ h).flatMap _ = text ∧ (text.pmap _ h).flatMap _ = text
  induction text with
  | nil => exact ⟨rfl, rfl⟩
  | cons c rest ih =>
    obtain ⟨hsource, hvalue⟩ := ih fun d hd ↦ h d (List.mem_cons_of_mem c hd)
    rw [List.pmap_cons, List.flatMap_cons, List.flatMap_cons, hsource, hvalue]
    exact ⟨rfl, rfl⟩

end StrLiteral

/-! ### Escapes -/

/-- What counts as visible in a list: neither white space nor a comma. -/
def visible (c : Char) : Bool := !isWhitespace c && c != ','

theorem isSome_hexValue_of_mem {start n : ℕ} {text : List Char} (h : readHex start text = some n)
    {c : Char} (hc : c ∈ text) : (hexValue c).isSome = true := by
  induction text generalizing start with
  | nil => exact absurd hc List.not_mem_nil
  | cons d rest ih =>
    obtain ⟨digit, hdigit, hrest⟩ := Option.bind_eq_some_iff.mp h
    rcases List.mem_cons.mp hc with rfl | hc
    · rw [hdigit]
      rfl
    · exact ih hrest hc

theorem notMem_of_readHex {start n : ℕ} {text : List Char} (h : readHex start text = some n) :
    ',' ∉ text ∧ '"' ∉ text :=
  ⟨fun hmem ↦ absurd (isSome_hexValue_of_mem h hmem) (by decide),
    fun hmem ↦ absurd (isSome_hexValue_of_mem h hmem) (by decide)⟩

theorem countP_visible_le_one {value : List Char} (h : value.length ≤ 1) {c : Char}
    {rest : List Char} (hc : visible c = true) :
    value.countP visible ≤ (c :: rest).countP visible :=
  calc value.countP visible ≤ 1 := List.countP_le_length.trans h
    _ ≤ (c :: rest).countP visible := List.one_le_countP_iff.mpr ⟨c, List.mem_cons_self, hc⟩

/-- The braces of a Unicode escape have hexadecimal digits and underscores between them. -/
theorem notMem_of_braces {text : List Char} {n : ℕ} (hfirst : text.head? = some '{')
    (hlast : text.getLast? = some '}')
    (hread : readHex 0 ((text.drop 1).dropLast.filter (· != '_')) = some n) {c : Char}
    (hc : c = ',' ∨ c = '"') : c ∉ text := by
  intro hmem
  obtain ⟨front, rfl⟩ := List.getLast?_eq_some_iff.mp hlast
  cases front with
  | nil => exact absurd hfirst (by decide)
  | cons d inner =>
    obtain rfl : d = '{' := Option.some.inj hfirst
    rw [List.cons_append, List.drop_one, List.tail_cons, List.dropLast_concat] at hread
    have hinner : c ∈ inner := by
      rcases List.mem_append.mp hmem with hmem | hmem
      · refine (List.mem_cons.mp hmem).resolve_left ?_
        rcases hc with rfl | rfl <;> decide
      · rw [List.mem_singleton] at hmem
        rcases hc with rfl | rfl <;> exact absurd hmem (by decide)
    have hdigit : c ∈ inner.filter (· != '_') := by
      refine List.mem_filter.mpr ⟨hinner, ?_⟩
      rcases hc with rfl | rfl <;> decide
    obtain ⟨hcomma, hquote⟩ := notMem_of_readHex hread
    rcases hc with rfl | rfl
    · exact hcomma hdigit
    · exact hquote hdigit

theorem simpleEscape_spec {c d : Char} (h : simpleEscape c = some d) :
    c ≠ ',' ∧ visible c = true ∧ (c = '"' → d = '"') := by
  unfold simpleEscape at h
  split_ifs at h with h1 h2 h3 h4 h5
  · rw [h1]
    exact ⟨by decide, by decide, fun hquote ↦ absurd hquote (by decide)⟩
  · rw [h2]
    exact ⟨by decide, by decide, fun hquote ↦ absurd hquote (by decide)⟩
  · rw [h3]
    exact ⟨by decide, by decide, fun hquote ↦ absurd hquote (by decide)⟩
  · rw [h4]
    exact ⟨by decide, by decide, fun hquote ↦ absurd hquote (by decide)⟩
  · obtain rfl := Option.some.inj h
    rcases h5 with rfl | rfl | rfl <;> decide

/-- An escape has no comma, no quote that it does not stand for, and a visible character for the one
that it stands for. -/
theorem decodeEscape_spec {code value : List Char} (h : decodeEscape code = some value) :
    ',' ∉ code ∧ code.count '"' ≤ value.count '"' ∧ value.countP visible ≤ code.countP visible := by
  unfold decodeEscape at h
  split at h
  · exact absurd h nofun
  · next digits =>
    split_ifs at h
    obtain ⟨n, hn, rfl⟩ := Option.map_eq_some_iff.mp h
    obtain ⟨hcomma, hquote⟩ := notMem_of_readHex (Option.filter_eq_some_iff.mp hn).1
    refine ⟨List.not_mem_cons_of_ne_of_not_mem (by decide) hcomma, ?_,
      countP_visible_le_one (le_refl _) (by decide)⟩
    rw [List.count_eq_zero_of_not_mem (List.not_mem_cons_of_ne_of_not_mem (by decide) hquote)]
    exact Nat.zero_le _
  · next text =>
    simp only at h
    split_ifs at h with htext
    obtain ⟨n, hn, rfl⟩ := Option.map_eq_some_iff.mp h
    have hread := (Option.filter_eq_some_iff.mp hn).1
    have hcomma : ',' ∉ text := notMem_of_braces htext.1 htext.2.1 hread (Or.inl rfl)
    have hquote : '"' ∉ text := notMem_of_braces htext.1 htext.2.1 hread (Or.inr rfl)
    refine ⟨List.not_mem_cons_of_ne_of_not_mem (by decide) hcomma, ?_,
      countP_visible_le_one (le_refl _) (by decide)⟩
    rw [List.count_eq_zero_of_not_mem (List.not_mem_cons_of_ne_of_not_mem (by decide) hquote)]
    exact Nat.zero_le _
  · next blanks =>
    split_ifs at h with hblanks
    obtain rfl := Option.some.inj h
    have hblank : ∀ c ∈ '\n' :: blanks, c ≠ ',' ∧ c ≠ '"' := by
      intro c hc
      rcases List.mem_cons.mp hc with rfl | hc
      · decide
      · have hc := of_decide_eq_true (List.all_eq_true.mp hblanks c hc)
        simp only [List.mem_cons, List.not_mem_nil, or_false] at hc
        rcases hc with rfl | rfl | rfl | rfl <;> decide
    refine ⟨fun hmem ↦ (hblank _ hmem).1 rfl, ?_, Nat.zero_le _⟩
    rw [List.count_eq_zero_of_not_mem fun hmem ↦ (hblank _ hmem).2 rfl]
    exact Nat.zero_le _
  · next c rest _ _ _ =>
    split_ifs at h with hrest
    subst hrest
    obtain ⟨d, hd, rfl⟩ := Option.map_eq_some_iff.mp h
    obtain ⟨hcomma, hvisible, hquote⟩ := simpleEscape_spec hd
    refine ⟨fun hmem ↦ hcomma (List.mem_singleton.mp hmem).symm, ?_,
      countP_visible_le_one (le_refl _) hvisible⟩
    by_cases hc : c = '"'
    · rw [hc, hquote hc]
    · rw [List.count_eq_zero_of_not_mem fun hmem ↦ hc (List.mem_singleton.mp hmem).symm]
      exact Nat.zero_le _

/-! ### What is written and what is meant -/

theorem count_quote_source_le (unit : LiteralUnit) :
    unit.source.count '"' ≤ unit.value.count '"' := by
  cases unit with
  | char c plain => exact le_refl _
  | escape coded =>
    show ('\\' :: coded.code).count '"' ≤ coded.value.count '"'
    rw [List.count_cons_of_ne (by decide)]
    exact (decodeEscape_spec coded.decoded).2.1

/-- The text has all the quotes that are written. -/
theorem count_quote_body_le (literal : StrLiteral) :
    literal.body.count '"' ≤ literal.value.count '"' := by
  cases literal with
  | raw hashes body unclosed => exact le_refl _
  | quoted units =>
    show (units.flatMap LiteralUnit.source).count '"' ≤ (units.flatMap LiteralUnit.value).count '"'
    induction units with
    | nil => exact le_refl _
    | cons unit rest ih =>
      rw [List.flatMap_cons, List.flatMap_cons, List.count_append, List.count_append]
      exact Nat.add_le_add (count_quote_source_le unit) ih

theorem countP_visible_source (unit : LiteralUnit) :
    unit.value = unit.source ∨ unit.value.countP visible < unit.source.countP visible := by
  cases unit with
  | char c plain => exact Or.inl rfl
  | escape coded =>
    right
    show coded.value.countP visible < ('\\' :: coded.code).countP visible
    rw [List.countP_cons_of_pos (by decide)]
    exact Nat.lt_succ_of_le (decodeEscape_spec coded.decoded).2.2

/-- The text is what is written, or has fewer visible characters. -/
theorem count_visible_lt (literal : StrLiteral) : literal.value = literal.body ∨
    literal.value.countP visible < literal.body.countP visible := by
  cases literal with
  | raw hashes body unclosed => exact Or.inl rfl
  | quoted units =>
    show units.flatMap LiteralUnit.value = units.flatMap LiteralUnit.source ∨
      (units.flatMap LiteralUnit.value).countP visible <
        (units.flatMap LiteralUnit.source).countP visible
    induction units with
    | nil => exact Or.inl rfl
    | cons unit rest ih =>
      simp only [List.flatMap_cons, List.countP_append]
      rcases countP_visible_source unit with hsame | hless <;> rcases ih with ih | ih
      · exact Or.inl (by rw [hsame, ih])
      · rw [hsame]
        exact Or.inr (Nat.add_lt_add_left ih _)
      · rw [ih]
        exact Or.inr (Nat.add_lt_add_right hless _)
      · exact Or.inr (Nat.add_lt_add hless ih)

/-- The parts that a body is written in: characters, and escapes without a comma. -/
theorem exists_chunks (literal : StrLiteral) : ∃ chunks : List (List Char),
    literal.body = chunks.flatten ∧ ∀ chunk ∈ chunks,
      (∃ c ∈ literal.value, chunk = [c]) ∨ ∃ code, chunk = '\\' :: code ∧ ',' ∉ code := by
  cases literal with
  | raw hashes body unclosed =>
    refine ⟨body.map fun c ↦ [c], ?_, fun chunk hchunk ↦ ?_⟩
    · rw [← List.flatMap_def, List.flatMap_singleton']
      rfl
    · obtain ⟨c, hc, rfl⟩ := List.mem_map.mp hchunk
      exact Or.inl ⟨c, hc, rfl⟩
  | quoted units =>
    refine ⟨units.map LiteralUnit.source, List.flatMap_def, fun chunk hchunk ↦ ?_⟩
    obtain ⟨unit, hunit, rfl⟩ := List.mem_map.mp hchunk
    cases unit with
    | char c plain =>
      exact Or.inl ⟨c, List.mem_flatMap.mpr ⟨_, hunit, List.mem_singleton_self c⟩, rfl⟩
    | escape coded => exact Or.inr ⟨coded.code, rfl, (decodeEscape_spec coded.decoded).1⟩

end Lithair.Lib.StringLiteral
