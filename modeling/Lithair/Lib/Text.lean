import Mathlib.Data.List.Basic
import Mathlib.Data.List.TakeWhile
import Mathlib.Tactic.Ring

/-!
# Lines and hexadecimal numbers

Texts as lists of characters: the lines of a text (`lines`), each without the line feed that ends it
and without a carriage return before that, the part of a text up to a byte (`splitAtByte`), a text
without what is at its ends (`trim`, `stripPrefix`), what comes behind the first of something
(`behind`, `fromFirst`), and hexadecimal numbers of a fixed width.

The lines of a text that ends in a line feed stay what they are when more is appended
(`lines_append`), and a number reads back from its digits (`fromStrRadix16_hexDigits`).
-/

namespace Lithair.Lib.Text

/-! ### Lines -/

/-- The characters with the property `White_Space`. -/
def isWhitespace (c : Char) : Bool :=
  let n := c.toNat
  (9 ≤ n && n ≤ 13) || n == 32 || n == 0x85 || n == 0xA0 || n == 0x1680 ||
    (0x2000 ≤ n && n ≤ 0x200A) || n == 0x2028 || n == 0x2029 || n == 0x202F || n == 0x205F ||
    n == 0x3000

/-- A line without the carriage return at its end. -/
def stripCarriageReturn (line : List Char) : List Char :=
  if line.getLast? = some '\r' then line.dropLast else line

/-- The lines of a text, when `current` has been read of the first. -/
def linesFrom (current : List Char) : List Char → List (List Char)
  | [] => if current = [] then [] else [current]
  | c :: rest =>
    if c = '\n' then stripCarriageReturn current :: linesFrom [] rest
    else linesFrom (current ++ [c]) rest

/-- The lines of a text. The last one need not be ended. -/
def lines (text : List Char) : List (List Char) := linesFrom [] text

/-- Nothing, or a text that ends in a line feed. -/
def Ended (text : List Char) : Prop := text = [] ∨ text.getLast? = some '\n'

theorem ended_nil : Ended [] := Or.inl rfl

theorem ended_concat (text : List Char) : Ended (text ++ ['\n']) :=
  Or.inr List.getLast?_concat

theorem Ended.append {first second : List Char} (hfirst : Ended first) (hsecond : Ended second) :
    Ended (first ++ second) := by
  by_cases hnil : second = []
  · rw [hnil, List.append_nil]
    exact hfirst
  · have hlast := hsecond.resolve_left hnil
    right
    rw [List.getLast?_append, hlast]
    rfl

theorem linesFrom_append (current body rest : List Char) :
    linesFrom current (body ++ '\n' :: rest) =
      linesFrom current (body ++ ['\n']) ++ lines rest := by
  induction body generalizing current with
  | nil =>
    show linesFrom current ('\n' :: rest) = linesFrom current ['\n'] ++ lines rest
    simp only [linesFrom, if_true]
    rfl
  | cons c body ih =>
    rw [List.cons_append, List.cons_append]
    unfold linesFrom
    split_ifs with hc
    · rw [ih]
      rfl
    · exact ih _

/-- What is appended to an ended text adds its own lines. -/
theorem lines_append {text : List Char} (h : Ended text) (rest : List Char) :
    lines (text ++ rest) = lines text ++ lines rest := by
  rcases h with rfl | hlast
  · rfl
  · obtain ⟨body, rfl⟩ := List.getLast?_eq_some_iff.mp hlast
    rw [List.append_assoc]
    exact linesFrom_append [] body rest

theorem linesFrom_line {line : List Char} (hline : '\n' ∉ line) (current : List Char) :
    linesFrom current (line ++ ['\n']) = [stripCarriageReturn (current ++ line)] := by
  induction line generalizing current with
  | nil =>
    rw [List.append_nil]
    rfl
  | cons c line ih =>
    have hc : c ≠ '\n' := fun heq ↦ hline (heq ▸ List.mem_cons_self)
    rw [List.cons_append, linesFrom, if_neg hc, ih fun h ↦ hline (List.mem_cons_of_mem c h),
      List.append_assoc]
    rfl

/-- A text without a line feed is a line as it is. -/
theorem linesFrom_unended {text : List Char} (h : '\n' ∉ text) (current : List Char) :
    linesFrom current text = if current ++ text = [] then [] else [current ++ text] := by
  induction text generalizing current with
  | nil =>
    rw [List.append_nil]
    rfl
  | cons c rest ih =>
    have hc : c ≠ '\n' := fun heq ↦ h (heq ▸ List.mem_cons_self)
    rw [linesFrom, if_neg hc, ih fun hmem ↦ h (List.mem_cons_of_mem c hmem), List.append_assoc]
    rfl

theorem noLineFeed_of_mem_linesFrom {current text line : List Char} (hcurrent : '\n' ∉ current)
    (h : line ∈ linesFrom current text) : '\n' ∉ line := by
  induction text generalizing current with
  | nil =>
    unfold linesFrom at h
    split_ifs at h with hnil
    · exact absurd h List.not_mem_nil
    · exact List.mem_singleton.mp h ▸ hcurrent
  | cons c rest ih =>
    unfold linesFrom at h
    split_ifs at h with hc
    · rcases List.mem_cons.mp h with rfl | h
      · unfold stripCarriageReturn
        split_ifs
        · exact fun hmem ↦ hcurrent (List.dropLast_subset _ hmem)
        · exact hcurrent
      · exact ih List.not_mem_nil h
    · refine ih (fun hmem ↦ ?_) h
      rcases List.mem_append.mp hmem with hmem | hmem
      · exact hcurrent hmem
      · exact hc (List.mem_singleton.mp hmem).symm

/-- No line has a line feed. -/
theorem noLineFeed_of_mem_lines {text line : List Char} (h : line ∈ lines text) : '\n' ∉ line :=
  noLineFeed_of_mem_linesFrom List.not_mem_nil h

/-! ### Bytes -/

/-- The number of bytes of a text in UTF-8. -/
def byteLength (text : List Char) : ℕ := (text.map Char.utf8Size).sum

/-- A text split at a byte, if a character starts or the text ends there. -/
def splitAtByte : ℕ → List Char → Option (List Char × List Char)
  | 0, text => some ([], text)
  | _ + 1, [] => none
  | n + 1, c :: text =>
    if c.utf8Size ≤ n + 1 then
      (splitAtByte (n + 1 - c.utf8Size) text).map fun (first, rest) ↦ (c :: first, rest)
    else none

theorem byteLength_append (first second : List Char) :
    byteLength (first ++ second) = byteLength first + byteLength second := by
  rw [byteLength, List.map_append, List.sum_append]
  rfl

/-- Characters of one byte each. -/
theorem byteLength_eq_length {text : List Char} (h : ∀ c ∈ text, c.utf8Size = 1) :
    byteLength text = text.length := by
  induction text with
  | nil => rfl
  | cons c text ih =>
    rw [byteLength, List.map_cons, List.sum_cons, h c List.mem_cons_self, List.length_cons,
      Nat.add_comm]
    exact congrArg (· + 1) (ih fun d hd ↦ h d (List.mem_cons_of_mem c hd))

theorem byteLength_pos {text : List Char} (h : text ≠ []) : 0 < byteLength text := by
  obtain ⟨c, rest, rfl⟩ := List.exists_cons_of_ne_nil h
  have hc := Char.utf8Size_pos c
  rw [byteLength, List.map_cons, List.sum_cons]
  omega

theorem length_le_byteLength (text : List Char) : text.length ≤ byteLength text := by
  induction text with
  | nil => exact Nat.zero_le _
  | cons c text ih =>
    have hc := Char.utf8Size_pos c
    rw [byteLength, List.map_cons, List.sum_cons, List.length_cons, ← byteLength]
    omega

/-- A split behind the first character is one of the rest. -/
theorem splitAtByte_succ_eq_some {n : ℕ} {c : Char} {text first rest : List Char}
    (h : splitAtByte (n + 1) (c :: text) = some (first, rest)) :
    c.utf8Size ≤ n + 1 ∧ ∃ front, first = c :: front ∧
      splitAtByte (n + 1 - c.utf8Size) text = some (front, rest) := by
  unfold splitAtByte at h
  split_ifs at h with hc
  obtain ⟨⟨front, behind⟩, hsplit, hpair⟩ := Option.map_eq_some_iff.mp h
  obtain ⟨rfl, rfl⟩ := Prod.mk.inj hpair
  exact ⟨hc, front, rfl, hsplit⟩

/-- The parts of a text that is split make it up. -/
theorem append_of_splitAtByte {n : ℕ} {text first rest : List Char}
    (h : splitAtByte n text = some (first, rest)) : first ++ rest = text := by
  induction text generalizing n first with
  | nil =>
    cases n with
    | zero =>
      obtain ⟨rfl, rfl⟩ := Prod.mk.inj (Option.some.inj h)
      rfl
    | succ n => exact absurd h (by simp [splitAtByte])
  | cons c text ih =>
    cases n with
    | zero =>
      obtain ⟨rfl, rfl⟩ := Prod.mk.inj (Option.some.inj h)
      rfl
    | succ n =>
      obtain ⟨-, front, rfl, hfront⟩ := splitAtByte_succ_eq_some h
      exact congrArg (c :: ·) (ih hfront)

/-- What is split off has as many bytes. -/
theorem byteLength_of_splitAtByte {n : ℕ} {text first rest : List Char}
    (h : splitAtByte n text = some (first, rest)) : byteLength first = n := by
  induction text generalizing n first with
  | nil =>
    cases n with
    | zero =>
      obtain ⟨rfl, -⟩ := Prod.mk.inj (Option.some.inj h)
      rfl
    | succ n => exact absurd h (by simp [splitAtByte])
  | cons c text ih =>
    cases n with
    | zero =>
      obtain ⟨rfl, -⟩ := Prod.mk.inj (Option.some.inj h)
      rfl
    | succ n =>
      obtain ⟨hc, front, rfl, hsplit⟩ := splitAtByte_succ_eq_some h
      rw [byteLength, List.map_cons, List.sum_cons]
      have hfront : (front.map Char.utf8Size).sum = n + 1 - c.utf8Size := ih hsplit
      omega

/-- A character of the text starts at the byte, or the text ends there. -/
def CharBoundary (n : ℕ) (text : List Char) : Prop := (splitAtByte n text).isSome = true

instance (n : ℕ) (text : List Char) : Decidable (CharBoundary n text) :=
  inferInstanceAs (Decidable (_ = true))

/-- The boundaries in front of a split are those of the whole text. -/
theorem charBoundary_front {m n : ℕ} {text first rest : List Char} (hle : m ≤ n)
    (h : splitAtByte n text = some (first, rest)) : CharBoundary m first ↔ CharBoundary m text := by
  unfold CharBoundary
  induction text generalizing m n first with
  | nil =>
    cases n with
    | zero =>
      obtain ⟨rfl, -⟩ := Prod.mk.inj (Option.some.inj h)
      rfl
    | succ n => exact absurd h (by simp [splitAtByte])
  | cons c text ih =>
    cases n with
    | zero =>
      obtain rfl := Nat.le_zero.mp hle
      rw [splitAtByte, splitAtByte]
      rfl
    | succ n =>
      obtain ⟨-, front, rfl, hsplit⟩ := splitAtByte_succ_eq_some h
      cases m with
      | zero => exact Iff.rfl
      | succ m =>
        rw [splitAtByte, splitAtByte]
        by_cases hm : c.utf8Size ≤ m + 1
        · rw [if_pos hm, if_pos hm, Option.isSome_map, Option.isSome_map]
          exact ih (by omega) hsplit
        · rw [if_neg hm, if_neg hm]

/-- A text split behind characters of one byte each. -/
theorem splitAtByte_length {first : List Char} (hfirst : ∀ c ∈ first, c.utf8Size = 1)
    (rest : List Char) : splitAtByte first.length (first ++ rest) = some (first, rest) := by
  induction first with
  | nil => rw [List.length_nil, List.nil_append, splitAtByte]
  | cons c first ih =>
    have hc := hfirst c List.mem_cons_self
    rw [List.length_cons, List.cons_append, splitAtByte, hc, if_pos (Nat.le_add_left 1 _),
      Nat.add_sub_cancel, ih fun d hd ↦ hfirst d (List.mem_cons_of_mem c hd)]
    rfl

/-! ### Parts of a text -/

/-- A text without the white space at both ends. -/
def trim (text : List Char) : List Char :=
  ((text.dropWhile isWhitespace).reverse.dropWhile isWhitespace).reverse

/-- What is behind a mark at the front of a text. -/
def stripPrefix (mark text : List Char) : Option (List Char) :=
  if mark.isPrefixOf text then some (text.drop mark.length) else none

/-- A text without this character at both ends. -/
def trimMatches (c : Char) (text : List Char) : List Char :=
  ((text.dropWhile (· == c)).reverse.dropWhile (· == c)).reverse

/-- What is behind the first of these characters in a text. -/
def behind (c : Char) (text : List Char) : Option (List Char) :=
  (text.dropWhile (· != c)).tail?

/-- A text from the first place on where it goes on with the mark. -/
def fromFirst (mark : List Char) : List Char → Option (List Char)
  | [] => if mark = [] then some [] else none
  | c :: rest => if mark.isPrefixOf (c :: rest) then some (c :: rest) else fromFirst mark rest

/-- What a check of every character says. -/
theorem forall_of_all {P : Char → Prop} [DecidablePred P] {text : List Char}
    (h : text.all (fun c ↦ decide (P c)) = true) : ∀ c ∈ text, P c :=
  fun c hc ↦ of_decide_eq_true (List.all_eq_true.mp h c hc)

theorem dropWhile_append_of_all {before rest : List Char}
    (h : ∀ c ∈ before, isWhitespace c = true) :
    (before ++ rest).dropWhile isWhitespace = rest.dropWhile isWhitespace := by
  induction before with
  | nil => rfl
  | cons c before ih =>
    rw [List.cons_append, List.dropWhile_cons_of_pos (h c List.mem_cons_self),
      ih fun d hd ↦ h d (List.mem_cons_of_mem c hd)]

/-- White space at the ends goes, and no more. -/
theorem trim_padded {before value after : List Char} (hbefore : ∀ c ∈ before, isWhitespace c = true)
    (hafter : ∀ c ∈ after, isWhitespace c = true)
    (hfirst : ∀ c ∈ value.head?, isWhitespace c = false)
    (hlast : ∀ c ∈ value.getLast?, isWhitespace c = false) :
    trim (before ++ (value ++ after)) = value := by
  have hspace : ∀ c ∈ after.reverse, isWhitespace c = true :=
    fun c hc ↦ hafter c (List.mem_reverse.mp hc)
  unfold trim
  rw [dropWhile_append_of_all hbefore]
  cases value with
  | nil =>
    have hnone : (after ++ []).dropWhile isWhitespace = [] := dropWhile_append_of_all hafter
    rw [List.append_nil] at hnone
    rw [List.nil_append, hnone]
    rfl
  | cons c value =>
    have hc : ¬ isWhitespace c = true := by
      rw [hfirst c rfl]
      exact Bool.false_ne_true
    obtain ⟨front, d, hd⟩ := (List.eq_nil_or_concat (c :: value)).resolve_left
      (List.cons_ne_nil c value)
    rw [List.concat_eq_append] at hd
    have hdspace : ¬ isWhitespace d = true := by
      rw [hlast d (hd ▸ List.getLast?_concat)]
      exact Bool.false_ne_true
    rw [List.cons_append, List.dropWhile_cons_of_neg hc, ← List.cons_append, List.reverse_append,
      dropWhile_append_of_all hspace, hd, List.reverse_append, List.reverse_singleton,
      List.singleton_append, List.dropWhile_cons_of_neg hdspace, ← List.reverse_concat,
      List.reverse_reverse]

/-- A text with a character that is not white space has something left. -/
theorem trim_ne_nil {text : List Char} {c : Char} (hc : c ∈ text)
    (hspace : isWhitespace c = false) : trim text ≠ [] := by
  intro h
  unfold trim at h
  rw [List.reverse_eq_nil_iff, List.dropWhile_eq_nil_iff] at h
  have hmem : c ∈ text.dropWhile isWhitespace := by
    rw [← List.takeWhile_append_dropWhile (p := isWhitespace) (l := text)] at hc
    rcases List.mem_append.mp hc with hc | hc
    · rw [List.mem_takeWhile_imp hc] at hspace
      exact absurd hspace.symm Bool.false_ne_true
    · exact hc
  rw [h c (List.mem_reverse.mpr hmem)] at hspace
  exact absurd hspace.symm Bool.false_ne_true

theorem behind_eq_some_iff {c : Char} {text after : List Char} :
    behind c text = some after ↔ ∃ between, text = between ++ c :: after ∧ c ∉ between := by
  induction text with
  | nil =>
    constructor
    · intro h
      exact absurd h nofun
    · rintro ⟨between, htext, -⟩
      exact absurd htext.symm (List.append_ne_nil_of_right_ne_nil _ (List.cons_ne_nil _ _))
  | cons d text ih =>
    by_cases hd : d = c
    · subst hd
      have hbehind : behind d (d :: text) = some text := by simp [behind]
      rw [hbehind, Option.some_inj]
      constructor
      · rintro rfl
        exact ⟨[], rfl, List.not_mem_nil⟩
      · rintro ⟨between, htext, hnot⟩
        cases between with
        | nil => exact (List.cons.inj htext).2
        | cons e between =>
          obtain ⟨rfl, -⟩ := List.cons.inj htext
          exact absurd List.mem_cons_self hnot
    · have hbehind : behind c (d :: text) = behind c text := by simp [behind, hd]
      rw [hbehind, ih]
      constructor
      · rintro ⟨between, rfl, hnot⟩
        refine ⟨d :: between, rfl, fun hmem ↦ ?_⟩
        rcases List.mem_cons.mp hmem with rfl | hmem
        · exact hd rfl
        · exact hnot hmem
      · rintro ⟨between, htext, hnot⟩
        cases between with
        | nil => exact absurd (List.cons.inj htext).1 hd
        | cons e between =>
          obtain ⟨rfl, rfl⟩ := List.cons.inj htext
          exact ⟨between, rfl, fun hmem ↦ hnot (List.mem_cons_of_mem _ hmem)⟩

/-- The mark does not begin in front of its first character. -/
theorem fromFirst_append {c : Char} {mark before rest : List Char} (h : c ∉ before) :
    fromFirst (c :: mark) (before ++ rest) = fromFirst (c :: mark) rest := by
  induction before with
  | nil => rfl
  | cons d before ih =>
    have hcd : c ≠ d := List.ne_of_not_mem_cons h
    have hnot : ¬ (c :: mark).isPrefixOf (d :: (before ++ rest)) = true := by simp [hcd]
    rw [List.cons_append, fromFirst, if_neg hnot, ih (List.not_mem_of_not_mem_cons h)]

theorem fromFirst_eq_some_iff {mark text found : List Char} :
    fromFirst mark text = some found ↔ ∃ before, text = before ++ found ∧ mark <+: found ∧
      ∀ earlier rest, text = earlier ++ rest → mark <+: rest → before.length ≤ earlier.length := by
  induction text with
  | nil =>
    rw [fromFirst]
    constructor
    · intro h
      split_ifs at h with hmark
      obtain rfl := Option.some.inj h
      exact ⟨[], rfl, hmark ▸ List.prefix_rfl, fun _ _ _ _ ↦ Nat.zero_le _⟩
    · rintro ⟨before, htext, hmark, -⟩
      obtain ⟨-, rfl⟩ := List.append_eq_nil_iff.mp htext.symm
      rw [if_pos (List.prefix_nil.mp hmark)]
  | cons c text ih =>
    rw [fromFirst]
    by_cases hmark : mark <+: c :: text
    · rw [if_pos (List.isPrefixOf_iff_prefix.mpr hmark), Option.some_inj]
      constructor
      · rintro rfl
        exact ⟨[], rfl, hmark, fun _ _ _ _ ↦ Nat.zero_le _⟩
      · rintro ⟨before, htext, -, hfirst⟩
        have hlength := hfirst [] (c :: text) rfl hmark
        rw [List.length_nil, Nat.le_zero, List.length_eq_zero_iff] at hlength
        rw [htext, hlength, List.nil_append]
    · rw [if_neg fun h ↦ hmark (List.isPrefixOf_iff_prefix.mp h), ih]
      constructor
      · rintro ⟨before, rfl, hfound, hfirst⟩
        refine ⟨c :: before, rfl, hfound, fun earlier rest htext hrest ↦ ?_⟩
        cases earlier with
        | nil =>
          rw [List.nil_append] at htext
          exact absurd (htext ▸ hrest) hmark
        | cons d earlier =>
          exact Nat.succ_le_succ (hfirst earlier rest (List.cons.inj htext).2 hrest)
      · rintro ⟨before, htext, hfound, hfirst⟩
        cases before with
        | nil =>
          rw [List.nil_append] at htext
          exact absurd (htext ▸ hfound) hmark
        | cons d before =>
          obtain ⟨rfl, rfl⟩ := List.cons.inj htext
          refine ⟨before, rfl, hfound, fun earlier rest htext hrest ↦ ?_⟩
          exact Nat.le_of_succ_le_succ
            (hfirst (c :: earlier) rest (congrArg (c :: ·) htext) hrest)

/-! ### Hexadecimal numbers -/

/-- The digit of a number below 16. -/
def hexDigit (n : ℕ) : Char := if n < 10 then Char.ofNat (48 + n) else Char.ofNat (87 + n)

def hexValue (c : Char) : Option ℕ :=
  if '0' ≤ c ∧ c ≤ '9' then some (c.toNat - 48)
  else if 'a' ≤ c ∧ c ≤ 'f' then some (c.toNat - 87)
  else if 'A' ≤ c ∧ c ≤ 'F' then some (c.toNat - 55)
  else none

/-- The last digits of a number. -/
def hexDigits : ℕ → ℕ → List Char
  | 0, _ => []
  | width + 1, n => hexDigits width (n / 16) ++ [hexDigit (n % 16)]

/-- The number whose digits are read after those of `start`. -/
def readHex (start : ℕ) : List Char → Option ℕ
  | [] => some start
  | c :: rest => (hexValue c).bind fun digit ↦ readHex (16 * start + digit) rest

/-- The digits of a number, which may have a plus sign. -/
def withoutSign : List Char → List Char
  | '+' :: digits => digits
  | digits => digits

/-- A number of 32 bits. -/
def fromStrRadix16 (text : List Char) : Option ℕ :=
  if withoutSign text = [] then none
  else (readHex 0 (withoutSign text)).filter fun n ↦ decide (n < 2 ^ 32)

theorem hexDigit_spec : ∀ n < 16, hexValue (hexDigit n) = some n ∧ (hexDigit n).utf8Size = 1 ∧
    hexDigit n ≠ '+' ∧ hexDigit n ≠ '\n' ∧ isWhitespace (hexDigit n) = false := by
  decide

theorem length_hexDigits (width n : ℕ) : (hexDigits width n).length = width := by
  induction width generalizing n with
  | zero => rfl
  | succ width ih => rw [hexDigits, List.length_append, ih, List.length_singleton]

theorem mem_hexDigits {width n : ℕ} {c : Char} (h : c ∈ hexDigits width n) :
    ∃ digit < 16, c = hexDigit digit := by
  induction width generalizing n with
  | zero => exact absurd h List.not_mem_nil
  | succ width ih =>
    rcases List.mem_append.mp h with h | h
    · exact ih h
    · exact ⟨n % 16, Nat.mod_lt _ (by decide), List.mem_singleton.mp h⟩

theorem utf8Size_of_mem_hexDigits {width n : ℕ} {c : Char} (h : c ∈ hexDigits width n) :
    c.utf8Size = 1 := by
  obtain ⟨digit, hlt, rfl⟩ := mem_hexDigits h
  exact (hexDigit_spec digit hlt).2.1

theorem readHex_append (start : ℕ) (first second : List Char) :
    readHex start (first ++ second) = (readHex start first).bind fun n ↦ readHex n second := by
  induction first generalizing start with
  | nil => rfl
  | cons c first ih =>
    show (hexValue c).bind _ = ((hexValue c).bind _).bind _
    cases hexValue c with
    | none => rfl
    | some digit => exact ih _

theorem readHex_hexDigits (width n start : ℕ) :
    readHex start (hexDigits width n) = some (16 ^ width * start + n % 16 ^ width) := by
  induction width generalizing n with
  | zero =>
    rw [pow_zero, Nat.one_mul, Nat.mod_one]
    rfl
  | succ width ih =>
    obtain ⟨hvalue, -⟩ := hexDigit_spec (n % 16) (Nat.mod_lt _ (by decide))
    rw [hexDigits, readHex_append, ih]
    show (hexValue (hexDigit (n % 16))).bind _ = _
    rw [hvalue]
    have hsplit : n % (16 * 16 ^ width) = n % 16 + 16 * (n / 16 % 16 ^ width) :=
      Nat.mod_mul
    show some _ = some _
    rw [pow_succ', hsplit]
    congr 1
    ring

/-- A number of 32 bits reads back from its eight digits. -/
theorem fromStrRadix16_hexDigits {n : ℕ} (hn : n < 2 ^ 32) :
    fromStrRadix16 (hexDigits 8 n) = some n := by
  have hread : readHex 0 (hexDigits 8 n) = some n := by
    rw [readHex_hexDigits, Nat.mul_zero, Nat.zero_add, Nat.mod_eq_of_lt (by omega)]
  have hne : hexDigits 8 n ≠ [] := by
    intro hnil
    have hlength := length_hexDigits 8 n
    rw [hnil] at hlength
    exact absurd hlength (by decide)
  have hsign : withoutSign (hexDigits 8 n) = hexDigits 8 n := by
    unfold withoutSign
    split
    · next digits hplus =>
      have hmem : '+' ∈ hexDigits 8 n := by
        rw [hplus]
        exact List.mem_cons_self
      obtain ⟨digit, hlt, hdigit⟩ := mem_hexDigits hmem
      exact absurd hdigit.symm (hexDigit_spec digit hlt).2.2.1
    · rfl
  rw [fromStrRadix16, hsign, if_neg hne, hread]
  exact Option.filter_some_pos (by simpa using hn)

end Lithair.Lib.Text
