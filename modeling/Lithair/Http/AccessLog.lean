import Lithair.Lib.JsonText
import Lithair.Lib.Net
import Lithair.Serialization.Grammar

/-!
# Lines of the access log

Every request is written as a line of JSON, with the texts that come from the client escaped. What
stands between the quotation marks of such a text is a string of the grammar whose value is the
text (`decode_escapeJsonValue`), no other string that is followed by a quotation mark begins like it
(`literal_unique`), and so the line is a JSON text of one tree only, with the members that were
written (`isText_accessLine_iff`).
-/

namespace Lithair.Http.AccessLog

open Lib.Text Lib.JsonText Serialization.Json

/-! ### Escaped texts -/

/-- A control character of either block. -/
def isControl (c : Char) : Bool := c.toNat < 32 || (127 ≤ c.toNat && c.toNat < 160)

def escapeJsonChar (c : Char) : List Char :=
  match c with
  | '"' => ['\\', '"']
  | '\\' => ['\\', '\\']
  | '\n' => ['\\', 'n']
  | '\r' => ['\\', 'r']
  | '\t' => ['\\', 't']
  | c => if isControl c then '\\' :: 'u' :: hexDigits 4 c.toNat else [c]

def escapeJsonValue (s : String) : List Char := s.toList.flatMap escapeJsonChar

/-- What the escape of a character stands for, a code unit or the character. -/
def escapedPiece (c : Char) : Piece :=
  if isControl c ∧ c ∉ ['\n', '\r', '\t'] then .unit c.toNat else .char c

theorem pieces_short {letter c : Char} (hu : letter ≠ 'u') (h : escapes.lookup letter = some c)
    (raw : List Char) : pieces ('\\' :: letter :: raw) = (pieces raw).map (.char c :: ·) := by
  rw [pieces.eq_def]
  simp only [if_true, if_neg hu, h, Option.bind_some]

theorem pieces_hexDigits {n : ℕ} (hn : n < 16 ^ 4) (raw : List Char) :
    pieces ('\\' :: 'u' :: (hexDigits 4 n ++ raw)) = (pieces raw).map (.unit n :: ·) := by
  have hfour : hexDigits 4 n = [hexDigit (n / 16 / 16 / 16 % 16), hexDigit (n / 16 / 16 % 16),
      hexDigit (n / 16 % 16), hexDigit (n % 16)] := rfl
  have hread := readHex_hexDigits 4 n 0
  rw [Nat.mul_zero, Nat.zero_add, Nat.mod_eq_of_lt hn, hfour] at hread
  rw [hfour]
  simp only [List.cons_append, List.nil_append]
  rw [pieces.eq_def]
  simp only [if_true, hread, Option.bind_some]

theorem pieces_escapeJsonChar (c : Char) (raw : List Char) :
    pieces (escapeJsonChar c ++ raw) = (pieces raw).map (escapedPiece c :: ·) := by
  unfold escapeJsonChar
  split
  · exact pieces_short (by decide) rfl raw
  · exact pieces_short (by decide) rfl raw
  · exact pieces_short (by decide) rfl raw
  · exact pieces_short (by decide) rfl raw
  · exact pieces_short (by decide) rfl raw
  · next _ hquote hslash hfeed hreturn htab =>
    have hkept : c ∉ ['\n', '\r', '\t'] := by
      simpa using ⟨hfeed, hreturn, htab⟩
    by_cases hcontrol : isControl c = true
    · have hlow : c.toNat < 160 := by
        simp only [isControl, Bool.or_eq_true, Bool.and_eq_true, decide_eq_true_eq] at hcontrol
        omega
      rw [if_pos hcontrol, escapedPiece, if_pos ⟨hcontrol, hkept⟩]
      exact pieces_hexDigits (Nat.lt_trans hlow (by decide)) raw
    · have hplain : ¬ (c = '"' ∨ c.toNat < 32) := by
        rintro (rfl | hlow)
        · exact hquote rfl
        · exact hcontrol (by simp [isControl, hlow])
      rw [if_neg hcontrol, escapedPiece, if_neg fun h ↦ hcontrol h.1, List.singleton_append,
        pieces.eq_def]
      simp only [if_neg (show ¬ c = '\\' from hslash), if_neg hplain]

theorem join_unit {n : ℕ} (hn : n < 0xD800) (found : List Piece) :
    join (.unit n :: found) = Char.ofNat n :: join found := by
  have hchar : unitChar n = Char.ofNat n := if_neg fun h ↦ absurd h.1 (Nat.not_le.mpr hn)
  rw [join.eq_def]
  cases found with
  | nil => simp only [hchar]
  | cons first found =>
    cases first with
    | char c => simp only [hchar]
    | unit low =>
      have hsingle : ¬ ((0xD800 ≤ n ∧ n < 0xDC00) ∧ 0xDC00 ≤ low ∧ low < 0xE000) :=
        fun h ↦ absurd h.1.1 (Nat.not_le.mpr hn)
      simp only [if_neg hsingle, hchar]

theorem join_escapedPiece (text : List Char) : join (text.map escapedPiece) = text := by
  induction text with
  | nil => rfl
  | cons c text ih =>
    rw [List.map_cons, escapedPiece]
    split_ifs with hcontrol
    · have hlow : c.toNat < 0xD800 := by
        simp only [isControl, Bool.or_eq_true, Bool.and_eq_true, decide_eq_true_eq] at hcontrol
        omega
      rw [join_unit hlow, Char.ofNat_toNat, ih]
    · rw [join, ih]

theorem pieces_escapeJsonValue (s : String) :
    pieces (escapeJsonValue s) = some (s.toList.map escapedPiece) := by
  unfold escapeJsonValue
  induction s.toList with
  | nil => rw [List.flatMap_nil, pieces, List.map_nil]
  | cons c text ih =>
    rw [List.flatMap_cons, pieces_escapeJsonChar, ih, Option.map_some, List.map_cons]

/-- An escaped text stands for the text. -/
theorem decode_escapeJsonValue (s : String) : decode (escapeJsonValue s) = s := by
  rw [decode, pieces_escapeJsonValue, Option.getD_some, join_escapedPiece, String.ofList_toList]

/-- How many characters the first piece of a string takes. -/
def pieceLength : List Char → ℕ
  | '\\' :: 'u' :: _ => 6
  | '\\' :: _ => 2
  | _ => 1

theorem pieceLength_spec {raw : List Char} (h : (pieces raw).isSome = true) (hne : raw ≠ [])
    (rest : List Char) : 0 < pieceLength (raw ++ rest) ∧ pieceLength (raw ++ rest) ≤ raw.length ∧
      (pieces (raw.drop (pieceLength (raw ++ rest)))).isSome = true := by
  obtain ⟨found, hfound⟩ := Option.isSome_iff_exists.mp h
  cases raw with
  | nil => exact absurd rfl hne
  | cons c more =>
    rcases pieces_cons_cases hfound with ⟨hslash, -, tail, htail, -⟩ |
      ⟨letter, more, e, tail, rfl, rfl, hletter, htail, -⟩ |
      ⟨a, b, d, e, more, n, tail, rfl, rfl, -, htail, -⟩
    · have hlength : pieceLength (c :: more ++ rest) = 1 := by
        rw [List.cons_append, pieceLength] <;> exact fun _ heq ↦ hslash (List.cons.inj heq).1
      rw [hlength]
      exact ⟨Nat.one_pos, by simp, Option.isSome_of_eq_some htail⟩
    · have hu : ∀ pair ∈ escapes, pair.1 ≠ 'u' := by decide
      have hlength : pieceLength ('\\' :: letter :: more ++ rest) = 2 := by
        rw [List.cons_append, List.cons_append, pieceLength]
        rintro _ heq
        exact hu _ hletter (List.cons.inj heq).1
      rw [hlength]
      exact ⟨Nat.two_pos, by simp, Option.isSome_of_eq_some htail⟩
    · have hlength : pieceLength ('\\' :: 'u' :: a :: b :: d :: e :: more ++ rest) = 6 := rfl
      rw [hlength]
      exact ⟨by decide, by simp, Option.isSome_of_eq_some htail⟩

/-- A string of the grammar ends at the first quotation mark that is not escaped. -/
theorem literal_unique {raw raw' rest rest' : List Char} (h : (pieces raw).isSome = true)
    (h' : (pieces raw').isSome = true) (heq : raw ++ '"' :: rest = raw' ++ '"' :: rest') :
    raw = raw' ∧ rest = rest' := by
  have hquote {raw : List Char} (h : (pieces raw).isSome = true) (hne : raw ≠ [])
      {rest rest' : List Char} (heq : raw ++ rest = '"' :: rest') : False := by
    obtain ⟨c, more, rfl⟩ := List.exists_cons_of_ne_nil hne
    obtain ⟨rfl, -⟩ := List.cons.inj heq
    rw [pieces.eq_def] at h
    exact absurd h (by simp)
  induction hn : raw.length using Nat.strongRecOn generalizing raw raw' with
  | ind n ih =>
    by_cases hnil : raw = []
    · subst hnil
      by_cases hnil' : raw' = []
      · subst hnil'
        exact ⟨rfl, (List.cons.inj heq).2⟩
      · exact (hquote h' hnil' heq.symm).elim
    by_cases hnil' : raw' = []
    · subst hnil'
      exact (hquote h hnil heq).elim
    obtain ⟨hpos, hle, hrest⟩ := pieceLength_spec h hnil ('"' :: rest)
    obtain ⟨-, hle', hrest'⟩ := pieceLength_spec h' hnil' ('"' :: rest')
    rw [← heq] at hle' hrest'
    have hfirst := congrArg (List.take (pieceLength (raw ++ '"' :: rest))) heq
    have hbehind := congrArg (List.drop (pieceLength (raw ++ '"' :: rest))) heq
    rw [List.take_append_of_le_length hle, List.take_append_of_le_length hle'] at hfirst
    rw [List.drop_append_of_le_length hle, List.drop_append_of_le_length hle'] at hbehind
    obtain ⟨hsame, hend⟩ := ih _ (by rw [List.length_drop]; omega) hrest hrest' hbehind rfl
    refine ⟨?_, hend⟩
    rw [← List.take_append_drop (pieceLength (raw ++ '"' :: rest)) raw, hfirst, hsame,
      List.take_append_drop]

/-! ### Objects without white space -/

/-- A number without a sign, a fraction or an exponent. -/
def wholeNumber (n : ℕ) : Numeral := ⟨false, Nat.toDigits 10 n, none, none⟩

/-- A string of the grammar or a whole number, and its text. -/
inductive FlatText : Tree → List Char → Prop
  | string {raw : List Char} (h : (pieces raw).isSome = true) :
      FlatText (.string raw) ('"' :: (raw ++ ['"']))
  | number (n : ℕ) : FlatText (.number (wholeNumber n)) (Nat.toDigits 10 n)

/-- Members with a comma between them. -/
inductive FlatMembers : List (List Char × Tree) → List Char → Prop
  | last {name text : List Char} {tree : Tree} (hname : (pieces name).isSome = true)
      (htree : FlatText tree text) :
      FlatMembers [(name, tree)] ('"' :: (name ++ '"' :: ':' :: text))
  | cons {name text others : List Char} {tree : Tree} {members : List (List Char × Tree)}
      (hname : (pieces name).isSome = true) (htree : FlatText tree text)
      (hmembers : FlatMembers members others) :
      FlatMembers ((name, tree) :: members) ('"' :: (name ++ '"' :: ':' :: (text ++ ',' :: others)))

/-- What can stand behind a value: nothing, white space or a comma. -/
def Ends (rest : List Char) : Prop := ∀ c ∈ rest.head?, c = ',' ∨ strict.gap c

theorem ends_nil : Ends [] := fun c hc ↦ absurd hc (Option.not_mem_none c)

theorem valid_wholeNumber (n : ℕ) : (wholeNumber n).Valid where
  whole := by
    rcases Nat.eq_zero_or_pos n with rfl | hn
    · exact .inl rfl
    · cases hdigits : Nat.toDigits 10 n with
      | nil => exact absurd hdigits Nat.toDigits_ne_nil
      | cons c rest =>
        refine .inr ⟨c, rest, hdigits, ?_⟩
        rintro rfl
        exact (Lib.Net.toDigits_spec n).2.2 hn (by rw [hdigits]; rfl)
  whole_digits := fun c hc ↦ Nat.isDigit_of_mem_toDigits (by decide) (by decide) hc
  fraction := nofun
  exponent := nofun

theorem text_wholeNumber (n : ℕ) : (wholeNumber n).text = Nat.toDigits 10 n := by
  simp [wholeNumber, Numeral.text, Numeral.mantissa, Numeral.magnitudeText, Numeral.exponentText]

theorem FlatText.spells {tree : Tree} {text : List Char} (h : FlatText tree text) :
    tree.Spells strict text := by
  cases h with
  | string h => rw [Tree.Spells]
  | number n => rw [Tree.Spells, text_wholeNumber]

theorem FlatText.valid {tree : Tree} {text : List Char} (h : FlatText tree text) : tree.Valid := by
  cases h with
  | @string raw h =>
    have hraws : (Tree.string raw).raws = [raw] := by rw [Tree.raws]
    have hnumerals : (Tree.string raw).numerals = [] := by simp [Tree.numerals]
    exact ⟨hraws ▸ List.forall_mem_singleton.mpr h, hnumerals ▸ List.forall_mem_nil _⟩
  | number n =>
    have hraws : (Tree.number (wholeNumber n)).raws = [] := by simp [Tree.raws]
    have hnumerals : (Tree.number (wholeNumber n)).numerals = [wholeNumber n] := by
      rw [Tree.numerals]
    exact ⟨hraws ▸ List.forall_mem_nil _,
      hnumerals ▸ List.forall_mem_singleton.mpr (valid_wholeNumber n)⟩

theorem split_digits {first first' rest rest' : List Char}
    (h : ∀ c ∈ first, c.isDigit = true) (h' : ∀ c ∈ first', c.isDigit = true)
    (hrest : ∀ c ∈ rest.head?, c.isDigit = false) (hrest' : ∀ c ∈ rest'.head?, c.isDigit = false)
    (heq : first ++ rest = first' ++ rest') : first = first' ∧ rest = rest' := by
  have hstop {rest : List Char} (hrest : ∀ c ∈ rest.head?, c.isDigit = false) :
      rest.takeWhile Char.isDigit = [] := by
    cases rest with
    | nil => rfl
    | cons c rest => exact List.takeWhile_cons_of_neg (by simp [hrest c rfl])
  have hfirst := congrArg (List.takeWhile Char.isDigit) heq
  rw [List.takeWhile_append_of_pos h, List.takeWhile_append_of_pos h', hstop hrest, hstop hrest',
    List.append_nil, List.append_nil] at hfirst
  exact ⟨hfirst, List.append_cancel_left (hfirst ▸ heq)⟩

theorem Ends.not_digit {rest : List Char} (h : Ends rest) :
    ∀ c ∈ rest.head?, c.isDigit = false := by
  intro c hc
  rcases h c hc with rfl | hgap
  · decide
  · have hgaps : ∀ c ∈ [' ', '\t', '\n', '\r'], c.isDigit = false :=
      forall_of_all (by decide)
    exact hgaps c hgap

/-- A whole number ends where its digits do. -/
theorem numeral_unique {numeral : Numeral} {n : ℕ} {rest tail : List Char} (hvalid : numeral.Valid)
    (hrest : Ends rest) (htail : Ends tail)
    (heq : numeral.text ++ rest = Nat.toDigits 10 n ++ tail) :
    numeral = wholeNumber n ∧ rest = tail := by
  have hdigits : ∀ c ∈ Nat.toDigits 10 n, c.isDigit = true := fun c hc ↦
    Nat.isDigit_of_mem_toDigits (by decide) (by decide) hc
  obtain ⟨d, digits, hd⟩ := List.exists_cons_of_ne_nil (Nat.toDigits_ne_nil (b := 10) (n := n))
  obtain ⟨negative, whole, fraction, exponent⟩ := numeral
  have hplain : negative = false := by
    by_contra hnegative
    rw [Bool.not_eq_false] at hnegative
    subst hnegative
    have hsign := (List.cons.inj (hd ▸ heq)).1
    exact absurd (hdigits d (hd ▸ List.mem_cons_self)) (by rw [← hsign]; decide)
  subst hplain
  -- A fraction or an exponent begins with a mark that cannot stand behind a value.
  have hmark {c : Char} (hc : c = '.' ∨ c = 'e' ∨ c = 'E') (more : List Char)
      (hmore : Numeral.text ⟨false, whole, fraction, exponent⟩ = whole ++ c :: more) : False := by
    rw [hmore, List.append_assoc, List.cons_append] at heq
    obtain ⟨-, rfl⟩ := split_digits hvalid.whole_digits hdigits
      (by rcases hc with rfl | rfl | rfl <;> simp) htail.not_digit heq
    have hends := htail c rfl
    rcases hc with rfl | rfl | rfl <;> exact absurd hends (by simp [strict])
  cases fraction with
  | some digits =>
    refine (hmark (.inl rfl)
      (digits ++ Numeral.exponentText ⟨false, whole, none, exponent⟩) ?_).elim
    simp [Numeral.text, Numeral.mantissa, Numeral.magnitudeText, Numeral.exponentText]
  | none =>
    cases exponent with
    | some e =>
      refine (hmark (.inr (hvalid.exponent e rfl).1) (e.sign.toList ++ e.digits) ?_).elim
      simp [Numeral.text, Numeral.mantissa, Numeral.magnitudeText, Numeral.exponentText]
    | none =>
      have htext : Numeral.text ⟨false, whole, none, none⟩ = whole := by
        simp [Numeral.text, Numeral.mantissa, Numeral.magnitudeText, Numeral.exponentText]
      rw [htext] at heq
      obtain ⟨rfl, hbehind⟩ := split_digits hvalid.whole_digits hdigits hrest.not_digit
        htail.not_digit heq
      exact ⟨rfl, hbehind⟩

/-- The first character of a text tells the kind of its value. -/
theorem kind_of_spells {tree : Tree} {text : List Char} (h : tree.Spells strict text)
    (hvalid : tree.Valid) : ∃ c rest, text = c :: rest ∧
      (c = '"' → ∃ raw, tree = .string raw) ∧ (c.isDigit = true → ∃ n, tree = .number n) ∧
        (c = '\x7b' → ∃ members, tree = .object members) := by
  have hother {c : Char} (hc : c ∈ ['n', 't', 'f', '[']) :
      (c = '"' → ∃ raw, tree = .string raw) ∧ (c.isDigit = true → ∃ n, tree = .number n) ∧
        (c = '\x7b' → ∃ members, tree = .object members) := by
    have hmarks : ∀ c ∈ ['n', 't', 'f', '['], c ≠ '"' ∧ ¬ c.isDigit = true ∧ c ≠ '\x7b' :=
      forall_of_all (by decide)
    obtain ⟨hquote, hdigit, hbrace⟩ := hmarks c hc
    exact ⟨(absurd · hquote), (absurd · hdigit), (absurd · hbrace)⟩
  cases tree with
  | null =>
    rw [Tree.Spells] at h
    exact ⟨_, _, h, hother (by decide)⟩
  | bool b =>
    cases b <;> rw [Tree.Spells] at h <;> exact ⟨_, _, h, hother (by decide)⟩
  | number numeral =>
    rw [Tree.Spells] at h
    have hnumerals : (Tree.number numeral).numerals = [numeral] := by rw [Tree.numerals]
    have hnumeral := hvalid.numbers numeral (hnumerals ▸ List.mem_singleton_self numeral)
    obtain ⟨c, rest, hc, hfirst⟩ := Numeral.mantissa_head hnumeral.digital
    have hne := (number_head (hfirst.imp And.left And.left)).2
    exact ⟨c, rest ++ numeral.exponentText, by rw [h, Numeral.text, hc]; rfl,
      (absurd · (hne '"' (by decide))), fun _ ↦ ⟨numeral, rfl⟩,
      (absurd · (hne '\x7b' (by decide)))⟩
  | string raw =>
    rw [Tree.Spells] at h
    exact ⟨_, _, h, fun _ ↦ ⟨raw, rfl⟩, (absurd · (by decide)), (absurd · (by decide))⟩
  | array items =>
    rw [Tree.Spells] at h
    obtain ⟨inside, h, -⟩ := h
    exact ⟨_, _, h, hother (by decide)⟩
  | object members =>
    rw [Tree.Spells] at h
    obtain ⟨inside, h, -⟩ := h
    exact ⟨_, _, h, (absurd · (by decide)), (absurd · (by decide)), fun _ ↦ ⟨members, rfl⟩⟩

/-- No other value, and no other text, begins like a string or a whole number. -/
theorem FlatText.unique {tree tree' : Tree} {text inner tail rest : List Char}
    (h : FlatText tree text) (htail : Ends tail) (hrest : Ends rest)
    (hinner : tree'.Spells strict inner) (hvalid : tree'.Valid)
    (heq : inner ++ rest = text ++ tail) : tree' = tree ∧ rest = tail := by
  obtain ⟨c, more, hmore, hstring, hnumber, -⟩ := kind_of_spells hinner hvalid
  cases h with
  | @string raw h =>
    rw [List.cons_append] at heq
    obtain ⟨raw', rfl⟩ := hstring (List.cons.inj (hmore ▸ heq)).1
    rw [Tree.Spells] at hinner
    have hraws : (Tree.string raw').raws = [raw'] := by rw [Tree.raws]
    have hraw' := hvalid.strings raw' (hraws ▸ List.mem_singleton_self raw')
    rw [hinner, List.cons_append, List.append_assoc, List.append_assoc] at heq
    obtain ⟨rfl, rfl⟩ := literal_unique hraw' h (List.cons.inj heq).2
    exact ⟨rfl, rfl⟩
  | number n =>
    obtain ⟨d, digits, hd⟩ := List.exists_cons_of_ne_nil (Nat.toDigits_ne_nil (b := 10) (n := n))
    have hdigit : c.isDigit = true := by
      rw [hd, hmore] at heq
      rw [(List.cons.inj heq).1]
      exact Nat.isDigit_of_mem_toDigits (by decide) (by decide) (hd ▸ List.mem_cons_self)
    obtain ⟨numeral, rfl⟩ := hnumber hdigit
    rw [Tree.Spells] at hinner
    have hnumerals : (Tree.number numeral).numerals = [numeral] := by rw [Tree.numerals]
    have hnumeral := hvalid.numbers numeral (hnumerals ▸ List.mem_singleton_self numeral)
    rw [hinner] at heq
    obtain ⟨rfl, hbehind⟩ := numeral_unique hnumeral hrest htail heq
    exact ⟨rfl, hbehind⟩

theorem gap_nil_of_append {before rest : List Char} {c : Char} {more : List Char}
    (hbefore : Gap strict before) (hc : ¬ strict.gap c) (heq : before ++ rest = c :: more) :
    before = [] ∧ rest = c :: more := by
  cases before with
  | nil => exact ⟨rfl, heq⟩
  | cons d before =>
    obtain ⟨rfl, -⟩ := List.cons.inj heq
    exact absurd (hbefore d List.mem_cons_self) hc

theorem FlatText.head {tree : Tree} {text : List Char} (h : FlatText tree text) :
    ∃ c rest, text = c :: rest ∧ ¬ strict.gap c := by
  have hmarks : ∀ c, c = '"' ∨ c.isDigit = true → ¬ strict.gap c := by
    have hgaps : ∀ c ∈ [' ', '\t', '\n', '\r'], ¬ (c = '"' ∨ c.isDigit = true) :=
      forall_of_all (by decide)
    exact fun c hc hgap ↦ hgaps c hgap hc
  cases h with
  | string h => exact ⟨_, _, rfl, hmarks '"' (.inl rfl)⟩
  | number n =>
    obtain ⟨d, digits, hd⟩ := List.exists_cons_of_ne_nil (Nat.toDigits_ne_nil (b := 10) (n := n))
    have hdigit : d.isDigit = true :=
      Nat.isDigit_of_mem_toDigits (by decide) (by decide) (hd ▸ List.mem_cons_self)
    exact ⟨d, digits, hd, hmarks d (.inr hdigit)⟩

/-- The first member is read in one way, and the others from behind its comma. -/
theorem member_unique {name text tail : List Char} {tree : Tree}
    (hname : (pieces name).isSome = true) (htree : FlatText tree text)
    (htail : tail = [] ∨ ∃ more, tail = ',' :: more) {members : List (List Char × Tree)}
    {leading : Bool}
    (hspells : Tree.SpellsMembers strict leading members
      ('"' :: (name ++ '"' :: ':' :: (text ++ tail))))
    (hvalid : ∀ member ∈ members, (pieces member.1).isSome = true ∧ member.2.Valid) :
    ∃ others, members = (name, tree) :: others ∧ (others = [] ∧ tail = [] ∨
      others ≠ [] ∧ ∃ more, tail = ',' :: more ∧
        Tree.SpellsMembers strict false others more) := by
  have hquote : ¬ strict.gap '"' := by simp [strict]
  have hcolon : ¬ strict.gap ':' := by simp [strict]
  have hcomma : ¬ strict.gap ',' := by simp [strict]
  cases members with
  | nil =>
    rw [Tree.SpellsMembers] at hspells
    exact absurd (hspells '"' List.mem_cons_self) hquote
  | cons member others =>
    obtain ⟨name', tree'⟩ := member
    obtain ⟨hname', htree'⟩ := hvalid _ List.mem_cons_self
    obtain ⟨first, value, behind, hinside, hfirst, hvalue, hbehind⟩ :=
      Tree.spellsMembers_cons hspells
    obtain ⟨before, _, after, rfl, hbefore, hafter, _, rfl, rfl⟩ := hfirst
    rw [List.append_assoc] at hinside
    obtain ⟨rfl, hinside⟩ := gap_nil_of_append hbefore hquote hinside.symm
    have hliteral : name' ++ '"' :: (after ++ ':' :: (value ++ behind)) =
        name ++ '"' :: ':' :: (text ++ tail) := by
      simpa using hinside.symm
    obtain ⟨rfl, hcolons⟩ := literal_unique hname' hname hliteral
    obtain ⟨rfl, hcolons⟩ := gap_nil_of_append hafter hcolon hcolons
    have hvalues := (List.cons.inj hcolons).2
    obtain ⟨lead, inner, after, rfl, hlead, hafter, hinner⟩ := hvalue
    obtain ⟨c, more, hmore, hc⟩ := htree.head
    have hrest : Ends (after ++ behind) := by
      cases after with
      | nil =>
        rcases hbehind with ⟨-, rfl⟩ | ⟨-, _, rfl, -⟩
        · exact ends_nil
        · exact fun c hc ↦ .inl (Option.some.inj hc).symm
      | cons d after =>
        exact fun c hc ↦ .inr (Option.some.inj hc ▸ hafter d List.mem_cons_self)
    have hends : Ends tail := by
      rcases htail with rfl | ⟨_, rfl⟩
      · exact ends_nil
      · exact fun c hc ↦ .inl (Option.some.inj hc).symm
    have hvalues : lead ++ (inner ++ (after ++ behind)) = c :: (more ++ tail) := by
      rw [hmore] at hvalues
      simpa using hvalues
    obtain ⟨rfl, hvalues⟩ := gap_nil_of_append hlead hc hvalues
    obtain ⟨rfl, rfl⟩ := htree.unique hends hrest hinner htree' (hvalues.trans (by rw [hmore]; rfl))
    have hnil : after = [] := by
      rcases htail with hnil | ⟨more, hmore⟩
      · exact (List.append_eq_nil_iff.mp hnil).1
      · exact (gap_nil_of_append hafter hcomma hmore).1
    subst hnil
    exact ⟨others, rfl, hbehind⟩

/-- Members are read in one way, whatever stands behind them that is not white space. -/
theorem FlatMembers.unique {members members' : List (List Char × Tree)} {text : List Char}
    {leading : Bool} (h : FlatMembers members text)
    (hspells : Tree.SpellsMembers strict leading members' text)
    (hvalid : ∀ member ∈ members', (pieces member.1).isSome = true ∧ member.2.Valid) :
    members' = members := by
  induction h generalizing members' leading with
  | @last name text tree hname htree =>
    rw [← List.append_nil text] at hspells
    obtain ⟨others, rfl, ⟨rfl, -⟩ | ⟨-, _, hnil, -⟩⟩ :=
      member_unique hname htree (.inl rfl) hspells hvalid
    · rfl
    · exact absurd hnil nofun
  | cons hname htree hmembers ih =>
    obtain ⟨others, rfl, ⟨-, hnil⟩ | ⟨-, more, hmore, hothers⟩⟩ :=
      member_unique hname htree (.inr ⟨_, rfl⟩) hspells hvalid
    · exact absurd hnil nofun
    · rw [(List.cons.inj hmore).2] at ih
      rw [ih hothers fun member hmember ↦ hvalid member (List.mem_cons_of_mem _ hmember)]

theorem padded_self {Spelled : List Char → Prop} {text : List Char} (h : Spelled text) :
    Padded strict Spelled text :=
  ⟨[], text, [], by simp, List.forall_mem_nil _, List.forall_mem_nil _, h⟩

theorem FlatMembers.spells {members : List (List Char × Tree)} {text : List Char}
    (h : FlatMembers members text) (leading : Bool) :
    Tree.SpellsMembers strict leading members text := by
  induction h generalizing leading with
  | @last name text tree hname htree =>
    rw [Tree.SpellsMembers]
    exact ⟨'"' :: (name ++ ['"']), text, by simp, padded_self ⟨'"', rfl, rfl⟩,
      padded_self htree.spells⟩
  | @cons name text others tree members hname htree hmembers ih =>
    rw [Tree.SpellsMembers]
    · exact ⟨'"' :: (name ++ ['"']), text, others, by simp, padded_self ⟨'"', rfl, rfl⟩,
        padded_self htree.spells, ih false⟩
    · rintro rfl
      cases hmembers

theorem FlatMembers.valid {members : List (List Char × Tree)} {text : List Char}
    (h : FlatMembers members text) : (Tree.object members).Valid := by
  have hall : ∀ member ∈ members, (pieces member.1).isSome = true ∧ member.2.Valid := by
    induction h with
    | last hname htree => exact List.forall_mem_singleton.mpr ⟨hname, htree.valid⟩
    | cons hname htree _ ih => exact List.forall_mem_cons.mpr ⟨⟨hname, htree.valid⟩, ih⟩
  constructor
  · intro raw hraw
    rw [Tree.raws, Tree.rawsMembers_eq, List.mem_flatMap] at hraw
    obtain ⟨member, hmember, hraw⟩ := hraw
    rcases List.mem_cons.mp hraw with rfl | hraw
    · exact (hall member hmember).1
    · exact (hall member hmember).2.strings raw hraw
  · intro n hn
    rw [Tree.numerals, Tree.numeralsMembers_eq, List.mem_flatMap] at hn
    obtain ⟨member, hmember, hn⟩ := hn
    exact (hall member hmember).2.numbers n hn

/-- A text made of such members is a JSON text of their object and of no other value. -/
theorem FlatMembers.isText_iff {members : List (List Char × Tree)} {text : List Char}
    (h : FlatMembers members text) (tree : Tree) :
    IsText tree (String.ofList ('\x7b' :: (text ++ ['\x7d']))) ↔ tree = .object members := by
  rw [IsText, String.toList_ofList]
  constructor
  · rintro ⟨⟨before, inner, after, hinner, hbefore, hafter, hspells⟩, hvalid⟩
    obtain ⟨rfl, hinner⟩ := gap_nil_of_append hbefore (by simp [strict]) hinner.symm
    obtain ⟨c, rest, rfl, -, -, hobject⟩ := kind_of_spells hspells hvalid
    obtain ⟨members', rfl⟩ := hobject (List.cons.inj hinner).1.symm
    rw [Tree.Spells] at hspells
    obtain ⟨inside, hinside, hmembers⟩ := hspells
    rw [hinside] at hinner
    have hbrace : inside ++ '\x7d' :: after = text ++ ['\x7d'] := by simpa using hinner.symm
    have hnil : after = [] := by
      rcases List.eq_nil_or_concat after with hnil | ⟨front, d, rfl⟩
      · exact hnil
      · have hends : (inside ++ '\x7d' :: front) ++ [d] = text ++ ['\x7d'] := by
          rw [← hbrace, List.append_assoc, List.cons_append, List.concat_eq_append]
        obtain rfl := List.singleton_inj.mp (List.append_inj' hends rfl).2
        exact absurd (hafter '\x7d' (by simp)) (by simp [strict])
    subst hnil
    obtain rfl := List.append_cancel_right hbrace
    rw [h.unique hmembers fun member hmember ↦ hvalid.member hmember]
  · rintro rfl
    refine ⟨padded_self ?_, h.valid⟩
    rw [Tree.Spells]
    exact ⟨text, rfl, h.spells true⟩

/-- A string or a whole number is a JSON text of itself only. -/
theorem FlatText.isText_iff {tree : Tree} {text : List Char} (h : FlatText tree text)
    (tree' : Tree) : IsText tree' (String.ofList text) ↔ tree' = tree := by
  rw [IsText, String.toList_ofList]
  constructor
  · rintro ⟨⟨before, inner, after, hinner, hbefore, hafter, hspells⟩, hvalid⟩
    obtain ⟨c, rest, hc, hgap⟩ := h.head
    obtain ⟨rfl, -⟩ := gap_nil_of_append hbefore hgap (hinner.symm.trans hc)
    have hends : Ends after := fun c hc ↦ .inr (hafter c (List.mem_of_head? hc))
    refine (h.unique ends_nil hends hspells hvalid ?_).1
    rw [hinner, List.nil_append, List.append_nil]
  · rintro rfl
    exact ⟨padded_self h.spells, h.valid⟩

/-! ### Entries -/

/-- What is read of a response. -/
structure Response where
  status : UInt16
  headers : List (String × List UInt8)

structure AccessLogEntry where
  timestamp : String
  remote : String
  method : String
  path : String
  status : UInt16
  len : String
  enc : String
  dur_ms : ℕ

/-- The text of a header value, which may only have visible characters, spaces and tabs. -/
def toStr (value : List UInt8) : Option String :=
  if value.all fun b ↦ b = 9 || (32 ≤ b && b < 127) then
    some (String.ofList (value.map fun b ↦ Char.ofNat b.toNat))
  else none

def Response.header (resp : Response) (name : String) : String :=
  ((resp.headers.lookup name).bind toStr).getD "-"

/-- What is logged of a request, at the time and after the time it took. -/
def accessLogEntry (remote_ip method path : String) (resp : Response) (timestamp : String)
    (dur_ms : ℕ) : AccessLogEntry where
  timestamp := timestamp
  remote := remote_ip
  method := method
  path := path
  status := resp.status
  len := resp.header "content-length"
  enc := resp.header "content-encoding"
  dur_ms := dur_ms

def AccessLogEntry.line (e : AccessLogEntry) : String :=
  String.ofList ("\x7b\"remote\":\"".toList ++ escapeJsonValue e.remote ++
    "\",\"method\":\"".toList ++ escapeJsonValue e.method ++
    "\",\"path\":\"".toList ++ escapeJsonValue e.path ++
    "\",\"status\":".toList ++ Nat.toDigits 10 e.status.toNat ++
    ",\"len\":\"".toList ++ escapeJsonValue e.len ++
    "\",\"enc\":\"".toList ++ escapeJsonValue e.enc ++
    "\",\"dur_ms\":".toList ++ Nat.toDigits 10 e.dur_ms ++ "\x7d".toList)

/-- The members that an entry is written as. -/
def AccessLogEntry.members (e : AccessLogEntry) : List (List Char × Tree) :=
  [("remote".toList, .string (escapeJsonValue e.remote)),
    ("method".toList, .string (escapeJsonValue e.method)),
    ("path".toList, .string (escapeJsonValue e.path)),
    ("status".toList, .number (wholeNumber e.status.toNat)),
    ("len".toList, .string (escapeJsonValue e.len)),
    ("enc".toList, .string (escapeJsonValue e.enc)),
    ("dur_ms".toList, .number (wholeNumber e.dur_ms))]

theorem AccessLogEntry.flatMembers (e : AccessLogEntry) :
    ∃ text, FlatMembers e.members text ∧ e.line = String.ofList ('\x7b' :: (text ++ ['\x7d'])) := by
  have hescaped (s : String) : (pieces (escapeJsonValue s)).isSome = true :=
    Option.isSome_of_eq_some (pieces_escapeJsonValue s)
  have hname {name : String} (h : ∀ c ∈ name.toList, c ≠ '\\' ∧ ¬ (c = '"' ∨ c.toNat < 32)) :
      (pieces name.toList).isSome = true := isSome_pieces h
  refine ⟨_, .cons (hname (forall_of_all (by decide))) (.string (hescaped _)) <|
    .cons (hname (forall_of_all (by decide))) (.string (hescaped _)) <|
    .cons (hname (forall_of_all (by decide))) (.string (hescaped _)) <|
    .cons (hname (forall_of_all (by decide))) (.number _) <|
    .cons (hname (forall_of_all (by decide))) (.string (hescaped _)) <|
    .cons (hname (forall_of_all (by decide))) (.string (hescaped _)) <|
    .last (hname (forall_of_all (by decide))) (.number _), ?_⟩
  unfold AccessLogEntry.line
  generalize escapeJsonValue e.remote = remote
  generalize escapeJsonValue e.method = method
  generalize escapeJsonValue e.path = path
  generalize escapeJsonValue e.len = len
  generalize escapeJsonValue e.enc = enc
  generalize Nat.toDigits 10 e.status.toNat = status
  generalize Nat.toDigits 10 e.dur_ms = dur_ms
  simp

/-- A line of the log is a JSON text of one object. -/
theorem isText_line_iff (e : AccessLogEntry) (tree : Tree) :
    IsText tree e.line ↔ tree = .object e.members := by
  obtain ⟨text, hmembers, hline⟩ := e.flatMembers
  rw [hline]
  exact hmembers.isText_iff tree

/-- What the members of an entry say. -/
theorem decode_members (e : AccessLogEntry) :
    e.members.map (fun member ↦ (decode member.1, member.2.value)) =
      [("remote", .string e.remote), ("method", .string e.method), ("path", .string e.path),
        ("status", .number (wholeNumber e.status.toNat).value), ("len", .string e.len),
        ("enc", .string e.enc), ("dur_ms", .number (wholeNumber e.dur_ms).value)] := by
  have hname {name : String} (h : ∀ c ∈ name.toList, c ≠ '\\' ∧ ¬ (c = '"' ∨ c.toNat < 32)) :
      decode name.toList = name := by
    rw [decode_of_plain (isSome_pieces h) fun hmem ↦ (h _ hmem).1 rfl, String.ofList_toList]
  have hremote : decode "remote".toList = "remote" := hname (forall_of_all (by decide))
  have hmethod : decode "method".toList = "method" := hname (forall_of_all (by decide))
  have hpath : decode "path".toList = "path" := hname (forall_of_all (by decide))
  have hstatus : decode "status".toList = "status" := hname (forall_of_all (by decide))
  have hlen : decode "len".toList = "len" := hname (forall_of_all (by decide))
  have henc : decode "enc".toList = "enc" := hname (forall_of_all (by decide))
  have hdur_ms : decode "dur_ms".toList = "dur_ms" := hname (forall_of_all (by decide))
  have hstring (s : String) : (Tree.string (escapeJsonValue s)).value = .string s := by
    rw [Tree.value, Tree.eval]
    exact congrArg JsonValue.string (decode_escapeJsonValue s)
  have hnumber (n : ℕ) : (Tree.number (wholeNumber n)).value = .number (wholeNumber n).value := by
    rw [Tree.value, Tree.eval, decoded]
  rw [AccessLogEntry.members]
  simp only [List.map_cons, List.map_nil, hremote, hmethod, hpath, hstatus, hlen, henc, hdur_ms,
    hstring, hnumber]

/-- What is written of a text is a string of the grammar that stands for it and for nothing else,
and a line is an object of the members that were logged and of no others. -/
theorem escapeJsonValue_spec :
    (∀ s : String, ∃ tree,
      (∀ found, IsText found (String.ofList ('"' :: (escapeJsonValue s ++ ['"']))) ↔ found = tree) ∧
        tree.value = .string s) ∧
      ∀ (remote_ip method path : String) (resp : Response) (timestamp : String) (dur_ms : ℕ),
        ∃ members : List (List Char × Tree),
          (∀ found, IsText found
            (accessLogEntry remote_ip method path resp timestamp dur_ms).line ↔
              found = .object members) ∧
          members.map (fun member ↦ (decode member.1, member.2.value)) =
            [("remote", .string remote_ip), ("method", .string method), ("path", .string path),
              ("status", .number (wholeNumber resp.status.toNat).value),
              ("len", .string (resp.header "content-length")),
              ("enc", .string (resp.header "content-encoding")),
              ("dur_ms", .number (wholeNumber dur_ms).value)] := by
  constructor
  · intro s
    have hflat : FlatText (.string (escapeJsonValue s)) _ :=
      .string (Option.isSome_of_eq_some (pieces_escapeJsonValue s))
    refine ⟨.string (escapeJsonValue s), hflat.isText_iff, ?_⟩
    rw [Tree.value, Tree.eval]
    exact congrArg JsonValue.string (decode_escapeJsonValue s)
  · intro remote_ip method path resp timestamp dur_ms
    exact ⟨_, isText_line_iff _, decode_members _⟩

end Lithair.Http.AccessLog
