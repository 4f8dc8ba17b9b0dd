import Lithair.Lib.Text

/-!
# Texts of fixed marks and JSON values

A `Format` writes a value as text and reads it back off the front of a text, whatever stands behind
it. Formats of a fixed mark, of a JSON string, of a string or `null`, and of a number with the comma
behind it are put together with `Format.andThen`, and formats of the kinds of a value with
`Format.depends`; what is written by a whole format is read back (`Format.fromText_toText`).

A reader that takes no notice of what stands behind the text it reads is `Format.Stable`. Of such a
format no text that stops before its end is read (`Format.Stable.fromText_torn`).
-/

namespace Lithair.Lib.JsonText

open Lithair.Lib.Text

/-! ### JSON strings -/

/-- The characters with an escape of one letter. -/
def shortEscapes : List (Char × Char) :=
  [('"', '"'), ('\\', '\\'), ('\n', 'n'), ('\r', 'r'), ('\t', 't'), ('\x08', 'b'), ('\x0c', 'f')]

def escape (c : Char) : List Char :=
  match shortEscapes.lookup c with
  | some letter => ['\\', letter]
  | none => if c.toNat < 32 then '\\' :: 'u' :: hexDigits 4 c.toNat else [c]

/-- The literal of a text, up to the quote behind it. -/
def literal (text : List Char) : List Char := text.flatMap escape ++ ['"']

/-- The character that a letter behind a backslash stands for. -/
def unescape (letter : Char) : Option Char :=
  (shortEscapes.find? fun pair ↦ pair.2 == letter).map Prod.fst

/-- Read a literal and what is behind it. -/
def readLiteral : List Char → Option (List Char × List Char)
  | [] => none
  | c :: rest =>
    if c = '"' then some ([], rest)
    else if c = '\\' then
      match rest with
      | [] => none
      | letter :: rest =>
        if letter = 'u' then
          match rest with
          | a :: b :: c :: d :: rest =>
            (readHex 0 [a, b, c, d]).bind fun n ↦
              (readLiteral rest).map fun (text, rest) ↦ (Char.ofNat n :: text, rest)
          | _ => none
        else
          (unescape letter).bind fun c ↦
            (readLiteral rest).map fun (text, rest) ↦ (c :: text, rest)
    else (readLiteral rest).map fun (text, rest) ↦ (c :: text, rest)

theorem shortEscapes_spec : ∀ pair ∈ shortEscapes,
    pair.2 ≠ 'u' ∧ ¬ pair.2.toNat < 32 ∧ unescape pair.2 = some pair.1 := by
  decide

/-- No character of the text is a control character. -/
def visible (text : List Char) : Bool := text.all fun c ↦ 32 ≤ c.toNat

theorem control_notMem_of_visible {control : Char} (hcontrol : control.toNat < 32)
    {text : List Char} (h : visible text = true) : control ∉ text := by
  intro hmem
  have hle := of_decide_eq_true (List.all_eq_true.mp h control hmem)
  exact absurd hcontrol (Nat.not_lt.mpr hle)

theorem hexDigit_visible : ∀ n < 16, ¬ (hexDigit n).toNat < 32 := by decide

theorem mem_of_lookup_eq_some {table : List (Char × Char)} {key value : Char}
    (h : table.lookup key = some value) : (key, value) ∈ table := by
  obtain ⟨before, behind, rfl, -⟩ := List.lookup_eq_some_iff.mp h
  exact List.mem_append_right before List.mem_cons_self

theorem readLiteral_escape (c : Char) (rest : List Char) :
    readLiteral (escape c ++ rest) =
      (readLiteral rest).map fun (text, rest) ↦ (c :: text, rest) := by
  unfold escape
  split
  · next letter hlookup =>
    obtain ⟨hu, -, hletter⟩ := shortEscapes_spec (c, letter) (mem_of_lookup_eq_some hlookup)
    show readLiteral ('\\' :: letter :: rest) = _
    rw [readLiteral.eq_def]
    simp only [if_neg hu, hletter]
    rfl
  · next hlookup =>
    have hplain : c ≠ '"' ∧ c ≠ '\\' := by
      constructor <;> rintro rfl <;> exact absurd hlookup (by decide)
    split_ifs with hcontrol
    · have hfour : hexDigits 4 c.toNat = [hexDigit (c.toNat / 16 / 16 / 16 % 16),
          hexDigit (c.toNat / 16 / 16 % 16), hexDigit (c.toNat / 16 % 16),
          hexDigit (c.toNat % 16)] := rfl
      have hread := readHex_hexDigits 4 c.toNat 0
      rw [Nat.mul_zero, Nat.zero_add, Nat.mod_eq_of_lt (by omega), hfour] at hread
      rw [hfour]
      simp only [List.cons_append, List.nil_append]
      rw [readLiteral.eq_def]
      simp only [hread, Option.bind_some, Char.ofNat_toNat]
      rfl
    · show readLiteral (c :: rest) = _
      rw [readLiteral.eq_def]
      simp only [if_neg hplain.1, if_neg hplain.2]

theorem readLiteral_literal (text rest : List Char) :
    readLiteral (literal text ++ rest) = some (text, rest) := by
  induction text with
  | nil =>
    show readLiteral ('"' :: rest) = _
    rw [readLiteral.eq_def]
    exact if_pos rfl
  | cons c text ih =>
    show readLiteral ((escape c ++ text.flatMap escape) ++ ['"'] ++ rest) = _
    rw [List.append_assoc, List.append_assoc, readLiteral_escape, ← List.append_assoc]
    show (readLiteral (literal text ++ rest)).map _ = _
    rw [ih]
    rfl

/-- Control characters are escaped. -/
theorem control_notMem_literal {control : Char} (hcontrol : control.toNat < 32)
    (text : List Char) : control ∉ literal text := by
  unfold literal
  intro hmem
  rcases List.mem_append.mp hmem with hmem | hmem
  · obtain ⟨c, -, hc⟩ := List.mem_flatMap.mp hmem
    unfold escape at hc
    split at hc
    · next letter hlookup =>
      have hletter := (shortEscapes_spec (c, letter) (mem_of_lookup_eq_some hlookup)).2.1
      rcases List.mem_cons.mp hc with rfl | hc
      · exact absurd hcontrol (by decide)
      · exact hletter (List.mem_singleton.mp hc ▸ hcontrol)
    · next hlookup =>
      split_ifs at hc with hlow
      · rcases List.mem_cons.mp hc with rfl | hc
        · exact absurd hcontrol (by decide)
        · rcases List.mem_cons.mp hc with rfl | hc
          · exact absurd hcontrol (by decide)
          · obtain ⟨digit, hlt, rfl⟩ := mem_hexDigits hc
            exact (hexDigit_visible digit hlt) hcontrol
      · exact hlow (List.mem_singleton.mp hc ▸ hcontrol)
  · rw [List.mem_singleton.mp hmem] at hcontrol
    exact absurd hcontrol (by decide)

/-- What is behind a literal is not looked at. -/
theorem readLiteral_more {input text rest : List Char} (h : readLiteral input = some (text, rest))
    (more : List Char) : readLiteral (input ++ more) = some (text, rest ++ more) := by
  induction input using readLiteral.induct generalizing text rest with
  | case1 => exact absurd h (by simp [readLiteral])
  | case2 input =>
    rw [readLiteral.eq_def] at h
    obtain ⟨rfl, rfl⟩ := Prod.mk.inj (Option.some.inj ((if_pos rfl).symm.trans h))
    rw [List.cons_append, readLiteral.eq_def]
    exact if_pos rfl
  | case3 hquote => exact absurd h (by simp [readLiteral])
  | case4 a b c d input hquote ih =>
    rw [readLiteral.eq_def] at h
    simp only [if_neg hquote, if_true] at h
    obtain ⟨n, hn, hread⟩ := Option.bind_eq_some_iff.mp h
    obtain ⟨⟨text', rest'⟩, htail, hsame⟩ := Option.map_eq_some_iff.mp hread
    obtain ⟨rfl, rfl⟩ := Prod.mk.inj hsame
    simp only [List.cons_append]
    rw [readLiteral.eq_def]
    simp only [if_neg hquote, if_true, hn, Option.bind_some, ih htail, Option.map_some]
  | case5 input hshort hquote =>
    rw [readLiteral.eq_def] at h
    simp only [if_neg hquote, if_true] at h
    exact absurd h.symm (Option.some_ne_none _)
  | case6 letter input hletter hquote ih =>
    rw [readLiteral.eq_def] at h
    simp only [if_neg hquote, if_true, if_neg hletter] at h
    obtain ⟨c, hc, hread⟩ := Option.bind_eq_some_iff.mp h
    obtain ⟨⟨text', rest'⟩, htail, hsame⟩ := Option.map_eq_some_iff.mp hread
    obtain ⟨rfl, rfl⟩ := Prod.mk.inj hsame
    simp only [List.cons_append]
    rw [readLiteral.eq_def]
    simp only [if_neg hquote, if_true, if_neg hletter, hc, Option.bind_some, ih htail,
      Option.map_some]
  | case7 letter input hquote hslash ih =>
    rw [readLiteral.eq_def] at h
    simp only [if_neg hquote, if_neg hslash] at h
    obtain ⟨⟨text', rest'⟩, htail, hsame⟩ := Option.map_eq_some_iff.mp h
    obtain ⟨rfl, rfl⟩ := Prod.mk.inj hsame
    rw [List.cons_append, readLiteral.eq_def]
    simp only [if_neg hquote, if_neg hslash, ih htail, Option.map_some]

/-! ### Numbers -/

/-- Read the digits in front, in base ten. -/
def readNumber (text : List Char) : Option (ℕ × List Char) :=
  if text.takeWhile Char.isDigit = [] then none
  else some (Nat.ofDigitChars 10 (text.takeWhile Char.isDigit) 0, text.dropWhile Char.isDigit)

theorem readNumber_toDigits (n : ℕ) {c : Char} (hc : c.isDigit = false) (rest : List Char) :
    readNumber (Nat.toDigits 10 n ++ c :: rest) = some (n, c :: rest) := by
  have hdigits : ∀ d ∈ Nat.toDigits 10 n, d.isDigit = true := fun d hd ↦
    Nat.isDigit_of_mem_toDigits (by decide) (by decide) hd
  have hread : Nat.ofDigitChars 10 (Nat.toDigits 10 n) 0 = n :=
    Nat.ofDigitChars_toDigits (by decide) (by decide)
  have hend : ¬ c.isDigit = true := by simp [hc]
  rw [readNumber, List.takeWhile_append_of_pos hdigits, List.dropWhile_append_of_pos hdigits,
    List.takeWhile_cons_of_neg hend, List.dropWhile_cons_of_neg hend, List.append_nil, hread,
    if_neg Nat.toDigits_ne_nil]

/-- What is behind the end of a number is not looked at. -/
theorem readNumber_more {input rest : List Char} {n : ℕ} {c : Char}
    (h : readNumber input = some (n, c :: rest)) (more : List Char) :
    readNumber (input ++ more) = some (n, c :: rest ++ more) := by
  unfold readNumber at h
  split_ifs at h with hdigits
  obtain ⟨hn, hrest⟩ := Prod.mk.inj (Option.some.inj h)
  have hlength : (input.takeWhile Char.isDigit).length ≠ input.length := by
    have hsplit := congrArg List.length
      (show input.takeWhile Char.isDigit ++ input.dropWhile Char.isDigit = input from
        List.takeWhile_append_dropWhile)
    rw [List.length_append, hrest, List.length_cons] at hsplit
    omega
  rw [readNumber, List.takeWhile_append, List.dropWhile_append, if_neg hlength, if_neg hdigits,
    hrest, hn]
  rfl

/-! ### Formats -/

/-- A way to write values as text that is read back from the front of a text. -/
structure Format (α : Type*) where
  write : α → List Char
  read : List Char → Option (α × List Char)
  read_write : ∀ a rest, read (write a ++ rest) = some (a, rest)

namespace Format

variable {α β : Type*}

/-- A fixed mark. -/
def mark (text : List Char) : Format Unit where
  write := fun _ ↦ text
  read := fun input ↦ if text <+: input then some ((), input.drop text.length) else none
  read_write := by
    intro a rest
    rw [if_pos (List.prefix_append text rest), List.drop_left]

/-- One value and the next. -/
def andThen (first : Format α) (second : Format β) : Format (α × β) where
  write := fun pair ↦ first.write pair.1 ++ second.write pair.2
  read := fun input ↦ (first.read input).bind fun (a, rest) ↦
    (second.read rest).map fun (b, rest) ↦ ((a, b), rest)
  read_write := by
    intro pair rest
    rw [List.append_assoc, first.read_write]
    simp only [Option.bind_some, second.read_write, Option.map_some]

/-- The values of a type that stands for another one. -/
def map (format : Format α) (of : α → β) (into : β → α) (h : ∀ b, of (into b) = b) : Format β where
  write := fun b ↦ format.write (into b)
  read := fun input ↦ (format.read input).map fun (a, rest) ↦ (of a, rest)
  read_write := by
    intro b rest
    rw [format.read_write, Option.map_some]
    exact congrArg (fun b ↦ some (b, rest)) (h b)

/-- A value with a mark in front of it. -/
def behind (text : List Char) (format : Format α) : Format α :=
  ((mark text).andThen format).map Prod.snd (fun a ↦ ((), a)) fun _ ↦ rfl

/-- The values of a type that stands for a part of another one. -/
def only (format : Format α) (of : α → Option β) (into : β → α) (h : ∀ b, of (into b) = some b) :
    Format β where
  write := fun b ↦ format.write (into b)
  read := fun input ↦ (format.read input).bind fun (a, rest) ↦ (of a).map fun b ↦ (b, rest)
  read_write := by
    intro b rest
    rw [format.read_write]
    simp only [Option.bind_some, h, Option.map_some]

/-- The kind of a value, and then the value in the format of its kind. -/
def depends (first : Format α) (key : β → α) (second : ∀ a, Format {b // key b = a}) :
    Format β where
  write := fun b ↦ first.write (key b) ++ (second (key b)).write ⟨b, rfl⟩
  read := fun input ↦ (first.read input).bind fun (a, rest) ↦
    ((second a).read rest).map fun (b, rest) ↦ (b.val, rest)
  read_write := by
    intro b rest
    rw [List.append_assoc, first.read_write]
    simp only [Option.bind_some, (second (key b)).read_write, Option.map_some]

/-- A JSON string. -/
def text : Format String :=
  behind ['"']
    { write := fun s ↦ literal s.toList
      read := fun input ↦ (readLiteral input).map fun (s, rest) ↦ (String.ofList s, rest)
      read_write := by
        intro s rest
        rw [readLiteral_literal, Option.map_some]
        exact congrArg (fun s ↦ some (s, rest)) String.ofList_toList }

/-- A number and the comma behind it. -/
def number : Format ℕ where
  write := fun n ↦ Nat.toDigits 10 n ++ [',']
  read := fun input ↦ (readNumber input).map fun (n, rest) ↦ (n, rest.tail)
  read_write := by
    intro n rest
    rw [List.append_assoc]
    show (readNumber (Nat.toDigits 10 n ++ ',' :: rest)).map _ = _
    rw [readNumber_toDigits n (by decide)]
    rfl

/-- A number and the comma behind it, which has to be there. -/
def numeral : Format ℕ where
  write := number.write
  read := fun input ↦ (readNumber input).bind fun (n, rest) ↦
    if rest.head? = some ',' then some (n, rest.tail) else none
  read_write := by
    intro n rest
    show (readNumber (Nat.toDigits 10 n ++ [','] ++ rest)).bind _ = _
    rw [List.append_assoc]
    show (readNumber (Nat.toDigits 10 n ++ ',' :: rest)).bind _ = _
    rw [readNumber_toDigits n (by decide)]
    rfl

/-- A JSON string or `null`. -/
def nullable : Format (Option String) where
  write := fun value ↦ match value with
    | none => ['n', 'u', 'l', 'l']
    | some s => text.write s
  read := fun input ↦
    if ['n', 'u', 'l', 'l'] <+: input then some (none, input.drop 4)
    else (text.read input).map fun (s, rest) ↦ (some s, rest)
  read_write := by
    intro value rest
    cases value with
    | none => exact if_pos (List.prefix_append _ rest)
    | some s =>
      have hquote : ¬ ['n', 'u', 'l', 'l'] <+: text.write s ++ rest := by
        show ¬ _ <+: '"' :: (literal s.toList ++ rest)
        rw [List.cons_prefix_cons]
        exact fun h ↦ absurd h.1 (by decide)
      show (if _ then _ else _) = _
      rw [if_neg hquote, text.read_write]
      rfl

/-- A value with a mark in front of it, or nothing, and then another value, whose text does not
begin with the mark. -/
def optionally (text : List Char) (format : Format α) (next : Format β)
    (h : ∀ b rest, ¬ text <+: next.write b ++ rest) : Format (Option α × β) where
  write := fun pair ↦ match pair.1 with
    | none => next.write pair.2
    | some a => (behind text format).write a ++ next.write pair.2
  read := fun input ↦
    if text <+: input then
      (((behind text format).andThen next).read input).map fun ((a, b), rest) ↦ ((some a, b), rest)
    else (next.read input).map fun (b, rest) ↦ ((none, b), rest)
  read_write := by
    intro pair rest
    obtain ⟨value, b⟩ := pair
    cases value with
    | none =>
      show (if _ then _ else _) = _
      rw [if_neg (h b rest), next.read_write]
      rfl
    | some a =>
      have hfront : text <+: (behind text format).write a ++ next.write b ++ rest := by
        show text <+: (text ++ format.write a) ++ next.write b ++ rest
        rw [List.append_assoc, List.append_assoc]
        exact List.prefix_append text _
      have hread := ((behind text format).andThen next).read_write (a, b) rest
      exact (if_pos hfront).trans (congrArg (Option.map _) hread)

def toText (format : Format α) (a : α) : String := String.ofList (format.write a)

/-- Read a whole text. -/
def fromText (format : Format α) (input : String) : Option α :=
  (format.read input.toList).bind fun (a, rest) ↦ if rest = [] then some a else none

theorem fromText_toText (format : Format α) (a : α) :
    format.fromText (format.toText a) = some a := by
  have hread := format.read_write a []
  rw [List.append_nil] at hread
  rw [fromText, toText, String.toList_ofList, hread]
  rfl

/-- Of two texts that are written neither stops inside the other. -/
theorem write_eq_of_prefix (format : Format α) {a b : α} (h : format.write a <+: format.write b) :
    a = b := by
  obtain ⟨more, hmore⟩ := h
  have hread := format.read_write a more
  rw [hmore, ← List.append_nil (format.write b), format.read_write] at hread
  exact (Prod.mk.inj (Option.some.inj hread)).1.symm

/-! ### Formats of one line -/

/-- No text of the format has the character. -/
def Avoids (format : Format α) (c : Char) : Prop := ∀ a, c ∉ format.write a

/-- No text of the format has a line feed. -/
def NoLineFeed (format : Format α) : Prop := ∀ a, '\n' ∉ format.write a

variable {c : Char}

theorem avoids_mark {text : List Char} (h : c ∉ text) : Avoids (mark text) c := fun _ ↦ h

theorem Avoids.andThen {first : Format α} {second : Format β} (h : Avoids first c)
    (h' : Avoids second c) : Avoids (first.andThen second) c := by
  intro pair hmem
  rcases List.mem_append.mp hmem with hmem | hmem
  · exact h pair.1 hmem
  · exact h' pair.2 hmem

theorem Avoids.map {format : Format α} (h : Avoids format c) {of : α → β} {into : β → α}
    (hinto : ∀ b, of (into b) = b) : Avoids (format.map of into hinto) c := fun b ↦ h (into b)

theorem Avoids.behind {format : Format α} (h : Avoids format c) {text : List Char}
    (htext : c ∉ text) : Avoids (Format.behind text format) c :=
  ((avoids_mark htext).andThen h).map _

theorem Avoids.only {format : Format α} (h : Avoids format c) {of : α → Option β} {into : β → α}
    (hinto : ∀ b, of (into b) = some b) : Avoids (format.only of into hinto) c :=
  fun b ↦ h (into b)

theorem Avoids.depends {first : Format α} {key : β → α} {second : ∀ a, Format {b // key b = a}}
    (h : Avoids first c) (h' : ∀ a, Avoids (second a) c) : Avoids (first.depends key second) c := by
  intro b hmem
  rcases List.mem_append.mp hmem with hmem | hmem
  · exact h (key b) hmem
  · exact h' (key b) ⟨b, rfl⟩ hmem

theorem avoids_text (hc : c.toNat < 32) : Avoids text c := by
  intro s hmem
  rcases List.mem_cons.mp hmem with rfl | hmem
  · exact absurd hc (by decide)
  · exact control_notMem_literal hc s.toList hmem

theorem not_control_of_mem_toDigits {n : ℕ} (h : c ∈ Nat.toDigits 10 n) : ¬ c.toNat < 32 := by
  have hdigit : c.isDigit = true := Nat.isDigit_of_mem_toDigits (by decide) (by decide) h
  simp only [Char.isDigit, Bool.and_eq_true, decide_eq_true_eq, ge_iff_le] at hdigit
  have hlow : '0'.toNat ≤ c.toNat := UInt32.le_iff_toNat_le.mp hdigit.1
  have hzero : '0'.toNat = 48 := by decide
  omega

theorem avoids_number (hc : c.toNat < 32) : Avoids number c := by
  intro n hmem
  rcases List.mem_append.mp hmem with hmem | hmem
  · exact not_control_of_mem_toDigits hmem hc
  · rw [List.mem_singleton.mp hmem] at hc
    exact absurd hc (by decide)

theorem avoids_numeral (hc : c.toNat < 32) : Avoids numeral c := avoids_number hc

theorem avoids_nullable (hc : c.toNat < 32) : Avoids nullable c := by
  intro value
  cases value with
  | none =>
    have hvisible : visible ['n', 'u', 'l', 'l'] = true := rfl
    exact control_notMem_of_visible hc hvisible
  | some s => exact avoids_text hc s

theorem Avoids.optionally {format : Format α} {next : Format β} (h : Avoids format c)
    (h' : Avoids next c) {text : List Char} (htext : c ∉ text)
    (hnext : ∀ b rest, ¬ text <+: next.write b ++ rest) :
    Avoids (Format.optionally text format next hnext) c := by
  intro pair
  obtain ⟨value, b⟩ := pair
  cases value with
  | none => exact h' b
  | some a => exact (h.behind htext).andThen h' (a, b)

theorem noLineFeed_mark {text : List Char} (h : '\n' ∉ text) : NoLineFeed (mark text) :=
  avoids_mark h

theorem NoLineFeed.andThen {first : Format α} {second : Format β} (h : NoLineFeed first)
    (h' : NoLineFeed second) : NoLineFeed (first.andThen second) := Avoids.andThen h h'

theorem NoLineFeed.map {format : Format α} (h : NoLineFeed format) {of : α → β} {into : β → α}
    (hinto : ∀ b, of (into b) = b) : NoLineFeed (format.map of into hinto) := Avoids.map h hinto

theorem NoLineFeed.behind {format : Format α} (h : NoLineFeed format) {text : List Char}
    (htext : '\n' ∉ text) : NoLineFeed (Format.behind text format) := Avoids.behind h htext

theorem noLineFeed_text : NoLineFeed text := avoids_text (by decide)

theorem noLineFeed_number : NoLineFeed number := avoids_number (by decide)

theorem noLineFeed_nullable : NoLineFeed nullable := avoids_nullable (by decide)

theorem NoLineFeed.optionally {format : Format α} {next : Format β} (h : NoLineFeed format)
    (h' : NoLineFeed next) {text : List Char} (htext : '\n' ∉ text)
    (hnext : ∀ b rest, ¬ text <+: next.write b ++ rest) :
    NoLineFeed (Format.optionally text format next hnext) := Avoids.optionally h h' htext hnext

/-- Each text of the format ends in the character. -/
def EndsIn (format : Format α) (c : Char) : Prop := ∀ a, ∃ front, format.write a = front ++ [c]

theorem EndsIn.andThen {second : Format β} {c : Char} (h : EndsIn second c) (first : Format α) :
    EndsIn (first.andThen second) c := by
  intro pair
  obtain ⟨front, hfront⟩ := h pair.2
  exact ⟨first.write pair.1 ++ front, by rw [List.append_assoc, ← hfront]; rfl⟩

theorem EndsIn.map {format : Format α} {c : Char} (h : EndsIn format c) {of : α → β} {into : β → α}
    (hinto : ∀ b, of (into b) = b) : EndsIn (format.map of into hinto) c := fun b ↦ h (into b)

theorem EndsIn.optionally {next : Format β} {c : Char} (h : EndsIn next c) (format : Format α)
    {text : List Char} (hnext : ∀ b rest, ¬ text <+: next.write b ++ rest) :
    EndsIn (Format.optionally text format next hnext) c := by
  intro pair
  obtain ⟨value, b⟩ := pair
  cases value with
  | none => exact h b
  | some a => exact h.andThen (Format.behind text format) (a, b)

/-! ### Formats whose end is seen -/

/-- The reader takes no notice of what is behind the text that it reads. -/
def Stable (format : Format α) : Prop := ∀ ⦃input a rest⦄, format.read input = some (a, rest) →
  ∀ more, format.read (input ++ more) = some (a, rest ++ more)

theorem stable_mark (text : List Char) : Stable (mark text) := by
  intro input a rest h more
  show (if text <+: input ++ more then _ else _) = _
  have hread : (if text <+: input then some ((), input.drop text.length) else none) =
      some (a, rest) := h
  split_ifs at hread with hbegins
  obtain ⟨behind, rfl⟩ := hbegins
  obtain ⟨-, rfl⟩ := Prod.mk.inj (Option.some.inj hread)
  rw [List.append_assoc, if_pos (List.prefix_append text _), List.drop_left, List.drop_left]

theorem Stable.andThen {first : Format α} {second : Format β} (h : Stable first)
    (h' : Stable second) : Stable (first.andThen second) := by
  intro input pair rest hread more
  obtain ⟨⟨a, middle⟩, hfirst, hsecond⟩ := Option.bind_eq_some_iff.mp hread
  obtain ⟨⟨b, rest'⟩, hlast, hsame⟩ := Option.map_eq_some_iff.mp hsecond
  obtain ⟨rfl, rfl⟩ := Prod.mk.inj hsame
  show (first.read (input ++ more)).bind _ = _
  rw [h hfirst more]
  show (second.read (middle ++ more)).map _ = _
  rw [h' hlast more]
  rfl

theorem Stable.map {format : Format α} (h : Stable format) {of : α → β} {into : β → α}
    (hinto : ∀ b, of (into b) = b) : Stable (format.map of into hinto) := by
  intro input b rest hread more
  obtain ⟨⟨a, rest'⟩, hfirst, hsame⟩ := Option.map_eq_some_iff.mp hread
  obtain ⟨rfl, rfl⟩ := Prod.mk.inj hsame
  show (format.read (input ++ more)).map _ = _
  rw [h hfirst more]
  rfl

theorem Stable.behind {format : Format α} (h : Stable format) (text : List Char) :
    Stable (Format.behind text format) :=
  ((stable_mark text).andThen h).map _

theorem Stable.only {format : Format α} (h : Stable format) {of : α → Option β} {into : β → α}
    (hinto : ∀ b, of (into b) = some b) : Stable (format.only of into hinto) := by
  intro input b rest hread more
  obtain ⟨⟨a, rest'⟩, hfirst, hof⟩ := Option.bind_eq_some_iff.mp hread
  obtain ⟨b', hb', hsame⟩ := Option.map_eq_some_iff.mp hof
  obtain ⟨rfl, rfl⟩ := Prod.mk.inj hsame
  show (format.read (input ++ more)).bind _ = _
  rw [h hfirst more]
  show (of a).map _ = _
  rw [hb']
  rfl

theorem Stable.depends {first : Format α} {key : β → α} {second : ∀ a, Format {b // key b = a}}
    (h : Stable first) (h' : ∀ a, Stable (second a)) : Stable (first.depends key second) := by
  intro input b rest hread more
  obtain ⟨⟨a, middle⟩, hfirst, hsecond⟩ := Option.bind_eq_some_iff.mp hread
  obtain ⟨⟨b', rest'⟩, hlast, hsame⟩ := Option.map_eq_some_iff.mp hsecond
  obtain ⟨rfl, rfl⟩ := Prod.mk.inj hsame
  show (first.read (input ++ more)).bind _ = _
  rw [h hfirst more]
  show ((second a).read (middle ++ more)).map _ = _
  rw [h' a hlast more]
  rfl

theorem stable_text : Stable text := by
  refine Stable.behind (fun input s rest hread more ↦ ?_) _
  obtain ⟨⟨s', rest'⟩, hliteral, hsame⟩ := Option.map_eq_some_iff.mp hread
  obtain ⟨rfl, rfl⟩ := Prod.mk.inj hsame
  show (readLiteral (input ++ more)).map _ = _
  rw [readLiteral_more hliteral more]
  rfl

theorem stable_numeral : Stable numeral := by
  intro input n rest hread more
  obtain ⟨⟨n', rest'⟩, hnumber, hcomma⟩ := Option.bind_eq_some_iff.mp hread
  simp only at hcomma
  split_ifs at hcomma with hhead
  obtain ⟨rfl, rfl⟩ := Prod.mk.inj (Option.some.inj hcomma)
  obtain ⟨tail, rfl⟩ := List.head?_eq_some_iff.mp hhead
  show (readNumber (input ++ more)).bind _ = _
  rw [readNumber_more hnumber more]
  rfl

theorem prefix_of_read_behind {format : Format α} {text input : List Char} {a : α}
    {rest : List Char} (h : (behind text format).read input = some (a, rest)) : text <+: input := by
  obtain ⟨pair, hread, -⟩ := Option.map_eq_some_iff.mp h
  obtain ⟨front, hmark, -⟩ := Option.bind_eq_some_iff.mp hread
  have hbegins : (if text <+: input then some ((), input.drop text.length) else none) =
      some front := hmark
  split_ifs at hbegins with hfront
  exact hfront

theorem exists_read_of_read_depends {first : Format α} {key : β → α}
    {second : ∀ a, Format {b // key b = a}} {input : List Char} {b : β} {rest : List Char}
    (h : (first.depends key second).read input = some (b, rest)) :
    ∃ a behind, first.read input = some (a, behind) := by
  obtain ⟨⟨a, behind⟩, hfirst, -⟩ := Option.bind_eq_some_iff.mp h
  exact ⟨a, behind, hfirst⟩

theorem stable_nullable : Stable nullable := by
  intro input value rest hread more
  have hcases : (if ['n', 'u', 'l', 'l'] <+: input then some (none, input.drop 4)
      else (text.read input).map fun (s, rest) ↦ (some s, rest)) = some (value, rest) := hread
  show (if _ then _ else _) = _
  split_ifs at hcases with hnull
  · obtain ⟨behind, rfl⟩ := hnull
    obtain ⟨rfl, rfl⟩ := Prod.mk.inj (Option.some.inj hcases)
    rw [List.append_assoc, if_pos (List.prefix_append _ _)]
    rfl
  · obtain ⟨⟨s, rest'⟩, htext, hsame⟩ := Option.map_eq_some_iff.mp hcases
    obtain ⟨rfl, rfl⟩ := Prod.mk.inj hsame
    have hquote : ¬ ['n', 'u', 'l', 'l'] <+: input ++ more := by
      obtain ⟨behind, rfl⟩ := prefix_of_read_behind htext
      show ¬ _ <+: '"' :: (behind ++ more)
      rw [List.cons_prefix_cons]
      exact fun h ↦ absurd h.1 (by decide)
    rw [if_neg hquote, stable_text htext more]
    rfl

/-- A text that stops before its end is not read. -/
theorem Stable.fromText_torn {format : Format α} (h : Stable format) {a : α} {torn : List Char}
    (hbegins : torn <+: format.write a) (hne : torn ≠ format.write a) :
    format.fromText (String.ofList torn) = none := by
  rw [fromText, String.toList_ofList, Option.bind_eq_none_iff]
  rintro ⟨b, rest⟩ hread
  obtain ⟨more, hmore⟩ := hbegins
  have hwhole := h hread more
  rw [hmore, ← List.append_nil (format.write a), format.read_write] at hwhole
  obtain ⟨-, hrest⟩ := Prod.mk.inj (Option.some.inj hwhole)
  rw [(List.append_eq_nil_iff.mp hrest.symm).2, List.append_nil] at hmore
  exact absurd hmore hne

end Format

end Lithair.Lib.JsonText
