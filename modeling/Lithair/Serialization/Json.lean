import Lithair.Lib.Binary64
import Lithair.Lib.Text

/-!
# The JSON values of the framework, their printer and their parser

`JsonValue` with its equality, `stringifyJson` and `parseJson`. The parser walks over the characters
of the input; here each of its functions takes the characters from the position on and gives back
those behind what it has read. The fields of an object are a hash map, which is its entries in the
order in which this map iterates; equality (`JsonValue.eq`) does not look at that order.

The two loops and `parse_value` call each other. They take an amount of fuel, which `parseJson`
chooses from the length of the input, and `Reads` says without it what is read.
-/

namespace Lithair.Serialization.Json

open Lithair.Lib Lithair.Lib.Text

/-! ### Values -/

inductive JsonValue
  | null
  | bool (b : Bool)
  | number (n : Binary64)
  | string (s : String)
  | array (items : List JsonValue)
  | object (fields : List (String × JsonValue))

inductive JsonError
  | invalidSyntax (message : String)
  | unexpectedToken (token : Char)
  | unexpectedEnd
  | invalidNumber (number : String)
  | invalidString (string : String)
  | invalidEscape (escape : String)
  deriving DecidableEq

namespace JsonValue

mutual

/-- Two objects are equal when they have as many fields and each field of the one is in the
other. -/
def eq : JsonValue → JsonValue → Bool
  | null, null => true
  | bool a, bool b => a == b
  | number m, number n => m.eq n
  | string s, string t => s == t
  | array items, array others => eqItems items others
  | object fields, object others => fields.length == others.length && eqFields fields others
  | _, _ => false

def eqItems : List JsonValue → List JsonValue → Bool
  | [], [] => true
  | v :: items, w :: others => v.eq w && eqItems items others
  | _, _ => false

def eqFields : List (String × JsonValue) → List (String × JsonValue) → Bool
  | [], _ => true
  | (key, v) :: fields, others =>
    (match others.lookup key with
      | some w => v.eq w
      | none => false) && eqFields fields others

end

end JsonValue

/-- A field is given its value, in its place when the map has the key. -/
def insert (key : String) (value : JsonValue) :
    List (String × JsonValue) → List (String × JsonValue)
  | [] => [(key, value)]
  | (k, v) :: fields =>
    if k = key then (key, value) :: fields else (k, v) :: insert key value fields

/-! ### The printer -/

def escapeChar (c : Char) : List Char :=
  if c = '"' then ['\\', '"']
  else if c = '\\' then ['\\', '\\']
  else if c = '\n' then ['\\', 'n']
  else if c = '\r' then ['\\', 'r']
  else if c = '\t' then ['\\', 't']
  else [c]

/-- Escape a string for JSON output. -/
def escapeString (s : String) : List Char := s.toList.flatMap escapeChar

def quoted (s : String) : List Char := '"' :: (escapeString s ++ ['"'])

def formatInt (i : ℤ) : List Char :=
  if i < 0 then '-' :: Nat.toDigits 10 i.natAbs else Nat.toDigits 10 i.natAbs

/-- The cast of an integral double to `i64`, which stops at the ends of the type. -/
def castI64 (negative : Bool) (n : ℕ) : ℤ :=
  if negative then max (-(n : ℤ)) (-9223372036854775808) else min (n : ℤ) 9223372036854775807

/-- A double as text: the shortest decimal that reads back, never with an exponent. -/
def formatDouble : Binary64 → List Char
  | .nan => ['N', 'a', 'N']
  | .infinite negative => (if negative then ['-'] else []) ++ ['i', 'n', 'f']
  | .finite negative magnitude =>
    let (places, decimal) := (Binary64.decimals magnitude).getD (0, 0)
    let fraction := Nat.toDigits 10 (decimal % 10 ^ places)
    (if negative then ['-'] else []) ++ Nat.toDigits 10 (decimal / 10 ^ places) ++
      '.' :: (List.replicate (places - fraction.length) '0' ++ fraction)

def stringifyNumber : Binary64 → List Char
  | .finite negative magnitude =>
    if magnitude.den = 1 then formatInt (castI64 negative magnitude.num)
    else formatDouble (.finite negative magnitude)
  | n => formatDouble n

mutual

/-- Convert a value to JSON text. -/
def stringify : JsonValue → List Char
  | .null => ['n', 'u', 'l', 'l']
  | .bool true => ['t', 'r', 'u', 'e']
  | .bool false => ['f', 'a', 'l', 's', 'e']
  | .number n => stringifyNumber n
  | .string s => quoted s
  | .array items => '[' :: (stringifyItems items ++ [']'])
  | .object fields => '\x7b' :: (stringifyFields fields ++ ['\x7d'])

def stringifyItems : List JsonValue → List Char
  | [] => []
  | [v] => stringify v
  | v :: items => stringify v ++ ',' :: stringifyItems items

def stringifyFields : List (String × JsonValue) → List Char
  | [] => []
  | [(key, v)] => quoted key ++ ':' :: stringify v
  | (key, v) :: fields => quoted key ++ ':' :: stringify v ++ ',' :: stringifyFields fields

end

def stringifyJson (v : JsonValue) : String := String.ofList (stringify v)

/-! ### The parser -/

def skipWhitespace (text : List Char) : List Char := text.dropWhile isWhitespace

def consumeWord (word text : List Char) : Option (List Char) := stripPrefix word text

def parseNull (text : List Char) : Except JsonError (JsonValue × List Char) :=
  match consumeWord ['n', 'u', 'l', 'l'] text with
  | some rest => .ok (.null, rest)
  | none => .error (.invalidSyntax "Expected 'null'")

def parseBool (text : List Char) : Except JsonError (JsonValue × List Char) :=
  match consumeWord ['t', 'r', 'u', 'e'] text with
  | some rest => .ok (.bool true, rest)
  | none =>
    match consumeWord ['f', 'a', 'l', 's', 'e'] text with
    | some rest => .ok (.bool false, rest)
    | none => .error (.invalidSyntax "Expected 'true' or 'false'")

/-- The first character is skipped as the opening quote, and the string goes on to the next quote.
Escape sequences are not handled. -/
def parseString (text : List Char) : Except JsonError (JsonValue × List Char) :=
  match text.tail.dropWhile (· != '"') with
  | [] => .error .unexpectedEnd
  | _ :: rest => .ok (.string (String.ofList (text.tail.takeWhile (· != '"'))), rest)

/-- The characters that `parse_number` takes behind a sign. -/
def isNumeric (c : Char) : Bool := c.isDigit || c == '.'

/-- The magnitude of a decimal. -/
def decimal (whole fraction : List Char) : ℚ≥0 :=
  (Nat.ofDigitChars 10 (whole ++ fraction) 0 : ℚ≥0) / (10 : ℕ) ^ fraction.length

/-- Digits with at most one point, before or behind which there is a digit. -/
def parseMagnitude (text : List Char) : Option ℚ≥0 :=
  let whole := text.takeWhile Char.isDigit
  match text.dropWhile Char.isDigit with
  | [] => if whole = [] then none else some (decimal whole [])
  | point :: fraction =>
    if point = '.' ∧ fraction.all Char.isDigit ∧ whole ++ fraction ≠ [] then
      some (decimal whole fraction)
    else none

/-- `str::parse` for a double, on a text of digits and points behind an optional minus sign. -/
def parseF64 : List Char → Option Binary64
  | '-' :: text => (parseMagnitude text).map (Binary64.nearest true)
  | text => (parseMagnitude text).map (Binary64.nearest false)

def parseNumber (text : List Char) : Except JsonError (JsonValue × List Char) :=
  let sign := if text.head? = some '-' then ['-'] else []
  let body := text.drop sign.length
  let numStr := sign ++ body.takeWhile isNumeric
  match parseF64 numStr with
  | some n => .ok (.number n, body.dropWhile isNumeric)
  | none => .error (.invalidNumber (String.ofList numStr))

/-- What is behind an opening bracket, with the loop over the items. -/
def parseArray (loop : List Char → Except JsonError (JsonValue × List Char)) (text : List Char) :
    Except JsonError (JsonValue × List Char) :=
  let text := skipWhitespace text
  if text.head? = some ']' then .ok (.array [], text.tail) else loop text

/-- What is behind an opening brace, with the loop over the fields. -/
def parseObject (loop : List Char → Except JsonError (JsonValue × List Char)) (text : List Char) :
    Except JsonError (JsonValue × List Char) :=
  let text := skipWhitespace text
  if text.head? = some '\x7d' then .ok (.object [], text.tail) else loop text

mutual

def parseValue : ℕ → List Char → Except JsonError (JsonValue × List Char)
  | 0, _ => .error .unexpectedEnd
  | fuel + 1, text =>
    match skipWhitespace text with
    | [] => .error .unexpectedEnd
    | c :: rest =>
      if c = 'n' then parseNull (c :: rest)
      else if c = 't' ∨ c = 'f' then parseBool (c :: rest)
      else if c = '"' then parseString (c :: rest)
      else if c = '[' then parseArray (parseItems fuel []) rest
      else if c = '\x7b' then parseObject (parseFields fuel []) rest
      else if c.isDigit ∨ c = '-' then parseNumber (c :: rest)
      else .error (.unexpectedToken c)
termination_by structural fuel => fuel

/-- The loop of `parse_array`. -/
def parseItems : ℕ → List JsonValue → List Char → Except JsonError (JsonValue × List Char)
  | 0, _, _ => .error .unexpectedEnd
  | fuel + 1, items, text =>
    match parseValue fuel text with
    | .error e => .error e
    | .ok (v, rest) =>
      match skipWhitespace rest with
      | [] => .error .unexpectedEnd
      | c :: rest =>
        if c = ']' then .ok (.array (items ++ [v]), rest)
        else if c = ',' then parseItems fuel (items ++ [v]) (skipWhitespace rest)
        else .error (.unexpectedToken c)
termination_by structural fuel => fuel

/-- The loop of `parse_object`. -/
def parseFields : ℕ → List (String × JsonValue) → List Char →
    Except JsonError (JsonValue × List Char)
  | 0, _, _ => .error .unexpectedEnd
  | fuel + 1, obj, text =>
    match parseString text with
    | .error e => .error e
    | .ok (.string key, rest) =>
      match skipWhitespace rest with
      | [] => .error (.invalidSyntax "Expected ':' after object key")
      | c :: rest =>
        if c = ':' then
          match parseValue fuel rest with
          | .error e => .error e
          | .ok (v, rest) =>
            match skipWhitespace rest with
            | [] => .error .unexpectedEnd
            | c :: rest =>
              if c = '\x7d' then .ok (.object (insert key v obj), rest)
              else if c = ',' then parseFields fuel (insert key v obj) (skipWhitespace rest)
              else .error (.unexpectedToken c)
        else .error (.invalidSyntax "Expected ':' after object key")
    | .ok _ => .error (.invalidSyntax "Object key must be string")
termination_by structural fuel => fuel

end

/-- Parse a JSON text. What stands behind the value is not looked at. -/
def parseJson (input : String) : Except JsonError JsonValue :=
  (parseValue (2 * input.toList.length) input.toList).map Prod.fst

theorem parseJson_ofList (text : List Char) :
    parseJson (String.ofList text) = (parseValue (2 * text.length) text).map Prod.fst := by
  rw [parseJson, String.toList_ofList]

theorem parseJson_eq_ok_iff {input : String} {v : JsonValue} :
    parseJson input = .ok v ↔
      ∃ rest, parseValue (2 * input.toList.length) input.toList = .ok (v, rest) := by
  unfold parseJson
  cases parseValue (2 * input.toList.length) input.toList with
  | error e => exact ⟨fun h ↦ absurd h nofun, fun ⟨_, h⟩ ↦ absurd h nofun⟩
  | ok pair =>
    constructor
    · intro h
      exact ⟨pair.2, congrArg (fun w ↦ Except.ok (w, pair.2)) (Except.ok.inj h)⟩
    · rintro ⟨rest, h⟩
      rw [Except.ok.inj h]
      rfl

/-! ### What a result comes from -/

theorem append_of_consumeWord {word text rest : List Char}
    (h : consumeWord word text = some rest) : text = word ++ rest := by
  unfold consumeWord stripPrefix at h
  split_ifs at h with hword
  obtain ⟨tail, rfl⟩ := List.isPrefixOf_iff_prefix.mp hword
  rw [List.drop_left, Option.some_inj] at h
  rw [h]

section Cases

variable {fuel : ℕ} {text rest : List Char} {v : JsonValue}

theorem parseValue_cases (h : parseValue fuel text = .ok (v, rest)) :
    ∃ n c tail, fuel = n + 1 ∧ skipWhitespace text = c :: tail ∧
      (c = 'n' ∧ parseNull (c :: tail) = .ok (v, rest) ∨
        (c = 't' ∨ c = 'f') ∧ parseBool (c :: tail) = .ok (v, rest) ∨
        c = '"' ∧ parseString (c :: tail) = .ok (v, rest) ∨
        c = '[' ∧ parseArray (parseItems n []) tail = .ok (v, rest) ∨
        c = '\x7b' ∧ parseObject (parseFields n []) tail = .ok (v, rest) ∨
        (c.isDigit = true ∨ c = '-') ∧ parseNumber (c :: tail) = .ok (v, rest)) := by
  cases fuel with
  | zero => exact absurd h nofun
  | succ n =>
    rw [parseValue] at h
    split at h
    · exact absurd h nofun
    · next c tail htext =>
      refine ⟨n, c, tail, rfl, htext, ?_⟩
      split_ifs at h with hn hbool hquote hbracket hbrace hnumber
      · exact Or.inl ⟨hn, h⟩
      · exact Or.inr (Or.inl ⟨hbool, h⟩)
      · exact Or.inr (Or.inr (Or.inl ⟨hquote, h⟩))
      · exact Or.inr (Or.inr (Or.inr (Or.inl ⟨hbracket, h⟩)))
      · exact Or.inr (Or.inr (Or.inr (Or.inr (Or.inl ⟨hbrace, h⟩))))
      · exact Or.inr (Or.inr (Or.inr (Or.inr (Or.inr ⟨hnumber, h⟩))))

/-- Behind an item the loop ends at the closing mark or goes on behind a comma. -/
theorem separator_cases {close : Char} {behind : List Char} {whole : JsonValue}
    {loop : List Char → Except JsonError (JsonValue × List Char)}
    (h : (match skipWhitespace behind with
      | [] => .error .unexpectedEnd
      | c :: more =>
        if c = close then .ok (whole, more)
        else if c = ',' then loop (skipWhitespace more)
        else .error (.unexpectedToken c) : Except JsonError (JsonValue × List Char)) =
      .ok (v, rest)) :
    skipWhitespace behind = close :: rest ∧ v = whole ∨
      ∃ more, skipWhitespace behind = ',' :: more ∧ loop (skipWhitespace more) = .ok (v, rest) := by
  split at h
  · exact absurd h nofun
  · next c more hmore =>
    split_ifs at h with hclose hcomma
    · obtain ⟨rfl, rfl⟩ := Prod.mk.inj (Except.ok.inj h)
      exact Or.inl ⟨hclose ▸ hmore, rfl⟩
    · exact Or.inr ⟨more, hcomma ▸ hmore, h⟩

/-- Behind an opening mark there is the closing one or the first item. -/
theorem closing_cases {close : Char} {empty : JsonValue}
    {loop : List Char → Except JsonError (JsonValue × List Char)}
    (h : (if text.head? = some close then .ok (empty, text.tail) else loop text) =
      .ok (v, rest)) :
    text = close :: rest ∧ v = empty ∨ text.head? ≠ some close ∧ loop text = .ok (v, rest) := by
  split_ifs at h with hclose
  · obtain ⟨tail, htail⟩ := List.head?_eq_some_iff.mp hclose
    obtain ⟨rfl, rfl⟩ := Prod.mk.inj (Except.ok.inj h)
    exact Or.inl ⟨by rw [htail]; rfl, rfl⟩
  · exact Or.inr ⟨hclose, h⟩

theorem parseItems_cases {items : List JsonValue} (h : parseItems fuel items text = .ok (v, rest)) :
    ∃ n item behind, fuel = n + 1 ∧ parseValue n text = .ok (item, behind) ∧
      (skipWhitespace behind = ']' :: rest ∧ v = .array (items ++ [item]) ∨
        ∃ more, skipWhitespace behind = ',' :: more ∧
          parseItems n (items ++ [item]) (skipWhitespace more) = .ok (v, rest)) := by
  cases fuel with
  | zero => exact absurd h nofun
  | succ n =>
    rw [parseItems] at h
    split at h
    · exact absurd h nofun
    · next item behind hitem =>
      exact ⟨n, item, behind, rfl, hitem, separator_cases h⟩

theorem parseFields_cases {obj : List (String × JsonValue)}
    (h : parseFields fuel obj text = .ok (v, rest)) :
    ∃ n key name behind value after, fuel = n + 1 ∧
      parseString text = .ok (.string key, name) ∧ skipWhitespace name = ':' :: behind ∧
      parseValue n behind = .ok (value, after) ∧
      (skipWhitespace after = '\x7d' :: rest ∧ v = .object (insert key value obj) ∨
        ∃ more, skipWhitespace after = ',' :: more ∧
          parseFields n (insert key value obj) (skipWhitespace more) = .ok (v, rest)) := by
  cases fuel with
  | zero => exact absurd h nofun
  | succ n =>
    rw [parseFields] at h
    split at h
    · exact absurd h nofun
    · next key name hkey =>
      split at h
      · exact absurd h nofun
      · next c behind hname =>
        split_ifs at h with hcolon
        split at h
        · exact absurd h nofun
        · next value after hvalue =>
          exact ⟨n, key, name, behind, value, after, rfl, hkey, hcolon ▸ hname, hvalue,
            separator_cases h⟩
    · exact absurd h nofun

theorem parseArray_cases {loop : List Char → Except JsonError (JsonValue × List Char)}
    (h : parseArray loop text = .ok (v, rest)) :
    skipWhitespace text = ']' :: rest ∧ v = .array [] ∨
      (skipWhitespace text).head? ≠ some ']' ∧ loop (skipWhitespace text) = .ok (v, rest) := by
  unfold parseArray at h
  exact closing_cases h

theorem parseObject_cases {loop : List Char → Except JsonError (JsonValue × List Char)}
    (h : parseObject loop text = .ok (v, rest)) :
    skipWhitespace text = '\x7d' :: rest ∧ v = .object [] ∨
      (skipWhitespace text).head? ≠ some '\x7d' ∧ loop (skipWhitespace text) = .ok (v, rest) := by
  unfold parseObject at h
  exact closing_cases h

theorem parseNull_cases (h : parseNull text = .ok (v, rest)) :
    text = ['n', 'u', 'l', 'l'] ++ rest ∧ v = .null := by
  unfold parseNull at h
  split at h
  · next behind hword =>
    obtain ⟨rfl, rfl⟩ := Prod.mk.inj (Except.ok.inj h)
    exact ⟨append_of_consumeWord hword, rfl⟩
  · exact absurd h nofun

theorem parseBool_cases (h : parseBool text = .ok (v, rest)) :
    text = ['t', 'r', 'u', 'e'] ++ rest ∧ v = .bool true ∨
      text = ['f', 'a', 'l', 's', 'e'] ++ rest ∧ v = .bool false := by
  unfold parseBool at h
  split at h
  · next behind hword =>
    obtain ⟨rfl, rfl⟩ := Prod.mk.inj (Except.ok.inj h)
    exact Or.inl ⟨append_of_consumeWord hword, rfl⟩
  · split at h
    · next behind hword =>
      obtain ⟨rfl, rfl⟩ := Prod.mk.inj (Except.ok.inj h)
      exact Or.inr ⟨append_of_consumeWord hword, rfl⟩
    · exact absurd h nofun

theorem parseString_cases (h : parseString text = .ok (v, rest)) :
    ∃ opening raw, text = opening :: (raw ++ '"' :: rest) ∧ '"' ∉ raw ∧
      v = .string (String.ofList raw) := by
  unfold parseString at h
  split at h
  · exact absurd h nofun
  · next c behind hdrop =>
    obtain ⟨rfl, rfl⟩ := Prod.mk.inj (Except.ok.inj h)
    have hsplit : text.tail.takeWhile (· != '"') ++ c :: behind = text.tail := by
      rw [← hdrop, List.takeWhile_append_dropWhile]
    have hquote : c = '"' := by
      have hfirst := List.head?_dropWhile_not (· != '"') text.tail
      rw [hdrop] at hfirst
      simpa using hfirst
    obtain ⟨opening, body, rfl⟩ : ∃ opening body, text = opening :: body := by
      cases text with
      | nil => exact absurd hdrop nofun
      | cons opening body => exact ⟨opening, body, rfl⟩
    refine ⟨opening, body.takeWhile (· != '"'), ?_, fun hmem ↦ ?_, rfl⟩
    · rw [hquote] at hsplit
      exact congrArg (opening :: ·) hsplit.symm
    · exact absurd (List.mem_takeWhile_imp hmem) (by decide)

theorem parseNumber_cases (h : parseNumber text = .ok (v, rest)) : ∃ n, v = .number n := by
  unfold parseNumber at h
  simp only at h
  split at h
  · next n hn =>
    obtain ⟨rfl, rfl⟩ := Prod.mk.inj (Except.ok.inj h)
    exact ⟨n, rfl⟩
  · exact absurd h nofun

end Cases

end Lithair.Serialization.Json
