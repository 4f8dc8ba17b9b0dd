import Lithair.Lib.Text

/-!
# Internet addresses

Addresses of four and of sixteen bytes, the texts that are read as addresses (`fromStr`), the text
an address is written as (`toText`), and networks, the addresses that agree in their first bits.

A text of the longer kind leaves out one run of zeros, and may give the last four bytes in the
shorter notation. Reading a written address gives it back (`fromStr_toText`).
-/

namespace Lithair.Lib.Net

open Text

structure Ipv4Addr where
  a : UInt8
  b : UInt8
  c : UInt8
  d : UInt8
  deriving DecidableEq

structure Ipv6Addr where
  segments : List UInt16
  length_segments : segments.length = 8
  deriving DecidableEq

inductive IpAddr
  | v4 (addr : Ipv4Addr)
  | v6 (addr : Ipv6Addr)
  deriving DecidableEq

/-- The two bytes of a segment, as the halves of a shorter address. -/
def Ipv4Addr.ofSegments (high low : UInt16) : Ipv4Addr :=
  ⟨(high / 256).toUInt8, (high % 256).toUInt8, (low / 256).toUInt8, (low % 256).toUInt8⟩

def Ipv4Addr.highSegment (addr : Ipv4Addr) : UInt16 := addr.a.toUInt16 * 256 + addr.b.toUInt16

def Ipv4Addr.lowSegment (addr : Ipv4Addr) : UInt16 := addr.c.toUInt16 * 256 + addr.d.toUInt16

/-- The shorter address that a longer one stands for, when its first bytes are those for that. -/
def Ipv6Addr.toIpv4Mapped (addr : Ipv6Addr) : Option Ipv4Addr :=
  match addr.segments with
  | [0, 0, 0, 0, 0, 0xffff, high, low] => some (.ofSegments high low)
  | _ => none

def IpAddr.toCanonical : IpAddr → IpAddr
  | .v4 addr => .v4 addr
  | .v6 addr =>
    match addr.toIpv4Mapped with
    | some mapped => .v4 mapped
    | none => .v6 addr

/-! ### Networks -/

def Ipv4Addr.toNat (addr : Ipv4Addr) : ℕ :=
  [addr.a, addr.b, addr.c, addr.d].foldl (fun n b ↦ 256 * n + b.toNat) 0

def Ipv6Addr.toNat (addr : Ipv6Addr) : ℕ :=
  addr.segments.foldl (fun n segment ↦ 65536 * n + segment.toNat) 0

/-- The addresses of a kind that have their first bits from an address. -/
inductive IpNet
  | v4 (addr : Ipv4Addr) (prefix_len : Fin 33)
  | v6 (addr : Ipv6Addr) (prefix_len : Fin 129)

def IpNet.contains : IpNet → IpAddr → Bool
  | .v4 net prefix_len, .v4 addr =>
    net.toNat / 2 ^ (32 - prefix_len.val) == addr.toNat / 2 ^ (32 - prefix_len.val)
  | .v6 net prefix_len, .v6 addr =>
    net.toNat / 2 ^ (128 - prefix_len.val) == addr.toNat / 2 ^ (128 - prefix_len.val)
  | _, _ => false

/-! ### Reading -/

def toDigit (radix : ℕ) (c : Char) : Option ℕ := (hexValue c).filter fun n ↦ decide (n < radix)

def isDigit (radix : ℕ) (c : Char) : Bool := (toDigit radix c).isSome

/-- The number that digits stand for. -/
def digitsValue (radix : ℕ) (digits : List Char) : ℕ :=
  digits.foldl (fun n c ↦ radix * n + (toDigit radix c).getD 0) 0

/-- A number below the bound in front of a text, and what is behind it. -/
def readNumber (radix maxDigits bound : ℕ) (allowZeroPrefix : Bool) (text : List Char) :
    Option (ℕ × List Char) :=
  let digits := text.takeWhile (isDigit radix)
  if digits = [] ∨ maxDigits < digits.length ∨ bound ≤ digitsValue radix digits ∨
      (allowZeroPrefix = false ∧ digits.head? = some '0' ∧ 1 < digits.length) then none
  else some (digitsValue radix digits, text.dropWhile (isDigit radix))

def readGivenChar (c : Char) : List Char → Option (List Char)
  | [] => none
  | d :: rest => if d = c then some rest else none

def readOctet (text : List Char) : Option (UInt8 × List Char) :=
  (readNumber 10 3 256 false text).map fun (n, rest) ↦ (n.toUInt8, rest)

def readIpv4Addr (text : List Char) : Option (Ipv4Addr × List Char) := do
  let (a, rest) ← readOctet text
  let (b, rest) ← readOctet (← readGivenChar '.' rest)
  let (c, rest) ← readOctet (← readGivenChar '.' rest)
  let (d, rest) ← readOctet (← readGivenChar '.' rest)
  some (⟨a, b, c, d⟩, rest)

/-- What is behind the colon in front of a segment; the first segment has none. -/
def readSeparator (first : Bool) (text : List Char) : Option (List Char) :=
  if first then some text else readGivenChar ':' text

/-- At most so many segments, whether they ended in a shorter address, and what is behind them. -/
def readGroups (first : Bool) : ℕ → List Char → List UInt16 × Bool × List Char
  | 0, text => ([], false, text)
  | limit + 1, text =>
    match (if 1 ≤ limit then (readSeparator first text).bind readIpv4Addr else none) with
    | some (addr, rest) => ([addr.highSegment, addr.lowSegment], true, rest)
    | none =>
      match (readSeparator first text).bind (readNumber 16 4 65536 true) with
      | some (group, rest) =>
        let (groups, ipv4, rest) := readGroups false limit rest
        (group.toUInt16 :: groups, ipv4, rest)
      | none => ([], false, text)

def readIpv6Addr (text : List Char) : Option (List UInt16 × List Char) :=
  let (head, ipv4, rest) := readGroups true 8 text
  if head.length = 8 then some (head, rest)
  else if ipv4 then none
  else do
    let rest ← readGivenChar ':' (← readGivenChar ':' rest)
    -- The two colons stand for one segment at least.
    let (tail, _, rest) := readGroups true (8 - (head.length + 1)) rest
    some (head ++ List.replicate (8 - head.length - tail.length) 0 ++ tail, rest)

/-- The address that a whole text is. -/
def fromStr (text : List Char) : Option IpAddr :=
  match readIpv4Addr text with
  | some (addr, rest) => if rest = [] then some (.v4 addr) else none
  | none =>
    match readIpv6Addr text with
    | some (segments, rest) =>
      if h : rest = [] ∧ segments.length = 8 then some (.v6 ⟨segments, h.2⟩) else none
    | none => none

/-! ### Writing -/

def Ipv4Addr.toText (addr : Ipv4Addr) : List Char :=
  Nat.toDigits 10 addr.a.toNat ++ '.' :: (Nat.toDigits 10 addr.b.toNat ++
    '.' :: (Nat.toDigits 10 addr.c.toNat ++ '.' :: Nat.toDigits 10 addr.d.toNat))

/-- The hexadecimal digits of a segment, without zeros in front. -/
def segmentText (segment : UInt16) : List Char :=
  match (hexDigits 4 segment.toNat).dropWhile (· == '0') with
  | [] => ['0']
  | digits => digits

/-- Segments with colons between them. -/
def segmentsText : List UInt16 → List Char
  | [] => []
  | segment :: segments => segmentText segment ++ segments.flatMap fun s ↦ ':' :: segmentText s

structure Span where
  start : ℕ
  len : ℕ

/-- The run that one more zero, the segment behind the first `i`, makes of a run that ends there. -/
def Span.extend (span : Span) (i : ℕ) : Span :=
  if span.len = 0 then ⟨i, 1⟩ else ⟨span.start, span.len + 1⟩

/-- The first of the longest runs of zeros in the segments behind the first `i`, when `current` is
the run these end in and `longest` is the longest in them. -/
def zeroes (i : ℕ) (current longest : Span) : List UInt16 → Span
  | [] => longest
  | segment :: segments =>
    if segment = 0 then
      let current := current.extend i
      zeroes (i + 1) current (if longest.len < current.len then current else longest) segments
    else zeroes (i + 1) ⟨0, 0⟩ longest segments

def Ipv6Addr.toText (addr : Ipv6Addr) : List Char :=
  match addr.toIpv4Mapped with
  | some mapped => "::ffff:".toList ++ mapped.toText
  | none =>
    let span := zeroes 0 ⟨0, 0⟩ ⟨0, 0⟩ addr.segments
    if 1 < span.len then
      segmentsText (addr.segments.take span.start) ++ ':' :: ':' ::
        segmentsText (addr.segments.drop (span.start + span.len))
    else segmentsText addr.segments

def IpAddr.toText : IpAddr → List Char
  | .v4 addr => addr.toText
  | .v6 addr => addr.toText

/-! ### Reading what is written -/

/-- Digits in front of something else are read as their number. -/
theorem readNumber_append {radix maxDigits bound : ℕ} {allowZeroPrefix : Bool}
    {digits rest : List Char} (hdigits : ∀ c ∈ digits, isDigit radix c = true)
    (hrest : ∀ c ∈ rest.head?, isDigit radix c = false) (hnil : digits ≠ [])
    (hlength : digits.length ≤ maxDigits) (hbound : digitsValue radix digits < bound)
    (hzero : allowZeroPrefix = true ∨ digits.head? ≠ some '0' ∨ digits.length ≤ 1) :
    readNumber radix maxDigits bound allowZeroPrefix (digits ++ rest) =
      some (digitsValue radix digits, rest) := by
  have hend : rest.takeWhile (isDigit radix) = [] ∧ rest.dropWhile (isDigit radix) = rest := by
    cases rest with
    | nil => exact ⟨rfl, rfl⟩
    | cons c rest =>
      have hc : ¬ isDigit radix c = true := by simp [hrest c rfl]
      exact ⟨List.takeWhile_cons_of_neg hc, List.dropWhile_cons_of_neg hc⟩
  have hnot : ¬ (digits = [] ∨ maxDigits < digits.length ∨ bound ≤ digitsValue radix digits ∨
      (allowZeroPrefix = false ∧ digits.head? = some '0' ∧ 1 < digits.length)) := by
    rintro (h | h | h | ⟨halready, hhead, hlong⟩)
    · exact hnil h
    · omega
    · omega
    · rcases hzero with hzero | hzero | hzero
      · rw [halready] at hzero
        exact absurd hzero Bool.false_ne_true
      · exact hzero hhead
      · omega
  rw [readNumber, List.takeWhile_append_of_pos hdigits, List.dropWhile_append_of_pos hdigits,
    hend.1, hend.2, List.append_nil, if_neg hnot]

/-- What does not begin with a digit is not a number. -/
theorem readNumber_eq_none {radix maxDigits bound : ℕ} {allowZeroPrefix : Bool} {text : List Char}
    (h : ∀ c ∈ text.head?, isDigit radix c = false) :
    readNumber radix maxDigits bound allowZeroPrefix text = none := by
  have hnil : text.takeWhile (isDigit radix) = [] := by
    cases text with
    | nil => rfl
    | cons c rest => exact List.takeWhile_cons_of_neg (by simp [h c rfl])
  rw [readNumber, if_pos (Or.inl hnil)]

theorem toDigit_digitChar : ∀ n < 10, toDigit 10 n.digitChar = some n := by decide

/-- A number in decimal digits has its value, and no zero in front. -/
theorem toDigits_spec (n : ℕ) : (∀ c ∈ Nat.toDigits 10 n, isDigit 10 c = true) ∧
    digitsValue 10 (Nat.toDigits 10 n) = n ∧
    (0 < n → (Nat.toDigits 10 n).head? ≠ some '0') := by
  induction n using Nat.strongRecOn with
  | _ n ih =>
    have hlast := toDigit_digitChar (n % 10) (Nat.mod_lt n (by decide))
    have hlastDigit : isDigit 10 (n % 10).digitChar = true := by rw [isDigit, hlast, Option.isSome]
    by_cases hn : n < 10
    · rw [Nat.mod_eq_of_lt hn] at hlast hlastDigit
      rw [Nat.toDigits_of_lt_base hn]
      refine ⟨List.forall_mem_singleton.mpr hlastDigit, ?_, fun hpos hzero ↦ ?_⟩
      · simp only [digitsValue, List.foldl_cons, List.foldl_nil, hlast, Option.getD_some]
        omega
      · rw [Option.some.inj hzero] at hlast
        have hsame : 0 = n := Option.some.inj hlast
        omega
    · have hten : 10 ≤ n := Nat.le_of_not_lt hn
      have hfront : 0 < n / 10 := Nat.div_pos hten (by decide)
      obtain ⟨hdigits, hvalue, hhead⟩ := ih (n / 10) (Nat.div_lt_self (by omega) (by decide))
      rw [Nat.toDigits_of_base_le (by decide) hten]
      refine ⟨?_, ?_, fun _ ↦ ?_⟩
      · exact List.forall_mem_append.mpr ⟨hdigits, List.forall_mem_singleton.mpr hlastDigit⟩
      · rw [digitsValue] at hvalue ⊢
        rw [List.foldl_append, hvalue, List.foldl_cons, List.foldl_nil, hlast, Option.getD_some,
          Nat.div_add_mod]
      · rw [List.head?_append_of_ne_nil _ Nat.toDigits_ne_nil]
        exact hhead hfront

theorem readOctet_append (b : UInt8) {rest : List Char}
    (hrest : ∀ c ∈ rest.head?, isDigit 10 c = false) :
    readOctet (Nat.toDigits 10 b.toNat ++ rest) = some (b, rest) := by
  obtain ⟨hdigits, hvalue, hhead⟩ := toDigits_spec b.toNat
  have hlength : (Nat.toDigits 10 b.toNat).length ≤ 3 :=
    (Nat.length_toDigits_le_iff (by decide) (by decide)).mpr (b.toNat_lt.trans (by decide))
  have hzero : (Nat.toDigits 10 b.toNat).head? ≠ some '0' ∨
      (Nat.toDigits 10 b.toNat).length ≤ 1 := by
    rcases Nat.eq_zero_or_pos b.toNat with hb | hb
    · exact Or.inr (by rw [hb]; decide)
    · exact Or.inl (hhead hb)
  have hbound : digitsValue 10 (Nat.toDigits 10 b.toNat) < 256 := hvalue.symm ▸ b.toNat_lt
  have hread : readNumber 10 3 256 false (Nat.toDigits 10 b.toNat ++ rest) = _ :=
    readNumber_append hdigits hrest Nat.toDigits_ne_nil hlength hbound (Or.inr hzero)
  rw [readOctet, hread, Option.map_some, hvalue]
  simp

theorem Ipv4Addr.readIpv4Addr_append (addr : Ipv4Addr) {rest : List Char}
    (hrest : ∀ c ∈ rest.head?, isDigit 10 c = false) :
    readIpv4Addr (addr.toText ++ rest) = some (addr, rest) := by
  have hoctet (b : UInt8) (rest : List Char) :
      readOctet (Nat.toDigits 10 b.toNat ++ '.' :: rest) = some (b, '.' :: rest) :=
    readOctet_append b (by simp [show isDigit 10 '.' = false by decide])
  have hdot (rest : List Char) : readGivenChar '.' ('.' :: rest) = some rest := rfl
  unfold readIpv4Addr Ipv4Addr.toText
  simp only [List.append_assoc, List.cons_append, hoctet, hdot, readOctet_append addr.d hrest,
    Option.bind_eq_bind, Option.bind_some]

/-- A text whose first number is not followed by a dot is not an address of the shorter kind. -/
theorem readIpv4Addr_eq_none {text : List Char}
    (h : (text.dropWhile (isDigit 10)).head? ≠ some '.') : readIpv4Addr text = none := by
  unfold readIpv4Addr
  cases hoctet : readOctet text with
  | none => rfl
  | some read =>
    obtain ⟨a, rest⟩ := read
    obtain ⟨⟨n, rest'⟩, hnumber, hsame⟩ := Option.map_eq_some_iff.mp hoctet
    obtain ⟨-, rfl⟩ := Prod.mk.inj hsame
    unfold readNumber at hnumber
    simp only at hnumber
    split_ifs at hnumber
    obtain ⟨-, rfl⟩ := Prod.mk.inj (Option.some.inj hnumber)
    have hgiven : readGivenChar '.' (text.dropWhile (isDigit 10)) = none := by
      cases hrest : text.dropWhile (isDigit 10) with
      | nil => rfl
      | cons c rest =>
        rw [hrest] at h
        exact if_neg fun hc ↦ h (by rw [hc]; rfl)
    simp [hgiven]

theorem digitsValue_concat (radix : ℕ) (digits : List Char) (c : Char) :
    digitsValue radix (digits ++ [c]) =
      radix * digitsValue radix digits + (toDigit radix c).getD 0 := by
  rw [digitsValue, List.foldl_append, List.foldl_cons, List.foldl_nil, digitsValue]

theorem toDigit_hexDigit : ∀ n < 16, toDigit 16 (hexDigit n) = some n := by
  decide

theorem digitsValue_hexDigits (width n : ℕ) :
    digitsValue 16 (hexDigits width n) = n % 16 ^ width := by
  induction width generalizing n with
  | zero => rw [pow_zero, Nat.mod_one]; rfl
  | succ width ih =>
    rw [hexDigits, digitsValue_concat, ih, toDigit_hexDigit _ (Nat.mod_lt _ (by decide)),
      Option.getD_some, pow_succ', Nat.mod_mul]
    omega

theorem digitsValue_dropWhile (digits : List Char) :
    digitsValue 16 (digits.dropWhile (· == '0')) = digitsValue 16 digits := by
  induction digits with
  | nil => rfl
  | cons c digits ih =>
    by_cases hc : c = '0'
    · subst hc
      exact ih
    · rw [List.dropWhile_cons_of_neg (by simpa using hc)]

/-- The digits of a segment: what the reader of segments checks. -/
theorem segmentText_spec (segment : UInt16) :
    (∀ c ∈ segmentText segment, isDigit 16 c = true) ∧ segmentText segment ≠ [] ∧
      (segmentText segment).length ≤ 4 ∧ digitsValue 16 (segmentText segment) = segment.toNat := by
  have hvalue : digitsValue 16 ((hexDigits 4 segment.toNat).dropWhile (· == '0')) =
      segment.toNat := by
    rw [digitsValue_dropWhile, digitsValue_hexDigits]
    exact Nat.mod_eq_of_lt segment.toNat_lt
  have hdigit : ∀ c ∈ (hexDigits 4 segment.toNat).dropWhile (· == '0'), isDigit 16 c = true := by
    intro c hc
    obtain ⟨n, hn, rfl⟩ := mem_hexDigits ((List.dropWhile_suffix _).subset hc)
    rw [isDigit, toDigit_hexDigit n hn]
    rfl
  have hlength : ((hexDigits 4 segment.toNat).dropWhile (· == '0')).length ≤ 4 := by
    have hle := (List.dropWhile_suffix (· == '0') : _ <:+ hexDigits 4 segment.toNat).length_le
    rwa [length_hexDigits] at hle
  unfold segmentText
  cases hdigits : (hexDigits 4 segment.toNat).dropWhile (· == '0') with
  | nil =>
    rw [hdigits] at hvalue
    refine ⟨fun c hc ↦ ?_, List.cons_ne_nil _ _, by decide, ?_⟩
    · rw [List.mem_singleton.mp hc]
      rfl
    · rw [← hvalue]
      rfl
  | cons c digits =>
    rw [hdigits] at hvalue hdigit hlength
    exact ⟨hdigit, List.cons_ne_nil _ _, hlength, hvalue⟩

theorem readSegment_append (segment : UInt16) {rest : List Char}
    (hrest : ∀ c ∈ rest.head?, isDigit 16 c = false) :
    readNumber 16 4 65536 true (segmentText segment ++ rest) = some (segment.toNat, rest) := by
  obtain ⟨hdigits, hnil, hlength, hvalue⟩ := segmentText_spec segment
  rw [readNumber_append hdigits hrest hnil hlength (hvalue.symm ▸ segment.toNat_lt) (Or.inl rfl),
    hvalue]

/-- What is behind a segment: nothing, or a colon. -/
def Ends (rest : List Char) : Prop := ∀ c ∈ rest.head?, c = ':'

theorem Ends.not_digit {rest : List Char} (h : Ends rest) (radix : ℕ) :
    ∀ c ∈ rest.head?, isDigit radix c = false := by
  intro c hc
  rw [h c hc]
  rfl

/-- A segment with no dot behind it does not begin an address of the shorter kind. -/
theorem readIpv4Addr_segment (segment : UInt16) {rest : List Char} (hrest : Ends rest) :
    readIpv4Addr (segmentText segment ++ rest) = none := by
  have hdot : ∀ digits : List Char, (∀ c ∈ digits, isDigit 16 c = true) →
      ((digits ++ rest).dropWhile (isDigit 10)).head? ≠ some '.' := by
    intro digits hdigits
    induction digits with
    | nil =>
      cases rest with
      | nil => exact nofun
      | cons c rest =>
        obtain rfl : c = ':' := hrest c rfl
        exact nofun
    | cons c digits ih =>
      by_cases hc : isDigit 10 c = true
      · rw [List.cons_append, List.dropWhile_cons_of_pos hc]
        exact ih fun d hd ↦ hdigits d (List.mem_cons_of_mem c hd)
      · rw [List.cons_append, List.dropWhile_cons_of_neg hc]
        intro h
        have hhex := hdigits c List.mem_cons_self
        rw [Option.some.inj h] at hhex
        exact absurd hhex (by decide)
  exact readIpv4Addr_eq_none (hdot _ (segmentText_spec segment).1)

/-- No segment begins here: the text ends, or two colons stand for segments left out. -/
def Stops (rest : List Char) : Prop := rest = [] ∨ ∃ more, rest = ':' :: ':' :: more

theorem Stops.ends {rest : List Char} (h : Stops rest) : Ends rest := by
  rcases h with rfl | ⟨more, rfl⟩
  · exact nofun
  · exact fun c hc ↦ (Option.some.inj hc).symm

theorem readGroups_stops {rest : List Char} (h : Stops rest) (first : Bool) (limit : ℕ) :
    readGroups first limit rest = ([], false, rest) := by
  have hcolon (more : List Char) : readIpv4Addr (':' :: more) = none :=
    readIpv4Addr_eq_none (by
      rw [List.dropWhile_cons_of_neg (by decide)]
      exact nofun)
  have hnumber (more : List Char) : readNumber 16 4 65536 true (':' :: more) = none :=
    readNumber_eq_none fun c hc ↦ by
      rw [← Option.some.inj hc]
      rfl
  have hnil : readIpv4Addr [] = none := rfl
  have hnil' : readNumber 16 4 65536 true [] = none := rfl
  cases limit with
  | zero => rfl
  | succ limit =>
    unfold readGroups
    rcases h with rfl | ⟨more, rfl⟩
    · cases first with
      | true => simp [readSeparator, hnil, hnil']
      | false => simp [readSeparator, readGivenChar]
    · cases first with
      | true => simp [readSeparator, hcolon, hnumber]
      | false => simp [readSeparator, readGivenChar, hcolon, hnumber]

/-- The segments of a text as it is written. -/
def separated (first : Bool) (segments : List UInt16) : List Char :=
  if first then segmentsText segments else segments.flatMap fun s ↦ ':' :: segmentText s

theorem readGroups_segment {first : Bool} {text rest : List Char} {segment : UInt16}
    (hseparator : readSeparator first text = some (segmentText segment ++ rest))
    (hends : Ends rest) (limit : ℕ) :
    readGroups first (limit + 1) text =
      (segment :: (readGroups false limit rest).1, (readGroups false limit rest).2) := by
  have hread := readSegment_append segment (hends.not_digit 16)
  rw [readGroups, hseparator, Option.bind_some, Option.bind_some,
    readIpv4Addr_segment segment hends, ite_self, hread]
  simp

theorem readGroups_separated {segments : List UInt16} {limit : ℕ}
    (hlimit : segments.length ≤ limit) (first : Bool) {rest : List Char} (hrest : Stops rest) :
    readGroups first limit (separated first segments ++ rest) = (segments, false, rest) := by
  induction segments generalizing first limit with
  | nil =>
    have hnil : separated first [] = [] := by
      unfold separated
      split_ifs
      · rfl
      · rfl
    rw [hnil]
    exact readGroups_stops hrest first limit
  | cons segment segments ih =>
    obtain ⟨limit, rfl⟩ : ∃ n, limit = n + 1 :=
      ⟨limit - 1, (Nat.sub_add_cancel (Nat.le_trans (Nat.succ_pos _) hlimit)).symm⟩
    have hseparator : readSeparator first (separated first (segment :: segments) ++ rest) =
        some (segmentText segment ++ (separated false segments ++ rest)) := by
      cases first with
      | true => simp [readSeparator, separated, segmentsText]
      | false => simp [readSeparator, separated, readGivenChar]
    have hends : Ends (separated false segments ++ rest) := by
      cases segments with
      | nil => exact hrest.ends
      | cons other segments => exact fun c hc ↦ (Option.some.inj hc).symm
    rw [readGroups_segment hseparator hends, ih (Nat.le_of_succ_le_succ hlimit) false]

/-- The span is a run of zeros in these segments. -/
def IsRun (segments : List UInt16) (span : Span) : Prop :=
  ∃ front back, segments = front ++ List.replicate span.len 0 ++ back ∧ front.length = span.start

/-- The run that `zeroes` finds is one: the induction is on the segments to come, with what has been
seen of them as `done`. -/
theorem isRun_zeroes {done segments : List UInt16} {current longest : Span}
    (hcurrent : current.len = 0 ∨ ∃ front, done = front ++ List.replicate current.len 0 ∧
      front.length = current.start)
    (hlongest : IsRun done longest) :
    IsRun (done ++ segments) (zeroes done.length current longest segments) := by
  induction segments generalizing done current longest with
  | nil =>
    rw [List.append_nil]
    exact hlongest
  | cons segment segments ih =>
    have hextend {span : Span} (h : IsRun done span) : IsRun (done ++ [segment]) span := by
      obtain ⟨front, back, hdone, hfront⟩ := h
      exact ⟨front, back ++ [segment], by rw [hdone, List.append_assoc], hfront⟩
    have hlength : done.length + 1 = (done ++ [segment]).length := by simp
    rw [List.append_cons, zeroes]
    by_cases hzero : segment = 0
    · subst hzero
      have hrun : ∃ front, done ++ [0] =
          front ++ List.replicate (current.extend done.length).len 0 ∧
            front.length = (current.extend done.length).start := by
        unfold Span.extend
        by_cases hlen : current.len = 0
        · rw [if_pos hlen]
          exact ⟨done, rfl, rfl⟩
        · obtain ⟨front, hdone, hfront⟩ := hcurrent.resolve_left hlen
          rw [if_neg hlen]
          exact ⟨front, by rw [hdone, List.append_assoc, List.replicate_succ'], hfront⟩
      rw [if_pos rfl, hlength]
      refine ih (Or.inr hrun) ?_
      split_ifs
      · obtain ⟨front, hdone, hfront⟩ := hrun
        exact ⟨front, [], by rw [List.append_nil, hdone], hfront⟩
      · exact hextend hlongest
    · rw [if_neg hzero, hlength]
      exact ih (Or.inl rfl) (hextend hlongest)

/-- An address of the longer kind that is not written with the shorter notation is read back. -/
theorem readIpv6Addr_segments {segments : List UInt16} (hlength : segments.length = 8) :
    readIpv6Addr (segmentsText segments) = some (segments, []) := by
  have hread := readGroups_separated hlength.le true (Or.inl rfl : Stops [])
  rw [List.append_nil] at hread
  unfold readIpv6Addr
  rw [show segmentsText segments = separated true segments from rfl, hread]
  simp [hlength]

theorem readIpv6Addr_run {front back : List UInt16} {len : ℕ} (hlen : 1 < len)
    (hlength : front.length + len + back.length = 8) :
    readIpv6Addr (segmentsText front ++ ':' :: ':' :: segmentsText back) =
      some (front ++ List.replicate len 0 ++ back, []) := by
  have hfront := readGroups_separated (show front.length ≤ 8 by omega) true
    (Or.inr ⟨segmentsText back, rfl⟩ : Stops (':' :: ':' :: segmentsText back))
  have hback := readGroups_separated (show back.length ≤ 7 - front.length by omega) true
    (Or.inl rfl : Stops [])
  rw [List.append_nil] at hback
  have hseparated (segments : List UInt16) : separated true segments = segmentsText segments := rfl
  rw [hseparated] at hfront hback
  have hcolon (rest : List Char) : readGivenChar ':' (':' :: rest) = some rest := rfl
  have hshort : front.length ≠ 8 := by omega
  have hzeros : 8 - front.length - back.length = len := by omega
  unfold readIpv6Addr
  simp [hfront, hback, hcolon, hshort, hzeros]

theorem readIpv6Addr_mapped (addr : Ipv4Addr) :
    readIpv6Addr ("::ffff:".toList ++ addr.toText) =
      some ([0, 0, 0, 0, 0, 0xffff, addr.highSegment, addr.lowSegment], []) := by
  have hdigits : segmentText 0xffff = "ffff".toList := by decide
  have htext : "::ffff:".toList ++ addr.toText =
      ':' :: ':' :: (segmentText 0xffff ++ ':' :: addr.toText) := by
    rw [hdigits]
    rfl
  have hhead := readGroups_stops (Or.inr ⟨segmentText 0xffff ++ ':' :: addr.toText, rfl⟩) true 8
  have haddr : readIpv4Addr addr.toText = some (addr, []) := by
    have hread := addr.readIpv4Addr_append (show ∀ c ∈ [].head?, isDigit 10 c = false from nofun)
    rwa [List.append_nil] at hread
  have hlast : readGroups false 6 (':' :: addr.toText) =
      ([addr.highSegment, addr.lowSegment], true, []) := by
    rw [readGroups, show readSeparator false (':' :: addr.toText) = some addr.toText from rfl,
      Option.bind_some, haddr, if_pos (by decide)]
  have htail := readGroups_segment
    (show readSeparator true (segmentText 0xffff ++ ':' :: addr.toText) = _ from rfl)
    (show Ends (':' :: addr.toText) from fun c hc ↦ (Option.some.inj hc).symm) 6
  rw [hlast] at htail
  have hcolon (rest : List Char) : readGivenChar ':' (':' :: rest) = some rest := rfl
  rw [htext]
  unfold readIpv6Addr
  simp [hhead, hcolon, htail]

theorem readIpv4Addr_segmentsText (segments : List UInt16) {rest : List Char} (h : Stops rest) :
    readIpv4Addr (segmentsText segments ++ rest) = none := by
  cases segments with
  | nil =>
    rcases h with rfl | ⟨more, rfl⟩
    · rfl
    · exact readIpv4Addr_eq_none nofun
  | cons segment segments =>
    rw [segmentsText, List.append_assoc]
    refine readIpv4Addr_segment segment ?_
    cases segments with
    | nil => exact h.ends
    | cons other segments => exact fun c hc ↦ (Option.some.inj hc).symm

/-- The halves of a shorter address are the segments it was made of. -/
theorem segments_ofSegments (high low : UInt16) :
    (Ipv4Addr.ofSegments high low).highSegment = high ∧
      (Ipv4Addr.ofSegments high low).lowSegment = low := by
  have hhalves (s : UInt16) :
      (s / 256).toUInt8.toUInt16 * 256 + (s % 256).toUInt8.toUInt16 = s := by
    have hlt := s.toNat_lt
    rw [← UInt16.toNat_inj]
    simp
    omega
  exact ⟨hhalves high, hhalves low⟩

theorem toIpv4Mapped_eq_some {addr : Ipv6Addr} {mapped : Ipv4Addr}
    (h : addr.toIpv4Mapped = some mapped) :
    addr.segments = [0, 0, 0, 0, 0, 0xffff, mapped.highSegment, mapped.lowSegment] := by
  unfold Ipv6Addr.toIpv4Mapped at h
  split at h
  · next high low hsegments =>
    obtain rfl := Option.some.inj h
    rw [hsegments, (segments_ofSegments high low).1, (segments_ofSegments high low).2]
  · exact absurd h nofun

/-- An address of the longer kind is written as a text that is not one of the shorter kind, and is
read back. -/
theorem Ipv6Addr.readIpv6Addr_toText (addr : Ipv6Addr) :
    readIpv4Addr addr.toText = none ∧ readIpv6Addr addr.toText = some (addr.segments, []) := by
  unfold Ipv6Addr.toText
  cases hmapped : addr.toIpv4Mapped with
  | some mapped =>
    rw [toIpv4Mapped_eq_some hmapped]
    exact ⟨readIpv4Addr_eq_none nofun, readIpv6Addr_mapped mapped⟩
  | none =>
    have hrun : IsRun ([] ++ addr.segments) (zeroes 0 ⟨0, 0⟩ ⟨0, 0⟩ addr.segments) :=
      isRun_zeroes (Or.inl rfl) ⟨[], [], rfl, rfl⟩
    obtain ⟨front, back, hsegments, hfront⟩ := hrun
    generalize zeroes 0 ⟨0, 0⟩ ⟨0, 0⟩ addr.segments = span at hsegments hfront
    rw [List.nil_append] at hsegments
    by_cases hlen : 1 < span.len
    · have hlength := congrArg List.length hsegments
      rw [addr.length_segments, List.length_append, List.length_append, List.length_replicate]
        at hlength
      have htake : addr.segments.take span.start = front := by
        rw [hsegments, List.append_assoc, List.take_left' hfront]
      have hdrop : addr.segments.drop (span.start + span.len) = back :=  by
        rw [hsegments, List.drop_left' (by rw [List.length_append, hfront, List.length_replicate])]
      have hread := readIpv6Addr_run hlen hlength.symm
      simp only [hlen, if_true, htake, hdrop]
      rw [hsegments]
      exact ⟨readIpv4Addr_segmentsText front (Or.inr ⟨_, rfl⟩), hread⟩
    · have hshort := readIpv4Addr_segmentsText addr.segments (Or.inl rfl : Stops [])
      rw [List.append_nil] at hshort
      simp only [hlen, if_false]
      exact ⟨hshort, readIpv6Addr_segments addr.length_segments⟩

/-- What is written is read back. -/
theorem fromStr_toText (addr : IpAddr) : fromStr addr.toText = some addr := by
  cases addr with
  | v4 addr =>
    have hread := addr.readIpv4Addr_append (show ∀ c ∈ [].head?, isDigit 10 c = false from nofun)
    rw [List.append_nil] at hread
    rw [IpAddr.toText, fromStr, hread]
    exact if_pos rfl
  | v6 addr =>
    obtain ⟨hshort, hread⟩ := addr.readIpv6Addr_toText
    rw [IpAddr.toText, fromStr, hshort, hread]
    exact dif_pos ⟨rfl, addr.length_segments⟩

/-! ### The characters of an address -/

def AddressChar (c : Char) : Prop := (hexValue c).isSome = true ∨ c = ':' ∨ c = '.'

/-- What was read in front of the rest has only characters of addresses. -/
def Consumed (text rest : List Char) : Prop :=
  ∃ front, text = front ++ rest ∧ ∀ c ∈ front, AddressChar c

theorem Consumed.refl (text : List Char) : Consumed text text := ⟨[], rfl, nofun⟩

theorem Consumed.trans {first second third : List Char} (h : Consumed first second)
    (h' : Consumed second third) : Consumed first third := by
  obtain ⟨front, rfl, hfront⟩ := h
  obtain ⟨front', rfl, hfront'⟩ := h'
  exact ⟨front ++ front', (List.append_assoc ..).symm, List.forall_mem_append.mpr ⟨hfront, hfront'⟩⟩

theorem consumed_readNumber {radix maxDigits bound n : ℕ} {allowZeroPrefix : Bool}
    {text rest : List Char}
    (h : readNumber radix maxDigits bound allowZeroPrefix text = some (n, rest)) :
    Consumed text rest := by
  unfold readNumber at h
  simp only at h
  split_ifs at h
  obtain ⟨-, rfl⟩ := Prod.mk.inj (Option.some.inj h)
  refine ⟨text.takeWhile (isDigit radix), List.takeWhile_append_dropWhile.symm, fun c hc ↦ .inl ?_⟩
  have hdigit := List.mem_takeWhile_imp hc
  rw [isDigit, toDigit] at hdigit
  obtain ⟨digit, hdigit⟩ := Option.isSome_iff_exists.mp hdigit
  exact Option.isSome_of_eq_some (Option.filter_eq_some_iff.mp hdigit).1

theorem consumed_readGivenChar {mark : Char} (hmark : AddressChar mark) {text rest : List Char}
    (h : readGivenChar mark text = some rest) : Consumed text rest := by
  cases text with
  | nil => exact absurd h nofun
  | cons c text =>
    rw [readGivenChar] at h
    split_ifs at h with hc
    obtain rfl := Option.some.inj h
    exact ⟨[c], rfl, List.forall_mem_singleton.mpr (hc ▸ hmark)⟩

theorem consumed_readOctet {text rest : List Char} {b : UInt8}
    (h : readOctet text = some (b, rest)) : Consumed text rest := by
  obtain ⟨⟨n, behind⟩, hread, heq⟩ := Option.map_eq_some_iff.mp h
  obtain ⟨-, rfl⟩ := Prod.mk.inj heq
  exact consumed_readNumber hread

theorem consumed_readIpv4Addr {text rest : List Char} {addr : Ipv4Addr}
    (h : readIpv4Addr text = some (addr, rest)) : Consumed text rest := by
  unfold readIpv4Addr at h
  have hdot : AddressChar '.' := .inr (.inr rfl)
  obtain ⟨⟨a, first⟩, ha, h⟩ := Option.bind_eq_some_iff.mp h
  obtain ⟨first', hfirst, h⟩ := Option.bind_eq_some_iff.mp h
  obtain ⟨⟨b, second⟩, hb, h⟩ := Option.bind_eq_some_iff.mp h
  obtain ⟨second', hsecond, h⟩ := Option.bind_eq_some_iff.mp h
  obtain ⟨⟨c, third⟩, hc, h⟩ := Option.bind_eq_some_iff.mp h
  obtain ⟨third', hthird, h⟩ := Option.bind_eq_some_iff.mp h
  obtain ⟨⟨d, last⟩, hd, h⟩ := Option.bind_eq_some_iff.mp h
  obtain ⟨-, rfl⟩ := Prod.mk.inj (Option.some.inj h)
  exact (consumed_readOctet ha).trans <| (consumed_readGivenChar hdot hfirst).trans <|
    (consumed_readOctet hb).trans <| (consumed_readGivenChar hdot hsecond).trans <|
    (consumed_readOctet hc).trans <| (consumed_readGivenChar hdot hthird).trans <|
    consumed_readOctet hd

theorem consumed_readSeparator {first : Bool} {text rest : List Char}
    (h : readSeparator first text = some rest) : Consumed text rest := by
  unfold readSeparator at h
  cases first with
  | true =>
    obtain rfl := Option.some.inj h
    exact .refl text
  | false => exact consumed_readGivenChar (.inr (.inl rfl)) h

theorem consumed_readGroups (limit : ℕ) (first : Bool) (text : List Char) :
    Consumed text (readGroups first limit text).2.2 := by
  induction limit generalizing first text with
  | zero => exact .refl text
  | succ limit ih =>
    rw [readGroups]
    split
    · next addr rest hread =>
      split_ifs at hread
      obtain ⟨behind, hseparator, haddr⟩ := Option.bind_eq_some_iff.mp hread
      exact (consumed_readSeparator hseparator).trans (consumed_readIpv4Addr haddr)
    · split
      · next group rest hread =>
        obtain ⟨behind, hseparator, hgroup⟩ := Option.bind_eq_some_iff.mp hread
        exact (consumed_readSeparator hseparator).trans <|
          (consumed_readNumber hgroup).trans (ih false rest)
      · exact .refl text

theorem consumed_readIpv6Addr {text rest : List Char} {segments : List UInt16}
    (h : readIpv6Addr text = some (segments, rest)) : Consumed text rest := by
  unfold readIpv6Addr at h
  have hhead := consumed_readGroups 8 true text
  have hcolon : AddressChar ':' := .inr (.inl rfl)
  simp only at h
  split_ifs at h
  · obtain ⟨-, rfl⟩ := Prod.mk.inj (Option.some.inj h)
    exact hhead
  · obtain ⟨first, hfirst, h⟩ := Option.bind_eq_some_iff.mp h
    obtain ⟨second, hsecond, h⟩ := Option.bind_eq_some_iff.mp h
    obtain ⟨-, rfl⟩ := Prod.mk.inj (Option.some.inj h)
    exact hhead.trans <| (consumed_readGivenChar hcolon hfirst).trans <|
      (consumed_readGivenChar hcolon hsecond).trans (consumed_readGroups _ true second)

/-- A text that is read as an address has digits, colons and dots only. -/
theorem addressChar_of_fromStr {text : List Char} {addr : IpAddr} (h : fromStr text = some addr) :
    ∀ c ∈ text, AddressChar c := by
  have hwhole {rest : List Char} (hconsumed : Consumed text rest) (hnil : rest = []) :
      ∀ c ∈ text, AddressChar c := by
    obtain ⟨front, rfl, hfront⟩ := hconsumed
    rwa [hnil, List.append_nil]
  unfold fromStr at h
  split at h
  · next hread =>
    split_ifs at h with hnil
    exact hwhole (consumed_readIpv4Addr hread) hnil
  · split at h
    · next hread =>
      split_ifs at h with hnil
      exact hwhole (consumed_readIpv6Addr hread) hnil.1
    · exact absurd h nofun

end Lithair.Lib.Net
