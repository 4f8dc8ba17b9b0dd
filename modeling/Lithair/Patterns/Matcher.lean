import Lithair.Http.Query
import Lithair.Lib.Net

/-!
# Patterns

A value is matched by a pattern with one `*`, by a network with a prefix length, or, as a name, by
`*.` and a name. Each of these compares texts: the front and the end of the value, which may
overlap; the text of the address with the text of the network, whatever the prefix length; and the
end of the name, which may begin inside a label (`not_matchesValue_meaning`). Where they do not
overlap and no label is cut, the first and the last are what they are meant for
(`matchesValue_scope`).
-/

namespace Lithair.Patterns.Matcher

open Lib.Net Lib.Text Http

/-- A number of 8 bits. -/
def parseU8 (text : List Char) : Option ℕ := (parseU64 text).filter fun n ↦ decide (n < 2 ^ 8)

/-- A text that is turned around, without the zeros it begins with that have a dot behind them. -/
def dropZeros : List Char → List Char
  | '0' :: '.' :: rest => dropZeros rest
  | text => text

/-- A network without the `.0`s at its end. -/
def trimZeros (network : List Char) : List Char := (dropZeros network.reverse).reverse

def matchesWildcard (pattern value : List Char) : Bool :=
  if '*' ∈ pattern then
    match pattern.splitOn '*' with
    | [front, back] => front.isPrefixOf value && back.isSuffixOf value
    -- More than one wildcard is not supported.
    | _ => false
  else false

/-- The prefix length must be a number, and is not used. -/
def matchesCidr (pattern : List Char) (ip : IpAddr) : Bool :=
  if '/' ∈ pattern then
    match pattern.splitOn '/' with
    | [network, len] => (parseU8 len).isSome && (trimZeros network).isPrefixOf ip.toText
    | _ => false
  else false

def matchesValue (pattern value : List Char) : Bool :=
  pattern = ['*'] || pattern = value ||
    (match fromStr value with
      | some ip => matchesCidr pattern ip
      | none => false) ||
    matchesWildcard pattern value

def matchesDomain (pattern domain : List Char) : Bool :=
  match pattern with
  | '*' :: '.' :: suffix => suffix.isSuffixOf domain || domain = suffix
  | _ => pattern = domain

def matchesPath (pattern path : List Char) : Bool := matchesWildcard pattern path

theorem splitOn_pair {mark : Char} {first second : List Char} (hfirst : mark ∉ first)
    (hsecond : mark ∉ second) : (first ++ mark :: second).splitOn mark = [first, second] := by
  have hparts : ∀ part ∈ [first, second], mark ∉ part := by simp [hfirst, hsecond]
  have hsplit := List.splitOn_intercalate mark hparts (List.cons_ne_nil _ _)
  simpa [List.intercalate] using hsplit

theorem matchesWildcard_iff {front back value : List Char} (hfront : '*' ∉ front)
    (hback : '*' ∉ back) : matchesWildcard (front ++ '*' :: back) value = true ↔
      front <+: value ∧ back <:+ value := by
  rw [matchesWildcard, if_pos (by simp), splitOn_pair hfront hback]
  simp only [Bool.and_eq_true, List.isPrefixOf_iff_prefix, List.isSuffixOf_iff_suffix]

theorem exists_middle_iff {front back value : List Char}
    (hlength : front.length + back.length ≤ value.length) :
    front <+: value ∧ back <:+ value ↔ ∃ middle, value = front ++ middle ++ back := by
  constructor
  · rintro ⟨⟨rest, rfl⟩, hback⟩
    rw [List.length_append] at hlength
    obtain ⟨middle, rfl⟩ :=
      List.suffix_of_suffix_length_le hback (List.suffix_append front rest) (by omega)
    exact ⟨middle, (List.append_assoc ..).symm⟩
  · rintro ⟨middle, rfl⟩
    exact ⟨⟨middle ++ back, (List.append_assoc ..).symm⟩, List.suffix_append _ _⟩

theorem mem_dropZeros {c : Char} (hzero : c ≠ '0') (hdot : c ≠ '.') {text : List Char}
    (h : c ∈ text) : c ∈ dropZeros text := by
  fun_induction dropZeros text with
  | case1 rest ih => exact ih (by simpa [hzero, hdot] using h)
  | case2 => exact h

theorem star_notMem_of_parseU8 {len : List Char} (h : (parseU8 len).isSome = true) :
    '*' ∉ len := by
  obtain ⟨n, hn⟩ := Option.isSome_iff_exists.mp h
  have hparse := (Option.filter_eq_some_iff.mp hn).1
  unfold parseU64 at hparse
  split_ifs at hparse with hdigits
  rw [not_or, Bool.not_eq_false, List.all_eq_true] at hdigits
  have hstar : '*' ∉ withoutSign len := fun hmem ↦ absurd (hdigits.2 '*' hmem) (by decide)
  unfold withoutSign at hstar
  split at hstar
  · rw [List.mem_cons, not_or]
    exact ⟨by decide, hstar⟩
  · exact hstar

/-- The text of an address has neither a star nor a slash. -/
theorem notMem_of_fromStr {text : List Char} {addr : IpAddr} (h : fromStr text = some addr) :
    '*' ∉ text ∧ '/' ∉ text := by
  have hstar : ¬ AddressChar '*' := by unfold AddressChar; decide
  have hslash : ¬ AddressChar '/' := by unfold AddressChar; decide
  exact ⟨fun hmem ↦ hstar (addressChar_of_fromStr h _ hmem),
    fun hmem ↦ hslash (addressChar_of_fromStr h _ hmem)⟩

/-- A pattern with a star is not a network. -/
theorem matchesCidr_eq_false {pattern : List Char} (h : '*' ∈ pattern) (ip : IpAddr) :
    matchesCidr pattern ip = false := by
  rw [Bool.eq_false_iff]
  intro hmatch
  unfold matchesCidr at hmatch
  split_ifs at hmatch
  split at hmatch
  · next network len hparts =>
    rw [Bool.and_eq_true, List.isPrefixOf_iff_prefix] at hmatch
    obtain ⟨hlen, hbegins⟩ := hmatch
    have hpattern : ['/'].intercalate (pattern.splitOn '/') = pattern :=
      List.intercalate_splitOn '/'
    rw [hparts] at hpattern
    have hmem : '*' ∈ network := by
      rw [← hpattern] at h
      simpa [List.intercalate, star_notMem_of_parseU8 hlen] using h
    have htrim : '*' ∈ trimZeros network :=
      List.mem_reverse.mpr (mem_dropZeros (by decide) (by decide) (List.mem_reverse.mpr hmem))
    exact (notMem_of_fromStr (fromStr_toText ip)).1 (hbegins.subset htrim)
  · exact absurd hmatch Bool.false_ne_true

/-- A pattern with one star and a value that is long enough for both its sides. -/
theorem matchesValue_star_iff {front back value : List Char} (hfront : '*' ∉ front)
    (hback : '*' ∉ back) (hlength : front.length + back.length ≤ value.length) :
    matchesValue (front ++ '*' :: back) value = true ↔
      ∃ middle, value = front ++ middle ++ back := by
  have hcidr : (match fromStr value with
      | some ip => matchesCidr (front ++ '*' :: back) ip
      | none => false) = false := by
    split
    · exact matchesCidr_eq_false (by simp) _
    · rfl
  rw [matchesValue, hcidr, Bool.or_false, Bool.or_eq_true, Bool.or_eq_true, decide_eq_true_eq,
    decide_eq_true_eq, matchesWildcard_iff hfront hback, exists_middle_iff hlength]
  constructor
  · rintro ((hall | rfl) | hmiddle)
    · have hnil : front.length = 0 ∧ back.length = 0 := by
        have := congrArg List.length hall
        rw [List.length_append, List.length_cons, List.length_singleton] at this
        omega
      rw [List.eq_nil_of_length_eq_zero hnil.1, List.eq_nil_of_length_eq_zero hnil.2]
      exact ⟨value, by simp⟩
    · exact ⟨['*'], by simp⟩
    · exact hmiddle
  · exact .inr

/-- A network and the text of an address. -/
theorem matchesValue_network_iff {network len value : List Char} {addr : IpAddr}
    (hnetwork : '*' ∉ network ∧ '/' ∉ network) (hlen : '*' ∉ len ∧ '/' ∉ len)
    (haddr : fromStr value = some addr) :
    matchesValue (network ++ '/' :: len) value = true ↔
      (parseU8 len).isSome = true ∧ trimZeros network <+: addr.toText := by
  obtain ⟨-, hslash⟩ := notMem_of_fromStr haddr
  have hall : network ++ '/' :: len ≠ ['*'] := fun heq ↦
    absurd (heq ▸ List.mem_append_right network List.mem_cons_self : '/' ∈ ['*']) (by decide)
  have hother : network ++ '/' :: len ≠ value := by
    rintro rfl
    exact hslash (by simp)
  have hwildcard : matchesWildcard (network ++ '/' :: len) value = false :=
    if_neg (by simp [hnetwork.1, hlen.1])
  rw [matchesValue, haddr, hwildcard, decide_eq_false hall, decide_eq_false hother]
  simp only [Bool.false_or, Bool.or_false]
  rw [matchesCidr, if_pos (by simp), splitOn_pair hnetwork.2 hlen.2]
  simp only [Bool.and_eq_true, List.isPrefixOf_iff_prefix]

theorem matchesDomain_iff {suffix domain : List Char} :
    matchesDomain ('*' :: '.' :: suffix) domain = true ↔ suffix <:+ domain := by
  rw [matchesDomain, Bool.or_eq_true, decide_eq_true_eq, List.isSuffixOf_iff_suffix]
  exact or_iff_left_of_imp fun h ↦ h ▸ List.suffix_refl _

/-- What the patterns are good for. A value that the sides of a star do not overlap on is matched
when it has them at its ends; an address when its text begins like the network, without the zeros at
its end; a name when it is the one behind `*.` or ends in a dot and that name, and never when it
does not end in that name. -/
theorem matchesValue_scope (front back value network len address suffix : List Char)
    (addr : IpAddr) :
    ('*' ∉ front → '*' ∉ back → front.length + back.length ≤ value.length →
      (matchesValue (front ++ '*' :: back) value = true ↔
        ∃ middle, value = front ++ middle ++ back)) ∧
    ('*' ∉ network ∧ '/' ∉ network → '*' ∉ len ∧ '/' ∉ len → fromStr address = some addr →
      (matchesValue (network ++ '/' :: len) address = true ↔
        (parseU8 len).isSome = true ∧ trimZeros network <+: addr.toText)) ∧
    matchesDomain ('*' :: '.' :: suffix) suffix = true ∧
    (∀ label, matchesDomain ('*' :: '.' :: suffix) (label ++ '.' :: suffix) = true) ∧
    ∀ domain, ¬ suffix <:+ domain → matchesDomain ('*' :: '.' :: suffix) domain = false := by
  refine ⟨matchesValue_star_iff, matchesValue_network_iff, ?_, fun label ↦ ?_, fun domain h ↦ ?_⟩
  · exact matchesDomain_iff.mpr (List.suffix_refl suffix)
  · exact matchesDomain_iff.mpr ⟨label ++ ['.'], by simp⟩
  · exact Bool.eq_false_iff.mpr fun hmatch ↦ h (matchesDomain_iff.mp hmatch)

theorem matchesValue_scope_api :
    ('*' ∉ "/api/".toList → '*' ∉ [] → "/api/".toList.length + 0 ≤ "/api/users".toList.length →
      (matchesValue ("/api/".toList ++ ['*']) "/api/users".toList = true ↔
        ∃ middle, "/api/users".toList = "/api/".toList ++ middle ++ [])) ∧
    ('*' ∉ "10.1.0.0".toList ∧ '/' ∉ "10.1.0.0".toList → '*' ∉ "16".toList ∧ '/' ∉ "16".toList →
      fromStr (IpAddr.v4 ⟨10, 1, 2, 3⟩).toText = some (.v4 ⟨10, 1, 2, 3⟩) →
        (matchesValue ("10.1.0.0".toList ++ '/' :: "16".toList)
            (IpAddr.v4 ⟨10, 1, 2, 3⟩).toText = true ↔
          (parseU8 "16".toList).isSome = true ∧
            trimZeros "10.1.0.0".toList <+: (IpAddr.v4 ⟨10, 1, 2, 3⟩).toText)) ∧
    matchesDomain "*.example.com".toList "example.com".toList = true ∧
    (∀ label, matchesDomain "*.example.com".toList (label ++ ".example.com".toList) = true) ∧
    ∀ domain, ¬ "example.com".toList <:+ domain →
      matchesDomain "*.example.com".toList domain = false :=
  matchesValue_scope "/api/".toList [] "/api/users".toList "10.1.0.0".toList "16".toList
    (IpAddr.v4 ⟨10, 1, 2, 3⟩).toText "example.com".toList (.v4 ⟨10, 1, 2, 3⟩)

/-- The sides of a star may overlap, a network takes in the addresses whose texts go on behind its
own, and `*.` and a name the names that end in the middle of a label. -/
theorem not_matchesValue_meaning :
    (¬ ∀ front back value : List Char, '*' ∉ front → '*' ∉ back →
      (matchesValue (front ++ '*' :: back) value = true ↔
        ∃ middle, value = front ++ middle ++ back)) ∧
    (¬ ∀ (net : Ipv4Addr) (prefix_len : Fin 33) (addr : IpAddr),
      matchesValue (net.toText ++ '/' :: Nat.toDigits 10 prefix_len.val) addr.toText =
        (IpNet.v4 net prefix_len).contains addr) ∧
    ¬ ∀ suffix domain : List Char, matchesDomain ('*' :: '.' :: suffix) domain = true ↔
      domain = suffix ∨ ∃ label, domain = label ++ '.' :: suffix := by
  refine ⟨fun h ↦ ?_, fun h ↦ ?_, fun h ↦ ?_⟩
  · obtain ⟨middle, hmiddle⟩ :=
      (h "ab".toList "ba".toList "aba".toList (by decide) (by decide)).mp (by decide)
    have hlength := congrArg List.length hmiddle
    simp at hlength
  · exact absurd (h ⟨192, 168, 1, 0⟩ 24 (.v4 ⟨192, 168, 10, 5⟩)) (by decide)
  · rcases (h "example.com".toList "evilexample.com".toList).mp (by decide) with heq | ⟨label, heq⟩
    · exact absurd heq (by decide)
    · have hsuffix : '.' :: "example.com".toList <:+ "evilexample.com".toList := ⟨label, heq.symm⟩
      exact absurd hsuffix (by decide)

end Lithair.Patterns.Matcher
