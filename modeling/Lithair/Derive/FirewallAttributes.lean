import Mathlib.Data.List.Nodup
import Lithair.Derive.FieldAttributes
import Lithair.Lib.StringLiteral

/-!
# The firewall of a model

What `parse_firewall_attributes` of `declarative_simple.rs` makes of `#[firewall(...)]`. The text of
the attribute is cut at all commas, also those in its string literals, and each part is read on its
own, up to its last quote. A list with a comma in it is therefore cut before its end, and is not
read. The attribute is parsed as it is declared exactly when no list has a comma, unless all its
items are empty, no list has an escape, and its numbers are written in digits alone and have 64 bits
(`parseFirewallAttributes_eq_declared_iff`).
-/

namespace Lithair.Derive

open Lithair.Lib.Text Lithair.Lib.StringLiteral

@[ext]
structure FirewallAttributes where
  present : Bool := false
  enabled : Bool := false
  allow : List String := []
  deny : List String := []
  globalQps : Option ℕ := none
  perIpQps : Option ℕ := none
  protectedPrefixes : List String := []
  exempt : List String := []

/-! ### Parsing -/

def parseBoolValue (token : String) : Option Bool :=
  (behind '=' token.toList).bind fun value ↦
    if trim value = "true".toList then some true
    else if trim value = "false".toList then some false
    else none

/-- The items between the commas of a text. -/
def csvItems (text : List Char) : List (List Char) :=
  ((text.splitOn ',').map trim).filter (· ≠ [])

def splitCsv (text : String) : List String := (csvItems text.toList).map String.ofList

/-- One part of the text of an attribute. -/
def scanFirewall (fw : FirewallAttributes) (token : String) : FirewallAttributes :=
  if startsWith token "enabled" then
    (parseBoolValue token).elim fw fun value ↦ { fw with enabled := value }
  else if startsWith token "allow" then
    (extractStringValue token).elim fw fun value ↦ { fw with allow := splitCsv value }
  else if startsWith token "deny" then
    (extractStringValue token).elim fw fun value ↦ { fw with deny := splitCsv value }
  else if startsWith token "global_qps" then
    (extractU64Value token).elim fw fun value ↦ { fw with globalQps := some value }
  else if startsWith token "per_ip_qps" then
    (extractU64Value token).elim fw fun value ↦ { fw with perIpQps := some value }
  else if startsWith token "protected" then
    (extractStringValue token).elim fw fun value ↦ { fw with protectedPrefixes := splitCsv value }
  else if startsWith token "exempt" then
    (extractStringValue token).elim fw fun value ↦ { fw with exempt := splitCsv value }
  else fw

/-- The parts of a text between its commas. -/
def parts (text : List Char) : List String :=
  (text.splitOn ',').map fun part ↦ String.ofList (trim part)

variable (tokensText : List Token → String)

def parseFirewall (fw : FirewallAttributes) (attr : Attribute) : FirewallAttributes :=
  if attr.ident = some "firewall" then
    match attr.form with
    | .list tokens =>
      (parts (tokensText tokens).toList).foldl scanFirewall { fw with present := true }
    | _ => { fw with present := true }
  else fw

/-- All attributes of a struct. -/
def parseFirewallAttributes (attrs : List Attribute) : FirewallAttributes :=
  attrs.foldl (parseFirewall tokensText) {}

/-! ### What is declared -/

inductive FirewallKey
  | enabled
  | allow
  | deny
  | globalQps
  | perIpQps
  | protectedPrefixes
  | exempt
  deriving DecidableEq

namespace FirewallKey

def all : List FirewallKey :=
  [enabled, allow, deny, globalQps, perIpQps, protectedPrefixes, exempt]

def name : FirewallKey → String
  | enabled => "enabled"
  | allow => "allow"
  | deny => "deny"
  | globalQps => "global_qps"
  | perIpQps => "per_ip_qps"
  | protectedPrefixes => "protected"
  | exempt => "exempt"

end FirewallKey

/-- The keys of lists. -/
inductive ListKey
  | allow
  | deny
  | protectedPrefixes
  | exempt

def ListKey.key : ListKey → FirewallKey
  | allow => .allow
  | deny => .deny
  | protectedPrefixes => .protectedPrefixes
  | exempt => .exempt

/-- The keys of numbers. -/
inductive LimitKey
  | globalQps
  | perIpQps

def LimitKey.key : LimitKey → FirewallKey
  | globalQps => .globalQps
  | perIpQps => .perIpQps

/-- An integer literal as it is written, with its value: a word of letters, digits and underscores
that begins with a digit, and is in base ten when it has nothing but digits. -/
structure IntegerLiteral where
  text : List Char
  value : ℕ
  first : text.head?.any Char.isDigit = true
  word : ∀ c ∈ text, c.isAlphanum = true ∨ c = '_'
  decimal : text.all Char.isDigit = true → value = Nat.ofDigitChars 10 text 0

/-- A key with its value. -/
inductive FirewallEntry
  | enabled (value : Bool)
  | list (key : ListKey) (literal : StrLiteral)
  | limit (key : LimitKey) (literal : IntegerLiteral)

namespace FirewallEntry

def key : FirewallEntry → FirewallKey
  | enabled _ => .enabled
  | list key _ => key.key
  | limit key _ => key.key

/-- The value as it is written. -/
def valueText : FirewallEntry → List Char
  | enabled value => (if value then "true" else "false").toList
  | list _ literal => literal.token
  | limit _ literal => literal.text

def valueToken : FirewallEntry → Token
  | enabled value => .ident (if value then "true" else "false")
  | list _ literal => .literal (String.ofList literal.token)
  | limit _ literal => .literal (String.ofList literal.text)

def tokens (entry : FirewallEntry) : List Token :=
  [.ident entry.key.name, .punct '=', entry.valueToken]

end FirewallEntry

/-- The entries of a `#[firewall(...)]`, of different keys, after the last of which there may be a
comma. -/
structure FirewallList where
  entries : List FirewallEntry
  trailingComma : Bool
  distinct : (entries.map FirewallEntry.key).Nodup

/-- Entries with commas between them. -/
def separatedEntries : List FirewallEntry → List Token
  | [] => []
  | [entry] => entry.tokens
  | entry :: next :: rest => entry.tokens ++ .punct ',' :: separatedEntries (next :: rest)

def FirewallList.tokens (list : FirewallList) : List Token :=
  separatedEntries list.entries ++ if list.trailingComma then [.punct ','] else []

def FirewallList.attribute (list : FirewallList) : Attribute :=
  ⟨some "firewall", .list list.tokens⟩

/-- The text of tokens, with white space in front of each and at the end. -/
inductive Spaced : List Token → List Char → Prop
  | nil (blanks : List Char) (h : ∀ c ∈ blanks, isWhitespace c = true) : Spaced [] blanks
  | cons (blanks : List Char) (h : ∀ c ∈ blanks, isWhitespace c = true) (token : Token)
    {rest : List Token} {text : List Char} (hrest : Spaced rest text) :
    Spaced (token :: rest) (blanks ++ (token.toString.toList ++ text))

/-- What is in a field of the attributes. -/
inductive FirewallValue
  | switch (value : Bool)
  | list (items : List String)
  | limit (value : Option ℕ)
  deriving DecidableEq

namespace FirewallAttributes

def get (fw : FirewallAttributes) : FirewallKey → FirewallValue
  | .enabled => .switch fw.enabled
  | .allow => .list fw.allow
  | .deny => .list fw.deny
  | .globalQps => .limit fw.globalQps
  | .perIpQps => .limit fw.perIpQps
  | .protectedPrefixes => .list fw.protectedPrefixes
  | .exempt => .list fw.exempt

def putList (fw : FirewallAttributes) (items : List String) : ListKey → FirewallAttributes
  | .allow => { fw with allow := items }
  | .deny => { fw with deny := items }
  | .protectedPrefixes => { fw with protectedPrefixes := items }
  | .exempt => { fw with exempt := items }

def putLimit (fw : FirewallAttributes) (value : ℕ) : LimitKey → FirewallAttributes
  | .globalQps => { fw with globalQps := some value }
  | .perIpQps => { fw with perIpQps := some value }

end FirewallAttributes

/-- A list has the items of its literal, and any other value is the one that is written. -/
def FirewallEntry.declare (fw : FirewallAttributes) : FirewallEntry → FirewallAttributes
  | enabled value => { fw with enabled := value }
  | list key literal => fw.putList (splitCsv (String.ofList literal.value)) key
  | limit key literal => fw.putLimit literal.value key

/-- What the entries declare, one after the other. -/
def FirewallList.declared (list : FirewallList) : FirewallAttributes :=
  list.entries.foldl FirewallEntry.declare { present := true }

/-- What is read of an entry is what it declares: a list without commas has no escapes, one with
commas has no items, and a number is written in digits alone and has 64 bits. -/
def FirewallEntry.Legible : FirewallEntry → Prop
  | enabled _ => True
  | list _ literal =>
    if ',' ∈ literal.body then csvItems literal.value = [] else literal.value = literal.body
  | limit _ literal => literal.text.all Char.isDigit = true ∧ literal.value < 2 ^ 64

/-! ### What a part sets -/

/-- What a part that begins with a key has for it. -/
def FirewallKey.read (key : FirewallKey) (token : String) : Option FirewallValue :=
  match key with
  | enabled => (parseBoolValue token).map .switch
  | allow | deny | protectedPrefixes | exempt =>
    (extractStringValue token).map fun value ↦ .list (splitCsv value)
  | globalQps | perIpQps => (extractU64Value token).map fun value ↦ .limit (some value)

theorem read_listKey (key : ListKey) (token : String) : key.key.read token =
    (extractStringValue token).map fun value ↦ .list (splitCsv value) := by
  cases key <;> rfl

theorem read_limitKey (key : LimitKey) (token : String) : key.key.read token =
    (extractU64Value token).map fun value ↦ .limit (some value) := by
  cases key <;> rfl

/-- What a part has for a key. -/
def FirewallKey.readAs (key : FirewallKey) (token : String) : Option FirewallValue :=
  if startsWith token key.name then key.read token else none

theorem eq_of_isPrefixOf : ∀ key ∈ FirewallKey.all, ∀ other ∈ FirewallKey.all,
    key.name.toList.isPrefixOf other.name.toList = true → key = other := by
  decide

theorem FirewallKey.mem_all (key : FirewallKey) : key ∈ all := by
  cases key <;> decide

/-- No text begins with two keys. -/
theorem eq_of_prefixes {text : List Char} {key other : FirewallKey}
    (hkey : key.name.toList <+: text) (hother : other.name.toList <+: text) : key = other := by
  rcases List.prefix_or_prefix_of_prefix hkey hother with h | h
  · exact eq_of_isPrefixOf key key.mem_all other other.mem_all (List.isPrefixOf_iff_prefix.mpr h)
  · have hbegins := List.isPrefixOf_iff_prefix.mpr h
    exact (eq_of_isPrefixOf other other.mem_all key key.mem_all hbegins).symm

theorem eq_of_startsWith {token : String} {key other : FirewallKey}
    (hkey : startsWith token key.name = true) (hother : startsWith token other.name = true) :
    key = other :=
  eq_of_prefixes (List.isPrefixOf_iff_prefix.mp hkey) (List.isPrefixOf_iff_prefix.mp hother)

theorem scanFirewall_of_foreign {token : String}
    (h : ∀ key : FirewallKey, startsWith token key.name = false) (fw : FirewallAttributes) :
    scanFirewall fw token = fw := by
  have hall : ∀ key ∈ FirewallKey.all, startsWith token key.name = false := fun key _ ↦ h key
  simp only [FirewallKey.all, List.forall_mem_cons, FirewallKey.name] at hall
  simp [scanFirewall, hall]

/-- Set the field of a key, if the value is one of it. -/
def FirewallAttributes.put (fw : FirewallAttributes) (key : FirewallKey) (value : FirewallValue) :
    FirewallAttributes :=
  match key, value with
  | .enabled, .switch value => { fw with enabled := value }
  | .allow, .list items => { fw with allow := items }
  | .deny, .list items => { fw with deny := items }
  | .globalQps, .limit value => { fw with globalQps := value }
  | .perIpQps, .limit value => { fw with perIpQps := value }
  | .protectedPrefixes, .list items => { fw with protectedPrefixes := items }
  | .exempt, .list items => { fw with exempt := items }
  | _, _ => fw

theorem scanFirewall_of_startsWith {token : String} {key : FirewallKey}
    (h : startsWith token key.name = true) (fw : FirewallAttributes) :
    scanFirewall fw token = (key.read token).elim fw (fw.put key) := by
  have hnone : ∀ other ∈ FirewallKey.all, other ≠ key → startsWith token other.name = false :=
    fun other _ hne ↦ Bool.eq_false_of_not_eq_true fun hother ↦ hne (eq_of_startsWith hother h)
  simp only [FirewallKey.all, List.forall_mem_cons, FirewallKey.name] at hnone
  unfold scanFirewall
  cases key
  all_goals
    simp only [FirewallKey.name] at h
    simp only [ne_eq, reduceCtorEq, not_true, not_false_iff, forall_true_left, false_implies,
      true_and] at hnone
    simp only [hnone, h, Bool.false_eq_true, if_true, if_false]
  case enabled => cases hread : parseBoolValue token <;> simp only [FirewallKey.read, hread] <;> rfl
  case globalQps | perIpQps =>
    cases hread : extractU64Value token <;> simp only [FirewallKey.read, hread] <;> rfl
  case allow | deny | protectedPrefixes | exempt =>
    cases hread : extractStringValue token <;> simp only [FirewallKey.read, hread] <;> rfl

theorem get_put {token : String} {key : FirewallKey} {value : FirewallValue}
    (h : key.read token = some value) (fw : FirewallAttributes) (other : FirewallKey) :
    (fw.put key value).get other = if other = key then value else fw.get other := by
  cases key
  all_goals
    obtain ⟨read, -, rfl⟩ := Option.map_eq_some_iff.mp h
    cases other <;> rfl

theorem get_scanFirewall (fw : FirewallAttributes) (token : String) (key : FirewallKey) :
    (scanFirewall fw token).get key = (key.readAs token).getD (fw.get key) := by
  by_cases hsome : ∃ other : FirewallKey, startsWith token other.name = true
  · obtain ⟨other, hstart⟩ := hsome
    rw [scanFirewall_of_startsWith hstart]
    by_cases hsame : key = other
    · subst hsame
      rw [FirewallKey.readAs, if_pos hstart]
      cases hread : key.read token with
      | none => rfl
      | some value => exact (get_put hread fw key).trans (if_pos rfl)
    · have hkey : startsWith token key.name = false :=
        Bool.eq_false_of_not_eq_true fun h ↦ hsame (eq_of_startsWith h hstart)
      rw [FirewallKey.readAs, hkey, if_neg Bool.false_ne_true]
      cases hread : other.read token with
      | none => rfl
      | some value => exact (get_put hread fw key).trans (if_neg hsame)
  · have hnone : ∀ key : FirewallKey, startsWith token key.name = false := fun key ↦
      Bool.eq_false_of_not_eq_true fun h ↦ hsome ⟨key, h⟩
    rw [scanFirewall_of_foreign hnone, FirewallKey.readAs, hnone, if_neg Bool.false_ne_true]
    rfl

theorem present_scanFirewall (fw : FirewallAttributes) (token : String) :
    (scanFirewall fw token).present = fw.present := by
  unfold scanFirewall
  split_ifs
  · cases parseBoolValue token <;> rfl
  · cases extractStringValue token <;> rfl
  · cases extractStringValue token <;> rfl
  · cases extractU64Value token <;> rfl
  · cases extractU64Value token <;> rfl
  · cases extractStringValue token <;> rfl
  · cases extractStringValue token <;> rfl
  · rfl

/-- What is read last of a key. -/
def lastRead (key : FirewallKey) (tokens : List String) : Option FirewallValue :=
  tokens.reverse.findSome? key.readAs

theorem lastRead_append (key : FirewallKey) (first second : List String) :
    lastRead key (first ++ second) = (lastRead key second).or (lastRead key first) := by
  rw [lastRead, List.reverse_append, List.findSome?_append]
  rfl

theorem lastRead_eq_none {key : FirewallKey} {tokens : List String}
    (h : ∀ token ∈ tokens, key.readAs token = none) : lastRead key tokens = none :=
  List.findSome?_eq_none_iff.mpr fun token htoken ↦ h token (List.mem_reverse.mp htoken)

theorem exists_of_lastRead {key : FirewallKey} {tokens : List String} {value : FirewallValue}
    (h : lastRead key tokens = some value) : ∃ token ∈ tokens, key.readAs token = some value := by
  obtain ⟨token, htoken, hread⟩ := List.exists_of_findSome?_eq_some h
  exact ⟨token, List.mem_reverse.mp htoken, hread⟩

/-- A field has what was read last of its key. -/
theorem get_foldl_scanFirewall (fw : FirewallAttributes) (tokens : List String)
    (key : FirewallKey) : (tokens.foldl scanFirewall fw).get key =
      (lastRead key tokens).getD (fw.get key) := by
  induction tokens generalizing fw with
  | nil => rfl
  | cons token rest ih =>
    have hcons : lastRead key (token :: rest) = (lastRead key rest).or (key.readAs token) := by
      rw [← List.singleton_append, lastRead_append]
      congr 1
      show List.findSome? key.readAs [token] = key.readAs token
      rw [List.findSome?_cons]
      cases key.readAs token <;> rfl
    rw [List.foldl_cons, ih, get_scanFirewall, hcons]
    cases lastRead key rest <;> rfl

theorem present_foldl_scanFirewall (fw : FirewallAttributes) (tokens : List String) :
    (tokens.foldl scanFirewall fw).present = fw.present := by
  induction tokens generalizing fw with
  | nil => rfl
  | cons token rest ih => rw [List.foldl_cons, ih, present_scanFirewall]

/-! ### The texts of the entries -/

/-- The text of tokens up to a comma, and behind it. -/
theorem exists_of_spaced_comma {first second : List Token} {text : List Char}
    (h : Spaced (first ++ .punct ',' :: second) text) : ∃ front back,
      text = front ++ ',' :: back ∧ Spaced first front ∧ Spaced second back := by
  induction first generalizing text with
  | nil =>
    cases h with
    | cons blanks hblanks token hrest => exact ⟨blanks, _, rfl, .nil blanks hblanks, hrest⟩
  | cons token rest ih =>
    cases h with
    | cons blanks hblanks token hrest =>
      obtain ⟨front, back, rfl, hfront, hback⟩ := ih hrest
      have hboth : Spaced (token :: rest) (blanks ++ (token.toString.toList ++ front)) :=
        .cons blanks hblanks token hfront
      refine ⟨blanks ++ (token.toString.toList ++ front), back, ?_, hboth, hback⟩
      simp only [List.append_assoc]

theorem parts_comma (front back : List Char) :
    parts (front ++ ',' :: back) = parts front ++ parts back := by
  rw [parts, List.splitOn_append_cons_self, List.map_append]
  rfl

/-- Entries, each with a text. -/
def Texts (entries : List (FirewallEntry × List Char)) : Prop :=
  ∀ pair ∈ entries, Spaced pair.1.tokens pair.2

theorem exists_texts_separated {entries : List FirewallEntry} {text : List Char}
    (hne : entries ≠ []) (h : Spaced (separatedEntries entries) text) : ∃ pairs, Texts pairs ∧
      pairs.map Prod.fst = entries ∧ parts text = pairs.flatMap fun pair ↦ parts pair.2 := by
  induction entries using separatedEntries.induct generalizing text with
  | case1 => exact absurd rfl hne
  | case2 entry =>
    refine ⟨[(entry, text)], fun pair hpair ↦ ?_, rfl, (List.append_nil _).symm⟩
    rw [List.mem_singleton.mp hpair]
    exact h
  | case3 entry next rest ih =>
    obtain ⟨front, back, rfl, hfront, hback⟩ := exists_of_spaced_comma h
    obtain ⟨pairs, hpairs, hentries, hparts⟩ := ih (List.cons_ne_nil _ _) hback
    refine ⟨(entry, front) :: pairs, fun pair hpair ↦ ?_, congrArg (entry :: ·) hentries, ?_⟩
    · rcases List.mem_cons.mp hpair with rfl | hpair
      · exact hfront
      · exact hpairs pair hpair
    · rw [parts_comma, hparts]
      rfl

theorem lastRead_blank {blanks : List Char} (h : ∀ c ∈ blanks, isWhitespace c = true)
    (key : FirewallKey) : lastRead key (parts blanks) = none := by
  have hcomma : ',' ∉ blanks := fun hmem ↦ absurd (h ',' hmem) (by decide)
  have htrim : trim blanks = [] := by
    have hpadded : trim (blanks ++ ([] ++ [])) = [] := trim_padded h
      (fun c hc ↦ absurd hc List.not_mem_nil) (fun c hc ↦ absurd hc nofun)
      (fun c hc ↦ absurd hc nofun)
    rwa [List.append_nil, List.append_nil] at hpadded
  rw [parts, List.splitOn_eq_singleton hcomma, List.map_singleton, htrim]
  cases key <;> decide

theorem Spaced.blank {text : List Char} (h : Spaced [] text) :
    ∀ c ∈ text, isWhitespace c = true := by
  cases h with
  | nil blanks hblanks => exact hblanks

theorem Spaced.exists_cons {token : Token} {rest : List Token} {text : List Char}
    (h : Spaced (token :: rest) text) : ∃ blanks behind, (∀ c ∈ blanks, isWhitespace c = true) ∧
      Spaced rest behind ∧ text = blanks ++ (token.toString.toList ++ behind) := by
  cases h with
  | cons blanks hblanks token hrest => exact ⟨blanks, _, hblanks, hrest, rfl⟩

/-- What is read in the text of entries is read in the texts of each of them. -/
theorem exists_texts_of_separated {entries : List FirewallEntry} {text : List Char}
    (h : Spaced (separatedEntries entries) text) : ∃ pairs, Texts pairs ∧
      pairs.map Prod.fst = entries ∧
      ∀ key, lastRead key (parts text) = lastRead key (pairs.flatMap fun pair ↦ parts pair.2) := by
  by_cases hnil : entries = []
  · subst hnil
    exact ⟨[], fun pair hpair ↦ absurd hpair List.not_mem_nil, rfl, lastRead_blank h.blank⟩
  · obtain ⟨pairs, hpairs, hentries, hparts⟩ := exists_texts_separated hnil h
    exact ⟨pairs, hpairs, hentries, fun key ↦ by rw [hparts]⟩

theorem exists_texts {list : FirewallList} {text : List Char} (h : Spaced list.tokens text) :
    ∃ pairs, Texts pairs ∧ pairs.map Prod.fst = list.entries ∧
      ∀ key, lastRead key (parts text) = lastRead key (pairs.flatMap fun pair ↦ parts pair.2) := by
  unfold FirewallList.tokens at h
  cases htrailing : list.trailingComma with
  | false =>
    rw [htrailing, if_neg Bool.false_ne_true, List.append_nil] at h
    exact exists_texts_of_separated h
  | true =>
    rw [htrailing, if_pos rfl] at h
    obtain ⟨front, back, rfl, hfront, hback⟩ := exists_of_spaced_comma h
    obtain ⟨pairs, hpairs, hentries, hread⟩ := exists_texts_of_separated hfront
    refine ⟨pairs, hpairs, hentries, fun key ↦ ?_⟩
    rw [parts_comma, lastRead_append, lastRead_blank hback.blank, Option.none_or, hread]

/-- The text of an entry: its key, an equals sign and its value, with white space around each. -/
theorem exists_of_spaced_entry {entry : FirewallEntry} {text : List Char}
    (h : Spaced entry.tokens text) : ∃ before between gap after : List Char,
      (∀ c ∈ before ++ between ++ gap ++ after, isWhitespace c = true) ∧
      text = before ++ ((entry.key.name.toList ++ (between ++ '=' :: (gap ++ entry.valueText))) ++
        after) := by
  have hvalue : entry.valueToken.toString.toList = entry.valueText := by
    cases entry with
    | enabled value => rfl
    | list key literal => exact String.toList_ofList
    | limit key literal => exact String.toList_ofList
  obtain ⟨before, _, hbefore, hequals, rfl⟩ := h.exists_cons
  obtain ⟨between, _, hbetween, htoken, rfl⟩ := hequals.exists_cons
  obtain ⟨gap, after, hbehind, hafter, rfl⟩ := htoken.exists_cons
  refine ⟨before, between, gap, after, fun c hc ↦ ?_, ?_⟩
  · simp only [List.mem_append] at hc
    rcases hc with ((hc | hc) | hc) | hc
    · exact hbefore c hc
    · exact hbetween c hc
    · exact hbehind c hc
    · exact hafter.blank c hc
  · rw [hvalue]
    simp only [Token.toString, List.append_assoc, List.cons_append]
    rfl

/-! ### Entries without a comma -/

theorem notMem_name : ∀ key ∈ FirewallKey.all, ',' ∉ key.name.toList ∧ '"' ∉ key.name.toList ∧
    '=' ∉ key.name.toList := by
  decide

theorem head?_name : ∀ key ∈ FirewallKey.all, ∃ c ∈ ['e', 'a', 'd', 'g', 'p'],
    key.name.toList.head? = some c := by
  intro key hkey
  have hhead : key.name.toList.head?.any (· ∈ ['e', 'a', 'd', 'g', 'p']) = true := by
    revert key
    decide
  obtain ⟨c, hc, hmem⟩ := (Option.any_eq_true _ _).mp hhead
  exact ⟨c, of_decide_eq_true hmem, hc⟩

theorem word_spec {c : Char} (h : c.isAlphanum = true ∨ c = '_') :
    isWhitespace c = false ∧ c ≠ ',' := by
  rcases h with h | rfl
  · have h : (decide ('A'.val ≤ c.val ∧ c.val ≤ 'Z'.val) ||
        (decide ('a'.val ≤ c.val) && decide (c.val ≤ 'z'.val)) ||
        (decide ('0'.val ≤ c.val) && decide (c.val ≤ '9'.val))) = true := h
    simp only [Bool.or_eq_true, Bool.and_eq_true, decide_eq_true_eq, UInt32.le_iff_toNat_le] at h
    have hn : c.toNat = c.val.toNat := rfl
    have hletters : 'A'.val.toNat = 65 ∧ 'Z'.val.toNat = 90 ∧ 'a'.val.toNat = 97 ∧
        'z'.val.toNat = 122 ∧ '0'.val.toNat = 48 ∧ '9'.val.toNat = 57 := by decide
    constructor
    · simp [isWhitespace]
      omega
    · rintro rfl
      revert h
      decide
  · decide

theorem notMem_blanks {blanks : List Char} (h : ∀ c ∈ blanks, isWhitespace c = true) {c : Char}
    (hc : isWhitespace c = false) : c ∉ blanks := fun hmem ↦ by
  rw [h c hmem] at hc
  exact absurd hc.symm Bool.false_ne_true

/-- Around the quotes of a literal there is at most an `r` with hashes. -/
theorem notMem_around (literal : StrLiteral) {c : Char} (hr : c ≠ 'r') (hhash : c ≠ '#') :
    c ∉ literal.start ∧ c ∉ literal.hashes := by
  have hhashes (n : ℕ) : c ∉ List.replicate n '#' := fun hmem ↦
    hhash (List.eq_of_mem_replicate hmem)
  cases literal with
  | quoted units => exact ⟨List.not_mem_nil, List.not_mem_nil⟩
  | raw hashes body unclosed =>
    exact ⟨List.not_mem_cons_of_ne_of_not_mem hr (hhashes hashes), hhashes hashes⟩

theorem comma_notMem_around (literal : StrLiteral) :
    ',' ∉ literal.start ∧ ',' ∉ literal.hashes :=
  notMem_around literal (by decide) (by decide)

theorem quote_notMem_around (literal : StrLiteral) :
    '"' ∉ literal.start ∧ '"' ∉ literal.hashes :=
  notMem_around literal (by decide) (by decide)

theorem comma_mem_token_iff (literal : StrLiteral) :
    ',' ∈ literal.token ↔ ',' ∈ literal.body := by
  obtain ⟨hstart, hend⟩ := comma_notMem_around literal
  simp [StrLiteral.token, hstart, hend]

theorem isWhitespace_getLast?_token (literal : StrLiteral) :
    ∀ c ∈ literal.token.getLast?, isWhitespace c = false := by
  intro c hc
  have hlast : c ∈ ('"' :: literal.hashes).getLast? := by
    unfold StrLiteral.token at hc
    rwa [← List.cons_append, ← List.append_assoc,
      List.getLast?_append_of_ne_nil _ (List.cons_ne_nil _ _)] at hc
  have hmem := List.mem_of_getLast? hlast
  have hc : c = '"' ∨ c = '#' := by
    rcases List.mem_cons.mp hmem with rfl | hmem
    · exact Or.inl rfl
    · cases literal with
      | quoted units => exact absurd hmem List.not_mem_nil
      | raw hashes body unclosed => exact Or.inr (List.eq_of_mem_replicate hmem)
  rcases hc with rfl | rfl <;> decide

namespace FirewallEntry

/-- What is read of an entry. -/
def readValue : FirewallEntry → Option FirewallValue
  | enabled value => some (.switch value)
  | list _ literal =>
    if ',' ∈ literal.body then none else some (.list (splitCsv (String.ofList literal.body)))
  | limit _ literal => (parseUnsigned 64 literal.text).map fun value ↦ .limit (some value)

/-- The list of an entry has a comma. -/
def Cut (entry : FirewallEntry) : Prop := ',' ∈ entry.valueText

theorem isWhitespace_ends (entry : FirewallEntry) :
    (∀ c ∈ entry.valueText.getLast?, isWhitespace c = false) ∧ entry.valueText ≠ [] := by
  cases entry with
  | enabled value =>
    refine ⟨fun c hc ↦ ?_, by cases value <;> decide⟩
    cases value <;> obtain rfl := Option.some.inj hc <;> decide
  | list key literal =>
    refine ⟨isWhitespace_getLast?_token literal, fun hnil ↦ ?_⟩
    exact absurd (List.append_eq_nil_iff.mp hnil).2 (List.cons_ne_nil _ _)
  | limit key literal =>
    refine ⟨fun c hc ↦ (word_spec (literal.word c (List.mem_of_getLast? hc))).1, fun hnil ↦ ?_⟩
    have hfirst := literal.first
    rw [show literal.text = [] from hnil] at hfirst
    exact absurd hfirst Bool.false_ne_true

/-- A value that is cut is a list. -/
theorem cut_iff (entry : FirewallEntry) :
    entry.Cut ↔ ∃ key literal, entry = list key literal ∧ ',' ∈ literal.body := by
  unfold Cut
  cases entry with
  | enabled value =>
    refine iff_of_false ?_ nofun
    cases value <;> decide
  | list key literal =>
    refine (comma_mem_token_iff literal).trans ⟨fun h ↦ ⟨key, literal, rfl, h⟩, ?_⟩
    rintro ⟨other, written, hsame, h⟩
    exact (list.inj hsame).2 ▸ h
  | limit key literal =>
    exact iff_of_false (fun hmem ↦ (word_spec (literal.word _ hmem)).2 rfl) nofun

/-- An entry as it is read when it is not cut, without the white space around it. -/
def line (entry : FirewallEntry) (between gap : List Char) : List Char :=
  entry.key.name.toList ++ (between ++ '=' :: (gap ++ entry.valueText))

theorem trim_line (entry : FirewallEntry) {before between gap after : List Char}
    (h : ∀ c ∈ before ++ between ++ gap ++ after, isWhitespace c = true) :
    trim (before ++ (entry.line between gap ++ after)) = entry.line between gap := by
  obtain ⟨hlast, hne⟩ := entry.isWhitespace_ends
  refine trim_padded (fun c hc ↦ h c (by simp [hc])) (fun c hc ↦ h c (by simp [hc])) ?_ ?_
  · obtain ⟨d, hd, hhead⟩ := head?_name entry.key entry.key.mem_all
    intro c hc
    rw [line, List.head?_append, hhead] at hc
    obtain rfl := Option.some.inj hc
    simp only [List.mem_cons, List.not_mem_nil, or_false] at hd
    rcases hd with rfl | rfl | rfl | rfl | rfl <;> decide
  · intro c hc
    have hsplit : entry.line between gap =
        (entry.key.name.toList ++ (between ++ '=' :: gap)) ++ entry.valueText := by
      simp [line]
    rw [hsplit, List.getLast?_append_of_ne_nil _ hne] at hc
    exact hlast c hc

theorem startsWith_line (entry : FirewallEntry) (between gap : List Char) :
    startsWith (String.ofList (entry.line between gap)) entry.key.name = true := by
  rw [startsWith, String.toList_ofList]
  exact List.isPrefixOf_iff_prefix.mpr (List.prefix_append _ _)

theorem behind_line (entry : FirewallEntry) {between gap : List Char}
    (h : ∀ c ∈ between ++ gap, isWhitespace c = true) :
    behind '=' (entry.line between gap) = some (gap ++ entry.valueText) := by
  refine behind_eq_some_iff.mpr ⟨entry.key.name.toList ++ between, by simp [line], ?_⟩
  have hblank : '=' ∉ between := notMem_blanks (fun c hc ↦ h c (by simp [hc])) (by decide)
  simp [hblank, (notMem_name entry.key entry.key.mem_all).2.2]

theorem trim_valueText (entry : FirewallEntry) {gap : List Char}
    (h : ∀ c ∈ gap, isWhitespace c = true)
    (hfirst : ∀ c ∈ entry.valueText.head?, isWhitespace c = false) :
    trim (gap ++ entry.valueText) = entry.valueText := by
  have hpadded : trim (gap ++ (entry.valueText ++ [])) = entry.valueText :=
    trim_padded h (fun c hc ↦ absurd hc List.not_mem_nil) hfirst entry.isWhitespace_ends.1
  rwa [List.append_nil] at hpadded

/-- What is read of an entry that is not cut. -/
theorem read_line {entry : FirewallEntry} (hcut : ¬ entry.Cut) {between gap : List Char}
    (h : ∀ c ∈ between ++ gap, isWhitespace c = true) :
    entry.key.read (String.ofList (entry.line between gap)) = entry.readValue := by
  have hblank : ∀ c ∈ gap, isWhitespace c = true := fun c hc ↦ h c (by simp [hc])
  cases entry with
  | enabled value =>
    have hbehind := behind_line (.enabled value) h
    have hhead : ∀ c ∈ (FirewallEntry.enabled value).valueText.head?, isWhitespace c = false := by
      intro c hc
      cases value <;> obtain rfl := Option.some.inj hc <;> decide
    have htrim := trim_valueText (.enabled value) hblank hhead
    show (parseBoolValue _).map _ = _
    rw [parseBoolValue, String.toList_ofList, hbehind, Option.bind_some, htrim]
    cases value <;> rfl
  | limit key literal =>
    have hbehind := behind_line (.limit key literal) h
    have htrim := trim_valueText (.limit key literal) hblank
      fun c hc ↦ (word_spec (literal.word c (List.mem_of_head? hc))).1
    show (LimitKey.key key).read _ = _
    rw [read_limitKey, extractU64Value, extractUnsigned, String.toList_ofList, hbehind,
      Option.bind_some, htrim]
    rfl
  | list key literal =>
    have hcomma : ',' ∉ literal.body := fun hmem ↦ hcut ((cut_iff _).mpr ⟨key, literal, rfl, hmem⟩)
    obtain ⟨hstart, hhashes⟩ := quote_notMem_around literal
    have hline : (list key literal).line between gap =
        (key.key.name.toList ++ (between ++ '=' :: (gap ++ literal.start))) ++
          '"' :: (literal.body ++ '"' :: literal.hashes) := by
      simp [line, FirewallEntry.key, valueText, StrLiteral.token]
    have hfront : '"' ∉ key.key.name.toList ++ (between ++ '=' :: (gap ++ literal.start)) := by
      have hbetween : '"' ∉ between := notMem_blanks (fun c hc ↦ h c (by simp [hc])) (by decide)
      have hbehind : '"' ∉ gap := notMem_blanks hblank (by decide)
      simp [hbetween, hbehind, hstart, (notMem_name key.key key.key.mem_all).2.1]
    show (ListKey.key key).read _ = _
    have htext : (String.ofList ((list key literal).line between gap)).toList = _ :=
      String.toList_ofList.trans hline
    rw [read_listKey, extractStringValue_between hfront hhashes htext, Option.map_some, readValue,
      if_neg hcomma]

theorem readAs_of_ne {entry : FirewallEntry} {token : String}
    (h : startsWith token entry.key.name = true) {key : FirewallKey} (hne : key ≠ entry.key) :
    key.readAs token = none :=
  if_neg fun hstart ↦ hne (eq_of_startsWith hstart h)

/-- What is read in the text of an entry that is not cut. -/
theorem lastRead_of_not_cut {entry : FirewallEntry} (hcut : ¬ entry.Cut) {text : List Char}
    (h : Spaced entry.tokens text) (key : FirewallKey) :
    lastRead key (parts text) = if key = entry.key then entry.readValue else none := by
  obtain ⟨before, between, gap, after, hblank, rfl⟩ := exists_of_spaced_entry h
  have hcomma : ',' ∉ before ++ (entry.line between gap ++ after) := by
    have hblanks : ',' ∉ before ++ between ++ gap ++ after := notMem_blanks hblank (by decide)
    simp only [List.mem_append, not_or] at hblanks
    simp only [line, List.mem_append, List.mem_cons, not_or]
    exact ⟨hblanks.1.1.1, ⟨(notMem_name entry.key entry.key.mem_all).1, hblanks.1.1.2, by decide,
      hblanks.1.2, hcut⟩, hblanks.2⟩
  have hparts : parts (before ++ (entry.line between gap ++ after)) =
      [String.ofList (entry.line between gap)] := by
    rw [parts, List.splitOn_eq_singleton hcomma, List.map_singleton, trim_line entry hblank]
  have hone : lastRead key [String.ofList (entry.line between gap)] =
      key.readAs (String.ofList (entry.line between gap)) := by
    show List.findSome? key.readAs [_] = _
    rw [List.findSome?_cons]
    cases key.readAs (String.ofList (entry.line between gap)) <;> rfl
  show lastRead key (parts (before ++ (entry.line between gap ++ after))) = _
  rw [hparts, hone]
  split_ifs with hsame
  · rw [hsame, FirewallKey.readAs, if_pos (startsWith_line entry between gap)]
    exact read_line hcut fun c hc ↦ hblank c (by
      simp only [List.mem_append] at hc ⊢
      tauto)
  · exact readAs_of_ne (startsWith_line entry between gap) hsame

end FirewallEntry

/-! ### The items of a list -/

section Count

variable {p : Char → Bool} (hp : ∀ c, p c = true → isWhitespace c = false ∧ c ≠ ',')

include hp

theorem countP_dropWhile (text : List Char) :
    (text.dropWhile isWhitespace).countP p = text.countP p := by
  induction text with
  | nil => rfl
  | cons c rest ih =>
    by_cases hc : isWhitespace c = true
    · have hnot : ¬ p c = true := fun h ↦ absurd hc (Bool.eq_false_iff.mp (hp c h).1)
      rw [List.dropWhile_cons_of_pos hc, ih, List.countP_cons_of_neg hnot]
    · rw [List.dropWhile_cons_of_neg hc]

theorem countP_trim (text : List Char) : (trim text).countP p = text.countP p := by
  unfold trim
  rw [List.countP_reverse, countP_dropWhile hp, List.countP_reverse, countP_dropWhile hp]

theorem countP_intercalate (texts : List (List Char)) :
    ([','].intercalate texts).countP p = texts.flatten.countP p := by
  have hcomma : ¬ p ',' = true := fun h ↦ (hp ',' h).2 rfl
  induction texts with
  | nil => rfl
  | cons text rest ih =>
    cases rest with
    | nil => rw [List.intercalate_singleton, List.flatten_singleton]
    | cons next rest =>
      rw [List.intercalate_cons_cons, List.flatten_cons, List.countP_append, List.countP_append,
        ih, List.countP_append, List.countP_singleton, if_neg hcomma, Nat.add_zero]

/-- The items have all characters of a text that are neither white space nor commas. -/
theorem countP_csvItems (text : List Char) : (csvItems text).flatten.countP p = text.countP p := by
  have hitems (texts : List (List Char)) :
      ((texts.map trim).filter (· ≠ [])).flatten.countP p = texts.flatten.countP p := by
    induction texts with
    | nil => rfl
    | cons text rest ih =>
      rw [List.map_cons, List.flatten_cons, List.countP_append, ← ih, ← countP_trim hp text,
        List.filter_cons]
      split_ifs with hne
      · rw [List.flatten_cons, List.countP_append]
      · rw [decide_eq_true_eq, not_not] at hne
        rw [hne, List.countP_nil, Nat.zero_add]
  rw [csvItems, hitems, ← countP_intercalate hp, List.intercalate_splitOn]

end Count

theorem visible_spec (c : Char) (h : visible c = true) : isWhitespace c = false ∧ c ≠ ',' := by
  simpa [visible] using h

theorem quote_spec (c : Char) (h : (c == '"') = true) : isWhitespace c = false ∧ c ≠ ',' := by
  rw [beq_iff_eq.mp h]
  decide

/-! ### Entries with a comma -/

theorem infix_intercalate {part : List Char} {texts : List (List Char)} (h : part ∈ texts) :
    part <:+: [','].intercalate texts := by
  induction texts with
  | nil => exact absurd h List.not_mem_nil
  | cons text rest ih =>
    cases rest with
    | nil =>
      obtain rfl := List.mem_singleton.mp h
      have hone : [','].intercalate [part] = part := List.intercalate_singleton
      exact hone.symm ▸ List.infix_rfl
    | cons next rest =>
      rw [List.intercalate_cons_cons]
      rcases List.mem_cons.mp h with rfl | h
      · rw [List.append_assoc]
        exact (List.prefix_append _ _).isInfix
      · exact (ih h).trans (List.suffix_append _ _).isInfix

theorem count_le_of_mem_splitOn {part text : List Char} (h : part ∈ text.splitOn ',') (c : Char) :
    part.count c ≤ text.count c := by
  have hinfix := infix_intercalate h
  rw [List.intercalate_splitOn] at hinfix
  exact hinfix.sublist.count_le c

theorem splitOn_append {front : List Char} (h : ',' ∉ front) (text : List Char) :
    (front ++ text).splitOn ',' = (text.splitOn ',').modifyHead (front ++ ·) := by
  induction front with
  | nil =>
    show text.splitOn ',' = (text.splitOn ',').modifyHead id
    rw [List.modifyHead_id]
    rfl
  | cons c front ih =>
    obtain ⟨hc, hfront⟩ := not_or.mp (fun h' ↦ h (List.mem_cons.mpr h'))
    rw [List.cons_append, List.splitOn_cons_eq_if_modifyHead, if_neg (by simpa using Ne.symm hc),
      ih hfront, List.modifyHead_modifyHead]
    rfl

/-- In white space, a text goes on with a backslash or a quote. -/
def Headed (text : List Char) : Prop :=
  ∀ c ∈ (text.dropWhile isWhitespace).head?, c = '\\' ∨ c = '"'

theorem headed_cons {c : Char} (h : c = '\\' ∨ c = '"') (text : List Char) :
    Headed (c :: text) := by
  intro d hd
  have hspace : ¬ isWhitespace c = true := by
    rcases h with rfl | rfl <;> decide
  rw [List.dropWhile_cons_of_neg hspace] at hd
  exact Option.some.inj hd ▸ h

/-- The parts of white space, commas and escapes, behind which there is a quote. -/
theorem headed_of_mem_splitOn {chunks : List (List Char)} {back : List Char} (hback : ',' ∉ back)
    (h : ∀ chunk ∈ chunks, (∃ c, (isWhitespace c = true ∨ c = ',') ∧ chunk = [c]) ∨
      ∃ code, chunk = '\\' :: code ∧ ',' ∉ code) {part : List Char}
    (hpart : part ∈ (chunks.flatten ++ '"' :: back).splitOn ',') : Headed part := by
  induction chunks generalizing part with
  | nil =>
    rw [List.flatten_nil, List.nil_append, List.splitOn_eq_singleton
      (List.not_mem_cons_of_ne_of_not_mem (by decide) hback), List.mem_singleton] at hpart
    rw [hpart]
    exact headed_cons (Or.inr rfl) back
  | cons chunk rest ih =>
    have hrest : ∀ part ∈ (rest.flatten ++ '"' :: back).splitOn ',', Headed part :=
      fun part hmem ↦ ih (fun chunk hchunk ↦ h chunk (List.mem_cons_of_mem _ hchunk)) hmem
    rw [List.flatten_cons, List.append_assoc] at hpart
    obtain ⟨head, tail, hsplit⟩ := List.exists_cons_of_ne_nil
      (List.splitOn_ne_nil ',' (rest.flatten ++ '"' :: back))
    rw [hsplit] at hrest
    have htail : ∀ part ∈ tail, Headed part := fun part hmem ↦
      hrest part (List.mem_cons_of_mem head hmem)
    rcases h chunk List.mem_cons_self with ⟨c, hspace | rfl, rfl⟩ | ⟨code, rfl, hcode⟩
    · have hc : ',' ∉ [c] := by
        intro hmem
        rw [← List.mem_singleton.mp hmem] at hspace
        exact absurd hspace (by decide)
      rw [splitOn_append hc, hsplit, List.modifyHead_cons] at hpart
      rcases List.mem_cons.mp hpart with rfl | hpart
      · intro d hd
        rw [List.singleton_append, List.dropWhile_cons_of_pos hspace] at hd
        exact hrest head List.mem_cons_self d hd
      · exact htail part hpart
    · rw [List.singleton_append, List.splitOn_cons_eq_if_modifyHead, if_pos (by rfl),
        hsplit] at hpart
      rcases List.mem_cons.mp hpart with rfl | hpart
      · exact fun d hd ↦ absurd hd nofun
      · exact hrest part hpart
    · have hc : ',' ∉ '\\' :: code := List.not_mem_cons_of_ne_of_not_mem (by decide) hcode
      rw [splitOn_append hc, hsplit, List.modifyHead_cons] at hpart
      rcases List.mem_cons.mp hpart with rfl | hpart
      · exact headed_cons (Or.inl rfl) _
      · exact htail part hpart

theorem prefix_of_startsWith {part : List Char} {key : FirewallKey}
    (h : startsWith (String.ofList (trim part)) key.name = true) :
    key.name.toList <+: part.dropWhile isWhitespace := by
  rw [startsWith, String.toList_ofList] at h
  have htrim : trim part <+: part.dropWhile isWhitespace := by
    have hsuffix := List.dropWhile_suffix (l := (part.dropWhile isWhitespace).reverse) isWhitespace
    have hprefix := List.reverse_prefix.mpr hsuffix
    rwa [List.reverse_reverse] at hprefix
  exact (List.isPrefixOf_iff_prefix.mp h).trans htrim

/-- Such a part begins with no key. -/
theorem not_startsWith_of_headed {part : List Char} (h : Headed part) (key : FirewallKey) :
    startsWith (String.ofList (trim part)) key.name = false := by
  refine Bool.eq_false_of_not_eq_true fun hstart ↦ ?_
  obtain ⟨c, hc, hhead⟩ := head?_name key key.mem_all
  obtain ⟨rest, hrest⟩ := prefix_of_startsWith hstart
  have hd : c ∈ (part.dropWhile isWhitespace).head? := by
    rw [← hrest, List.head?_append, hhead]
    rfl
  rcases h c hd with rfl | rfl <;> exact absurd hc (by decide)

section Cut

variable {key : ListKey} {literal : StrLiteral} (hcomma : ',' ∈ literal.body) {text : List Char}
  (h : Spaced (FirewallEntry.list key literal).tokens text)

include h in
/-- What stands in front of a literal and behind it has one quote each, and no comma. -/
theorem exists_of_spaced_list : ∃ front back : List Char,
    text = front ++ (literal.body ++ '"' :: back) ∧ ',' ∉ front ∧ ',' ∉ back ∧
      front.count '"' = 1 ∧ back.count '"' = 0 ∧
      ∀ rest, key.key.name.toList <+: (front ++ rest).dropWhile isWhitespace := by
  obtain ⟨before, between, gap, after, hblank, rfl⟩ := exists_of_spaced_entry h
  obtain ⟨hnameComma, hnameQuote, -⟩ := notMem_name key.key key.key.mem_all
  obtain ⟨hstart, hhashes⟩ := quote_notMem_around literal
  have hcomma : ',' ∉ before ++ between ++ gap ++ after := notMem_blanks hblank (by decide)
  have hquote : '"' ∉ before ++ between ++ gap ++ after := notMem_blanks hblank (by decide)
  obtain ⟨hstartComma, hhashesComma⟩ := comma_notMem_around literal
  simp only [List.mem_append, not_or] at hcomma hquote
  refine ⟨before ++ (key.key.name.toList ++ (between ++ '=' :: (gap ++ (literal.start ++ ['"'])))),
    literal.hashes ++ after, ?_, ?_, ?_, ?_, ?_, fun rest ↦ ?_⟩
  · simp [FirewallEntry.key, FirewallEntry.valueText, StrLiteral.token]
  · simp [hcomma, hnameComma, hstartComma]
  · simp [hcomma, hhashesComma]
  · simp [hquote, hnameQuote, hstart, List.count_eq_zero_of_not_mem]
  · exact List.count_eq_zero_of_not_mem (by simp [hquote, hhashes])
  · obtain ⟨c, hc, hhead⟩ := head?_name key.key key.key.mem_all
    obtain ⟨name, hname⟩ : ∃ name, key.key.name.toList = c :: name :=
      ⟨_, List.eq_cons_of_mem_head? hhead⟩
    have hspace : ¬ isWhitespace c = true := by
      simp only [List.mem_cons, List.not_mem_nil, or_false] at hc
      rcases hc with rfl | rfl | rfl | rfl | rfl <;> decide
    rw [List.append_assoc, dropWhile_append_of_all fun c hc ↦ hblank c (by simp [hc]), hname,
      List.append_assoc, List.cons_append, List.dropWhile_cons_of_neg hspace, ← List.cons_append]
    exact List.prefix_append _ _

include hcomma h in
/-- A part has at most one of the two quotes around the literal. -/
theorem count_quote_part_le {part : List Char} (hpart : part ∈ text.splitOn ',') :
    part.count '"' ≤ literal.body.count '"' + 1 := by
  obtain ⟨front, back, rfl, -, -, hfront, hback, -⟩ := exists_of_spaced_list h
  obtain ⟨first, rest, hbody⟩ := List.append_of_mem hcomma
  have hcount : literal.body.count '"' = first.count '"' + rest.count '"' := by
    rw [hbody, List.count_append, List.count_cons_of_ne (by decide)]
  have htext : front ++ (literal.body ++ '"' :: back) =
      (front ++ first) ++ ',' :: (rest ++ '"' :: back) := by
    rw [hbody]
    simp
  rw [htext, List.splitOn_append_cons_self] at hpart
  rcases List.mem_append.mp hpart with hpart | hpart
  · have hle := count_le_of_mem_splitOn hpart '"'
    rw [List.count_append, hfront] at hle
    omega
  · have hle := count_le_of_mem_splitOn hpart '"'
    rw [List.count_append, List.count_cons_self, hback] at hle
    omega

include hcomma h in
/-- What a part of the text sets a list to has fewer quotes than the literal. -/
theorem count_quote_of_read {token : String} (htoken : token ∈ parts text) {value : String}
    (hread : extractStringValue token = some value) :
    value.toList.count '"' < literal.value.count '"' := by
  obtain ⟨part, hpart, rfl⟩ := List.mem_map.mp htoken
  obtain ⟨front, back, -, -, hsplit⟩ := extractStringValue_eq_some_iff.mp hread
  rw [String.toList_ofList] at hsplit
  have htrim : (trim part).count '"' = part.count '"' := countP_trim quote_spec part
  have hpart := count_quote_part_le hcomma h hpart
  have hbody := count_quote_body_le literal
  rw [← htrim, hsplit, List.count_append, List.count_cons_self, List.count_append,
    List.count_cons_self] at hpart
  omega

include hcomma h in
/-- A list without items sets nothing. -/
theorem readAs_of_no_items (hitems : csvItems literal.value = []) (key' : FirewallKey)
    {token : String} (htoken : token ∈ parts text) : key'.readAs token = none := by
  have hnone : literal.value.countP visible = 0 := by
    rw [← countP_csvItems visible_spec, hitems]
    rfl
  have hquote : literal.value.count '"' = 0 := by
    rw [List.count, ← countP_csvItems quote_spec, hitems]
    rfl
  have hlist : extractStringValue token = none := by
    refine Option.eq_none_iff_forall_ne_some.mpr fun value hread ↦ ?_
    have hless := count_quote_of_read hcomma h htoken hread
    omega
  obtain ⟨part, hpart, rfl⟩ := List.mem_map.mp htoken
  obtain ⟨front, back, rfl, hfront, hback, -, -, hstart⟩ := exists_of_spaced_list h
  obtain ⟨chunks, hbody, hchunks⟩ := exists_chunks literal
  have hchunks : ∀ chunk ∈ chunks, (∃ c, (isWhitespace c = true ∨ c = ',') ∧ chunk = [c]) ∨
      ∃ code, chunk = '\\' :: code ∧ ',' ∉ code := by
    intro chunk hchunk
    refine (hchunks chunk hchunk).imp_left ?_
    rintro ⟨c, hc, rfl⟩
    have hhidden := List.countP_eq_zero.mp hnone c hc
    refine ⟨c, ?_, rfl⟩
    by_cases hspace : isWhitespace c = true
    · exact Or.inl hspace
    · right
      simpa [visible, hspace] using hhidden
  rw [hbody, splitOn_append hfront] at hpart
  obtain ⟨head, tail, hsplit⟩ := List.exists_cons_of_ne_nil
    (List.splitOn_ne_nil ',' (chunks.flatten ++ '"' :: back))
  rw [hsplit, List.modifyHead_cons] at hpart
  rcases List.mem_cons.mp hpart with rfl | hpart
  · by_cases hsame : key' = key.key
    · rw [hsame, FirewallKey.readAs, read_listKey, hlist, Option.map_none, ite_self]
    · exact if_neg fun hkey ↦ hsame (eq_of_prefixes (prefix_of_startsWith hkey) (hstart head))
  · have hmem : part ∈ (chunks.flatten ++ '"' :: back).splitOn ',' :=
      hsplit ▸ List.mem_cons_of_mem head hpart
    have hheaded : Headed part := headed_of_mem_splitOn hback hchunks hmem
    rw [FirewallKey.readAs, not_startsWith_of_headed hheaded, if_neg Bool.false_ne_true]

end Cut

/-! ### What is parsed is what is declared -/

namespace FirewallEntry

/-- The value that an entry declares. -/
def declaredValue : FirewallEntry → FirewallValue
  | enabled value => .switch value
  | list _ literal => .list (splitCsv (String.ofList literal.value))
  | limit _ literal => .limit (some literal.value)

theorem get_declare (entry : FirewallEntry) (fw : FirewallAttributes) (key : FirewallKey) :
    (entry.declare fw).get key = if key = entry.key then entry.declaredValue else fw.get key := by
  cases entry with
  | enabled value => cases key <;> rfl
  | list listKey literal => cases listKey <;> cases key <;> rfl
  | limit limitKey literal => cases limitKey <;> cases key <;> rfl

theorem present_declare (entry : FirewallEntry) (fw : FirewallAttributes) :
    (entry.declare fw).present = fw.present := by
  cases entry with
  | enabled value => rfl
  | list listKey literal => cases listKey <;> rfl
  | limit limitKey literal => cases limitKey <;> rfl

end FirewallEntry

theorem get_foldl_declare_of_notMem {entries : List FirewallEntry} {key : FirewallKey}
    (h : key ∉ entries.map FirewallEntry.key) (fw : FirewallAttributes) :
    (entries.foldl FirewallEntry.declare fw).get key = fw.get key := by
  induction entries generalizing fw with
  | nil => rfl
  | cons entry rest ih =>
    obtain ⟨hne, hrest⟩ := not_or.mp fun h' ↦ h (List.mem_cons.mpr h')
    rw [List.foldl_cons, ih hrest, FirewallEntry.get_declare, if_neg hne]

theorem present_foldl_declare (entries : List FirewallEntry) (fw : FirewallAttributes) :
    (entries.foldl FirewallEntry.declare fw).present = fw.present := by
  induction entries generalizing fw with
  | nil => rfl
  | cons entry rest ih => rw [List.foldl_cons, ih, FirewallEntry.present_declare]

/-- The keys in front of an entry and behind it are other ones. -/
theorem notMem_of_distinct {front rest : List FirewallEntry} {entry : FirewallEntry}
    (h : ((front ++ entry :: rest).map FirewallEntry.key).Nodup) :
    entry.key ∉ front.map FirewallEntry.key ∧ entry.key ∉ rest.map FirewallEntry.key := by
  rw [List.map_append, List.map_cons] at h
  obtain ⟨-, hback, happart⟩ := List.nodup_append.mp h
  exact ⟨fun hmem ↦ happart _ hmem _ List.mem_cons_self rfl, (List.nodup_cons.mp hback).1⟩

theorem get_of_mem_declared {list : FirewallList} {entry : FirewallEntry}
    (h : entry ∈ list.entries) :
    list.declared.get entry.key = entry.declaredValue := by
  have hdistinct := list.distinct
  unfold FirewallList.declared
  obtain ⟨front, rest, hsplit⟩ := List.append_of_mem h
  rw [hsplit] at hdistinct ⊢
  rw [List.foldl_append, List.foldl_cons,
    get_foldl_declare_of_notMem (notMem_of_distinct hdistinct).2, FirewallEntry.get_declare,
    if_pos rfl]

/-- Attributes are their fields. -/
theorem FirewallAttributes.eq_of_get {first second : FirewallAttributes}
    (hpresent : first.present = second.present) (h : ∀ key, first.get key = second.get key) :
    first = second := by
  have henabled := FirewallValue.switch.inj (h .enabled)
  have hallow := FirewallValue.list.inj (h .allow)
  have hdeny := FirewallValue.list.inj (h .deny)
  have hglobal := FirewallValue.limit.inj (h .globalQps)
  have hip := FirewallValue.limit.inj (h .perIpQps)
  have hprotected := FirewallValue.list.inj (h .protectedPrefixes)
  have hexempt := FirewallValue.list.inj (h .exempt)
  exact FirewallAttributes.ext hpresent henabled hallow hdeny hglobal hip hprotected hexempt

/-- The field of a key that is not there. -/
def unset (key : FirewallKey) : FirewallValue :=
  FirewallAttributes.get { present := true } key

theorem splitCsv_inj {first second : List Char}
    (h : splitCsv (String.ofList first) = splitCsv (String.ofList second)) :
    csvItems first = csvItems second := by
  simp only [splitCsv, String.toList_ofList] at h
  exact List.map_injective_iff.mpr (fun _ _ ↦ String.ofList_injective) h

/-- Each entry sets its own key at most. -/
def Separate (pairs : List (FirewallEntry × List Char)) : Prop :=
  ∀ pair ∈ pairs, ∀ key, key ≠ pair.1.key → lastRead key (parts pair.2) = none

theorem Separate.notMem {pairs : List (FirewallEntry × List Char)} (hread : Separate pairs)
    {key : FirewallKey} (h : key ∉ pairs.map fun pair ↦ pair.1.key) :
    lastRead key (pairs.flatMap fun pair ↦ parts pair.2) = none := by
  induction pairs with
  | nil => rfl
  | cons pair rest ih =>
    obtain ⟨hne, hrest⟩ := not_or.mp fun h' ↦ h (List.mem_cons.mpr h')
    rw [List.flatMap_cons, lastRead_append, hread pair List.mem_cons_self key hne, Option.or_none]
    exact ih (fun other hother ↦ hread other (List.mem_cons_of_mem pair hother)) hrest

/-- The key of an entry is read in the text of the entry. -/
theorem Separate.mem {pairs : List (FirewallEntry × List Char)} (hread : Separate pairs)
    (hdistinct : (pairs.map fun pair ↦ pair.1.key).Nodup) {pair : FirewallEntry × List Char}
    (h : pair ∈ pairs) : lastRead pair.1.key (pairs.flatMap fun pair ↦ parts pair.2) =
      lastRead pair.1.key (parts pair.2) := by
  obtain ⟨front, rest, rfl⟩ := List.append_of_mem h
  rw [List.map_append, List.map_cons] at hdistinct
  obtain ⟨-, hback, happart⟩ := List.nodup_append.mp hdistinct
  have hfront : Separate front := fun other hother ↦ hread other (List.mem_append_left _ hother)
  have hrest : Separate rest := fun other hother ↦
    hread other (List.mem_append_right _ (List.mem_cons_of_mem _ hother))
  rw [List.flatMap_append, List.flatMap_cons, lastRead_append, lastRead_append,
    hfront.notMem fun hmem ↦ happart _ hmem _ List.mem_cons_self rfl,
    hrest.notMem (List.nodup_cons.mp hback).1, Option.or_none, Option.none_or]

/-- Lists with a comma have no items. -/
def CutEmpty (entries : List FirewallEntry) : Prop :=
  ∀ key literal, FirewallEntry.list key literal ∈ entries → ',' ∈ literal.body →
    csvItems literal.value = []

/-- What is read in the text of an entry. -/
theorem lastRead_entry {entry : FirewallEntry} {text : List Char} (h : Spaced entry.tokens text)
    (hempty : ∀ key literal, entry = .list key literal → ',' ∈ literal.body →
      csvItems literal.value = []) (key : FirewallKey) :
    lastRead key (parts text) = if key = entry.key then entry.readValue else none := by
  by_cases hcut : entry.Cut
  · obtain ⟨listKey, literal, rfl, hcomma⟩ := entry.cut_iff.mp hcut
    have hnone : lastRead key (parts text) = none := lastRead_eq_none fun token htoken ↦
      readAs_of_no_items hcomma h (hempty listKey literal rfl hcomma) key htoken
    rw [hnone, FirewallEntry.readValue, if_pos hcomma, ite_self]
  · exact FirewallEntry.lastRead_of_not_cut hcut h key

/-- A number is read if it has only digits, and 64 bits. -/
theorem parseUnsigned_literal (literal : IntegerLiteral) : parseUnsigned 64 literal.text =
    if literal.text.all Char.isDigit = true ∧ literal.value < 2 ^ 64 then some literal.value
    else none := by
  obtain ⟨text, value, hfirst, -, hdecimal⟩ := literal
  have hsign : withoutSign text = text := by
    unfold withoutSign
    split
    · have hplus : Char.isDigit '+' = true := hfirst
      exact absurd hplus (by decide)
    · rfl
  have hne : text ≠ [] := by
    rintro rfl
    exact absurd hfirst Bool.false_ne_true
  unfold parseUnsigned
  rw [hsign]
  simp only [hne, false_or]
  by_cases hdigits : text.all Char.isDigit = true
  · rw [if_neg (by simp [hdigits]), ← hdecimal hdigits]
    simp [Option.filter, hdigits]
  · rw [if_pos (Bool.eq_false_of_not_eq_true hdigits), if_neg fun h ↦ hdigits h.1]

/-- A value that is read, or what is there without one, is the declared one if the entry is
legible. -/
theorem readValue_iff {entry : FirewallEntry} :
    entry.readValue.getD (unset entry.key) = entry.declaredValue ↔ entry.Legible := by
  cases entry with
  | enabled value => exact iff_of_true rfl trivial
  | list key literal =>
    have hunset : unset key.key = .list [] := by cases key <;> rfl
    show (FirewallEntry.readValue _).getD (unset key.key) = .list _ ↔ _
    rw [hunset, FirewallEntry.readValue, FirewallEntry.Legible]
    split_ifs with hcomma
    · rw [Option.getD_none, FirewallValue.list.injEq, eq_comm, splitCsv, String.toList_ofList,
        List.map_eq_nil_iff]
    · rw [Option.getD_some, FirewallValue.list.injEq]
      refine ⟨fun h ↦ (count_visible_lt literal).resolve_right fun hless ↦ ?_, fun h ↦ by rw [h]⟩
      have hcount := congrArg (fun items ↦ (List.flatten items).countP visible) (splitCsv_inj h)
      simp only [countP_csvItems visible_spec] at hcount
      omega
  | limit key literal =>
    have hunset : unset key.key = .limit none := by cases key <;> rfl
    show (FirewallEntry.readValue _).getD (unset key.key) = .limit _ ↔ _
    rw [hunset, FirewallEntry.readValue, FirewallEntry.Legible, parseUnsigned_literal]
    split_ifs with hplain
    · exact iff_of_true rfl hplain
    · exact iff_of_false nofun hplain

section Parsed

variable {list : FirewallList} {pairs : List (FirewallEntry × List Char)} (htexts : Texts pairs)
  (hentries : pairs.map Prod.fst = list.entries) {fw : FirewallAttributes}
  (hget : ∀ key, fw.get key =
    (lastRead key (pairs.flatMap fun pair ↦ parts pair.2)).getD (unset key))

include hentries in
theorem keys_nodup : (pairs.map fun pair ↦ pair.1.key).Nodup := by
  have hkeys : pairs.map (fun pair ↦ pair.1.key) = list.entries.map FirewallEntry.key := by
    rw [← hentries, List.map_map]
    rfl
  rw [hkeys]
  exact list.distinct

include htexts hentries hget in
/-- A list with a comma and items that is set is set by a part of a longer one. -/
theorem exists_longer (hsame : fw = list.declared) {key : ListKey} {literal : StrLiteral}
    (hmem : .list key literal ∈ list.entries) (hcomma : ',' ∈ literal.body)
    (hitems : csvItems literal.value ≠ []) : ∃ longer written,
      .list longer written ∈ list.entries ∧ ',' ∈ written.body ∧
        literal.value.count '"' < written.value.count '"' := by
  have hvalue : (lastRead key.key (pairs.flatMap fun pair ↦ parts pair.2)).getD (unset key.key) =
      .list (splitCsv (String.ofList literal.value)) := by
    rw [← hget, hsame]
    exact get_of_mem_declared hmem
  have hunset : unset key.key = .list [] := by cases key <;> rfl
  have hread : lastRead key.key (pairs.flatMap fun pair ↦ parts pair.2) =
      some (.list (splitCsv (String.ofList literal.value))) := by
    cases hlast : lastRead key.key (pairs.flatMap fun pair ↦ parts pair.2) with
    | some value =>
      rw [hlast, Option.getD_some] at hvalue
      rw [hvalue]
    | none =>
      rw [hlast, Option.getD_none, hunset, FirewallValue.list.injEq, eq_comm, splitCsv,
        String.toList_ofList, List.map_eq_nil_iff] at hvalue
      exact absurd hvalue hitems
  obtain ⟨token, htoken, htokenRead⟩ := exists_of_lastRead hread
  obtain ⟨pair, hpair, htoken⟩ := List.mem_flatMap.mp htoken
  have hpairMem : pair.1 ∈ list.entries := hentries ▸ List.mem_map_of_mem hpair
  have hcut : pair.1.Cut := by
    by_contra hcut
    have hlast := FirewallEntry.lastRead_of_not_cut hcut (htexts pair hpair) key.key
    by_cases hkey : key.key = pair.1.key
    · have hentry : .list key literal = pair.1 :=
        List.inj_on_of_nodup_map list.distinct hmem hpairMem hkey
      exact hcut (hentry ▸ (FirewallEntry.cut_iff _).mpr ⟨key, literal, rfl, hcomma⟩)
    · rw [if_neg hkey] at hlast
      have hnone := List.findSome?_eq_none_iff.mp hlast token (List.mem_reverse.mpr htoken)
      rw [hnone] at htokenRead
      exact absurd htokenRead nofun
  obtain ⟨longer, written, hlist, hwritten⟩ := pair.1.cut_iff.mp hcut
  refine ⟨longer, written, hlist ▸ hpairMem, hwritten, ?_⟩
  unfold FirewallKey.readAs at htokenRead
  split_ifs at htokenRead
  rw [read_listKey] at htokenRead
  obtain ⟨value, hextract, hsplit⟩ := Option.map_eq_some_iff.mp htokenRead
  have hspaced := htexts pair hpair
  rw [hlist] at hspaced
  have hless := count_quote_of_read hwritten hspaced htoken hextract
  rw [FirewallValue.list.injEq, ← String.ofList_toList (s := value)] at hsplit
  have hcount := congrArg (fun items ↦ (List.flatten items).countP (· == '"')) (splitCsv_inj hsplit)
  simp only [countP_csvItems quote_spec] at hcount
  rw [List.count, ← hcount]
  exact hless

include htexts hentries hget in
/-- What is parsed is declared only if no list with a comma has items: there is no longest one. -/
theorem cutEmpty_of_eq (hsame : fw = list.declared) : CutEmpty list.entries := by
  intro key literal hmem hcomma
  by_contra hitems
  have hgrow (n : ℕ) : ∃ longer written, FirewallEntry.list longer written ∈ list.entries ∧
      ',' ∈ written.body ∧ csvItems written.value ≠ [] ∧ n ≤ written.value.count '"' := by
    induction n with
    | zero => exact ⟨key, literal, hmem, hcomma, hitems, Nat.zero_le _⟩
    | succ n ih =>
      obtain ⟨shorter, text, hshorter, htext, hsome, hn⟩ := ih
      obtain ⟨longer, written, hlonger, hwritten, hless⟩ :=
        exists_longer htexts hentries hget hsame hshorter htext hsome
      refine ⟨longer, written, hlonger, hwritten, fun hnone ↦ ?_, by omega⟩
      have hzero : written.value.count '"' = 0 := by
        rw [List.count, ← countP_csvItems quote_spec, hnone]
        rfl
      omega
  have hbound (entries : List FirewallEntry) : ∃ n, ∀ key literal,
      FirewallEntry.list key literal ∈ entries → literal.value.count '"' < n := by
    induction entries with
    | nil => exact ⟨0, fun _ _ h ↦ absurd h List.not_mem_nil⟩
    | cons entry rest ih =>
      obtain ⟨n, hn⟩ := ih
      cases entry with
      | enabled | limit =>
        exact ⟨n, fun key literal h ↦ hn key literal ((List.mem_cons.mp h).resolve_left nofun)⟩
      | list first written =>
        refine ⟨max n (written.value.count '"' + 1), fun key literal h ↦ ?_⟩
        rcases List.mem_cons.mp h with h | h
        · obtain ⟨-, rfl⟩ := FirewallEntry.list.inj h
          omega
        · have hless := hn key literal h
          omega
  obtain ⟨n, hn⟩ := hbound list.entries
  obtain ⟨longer, written, hlonger, -, -, hle⟩ := hgrow n
  exact absurd (hn longer written hlonger) (by omega)

include htexts hentries in
theorem separate_of_cutEmpty (hempty : CutEmpty list.entries) : Separate pairs := by
  intro pair hpair key hne
  have hmem : pair.1 ∈ list.entries := hentries ▸ List.mem_map_of_mem hpair
  rw [lastRead_entry (htexts pair hpair) (fun key literal heq hcomma ↦
    hempty key literal (heq ▸ hmem) hcomma), if_neg hne]

include htexts hentries hget in
/-- If no list with a comma has items, each entry sets its own key to what is read in it. -/
theorem get_of_cutEmpty (hempty : CutEmpty list.entries) {entry : FirewallEntry}
    (h : entry ∈ list.entries) :
    fw.get entry.key = entry.readValue.getD (unset entry.key) := by
  rw [← hentries] at h
  obtain ⟨pair, hpair, rfl⟩ := List.mem_map.mp h
  have hmem : pair.1 ∈ list.entries := hentries ▸ List.mem_map_of_mem hpair
  rw [hget, (separate_of_cutEmpty htexts hentries hempty).mem (keys_nodup hentries) hpair,
    lastRead_entry (htexts pair hpair) (fun key literal heq hcomma ↦
      hempty key literal (heq ▸ hmem) hcomma), if_pos rfl]

end Parsed

theorem foldl_parseFirewall_of_others {attrs : List Attribute}
    (h : ∀ attr ∈ attrs, attr.ident ≠ some "firewall") (fw : FirewallAttributes) :
    attrs.foldl (parseFirewall tokensText) fw = fw := by
  induction attrs generalizing fw with
  | nil => rfl
  | cons attr rest ih =>
    rw [List.foldl_cons, parseFirewall, if_neg (h attr List.mem_cons_self)]
    exact ih (fun other hother ↦ h other (List.mem_cons_of_mem attr hother)) fw

variable {tokensText}

/-- A struct with one such attribute is read in the texts of its entries. -/
theorem exists_read {list : FirewallList}
    (hspaced : Spaced list.tokens (tokensText list.tokens).toList) {before after : List Attribute}
    (hothers : ∀ attr ∈ before ++ after, attr.ident ≠ some "firewall") :
    (parseFirewallAttributes tokensText (before ++ list.attribute :: after)).present = true ∧
      ∃ pairs, Texts pairs ∧ pairs.map Prod.fst = list.entries ∧ ∀ key,
        (parseFirewallAttributes tokensText (before ++ list.attribute :: after)).get key =
          (lastRead key (pairs.flatMap fun pair ↦ parts pair.2)).getD (unset key) := by
  have hparsed : parseFirewallAttributes tokensText (before ++ list.attribute :: after) =
      (parts (tokensText list.tokens).toList).foldl scanFirewall { present := true } := by
    rw [parseFirewallAttributes, List.foldl_append, List.foldl_cons,
      foldl_parseFirewall_of_others _ fun attr h ↦ hothers attr (List.mem_append_left _ h),
      foldl_parseFirewall_of_others _ fun attr h ↦ hothers attr (List.mem_append_right _ h)]
    exact if_pos rfl
  obtain ⟨pairs, htexts, hentries, hread⟩ := exists_texts hspaced
  rw [hparsed, present_foldl_scanFirewall]
  refine ⟨rfl, pairs, htexts, hentries, fun key ↦ ?_⟩
  rw [get_foldl_scanFirewall, hread]
  rfl

/-- The attribute is parsed as it is declared exactly when all its entries are legible. -/
theorem parseFirewallAttributes_eq_declared_iff {list : FirewallList}
    (hspaced : Spaced list.tokens (tokensText list.tokens).toList) {before after : List Attribute}
    (hothers : ∀ attr ∈ before ++ after, attr.ident ≠ some "firewall") :
    parseFirewallAttributes tokensText (before ++ list.attribute :: after) = list.declared ↔
      ∀ entry ∈ list.entries, entry.Legible := by
  obtain ⟨hpresent, pairs, htexts, hentries, hget⟩ := exists_read hspaced hothers
  constructor
  · intro hsame entry hentry
    have hempty := cutEmpty_of_eq htexts hentries hget hsame
    have hvalue := get_of_cutEmpty htexts hentries hget hempty hentry
    rw [hsame, get_of_mem_declared hentry] at hvalue
    exact readValue_iff.mp hvalue.symm
  · intro hlegible
    have hempty : CutEmpty list.entries := fun key literal hmem hcomma ↦ by
      have hlist := hlegible _ hmem
      rwa [FirewallEntry.Legible, if_pos hcomma] at hlist
    refine FirewallAttributes.eq_of_get ?_ fun key ↦ ?_
    · rw [hpresent]
      exact (present_foldl_declare list.entries { present := true }).symm
    · by_cases hkey : key ∈ list.entries.map FirewallEntry.key
      · obtain ⟨entry, hentry, rfl⟩ := List.mem_map.mp hkey
        rw [get_of_cutEmpty htexts hentries hget hempty hentry, get_of_mem_declared hentry]
        exact readValue_iff.mpr (hlegible entry hentry)
      · have hpairs : key ∉ pairs.map fun pair ↦ pair.1.key := by
          rw [← hentries, List.map_map] at hkey
          exact hkey
        rw [hget, (separate_of_cutEmpty htexts hentries hempty).notMem hpairs]
        exact (get_foldl_declare_of_notMem hkey _).symm

/-- Tokens with one blank between them. -/
def spacedText : List Token → List Char
  | [] => []
  | [token] => token.toString.toList
  | token :: next :: rest => token.toString.toList ++ ' ' :: spacedText (next :: rest)

theorem spaced_spacedText (tokens : List Token) {blanks : List Char}
    (h : ∀ c ∈ blanks, isWhitespace c = true) : Spaced tokens (blanks ++ spacedText tokens) := by
  induction tokens using spacedText.induct generalizing blanks with
  | case1 => exact .nil _ fun c hc ↦ h c (by simpa [spacedText] using hc)
  | case2 token =>
    have hone := Spaced.cons blanks h token (.nil [] fun c hc ↦ absurd hc List.not_mem_nil)
    rwa [List.append_nil] at hone
  | case3 token next rest ih =>
    have hblank : ∀ c ∈ [' '], isWhitespace c = true := forall_of_all (by decide)
    exact .cons blanks h token (ih hblank)

/-- A printer that puts one blank between tokens. -/
def printSpaced (tokens : List Token) : String := String.ofList (spacedText tokens)

theorem spaced_printSpaced (tokens : List Token) : Spaced tokens (printSpaced tokens).toList := by
  have hnone : ∀ c ∈ ([] : List Char), isWhitespace c = true := fun c hc ↦
    absurd hc List.not_mem_nil
  rw [printSpaced, String.toList_ofList]
  exact spaced_spacedText tokens hnone

theorem no_others : ∀ attr ∈ ([] ++ [] : List Attribute), attr.ident ≠ some "firewall" :=
  fun _ hattr ↦ absurd hattr List.not_mem_nil

/-- A firewall with a limit and these exempt prefixes. -/
def exempting (literal : StrLiteral) : FirewallList where
  entries := [.enabled true, .list .exempt literal,
    .limit .globalQps ⟨['3'], 3, rfl, forall_of_all (by decide), fun _ ↦ rfl⟩]
  trailingComma := false
  distinct := (by decide : [FirewallKey.enabled, .exempt, .globalQps].Nodup)

theorem plain_status : ∀ c ∈ "/status".toList, c ≠ '"' ∧ c ≠ '\\' :=
  forall_of_all (by decide)

/-- One prefix is read. -/
theorem parseFirewallAttributes_exempting_one : parseFirewallAttributes printSpaced
    [(exempting (.plain "/status".toList plain_status)).attribute] =
      (exempting (.plain "/status".toList plain_status)).declared := by
  obtain ⟨hbody, hvalue⟩ := StrLiteral.body_plain "/status".toList plain_status
  generalize StrLiteral.plain "/status".toList plain_status = literal at hbody hvalue ⊢
  refine (parseFirewallAttributes_eq_declared_iff (spaced_printSpaced _) no_others).mpr ?_
  intro entry hentry
  simp only [exempting, List.mem_cons, List.not_mem_nil, or_false] at hentry
  rcases hentry with rfl | rfl | rfl
  · trivial
  · have hcomma : ',' ∉ literal.body := by
      rw [hbody]
      decide
    rw [FirewallEntry.Legible, if_neg hcomma, hbody, hvalue]
  · exact ⟨rfl, by decide⟩

/-- A list of two prefixes is not read. -/
theorem not_parseFirewallAttributes_eq_declared : ¬ ∀ (tokensText : List Token → String)
    (list : FirewallList) (before after : List Attribute),
    Spaced list.tokens (tokensText list.tokens).toList →
      (∀ attr ∈ before ++ after, attr.ident ≠ some "firewall") →
        parseFirewallAttributes tokensText (before ++ list.attribute :: after) =
          list.declared := by
  intro h
  have hplain : ∀ c ∈ "/status,/health".toList, c ≠ '"' ∧ c ≠ '\\' :=
    forall_of_all (by decide)
  obtain ⟨hbody, hvalue⟩ := StrLiteral.body_plain "/status,/health".toList hplain
  generalize StrLiteral.plain "/status,/health".toList hplain = literal at hbody hvalue
  have hspaced := spaced_printSpaced (exempting literal).tokens
  obtain ⟨-, pairs, htexts, hentries, hget⟩ := exists_read hspaced no_others
  have hempty := cutEmpty_of_eq htexts hentries hget (h _ _ [] [] hspaced no_others)
  have hmem : .list .exempt literal ∈ (exempting literal).entries :=
    List.mem_cons_of_mem _ List.mem_cons_self
  have hnone := hempty .exempt literal hmem (by rw [hbody]; decide)
  rw [hvalue] at hnone
  exact absurd hnone (by decide)

end Lithair.Derive
