import Lithair.Serialization.RoundTrip

/-!
# The grammar of JSON texts and what the parser accepts

`IsText` says that a whole input is a JSON text of RFC 8259, of a tree whose `Tree.value` has the
escapes of its strings decoded and the exponents of its numbers applied. The parser accepts an input
exactly when some front of it is the text, in the style `lenient`, of a tree without exponents
(`parseValue_eq_ok_iff`), whatever stands behind it.

`conforms_iff` says for which inputs the parser does what the grammar says.
-/

namespace Lithair.Serialization.Json

open Lithair.Lib Lithair.Lib.Text Lithair.Lib.Recency

/-! ### What the parser accepts -/

/-- Of the input, the value of its front and what is left of it. -/
def Reads (input : List Char) (v : JsonValue) (rest : List Char) : Prop :=
  ∃ tree : Tree, ∃ lead text, input = lead ++ (text ++ rest) ∧ Gap lenient lead ∧
    tree.Spells lenient text ∧ tree.Clear ∧ ¬ tree.HasExponent ∧ tree.StopsBehind rest ∧
    v = tree.reading

/-- A magnitude that is read is that of a number, which begins with a digit unless it has a sign. -/
theorem exists_numeral_of_parseMagnitude {text : List Char} {magnitude : ℚ≥0}
    (h : parseMagnitude text = some magnitude) (negative : Bool)
    (hbegins : negative = true ∨ ∃ c rest, text = c :: rest ∧ c.isDigit = true) :
    ∃ n : Numeral, n.Digital ∧ n.negative = negative ∧ n.exponent = none ∧
      n.magnitudeText = text ∧ magnitude = decimal n.whole (n.fraction.getD []) := by
  have hwhole : ∀ c ∈ text.takeWhile Char.isDigit, c.isDigit = true :=
    fun c hc ↦ List.mem_takeWhile_imp hc
  have hsplit : text.takeWhile Char.isDigit ++ text.dropWhile Char.isDigit = text :=
    List.takeWhile_append_dropWhile
  have hfirst : text.takeWhile Char.isDigit ≠ [] ∨ negative = true := by
    rcases hbegins with hnegative | ⟨c, rest, rfl, hc⟩
    · exact Or.inr hnegative
    · rw [List.takeWhile_cons_of_pos hc]
      exact Or.inl (List.cons_ne_nil _ _)
  unfold parseMagnitude at h
  simp only at h
  split at h
  · next hrest =>
    split_ifs at h with hnil
    rw [hrest, List.append_nil] at hsplit
    refine ⟨⟨negative, text.takeWhile Char.isDigit, none, none⟩, ⟨?_, hfirst, hwhole, ?_⟩, rfl, rfl,
      (List.append_nil _).trans hsplit, (Option.some.inj h).symm⟩
    · exact List.append_ne_nil_of_left_ne_nil hnil _
    · exact fun digits hdigits ↦ nomatch hdigits
  · next point fraction hrest =>
    split_ifs at h with hcond
    obtain ⟨rfl, hdigits, hne⟩ := hcond
    rw [hrest] at hsplit
    refine ⟨⟨negative, text.takeWhile Char.isDigit, some fraction, none⟩,
      ⟨hne, hfirst, hwhole, ?_⟩, rfl, rfl, hsplit, (Option.some.inj h).symm⟩
    intro digits hsame c hc
    obtain rfl := Option.some.inj hsame
    exact List.all_eq_true.mp hdigits c hc

theorem stops_dropWhile (text : List Char) : Stops (text.dropWhile isNumeric) := by
  intro c hc
  have hfirst := List.head?_dropWhile_not isNumeric text
  rw [Option.mem_def.mp hc] at hfirst
  simpa using hfirst

/-- What is read as a number. -/
theorem exists_numeral_of_parseNumber {c : Char} (hc : c.isDigit = true ∨ c = '-')
    {text rest : List Char} {v : JsonValue} (h : parseNumber (c :: text) = .ok (v, rest)) :
    ∃ n : Numeral, n.Digital ∧ n.exponent = none ∧ c :: text = n.mantissa ++ rest ∧ Stops rest ∧
      v = .number n.reading := by
  by_cases hsign : c = '-'
  · subst hsign
    have hsplit : text.takeWhile isNumeric ++ text.dropWhile isNumeric = text :=
      List.takeWhile_append_dropWhile
    unfold parseNumber at h
    simp only [List.head?_cons, if_true, List.length_singleton, List.drop_one, List.tail_cons,
      List.singleton_append, parseF64] at h
    cases hread : parseMagnitude (text.takeWhile isNumeric) with
    | none =>
      rw [hread] at h
      cases h
    | some magnitude =>
      rw [hread] at h
      obtain ⟨rfl, rfl⟩ := Prod.mk.inj (Except.ok.inj h)
      obtain ⟨n, hn, hnegative, hexponent, htext, rfl⟩ :=
        exists_numeral_of_parseMagnitude hread true (Or.inl rfl)
      refine ⟨n, hn, hexponent, ?_, stops_dropWhile text, by rw [Numeral.reading, hnegative]⟩
      rw [Numeral.mantissa, hnegative, htext, if_pos rfl, List.append_assoc, hsplit]
      rfl
  · have hdigit : c.isDigit = true := hc.resolve_right hsign
    have hhead : (c :: text).head? ≠ some '-' := fun heq ↦ hsign (Option.some.inj heq)
    have hnumeric : isNumeric c = true := isNumeric_of_isDigit hdigit
    have hsplit : (c :: text).takeWhile isNumeric ++ (c :: text).dropWhile isNumeric = c :: text :=
      List.takeWhile_append_dropWhile
    unfold parseNumber at h
    simp only [if_neg hhead, List.length_nil, List.drop_zero, List.nil_append] at h
    have hfirst : (c :: text).takeWhile isNumeric = c :: text.takeWhile isNumeric :=
      List.takeWhile_cons_of_pos hnumeric
    rw [hfirst, parseF64.eq_2 _ (fun text heq ↦ hsign (List.cons.inj heq).1)] at h
    cases hread : parseMagnitude (c :: text.takeWhile isNumeric) with
    | none =>
      rw [hread] at h
      cases h
    | some magnitude =>
      rw [hread] at h
      obtain ⟨rfl, rfl⟩ := Prod.mk.inj (Except.ok.inj h)
      obtain ⟨n, hn, hnegative, hexponent, htext, rfl⟩ :=
        exists_numeral_of_parseMagnitude hread false (Or.inr ⟨c, _, rfl, hdigit⟩)
      refine ⟨n, hn, hexponent, ?_, stops_dropWhile _, by rw [Numeral.reading, hnegative]⟩
      rw [Numeral.mantissa, hnegative, htext, ← hfirst, if_neg Bool.false_ne_true, List.nil_append,
        hsplit]

theorem exists_gap_of_skipWhitespace {text behind : List Char} (h : skipWhitespace text = behind) :
    ∃ gap, text = gap ++ behind ∧ Gap lenient gap := by
  refine ⟨text.takeWhile isWhitespace, ?_, fun c hc ↦ List.mem_takeWhile_imp hc⟩
  rw [← h]
  exact List.takeWhile_append_dropWhile.symm

theorem gap_append {style : Style} {first second : List Char} (hfirst : Gap style first)
    (hsecond : Gap style second) : Gap style (first ++ second) := by
  intro c hc
  rcases List.mem_append.mp hc with hc | hc
  · exact hfirst c hc
  · exact hsecond c hc

namespace Tree

theorem clear_array {items : List Tree} (h : ∀ tree ∈ items, tree.Clear) : (array items).Clear := by
  refine ⟨fun raw hraw ↦ ?_, fun n hn ↦ ?_⟩
  · rw [raws, rawsItems_eq] at hraw
    obtain ⟨tree, htree, hraw⟩ := List.mem_flatMap.mp hraw
    exact (h tree htree).quote_notMem raw hraw
  · rw [numerals, numeralsItems_eq] at hn
    obtain ⟨tree, htree, hn⟩ := List.mem_flatMap.mp hn
    exact (h tree htree).digital n hn

theorem clear_object {members : List (List Char × Tree)}
    (h : ∀ member ∈ members, '"' ∉ member.1 ∧ member.2.Clear) : (object members).Clear := by
  refine ⟨fun raw hraw ↦ ?_, fun n hn ↦ ?_⟩
  · rw [raws, rawsMembers_eq] at hraw
    obtain ⟨member, hmember, hraw⟩ := List.mem_flatMap.mp hraw
    rcases List.mem_cons.mp hraw with rfl | hraw
    · exact (h member hmember).1
    · exact (h member hmember).2.quote_notMem raw hraw
  · rw [numerals, numeralsMembers_eq] at hn
    obtain ⟨member, hmember, hn⟩ := List.mem_flatMap.mp hn
    exact (h member hmember).2.digital n hn

/-- White space in front of the members. -/
theorem spellsMembers_gap {style : Style} {leading : Bool} {members : List (List Char × Tree)}
    (hne : members ≠ []) {inside : List Char} (h : SpellsMembers style leading members inside)
    {gap : List Char} (hgap : Gap style gap) :
    SpellsMembers style leading members (gap ++ inside) := by
  obtain ⟨⟨name, tree⟩, members, rfl⟩ := List.exists_cons_of_ne_nil hne
  obtain ⟨first, value, others, rfl, ⟨before, inner, after, rfl, hbefore, hafter, hinner⟩, hvalue,
    hothers⟩ := spellsMembers_cons h
  rw [← List.append_assoc]
  refine spellsMembers_of_cons ⟨gap ++ before, inner, after, ?_, gap_append hgap hbefore, hafter,
    hinner⟩ hvalue hothers
  rw [List.append_assoc]

end Tree

/-- Of what is in front of a closing bracket, the array of these items behind those before. -/
def ReadsItems (done : List JsonValue) (input : List Char) (v : JsonValue) (rest : List Char) :
    Prop :=
  ∃ (items : List Tree) (inside : List Char), items ≠ [] ∧ input = inside ++ ']' :: rest ∧
    Tree.SpellsItems lenient items inside ∧ (∀ tree ∈ items, tree.Clear ∧ ¬ tree.HasExponent) ∧
    v = .array (done ++ Tree.evalItems verbatim items)

/-- Of what is in front of a closing brace, the object with these fields inserted. -/
def ReadsMembers (leading : Bool) (obj : List (String × JsonValue)) (input : List Char)
    (v : JsonValue) (rest : List Char) : Prop :=
  ∃ (members : List (List Char × Tree)) (inside : List Char), members ≠ [] ∧
    input = inside ++ '\x7d' :: rest ∧ Tree.SpellsMembers lenient leading members inside ∧
    (∀ member ∈ members, '"' ∉ member.1 ∧ member.2.Clear ∧ ¬ member.2.HasExponent) ∧
    v = .object (Tree.evalMembers verbatim obj members)

section Reads

variable {fuel : ℕ} {lead text rest : List Char} {v : JsonValue}

theorem reads_null (hlead : Gap lenient lead) (h : parseNull text = .ok (v, rest)) :
    Reads (lead ++ text) v rest := by
  obtain ⟨rfl, rfl⟩ := parseNull_cases h
  refine ⟨.null, lead, _, rfl, hlead, rfl, ⟨?_, ?_⟩, ?_, trivial, rfl⟩
  · exact fun _ h ↦ absurd h List.not_mem_nil
  · exact fun _ h ↦ absurd h List.not_mem_nil
  · exact fun ⟨_, h, _⟩ ↦ absurd h List.not_mem_nil

theorem reads_bool (hlead : Gap lenient lead) (h : parseBool text = .ok (v, rest)) :
    Reads (lead ++ text) v rest := by
  obtain ⟨b, word, rfl, hword, rfl⟩ : ∃ b word, text = word ++ rest ∧
      (Tree.bool b).Spells lenient word ∧ v = .bool b := by
    rcases parseBool_cases h with ⟨rfl, rfl⟩ | ⟨rfl, rfl⟩
    · exact ⟨true, _, rfl, rfl, rfl⟩
    · exact ⟨false, _, rfl, rfl, rfl⟩
  refine ⟨.bool b, lead, word, rfl, hlead, hword, ⟨?_, ?_⟩, ?_, trivial, rfl⟩
  · exact fun _ h ↦ absurd h List.not_mem_nil
  · exact fun _ h ↦ absurd h List.not_mem_nil
  · exact fun ⟨_, h, _⟩ ↦ absurd h List.not_mem_nil

theorem reads_string (hlead : Gap lenient lead) (h : parseString ('"' :: text) = .ok (v, rest)) :
    Reads (lead ++ '"' :: text) v rest := by
  obtain ⟨opening, raw, htext, hraw, rfl⟩ := parseString_cases h
  obtain ⟨rfl, rfl⟩ := List.cons.inj htext
  refine ⟨.string raw, lead, '"' :: (raw ++ ['"']), ?_, hlead, rfl, ⟨?_, ?_⟩, ?_, trivial, rfl⟩
  · rw [List.cons_append, List.append_assoc]
    rfl
  · intro other hother
    obtain rfl := List.mem_singleton.mp hother
    exact hraw
  · exact fun _ h ↦ absurd h List.not_mem_nil
  · exact fun ⟨_, h, _⟩ ↦ absurd h List.not_mem_nil

theorem reads_number (hlead : Gap lenient lead) {c : Char} (hc : c.isDigit = true ∨ c = '-')
    (h : parseNumber (c :: text) = .ok (v, rest)) : Reads (lead ++ c :: text) v rest := by
  obtain ⟨n, hn, hexponent, htext, hrest, rfl⟩ := exists_numeral_of_parseNumber hc h
  have hplain : n.text = n.mantissa := by
    rw [Numeral.text, Numeral.exponentText, hexponent, List.append_nil]
  refine ⟨.number n, lead, n.mantissa, congrArg (lead ++ ·) htext, hlead, hplain.symm, ⟨?_, ?_⟩,
    ?_, hrest, rfl⟩
  · exact fun _ h ↦ absurd h List.not_mem_nil
  · intro other hother
    obtain rfl := List.mem_singleton.mp hother
    exact hn
  · rintro ⟨other, hother, hsome⟩
    obtain rfl := List.mem_singleton.mp hother
    rw [hexponent] at hsome
    exact absurd hsome Bool.false_ne_true

theorem reads_array (hlead : Gap lenient lead)
    (ih : ∀ {text v rest}, parseItems fuel [] text = .ok (v, rest) → ReadsItems [] text v rest)
    (h : parseArray (parseItems fuel []) text = .ok (v, rest)) :
    Reads (lead ++ '[' :: text) v rest := by
  rcases parseArray_cases h with ⟨hclose, rfl⟩ | ⟨-, h⟩
  · obtain ⟨gap, rfl, hgap⟩ := exists_gap_of_skipWhitespace hclose
    refine ⟨.array [], lead, '[' :: (gap ++ [']']), ?_, hlead, ⟨gap, rfl, hgap⟩, ?_, ?_, trivial,
      rfl⟩
    · rw [List.cons_append, List.append_assoc]
      rfl
    · exact Tree.clear_array fun _ h ↦ absurd h List.not_mem_nil
    · exact fun ⟨_, h, _⟩ ↦ absurd h List.not_mem_nil
  · rw [parseItems_skip] at h
    obtain ⟨items, inside, -, rfl, hinside, hitems, rfl⟩ := ih h
    refine ⟨.array items, lead, '[' :: (inside ++ [']']), ?_, hlead, ⟨inside, rfl, hinside⟩,
      Tree.clear_array fun tree htree ↦ (hitems tree htree).1, fun hexponent ↦ ?_, trivial, rfl⟩
    · rw [List.cons_append, List.append_assoc]
      rfl
    · obtain ⟨tree, htree, hexp⟩ := Tree.hasExponent_array.mp hexponent
      exact (hitems tree htree).2 hexp

theorem reads_object (hlead : Gap lenient lead)
    (ih : ∀ {text v rest}, (∀ c ∈ text.head?, lenient.opens true c) →
      parseFields fuel [] text = .ok (v, rest) → ReadsMembers true [] text v rest)
    (h : parseObject (parseFields fuel []) text = .ok (v, rest)) :
    Reads (lead ++ '\x7b' :: text) v rest := by
  rcases parseObject_cases h with ⟨hclose, rfl⟩ | ⟨hopen, h⟩
  · obtain ⟨gap, rfl, hgap⟩ := exists_gap_of_skipWhitespace hclose
    refine ⟨.object [], lead, '\x7b' :: (gap ++ ['\x7d']), ?_, hlead, ⟨gap, rfl, hgap⟩, ?_, ?_,
      trivial, rfl⟩
    · rw [List.cons_append, List.append_assoc]
      rfl
    · exact Tree.clear_object fun _ h ↦ absurd h List.not_mem_nil
    · exact fun ⟨_, h, _⟩ ↦ absurd h List.not_mem_nil
  · obtain ⟨gap, htext, hgap⟩ := exists_gap_of_skipWhitespace (rfl : skipWhitespace text = _)
    have hopens : ∀ c ∈ (skipWhitespace text).head?, lenient.opens true c := by
      intro c hc
      refine ⟨?_, fun _ heq ↦ hopen (heq ▸ hc)⟩
      have hfirst := List.head?_dropWhile_not isWhitespace text
      rw [show (text.dropWhile isWhitespace).head? = some c from hc] at hfirst
      simpa using hfirst
    obtain ⟨members, inside, hne, hinside, hspells, hmembers, rfl⟩ := ih hopens h
    rw [hinside] at htext
    refine ⟨.object members, lead, '\x7b' :: ((gap ++ inside) ++ ['\x7d']), ?_, hlead,
      ⟨gap ++ inside, rfl, Tree.spellsMembers_gap hne hspells hgap⟩,
      Tree.clear_object fun member hmember ↦
        ⟨(hmembers member hmember).1, (hmembers member hmember).2.1⟩,
      fun hexponent ↦ ?_, trivial, rfl⟩
    · rw [htext, List.cons_append, List.append_assoc, List.append_assoc]
      rfl
    · obtain ⟨member, hmember, hexp⟩ := Tree.hasExponent_object.mp hexponent
      exact (hmembers member hmember).2.2 hexp

theorem readsItems_of_parse {done : List JsonValue}
    (ihvalue : ∀ {text v rest}, parseValue fuel text = .ok (v, rest) → Reads text v rest)
    (ihitems : ∀ {done text v rest}, parseItems fuel done text = .ok (v, rest) →
      ReadsItems done text v rest)
    (h : parseItems (fuel + 1) done text = .ok (v, rest)) : ReadsItems done text v rest := by
  obtain ⟨n, item, behind, hn, hitem, hcases⟩ := parseItems_cases h
  obtain rfl := Nat.succ.inj hn
  obtain ⟨tree, lead, inner, rfl, hlead, hinner, hclear, hexponent, -, rfl⟩ := ihvalue hitem
  clear h hn
  rcases hcases with ⟨hclose, rfl⟩ | ⟨more, hcomma, h⟩
  · obtain ⟨after, rfl, hafter⟩ := exists_gap_of_skipWhitespace hclose
    refine ⟨[tree], lead ++ (inner ++ after), List.cons_ne_nil _ _, ?_,
      ⟨lead, inner, after, rfl, hlead, hafter, hinner⟩, ?_, rfl⟩
    · simp only [List.append_assoc]
    · exact fun other hother ↦ List.mem_singleton.mp hother ▸ ⟨hclear, hexponent⟩
  · obtain ⟨after, rfl, hafter⟩ := exists_gap_of_skipWhitespace hcomma
    rw [parseItems_skip] at h
    obtain ⟨items, inside, hne, rfl, hinside, hitems, rfl⟩ := ihitems h
    refine ⟨tree :: items, lead ++ (inner ++ after) ++ ',' :: inside, List.cons_ne_nil _ _, ?_,
      Tree.spellsItems_of_cons ⟨lead, inner, after, rfl, hlead, hafter, hinner⟩
        (Or.inr ⟨hne, inside, rfl, hinside⟩),
      List.forall_mem_cons.mpr ⟨⟨hclear, hexponent⟩, hitems⟩, ?_⟩
    · simp only [List.append_assoc, List.cons_append]
    · rw [Tree.evalItems, List.append_assoc]
      rfl

theorem readsMembers_of_parse {leading : Bool} {obj : List (String × JsonValue)}
    (ihvalue : ∀ {text v rest}, parseValue fuel text = .ok (v, rest) → Reads text v rest)
    (ihfields : ∀ {leading obj text v rest}, (∀ c ∈ text.head?, lenient.opens leading c) →
      parseFields fuel obj text = .ok (v, rest) → ReadsMembers leading obj text v rest)
    (hopens : ∀ c ∈ text.head?, lenient.opens leading c)
    (h : parseFields (fuel + 1) obj text = .ok (v, rest)) :
    ReadsMembers leading obj text v rest := by
  obtain ⟨n, key, name, behind, value, after, hn, hkey, hname, hvalue, hcases⟩ :=
    parseFields_cases h
  obtain rfl := Nat.succ.inj hn
  obtain ⟨opening, raw, rfl, hraw, hsame⟩ := parseString_cases hkey
  obtain rfl := JsonValue.string.inj hsame
  obtain ⟨between, rfl, hbetween⟩ := exists_gap_of_skipWhitespace hname
  obtain ⟨tree, lead, inner, rfl, hlead, hinner, hclear, hexponent, -, rfl⟩ := ihvalue hvalue
  have hfirst :
      Padded lenient (Named lenient leading raw) (opening :: (raw ++ '"' :: between)) := by
    refine ⟨[], opening :: (raw ++ ['"']), between, ?_, gap_nil lenient, hbetween,
      opening, hopens opening rfl, rfl⟩
    rw [List.nil_append, List.cons_append, List.append_assoc]
    rfl
  clear h hn
  rcases hcases with ⟨hclose, rfl⟩ | ⟨more, hcomma, h⟩
  · obtain ⟨after, rfl, hafter⟩ := exists_gap_of_skipWhitespace hclose
    refine ⟨[(raw, tree)], _, List.cons_ne_nil _ _, ?_, Tree.spellsMembers_of_cons hfirst
      ⟨lead, inner, after, rfl, hlead, hafter, hinner⟩ (Or.inl ⟨rfl, rfl⟩), ?_, rfl⟩
    · simp only [List.append_assoc, List.cons_append, List.nil_append]
    · exact fun other hother ↦ List.mem_singleton.mp hother ▸ ⟨hraw, hclear, hexponent⟩
  · obtain ⟨after, rfl, hafter⟩ := exists_gap_of_skipWhitespace hcomma
    obtain ⟨gap, hmore, hgap⟩ := exists_gap_of_skipWhitespace (rfl : skipWhitespace more = _)
    have hnext : ∀ c ∈ (skipWhitespace more).head?, lenient.opens false c := by
      intro c hc
      refine ⟨?_, fun hfalse ↦ absurd hfalse Bool.false_ne_true⟩
      have hfirst := List.head?_dropWhile_not isWhitespace more
      rw [show (more.dropWhile isWhitespace).head? = some c from hc] at hfirst
      simpa using hfirst
    obtain ⟨members, inside, hne, hinside, hspells, hmembers, rfl⟩ := ihfields hnext h
    rw [hinside] at hmore
    refine ⟨(raw, tree) :: members, _, List.cons_ne_nil _ _, ?_, Tree.spellsMembers_of_cons hfirst
      ⟨lead, inner, after, rfl, hlead, hafter, hinner⟩
      (Or.inr ⟨hne, gap ++ inside, rfl, Tree.spellsMembers_gap hne hspells hgap⟩),
      List.forall_mem_cons.mpr ⟨⟨hraw, hclear, hexponent⟩, hmembers⟩, rfl⟩
    rw [hmore]
    simp only [List.append_assoc, List.cons_append]

end Reads

/-- What is accepted is the text of a tree. -/
theorem reads_of_parse (fuel : ℕ) :
    (∀ {text v rest}, parseValue fuel text = .ok (v, rest) → Reads text v rest) ∧
      (∀ {done text v rest}, parseItems fuel done text = .ok (v, rest) →
        ReadsItems done text v rest) ∧
      (∀ {leading obj text v rest}, (∀ c ∈ text.head?, lenient.opens leading c) →
        parseFields fuel obj text = .ok (v, rest) → ReadsMembers leading obj text v rest) := by
  induction fuel with
  | zero => exact ⟨fun h ↦ absurd h nofun, fun h ↦ absurd h nofun, fun _ h ↦ absurd h nofun⟩
  | succ fuel ih =>
    obtain ⟨ihvalue, ihitems, ihfields⟩ := ih
    refine ⟨fun {text v rest} h ↦ ?_, readsItems_of_parse ihvalue ihitems,
      readsMembers_of_parse ihvalue ihfields⟩
    obtain ⟨n, c, tail, hn, htext, hcases⟩ := parseValue_cases h
    obtain rfl := Nat.succ.inj hn
    obtain ⟨lead, rfl, hlead⟩ := exists_gap_of_skipWhitespace htext
    clear h hn
    rcases hcases with ⟨-, h⟩ | ⟨-, h⟩ | ⟨rfl, h⟩ | ⟨rfl, h⟩ | ⟨rfl, h⟩ | ⟨hc, h⟩
    · exact reads_null hlead h
    · exact reads_bool hlead h
    · exact reads_string hlead h
    · exact reads_array hlead ihitems h
    · exact reads_object hlead ihfields h
    · exact reads_number hlead hc h

/-- The parser accepts a front of the input exactly when it is the text, in the style that the
parser takes, of a tree without exponents and without quotes in its strings. -/
theorem parseValue_eq_ok_iff {fuel : ℕ} {input : List Char} (hfuel : 2 * input.length ≤ fuel)
    {v : JsonValue} {rest : List Char} :
    parseValue fuel input = .ok (v, rest) ↔ Reads input v rest := by
  constructor
  · exact (reads_of_parse fuel).1
  · rintro ⟨tree, lead, text, rfl, hlead, htext, hclear, hexponent, hstops, rfl⟩
    simp only [List.length_append] at hfuel
    rw [parseValue_gap fuel hlead]
    exact Tree.readsAs_reading hclear hexponent text htext rest hstops fuel (by omega)

theorem parseJson_eq_ok_iff_reads {input : String} {v : JsonValue} :
    parseJson input = .ok v ↔ ∃ rest, Reads input.toList v rest := by
  rw [parseJson_eq_ok_iff]
  exact exists_congr fun rest ↦ parseValue_eq_ok_iff (le_refl _)

/-! ### JSON texts -/

/-- What stands in a string: a character or a code unit of sixteen bits. -/
inductive Piece
  | char (c : Char)
  | unit (n : ℕ)
  deriving DecidableEq

/-- The letters behind a backslash and what they stand for. -/
def escapes : List (Char × Char) :=
  [('"', '"'), ('\\', '\\'), ('/', '/'), ('b', '\x08'), ('f', '\x0c'), ('n', '\n'), ('r', '\r'),
    ('t', '\t')]

/-- What stands between the quotes of a string, `none` when it cannot stand there. -/
def pieces : List Char → Option (List Piece)
  | [] => some []
  | c :: rest =>
    if c = '\\' then
      match rest with
      | [] => none
      | letter :: rest =>
        if letter = 'u' then
          match rest with
          | a :: b :: c :: d :: rest =>
            (readHex 0 [a, b, c, d]).bind fun n ↦ (pieces rest).map (.unit n :: ·)
          | _ => none
        else
          (escapes.lookup letter).bind fun c ↦ (pieces rest).map (.char c :: ·)
    else if c = '"' ∨ c.toNat < 32 then none
    else (pieces rest).map (.char c :: ·)

/-- A code unit on its own; the replacement character for one half of a pair. -/
def unitChar (n : ℕ) : Char :=
  if 0xD800 ≤ n ∧ n < 0xE000 then Char.ofNat 0xFFFD else Char.ofNat n

/-- The characters of a string. Two code units that make a pair are one character. -/
def join : List Piece → List Char
  | [] => []
  | .char c :: rest => c :: join rest
  | .unit high :: .unit low :: rest =>
    if (0xD800 ≤ high ∧ high < 0xDC00) ∧ 0xDC00 ≤ low ∧ low < 0xE000 then
      Char.ofNat (0x10000 + (high - 0xD800) * 0x400 + (low - 0xDC00)) :: join rest
    else unitChar high :: join (.unit low :: rest)
  | .unit n :: rest => unitChar n :: join rest

/-- A string with its escapes decoded. -/
def decode (raw : List Char) : String := String.ofList (join ((pieces raw).getD []))

/-- A number as the grammar has it. -/
structure Numeral.Valid (n : Numeral) : Prop where
  whole : n.whole = ['0'] ∨ ∃ c rest, n.whole = c :: rest ∧ c ≠ '0'
  whole_digits : ∀ c ∈ n.whole, c.isDigit = true
  fraction : ∀ digits ∈ n.fraction, digits ≠ [] ∧ ∀ c ∈ digits, c.isDigit = true
  exponent : ∀ e ∈ n.exponent, (e.mark = 'e' ∨ e.mark = 'E') ∧
    (∀ sign ∈ e.sign, sign = '+' ∨ sign = '-') ∧ e.digits ≠ [] ∧ ∀ c ∈ e.digits, c.isDigit = true

def Exponent.value (e : Exponent) : ℤ :=
  if e.sign = some '-' then -(Nat.ofDigitChars 10 e.digits 0 : ℤ)
  else Nat.ofDigitChars 10 e.digits 0

/-- The double nearest to a number. -/
def Numeral.value (n : Numeral) : Binary64 :=
  Binary64.nearest n.negative
    (decimal n.whole (n.fraction.getD []) * (10 : ℕ) ^ (n.exponent.elim 0 Exponent.value))

/-- Numbers with their exponents and strings with their escapes decoded. -/
def decoded : Meaning where
  number := Numeral.value
  string := decode

namespace Tree

/-- What a JSON text says. -/
abbrev value (tree : Tree) : JsonValue := tree.eval decoded

/-- The strings and numbers of the tree are those of the grammar. -/
structure Valid (tree : Tree) : Prop where
  strings : ∀ raw ∈ tree.raws, (pieces raw).isSome = true
  numbers : ∀ n ∈ tree.numerals, n.Valid

/-- No string and no name of the tree has a backslash. -/
def Plain (tree : Tree) : Prop := ∀ raw ∈ tree.raws, '\\' ∉ raw

mutual

/-- No object of the tree repeats a name. -/
def Unique : Tree → Prop
  | array items => UniqueItems items
  | object members => (members.map fun member ↦ decode member.1).Nodup ∧ UniqueMembers members
  | _ => True

def UniqueItems : List Tree → Prop
  | [] => True
  | tree :: items => Unique tree ∧ UniqueItems items

def UniqueMembers : List (List Char × Tree) → Prop
  | [] => True
  | (_, tree) :: members => Unique tree ∧ UniqueMembers members

end

theorem uniqueItems_iff {items : List Tree} : UniqueItems items ↔ ∀ tree ∈ items, tree.Unique := by
  induction items with
  | nil => simp [UniqueItems]
  | cons tree items ih => rw [UniqueItems, ih, List.forall_mem_cons]

theorem uniqueMembers_iff {members : List (List Char × Tree)} :
    UniqueMembers members ↔ ∀ member ∈ members, member.2.Unique := by
  induction members with
  | nil => simp [UniqueMembers]
  | cons member members ih => rw [UniqueMembers, ih, List.forall_mem_cons]

end Tree

/-- The whole input is a JSON text of this tree. -/
def IsText (tree : Tree) (input : String) : Prop :=
  Padded strict (tree.Spells strict) input.toList ∧ tree.Valid

/-- On this input the parser gives a value exactly when the input is a JSON text, and then its
value. -/
def Conforms (input : String) : Prop :=
  (∀ v, parseJson input = .ok v → ∃ tree, IsText tree input ∧ tree.value.eq v = true) ∧
    ∀ tree, IsText tree input → ∃ v, parseJson input = .ok v ∧ tree.value.eq v = true

/-! ### Escapes -/

/-- What the first characters of a string are. -/
theorem pieces_cons_cases {c : Char} {rest : List Char} {found : List Piece}
    (h : pieces (c :: rest) = some found) :
    (c ≠ '\\' ∧ c ≠ '"' ∧ ∃ tail, pieces rest = some tail ∧ found = .char c :: tail) ∨
      (∃ letter more e tail, c = '\\' ∧ rest = letter :: more ∧ (letter, e) ∈ escapes ∧
        pieces more = some tail ∧ found = .char e :: tail) ∨
      ∃ a b d e more n tail, c = '\\' ∧ rest = 'u' :: a :: b :: d :: e :: more ∧
        readHex 0 [a, b, d, e] = some n ∧ pieces more = some tail ∧ found = .unit n :: tail := by
  rw [pieces.eq_def] at h
  simp only at h
  split_ifs at h with hslash hplain
  · cases rest with
    | nil => exact absurd h nofun
    | cons letter more =>
      simp only at h
      split_ifs at h with hu
      · right
        right
        split at h
        · next a b d e more =>
          obtain ⟨n, hn, hmap⟩ := Option.bind_eq_some_iff.mp h
          obtain ⟨tail, htail, rfl⟩ := Option.map_eq_some_iff.mp hmap
          exact ⟨a, b, d, e, more, n, tail, hslash, by rw [hu], hn, htail, rfl⟩
        · exact absurd h nofun
      · right
        left
        obtain ⟨e, he, hmap⟩ := Option.bind_eq_some_iff.mp h
        obtain ⟨tail, htail, rfl⟩ := Option.map_eq_some_iff.mp hmap
        obtain ⟨before, behind, hlookup, -⟩ := List.lookup_eq_some_iff.mp he
        refine ⟨letter, more, e, tail, hslash, rfl, ?_, htail, rfl⟩
        rw [hlookup]
        exact List.mem_append_right before List.mem_cons_self
  · left
    rw [not_or] at hplain
    obtain ⟨tail, htail, rfl⟩ := Option.map_eq_some_iff.mp h
    exact ⟨hslash, hplain.1, tail, htail, rfl⟩

/-- Characters that need no escape are a string as they stand. -/
theorem isSome_pieces {raw : List Char}
    (h : ∀ c ∈ raw, c ≠ '\\' ∧ ¬ (c = '"' ∨ c.toNat < 32)) : (pieces raw).isSome = true := by
  induction raw with
  | nil => rfl
  | cons c rest ih =>
    obtain ⟨hslash, hplain⟩ := h c List.mem_cons_self
    rw [pieces.eq_def]
    simp only [if_neg hslash, if_neg hplain, Option.isSome_map]
    exact ih fun d hd ↦ h d (List.mem_cons_of_mem c hd)

theorem length_join_le (found : List Piece) : (join found).length ≤ found.length := by
  fun_induction join found with
  | case1 => exact le_refl _
  | case2 c rest ih => exact Nat.succ_le_succ ih
  | case3 high low rest hpair ih => simpa using Nat.le_succ_of_le ih
  | case4 high low rest hpair ih => exact Nat.succ_le_succ ih
  | case5 n rest hrest ih => exact Nat.succ_le_succ ih

theorem mem_join {c : Char} {found : List Piece} (h : .char c ∈ found) : c ∈ join found := by
  fun_induction join found with
  | case1 => exact absurd h List.not_mem_nil
  | case2 d rest ih =>
    rcases List.mem_cons.mp h with heq | h
    · obtain rfl := Piece.char.inj heq
      exact List.mem_cons_self
    · exact List.mem_cons_of_mem _ (ih h)
  | case3 high low rest hpair ih =>
    have hrest : .char c ∈ rest := by simpa using h
    exact List.mem_cons_of_mem _ (ih hrest)
  | case4 high low rest hpair ih =>
    have hrest : .char c ∈ .unit low :: rest := by simpa using h
    exact List.mem_cons_of_mem _ (ih hrest)
  | case5 n rest hrest ih =>
    have hrest : .char c ∈ rest := by simpa using h
    exact List.mem_cons_of_mem _ (ih hrest)

/-- A quote in a string has a backslash in front of it. -/
theorem quote_notMem_of_plain {raw : List Char} (h : (pieces raw).isSome = true)
    (hplain : '\\' ∉ raw) : '"' ∉ raw := by
  obtain ⟨found, hfound⟩ := Option.isSome_iff_exists.mp h
  clear h
  induction raw generalizing found with
  | nil => exact List.not_mem_nil
  | cons c rest ih =>
    rw [List.mem_cons, not_or] at hplain
    rcases pieces_cons_cases hfound with ⟨-, hquote, tail, htail, rfl⟩ |
      ⟨letter, more, e, tail, rfl, -⟩ | ⟨a, b, d, e, more, n, tail, rfl, -⟩
    · rw [List.mem_cons, not_or]
      exact ⟨Ne.symm hquote, ih hplain.2 tail htail⟩
    · exact absurd rfl hplain.1
    · exact absurd rfl hplain.1

/-- Each escape is longer than what it stands for. -/
theorem length_pieces {raw : List Char} {found : List Piece} (h : pieces raw = some found) :
    found.length ≤ raw.length ∧ ('\\' ∈ raw → found.length < raw.length) := by
  induction hlength : raw.length using Nat.strong_induction_on generalizing raw found with
  | _ length ih =>
    cases raw with
    | nil =>
      obtain rfl := Option.some.inj h
      exact ⟨Nat.zero_le _, fun hmem ↦ absurd hmem List.not_mem_nil⟩
    | cons c rest =>
      rw [List.length_cons] at hlength
      rcases pieces_cons_cases h with ⟨hslash, -, tail, htail, rfl⟩ |
        ⟨letter, more, e, tail, rfl, rfl, -, htail, rfl⟩ |
        ⟨a, b, d, e, more, n, tail, rfl, rfl, -, htail, rfl⟩
      · obtain ⟨hle, hlt⟩ := ih rest.length (by omega) htail rfl
        refine ⟨by rw [List.length_cons]; omega, fun hmem ↦ ?_⟩
        have hrest := hlt ((List.mem_cons.mp hmem).resolve_left hslash.symm)
        rw [List.length_cons]
        omega
      · rw [List.length_cons] at hlength
        obtain ⟨hle, -⟩ := ih more.length (by omega) htail rfl
        rw [List.length_cons]
        exact ⟨by omega, fun _ ↦ by omega⟩
      · simp only [List.length_cons] at hlength
        obtain ⟨hle, -⟩ := ih more.length (by omega) htail rfl
        rw [List.length_cons]
        exact ⟨by omega, fun _ ↦ by omega⟩

theorem toList_decode {raw : List Char} {found : List Piece} (h : pieces raw = some found) :
    (decode raw).toList = join found := by
  rw [decode, h, String.toList_ofList, Option.getD_some]

theorem length_decode_le {raw : List Char} (h : (pieces raw).isSome = true) :
    (decode raw).toList.length ≤ raw.length := by
  obtain ⟨found, hfound⟩ := Option.isSome_iff_exists.mp h
  rw [toList_decode hfound]
  exact (length_join_le found).trans (length_pieces hfound).1

theorem length_decode_lt {raw : List Char} (h : (pieces raw).isSome = true) (hmem : '\\' ∈ raw) :
    (decode raw).toList.length < raw.length := by
  obtain ⟨found, hfound⟩ := Option.isSome_iff_exists.mp h
  rw [toList_decode hfound]
  exact (length_join_le found).trans_lt ((length_pieces hfound).2 hmem)

/-- A string without a backslash stands for itself. -/
theorem decode_of_plain {raw : List Char} (h : (pieces raw).isSome = true) (hplain : '\\' ∉ raw) :
    decode raw = String.ofList raw := by
  obtain ⟨found, hfound⟩ := Option.isSome_iff_exists.mp h
  rw [decode, hfound, Option.getD_some]
  congr 1
  clear h
  induction raw generalizing found with
  | nil =>
    obtain rfl := Option.some.inj hfound
    rfl
  | cons c rest ih =>
    rw [List.mem_cons, not_or] at hplain
    rcases pieces_cons_cases hfound with ⟨-, -, tail, htail, rfl⟩ |
      ⟨letter, more, e, tail, rfl, -⟩ | ⟨a, b, d, e, more, n, tail, rfl, -⟩
    · rw [join, ih hplain.2 tail htail]
    · exact absurd rfl hplain.1
    · exact absurd rfl hplain.1

theorem isSome_hexValue_of_readHex {start n : ℕ} {text : List Char}
    (h : readHex start text = some n) : ∀ c ∈ text, (hexValue c).isSome = true := by
  induction text generalizing start with
  | nil => exact fun c hc ↦ absurd hc List.not_mem_nil
  | cons c text ih =>
    rw [readHex] at h
    obtain ⟨digit, hdigit, hrest⟩ := Option.bind_eq_some_iff.mp h
    refine List.forall_mem_cons.mpr ⟨?_, ih hrest⟩
    rw [hdigit]
    rfl

/-- A quote in a string is escaped, and stands for itself. -/
theorem quote_mem_decode {raw : List Char} (h : (pieces raw).isSome = true) (hmem : '"' ∈ raw) :
    '"' ∈ (decode raw).toList := by
  obtain ⟨found, hfound⟩ := Option.isSome_iff_exists.mp h
  rw [toList_decode hfound]
  refine mem_join ?_
  clear h
  induction hlength : raw.length using Nat.strong_induction_on generalizing raw found with
  | _ length ih =>
    cases raw with
    | nil => exact absurd hmem List.not_mem_nil
    | cons c rest =>
      rw [List.length_cons] at hlength
      rcases pieces_cons_cases hfound with ⟨-, hquote, tail, htail, rfl⟩ |
        ⟨letter, more, e, tail, rfl, rfl, he, htail, rfl⟩ |
        ⟨a, b, d, e, more, n, tail, rfl, rfl, hn, htail, rfl⟩
      · refine List.mem_cons_of_mem _ (ih rest.length (by omega) ?_ tail htail rfl)
        exact (List.mem_cons.mp hmem).resolve_left hquote.symm
      · rw [List.length_cons] at hlength
        rcases List.mem_cons.mp ((List.mem_cons.mp hmem).resolve_left (by decide)) with rfl | hmore
        · have hself : ∀ pair ∈ escapes, pair.1 = '"' → pair.2 = '"' := by decide
          obtain rfl : e = '"' := hself ('"', e) he rfl
          exact List.mem_cons_self
        · exact List.mem_cons_of_mem _ (ih more.length (by omega) hmore tail htail rfl)
      · simp only [List.length_cons] at hlength
        have hdigits : '"' ∉ [a, b, d, e] := fun hdigit ↦
          absurd (isSome_hexValue_of_readHex hn '"' hdigit) (by decide)
        have hmore : '"' ∈ more := by
          have hsplit : '"' ∈ ['\\', 'u'] ++ ([a, b, d, e] ++ more) := hmem
          rcases List.mem_append.mp hsplit with hmark | hsplit
          · exact absurd hmark (by decide)
          · exact (List.mem_append.mp hsplit).resolve_left hdigits
        exact List.mem_cons_of_mem _ (ih more.length (by omega) hmore tail htail rfl)

/-! ### Values -/

theorem nearest_ne_nan (negative : Bool) (x : ℚ≥0) : Binary64.nearest negative x ≠ .nan := by
  unfold Binary64.nearest
  simp only
  split_ifs
  · exact nofun
  · exact nofun

theorem eq_nearest_self (negative : Bool) (x : ℚ≥0) :
    (Binary64.nearest negative x).eq (Binary64.nearest negative x) = true := by
  cases hx : Binary64.nearest negative x with
  | nan => exact absurd hx (nearest_ne_nan negative x)
  | infinite b => simp [Binary64.eq]
  | finite b m => exact Binary64.eq_self_of_finite b m

theorem keys_insert (key : String) (v : JsonValue) {obj : List (String × JsonValue)}
    (h : (obj.map Prod.fst).Nodup) : ((insert key v obj).map Prod.fst).Nodup := by
  induction obj with
  | nil => exact List.nodup_singleton key
  | cons field obj ih =>
    obtain ⟨hfield, hobj⟩ := List.nodup_cons.mp h
    rw [insert]
    split_ifs with hkey
    · exact List.nodup_cons.mpr ⟨hkey ▸ hfield, hobj⟩
    · refine List.nodup_cons.mpr ⟨fun hmem ↦ ?_, ih hobj⟩
      obtain ⟨other, hother, hsame⟩ := List.mem_map.mp hmem
      rcases mem_insert hother with rfl | hother
      · exact hkey hsame.symm
      · exact hfield (hsame ▸ List.mem_map_of_mem hother)

/-- The fields of an object are values of its members, and each key is there once. -/
theorem evalMembers_spec (meaning : Meaning) (members : List (List Char × Tree))
    (obj : List (String × JsonValue)) (h : (obj.map Prod.fst).Nodup) :
    ((Tree.evalMembers meaning obj members).map Prod.fst).Nodup ∧
      ∀ field ∈ Tree.evalMembers meaning obj members,
        field ∈ obj ∨ ∃ member ∈ members, field.2 = member.2.eval meaning := by
  induction members generalizing obj with
  | nil => exact ⟨h, fun field hfield ↦ Or.inl hfield⟩
  | cons member members ih =>
    obtain ⟨hnodup, hfields⟩ :=
      ih _ (keys_insert (meaning.string member.1) (member.2.eval meaning) h)
    refine ⟨hnodup, fun field hfield ↦ ?_⟩
    rcases hfields field hfield with hinsert | ⟨other, hother, hvalue⟩
    · rcases mem_insert hinsert with rfl | hobj
      · exact Or.inr ⟨member, List.mem_cons_self, rfl⟩
      · exact Or.inl hobj
    · exact Or.inr ⟨other, List.mem_cons_of_mem _ hother, hvalue⟩

/-- The value of a tree is equal to itself. -/
theorem eq_eval_self {meaning : Meaning}
    (h : ∀ n, (meaning.number n).eq (meaning.number n) = true) (tree : Tree) :
    (tree.eval meaning).eq (tree.eval meaning) = true := by
  induction tree using Tree.induction with
  | null => rfl
  | bool b => cases b <;> rfl
  | number n =>
    rw [Tree.eval, JsonValue.eq]
    exact h n
  | string raw => rw [Tree.eval, JsonValue.eq, beq_self_eq_true]
  | array items ih =>
    rw [Tree.eval, Tree.evalItems_eq, JsonValue.eq]
    have hitems : ∀ v ∈ items.map (Tree.eval meaning), v.eq (id v) = true := by
      intro v hv
      obtain ⟨tree, htree, rfl⟩ := List.mem_map.mp hv
      exact ih tree htree
    have hmap := JsonValue.eqItems_map hitems
    rwa [List.map_id] at hmap
  | object members ih =>
    obtain ⟨hnodup, hfields⟩ := evalMembers_spec meaning members [] List.nodup_nil
    rw [Tree.eval, JsonValue.eq, beq_self_eq_true, Bool.true_and, JsonValue.eqFields_iff]
    intro field hfield
    refine ⟨field.2, (lookup_eq_some_iff_mem hnodup).mpr hfield, ?_⟩
    obtain ⟨member, hmember, hvalue⟩ := (hfields field hfield).resolve_left List.not_mem_nil
    rw [hvalue]
    exact ih member hmember

theorem eval_congr {meaning meaning' : Meaning} {tree : Tree}
    (hnumber : ∀ n ∈ tree.numerals, meaning.number n = meaning'.number n)
    (hstring : ∀ raw ∈ tree.raws, meaning.string raw = meaning'.string raw) :
    tree.eval meaning = tree.eval meaning' := by
  induction tree using Tree.induction with
  | null => rfl
  | bool b => rfl
  | number n => rw [Tree.eval, Tree.eval, hnumber n (List.mem_singleton_self n)]
  | string raw => rw [Tree.eval, Tree.eval, hstring raw (List.mem_singleton_self raw)]
  | array items ih =>
    rw [Tree.numerals, Tree.numeralsItems_eq] at hnumber
    rw [Tree.raws, Tree.rawsItems_eq] at hstring
    rw [Tree.eval, Tree.eval, Tree.evalItems_eq, Tree.evalItems_eq]
    refine congrArg JsonValue.array (List.map_congr_left fun tree htree ↦ ih tree htree ?_ ?_)
    · exact fun n hn ↦ hnumber n (List.mem_flatMap_of_mem htree hn)
    · exact fun raw hraw ↦ hstring raw (List.mem_flatMap_of_mem htree hraw)
  | object members ih =>
    rw [Tree.numerals, Tree.numeralsMembers_eq] at hnumber
    rw [Tree.raws, Tree.rawsMembers_eq] at hstring
    rw [Tree.eval, Tree.eval]
    refine congrArg JsonValue.object ?_
    generalize ([] : List (String × JsonValue)) = obj
    induction members generalizing obj with
    | nil => rfl
    | cons member members ihmembers =>
      rw [List.flatMap_cons] at hnumber hstring
      have hvalue := ih member List.mem_cons_self
        (fun n hn ↦ hnumber n (List.mem_append_left _ hn))
        (fun raw hraw ↦ hstring raw (List.mem_append_left _ (List.mem_cons_of_mem _ hraw)))
      have hname := hstring member.1 (List.mem_append_left _ List.mem_cons_self)
      rw [Tree.evalMembers, Tree.evalMembers, hvalue, hname]
      exact ihmembers (fun m hm ↦ ih m (List.mem_cons_of_mem _ hm))
        (fun n hn ↦ hnumber n (List.mem_append_right _ hn))
        (fun raw hraw ↦ hstring raw (List.mem_append_right _ hraw)) _

theorem Numeral.value_of_exponent_eq_none {n : Numeral} (h : n.exponent = none) :
    n.value = n.reading := by
  rw [Numeral.value, Numeral.reading, h, Option.elim_none, zpow_zero, mul_one]

/-- Without backslashes and exponents a text says what it reads as. -/
theorem value_eq_reading {tree : Tree} (hvalid : tree.Valid) (hplain : tree.Plain)
    (hexponent : ¬ tree.HasExponent) : tree.value = tree.reading := by
  refine eval_congr (fun n hn ↦ ?_) (fun raw hraw ↦ ?_)
  · refine Numeral.value_of_exponent_eq_none (Option.not_isSome_iff_eq_none.mp fun hsome ↦ ?_)
    exact hexponent ⟨n, hn, hsome⟩
  · exact decode_of_plain (hvalid.strings raw hraw) (hplain raw hraw)

namespace Tree

theorem Valid.item {items : List Tree} (h : (array items).Valid) {tree : Tree}
    (htree : tree ∈ items) : tree.Valid where
  strings raw hraw := h.strings raw (by
    rw [raws, rawsItems_eq]
    exact List.mem_flatMap_of_mem htree hraw)
  numbers n hn := h.numbers n (by
    rw [numerals, numeralsItems_eq]
    exact List.mem_flatMap_of_mem htree hn)

theorem Valid.member {members : List (List Char × Tree)} (h : (object members).Valid)
    {member : List Char × Tree} (hmember : member ∈ members) :
    (pieces member.1).isSome = true ∧ member.2.Valid := by
  have hraws : ∀ raw ∈ member.1 :: member.2.raws, (pieces raw).isSome = true := by
    intro raw hraw
    refine h.strings raw ?_
    rw [raws, rawsMembers_eq]
    exact List.mem_flatMap_of_mem hmember hraw
  refine ⟨hraws _ List.mem_cons_self, fun raw hraw ↦ hraws raw (List.mem_cons_of_mem _ hraw),
    fun n hn ↦ h.numbers n ?_⟩
  rw [numerals, numeralsMembers_eq]
  exact List.mem_flatMap_of_mem hmember hn

/-- The fields of an object whose names are different. -/
theorem value_object {members : List (List Char × Tree)}
    (h : (members.map fun member ↦ decode member.1).Nodup) :
    (object members).value =
      .object (members.map fun member ↦ (decode member.1, member.2.value)) := by
  rw [value, eval, evalMembers_of_nodup decoded [] h]
  rfl

/-- When no name is repeated each string of the text is one of its value. -/
theorem decode_mem_strings {tree : Tree} (h : tree.Unique) {raw : List Char}
    (hraw : raw ∈ tree.raws) : decode raw ∈ tree.value.strings := by
  induction tree using Tree.induction with
  | null | bool | number => exact absurd hraw List.not_mem_nil
  | string other =>
    obtain rfl := List.mem_singleton.mp hraw
    exact List.mem_singleton_self _
  | array items ih =>
    rw [Unique, uniqueItems_iff] at h
    rw [raws, rawsItems_eq] at hraw
    obtain ⟨tree, htree, hraw⟩ := List.mem_flatMap.mp hraw
    rw [value, eval, evalItems_eq, JsonValue.strings, JsonValue.stringsItems_eq]
    exact List.mem_flatMap_of_mem (List.mem_map_of_mem htree) (ih tree htree (h tree htree) hraw)
  | object members ih =>
    rw [Unique, uniqueMembers_iff] at h
    rw [raws, rawsMembers_eq] at hraw
    obtain ⟨member, hmember, hraw⟩ := List.mem_flatMap.mp hraw
    rw [value_object h.1, JsonValue.strings, JsonValue.stringsFields_eq]
    refine List.mem_flatMap_of_mem (List.mem_map_of_mem hmember) ?_
    rcases List.mem_cons.mp hraw with rfl | hraw
    · exact List.mem_cons_self
    · exact List.mem_cons_of_mem _ (ih member hmember (h.2 member hmember) hraw)

end Tree

/-- Strings that are decoded to different ones of them are not changed. -/
theorem plain_of_decode_subset {names : List (List Char)}
    (hvalid : ∀ name ∈ names, (pieces name).isSome = true) (hnodup : (names.map decode).Nodup)
    (hsubset : names.map decode ⊆ names.map String.ofList) : ∀ name ∈ names, '\\' ∉ name := by
  have hperm : (names.map decode).Perm (names.map String.ofList) :=
    (hnodup.subperm hsubset).perm_of_length_le (by rw [List.length_map, List.length_map])
  have hsum :
      ((names.map decode).map fun s ↦ s.toList.length).sum = (names.map List.length).sum := by
    rw [(hperm.map fun s ↦ s.toList.length).sum_eq, List.map_map]
    congr 1
    refine List.map_congr_left fun name _ ↦ ?_
    exact congrArg List.length String.toList_ofList
  rw [List.map_map] at hsum
  intro name hname hmem
  refine absurd hsum (Nat.ne_of_lt (List.sum_lt_sum _ _ ?_ ?_))
  · exact fun other hother ↦ length_decode_le (hvalid other hother)
  · exact ⟨name, hname, length_decode_lt (hvalid name hname) hmem⟩

theorem eq_of_eqItems_map {items : List Tree} {f g : Tree → JsonValue}
    (h : JsonValue.eqItems (items.map f) (items.map g) = true) :
    ∀ tree ∈ items, (f tree).eq (g tree) = true := by
  induction items with
  | nil => exact fun tree htree ↦ absurd htree List.not_mem_nil
  | cons tree items ih =>
    rw [List.map_cons, List.map_cons, JsonValue.eqItems, Bool.and_eq_true] at h
    exact List.forall_mem_cons.mpr ⟨h.1, ih h.2⟩

namespace Tree

theorem reading_object {members : List (List Char × Tree)}
    (h : (members.map fun member ↦ decode member.1).Nodup) :
    (object members).reading =
      .object (members.map fun member ↦ (String.ofList member.1, member.2.reading)) := by
  have hnames : (members.map fun member ↦ String.ofList member.1).Nodup := by
    have hraw : (members.map Prod.fst).Nodup := by
      refine List.Nodup.of_map decode ?_
      rwa [List.map_map]
    have hinjective : Function.Injective String.ofList := fun _ _ ↦ String.ofList_inj.mp
    have hlist := hraw.map hinjective
    rwa [List.map_map] at hlist
  rw [reading, eval, evalMembers_of_nodup verbatim [] hnames]
  rfl

/-- When no name is repeated, a text that says what it reads as has no backslash. -/
theorem plain_of_eq {tree : Tree} (hvalid : tree.Valid) (hunique : tree.Unique)
    (h : tree.value.eq tree.reading = true) : tree.Plain := by
  induction tree using Tree.induction with
  | null | bool | number => exact fun raw hraw ↦ absurd hraw List.not_mem_nil
  | string raw =>
    intro other hother hmem
    obtain rfl := List.mem_singleton.mp hother
    have hsame : decode other = String.ofList other := by
      rw [value, reading, eval, eval, JsonValue.eq, beq_iff_eq] at h
      exact h
    have hlt := length_decode_lt (hvalid.strings other hother) hmem
    rw [hsame, String.toList_ofList] at hlt
    exact absurd hlt (lt_irrefl _)
  | array items ih =>
    rw [Unique, uniqueItems_iff] at hunique
    rw [value, reading, eval, eval, evalItems_eq, evalItems_eq, JsonValue.eq] at h
    have hitems := eq_of_eqItems_map h
    intro raw hraw
    rw [raws, rawsItems_eq] at hraw
    obtain ⟨tree, htree, hraw⟩ := List.mem_flatMap.mp hraw
    exact ih tree htree (hvalid.item htree) (hunique tree htree) (hitems tree htree) raw hraw
  | object members ih =>
    rw [Unique, uniqueMembers_iff] at hunique
    obtain ⟨hnodup, hmembers⟩ := hunique
    rw [value_object hnodup, reading_object hnodup, JsonValue.eq, Bool.and_eq_true,
      JsonValue.eqFields_iff] at h
    have hfields := fun member hmember ↦ h.2 _ (List.mem_map_of_mem (a := member) hmember)
    have hkeys : ((members.map fun member ↦ (String.ofList member.1, member.2.reading)).map
        Prod.fst) = (members.map Prod.fst).map String.ofList := by
      rw [List.map_map, List.map_map]
      rfl
    have hnames : ∀ name ∈ members.map Prod.fst, '\\' ∉ name := by
      refine plain_of_decode_subset (fun name hname ↦ ?_) (by rwa [List.map_map]) ?_
      · obtain ⟨member, hmember, rfl⟩ := List.mem_map.mp hname
        exact (hvalid.member hmember).1
      · rw [← hkeys, List.map_map]
        intro key hkey
        obtain ⟨member, hmember, rfl⟩ := List.mem_map.mp hkey
        obtain ⟨w, hw, -⟩ := hfields member hmember
        exact List.mem_map_of_mem (JsonValue.mem_of_lookup_eq_some hw)
    have hdecode : ∀ member ∈ members, decode member.1 = String.ofList member.1 :=
      fun member hmember ↦ decode_of_plain (hvalid.member hmember).1
        (hnames member.1 (List.mem_map_of_mem hmember))
    intro raw hraw
    rw [raws, rawsMembers_eq] at hraw
    obtain ⟨member, hmember, hraw⟩ := List.mem_flatMap.mp hraw
    rcases List.mem_cons.mp hraw with rfl | hraw
    · exact hnames member.1 (List.mem_map_of_mem hmember)
    · refine ih member hmember (hvalid.member hmember).2 (hmembers member hmember) ?_ raw hraw
      obtain ⟨w, hw, heq⟩ := hfields member hmember
      have hself : (members.map fun member ↦ (String.ofList member.1, member.2.reading)).lookup
          (decode member.1) = some member.2.reading := by
        refine (lookup_eq_some_iff_mem ?_).mpr ?_
        · rw [List.map_map]
          have hlist : (members.map fun member ↦ decode member.1) =
              members.map (Prod.fst ∘ fun member ↦ (String.ofList member.1, member.2.reading)) :=
            List.map_congr_left hdecode
          rwa [← hlist]
        · rw [hdecode member hmember]
          exact List.mem_map_of_mem (f := fun m ↦ (String.ofList m.1, m.2.reading)) hmember
      rw [hself] at hw
      rwa [← Option.some.inj hw] at heq

end Tree

theorem Numeral.Valid.digital {n : Numeral} (h : n.Valid) : n.Digital where
  digit := by
    refine List.append_ne_nil_of_left_ne_nil ?_ _
    rcases h.whole with hzero | ⟨c, rest, hcons, -⟩
    · rw [hzero]
      exact List.cons_ne_nil _ _
    · rw [hcons]
      exact List.cons_ne_nil _ _
  begins := by
    rcases h.whole with hzero | ⟨c, rest, hcons, -⟩
    · rw [hzero]
      exact Or.inl (List.cons_ne_nil _ _)
    · rw [hcons]
      exact Or.inl (List.cons_ne_nil _ _)
  whole_digits := h.whole_digits
  fraction_digits digits hdigits := (h.fraction digits hdigits).2

/-! ### Which inputs are treated as the grammar has it -/

/-- The text has no backslash and no exponent, up to an exponent of a number that is the whole text
and whose value does not depend on it. -/
def Tree.Simple (tree : Tree) : Prop :=
  tree.Plain ∧ (¬ tree.HasExponent ∨ ∃ n, tree = .number n ∧ n.value.eq n.reading = true)

theorem stops_of_gap {after : List Char} (h : Gap lenient after) : Stops after := by
  cases after with
  | nil => exact fun c hc ↦ nomatch hc
  | cons c after => exact stops_cons (isNumeric_of_isWhitespace (h c List.mem_cons_self)) after

section IsText

variable {input : String} {tree : Tree}

theorem IsText.exists_text (h : IsText tree input) :
    ∃ before text after, input.toList = before ++ (text ++ after) ∧ Gap lenient before ∧
      Gap lenient after ∧ tree.Spells lenient text := by
  obtain ⟨⟨before, text, after, htext, hbefore, hafter, hspells⟩, -⟩ := h
  exact ⟨before, text, after, htext, Tree.gap_mono Tree.gap_lenient hbefore,
    Tree.gap_mono Tree.gap_lenient hafter, Tree.spells_lenient hspells⟩

theorem parseJson_of_not_hasExponent (h : IsText tree input) (hclear : tree.Clear)
    (hexponent : ¬ tree.HasExponent) : parseJson input = .ok tree.reading := by
  obtain ⟨before, text, after, htext, hbefore, hafter, hspells⟩ := h.exists_text
  refine parseJson_eq_ok_iff_reads.mpr ⟨after, tree, before, text, htext, hbefore, hspells, hclear,
    hexponent, Tree.stopsBehind_of_stops (stops_of_gap hafter), rfl⟩

/-- Of a number with an exponent the mantissa is read. -/
theorem parseJson_number {n : Numeral} (h : IsText (.number n) input) :
    parseJson input = .ok (.number n.reading) := by
  have hn : n.Valid := h.2.numbers n (List.mem_singleton_self n)
  obtain ⟨before, text, after, htext, hbefore, hafter, hspells⟩ := h.exists_text
  obtain rfl : text = n.mantissa ++ n.exponentText := hspells
  have hstops : Stops (n.exponentText ++ after) := by
    cases he : n.exponent with
    | none =>
      rw [Numeral.exponentText, he]
      exact stops_of_gap hafter
    | some e =>
      rw [Numeral.exponentText, he]
      refine stops_cons ?_ _
      rcases (hn.exponent e he).1 with hmark | hmark <;> rw [hmark] <;> decide
  obtain ⟨c, tail, hc, -⟩ := Numeral.mantissa_head hn.digital
  obtain ⟨fuel, hfuel⟩ : ∃ fuel, 2 * input.toList.length = fuel + 1 := by
    refine ⟨2 * input.toList.length - 1, ?_⟩
    rw [htext, hc]
    simp only [List.length_append, List.length_cons]
    omega
  refine parseJson_eq_ok_iff.mpr ⟨n.exponentText ++ after, ?_⟩
  rw [hfuel, htext, parseValue_gap _ hbefore, List.append_assoc]
  exact parseValue_number fuel hn.digital hstops

theorem parseJson_of_hasExponent (h : IsText tree input) (hclear : tree.Clear)
    (hexponent : tree.HasExponent) (hnumber : ∀ n, tree ≠ .number n) (v : JsonValue) :
    parseJson input ≠ .ok v := by
  have hmarked : tree.Marked := fun n hn e he ↦ ((h.2.numbers n hn).exponent e he).1
  obtain ⟨before, text, after, htext, hbefore, -, hspells⟩ := h.exists_text
  intro hparse
  obtain ⟨rest, hvalue⟩ := parseJson_eq_ok_iff.mp hparse
  have hlength : 2 * text.length ≤ 2 * input.toList.length := by
    rw [htext]
    simp only [List.length_append]
    omega
  obtain ⟨e, he⟩ := (Tree.refuses_of_hasExponent hclear hmarked hexponent).2 hnumber text hspells
    after _ hlength
  rw [htext, parseValue_gap _ hbefore, ← htext, he] at hvalue
  exact absurd hvalue nofun

/-- A string with a quote in it is never read. -/
theorem clear_of_eq (h : IsText tree input) (hunique : tree.Unique) {v : JsonValue}
    (hparse : parseJson input = .ok v) (heq : tree.value.eq v = true) : tree.Clear := by
  refine ⟨fun raw hraw hmem ↦ ?_, fun n hn ↦ (h.2.numbers n hn).digital⟩
  obtain ⟨rest, hvalue⟩ := parseJson_eq_ok_iff.mp hparse
  have hstring := JsonValue.strings_subset_of_eq heq (Tree.decode_mem_strings hunique hraw)
  exact (stringsIn_of_parse _ (P := fun s ↦ '"' ∉ s.toList)
    (fun raw hraw ↦ by rwa [String.toList_ofList])).1 hvalue _ hstring
    (quote_mem_decode (h.2.strings raw hraw) hmem)

theorem clear_of_plain (h : IsText tree input) (hplain : tree.Plain) : tree.Clear := by
  refine ⟨fun raw hraw hmem ↦ ?_, fun n hn ↦ (h.2.numbers n hn).digital⟩
  exact quote_notMem_of_plain (h.2.strings raw hraw) (hplain raw hraw) hmem

end IsText

/-- The parser does what the grammar says exactly on the inputs that are not JSON texts and have no
front that the parser takes, and on the JSON texts without backslashes and exponents. A text that
repeats a name in an object may have them where what is read has the value of the text. -/
theorem conforms_iff (input : String) :
    Conforms input ↔
      (∀ v rest, Reads input.toList v rest → ∃ tree, IsText tree input) ∧
        ∀ tree, IsText tree input → tree.Simple ∨
          (¬ tree.Unique ∧ ∃ v rest, Reads input.toList v rest ∧ tree.value.eq v = true) := by
  constructor
  · rintro ⟨haccepts, hgives⟩
    refine ⟨fun v rest hreads ↦ ?_, fun tree htree ↦ ?_⟩
    · obtain ⟨tree, htree, -⟩ := haccepts v (parseJson_eq_ok_iff_reads.mpr ⟨rest, hreads⟩)
      exact ⟨tree, htree⟩
    · obtain ⟨v, hparse, heq⟩ := hgives tree htree
      by_cases hunique : tree.Unique
      · left
        have hclear := clear_of_eq htree hunique hparse heq
        by_cases hexponent : tree.HasExponent
        · by_cases hnumber : ∃ n, tree = .number n
          · obtain ⟨n, rfl⟩ := hnumber
            rw [parseJson_number htree] at hparse
            obtain rfl := Except.ok.inj hparse
            refine ⟨fun raw hraw ↦ absurd hraw List.not_mem_nil, Or.inr ⟨n, rfl, ?_⟩⟩
            rw [Tree.value, Tree.eval, JsonValue.eq] at heq
            exact heq
          · push Not at hnumber
            exact absurd hparse (parseJson_of_hasExponent htree hclear hexponent hnumber v)
        · rw [parseJson_of_not_hasExponent htree hclear hexponent] at hparse
          obtain rfl := Except.ok.inj hparse
          exact ⟨Tree.plain_of_eq htree.2 hunique heq, Or.inl hexponent⟩
      · right
        obtain ⟨rest, hreads⟩ := parseJson_eq_ok_iff_reads.mp hparse
        exact ⟨hunique, v, rest, hreads, heq⟩
  · rintro ⟨hfront, htexts⟩
    have hgives : ∀ tree, IsText tree input →
        ∃ v, parseJson input = .ok v ∧ tree.value.eq v = true := by
      intro tree htree
      rcases htexts tree htree with ⟨hplain, hexponent | ⟨n, rfl, heq⟩⟩ | ⟨-, v, rest, hreads, heq⟩
      · refine ⟨tree.reading,
          parseJson_of_not_hasExponent htree (clear_of_plain htree hplain) hexponent, ?_⟩
        rw [value_eq_reading htree.2 hplain hexponent]
        exact eq_eval_self (fun n ↦ eq_nearest_self _ _) tree
      · refine ⟨.number n.reading, parseJson_number htree, ?_⟩
        rw [Tree.value, Tree.eval, JsonValue.eq]
        exact heq
      · exact ⟨v, parseJson_eq_ok_iff_reads.mpr ⟨rest, hreads⟩, heq⟩
    refine ⟨fun v hparse ↦ ?_, hgives⟩
    obtain ⟨rest, hreads⟩ := parseJson_eq_ok_iff_reads.mp hparse
    obtain ⟨tree, htree⟩ := hfront v rest hreads
    obtain ⟨w, hw, heq⟩ := hgives tree htree
    rw [hparse] at hw
    obtain rfl := Except.ok.inj hw
    exact ⟨tree, htree, heq⟩

/-- The text of a line feed. -/
theorem not_conforms_lineFeed : ¬ ∀ input, Conforms input := by
  intro h
  have htext : IsText (.string ['\\', 'n']) (String.ofList ['"', '\\', 'n', '"']) := by
    refine ⟨?_, ⟨fun raw hraw ↦ ?_, fun n hn ↦ absurd hn List.not_mem_nil⟩⟩
    · rw [String.toList_ofList]
      exact padded_self rfl
    · obtain rfl := List.mem_singleton.mp hraw
      rfl
  obtain ⟨v, hparse, heq⟩ := (h (String.ofList ['"', '\\', 'n', '"'])).2 _ htext
  have hread : parseJson (String.ofList ['"', '\\', 'n', '"']) =
      .ok (.string (String.ofList ['\\', 'n'])) := by
    rw [parseJson_ofList]
    rfl
  rw [hread] at hparse
  obtain rfl := Except.ok.inj hparse
  have hvalue : Tree.value (.string ['\\', 'n']) = .string (String.ofList ['\n']) := rfl
  rw [hvalue, JsonValue.eq, beq_iff_eq, String.ofList_inj] at heq
  exact absurd heq (by decide)

end Lithair.Serialization.Json
