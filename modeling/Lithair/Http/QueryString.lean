import Lithair.Http.Request
import Lithair.Lib.PercentEncoding

/-!
# Query strings of percent-encoded parameters

A query string joins parameters, each a name and a value, where both are percent-encoded. There are
two parsers of it: `parse_path_and_query` in `http/request.rs` for the parameters of an
`HttpRequest`, and `parse_query_params` in `http/query.rs` for the filters of a list.

The first reads back every map of names and values, whatever of it is encoded
(`parsePathAndQuery_queryString`). The second does not decode: it reads the same names and values
exactly when none of them is encoded (`agree_and_selects_iff`), as one that stands for a space
shows (`not_agree_space`).
-/

namespace Lithair.Http.QueryString

open Lithair.Lib Lithair.Lib.Text Lithair.Lib.Utf8 Lithair.Lib.PercentEncoding Lithair.Http.Server

/-- A name and a value. -/
abbrev Parameter := List Char × List Char

def Parameter.text (parameter : Parameter) : List Char := parameter.1 ++ '=' :: parameter.2

def queryString (parameters : List Parameter) : List Char :=
  ['&'].intercalate (parameters.map Parameter.text)

/-- Name and value are percent-encoded. -/
def Parameter.Encodes (parameter encoded : Parameter) : Prop :=
  PercentEncoding.Encodes (utf8 parameter.1) encoded.1 ∧
    PercentEncoding.Encodes (utf8 parameter.2) encoded.2

/-! ### The decoder -/

theorem decodedBytes_cons {b : UInt8} (hpercent : b ≠ 37) (bytes : List UInt8) :
    decodedBytes (b :: bytes) = (if b = 43 then 32 else b) :: decodedBytes bytes := by
  match bytes with
  | [] => rfl
  | [c] => rfl
  | hi :: lo :: rest =>
    rw [decodedBytes]
    split_ifs
    · rfl
    · rfl

theorem decodedBytes_percent {hi lo high low : UInt8} (hhigh : hexDigit hi = some high)
    (hlow : hexDigit lo = some low) (bytes : List UInt8) :
    decodedBytes (37 :: hi :: lo :: bytes) = (high <<< 4 ||| low) :: decodedBytes bytes := by
  rw [decodedBytes, if_neg (by decide), if_pos rfl, hhigh, hlow]

/-- A digit of the encoding is one of the decoder. -/
theorem hexDigit_of_hexValue {c : Char} {n : ℕ} (h : hexValue c = some n) :
    hexDigit (UInt8.ofNat c.toNat) = some (UInt8.ofNat n) ∧ n < 16 := by
  have hall : ∀ k < 128, ∀ n ∈ hexValue (Char.ofNat k),
      hexDigit (UInt8.ofNat k) = some (UInt8.ofNat n) ∧ n < 16 := by
    decide
  have hchar : Char.ofNat c.toNat = c := Char.ofNat_toNat c
  have hdigit := hall c.toNat (hexValue_ascii h)
  rw [hchar] at hdigit
  exact hdigit n h

theorem joined_digits : ∀ high < 16, ∀ low < 16,
    (UInt8.ofNat high <<< 4 ||| UInt8.ofNat low) = UInt8.ofNat (16 * high + low) := by
  decide

/-- An unreserved character is neither a percent sign nor a plus sign. -/
theorem byte_of_unreserved {c : Char} (h : Unreserved c) :
    UInt8.ofNat c.toNat ≠ 37 ∧ UInt8.ofNat c.toNat ≠ 43 := by
  have hall : ∀ k < 128, Unreserved (Char.ofNat k) → UInt8.ofNat k ≠ 37 ∧ UInt8.ofNat k ≠ 43 := by
    decide
  have hchar : Char.ofNat c.toNat = c := Char.ofNat_toNat c
  have hbyte := hall c.toNat h.ascii
  rw [hchar] at hbyte
  exact hbyte h

theorem decodedBytes_encoded {bytes : List UInt8} {text : List Char} (h : Encodes bytes text) :
    decodedBytes (utf8 text) = bytes := by
  induction h with
  | nil => rfl
  | kept hc rest ih =>
    obtain ⟨hpercent, hplus⟩ := byte_of_unreserved hc
    rw [utf8_cons_of_ascii hc.ascii, decodedBytes_cons hpercent, if_neg hplus, ih]
  | encoded hhigh hlow rest ih =>
    obtain ⟨hfirst, hhigh16⟩ := hexDigit_of_hexValue hhigh
    obtain ⟨hsecond, hlow16⟩ := hexDigit_of_hexValue hlow
    have hpercent : UInt8.ofNat '%'.toNat = 37 := rfl
    rw [utf8_cons_of_ascii (by decide), utf8_cons_of_ascii (hexValue_ascii hhigh),
      utf8_cons_of_ascii (hexValue_ascii hlow), hpercent, decodedBytes_percent hfirst hsecond, ih,
      joined_digits _ hhigh16 _ hlow16]

/-- A text is read back from every percent-encoding of it. -/
theorem urlcodeDecode_encoded {text encoded : List Char} (h : Encodes (utf8 text) encoded) :
    urlcodeDecode encoded = text := by
  rw [urlcodeDecode, decodedBytes_encoded h, fromUtf8_utf8, Option.getD_some]

/-! ### The parameters of a request -/

theorem splitOnce_append {mark : Char} {front : List Char} (hfront : mark ∉ front)
    (rest : List Char) : splitOnce mark (front ++ mark :: rest) = some (front, rest) := by
  have hne : ∀ c ∈ front, decide (c ≠ mark) = true :=
    fun c hc ↦ decide_eq_true fun heq ↦ hfront (heq ▸ hc)
  unfold splitOnce
  rw [if_pos (List.mem_append_right _ List.mem_cons_self), List.takeWhile_append_of_pos hne,
    List.dropWhile_append_of_pos hne]
  simp

theorem not_unreserved : ¬ Unreserved '&' ∧ ¬ Unreserved '=' := by decide

namespace Parameter

variable {parameter encoded : Parameter}

theorem Encodes.splitOnce_text (h : parameter.Encodes encoded) :
    splitOnce '=' encoded.text = some encoded :=
  splitOnce_append (h.1.not_mem not_unreserved.2 (by decide)) encoded.2

theorem Encodes.not_mem_text (h : parameter.Encodes encoded) : '&' ∉ encoded.text := by
  have hname : '&' ∉ encoded.1 := h.1.not_mem not_unreserved.1 (by decide)
  have hvalue : '&' ∉ encoded.2 := h.2.not_mem not_unreserved.1 (by decide)
  simp [text, hname, hvalue]

theorem Encodes.addQueryParam_text (h : parameter.Encodes encoded) (params : Entries) :
    addQueryParam params encoded.text = params.insert parameter.1 parameter.2 := by
  unfold addQueryParam
  rw [h.splitOnce_text]
  simp only [urlcodeDecode_encoded h.1, urlcodeDecode_encoded h.2]

end Parameter

variable {parameters encoded : List Parameter}

theorem not_mem_text_of_mem (h : List.Forall₂ Parameter.Encodes parameters encoded) :
    ∀ text ∈ encoded.map Parameter.text, '&' ∉ text := by
  induction h with
  | nil => exact fun text htext ↦ absurd htext List.not_mem_nil
  | cons hfirst hrest ih =>
    intro text htext
    rcases List.mem_cons.mp htext with rfl | htext
    · exact hfirst.not_mem_text
    · exact ih text htext

/-- Parsing looks at one parameter after the other. -/
theorem foldl_splitOn_queryString {β : Type*} {step : β → List Char → β} {start : β}
    (hnil : step start [] = start) (h : ∀ text ∈ encoded.map Parameter.text, '&' ∉ text) :
    ((queryString encoded).splitOn '&').foldl step start =
      (encoded.map Parameter.text).foldl step start := by
  by_cases hencoded : encoded = []
  · subst hencoded
    exact hnil
  · rw [queryString, List.splitOn_intercalate '&' h (by simpa using hencoded)]

theorem foldl_addQueryParam (h : List.Forall₂ Parameter.Encodes parameters encoded)
    (params : Entries) :
    (encoded.map Parameter.text).foldl addQueryParam params =
      parameters.foldl (fun params parameter ↦ params.insert parameter.1 parameter.2) params := by
  induction h generalizing params with
  | nil => rfl
  | cons hfirst hrest ih =>
    rw [List.map_cons, List.foldl_cons, List.foldl_cons, hfirst.addQueryParam_text, ih]

theorem lookup_foldl_insert (hkeys : (parameters.map Prod.fst).Nodup) (params : Entries)
    (key value : List Char) :
    (parameters.foldl (fun params parameter ↦ params.insert parameter.1 parameter.2)
      params).lookup key = some value ↔
        (key, value) ∈ parameters ∨
          key ∉ parameters.map Prod.fst ∧ params.lookup key = some value := by
  induction parameters generalizing params with
  | nil => simp
  | cons first rest ih =>
    obtain ⟨hfirst, hrest⟩ := List.nodup_cons.mp hkeys
    have hnot : ∀ other, (first.1, other) ∉ rest :=
      fun other hmem ↦ hfirst (List.mem_map.mpr ⟨(first.1, other), hmem, rfl⟩)
    rw [List.foldl_cons, ih hrest, List.mem_cons, List.map_cons, List.mem_cons]
    by_cases hkey : key = first.1
    · subst hkey
      have hsame : (first.1, value) = first ↔ first.2 = value :=
        ⟨fun heq ↦ (congrArg Prod.snd heq).symm, fun heq ↦ Prod.ext rfl heq.symm⟩
      rw [Finmap.lookup_insert, hsame]
      simp [hnot, hfirst]
    · have hne : (key, value) ≠ first := fun heq ↦ hkey (congrArg Prod.fst heq)
      rw [Finmap.lookup_insert_of_ne _ hkey]
      simp [hne, hkey]

theorem parsePathAndQuery_eq {path : List Char} (hpath : '?' ∉ path)
    (h : List.Forall₂ Parameter.Encodes parameters encoded) :
    parsePathAndQuery (path ++ '?' :: queryString encoded) = (path,
      parameters.foldl (fun params parameter ↦ params.insert parameter.1 parameter.2) ∅) := by
  have hnil : addQueryParam ∅ [] = ∅ := rfl
  unfold parsePathAndQuery
  rw [splitOnce_append hpath]
  simp only [foldl_splitOn_queryString hnil (not_mem_text_of_mem h), foldl_addQueryParam h]

theorem lookup_parsePathAndQuery {path : List Char} (hpath : '?' ∉ path)
    (hkeys : (parameters.map Prod.fst).Nodup)
    (h : List.Forall₂ Parameter.Encodes parameters encoded) (key value : List Char) :
    (parsePathAndQuery (path ++ '?' :: queryString encoded)).2.lookup key = some value ↔
      (key, value) ∈ parameters := by
  rw [parsePathAndQuery_eq hpath h, lookup_foldl_insert hkeys, Finmap.lookup_empty]
  simp

/-- The map of the names and values that a query string was made of is read back from it. -/
theorem parsePathAndQuery_queryString {path : List Char} (hpath : '?' ∉ path)
    (hkeys : (parameters.map Prod.fst).Nodup)
    (h : List.Forall₂ Parameter.Encodes parameters encoded) :
    (parsePathAndQuery (path ++ '?' :: queryString encoded)).1 = path ∧
      ∀ key value, (parsePathAndQuery (path ++ '?' :: queryString encoded)).2.lookup key =
        some value ↔ (key, value) ∈ parameters :=
  ⟨congrArg Prod.fst (parsePathAndQuery_eq hpath h), lookup_parsePathAndQuery hpath hkeys h⟩

theorem encodes_accent : Parameter.Encodes ("a b".toList, "é=&".toList)
    ("a%20b".toList, "%c3%a9%3d%26".toList) :=
  ⟨encodes_percentEncode (utf8 "a b".toList), encodes_percentEncode (utf8 "é=&".toList)⟩

theorem parsePathAndQuery_accent :
    (parsePathAndQuery "/items?a%20b=%c3%a9%3d%26".toList).1 = "/items".toList ∧
      ∀ key value, (parsePathAndQuery "/items?a%20b=%c3%a9%3d%26".toList).2.lookup key =
        some value ↔ (key, value) ∈ [("a b".toList, "é=&".toList)] := by
  have hquery : "/items?a%20b=%c3%a9%3d%26".toList =
    "/items".toList ++ '?' :: queryString [("a%20b".toList, "%c3%a9%3d%26".toList)] := rfl
  rw [hquery]
  exact parsePathAndQuery_queryString (by decide) (by decide) (.cons encodes_accent .nil)

/-! ### The filters of a list -/

/-- What stands in front of the value of a filter. -/
def mark : FilterOp → List Char
  | .eq => []
  | .ne => ['!']
  | .gt => ['>']
  | .lt => ['<']
  | .gte => ['>', '=']
  | .lte => ['<', '=']
  | .contains => ['~']

/-- The parameter that a filter is read from. -/
def written (filter : FilterSpec) : Parameter :=
  (filter.field.toList, mark filter.op ++ filter.value.toList)

/-- The filter that a parameter is read as. -/
def Parameter.filter (parameter : Parameter) : FilterSpec where
  field := String.ofList parameter.1
  op := (parseFilterValue parameter.2).1
  value := String.ofList (parseFilterValue parameter.2).2

/-- The names that are not those of filters. -/
def reservedParams : List (List Char) := ["skip".toList, "take".toList, "sort".toList]

/-- The value is not read as one with an operation in front. -/
def Plain (value : List Char) : Prop := ∀ c ∈ value.head?, c ∉ ['!', '>', '<', '~']

theorem mark_parseFilterValue (value : List Char) :
    mark (parseFilterValue value).1 ++ (parseFilterValue value).2 = value := by
  unfold parseFilterValue
  split <;> rfl

theorem parseFilterValue_of_plain {value : List Char} (h : Plain value) :
    parseFilterValue value = (.eq, value) := by
  unfold parseFilterValue
  split
  case h_7 => rfl
  all_goals exact absurd (h _ rfl) (by decide)

theorem written_filter (parameter : Parameter) : written parameter.filter = parameter := by
  unfold written Parameter.filter
  rw [String.toList_ofList, String.toList_ofList, mark_parseFilterValue]

theorem reserved_self : ∀ name ∈ reservedParams, urlcodeDecode name = name := by decide

/-- A name that is not reserved is not encoded as one that is. -/
theorem Parameter.Encodes.not_reserved {parameter encoded : Parameter}
    (h : parameter.Encodes encoded) (hname : parameter.1 ∉ reservedParams) :
    encoded.1 ∉ reservedParams := by
  intro hmem
  have hself := reserved_self encoded.1 hmem
  rw [urlcodeDecode_encoded h.1] at hself
  exact hname (hself ▸ hmem)

theorem add_of_not_reserved {parameter : Parameter} (params : QueryParams)
    (hsplit : splitOnce '=' parameter.text = some parameter)
    (hname : parameter.1 ∉ reservedParams) :
    params.add parameter.text =
      { params with filters := params.filters ++ [parameter.filter] } := by
  simp only [reservedParams, List.mem_cons, List.not_mem_nil, or_false, not_or] at hname
  obtain ⟨hskip, htake, hsort⟩ := hname
  unfold QueryParams.add
  rw [hsplit]
  simp only [if_neg hskip, if_neg htake, if_neg hsort]
  rfl

theorem foldl_add (h : List.Forall₂ Parameter.Encodes parameters encoded)
    (hreserved : ∀ parameter ∈ parameters, parameter.1 ∉ reservedParams) (params : QueryParams) :
    (encoded.map Parameter.text).foldl QueryParams.add params =
      { params with filters := params.filters ++ encoded.map Parameter.filter } := by
  induction h generalizing params with
  | nil => simp
  | cons hfirst hrest ih =>
    have hname := hfirst.not_reserved (hreserved _ List.mem_cons_self)
    rw [List.map_cons, List.foldl_cons, add_of_not_reserved params hfirst.splitOnce_text hname,
      ih fun parameter hparameter ↦ hreserved parameter (List.mem_cons_of_mem _ hparameter)]
    simp

/-- Each parameter is a filter, as it is written in the query. -/
theorem parseQueryParams_queryString (h : List.Forall₂ Parameter.Encodes parameters encoded)
    (hreserved : ∀ parameter ∈ parameters, parameter.1 ∉ reservedParams) :
    parseQueryParams (String.ofList (queryString encoded)) =
      ⟨0, none, none, encoded.map Parameter.filter⟩ := by
  have hnil : QueryParams.add ⟨0, none, none, []⟩ [] = ⟨0, none, none, []⟩ := rfl
  unfold parseQueryParams
  rw [String.toList_ofList, foldl_splitOn_queryString hnil (not_mem_text_of_mem h),
    foldl_add h hreserved]
  rfl

/-! ### Where the parsers agree -/

/-- The two parsers read the same names and values. -/
def Agree (path query : List Char) : Prop :=
  ∀ key value, (parsePathAndQuery (path ++ '?' :: query)).2.lookup key = some value ↔
    (key, value) ∈ (parseQueryParams (String.ofList query)).filters.map written

/-- A filter without an operation in front selects, of the items with a text in the field, those
with the text of the parameter. -/
def Selects (ops : QueryOps) (parameter : Parameter) (filter : FilterSpec) : Prop :=
  Plain parameter.2 → ∀ (item : Json) (text : String),
    item.get (String.ofList parameter.1) = some (.string text) →
      (matchesFilter ops item filter = true ↔ text.toList = parameter.2)

/-- The length of a parameter in bytes. -/
def Parameter.size (parameter : Parameter) : ℕ :=
  (utf8 parameter.1).length + (utf8 parameter.2).length

theorem Parameter.Encodes.size_le {parameter encoded : Parameter} (h : parameter.Encodes encoded) :
    parameter.size ≤ encoded.size := by
  have hname := h.1.length_le
  have hvalue := h.2.length_le
  rw [← h.1.length_utf8] at hname
  rw [← h.2.length_utf8] at hvalue
  exact Nat.add_le_add hname hvalue

theorem Parameter.Encodes.eq_of_size {parameter encoded : Parameter}
    (h : parameter.Encodes encoded) (hsize : encoded.size = parameter.size) :
    encoded = parameter := by
  have hname := h.1.length_le
  have hvalue := h.2.length_le
  rw [← h.1.length_utf8] at hname
  rw [← h.2.length_utf8] at hvalue
  unfold Parameter.size at hsize
  exact Prod.ext (h.1.eq_self (by omega)) (h.2.eq_self (by omega))

/-- Encoding makes a query longer, or leaves it as it is. -/
theorem sum_size (h : List.Forall₂ Parameter.Encodes parameters encoded) :
    (parameters.map Parameter.size).sum ≤ (encoded.map Parameter.size).sum ∧
      ((encoded.map Parameter.size).sum = (parameters.map Parameter.size).sum →
        encoded = parameters) := by
  induction h with
  | nil => exact ⟨le_rfl, fun _ ↦ rfl⟩
  | cons hfirst hrest ih =>
    obtain ⟨hle, heq⟩ := ih
    have hfirstLe := hfirst.size_le
    simp only [List.map_cons, List.sum_cons]
    refine ⟨Nat.add_le_add hfirstLe hle, fun hsum ↦ ?_⟩
    rw [hfirst.eq_of_size (by omega), heq (by omega)]

theorem map_written_filter (encoded : List Parameter) :
    (encoded.map Parameter.filter).map written = encoded := by
  rw [List.map_map]
  exact List.map_id'' written_filter encoded

/-- What is the same set of names and values is the same query: an encoding that moves the names
about would be longer. -/
theorem agree_iff {path : List Char} (hpath : '?' ∉ path)
    (hkeys : (parameters.map Prod.fst).Nodup)
    (hreserved : ∀ parameter ∈ parameters, parameter.1 ∉ reservedParams)
    (h : List.Forall₂ Parameter.Encodes parameters encoded) :
    Agree path (queryString encoded) ↔ encoded = parameters := by
  have hfilters : (parseQueryParams (String.ofList (queryString encoded))).filters.map written =
      encoded := by
    rw [parseQueryParams_queryString h hreserved]
    exact map_written_filter encoded
  unfold Agree
  rw [hfilters]
  simp only [lookup_parsePathAndQuery hpath hkeys h]
  constructor
  · intro hagree
    have hsubset : parameters ⊆ encoded := fun parameter ↦ (hagree parameter.1 parameter.2).mp
    have hperm : parameters.Perm encoded :=
      (List.subperm_of_subset hkeys.of_map hsubset).perm_of_length_le h.length_eq.ge
    exact (sum_size h).2 (hperm.map Parameter.size).sum_eq.symm
  · rintro rfl key value
    exact Iff.rfl

theorem selects_filter (ops : QueryOps) (parameter : Parameter) :
    Selects ops parameter parameter.filter := by
  intro hplain item text hitem
  have hfilter : parameter.filter =
      ⟨String.ofList parameter.1, .eq, String.ofList parameter.2⟩ := by
    rw [Parameter.filter, parseFilterValue_of_plain hplain]
  unfold matchesFilter
  rw [hfilter, hitem]
  simp only [valueEquals, beq_iff_eq]
  constructor
  · rintro rfl
    exact String.toList_ofList
  · intro htext
    rw [← htext, String.ofList_toList]

/-- The parsers read the same, and filters select what they should, in queries in which nothing is
encoded. -/
theorem agree_and_selects_iff (ops : QueryOps) {path : List Char} (hpath : '?' ∉ path)
    (hkeys : (parameters.map Prod.fst).Nodup)
    (hreserved : ∀ parameter ∈ parameters, parameter.1 ∉ reservedParams)
    (h : List.Forall₂ Parameter.Encodes parameters encoded) :
    Agree path (queryString encoded) ∧
      List.Forall₂ (Selects ops) parameters
        (parseQueryParams (String.ofList (queryString encoded))).filters ↔
      encoded = parameters := by
  rw [agree_iff hpath hkeys hreserved h, parseQueryParams_queryString h hreserved]
  constructor
  · exact And.left
  · rintro rfl
    refine ⟨rfl, ?_⟩
    rw [List.forall₂_map_right_iff, List.forall₂_same]
    exact fun parameter _ ↦ selects_filter ops parameter

theorem encodes_plain : Parameter.Encodes ("name".toList, "ab".toList)
    ("name".toList, "ab".toList) :=
  ⟨encodes_percentEncode (utf8 "name".toList), encodes_percentEncode (utf8 "ab".toList)⟩

theorem agree_and_selects_plain :
    Agree "/items".toList "name=ab".toList ∧
      List.Forall₂ (Selects wholeNumbers) [("name".toList, "ab".toList)]
        (parseQueryParams "name=ab").filters :=
  (@agree_and_selects_iff _ _ wholeNumbers "/items".toList (by decide) (by decide) (by decide)
    (.cons encodes_plain .nil)).mpr rfl

theorem encodes_space : Parameter.Encodes ("name".toList, "a b".toList)
    ("name".toList, "a%20b".toList) :=
  ⟨encodes_percentEncode (utf8 "name".toList), encodes_percentEncode (utf8 "a b".toList)⟩

/-- A value with a space is not the one that the filter looks for: it selects no item that has it,
and one that has the encoded text. -/
theorem not_agree_space :
    List.Forall₂ Parameter.Encodes [("name".toList, "a b".toList)]
        [("name".toList, "a%20b".toList)] ∧
      ¬ Agree "/items".toList "name=a%20b".toList ∧
      (parseQueryParams "name=a%20b").filters = [⟨"name", .eq, "a%20b"⟩] ∧
      matchesFilter wholeNumbers (.object [("name", .string "a b")]) ⟨"name", .eq, "a%20b"⟩ =
        false ∧
      matchesFilter wholeNumbers (.object [("name", .string "a%20b")]) ⟨"name", .eq, "a%20b"⟩ =
        true := by
  have hencodes : List.Forall₂ Parameter.Encodes [("name".toList, "a b".toList)]
      [("name".toList, "a%20b".toList)] := .cons encodes_space .nil
  refine ⟨hencodes, ?_, by decide, by decide, by decide⟩
  intro hagree
  have hsame := (@agree_iff _ _ "/items".toList (by decide) (by decide) (by decide) hencodes).mp
    hagree
  exact absurd hsame (by decide)

end Lithair.Http.QueryString
