import Lithair.Http.Connection
import Lithair.Http.QueryString
import Lithair.Http.Reads

/-!
# The pages of a list

A list request is answered by a part of the items that its filters leave, in the order that it asks
for (`listed`): `skip` of them are left out and at most `take` are sent. `handleList_pages` says so
of every query, and that the pages of one size which a client asks for one after the other are the
whole list, where the last says that there is no more. What `HashMap` and `sort_by` leave open, the
order of the items before and after sorting, is the same for all pages.
-/

namespace Lithair.Http

open Lithair.Lib Lithair.Lib.Text

def GetResponse.data : GetResponse → List Json
  | .list data _ _ _ _ => data
  | _ => []

def GetResponse.hasMore : GetResponse → Bool
  | .list _ _ _ _ hasMore => hasMore
  | _ => false

namespace Reads

variable {T : Type*} (M : HttpExposable T) (ops : QueryOps)

/-- The items of a list request, in the order that it asks for. -/
def listed (query : String) (items : List T) : List Json :=
  let params := parseQueryParams query
  sortItems ops params.sort ((items.filterMap M.toValue).filter fun item ↦
    params.filters.all (matchesFilter ops item))

/-- The part of a list that a request asks for. -/
def page (list : List Json) (skip take : ℕ) : GetResponse :=
  .list ((list.drop skip).take take) list.length skip take (decide (skip + take < list.length))

/-- The query that asks for a page of the list of another query. -/
def pageQuery (query : String) (skip take : ℕ) : String :=
  query ++ "&skip=" ++ skip.repr ++ "&take=" ++ take.repr

/-- The number of pages of a list; an empty one has a page too. -/
def pageCount (items take : ℕ) : ℕ := max 1 ((items + take - 1) / take)

/-! ### One page -/

variable {M ops}

theorem skipItems_eq (skip : ℕ) (items : List Json) : skipItems skip items = items.drop skip := by
  unfold skipItems
  split_ifs with hinside hbeyond
  · rfl
  · rw [List.drop_eq_nil_of_le hbeyond.1]
  · by_cases hskip : skip = 0
    · rw [hskip, List.drop_zero]
    · by_cases hitems : items = []
      · rw [hitems, List.drop_nil]
      · exact absurd ⟨by omega, hitems⟩ hbeyond

theorem length_sortItems (sort : Option SortSpec) (items : List Json) :
    (sortItems ops sort items).length = items.length := by
  cases sort with
  | none => rfl
  | some sort => exact (ops.sortBy_perm _ items).length_eq

theorem listResponse_eq (query : String) (items : List T) :
    listResponse M ops query items = page (listed M ops query items)
      (parseQueryParams query).skip ((parseQueryParams query).take.getD defaultMaxTake) := by
  unfold listResponse page listed
  simp only [skipItems_eq, length_sortItems, List.length_drop, Nat.lt_sub_iff_add_lt']

/-! ### The query of a page -/

/-- The digits of a number are read as it, and do not separate parameters. -/
theorem parseU64_repr {n : ℕ} (hn : n < 2 ^ 64) :
    parseU64 (Nat.toDigits 10 n) = some n ∧ '&' ∉ Nat.toDigits 10 n := by
  have hdigit : ∀ c ∈ Nat.toDigits 10 n, c.isDigit = true :=
    fun c hc ↦ Nat.isDigit_of_mem_toDigits (by decide) (by decide) hc
  constructor
  · rw [Server.parseU64_digits Nat.toDigits_ne_nil (List.all_eq_true.mpr hdigit)
      Nat.ofDigitChars_ten_toDigits, if_pos hn]
  · exact fun hmem ↦ absurd (hdigit _ hmem) (by decide)

theorem add_skip (params : QueryParams) {n : ℕ} (hn : n < 2 ^ 64) :
    params.add ("skip".toList ++ '=' :: Nat.toDigits 10 n) = { params with skip := n } := by
  unfold QueryParams.add
  rw [QueryString.splitOnce_append (by decide)]
  simp only [(parseU64_repr hn).1, if_true, Option.getD_some]

theorem add_take (params : QueryParams) {n : ℕ} (hn : n < 2 ^ 64) :
    params.add ("take".toList ++ '=' :: Nat.toDigits 10 n) = { params with take := some n } := by
  have hne : "take".toList ≠ "skip".toList := by decide
  unfold QueryParams.add
  rw [QueryString.splitOnce_append (by decide)]
  simp only [if_neg hne, if_true, (parseU64_repr hn).1]

theorem toList_pageQuery (query : String) (skip take : ℕ) :
    (pageQuery query skip take).toList =
      query.toList ++ '&' :: (("skip".toList ++ '=' :: Nat.toDigits 10 skip) ++
        '&' :: ("take".toList ++ '=' :: Nat.toDigits 10 take)) := by
  simp [pageQuery, Nat.toList_repr]

/-- The page takes the place of that of the query; filters and order stay. -/
theorem parseQueryParams_pageQuery (query : String) {skip take : ℕ} (hskip : skip < 2 ^ 64)
    (htake : take < 2 ^ 64) :
    parseQueryParams (pageQuery query skip take) =
      { parseQueryParams query with skip := skip, take := some take } := by
  have hskipMark : '&' ∉ "skip".toList ++ '=' :: Nat.toDigits 10 skip := by
    simp [(parseU64_repr hskip).2]
  have htakeMark : '&' ∉ "take".toList ++ '=' :: Nat.toDigits 10 take := by
    simp [(parseU64_repr htake).2]
  unfold parseQueryParams
  rw [toList_pageQuery, List.splitOn_append_cons_self,
    List.splitOn_append_cons_self_of_not_mem hskipMark, List.splitOn_eq_singleton htakeMark,
    List.foldl_append, List.foldl_cons, List.foldl_cons, List.foldl_nil, add_skip _ hskip,
    add_take _ htake]

theorem listed_pageQuery (query : String) {skip take : ℕ} (hskip : skip < 2 ^ 64)
    (htake : take < 2 ^ 64) (items : List T) :
    listed M ops (pageQuery query skip take) items = listed M ops query items := by
  unfold listed
  rw [parseQueryParams_pageQuery query hskip htake]

/-! ### All pages -/

theorem lt_pageCount_iff {items take k : ℕ} (htake : 0 < take) :
    k < pageCount items take ↔ k = 0 ∨ k * take < items := by
  have hdiv : k < (items + take - 1) / take ↔ k * take < items := by
    rw [Nat.lt_iff_add_one_le, Nat.le_div_iff_mul_le htake, Nat.succ_mul]
    omega
  unfold pageCount
  rw [lt_max_iff, hdiv, Nat.lt_one_iff]

theorem le_pageCount_mul {items take : ℕ} (htake : 0 < take) :
    items ≤ pageCount items take * take := by
  by_contra hlt
  exact lt_irrefl _ ((lt_pageCount_iff htake).mpr (.inr (not_le.mp hlt)))

/-- Parts of one length, joined. -/
theorem flatMap_range_drop {α : Type*} (list : List α) (take n : ℕ) :
    ((List.range n).flatMap fun k ↦ (list.drop (k * take)).take take) = list.take (n * take) := by
  induction n with
  | zero => rw [Nat.zero_mul, List.take_zero, List.range_zero, List.flatMap_nil]
  | succ n ih =>
    rw [List.range_succ, List.flatMap_append, ih, List.flatMap_singleton, Nat.succ_mul,
      List.take_add]

variable {canRead : T → List String → Bool} {order : List String} {s : ReadState T}

theorem handleList_page (req : GetRequest) {skip take : ℕ} (hskip : skip < 2 ^ 64)
    (htake : take < 2 ^ 64) :
    handleList M canRead ops order s { req with query := pageQuery req.query skip take } =
      page (listed M ops req.query (readableItems canRead order s req.permissions)) skip take := by
  unfold handleList
  rw [listResponse_eq, listed_pageQuery req.query hskip htake,
    parseQueryParams_pageQuery req.query hskip htake]
  rfl

/-- There is more behind every page but the last. -/
theorem map_hasMore_range (list : List Json) {take : ℕ} (htake : 0 < take) :
    ((List.range (pageCount list.length take)).map fun k ↦ (page list (k * take) take).hasMore) =
      List.replicate (pageCount list.length take - 1) true ++ [false] := by
  obtain ⟨last, hlast⟩ : ∃ last, pageCount list.length take = last + 1 :=
    Nat.exists_eq_add_one.mpr ((@lt_pageCount_iff list.length take 0 htake).mpr (.inl rfl))
  have hmore : ∀ k, (page list (k * take) take).hasMore =
      decide (k + 1 < pageCount list.length take) := by
    intro k
    show decide (k * take + take < list.length) = _
    rw [decide_eq_decide, lt_pageCount_iff htake, Nat.succ_mul]
    exact (or_iff_right (Nat.succ_ne_zero k)).symm
  simp only [hmore, hlast]
  rw [List.range_succ, List.map_append, List.map_singleton, Nat.add_sub_cancel]
  congr 1
  · rw [List.eq_replicate_iff]
    refine ⟨by simp, fun more hmem ↦ ?_⟩
    obtain ⟨k, hk, rfl⟩ := List.mem_map.mp hmem
    exact decide_eq_true (Nat.succ_lt_succ (List.mem_range.mp hk))
  · simp

variable (M ops canRead order s)

/-- The readable, filtered and sorted items that a request is about. -/
def fullList (req : GetRequest) : List Json :=
  listed M ops req.query (readableItems canRead order s req.permissions)

/-- The responses to the requests for the first pages of one size. -/
def pages (req : GetRequest) (take count : ℕ) : List GetResponse :=
  (List.range count).map fun k ↦
    handleList M canRead ops order s { req with query := pageQuery req.query (k * take) take }

variable {M ops canRead order s}

theorem pages_eq {req : GetRequest} {take count : ℕ} (htake : take < 2 ^ 64)
    (hskip : ∀ k < count, k * take < 2 ^ 64) :
    pages M ops canRead order s req take count =
      (List.range count).map fun k ↦
        page (fullList M ops canRead order s req) (k * take) take :=
  List.map_congr_left fun k hk ↦ handleList_page req (hskip k (List.mem_range.mp hk)) htake

/-- A list request is answered by the part of the list that it asks for. The pages of one size are
the list, and the last is the only one that says that there is no more. A list is in memory, so that
its length is a number of 64 bits. -/
theorem handleList_pages (req : GetRequest) :
    handleList M canRead ops order s req = page (fullList M ops canRead order s req)
        (parseQueryParams req.query).skip
        ((parseQueryParams req.query).take.getD defaultMaxTake) ∧
      ((fullList M ops canRead order s req).length < 2 ^ 64 → ∀ take, 0 < take → take < 2 ^ 64 →
        ∀ count, count = pageCount (fullList M ops canRead order s req).length take →
          (pages M ops canRead order s req take count).flatMap GetResponse.data =
              fullList M ops canRead order s req ∧
            (pages M ops canRead order s req take count).map GetResponse.hasMore =
              List.replicate (count - 1) true ++ [false]) := by
  refine ⟨listResponse_eq req.query _, ?_⟩
  rintro hlength take hpos htake count rfl
  have hskip : ∀ k < pageCount (fullList M ops canRead order s req).length take,
      k * take < 2 ^ 64 := by
    intro k hk
    rcases (lt_pageCount_iff hpos).mp hk with rfl | hinside <;> omega
  rw [pages_eq htake hskip, List.map_map, List.flatMap_map]
  refine ⟨?_, map_hasMore_range _ hpos⟩
  exact (flatMap_range_drop _ take _).trans (List.take_of_length_le (le_pageCount_mul hpos))

/-- Two items on pages of one. -/
theorem handleList_pages_shelf :
    (pages Shelf.exposed wholeNumbers (fun _ _ ↦ true) ["a", "b"] withAAndB ⟨[], "", []⟩ 1
        2).flatMap GetResponse.data =
      fullList Shelf.exposed wholeNumbers (fun _ _ ↦ true) ["a", "b"] withAAndB ⟨[], "", []⟩ ∧
    (pages Shelf.exposed wholeNumbers (fun _ _ ↦ true) ["a", "b"] withAAndB ⟨[], "", []⟩ 1 2).map
      GetResponse.hasMore = [true, false] :=
  (handleList_pages ⟨[], "", []⟩).2 (by decide) 1 (by decide) (by decide) 2 (by decide)

end Reads

end Lithair.Http
