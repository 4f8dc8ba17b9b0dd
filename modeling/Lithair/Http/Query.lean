import Lithair.Lib.Json
import Lithair.Lib.Text
import Mathlib.Data.List.Infix

/-!
# Query parameters of a collection

`http/query.rs`: what the query of a list request says about filters, order and page, and how an
item is compared with it. The doubles of JSON numbers, the texts of values, the lower case of texts
and sorting are the structure `QueryOps`.
-/

namespace Lithair.Http

open Lithair.Lib Lithair.Lib.Text

/-- The length of a page when the request does not say it. -/
def defaultMaxTake : ℕ := 1000

structure SortSpec where
  field : String
  descending : Bool
  deriving DecidableEq

inductive FilterOp
  | eq | ne | gt | lt | gte | lte | contains
  deriving DecidableEq

structure FilterSpec where
  field : String
  op : FilterOp
  value : String
  deriving DecidableEq

structure QueryParams where
  skip : ℕ
  take : Option ℕ
  sort : Option SortSpec
  filters : List FilterSpec
  deriving DecidableEq

/-! ### Reading a query -/

/-- A number of 64 bits in base ten, which may have a plus sign. -/
def parseU64 (text : List Char) : Option ℕ :=
  if withoutSign text = [] ∨ (withoutSign text).all Char.isDigit = false then none
  else (some (Nat.ofDigitChars 10 (withoutSign text) 0)).filter fun n ↦ decide (n < 2 ^ 64)

/-- The parts of a text in front of and behind the first mark. -/
def splitOnce (mark : Char) (text : List Char) : Option (List Char × List Char) :=
  if mark ∈ text then
    some (text.takeWhile (· ≠ mark), (text.dropWhile (· ≠ mark)).tail)
  else none

/-- The operation of a filter, and the text behind it. -/
def parseFilterValue : List Char → FilterOp × List Char
  | '>' :: '=' :: rest => (.gte, rest)
  | '<' :: '=' :: rest => (.lte, rest)
  | '>' :: rest => (.gt, rest)
  | '<' :: rest => (.lt, rest)
  | '~' :: rest => (.contains, rest)
  | '!' :: rest => (.ne, rest)
  | value => (.eq, value)

def parseSort : List Char → SortSpec
  | '-' :: field => ⟨String.ofList field, true⟩
  | field => ⟨String.ofList field, false⟩

/-- One parameter; a later one takes the place of an earlier, and filters add up. -/
def QueryParams.add (params : QueryParams) (pair : List Char) : QueryParams :=
  match splitOnce '=' pair with
  | none => params
  | some (key, value) =>
    if key = "skip".toList then { params with skip := (parseU64 value).getD 0 }
    else if key = "take".toList then { params with take := parseU64 value }
    else if key = "sort".toList then { params with sort := some (parseSort value) }
    else
      let (op, value) := parseFilterValue value
      { params with
        filters := params.filters ++ [⟨String.ofList key, op, String.ofList value⟩] }

def parseQueryParams (query : String) : QueryParams :=
  (query.toList.splitOn '&').foldl QueryParams.add ⟨0, none, none, []⟩

/-! ### Comparing values -/

/-- What is used of doubles, of the texts of values, of lower case, and of sorting. -/
structure QueryOps where
  Double : Type
  ofNumber : Number → Option Double
  ofText : String → Option Double
  zero : Double
  partialCmp : Double → Double → Option Ordering
  /-- The difference is below `f64::EPSILON`. -/
  near : Double → Double → Bool
  numberText : Number → String
  valueText : Json → String
  toLowercase : String → String
  sortBy : (Json → Json → Ordering) → List Json → List Json
  sortBy_perm : ∀ cmp items, (sortBy cmp items).Perm items
  /-- Sorting by an order is stable; what is not an order leaves it open where the items go. -/
  sortBy_eq : ∀ cmp items, Std.TransCmp cmp →
    sortBy cmp items = items.mergeSort fun a b ↦ cmp a b != .gt

variable (ops : QueryOps)

def valueEquals (value : Json) (target : String) : Bool :=
  match value with
  | .string s => s == target
  | .number n =>
    match ops.ofNumber n, ops.ofText target with
    | some val, some tgt => ops.near val tgt
    | _, _ => ops.numberText n == target
  | .bool b => (target == "true" && b) || (target == "false" && !b)
  | .null => target == "null" || target == ""
  | .array _ | .object _ => false

def valueCompare (value : Json) (target : String) : Option Ordering :=
  match value with
  | .number n =>
    (ops.ofText target).bind fun tgt ↦ (ops.ofNumber n).bind fun val ↦ ops.partialCmp val tgt
  | .string s => some (compare s target)
  | .bool b =>
    if target = "true" then some (compare b true)
    else if target = "false" then some (compare b false)
    else none
  | .null | .array _ | .object _ => none

/-- Whether one text stands in another. -/
def containsText (text needle : String) : Bool := decide (needle.toList <:+: text.toList)

/-- The case of a needle counts in numbers only. -/
def valueContains (value : Json) (needle : String) : Bool :=
  match value with
  | .string s => containsText (ops.toLowercase s) (ops.toLowercase needle)
  | .number n => containsText (ops.numberText n) needle
  | value => containsText (ops.toLowercase (ops.valueText value)) (ops.toLowercase needle)

def matchesFilter (item : Json) (filter : FilterSpec) : Bool :=
  match item.get filter.field with
  | none => false
  | some value =>
    match filter.op with
    | .eq => valueEquals ops value filter.value
    | .ne => !valueEquals ops value filter.value
    | .gt => valueCompare ops value filter.value == some .gt
    | .lt => valueCompare ops value filter.value == some .lt
    | .gte => (valueCompare ops value filter.value).any (· != .lt)
    | .lte => (valueCompare ops value filter.value).any (· != .gt)
    | .contains => valueContains ops value filter.value

/-- The order of two values of a field; values of different kinds count as equal, but `null` is in
front of all others. -/
def compareJsonValues : Json → Json → Ordering
  | .number a, .number b =>
    (ops.partialCmp ((ops.ofNumber a).getD ops.zero) ((ops.ofNumber b).getD ops.zero)).getD .eq
  | .string a, .string b => compare a b
  | .bool a, .bool b => compare a b
  | .null, .null => .eq
  | .null, _ => .lt
  | _, .null => .gt
  | _, _ => .eq

/-! ### A page of a list -/

/-- The order of two items under a sort parameter. -/
def SortSpec.compareItems (sort : SortSpec) (a b : Json) : Ordering :=
  let order := compareJsonValues ops ((a.get sort.field).getD .null) ((b.get sort.field).getD .null)
  if sort.descending then order.swap else order

def sortItems (sort : Option SortSpec) (items : List Json) : List Json :=
  match sort with
  | none => items
  | some sort => ops.sortBy (sort.compareItems ops) items

def skipItems (skip : ℕ) (items : List Json) : List Json :=
  if 0 < skip ∧ skip < items.length then items.drop skip
  else if items.length ≤ skip ∧ items ≠ [] then []
  else items

/-- Whole numbers for doubles, which is enough for a query that names no number. -/
def wholeNumbers : QueryOps where
  Double := ℤ
  ofNumber
    | .posInt n => some n.toNat
    | .negInt n => some n.toInt
    | .float _ => none
  ofText := String.toInt?
  zero := 0
  partialCmp a b := some (compare a b)
  near a b := decide (a = b)
  numberText
    | .posInt n => toString n
    | .negInt n => toString n
    | .float _ => ""
  valueText _ := ""
  toLowercase := String.toLower
  sortBy cmp items := items.mergeSort fun a b ↦ cmp a b != .gt
  sortBy_perm _ _ := List.mergeSort_perm _ _
  sortBy_eq _ _ _ := rfl

end Lithair.Http
