import Mathlib.Data.String.Basic

/-!
# JSON values

The value type of a JSON library in which an object is a map with its keys in order: reading a
field (`Json.get`), the members of an object (`Json.asObject`), and the assignment of a field
through an index expression (`Json.setIndex`), which turns `null` into an object and has no result
on any other value that is not an object.
-/

namespace Lithair.Lib

/-- A JSON number: an unsigned or a negative 64-bit integer, or the bits of a double. -/
inductive Number
  | posInt (n : UInt64)
  | negInt (n : Int64)
  | float (bits : UInt64)
  deriving DecidableEq

/-- A JSON value. The fields of an object are listed in key order. -/
inductive Json
  | null
  | bool (b : Bool)
  | number (n : Number)
  | string (s : String)
  | array (items : List Json)
  | object (fields : List (String × Json))

namespace Json

mutual

/-- Equality of values is decidable. -/
def decEq : (a b : Json) → Decidable (a = b)
  | null, null => isTrue rfl
  | bool a, bool b => decidable_of_iff (a = b) (by simp)
  | number a, number b => decidable_of_iff (a = b) (by simp)
  | string a, string b => decidable_of_iff (a = b) (by simp)
  | array a, array b => @decidable_of_iff _ (a = b) (by simp) (decEqItems a b)
  | object a, object b => @decidable_of_iff _ (a = b) (by simp) (decEqFields a b)
  | null, bool _ | null, number _ | null, string _ | null, array _ | null, object _
  | bool _, null | bool _, number _ | bool _, string _ | bool _, array _ | bool _, object _
  | number _, null | number _, bool _ | number _, string _ | number _, array _
  | number _, object _
  | string _, null | string _, bool _ | string _, number _ | string _, array _
  | string _, object _
  | array _, null | array _, bool _ | array _, number _ | array _, string _ | array _, object _
  | object _, null | object _, bool _ | object _, number _ | object _, string _
  | object _, array _ => isFalse (by simp)

def decEqItems : (a b : List Json) → Decidable (a = b)
  | [], [] => isTrue rfl
  | [], _ :: _ => isFalse (by simp)
  | _ :: _, [] => isFalse (by simp)
  | x :: a, y :: b =>
    @decidable_of_iff _ (x = y ∧ a = b) (by simp)
      (@instDecidableAnd _ _ (decEq x y) (decEqItems a b))

def decEqFields : (a b : List (String × Json)) → Decidable (a = b)
  | [], [] => isTrue rfl
  | [], _ :: _ => isFalse (by simp)
  | _ :: _, [] => isFalse (by simp)
  | (k, x) :: a, (l, y) :: b =>
    @decidable_of_iff _ (k = l ∧ x = y ∧ a = b) (by simp [and_assoc])
      (@instDecidableAnd _ _ (instDecidableEqString k l)
        (@instDecidableAnd _ _ (decEq x y) (decEqFields a b)))

end

instance : DecidableEq Json := decEq

/-- Insert a member of an object at its place in key order, replacing the value it had. -/
def insertField (key : String) (value : Json) : List (String × Json) → List (String × Json)
  | [] => [(key, value)]
  | (k, v) :: rest =>
    if key = k then (key, value) :: rest
    else if key < k then (key, value) :: (k, v) :: rest
    else (k, v) :: insertField key value rest

/-- The field of an object; a value of another kind has no fields. -/
def get (key : String) : Json → Option Json
  | object fields => fields.lookup key
  | _ => none

/-- The index expression `value[key]`, which reads a missing field as `null`. -/
def index (value : Json) (key : String) : Json := (value.get key).getD .null

/-- An object literal. -/
def ofFields (fields : List (String × Json)) : Json :=
  object (fields.foldl (fun done field ↦ insertField field.1 field.2 done) [])

def asU64 : Json → Option UInt64
  | number (.posInt n) => some n
  | _ => none

def asStr : Json → Option String
  | string s => some s
  | _ => none

def asBool : Json → Option Bool
  | bool b => some b
  | _ => none

def asArray : Json → Option (List Json)
  | array items => some items
  | _ => none

def asObject : Json → Option (List (String × Json))
  | object fields => some fields
  | _ => none

/-- The assignment `value[key] = v`: a `null` becomes an object first, and any other value that is
not an object has no such place. -/
def setIndex (key : String) (v : Json) : Json → Option Json
  | null => some (object [(key, v)])
  | object fields => some (object (insertField key v fields))
  | _ => none

/-- The values on which `value[key] = v` is defined. -/
def Indexable : Json → Prop
  | null | object _ => True
  | _ => False

instance : DecidablePred Indexable
  | null | object _ => isTrue trivial
  | bool _ | number _ | string _ | array _ => isFalse id

/-- Inserting a member gives its key the value and changes no other key. -/
theorem lookup_insertField (key : String) (value : Json) (fields : List (String × Json))
    (other : String) :
    (insertField key value fields).lookup other =
      if other = key then some value else fields.lookup other := by
  induction fields with
  | nil =>
    unfold insertField
    rw [List.lookup_cons]
    by_cases h : other = key
    · simp [h]
    · rw [beq_false_of_ne h, if_neg h]
  | cons field rest ih =>
    obtain ⟨k, v⟩ := field
    unfold insertField
    by_cases hother : other = key
    · subst hother
      rw [if_pos rfl]
      split_ifs with hk hlt
      · simp
      · simp
      · rw [List.lookup_cons, beq_false_of_ne hk, ih, if_pos rfl]
    · rw [if_neg hother] at ih ⊢
      split_ifs with hk hlt
      · subst hk
        rw [List.lookup_cons, List.lookup_cons, beq_false_of_ne hother]
      · rw [List.lookup_cons, beq_false_of_ne hother]
      · rw [List.lookup_cons, List.lookup_cons, ih]

/-- Of the members of a literal that have one key the last one counts. -/
theorem get_ofFields (fields : List (String × Json)) (key : String) :
    (ofFields fields).get key = fields.reverse.lookup key := by
  have hfold : ∀ done : List (String × Json),
      (fields.foldl (fun done field ↦ insertField field.1 field.2 done) done).lookup key =
        (fields.reverse.lookup key).or (done.lookup key) := by
    induction fields with
    | nil => exact fun done ↦ rfl
    | cons field rest ih =>
      intro done
      rw [List.foldl_cons, ih, lookup_insertField, List.reverse_cons, List.lookup_append,
        Option.or_assoc]
      congr 1
      by_cases hkey : key = field.1
      · rw [if_pos hkey, hkey, List.lookup_cons_self, Option.some_or]
      · rw [if_neg hkey, List.lookup_cons, beq_false_of_ne hkey, List.lookup_nil, Option.none_or]
  exact (hfold []).trans Option.or_none

theorem indexable_object (fields : List (String × Json)) : (object fields).Indexable := trivial

theorem indexable_null : null.Indexable := trivial

end Json

end Lithair.Lib
