import Lithair.Lib.Text

/-!
# The attributes of a field

What `declarative_simple.rs` reads of the attributes of a field. An attribute is a list of tokens;
every scanner (`scanDb`, `scanLifecycle`, `scanHttp`, `scanPermission`, `scanRbac`,
`scanPersistence`) is given them one after the other, and only `parseRelation` looks at the tokens
behind the one it is at. The default of a field is looked for in the text of the whole attribute
(`defaultText`).

From the permissions of the fields the derived model gets its `can_read` and `can_write`
(`DerivedModel.canRead`, `DerivedModel.canWrite`).
-/

namespace Lithair.Derive

open Lithair.Lib.Text

/-! ### Tokens -/

/-- A token of an attribute, with its text. -/
inductive Token
  | ident (name : String)
  | punct (mark : Char)
  | literal (text : String)
  | group (text : String)
  deriving DecidableEq

def Token.toString : Token → String
  | .ident name => name
  | .punct mark => String.singleton mark
  | .literal text => text
  | .group text => text

/-- The forms of an attribute: `#[path]`, `#[path(tokens)]` and `#[path = value]`. -/
inductive Meta
  | path
  | list (tokens : List Token)
  | nameValue

structure Attribute where
  /-- The path of the attribute, when it is one identifier. -/
  ident : Option String
  form : Meta

/-- Parsed field attributes from declarative annotations. -/
@[ext]
structure FieldAttributes where
  primaryKey : Bool := false
  unique : Bool := false
  indexed : Bool := false
  foreignKey : Option String := none
  nullable : Bool := false
  immutable : Bool := false
  audited : Bool := false
  versioned : ℕ := 0
  retention : ℕ := 0
  snapshotOnly : Bool := false
  expose : Bool := false
  validation : List String := []
  serialization : Option String := none
  readPermission : Option String := none
  writePermission : Option String := none
  ownerField : Bool := false
  hasMany : Option String := none
  hasOne : Option String := none
  belongsTo : Option String := none
  cascadeDelete : Bool := false
  cascadeNull : Bool := false
  relationLazy : Bool := false
  replicate : Bool := false
  trackHistory : Bool := false
  cache : Bool := false
  compactAfter : Option ℕ := none
  snapshotEvery : Option ℕ := none
  defaultValue : Option String := none

def usizeMax : ℕ := 2 ^ 64 - 1

/-- The attributes `parse_field_attributes` begins with: exposed, and without a retention limit. -/
def FieldAttributes.initial : FieldAttributes := { expose := true, retention := usizeMax }

/-! ### What is in the text of a token -/

/-- What is between the first and the last quote. -/
def extractStringValue (token : String) : Option String :=
  match token.toList.findIdx? (· == '"'), token.toList.reverse.findIdx? (· == '"') with
  | some start, some fromEnd =>
    if start < token.length - 1 - fromEnd then
      some (String.ofList ((token.toList.take (token.length - 1 - fromEnd)).drop (start + 1)))
    else none
  | _, _ => none

/-- A number in base ten, which may have a plus sign. -/
def parseUnsigned (bits : ℕ) (text : List Char) : Option ℕ :=
  if withoutSign text = [] ∨ (withoutSign text).all Char.isDigit = false then none
  else (some (Nat.ofDigitChars 10 (withoutSign text) 0)).filter fun n ↦ decide (n < 2 ^ bits)

/-- The number behind the first equals sign. -/
def extractUnsigned (bits : ℕ) (token : String) : Option ℕ :=
  (behind '=' token.toList).bind fun value ↦ parseUnsigned bits (trim value)

def extractU32Value (token : String) : Option ℕ := extractUnsigned 32 token

def extractUsizeValue (token : String) : Option ℕ := extractUnsigned 64 token

def extractU64Value (token : String) : Option ℕ := extractUnsigned 64 token

def startsWith (token start : String) : Bool := start.toList.isPrefixOf token.toList

def contains (token part : String) : Bool := (fromFirst part.toList token.toList).isSome

theorem extractStringValue_eq_none {token : String} (h : '"' ∉ token.toList) :
    extractStringValue token = none := by
  have hfind : token.toList.findIdx? (· == '"') = none := by
    rw [List.findIdx?_eq_none_iff]
    intro c hc
    exact beq_false_of_ne fun heq ↦ h (heq ▸ hc)
  rw [extractStringValue, hfind]

theorem findIdx?_quote {front rest : List Char} (h : '"' ∉ front) :
    (front ++ '"' :: rest).findIdx? (· == '"') = some front.length := by
  have hnone : front.findIdx? (· == '"') = none := by
    rw [List.findIdx?_eq_none_iff]
    intro c hc
    exact beq_false_of_ne fun heq ↦ h (heq ▸ hc)
  rw [List.findIdx?_append, hnone, List.findIdx?_cons]
  simp

theorem extractStringValue_between {token : String} {front value back : List Char}
    (hfront : '"' ∉ front) (hback : '"' ∉ back)
    (htoken : token.toList = front ++ '"' :: (value ++ '"' :: back)) :
    extractStringValue token = some (String.ofList value) := by
  have hreverse : token.toList.reverse =
      back.reverse ++ '"' :: (front ++ '"' :: value).reverse := by
    rw [htoken]
    simp
  have hlength : token.length = front.length + 1 + value.length + 1 + back.length := by
    rw [← String.length_toList, htoken]
    simp only [List.length_append, List.length_cons]
    omega
  have hend : front.length + 1 + value.length + 1 + back.length - 1 - back.length =
      (front ++ '"' :: value).length := by
    simp only [List.length_append, List.length_cons]
    omega
  have hlt : front.length < (front ++ '"' :: value).length := by
    simp only [List.length_append, List.length_cons]
    omega
  have htake : token.toList.take (front ++ '"' :: value).length = front ++ '"' :: value := by
    rw [htoken, ← List.cons_append, ← List.append_assoc, List.take_left]
  have hdrop : (front ++ '"' :: value).drop (front.length + 1) = value := by
    rw [List.append_cons front '"' value]
    exact List.drop_left' (by simp)
  rw [extractStringValue, hreverse, findIdx?_quote (by simpa using hback), List.length_reverse,
    htoken, findIdx?_quote hfront, ← htoken]
  simp only [hlength, hend, if_pos hlt, htake, hdrop]

theorem extractStringValue_once {token : String} {front back : List Char} (hfront : '"' ∉ front)
    (hback : '"' ∉ back) (htoken : token.toList = front ++ '"' :: back) :
    extractStringValue token = none := by
  have hreverse : token.toList.reverse = back.reverse ++ '"' :: front.reverse := by
    rw [htoken]
    simp
  have hlength : token.length = front.length + 1 + back.length := by
    rw [← String.length_toList, htoken]
    simp only [List.length_append, List.length_cons]
    omega
  rw [extractStringValue, hreverse, findIdx?_quote (by simpa using hback), List.length_reverse,
    htoken, findIdx?_quote hfront]
  exact if_neg (by omega)

/-- A value stands between the first and the last quote. -/
theorem extractStringValue_eq_some_iff {token value : String} :
    extractStringValue token = some value ↔ ∃ front back, '"' ∉ front ∧ '"' ∉ back ∧
      token.toList = front ++ '"' :: (value.toList ++ '"' :: back) := by
  constructor
  · intro h
    by_cases hmem : '"' ∈ token.toList
    · obtain ⟨front, rest, htoken, hfront⟩ := List.eq_append_cons_of_mem hmem
      by_cases hagain : '"' ∈ rest.reverse
      · obtain ⟨back, body, hrest, hback⟩ := List.eq_append_cons_of_mem hagain
        have hback : '"' ∉ back.reverse := by simpa using hback
        have hrest : rest = body.reverse ++ '"' :: back.reverse := by
          rw [← List.reverse_reverse rest, hrest]
          simp
        rw [hrest] at htoken
        rw [extractStringValue_between hfront hback htoken] at h
        refine ⟨front, back.reverse, hfront, hback, ?_⟩
        rw [← Option.some.inj h, String.toList_ofList]
        exact htoken
      · rw [extractStringValue_once hfront (by simpa using hagain) htoken] at h
        exact absurd h nofun
    · rw [extractStringValue_eq_none hmem] at h
      exact absurd h nofun
  · rintro ⟨front, back, hfront, hback, htoken⟩
    rw [extractStringValue_between hfront hback htoken, String.ofList_toList]

theorem extractUnsigned_eq_none {bits : ℕ} {token : String} (h : '=' ∉ token.toList) :
    extractUnsigned bits token = none := by
  have hbehind : behind '=' token.toList = none := by
    refine Option.eq_none_iff_forall_ne_some.mpr fun after hafter ↦ ?_
    obtain ⟨between, htext, -⟩ := behind_eq_some_iff.mp hafter
    exact h (htext ▸ List.mem_append_right _ List.mem_cons_self)
  rw [extractUnsigned, hbehind, Option.bind_none]

/-! ### The scanners -/

def scanDb (attrs : FieldAttributes) (nested : String) : FieldAttributes :=
  if nested = "primary_key" then { attrs with primaryKey := true }
  else if nested = "unique" then { attrs with unique := true }
  else if nested = "indexed" then { attrs with indexed := true }
  else if nested = "nullable" then { attrs with nullable := true }
  else if startsWith nested "fk" then
    (extractStringValue nested).elim attrs fun value ↦ { attrs with foreignKey := some value }
  else attrs

def scanLifecycle (attrs : FieldAttributes) (nested : String) : FieldAttributes :=
  if nested = "immutable" then { attrs with immutable := true }
  else if nested = "audited" then { attrs with audited := true }
  else if nested = "snapshot_only" then { attrs with snapshotOnly := true }
  else if startsWith nested "versioned" then
    (extractU32Value nested).elim attrs fun value ↦ { attrs with versioned := value }
  else if startsWith nested "retention" then
    (extractUsizeValue nested).elim attrs fun value ↦ { attrs with retention := value }
  else attrs

def scanHttp (attrs : FieldAttributes) (nested : String) : FieldAttributes :=
  if nested = "expose" then { attrs with expose := true }
  else if startsWith nested "expose" && contains nested "false" then { attrs with expose := false }
  else if startsWith nested "validate" then
    (extractStringValue nested).elim attrs fun value ↦
      { attrs with validation := attrs.validation ++ [value] }
  else if startsWith nested "serialize" then
    (extractStringValue nested).elim attrs fun value ↦ { attrs with serialization := some value }
  else attrs

def scanPermission (attrs : FieldAttributes) (nested : String) : FieldAttributes :=
  if startsWith nested "read" then
    (extractStringValue nested).elim attrs fun value ↦ { attrs with readPermission := some value }
  else if startsWith nested "write" then
    (extractStringValue nested).elim attrs fun value ↦ { attrs with writePermission := some value }
  else attrs

def scanRbac (attrs : FieldAttributes) (nested : String) : FieldAttributes :=
  if contains nested "owner_field" then { attrs with ownerField := true } else attrs

def scanPersistence (attrs : FieldAttributes) (nested : String) : FieldAttributes :=
  if nested = "replicate" then { attrs with replicate := true }
  else if nested = "track_history" then { attrs with trackHistory := true }
  else if nested = "cache" then { attrs with cache := true }
  else if startsWith nested "compact_after" then
    (extractU64Value nested).elim attrs fun value ↦ { attrs with compactAfter := some value }
  else if startsWith nested "snapshot_every" then
    (extractU64Value nested).elim attrs fun value ↦ { attrs with snapshotEvery := some value }
  else attrs

/-- What a token of a `#[relation(...)]` sets, when the equals sign and another token are behind
it. -/
def setRelation (attrs : FieldAttributes) (token value : String) : FieldAttributes :=
  (extractStringValue value).elim attrs fun value ↦
    if token = "foreign_key" then { attrs with foreignKey := some value }
    else if token = "has_many" then { attrs with hasMany := some value }
    else if token = "has_one" then { attrs with hasOne := some value }
    else { attrs with belongsTo := some value }

/-- The loop of `parse_relation_attributes`. -/
def scanRelation (attrs : FieldAttributes) : List String → FieldAttributes
  | [] => attrs
  | token :: rest =>
    if token = "cascade_delete" then scanRelation { attrs with cascadeDelete := true } rest
    else if token = "cascade_null" then scanRelation { attrs with cascadeNull := true } rest
    else if token = "lazy" then scanRelation { attrs with relationLazy := true } rest
    else if token = "eager" then scanRelation { attrs with relationLazy := false } rest
    else if token ∈ ["foreign_key", "has_many", "has_one", "belongs_to"] then
      match rest with
      | eq :: value :: behindValue =>
        if eq = "=" then scanRelation (setRelation attrs token value) behindValue
        else scanRelation attrs (eq :: value :: behindValue)
      | [last] => scanRelation attrs [last]
      | [] => attrs
    else scanRelation attrs rest

/-! ### The attributes of a field -/

/-- The parsers that do nothing but to scan the tokens of a `#[path(tokens)]`. -/
def parseTokens (scan : FieldAttributes → String → FieldAttributes) (attrs : FieldAttributes)
    (attr : Attribute) : FieldAttributes :=
  match attr.form with
  | .list tokens => (tokens.map Token.toString).foldl scan attrs
  | _ => attrs

def parseLifecycleAttributes : FieldAttributes → Attribute → FieldAttributes :=
  parseTokens scanLifecycle

def parseHttpAttributes : FieldAttributes → Attribute → FieldAttributes := parseTokens scanHttp

def parsePermissionAttributes : FieldAttributes → Attribute → FieldAttributes :=
  parseTokens scanPermission

def parseRbacAttributes : FieldAttributes → Attribute → FieldAttributes := parseTokens scanRbac

def parsePersistenceAttributes : FieldAttributes → Attribute → FieldAttributes :=
  parseTokens scanPersistence

def parseRelationAttributes (attrs : FieldAttributes) (attr : Attribute) : FieldAttributes :=
  match attr.form with
  | .list tokens => scanRelation attrs (tokens.map Token.toString)
  | _ => attrs

/-- The text behind the first `default` and the first equals sign after it, up to a comma and
without quotes around it. -/
def defaultText (fullTokens : List Char) : Option (List Char) :=
  ((fromFirst "default".toList fullTokens).bind (behind '=')).bind fun afterEq ↦
    let value := trimMatches '"' (trim ((trim afterEq).takeWhile (· != ',')))
    if value = [] then none else some value

section Parser

-- The text of a list of tokens: it is for `TokenStream::to_string` to say how they are spaced.
variable (tokensText : List Token → String)

def parseDbAttributes (attrs : FieldAttributes) (attr : Attribute) : FieldAttributes :=
  match attr.form with
  | .list tokens =>
    let scanned := (tokens.map Token.toString).foldl scanDb attrs
    (defaultText (tokensText tokens).toList).elim scanned fun value ↦
      { scanned with defaultValue := some (String.ofList value) }
  | _ => attrs

/-- One attribute of the field, of whatever path. -/
def parseAttribute (attrs : FieldAttributes) (attr : Attribute) : FieldAttributes :=
  if attr.ident = some "db" then parseDbAttributes tokensText attrs attr
  else if attr.ident = some "lifecycle" then parseLifecycleAttributes attrs attr
  else if attr.ident = some "http" then parseHttpAttributes attrs attr
  else if attr.ident = some "permission" then parsePermissionAttributes attrs attr
  else if attr.ident = some "rbac" then parseRbacAttributes attrs attr
  else if attr.ident = some "relation" then parseRelationAttributes attrs attr
  else if attr.ident = some "persistence" then parsePersistenceAttributes attrs attr
  else attrs

def parseFieldAttributes (field : List Attribute) : FieldAttributes :=
  field.foldl (parseAttribute tokensText) FieldAttributes.initial

/-! ### What the derived model permits -/

/-- A struct with named fields, as the derivation sees it. -/
structure DerivedModel where
  fields : List (List Attribute)
  /-- The field and the value of `public_if`, from the attributes of the struct. -/
  publicIf : Option (String × String)

namespace DerivedModel

variable (model : DerivedModel)

def readPerms : List String :=
  model.fields.filterMap fun field ↦ (parseFieldAttributes tokensText field).readPermission

def writePerms : List String :=
  model.fields.filterMap fun field ↦ (parseFieldAttributes tokensText field).writePermission

/-- An instance, of which `self` gives the texts of its fields, meets the condition of
`public_if`. -/
def isPublic (self : String → Option String) : Bool :=
  model.publicIf.any fun condition ↦ self condition.1 == some condition.2

/-- The user has one of the permissions. -/
def holdsOne (perms userPermissions : List String) : Bool :=
  perms.any fun perm ↦ userPermissions.any (· == perm)

/-- The `can_read` of the model, which is the one of `HttpExposable` when none is generated: that
one allows all. -/
def canRead (self : String → Option String) (userPermissions : List String) : Bool :=
  if model.publicIf.isSome || !(model.readPerms tokensText).isEmpty then
    model.isPublic self || holdsOne (model.readPerms tokensText) userPermissions
  else true

def canWrite (userPermissions : List String) : Bool :=
  if !(model.writePerms tokensText).isEmpty then
    holdsOne (model.writePerms tokensText) userPermissions
  else true

end DerivedModel

end Parser

end Lithair.Derive
