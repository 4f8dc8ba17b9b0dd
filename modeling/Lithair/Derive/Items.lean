import Lithair.Derive.FieldAttributes

/-!
# The items of a field

What can be written into the attributes of a field: the items `key` and `key = literal` of the
attributes `db`, `lifecycle`, `http`, `permission` and `persistence`, with the tokens they are
(`ItemList.tokens`), next to attributes with any other path.

What such a field declares (`declared`) is what its items declare one after the other, each the
value behind its key (`Item.declare`).
-/

namespace Lithair.Derive

/-! ### Items -/

/-- The attributes whose items declare something of a field. -/
inductive Kind
  | db
  | lifecycle
  | http
  | permission
  | persistence
  deriving DecidableEq

def Kind.name : Kind → String
  | .db => "db"
  | .lifecycle => "lifecycle"
  | .http => "http"
  | .permission => "permission"
  | .persistence => "persistence"

/-- An identifier. -/
structure Key where
  name : String
  noQuote : '"' ∉ name.toList
  noEquals : '=' ∉ name.toList

/-- What a literal means. -/
inductive LiteralValue
  | text (value : String)
  | number (value : ℕ)
  | other

/-- The letters before the first quote, hash or digit of a literal. -/
def literalPrefixes : List Char := ['r', 'b', 'c']

/-- What comes behind such letters begins with no letter and no underscore. -/
def opensLiteral (token : String) : Bool :=
  (token.toList.dropWhile (· ∈ literalPrefixes)).head?.any fun c ↦ !c.isAlpha && c != '_'

/-- A literal as it is written, with what it means. -/
structure Literal where
  token : String
  value : LiteralValue
  opens : opensLiteral token = true

inductive ItemValue
  | literal (written : Literal)
  | bool (value : Bool)

/-- `key`, or `key = value`. -/
structure Item where
  key : Key
  value : Option ItemValue

def boolToken (value : Bool) : String := if value then "true" else "false"

def ItemValue.token : ItemValue → Token
  | .literal written => .literal written.token
  | .bool value => .ident (boolToken value)

def Item.tokens (item : Item) : List Token :=
  .ident item.key.name :: item.value.elim [] fun value ↦ [.punct '=', value.token]

/-- The items of one attribute, after the last of which there may be a comma. -/
structure ItemList where
  kind : Kind
  items : List Item
  trailingComma : Bool

/-- Items with commas between them. -/
def separated : List Item → List Token
  | [] => []
  | [item] => item.tokens
  | item :: next :: rest => item.tokens ++ .punct ',' :: separated (next :: rest)

def ItemList.tokens (list : ItemList) : List Token :=
  separated list.items ++ if list.trailingComma then [.punct ','] else []

/-- An attribute of a field: items of one of the kinds, or an attribute with another path. -/
inductive FieldAttribute
  | items (list : ItemList)
  | other (attr : Attribute) (hother : ∀ kind : Kind, attr.ident ≠ some kind.name)

def FieldAttribute.attribute : FieldAttribute → Attribute
  | .items list => ⟨some list.kind.name, .list list.tokens⟩
  | .other attr _ => attr

/-- The items of a field, each with the kind of its attribute. -/
def entries (field : List FieldAttribute) : List (Kind × Item) :=
  field.flatMap fun
    | .items list => list.items.map (Prod.mk list.kind)
    | .other _ _ => []

/-- The attributes of a field that are of no kind. -/
def others (field : List FieldAttribute) : List FieldAttribute :=
  field.filter fun
    | .items _ => false
    | .other _ _ => true

/-! ### What is declared -/

/-- The keys that are on or off. -/
inductive Flag
  | primaryKey
  | unique
  | indexed
  | nullable
  | immutable
  | audited
  | snapshotOnly
  | replicate
  | trackHistory
  | cache
  deriving DecidableEq

namespace Flag

def all : List Flag :=
  [primaryKey, unique, indexed, nullable, immutable, audited, snapshotOnly, replicate, trackHistory,
    cache]

def kind : Flag → Kind
  | primaryKey | unique | indexed | nullable => .db
  | immutable | audited | snapshotOnly => .lifecycle
  | replicate | trackHistory | cache => .persistence

def key : Flag → String
  | primaryKey => "primary_key"
  | unique => "unique"
  | indexed => "indexed"
  | nullable => "nullable"
  | immutable => "immutable"
  | audited => "audited"
  | snapshotOnly => "snapshot_only"
  | replicate => "replicate"
  | trackHistory => "track_history"
  | cache => "cache"

def get : Flag → FieldAttributes → Bool
  | primaryKey => FieldAttributes.primaryKey
  | unique => FieldAttributes.unique
  | indexed => FieldAttributes.indexed
  | nullable => FieldAttributes.nullable
  | immutable => FieldAttributes.immutable
  | audited => FieldAttributes.audited
  | snapshotOnly => FieldAttributes.snapshotOnly
  | replicate => FieldAttributes.replicate
  | trackHistory => FieldAttributes.trackHistory
  | cache => FieldAttributes.cache

def put (flag : Flag) (value : Bool) (attrs : FieldAttributes) : FieldAttributes :=
  match flag with
  | primaryKey => { attrs with primaryKey := value }
  | unique => { attrs with unique := value }
  | indexed => { attrs with indexed := value }
  | nullable => { attrs with nullable := value }
  | immutable => { attrs with immutable := value }
  | audited => { attrs with audited := value }
  | snapshotOnly => { attrs with snapshotOnly := value }
  | replicate => { attrs with replicate := value }
  | trackHistory => { attrs with trackHistory := value }
  | cache => { attrs with cache := value }

/-- The flag that a key of an attribute stands for. -/
def ofKey (kind : Kind) (name : String) : Option Flag :=
  all.find? fun flag ↦ flag.kind = kind ∧ flag.key = name

theorem get_put (flag other : Flag) (value : Bool) (attrs : FieldAttributes) :
    flag.get (other.put value attrs) = if flag = other then value else flag.get attrs := by
  cases flag <;> cases other <;> rfl

theorem ofKey_eq_some_iff {kind : Kind} {name : String} {flag : Flag} :
    ofKey kind name = some flag ↔ flag.kind = kind ∧ flag.key = name := by
  constructor
  · intro h
    simpa using List.find?_some h
  · rintro ⟨rfl, rfl⟩
    cases flag <;> rfl

end Flag

namespace Item

/-- On for a key alone or `= true`, off for `= false`. -/
def switch (item : Item) : Option Bool :=
  match item.value with
  | none => some true
  | some (.bool value) => some value
  | some (.literal _) => none

def text (item : Item) : Option String :=
  match item.value with
  | some (.literal ⟨_, .text value, _⟩) => some value
  | _ => none

def number (bits : ℕ) (item : Item) : Option ℕ :=
  match item.value with
  | some (.literal ⟨_, .number value, _⟩) => if value < 2 ^ bits then some value else none
  | _ => none

/-- The default is a string, or any other literal as it is written. -/
def defaultValue (item : Item) : Option String :=
  match item.value with
  | none => none
  | some (.bool value) => some (boolToken value)
  | some (.literal ⟨_, .text value, _⟩) => some value
  | some (.literal ⟨token, _, _⟩) => some token

/-- The item sets the key it names, when this has a value, of the type the item has one of. -/
def declareValue (kind : Kind) (attrs : FieldAttributes) (item : Item) : FieldAttributes :=
  match kind, item.key.name with
  | .db, "fk" => { attrs with foreignKey := item.text <|> attrs.foreignKey }
  | .db, "default" => { attrs with defaultValue := item.defaultValue <|> attrs.defaultValue }
  | .lifecycle, "versioned" => { attrs with versioned := (item.number 32).getD attrs.versioned }
  | .lifecycle, "retention" => { attrs with retention := (item.number 64).getD attrs.retention }
  | .http, "expose" => { attrs with expose := item.switch.getD attrs.expose }
  | .http, "validate" => { attrs with validation := attrs.validation ++ item.text.toList }
  | .http, "serialize" => { attrs with serialization := item.text <|> attrs.serialization }
  | .permission, "read" => { attrs with readPermission := item.text <|> attrs.readPermission }
  | .permission, "write" => { attrs with writePermission := item.text <|> attrs.writePermission }
  | .persistence, "compact_after" =>
    { attrs with compactAfter := item.number 64 <|> attrs.compactAfter }
  | .persistence, "snapshot_every" =>
    { attrs with snapshotEvery := item.number 64 <|> attrs.snapshotEvery }
  | _, _ => attrs

/-- The item sets the key it names. -/
def declare (kind : Kind) (attrs : FieldAttributes) (item : Item) : FieldAttributes :=
  match Flag.ofKey kind item.key.name with
  | some flag => flag.put (item.switch.getD (flag.get attrs)) attrs
  | none => item.declareValue kind attrs

end Item

/-- The attributes of no kind: those that are read are about relations and owners. -/
def parseOther (attrs : FieldAttributes) (attr : Attribute) : FieldAttributes :=
  if attr.ident = some "rbac" then parseRbacAttributes attrs attr
  else if attr.ident = some "relation" then parseRelationAttributes attrs attr
  else attrs

/-- One attribute sets what its items declare, in their order. -/
def FieldAttribute.declare (attrs : FieldAttributes) : FieldAttribute → FieldAttributes
  | .items list => list.items.foldl (Item.declare list.kind) attrs
  | .other attr _ => parseOther attrs attr

/-- What the attributes of a field declare. -/
def declared (field : List FieldAttribute) : FieldAttributes :=
  field.foldl FieldAttribute.declare FieldAttributes.initial

end Lithair.Derive
