import Lithair.Cluster.Wal

/-!
# What a log entry becomes in the write-ahead log

`WalEntry::from_log_entry` and `to_log_entry` of `cluster/wal.rs` with the serialisation that is
derived for `Version` and `SchemaChange` of `cluster/upgrade.rs`: an object of the fields, with the
name of a variant under `type`, and an option as its value or `null`.

A default value that is itself `null` therefore reads back as no default value
(`SchemaChange.ofValue_toValue`). `reread_eq_self_iff` says that this is all that a record of the
log does not keep.
-/

namespace Lithair.Cluster

open Lithair.Lib

/-! ### Fields -/

section Fields

variable {α : Type*}

/-- Read a field that has to be there. -/
def readField (value : Json) (key : String) (read : Json → Option α) : Option α :=
  (value.get key).bind read

/-- Read a field that has a default. -/
def readFieldOr (default : α) (value : Json) (key : String) (read : Json → Option α) : Option α :=
  match value.get key with
  | none => some default
  | some field => read field

/-- Read an option, whose absence is `null`. -/
def readOption (read : Json → Option α) : Json → Option (Option α)
  | .null => some none
  | value => (read value).map some

/-- Write an option. -/
def optionValue (write : α → Json) : Option α → Json
  | none => .null
  | some a => write a

def readArray (read : Json → Option α) (value : Json) : Option (List α) :=
  value.asArray.bind fun items ↦ items.mapM read

def readU32 (value : Json) : Option UInt32 :=
  value.asU64.bind fun n ↦ if n < 4294967296 then some n.toUInt32 else none

def u32Value (n : UInt32) : Json := .number (.posInt n.toUInt64)

theorem readU32_u32Value (n : UInt32) : readU32 (u32Value n) = some n := by
  have hn : n.toUInt64 < 4294967296 := UInt64.lt_iff_toNat_lt.mpr (by simpa using n.toNat_lt)
  simp [readU32, u32Value, Json.asU64, hn]

@[simp] theorem readOption_string (option : Option String) :
    readOption Json.asStr (optionValue .string option) = some option := by
  cases option <;> rfl

/-- An option of a value reads back unless it is the option of `null`. -/
theorem readOption_value (option : Option Json) :
    readOption some (optionValue id option) =
      some (if option = some .null then none else option) := by
  cases option with
  | none => rfl
  | some value => cases value <;> simp [optionValue, readOption]

theorem readArray_map {read : Json → Option α} {write : α → Json}
    (hread : ∀ a, read (write a) = some a) (items : List α) :
    readArray read (.array (items.map write)) = some items := by
  have hitems : (items.map write).mapM read = some items := by
    induction items with
    | nil => rfl
    | cons a rest ih => simp [hread, ih]
  exact hitems

end Fields

/-! ### The derived serialisation -/

namespace Version

def toValue (version : Version) : Json :=
  .ofFields [
    ("major", u32Value version.major),
    ("minor", u32Value version.minor),
    ("patch", u32Value version.patch),
    ("schema_hash", .string version.schemaHash),
    ("build_id", .string version.buildId)]

def ofValue (value : Json) : Option Version := do
  let major ← readField value "major" readU32
  let minor ← readField value "minor" readU32
  let patch ← readField value "patch" readU32
  let schemaHash ← readField value "schema_hash" Json.asStr
  let buildId ← readField value "build_id" Json.asStr
  some { major, minor, patch, schemaHash, buildId }

theorem ofValue_toValue (version : Version) : ofValue version.toValue = some version := by
  simp [ofValue, toValue, readField, Json.get_ofFields, List.lookup_cons, readU32_u32Value,
    Json.asStr]

end Version

namespace FieldType

def name : FieldType → String
  | string => "String"
  | integer => "Integer"
  | float => "Float"
  | boolean => "Boolean"
  | dateTime => "DateTime"
  | uuid => "Uuid"
  | json => "Json"
  | binary => "Binary"

def toValue (fieldType : FieldType) : Json := .string fieldType.name

def ofValue (value : Json) : Option FieldType :=
  value.asStr.bind fun name ↦
    [string, integer, float, boolean, dateTime, uuid, json, binary].find? fun fieldType ↦
      fieldType.name == name

theorem ofValue_toValue (fieldType : FieldType) : ofValue fieldType.toValue = some fieldType := by
  cases fieldType <;> rfl

end FieldType

namespace FieldDefinition

def toValue (field : FieldDefinition) : Json :=
  .ofFields [
    ("name", .string field.name),
    ("field_type", field.fieldType.toValue),
    ("nullable", .bool field.nullable),
    ("unique", .bool field.unique),
    ("indexed", .bool field.indexed)]

def ofValue (value : Json) : Option FieldDefinition := do
  let name ← readField value "name" Json.asStr
  let fieldType ← readField value "field_type" FieldType.ofValue
  let nullable ← readField value "nullable" Json.asBool
  let unique ← readFieldOr false value "unique" Json.asBool
  let indexed ← readFieldOr false value "indexed" Json.asBool
  some { name, fieldType, nullable, unique, indexed }

theorem ofValue_toValue (field : FieldDefinition) : ofValue field.toValue = some field := by
  simp [ofValue, toValue, readField, readFieldOr, Json.get_ofFields, List.lookup_cons, Json.asStr,
    Json.asBool, FieldType.ofValue_toValue]

end FieldDefinition

namespace ModelSchema

def toValue (schema : ModelSchema) : Json :=
  .ofFields [
    ("name", .string schema.name),
    ("fields", .array (schema.fields.map FieldDefinition.toValue)),
    ("primary_key", optionValue .string schema.primaryKey)]

def ofValue (value : Json) : Option ModelSchema := do
  let name ← readField value "name" Json.asStr
  let fields ← readField value "fields" (readArray FieldDefinition.ofValue)
  let primaryKey ← readFieldOr none value "primary_key" (readOption Json.asStr)
  some { name, fields, primaryKey }

theorem ofValue_toValue (schema : ModelSchema) : ofValue schema.toValue = some schema := by
  have hfields : readArray FieldDefinition.ofValue
      (.array (schema.fields.map FieldDefinition.toValue)) = some schema.fields :=
    readArray_map FieldDefinition.ofValue_toValue _
  simp [ofValue, toValue, readField, readFieldOr, Json.get_ofFields, List.lookup_cons, hfields,
    Json.asStr]

end ModelSchema

namespace SchemaChange

def toValue : SchemaChange → Json
  | addModel name schema =>
    .ofFields [("type", .string "AddModel"), ("name", .string name), ("schema", schema.toValue)]
  | removeModel name backupPath =>
    .ofFields [("type", .string "RemoveModel"), ("name", .string name),
      ("backup_path", optionValue .string backupPath)]
  | addField model field defaultValue =>
    .ofFields [("type", .string "AddField"), ("model", .string model), ("field", field.toValue),
      ("default_value", optionValue id defaultValue)]
  | removeField model field =>
    .ofFields [("type", .string "RemoveField"), ("model", .string model), ("field", .string field)]
  | renameField model oldName newName =>
    .ofFields [("type", .string "RenameField"), ("model", .string model),
      ("old_name", .string oldName), ("new_name", .string newName)]
  | changeFieldType model field newType transform =>
    .ofFields [("type", .string "ChangeFieldType"), ("model", .string model),
      ("field", .string field), ("new_type", newType.toValue),
      ("transform", optionValue .string transform)]
  | addIndex model fields unique =>
    .ofFields [("type", .string "AddIndex"), ("model", .string model),
      ("fields", .array (fields.map .string)), ("unique", .bool unique)]
  | custom description forward backward =>
    .ofFields [("type", .string "Custom"), ("description", .string description),
      ("forward", .string forward), ("backward", .string backward)]

/-- Read the fields of the variant that `type` names. -/
def ofValue (value : Json) : Option SchemaChange := do
  match ← readField value "type" Json.asStr with
  | "AddModel" =>
    let name ← readField value "name" Json.asStr
    let schema ← readField value "schema" ModelSchema.ofValue
    some (addModel name schema)
  | "RemoveModel" =>
    let name ← readField value "name" Json.asStr
    let backupPath ← readFieldOr none value "backup_path" (readOption Json.asStr)
    some (removeModel name backupPath)
  | "AddField" =>
    let model ← readField value "model" Json.asStr
    let field ← readField value "field" FieldDefinition.ofValue
    let defaultValue ← readFieldOr none value "default_value" (readOption some)
    some (addField model field defaultValue)
  | "RemoveField" =>
    let model ← readField value "model" Json.asStr
    let field ← readField value "field" Json.asStr
    some (removeField model field)
  | "RenameField" =>
    let model ← readField value "model" Json.asStr
    let oldName ← readField value "old_name" Json.asStr
    let newName ← readField value "new_name" Json.asStr
    some (renameField model oldName newName)
  | "ChangeFieldType" =>
    let model ← readField value "model" Json.asStr
    let field ← readField value "field" Json.asStr
    let newType ← readField value "new_type" FieldType.ofValue
    let transform ← readFieldOr none value "transform" (readOption Json.asStr)
    some (changeFieldType model field newType transform)
  | "AddIndex" =>
    let model ← readField value "model" Json.asStr
    let fields ← readField value "fields" (readArray Json.asStr)
    let unique ← readFieldOr false value "unique" Json.asBool
    some (addIndex model fields unique)
  | "Custom" =>
    let description ← readField value "description" Json.asStr
    let forward ← readField value "forward" Json.asStr
    let backward ← readField value "backward" Json.asStr
    some (custom description forward backward)
  | _ => none

/-- The change without a default value of `null`. -/
def withoutNull : SchemaChange → SchemaChange
  | addField model field defaultValue =>
    addField model field (if defaultValue = some .null then none else defaultValue)
  | change => change

/-- A change reads back from its value, but for a default value of `null`. -/
theorem ofValue_toValue (change : SchemaChange) :
    ofValue change.toValue = some change.withoutNull := by
  have hstrings : ∀ items : List String,
      readArray Json.asStr (.array (items.map .string)) = some items :=
    readArray_map fun _ ↦ rfl
  have htype (name : String) (fields : List (String × Json))
      (h : fields.reverse.lookup "type" = none) :
      readField (.ofFields (("type", .string name) :: fields)) "type" Json.asStr = some name := by
    rw [readField, Json.get_ofFields, List.reverse_cons, List.lookup_append, h]
    rfl
  cases change with
  | addField model field defaultValue =>
    rw [ofValue, toValue, htype _ _ rfl, Option.bind_eq_bind, Option.bind_some]
    simp [withoutNull, readField, readFieldOr, Json.get_ofFields,
      List.lookup_cons, Json.asStr, FieldDefinition.ofValue_toValue, readOption_value]
  | _ =>
    rw [ofValue, toValue, htype _ _ rfl, Option.bind_eq_bind, Option.bind_some]
    simp [withoutNull, readField, readFieldOr, Json.get_ofFields,
      List.lookup_cons, Json.asStr, Json.asBool, hstrings, ModelSchema.ofValue_toValue,
      FieldType.ofValue_toValue]

end SchemaChange

/-! ### A record of the log -/

/-- The texts that the libraries give to values and identifiers. -/
structure TextLibrary where
  jsonText : Json → String
  parseJson : String → Option Json
  uuidText : Uuid → String
  parseUuid : String → Option Uuid

/-- The texts of a library, and the derived values. -/
@[simps] def TextLibrary.serde (texts : TextLibrary) : Serde where
  jsonText := texts.jsonText
  parseJson := texts.parseJson
  versionValue := Version.toValue
  versionOfValue := Version.ofValue
  changeValue := SchemaChange.toValue
  changeOfValue := SchemaChange.ofValue
  uuidText := texts.uuidText
  parseUuid := texts.parseUuid

namespace CrudOperation

/-- The value that a record has as text. -/
def payload (serde : Serde) : CrudOperation → Option Json
  | create _ data | update _ _ data => some data
  | delete _ _ => none
  | migrationBegin fromVersion toVersion migrationId =>
    some (.ofFields [("from_version", serde.versionValue fromVersion),
      ("to_version", serde.versionValue toVersion),
      ("migration_id", .string (serde.uuidText migrationId))])
  | migrationStep migrationId stepIndex operation =>
    some (.ofFields [("migration_id", .string (serde.uuidText migrationId)),
      ("step_index", .number (.posInt stepIndex.toUInt64)),
      ("operation", serde.changeValue operation)])
  | migrationCommit migrationId checksum =>
    some (.ofFields [("migration_id", .string (serde.uuidText migrationId)),
      ("checksum", .string checksum)])
  | migrationRollback migrationId failedStep reason =>
    some (.ofFields [("migration_id", .string (serde.uuidText migrationId)),
      ("failed_step", .number (.posInt failedStep.toUInt64)),
      ("reason", .string reason)])

def migrationId : CrudOperation → Option Uuid
  | migrationBegin _ _ id | migrationStep id _ _ | migrationCommit id _
  | migrationRollback id _ _ => some id
  | create _ _ | update _ _ _ | delete _ _ => none

/-- A step that adds a field with the default value `null`. -/
def SetsNullDefault : CrudOperation → Prop
  | migrationStep _ _ (.addField _ _ defaultValue) => defaultValue = some .null
  | _ => False

/-- The operation without a default value of `null`. -/
def withoutNull : CrudOperation → CrudOperation
  | migrationStep migrationId stepIndex operation =>
    migrationStep migrationId stepIndex operation.withoutNull
  | operation => operation

theorem withoutNull_eq_self_iff (operation : CrudOperation) :
    operation.withoutNull = operation ↔ ¬ operation.SetsNullDefault := by
  cases operation with
  | migrationStep migrationId stepIndex operation =>
    cases operation with
    | addField model field defaultValue =>
      by_cases h : defaultValue = some .null
      · simp [withoutNull, SchemaChange.withoutNull, SetsNullDefault, h]
      · simp [withoutNull, SchemaChange.withoutNull, SetsNullDefault, h]
    | _ => exact iff_of_true rfl id
  | _ => exact iff_of_true rfl id

end CrudOperation

section Record

variable {texts : TextLibrary}

@[simp] theorem index_ofFields (fields : List (String × Json)) (key : String) :
    (Json.ofFields fields).index key = (fields.reverse.lookup key).getD .null := by
  rw [Json.index, Json.get_ofFields]

/-- What becomes of an operation in a record. -/
theorem toCrudOperation_ofCrudOperation {operation : CrudOperation}
    (hjson : ∀ value ∈ operation.payload texts.serde,
      texts.parseJson (texts.jsonText value) = some value)
    (huuid : ∀ id ∈ operation.migrationId, texts.parseUuid (texts.uuidText id) = some id) :
    (WalOperation.ofCrudOperation texts.serde operation).toCrudOperation texts.serde =
      operation.withoutNull := by
  cases operation with
  | create modelPath data =>
    simp [WalOperation.ofCrudOperation, WalOperation.toCrudOperation, hjson data rfl,
      CrudOperation.withoutNull]
  | update modelPath id data =>
    simp [WalOperation.ofCrudOperation, WalOperation.toCrudOperation, hjson data rfl,
      CrudOperation.withoutNull]
  | delete modelPath id => rfl
  | migrationBegin fromVersion toVersion migrationId =>
    have hpayload := hjson _ rfl
    have hid := huuid migrationId rfl
    simp only [TextLibrary.serde_versionValue, TextLibrary.serde_uuidText] at hpayload
    simp [WalOperation.ofCrudOperation, WalOperation.toCrudOperation, WalOperation.migrationIdOf,
      hpayload, hid, List.lookup_cons, Json.asStr, Version.ofValue_toValue,
      CrudOperation.withoutNull]
  | migrationStep migrationId stepIndex operation =>
    have hpayload := hjson _ rfl
    have hid := huuid migrationId rfl
    simp only [TextLibrary.serde_changeValue, TextLibrary.serde_uuidText] at hpayload
    simp [WalOperation.ofCrudOperation, WalOperation.toCrudOperation, WalOperation.migrationIdOf,
      hpayload, hid, List.lookup_cons, Json.asStr, Json.asU64, SchemaChange.ofValue_toValue,
      CrudOperation.withoutNull]
  | migrationCommit migrationId checksum =>
    have hpayload := hjson _ rfl
    have hid := huuid migrationId rfl
    simp only [TextLibrary.serde_uuidText] at hpayload
    simp [WalOperation.ofCrudOperation, WalOperation.toCrudOperation, WalOperation.migrationIdOf,
      hpayload, hid, List.lookup_cons, Json.asStr, CrudOperation.withoutNull]
  | migrationRollback migrationId failedStep reason =>
    have hpayload := hjson _ rfl
    have hid := huuid migrationId rfl
    simp only [TextLibrary.serde_uuidText] at hpayload
    simp [WalOperation.ofCrudOperation, WalOperation.toCrudOperation, WalOperation.migrationIdOf,
      hpayload, hid, List.lookup_cons, Json.asStr, Json.asU64, CrudOperation.withoutNull]

theorem reread_eq {entry : LogEntry CrudOperation}
    (hjson : ∀ value ∈ entry.operation.payload texts.serde,
      texts.parseJson (texts.jsonText value) = some value)
    (huuid : ∀ id ∈ entry.operation.migrationId, texts.parseUuid (texts.uuidText id) = some id) :
    WalEntry.reread texts.serde entry =
      { entry with operation := entry.operation.withoutNull } := by
  rw [← toCrudOperation_ofCrudOperation hjson huuid]
  rfl

end Record

/-- A library that reads back the texts it wrote for an entry: the entry comes back from its record
exactly when it does not add a field with the default value `null`. -/
theorem reread_eq_self_iff (texts : TextLibrary) (entry : LogEntry CrudOperation)
    (hjson : ∀ value ∈ entry.operation.payload texts.serde,
      texts.parseJson (texts.jsonText value) = some value)
    (huuid : ∀ id ∈ entry.operation.migrationId, texts.parseUuid (texts.uuidText id) = some id) :
    (WalEntry.fromLogEntry texts.serde entry).toLogEntry texts.serde = entry ↔
      ¬ entry.operation.SetsNullDefault := by
  rw [← CrudOperation.withoutNull_eq_self_iff]
  have hreread : (WalEntry.fromLogEntry texts.serde entry).toLogEntry texts.serde =
      { entry with operation := entry.operation.withoutNull } := reread_eq hjson huuid
  rw [hreread]
  exact ⟨fun h ↦ congrArg LogEntry.operation h, fun h ↦ by rw [h]⟩

section NullDefault

/-- The step that adds a note to the shelves. -/
def addNote (defaultValue : Option Json) : LogEntry CrudOperation where
  logId := ⟨1, 1⟩
  operation := .migrationStep 1 0
    (.addField "shelf" ⟨"note", .string, true, false, false⟩ defaultValue)
  timestampMs := 0

def noteId : String := "00000000-0000-0000-0000-000000000001"

def notePayload : Json :=
  .ofFields [("migration_id", .string noteId), ("step_index", .number (.posInt 0)),
    ("operation",
      (SchemaChange.addField "shelf" ⟨"note", .string, true, false, false⟩ none).toValue)]

def noteText : String :=
  "\x7b\"migration_id\":\"" ++ noteId ++ "\",\"operation\":\x7b\"default_value\":null," ++
    "\"field\":\x7b\"field_type\":\"String\",\"indexed\":false,\"name\":\"note\"," ++
    "\"nullable\":true,\"unique\":false\x7d,\"model\":\"shelf\",\"type\":\"AddField\"\x7d," ++
    "\"step_index\":0\x7d"

/-- A library that knows the text of the payload. -/
def noteTexts : TextLibrary where
  jsonText := fun _ ↦ noteText
  parseJson := fun text ↦ if text = noteText then some notePayload else none
  uuidText := fun _ ↦ noteId
  parseUuid := fun text ↦ if text = noteId then some 1 else none

theorem noteTexts_parseJson {defaultValue : Option Json}
    (hnull : optionValue id defaultValue = .null) :
    ∀ value ∈ (addNote defaultValue).operation.payload noteTexts.serde,
      noteTexts.parseJson (noteTexts.jsonText value) = some value := by
  have hpayload : (addNote defaultValue).operation.payload noteTexts.serde = some notePayload := by
    simp only [addNote, CrudOperation.payload, TextLibrary.serde_changeValue, SchemaChange.toValue,
      hnull]
    rfl
  intro value hvalue
  obtain rfl := Option.some.inj (hpayload.symm.trans hvalue)
  simp only [noteTexts, if_true]

theorem noteTexts_parseUuid (defaultValue : Option Json) :
    ∀ id ∈ (addNote defaultValue).operation.migrationId,
      noteTexts.parseUuid (noteTexts.uuidText id) = some id := by
  intro id hid
  obtain rfl := Option.some.inj hid
  simp only [noteTexts, if_true]

/-- The step without a default value comes back. -/
theorem reread_addNote :
    (WalEntry.fromLogEntry noteTexts.serde (addNote none)).toLogEntry noteTexts.serde =
      addNote none :=
  (reread_eq_self_iff noteTexts (addNote none) (noteTexts_parseJson rfl)
    (noteTexts_parseUuid none)).mpr (Option.some_ne_none _).symm

/-- The step with the default value `null` comes back without one. -/
theorem null_default_lost :
    ¬ ∀ (texts : TextLibrary) (entry : LogEntry CrudOperation),
      (∀ value ∈ entry.operation.payload texts.serde,
        texts.parseJson (texts.jsonText value) = some value) →
      (∀ id ∈ entry.operation.migrationId, texts.parseUuid (texts.uuidText id) = some id) →
      (WalEntry.fromLogEntry texts.serde entry).toLogEntry texts.serde = entry := by
  intro h
  have hnull : optionValue id (some Json.null) = .null := rfl
  have hback := h noteTexts (addNote (some .null)) (noteTexts_parseJson hnull)
    (noteTexts_parseUuid (some .null))
  have hreread := reread_eq (noteTexts_parseJson hnull) (noteTexts_parseUuid (some .null))
  have hoperation := congrArg LogEntry.operation (hreread.symm.trans hback)
  exact absurd hoperation (by decide)

end NullDefault

end Lithair.Cluster
