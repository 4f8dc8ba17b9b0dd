import Lithair.Cluster.SchemaSync

/-!
# Specifications of models and their changes

The specifications of `schema/mod.rs` and `SchemaChangeDetector::detect_changes`, which compares two
of them. A map of fields comes with the order in which it is gone through.

`detectChanges_eq_nil_iff` says what the detector looks at: the names of the fields, four of the
fourteen properties of a field that both have, the names of the indexes, and the fields of the
foreign keys that are new. `detects_iff` compares this with what a specification says.
-/

namespace Lithair.Schema

open Lithair.Cluster

/-! ### Specifications -/

structure FieldPermissions where
  readPermission : Option String
  writePermission : Option String
  ownerField : Bool
  deriving DecidableEq

/-- The properties of a field, from its declarative attributes. -/
structure FieldConstraints where
  primaryKey : Bool
  unique : Bool
  indexed : Bool
  foreignKey : Option String
  nullable : Bool
  immutable : Bool
  audited : Bool
  versioned : UInt32
  retention : ℕ
  snapshotOnly : Bool
  validationRules : List String
  permissions : FieldPermissions
  defaultValue : Option String
  fieldType : Option String
  deriving DecidableEq

structure IndexSpec where
  name : String
  fields : List String
  unique : Bool
  deriving DecidableEq

structure ForeignKeySpec where
  field : String
  referencesTable : String
  referencesField : String
  deriving DecidableEq

structure ModelSpec where
  modelName : String
  version : UInt32
  fields : AList fun _ : String ↦ FieldConstraints
  indexes : List IndexSpec
  foreignKeys : List ForeignKeySpec

/-! ### Changes -/

inductive SchemaChangeType
  | addField
  | removeField
  | modifyFieldType
  | modifyFieldConstraints
  | addIndex
  | removeIndex
  | modifyRetentionPolicy
  | modifyPermissions
  | addForeignKey
  | removeForeignKey
  deriving DecidableEq

structure DetectedSchemaChange where
  model : String
  changeType : SchemaChangeType
  fieldName : Option String
  oldType : Option String
  newType : Option String
  oldConstraints : Option FieldConstraints
  newConstraints : Option FieldConstraints
  migrationStrategy : MigrationStrategy
  defaultValue : Option String
  requiresConsensus : Bool
  migrationSql : Option String
  rollbackSql : Option String
  deriving DecidableEq

namespace SchemaChangeDetector

/-- A field with a default is safe to add, and one that must be set or be unique is not. -/
def determineMigrationStrategyForAdd (constraints : FieldConstraints) : MigrationStrategy :=
  if constraints.defaultValue.isSome then .additive
  else if constraints.primaryKey || constraints.unique then .breaking
  else if constraints.nullable then .additive
  else .versioned

def requiresConsensusForAdd (constraints : FieldConstraints) : Bool :=
  if constraints.defaultValue.isSome then false
  else constraints.primaryKey || constraints.unique || !constraints.nullable

def generateDefaultValue (constraints : FieldConstraints) : Option String :=
  match constraints.defaultValue with
  | some default => some default
  | none => if constraints.nullable then some "NULL" else some "DEFAULT"

def generateAddFieldSql (fieldName : String) (constraints : FieldConstraints) : Option String :=
  some ("ALTER TABLE ADD COLUMN " ++ fieldName ++ " TYPE " ++
    if constraints.nullable then "NULL" else "NOT NULL")

def generateRemoveFieldSql (fieldName : String) : Option String :=
  some ("ALTER TABLE DROP COLUMN " ++ fieldName)

def generateIndexSql (fieldName : String) (create : Bool) : String :=
  if create then "CREATE INDEX idx_" ++ fieldName ++ " ON table (" ++ fieldName ++ ")"
  else "DROP INDEX idx_" ++ fieldName

def addedField (modelName fieldName : String) (constraints : FieldConstraints) :
    DetectedSchemaChange where
  model := modelName
  changeType := .addField
  fieldName := some fieldName
  oldType := none
  newType := some "inferred"
  oldConstraints := none
  newConstraints := some constraints
  migrationStrategy := determineMigrationStrategyForAdd constraints
  defaultValue := generateDefaultValue constraints
  requiresConsensus := requiresConsensusForAdd constraints
  migrationSql := generateAddFieldSql fieldName constraints
  rollbackSql := generateRemoveFieldSql fieldName

def removedField (modelName fieldName : String) (constraints : FieldConstraints) :
    DetectedSchemaChange where
  model := modelName
  changeType := .removeField
  fieldName := some fieldName
  oldType := some "inferred"
  newType := none
  oldConstraints := some constraints
  newConstraints := none
  migrationStrategy := .breaking
  defaultValue := none
  requiresConsensus := true
  migrationSql := generateRemoveFieldSql fieldName
  rollbackSql := generateAddFieldSql fieldName constraints

/-- The properties of a field that are compared: its type, its retention, its permissions and
whether it is indexed. -/
def detectConstraintChanges (modelName fieldName : String)
    (oldConstraints newConstraints : FieldConstraints) : List DetectedSchemaChange :=
  let change : DetectedSchemaChange :=
    { model := modelName
      changeType := .modifyFieldConstraints
      fieldName := some fieldName
      oldType := none
      newType := none
      oldConstraints := some oldConstraints
      newConstraints := some newConstraints
      migrationStrategy := .additive
      defaultValue := none
      requiresConsensus := false
      migrationSql := none
      rollbackSql := none }
  (if oldConstraints.fieldType ≠ newConstraints.fieldType then
    [{ change with
        changeType := .modifyFieldType
        oldType := oldConstraints.fieldType
        newType := newConstraints.fieldType
        migrationStrategy := .breaking
        requiresConsensus := true }] else []) ++
  (if oldConstraints.retention ≠ newConstraints.retention then
    [{ change with
        changeType := .modifyRetentionPolicy
        oldType := some (toString oldConstraints.retention)
        newType := some (toString newConstraints.retention) }] else []) ++
  (if oldConstraints.permissions ≠ newConstraints.permissions then
    [{ change with changeType := .modifyPermissions }] else []) ++
  if oldConstraints.indexed ≠ newConstraints.indexed then
    [{ change with
        changeType := if newConstraints.indexed then .addIndex else .removeIndex
        migrationStrategy := if newConstraints.indexed then .additive else .breaking
        requiresConsensus := !newConstraints.indexed
        migrationSql := some (generateIndexSql fieldName newConstraints.indexed)
        rollbackSql := some (generateIndexSql fieldName oldConstraints.indexed) }] else []

def joinFields (fields : List String) : String := ", ".intercalate fields

def createIndexSql (modelName : String) (index : IndexSpec) : String :=
  "CREATE " ++ (if index.unique then "UNIQUE" else "") ++ " INDEX " ++ index.name ++ " ON " ++
    modelName ++ " (" ++ joinFields index.fields ++ ")"

def dropIndexSql (index : IndexSpec) : String := "DROP INDEX " ++ index.name

def addedIndex (modelName : String) (index : IndexSpec) : DetectedSchemaChange where
  model := modelName
  changeType := .addIndex
  fieldName := some (joinFields index.fields)
  oldType := none
  newType := some ("INDEX(" ++ joinFields index.fields ++ ")")
  oldConstraints := none
  newConstraints := none
  migrationStrategy := .additive
  defaultValue := none
  requiresConsensus := false
  migrationSql := some (createIndexSql modelName index)
  rollbackSql := some (dropIndexSql index)

def removedIndex (modelName : String) (index : IndexSpec) : DetectedSchemaChange where
  model := modelName
  changeType := .removeIndex
  fieldName := some (joinFields index.fields)
  oldType := some ("INDEX(" ++ joinFields index.fields ++ ")")
  newType := none
  oldConstraints := none
  newConstraints := none
  migrationStrategy := .breaking
  defaultValue := none
  requiresConsensus := true
  migrationSql := some (dropIndexSql index)
  rollbackSql := some (createIndexSql modelName index)

/-- Indexes are told apart by their names. -/
def detectIndexChanges (oldSpec newSpec : ModelSpec) : List DetectedSchemaChange :=
  (newSpec.indexes.filter fun newIndex ↦
      !oldSpec.indexes.any fun index ↦ index.name == newIndex.name).map
    (addedIndex newSpec.modelName) ++
  (oldSpec.indexes.filter fun oldIndex ↦
      !newSpec.indexes.any fun index ↦ index.name == oldIndex.name).map
    (removedIndex newSpec.modelName)

variable (toLowercase : String → String)

def addedForeignKey (modelName : String) (foreignKey : ForeignKeySpec) : DetectedSchemaChange where
  model := modelName
  changeType := .addForeignKey
  fieldName := some foreignKey.field
  oldType := none
  newType := some ("FK -> " ++ foreignKey.referencesTable ++ "." ++ foreignKey.referencesField)
  oldConstraints := none
  newConstraints := none
  migrationStrategy := .breaking
  defaultValue := none
  requiresConsensus := true
  migrationSql := some ("ALTER TABLE " ++ modelName ++ " ADD CONSTRAINT fk_" ++
    toLowercase modelName ++ "_" ++ foreignKey.field ++ " FOREIGN KEY (" ++ foreignKey.field ++
    ") REFERENCES " ++ foreignKey.referencesTable ++ " (" ++ foreignKey.referencesField ++ ")")
  rollbackSql := some ("ALTER TABLE " ++ modelName ++ " DROP CONSTRAINT fk_" ++
    toLowercase modelName ++ "_" ++ foreignKey.field)

/-- Foreign keys are told apart by their fields, and those that go are not looked for. -/
def detectForeignKeyChanges (oldSpec newSpec : ModelSpec) : List DetectedSchemaChange :=
  (newSpec.foreignKeys.filter fun newKey ↦
      !oldSpec.foreignKeys.any fun key ↦ key.field == newKey.field).map
    (addedForeignKey toLowercase newSpec.modelName)

/-- What becomes of a field of the new specification that the old one has as well. -/
def detectFieldChanges (oldSpec newSpec : ModelSpec) (fieldName : String)
    (newConstraints : FieldConstraints) : List DetectedSchemaChange :=
  match oldSpec.fields.lookup fieldName with
  | some oldConstraints =>
    if oldConstraints ≠ newConstraints then
      detectConstraintChanges newSpec.modelName fieldName oldConstraints newConstraints
    else []
  | none => []

def detectChanges (oldSpec newSpec : ModelSpec) : List DetectedSchemaChange :=
  (newSpec.fields.entries.filter fun field ↦ field.1 ∉ oldSpec.fields).map
    (fun field ↦ addedField newSpec.modelName field.1 field.2) ++
  (oldSpec.fields.entries.filter fun field ↦ field.1 ∉ newSpec.fields).map
    (fun field ↦ removedField newSpec.modelName field.1 field.2) ++
  newSpec.fields.entries.flatMap (fun field ↦
    detectFieldChanges oldSpec newSpec field.1 field.2) ++
  detectIndexChanges oldSpec newSpec ++
  detectForeignKeyChanges toLowercase oldSpec newSpec

/-! ### What the detector looks at -/

/-- What is compared of a field. -/
def viewed (constraints : FieldConstraints) : Option String × ℕ × FieldPermissions × Bool :=
  (constraints.fieldType, constraints.retention, constraints.permissions, constraints.indexed)

/-- The specifications are the same in all that is compared: no field and no index comes or goes by
its name, no field is changed in what is compared of it, and no field has its first foreign key. -/
structure LooksSame (oldSpec newSpec : ModelSpec) : Prop where
  fieldNames : ∀ name, name ∈ oldSpec.fields ↔ name ∈ newSpec.fields
  constraints : ∀ name before after, oldSpec.fields.lookup name = some before →
    newSpec.fields.lookup name = some after → viewed before = viewed after
  indexNames : ∀ name, name ∈ oldSpec.indexes.map IndexSpec.name ↔
    name ∈ newSpec.indexes.map IndexSpec.name
  foreignKeys : ∀ key ∈ newSpec.foreignKeys,
    key.field ∈ oldSpec.foreignKeys.map ForeignKeySpec.field

/-- The specifications have the same fields, indexes and foreign keys, in whatever order. -/
structure SameSchema (oldSpec newSpec : ModelSpec) : Prop where
  fields : ∀ name, oldSpec.fields.lookup name = newSpec.fields.lookup name
  indexes : oldSpec.indexes.Perm newSpec.indexes
  foreignKeys : oldSpec.foreignKeys.Perm newSpec.foreignKeys

variable {toLowercase} {oldSpec newSpec : ModelSpec}

theorem SameSchema.looksSame (h : SameSchema oldSpec newSpec) : LooksSame oldSpec newSpec where
  fieldNames := fun name ↦ by
    rw [← AList.lookup_isSome, ← AList.lookup_isSome, h.fields name]
  constraints := fun name before after hbefore hafter ↦ by
    rw [h.fields name, hafter, Option.some.injEq] at hbefore
    rw [hbefore]
  indexNames := fun name ↦ (h.indexes.map IndexSpec.name).mem_iff
  foreignKeys := fun key hkey ↦
    ((h.foreignKeys.map ForeignKeySpec.field).mem_iff).mpr (List.mem_map_of_mem hkey)

theorem detectConstraintChanges_eq_nil_iff {modelName fieldName : String}
    {before after : FieldConstraints} :
    detectConstraintChanges modelName fieldName before after = [] ↔
      viewed before = viewed after := by
  unfold detectConstraintChanges viewed
  simp only [List.append_eq_nil_iff, ite_eq_right_iff, List.cons_ne_nil, imp_false, not_not,
    Prod.mk.injEq, and_assoc]

theorem detectFieldChanges_eq_nil_iff {fieldName : String} {after : FieldConstraints} :
    detectFieldChanges oldSpec newSpec fieldName after = [] ↔
      ∀ before, oldSpec.fields.lookup fieldName = some before → viewed before = viewed after := by
  unfold detectFieldChanges
  cases oldSpec.fields.lookup fieldName with
  | none => simp
  | some before =>
    simp only [Option.some.injEq, forall_eq']
    split_ifs with hne
    · exact detectConstraintChanges_eq_nil_iff
    · rw [not_not.mp hne]
      exact iff_of_true rfl rfl

theorem detectIndexChanges_eq_nil_iff :
    detectIndexChanges oldSpec newSpec = [] ↔
      ∀ name, name ∈ oldSpec.indexes.map IndexSpec.name ↔
        name ∈ newSpec.indexes.map IndexSpec.name := by
  have hnone (left right : List IndexSpec) (change : IndexSpec → DetectedSchemaChange) :
      (left.filter fun leftIndex ↦ !right.any fun index ↦ index.name == leftIndex.name).map
        change = [] ↔ ∀ name ∈ left.map IndexSpec.name, name ∈ right.map IndexSpec.name := by
    simp only [List.map_eq_nil_iff, List.filter_eq_nil_iff, Bool.not_eq_true, Bool.not_eq_false',
      List.any_eq_true, beq_iff_eq, List.mem_map, forall_exists_index, and_imp,
      forall_apply_eq_imp_iff₂]
  unfold detectIndexChanges
  rw [List.append_eq_nil_iff, hnone, hnone]
  constructor
  · exact fun h name ↦ ⟨h.2 name, h.1 name⟩
  · exact fun h ↦ ⟨fun name ↦ (h name).mpr, fun name ↦ (h name).mp⟩

theorem detectForeignKeyChanges_eq_nil_iff :
    detectForeignKeyChanges toLowercase oldSpec newSpec = [] ↔
      ∀ key ∈ newSpec.foreignKeys, key.field ∈ oldSpec.foreignKeys.map ForeignKeySpec.field := by
  unfold detectForeignKeyChanges
  simp only [List.map_eq_nil_iff, List.filter_eq_nil_iff, Bool.not_eq_true, Bool.not_eq_false',
    List.any_eq_true, beq_iff_eq, List.mem_map]

/-- The fields of one specification that are not in another. -/
theorem missing_eq_nil_iff {left right : ModelSpec}
    {change : (Σ _ : String, FieldConstraints) → DetectedSchemaChange} :
    (left.fields.entries.filter fun field ↦ field.1 ∉ right.fields).map change = [] ↔
      ∀ name ∈ left.fields, name ∈ right.fields := by
  simp only [List.map_eq_nil_iff, List.filter_eq_nil_iff, decide_eq_true_eq, not_not]
  constructor
  · intro h name hname
    obtain ⟨field, hfield, rfl⟩ := List.mem_map.mp (AList.mem_keys.mpr hname)
    exact h field hfield
  · exact fun h field hfield ↦ h field.1 (AList.mem_keys.mp (List.mem_map_of_mem hfield))

theorem detectChanges_eq_nil_iff :
    detectChanges toLowercase oldSpec newSpec = [] ↔ LooksSame oldSpec newSpec := by
  unfold detectChanges
  simp only [List.append_eq_nil_iff, missing_eq_nil_iff, List.flatMap_eq_nil_iff,
    detectFieldChanges_eq_nil_iff, detectIndexChanges_eq_nil_iff,
    detectForeignKeyChanges_eq_nil_iff]
  constructor
  · rintro ⟨⟨⟨⟨hadded, hremoved⟩, hchanged⟩, hindexes⟩, hkeys⟩
    refine ⟨fun name ↦ ⟨hremoved name, hadded name⟩, ?_, hindexes, hkeys⟩
    intro name before after hbefore hafter
    exact hchanged ⟨name, after⟩ (AList.mem_lookup_iff.mp hafter) before hbefore
  · rintro ⟨hnames, hconstraints, hindexes, hkeys⟩
    refine ⟨⟨⟨⟨fun name ↦ (hnames name).mpr, fun name ↦ (hnames name).mp⟩, ?_⟩, hindexes⟩, hkeys⟩
    intro field hfield before hbefore
    exact hconstraints field.1 before field.2 hbefore (AList.mem_lookup_iff.mpr hfield)

/-- The detector tells any two specifications apart that are not the same exactly when these differ
in what it looks at, and finds nothing between those that are the same. -/
theorem detects_iff (toLowercase : String → String) (oldSpec newSpec : ModelSpec) :
    (detectChanges toLowercase oldSpec newSpec = [] ↔ SameSchema oldSpec newSpec) ↔
      (LooksSame oldSpec newSpec → SameSchema oldSpec newSpec) := by
  rw [detectChanges_eq_nil_iff]
  exact ⟨fun h ↦ h.mp, fun h ↦ ⟨h, SameSchema.looksSame⟩⟩

end SchemaChangeDetector

/-! ### A field that becomes unique -/

section Unseen

open SchemaChangeDetector

/-- A field that may be anything. -/
def anyField : FieldConstraints where
  primaryKey := false
  unique := false
  indexed := false
  foreignKey := none
  nullable := true
  immutable := false
  audited := false
  versioned := 0
  retention := 0
  snapshotOnly := false
  validationRules := []
  permissions := ⟨none, none, false⟩
  defaultValue := none
  fieldType := none

/-- A model of one field. -/
def singleField (email : FieldConstraints) (foreignKeys : List ForeignKeySpec) : ModelSpec where
  modelName := "Customer"
  version := 1
  fields := AList.singleton "email" email
  indexes := []
  foreignKeys := foreignKeys

/-- A field may become unique and must then be set, and lose its foreign key, unnoticed. -/
theorem unique_unseen :
    detectChanges String.toLower (singleField anyField [⟨"email", "Account", "email"⟩])
        (singleField { anyField with unique := true, nullable := false } []) = [] ∧
      ¬ SameSchema (singleField anyField [⟨"email", "Account", "email"⟩])
        (singleField { anyField with unique := true, nullable := false } []) := by
  refine ⟨by decide, fun h ↦ ?_⟩
  exact absurd (h.fields "email") (by decide)

end Unseen

end Lithair.Schema
