import Lithair.Cluster.ConsensusLog
import Lithair.Lib.Json

/-!
# The operations of the consensus log

The data that `cluster/consensus_log.rs` and `cluster/upgrade.rs` put into a log entry: the three
writes to a model and the four steps of a schema migration. Every type has decidable equality, so
that a log of concrete operations can be evaluated and compared. `Serde` stands for what the
serialisation libraries make of them.
-/

namespace Lithair.Cluster

open Lithair.Lib

/-- A 128-bit identifier. -/
abbrev Uuid := BitVec 128

/-- A semantic version with the hash of the compiled schema. -/
structure Version where
  major : UInt32
  minor : UInt32
  patch : UInt32
  schemaHash : String
  buildId : String
  deriving DecidableEq

/-- The value of `Version::default()`. -/
def Version.default : Version := ⟨0, 0, 0, "", ""⟩

inductive FieldType
  | string | integer | float | boolean | dateTime | uuid | json | binary
  deriving DecidableEq

structure FieldDefinition where
  name : String
  fieldType : FieldType
  nullable : Bool
  unique : Bool
  indexed : Bool
  deriving DecidableEq

structure ModelSchema where
  name : String
  fields : List FieldDefinition
  primaryKey : Option String
  deriving DecidableEq

/-- One step of a schema migration. -/
inductive SchemaChange
  | addModel (name : String) (schema : ModelSchema)
  | removeModel (name : String) (backupPath : Option String)
  | addField (model : String) (field : FieldDefinition) (defaultValue : Option Json)
  | removeField (model field : String)
  | renameField (model oldName newName : String)
  | changeFieldType (model field : String) (newType : FieldType) (transform : Option String)
  | addIndex (model : String) (fields : List String) (unique : Bool)
  | custom (description forward backward : String)
  deriving DecidableEq

/-- The operations that go through consensus. -/
inductive CrudOperation
  | create (modelPath : String) (data : Json)
  | update (modelPath id : String) (data : Json)
  | delete (modelPath id : String)
  | migrationBegin (fromVersion toVersion : Version) (migrationId : Uuid)
  | migrationStep (migrationId : Uuid) (stepIndex : UInt32) (operation : SchemaChange)
  | migrationCommit (migrationId : Uuid) (checksum : String)
  | migrationRollback (migrationId : Uuid) (failedStep : UInt32) (reason : String)
  deriving DecidableEq

/-- The texts and values that the serialisation libraries give. -/
structure Serde where
  jsonText : Json → String
  parseJson : String → Option Json
  versionValue : Version → Json
  versionOfValue : Json → Option Version
  changeValue : SchemaChange → Json
  changeOfValue : Json → Option SchemaChange
  uuidText : Uuid → String
  parseUuid : String → Option Uuid

end Lithair.Cluster
