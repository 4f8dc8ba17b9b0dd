import Lithair.Lib.Framing
import Lithair.Lib.Json
import Mathlib.Data.Finmap
import Mathlib.Data.Finset.Sort

/-!
# Cluster snapshots

`cluster/snapshot.rs`: the data of a snapshot, a JSON text of items for each model path, its
metadata, and the manager that writes snapshots to a directory, whether it creates them
(`createSnapshot`) or receives them (`installSnapshot`). The rkyv codec and the JSON text of a list
are parameters.
-/

namespace Lithair.Cluster

open Lithair.Lib Lithair.Lib.Framing

structure SnapshotMeta where
  term : ℕ
  lastIncludedIndex : ℕ
  createdAtMs : ℕ
  sizeBytes : ℕ
  checksum : UInt64
  deriving DecidableEq

/-- The items of the models, as JSON texts by model path. -/
structure SnapshotData where
  models : List (String × String)
  deriving DecidableEq

namespace SnapshotData

def new : SnapshotData := ⟨[]⟩

/-- Add a model, in place of what was there for its path; `listText` is the text of a JSON list,
which every list of values has. -/
def addModel (listText : List Json → String) (data : SnapshotData) (modelPath : String)
    (items : List Json) : SnapshotData :=
  ⟨data.models.filter (·.1 ≠ modelPath) ++ [(modelPath, listText items)]⟩

end SnapshotData

/-- The rkyv serialisation of snapshots; `fromBytes` fails with a text. -/
structure SnapshotCodec where
  toBytes : SnapshotData → Except String (List UInt8)
  fromBytes : List UInt8 → Except String SnapshotData
  /-- A snapshot reads back from the bytes it was written as. -/
  fromBytes_toBytes : ∀ {data bytes}, toBytes data = .ok bytes → fromBytes bytes = .ok data

/-- The files of a snapshot directory: the data and the metadata by index, and the pointer to the
current snapshot. -/
structure SnapshotDir where
  data : Finmap fun _ : ℕ ↦ List UInt8
  metadata : Finmap fun _ : ℕ ↦ SnapshotMeta
  current : Option ℕ

/-- How the writes to the directory end: done, or with an error that leaves some directory. -/
inductive DiskOutcome
  | written
  | failed (left : SnapshotDir) (message : String)

structure SnapshotManager where
  dir : SnapshotDir
  currentMeta : Option SnapshotMeta

namespace SnapshotManager

variable (codec : SnapshotCodec)

/-- The data, the metadata and the pointer of a snapshot, written to the directory. -/
def writeFiles (dir : SnapshotDir) (info : SnapshotMeta) (bytes : List UInt8) : SnapshotDir where
  data := dir.data.insert info.lastIncludedIndex bytes
  metadata := dir.metadata.insert info.lastIncludedIndex info
  current := some info.lastIncludedIndex

/-- Remove all but the snapshots with the highest indices. -/
def cleanupOldSnapshots (dir : SnapshotDir) (keep : ℕ) : SnapshotDir :=
  let old := (dir.data.keys.sort (· ≥ ·)).drop keep
  { dir with
    data := old.foldl (fun files index ↦ files.erase index) dir.data
    metadata := old.foldl (fun files index ↦ files.erase index) dir.metadata }

def createSnapshot (manager : SnapshotManager) (term lastIndex : ℕ) (data : SnapshotData)
    (now : ℕ) (disk : DiskOutcome) : SnapshotManager × Except String SnapshotMeta :=
  match codec.toBytes data with
  | .error message => (manager, .error message)
  | .ok bytes =>
    let info : SnapshotMeta :=
      { term, lastIncludedIndex := lastIndex, createdAtMs := now, sizeBytes := bytes.length
        checksum := fnv1aHash bytes }
    match disk with
    | .failed left message => ({ manager with dir := left }, .error message)
    | .written =>
      ({ dir := cleanupOldSnapshots (writeFiles manager.dir info bytes) 3
         currentMeta := some info },
        .ok info)

/-- Check the bytes against the checksum of the metadata, decode them, and write them down. -/
def installSnapshot (manager : SnapshotManager) (info : SnapshotMeta) (bytes : List UInt8)
    (disk : DiskOutcome) : SnapshotManager × Except String SnapshotData :=
  if fnv1aHash bytes ≠ info.checksum then
    (manager, .error ("Snapshot checksum mismatch: expected " ++ toString info.checksum ++
      ", got " ++ toString (fnv1aHash bytes)))
  else
    match codec.fromBytes bytes with
    | .error message => (manager, .error ("rkyv deserialization failed: " ++ message))
    | .ok data =>
      match disk with
      | .failed left message => ({ manager with dir := left }, .error message)
      | .written =>
        ({ dir := writeFiles manager.dir info bytes, currentMeta := some info }, .ok data)

end SnapshotManager

end Lithair.Cluster
