import Lithair.Engine.FileEventStore
import Lithair.Lib.Path

/-!
# The store with a file for each aggregate

`MultiFileEventStore` of `engine/multi_file_store.rs` with the snapshots of `engine/snapshot.rs`. An
envelope goes to the store of its aggregate id, which is opened at the first append over the
directory that the id leads to from the base directory, or to the global store, over `global` in the
base directory. Two ids can lead to one directory, so that the files belong to the disk and not to
the store: a store that is used has the text of the file as it is then.

The file system makes the directories that it is asked for or refuses; the files in them are read
and written. Rotation is off, and the base directory is given by a path that is not empty. `Inv`
says that each events file has the lines of envelopes, and the lemmas about an append, a flush, a
snapshot and a new store say what becomes of them.
-/

namespace Lithair.Engine

open Lithair.Lib Lithair.Lib.JsonText Lithair.Lib.Path Lithair.Lib.Text

/-! ### The disk -/

/-- The directories that there are, the text of `events.raftlog` in each directory, which is empty
when there is no such file, and the text of `snapshot.raftsnap`. -/
structure Disk where
  dirs : List Dir
  events : Dir → List Char
  snapshots : Dir → Option (List Char)

/-- A disk without events and snapshots. -/
def Disk.fresh (dirs : List Dir) : Disk where
  dirs
  events := fun _ ↦ []
  snapshots := fun _ ↦ none

/-- What becomes of `create_dir_all` and of opening the directory. -/
inductive DirAnswer
  | made
  | refused (after : ℕ)
  deriving DecidableEq

/-- Make the directories that names lead through. -/
def Disk.createDirAll (disk : Disk) (start : Dir) (names : List String) (answer : DirAnswer) :
    Disk × Bool :=
  match answer with
  | .made => ({ disk with dirs := disk.dirs ++ way start names }, true)
  | .refused after => ({ disk with dirs := disk.dirs ++ (way start names).take after }, false)

/-! ### Snapshots -/

def snapshotVersion : ℕ := 1

structure SnapshotMetadata where
  version : ℕ
  aggregateId : Option String
  eventCount : ℕ
  lastEventId : Option String
  timestamp : ℕ
  stateCrc32 : String
  deriving DecidableEq

structure Snapshot where
  metadata : SnapshotMetadata
  state : String
  deriving DecidableEq

/-- What is used of `serde_json` for snapshots. -/
structure SnapshotJson where
  render : Snapshot → String
  parse : String → Option Snapshot
  parse_render : ∀ snapshot, parse (render snapshot) = some snapshot
  nonempty : ∀ snapshot, render snapshot ≠ ""

/-- The object of a snapshot, with a line for each field. -/
def snapshotFormat : Format Snapshot :=
  ((Format.behind "\x7b\n  \"metadata\": \x7b\n    \"version\": ".toList .number).andThen <|
    (Format.behind "\n    \"aggregate_id\": ".toList .nullable).andThen <|
    (Format.behind ",\n    \"event_count\": ".toList .number).andThen <|
    (Format.behind "\n    \"last_event_id\": ".toList .nullable).andThen <|
    (Format.behind ",\n    \"timestamp\": ".toList .number).andThen <|
    (Format.behind "\n    \"state_crc32\": ".toList .text).andThen <|
    (Format.behind "\n  \x7d,\n  \"state\": ".toList .text).andThen
      (.mark "\n\x7d".toList)).map
    (fun (version, aggregateId, eventCount, lastEventId, timestamp, stateCrc32, state, _) ↦
      ⟨⟨version, aggregateId, eventCount, lastEventId, timestamp, stateCrc32⟩, state⟩)
    (fun s ↦ (s.metadata.version, s.metadata.aggregateId, s.metadata.eventCount,
      s.metadata.lastEventId, s.metadata.timestamp, s.metadata.stateCrc32, s.state, ()))
    fun _ ↦ rfl

/-- The text that the derived serializer writes with indentation. -/
def SnapshotJson.ofFormat : SnapshotJson where
  render := snapshotFormat.toText
  parse := snapshotFormat.fromText
  parse_render := snapshotFormat.fromText_toText
  nonempty := by
    intro snapshot hempty
    have hchars := congrArg String.toList hempty
    rw [Format.toText, String.toList_ofList] at hchars
    exact absurd hchars (List.cons_ne_nil _ _)

namespace Snapshot

variable (crc32 : List UInt8 → UInt32)

def stateCrc (state : String) : String := String.ofList (hexDigits 8 (crc32 (asBytes state)).toNat)

def new (aggregateId : Option String) (eventCount : ℕ) (lastEventId : Option String)
    (state : String) (timestamp : ℕ) : Snapshot where
  metadata :=
    { version := snapshotVersion
      aggregateId
      eventCount
      lastEventId
      timestamp
      stateCrc32 := stateCrc crc32 state }
  state

def validate (snapshot : Snapshot) : Except String Unit :=
  if stateCrc crc32 snapshot.state ≠ snapshot.metadata.stateCrc32 then
    .error ("Snapshot CRC32 mismatch: expected " ++ snapshot.metadata.stateCrc32 ++ ", got " ++
      stateCrc crc32 snapshot.state ++ " - CORRUPTED")
  else .ok ()

/-- There is no result where the text is rejected. -/
def fromJson (json : SnapshotJson) (text : String) : Option Snapshot :=
  (json.parse text).bind fun snapshot ↦
    match snapshot.validate crc32 with
    | .ok () => some snapshot
    | .error _ => none

/-- The content of a snapshot file: its line with the checksum, without a line feed. -/
def protectedContent (json : SnapshotJson) (snapshot : Snapshot) : List Char :=
  formatEventWithCrc32 crc32 (json.render snapshot)

/-- Read a snapshot file. -/
def ofContent (json : SnapshotJson) (content : List Char) : Option Snapshot :=
  match parseAndValidateEvent crc32 content with
  | some (.ok text) => fromJson crc32 json text
  | _ => none

/-- A new snapshot is read back from its file. -/
theorem ofContent_protectedContent (json : SnapshotJson) (aggregateId : Option String)
    (eventCount : ℕ) (lastEventId : Option String) (state : String) (timestamp : ℕ) :
    ofContent crc32 json
      (protectedContent crc32 json (new crc32 aggregateId eventCount lastEventId state timestamp)) =
      some (new crc32 aggregateId eventCount lastEventId state timestamp) := by
  have hvalid : (new crc32 aggregateId eventCount lastEventId state timestamp).validate crc32 =
      .ok () := if_neg (not_not.mpr rfl)
  rw [ofContent, protectedContent, parse_formatEventWithCrc32 crc32 (json.nonempty _)]
  simp only
  rw [fromJson, json.parse_render, Option.bind_some, hvalid]

end Snapshot

/-! ### The store -/

/-- What an envelope says, without its place in a chain. -/
def EventEnvelope.content (envelope : EventEnvelope) : EventEnvelope :=
  { envelope with
    eventHash := none
    previousHash := none }

/-- The stores that are open and the numbers of events appended since the store was made, each under
its aggregate id, those of the global store under none; and the ids of the open stores in the order
in which the map gives them. -/
structure MultiFileEventStore where
  baseDir : Dir
  disk : Disk
  stores : Option String → Option FileEventStore
  openIds : List String
  eventCounts : Option String → ℕ

namespace MultiFileEventStore

/-- The directory of the events of an aggregate. -/
def eventsDir (baseDir : Dir) : Option String → Dir
  | some aggregateId => join baseDir aggregateId
  | none => baseDir ++ ["global"]

/-- The names on the way to the snapshot of an aggregate, which is read from the base directory even
when the id begins with a slash. -/
def snapshotNames : Option String → List String
  | some aggregateId => names aggregateId
  | none => ["global"]

/-- The directory of the snapshot of an aggregate. -/
def snapshotDir (baseDir : Dir) (aggregateId : Option String) : Dir :=
  walk baseDir (snapshotNames aggregateId)

variable (crc32 : List UInt8 → UInt32) (sha256 : List UInt8 → String) (json : EnvelopeJson)
  (snapshotJson : SnapshotJson)

/-- The storage over a directory. -/
def storageAt (disk : Disk) (dir : Dir) : FileStorage :=
  { FileStorage.empty with events := disk.events dir }

/-- Open a store over a directory. -/
def openStore (disk : Disk) (dir : Dir) : Option FileEventStore :=
  FileEventStore.new crc32 json (storageAt disk dir)

/-- A new store over a base directory. -/
def new (disk : Disk) (baseDir : Dir) : Option MultiFileEventStore :=
  let disk := { disk with dirs := disk.dirs ++ baseDir.inits ++ [baseDir ++ ["global"]] }
  (openStore crc32 json disk (eventsDir baseDir none)).map fun globalStore ↦
    { baseDir
      disk
      stores := fun aggregateId ↦ if aggregateId = none then some globalStore else none
      openIds := []
      eventCounts := fun _ ↦ 0 }

/-- The store as it finds its file. -/
def onDisk (store : FileEventStore) (text : List Char) : FileEventStore :=
  { store with storage := { store.storage with events := text } }

/-- Let an open store do something with its file. -/
def withStore (s : MultiFileEventStore) (aggregateId : Option String) (store : FileEventStore)
    (action : FileEventStore → FileEventStore) : MultiFileEventStore :=
  let dir := eventsDir s.baseDir aggregateId
  let store := action (onDisk store (s.disk.events dir))
  { s with
    disk := { s.disk with events := Function.update s.disk.events dir store.storage.events }
    stores := Function.update s.stores aggregateId (some store) }

def createStore (s : MultiFileEventStore) (aggregateId : String) (answer : DirAnswer) :
    MultiFileEventStore × Option FileEventStore :=
  match s.disk.createDirAll (origin s.baseDir aggregateId) (names aggregateId) answer with
  | (disk, false) => ({ s with disk }, none)
  | (disk, true) =>
    match openStore crc32 json disk (eventsDir s.baseDir (some aggregateId)) with
    | none => ({ s with disk }, none)
    | some store =>
      ({ s with
          disk
          stores := Function.update s.stores (some aggregateId) (some store)
          openIds := s.openIds ++ [aggregateId] },
        some store)

/-- The store of an aggregate, which is opened when it is not there. -/
def getStoreMut (s : MultiFileEventStore) (aggregateId : Option String) (answer : DirAnswer) :
    MultiFileEventStore × Option FileEventStore :=
  match s.stores aggregateId, aggregateId with
  | some store, _ => (s, some store)
  | none, some aggregateId => s.createStore crc32 json aggregateId answer
  | none, none => (s, none)

def incrementEventCount (s : MultiFileEventStore) (aggregateId : Option String) :
    MultiFileEventStore :=
  { s with
    eventCounts := Function.update s.eventCounts aggregateId (s.eventCounts aggregateId + 1) }

/-- Append an envelope to the store of its aggregate; the second component says whether the call
succeeded. -/
def appendEnvelope (s : MultiFileEventStore) (envelope : EventEnvelope) (answer : DirAnswer) :
    MultiFileEventStore × Bool :=
  match s.getStoreMut crc32 json envelope.aggregateId answer with
  | (s, none) => (s, false)
  | (s, some store) =>
    ((s.withStore envelope.aggregateId store fun store ↦
        store.appendEnvelope crc32 sha256 json envelope).incrementEventCount envelope.aggregateId,
      true)

/-- The envelopes in the file of an open store; a line that is none is an error. -/
def readStore (s : MultiFileEventStore) (aggregateId : Option String) :
    Option (List EventEnvelope) :=
  match s.stores aggregateId with
  | some store =>
    ((onDisk store (s.disk.events (eventsDir s.baseDir aggregateId))).storage.readAllEvents
      crc32).bind fun lines ↦ lines.mapM json.parse
  | none => some []

def readAllEnvelopes (s : MultiFileEventStore) : Option (List EventEnvelope) :=
  (s.readStore crc32 json none).bind fun first ↦
    (s.openIds.mapM fun aggregateId ↦ s.readStore crc32 json (some aggregateId)).map fun rest ↦
      first ++ rest.flatten

/-- The envelopes of an aggregate, none when its store is not open. -/
def readAggregateEnvelopes (s : MultiFileEventStore) (aggregateId : String) :
    Option (List EventEnvelope) :=
  s.readStore crc32 json (some aggregateId)

/-- Write the batch of an open store. -/
def flushStore (s : MultiFileEventStore) (aggregateId : Option String) : MultiFileEventStore :=
  match s.stores aggregateId with
  | some store =>
    s.withStore aggregateId store fun store ↦
      { store with storage := store.storage.flushEvents crc32 }
  | none => s

def flushAll (s : MultiFileEventStore) : MultiFileEventStore :=
  (none :: s.openIds.map some).foldl (flushStore crc32) s

/-- The stores are dropped, which writes their batches, and a store is made over the directory. -/
def reopen (s : MultiFileEventStore) : Option MultiFileEventStore :=
  new crc32 json (s.flushAll crc32).disk s.baseDir

def getEventCount (s : MultiFileEventStore) (aggregateId : Option String) : ℕ :=
  s.eventCounts aggregateId

/-- Save a snapshot with the number of events that the store has counted. -/
def saveSnapshot (s : MultiFileEventStore) (aggregateId : Option String) (state : String)
    (lastEventId : Option String) (timestamp : ℕ) (answer : DirAnswer) :
    MultiFileEventStore × Bool :=
  let snapshot :=
    Snapshot.new crc32 aggregateId (s.getEventCount aggregateId) lastEventId state timestamp
  match s.disk.createDirAll s.baseDir (snapshotNames aggregateId) answer with
  | (disk, false) => ({ s with disk }, false)
  | (disk, true) =>
    let content := Snapshot.protectedContent crc32 snapshotJson snapshot
    let dir := snapshotDir s.baseDir aggregateId
    ({ s with
        disk := { disk with snapshots := Function.update disk.snapshots dir (some content) } },
      true)

/-- The snapshot of an aggregate, if there is one; there is no result where the file is rejected. -/
def loadSnapshot (s : MultiFileEventStore) (aggregateId : Option String) :
    Option (Option Snapshot) :=
  match s.disk.snapshots (snapshotDir s.baseDir aggregateId) with
  | none => some none
  | some content => (Snapshot.ofContent crc32 snapshotJson content).map some

/-- The aggregates that have snapshots: the global one, and the names of the entries of the base
directory that have one. -/
def listSnapshots (s : MultiFileEventStore) : List (Option String) :=
  (if (s.disk.snapshots (snapshotDir s.baseDir none)).isSome then [none] else []) ++
    s.disk.dirs.dedup.filterMap fun dir ↦
      (dir.getLast?.filter fun name ↦
        dir = s.baseDir ++ [name] ∧ name ≠ "global" ∧ (s.disk.snapshots dir).isSome).map some

/-- The snapshot, and how many events are in it. -/
structure RecoveryContext where
  snapshot : Option Snapshot
  eventsToSkip : ℕ

def recoveryContext (s : MultiFileEventStore) (aggregateId : Option String) :
    Option RecoveryContext :=
  (s.loadSnapshot crc32 snapshotJson aggregateId).map fun snapshot ↦
    { snapshot
      eventsToSkip := (snapshot.map fun snapshot ↦ snapshot.metadata.eventCount).getD 0 }

def readEventsAfterSnapshot (s : MultiFileEventStore) (aggregateId : Option String) :
    Option (List EventEnvelope) :=
  (s.recoveryContext crc32 snapshotJson aggregateId).bind fun ctx ↦
    (s.readStore crc32 json aggregateId).map fun events ↦ events.drop ctx.eventsToSkip

/-! ### What the files hold -/

/-- The store has nothing to write and its options are those of a new one. -/
structure AtRest (store : FileEventStore) : Prop where
  rotated : store.storage.rotated = []
  eventBatch : store.storage.eventBatch = []
  maxLogFileSize : store.storage.maxLogFileSize = 0
  enableChecksums : store.storage.enableChecksums = true
  pendingSinceFlush : store.pendingSinceFlush = 0
  flushEvery : store.flushEvery = 1

/-- Each events file has the lines of its envelopes, and the stores, of which the global one is
open, are at rest. -/
structure Inv (s : MultiFileEventStore) (contents : Dir → List EventEnvelope) : Prop where
  files : ∀ dir, s.disk.events dir =
    FileStorage.eventLines crc32 true ((contents dir).map json.render)
  atRest : ∀ aggregateId store, s.stores aggregateId = some store → AtRest store
  globalStore : s.stores none ≠ none

variable {crc32 sha256 json snapshotJson} {s next : MultiFileEventStore} {store : FileEventStore}
  {contents : Dir → List EventEnvelope} {aggregateId : Option String} {disk : Disk} {dir : Dir}
  {answer : DirAnswer}

theorem AtRest.rests (h : AtRest store) {text : List Char} {envelopes : List EventEnvelope}
    (htext : text = FileStorage.eventLines crc32 true (envelopes.map json.render)) :
    FileEventStore.Rests crc32 json (onDisk store text) envelopes :=
  ⟨⟨htext, h.rotated, h.eventBatch, h.maxLogFileSize, h.enableChecksums⟩, h.pendingSinceFlush,
    h.flushEvery⟩

theorem atRest_of_rests {envelopes : List EventEnvelope}
    (h : FileEventStore.Rests crc32 json store envelopes) : AtRest store :=
  ⟨h.file.rotated, h.file.eventBatch, h.file.maxLogFileSize, h.file.enableChecksums,
    h.pendingSinceFlush, h.flushEvery⟩

theorem Inv.rests (h : Inv crc32 json s contents) (hstore : s.stores aggregateId = some store) :
    FileEventStore.Rests crc32 json (onDisk store (s.disk.events (eventsDir s.baseDir aggregateId)))
      (contents (eventsDir s.baseDir aggregateId)) :=
  (h.atRest aggregateId store hstore).rests (h.files _)

/-- A store that is opened is at rest. -/
theorem openStore_spec {envelopes : List EventEnvelope} (hfile : disk.events dir =
    FileStorage.eventLines crc32 true (envelopes.map json.render)) :
    ∃ store, openStore crc32 json disk dir = some store ∧ AtRest store := by
  have hholds : FileEventStore.FileHolds crc32 json (storageAt disk dir) envelopes :=
    ⟨hfile, rfl, rfl, rfl, rfl⟩
  exact ⟨_, hholds.new, ⟨rfl, rfl, rfl, rfl, rfl, rfl⟩⟩

/-- A new store has the files as they are on the disk. -/
theorem new_spec (hfiles : ∀ dir, disk.events dir =
    FileStorage.eventLines crc32 true ((contents dir).map json.render)) (baseDir : Dir) :
    ∃ s, new crc32 json disk baseDir = some s ∧ Inv crc32 json s contents ∧ s.baseDir = baseDir ∧
      s.disk = { disk with dirs := disk.dirs ++ baseDir.inits ++ [baseDir ++ ["global"]] } ∧
      (∀ id, s.stores (some id) = none) ∧ s.openIds = [] ∧ ∀ aggregateId,
        s.eventCounts aggregateId = 0 := by
  obtain ⟨globalStore, hopen, hrest⟩ : ∃ store, openStore crc32 json
      { disk with dirs := disk.dirs ++ baseDir.inits ++ [baseDir ++ ["global"]] }
      (eventsDir baseDir none) = some store ∧ AtRest store :=
    openStore_spec (hfiles (eventsDir baseDir none))
  refine ⟨_, congrArg (Option.map _) hopen, ⟨hfiles, ?_, by simp⟩, rfl, rfl, fun id ↦ rfl, rfl,
    fun _ ↦ rfl⟩
  intro aggregateId store hstore
  simp only at hstore
  split_ifs at hstore
  exact Option.some.inj hstore ▸ hrest

variable (crc32 json) in
theorem fresh_files (dirs : List Dir) (dir : Dir) : (Disk.fresh dirs).events dir =
    FileStorage.eventLines crc32 true (([] : List EventEnvelope).map json.render) := rfl

/-- What opening a store leaves as it is. -/
structure Opened (s next : MultiFileEventStore) (aggregateId : Option String) : Prop where
  baseDir : next.baseDir = s.baseDir
  events : next.disk.events = s.disk.events
  snapshots : next.disk.snapshots = s.disk.snapshots
  eventCounts : next.eventCounts = s.eventCounts
  dirs : ∀ dir ∈ next.disk.dirs, dir ∈ s.disk.dirs ∨
    ∃ id, aggregateId = some id ∧ dir ∈ way (origin s.baseDir id) (names id)

theorem Opened.refl (s : MultiFileEventStore) (aggregateId : Option String) :
    Opened s s aggregateId := ⟨rfl, rfl, rfl, rfl, fun _ h ↦ Or.inl h⟩

theorem Opened.inv (h : Opened s next aggregateId) (hinv : Inv crc32 json s contents)
    (hatRest : ∀ aggregateId store, next.stores aggregateId = some store → AtRest store)
    (hglobal : next.stores none ≠ none) : Inv crc32 json next contents :=
  ⟨fun dir ↦ by rw [h.events, hinv.files], hatRest, hglobal⟩

theorem Opened.inv_of_stores (h : Opened s next aggregateId) (hinv : Inv crc32 json s contents)
    (hstores : next.stores = s.stores) : Inv crc32 json next contents :=
  h.inv hinv (hstores ▸ hinv.atRest) (hstores ▸ hinv.globalStore)

/-- The store of an aggregate is opened, unless the directory is refused. -/
theorem getStoreMut_spec (h : Inv crc32 json s contents) (aggregateId : Option String)
    (answer : DirAnswer) :
    (s.stores aggregateId = none ∧ answer ≠ .made ∧ ∃ next,
      s.getStoreMut crc32 json aggregateId answer = (next, none) ∧ Opened s next aggregateId ∧
        next.stores = s.stores) ∨
    ((s.stores aggregateId ≠ none ∨ answer = .made) ∧ ∃ next store,
      s.getStoreMut crc32 json aggregateId answer = (next, some store) ∧
        Opened s next aggregateId ∧ AtRest store ∧
        next.stores = Function.update s.stores aggregateId (some store) ∧
        (s.stores aggregateId = none → ∀ id, aggregateId = some id →
          ∀ dir ∈ way (origin s.baseDir id) (names id), dir ∈ next.disk.dirs)) := by
  cases hstore : s.stores aggregateId with
  | some store =>
    refine Or.inr ⟨Or.inl (by simp), s, store, ?_, Opened.refl s aggregateId,
      h.atRest aggregateId store hstore, ?_, fun hclosed ↦ absurd hclosed (by simp)⟩
    · simp only [getStoreMut, hstore]
    · rw [← hstore, Function.update_eq_self]
  | none =>
    cases aggregateId with
    | none => exact absurd hstore h.globalStore
    | some id =>
      cases answer with
      | refused after =>
        refine Or.inl ⟨rfl, by simp, { s with
          disk := { s.disk with
            dirs := s.disk.dirs ++ (way (origin s.baseDir id) (names id)).take after } }, ?_, ?_,
          rfl⟩
        · simp only [getStoreMut, hstore, createStore, Disk.createDirAll]
        · refine ⟨rfl, rfl, rfl, rfl, fun dir hdir ↦ ?_⟩
          rcases List.mem_append.mp hdir with hdir | hdir
          · exact Or.inl hdir
          · exact Or.inr ⟨id, rfl, List.mem_of_mem_take hdir⟩
      | made =>
        obtain ⟨store, hopen, hrest⟩ : ∃ store, openStore crc32 json
            { s.disk with dirs := s.disk.dirs ++ way (origin s.baseDir id) (names id) }
            (eventsDir s.baseDir (some id)) = some store ∧ AtRest store :=
          openStore_spec (h.files (eventsDir s.baseDir (some id)))
        refine Or.inr ⟨Or.inr rfl, { s with
          disk := { s.disk with dirs := s.disk.dirs ++ way (origin s.baseDir id) (names id) }
          stores := Function.update s.stores (some id) (some store)
          openIds := s.openIds ++ [id] }, store, ?_, ?_, hrest, rfl,
          fun _ other hother dir hdir ↦ ?_⟩
        · simp only [getStoreMut, hstore, createStore, Disk.createDirAll, hopen]
        · refine ⟨rfl, rfl, rfl, rfl, fun dir hdir ↦ ?_⟩
          rcases List.mem_append.mp hdir with hdir | hdir
          · exact Or.inl hdir
          · exact Or.inr ⟨id, rfl, hdir⟩
        · obtain rfl := Option.some.inj hother
          exact List.mem_append_right _ hdir

/-- What a store does with its file is what becomes of the directory. -/
theorem Inv.withStore (h : Inv crc32 json s contents) (aggregateId : Option String)
    (store : FileEventStore) (action : FileEventStore → FileEventStore)
    {envelopes : List EventEnvelope}
    (hrests : FileEventStore.Rests crc32 json
      (action (onDisk store (s.disk.events (eventsDir s.baseDir aggregateId)))) envelopes) :
    Inv crc32 json (s.withStore aggregateId store action)
      (Function.update contents (eventsDir s.baseDir aggregateId) envelopes) := by
  refine ⟨fun dir ↦ ?_, fun other store' hstore' ↦ ?_, ?_⟩
  · show Function.update s.disk.events _ _ dir = _
    by_cases hdir : dir = eventsDir s.baseDir aggregateId
    · rw [hdir, Function.update_self, Function.update_self]
      exact hrests.file.events
    · rw [Function.update_of_ne hdir, Function.update_of_ne hdir]
      exact h.files dir
  · change Function.update s.stores _ _ other = _ at hstore'
    by_cases hother : other = aggregateId
    · rw [hother, Function.update_self, Option.some.injEq] at hstore'
      exact hstore' ▸ atRest_of_rests hrests
    · rw [Function.update_of_ne hother] at hstore'
      exact h.atRest other store' hstore'
  · show Function.update s.stores _ _ none ≠ none
    by_cases hnone : none = aggregateId
    · rw [← hnone, Function.update_self]
      exact Option.some_ne_none _
    · rw [Function.update_of_ne hnone]
      exact h.globalStore

/-- An envelope is written behind those of the directory, chained if it has no hash, and counted. -/
structure Appended (s next : MultiFileEventStore) (contents : Dir → List EventEnvelope)
    (envelope persisted : EventEnvelope) : Prop where
  baseDir : next.baseDir = s.baseDir
  snapshots : next.disk.snapshots = s.disk.snapshots
  eventCounts : next.eventCounts = Function.update s.eventCounts envelope.aggregateId
    (s.eventCounts envelope.aggregateId + 1)
  dirs : ∀ dir ∈ next.disk.dirs, dir ∈ s.disk.dirs ∨
    ∃ id, envelope.aggregateId = some id ∧ dir ∈ way (origin s.baseDir id) (names id)
  made : s.stores envelope.aggregateId = none → ∀ id, envelope.aggregateId = some id →
    ∀ dir ∈ way (origin s.baseDir id) (names id), dir ∈ next.disk.dirs
  stores : ∀ aggregateId, next.stores aggregateId ≠ none ↔
    aggregateId = envelope.aggregateId ∨ s.stores aggregateId ≠ none
  content : persisted.content = envelope.content
  hashed : envelope.eventHash ≠ none → persisted = envelope

/-- The contents with one more envelope in a directory. -/
def put (contents : Dir → List EventEnvelope) (dir : Dir) (envelope : EventEnvelope) :
    Dir → List EventEnvelope :=
  Function.update contents dir (contents dir ++ [envelope])

/-- The envelopes of a log in the files of their directories: one more goes to the file of its
own. -/
theorem put_filter (directory : Option String → Dir) (log : List EventEnvelope)
    (envelope : EventEnvelope) :
    put (fun dir ↦ log.filter fun e ↦ directory e.aggregateId = dir)
      (directory envelope.aggregateId) envelope =
      fun dir ↦ (log ++ [envelope]).filter fun e ↦ directory e.aggregateId = dir := by
  funext dir
  unfold put
  by_cases hdir : dir = directory envelope.aggregateId
  · rw [hdir, Function.update_self, List.filter_append,
      List.filter_singleton, decide_eq_true rfl, cond_true]
  · have hother : ¬ directory envelope.aggregateId = dir := fun h ↦ hdir h.symm
    rw [Function.update_of_ne hdir, List.filter_append, List.filter_singleton,
      decide_eq_false hother, cond_false, List.append_nil]

theorem content_envelopeToPersist (store : FileEventStore) (envelope : EventEnvelope) :
    (store.envelopeToPersist sha256 envelope).content = envelope.content := by
  unfold FileEventStore.envelopeToPersist EventEnvelope.link
  split_ifs <;> rfl

variable (sha256) in
/-- An append succeeds unless the directory is refused. -/
theorem appendEnvelope_spec (h : Inv crc32 json s contents) (envelope : EventEnvelope)
    (answer : DirAnswer) :
    (s.stores envelope.aggregateId = none ∧ answer ≠ .made ∧ ∃ next,
      s.appendEnvelope crc32 sha256 json envelope answer = (next, false) ∧
        Opened s next envelope.aggregateId ∧ next.stores = s.stores) ∨
    ((s.stores envelope.aggregateId ≠ none ∨ answer = .made) ∧ ∃ next persisted,
      s.appendEnvelope crc32 sha256 json envelope answer = (next, true) ∧
        Appended s next contents envelope persisted ∧
        Inv crc32 json next
          (put contents (eventsDir s.baseDir envelope.aggregateId) persisted)) := by
  rcases getStoreMut_spec h envelope.aggregateId answer with
    ⟨hnone, hanswer, opened, hget, hopened, hstores⟩ |
    ⟨hable, opened, store, hget, hopened, hrest, hstores, hmade⟩
  · refine Or.inl ⟨hnone, hanswer, opened, ?_, hopened, hstores⟩
    simp only [appendEnvelope, hget]
  · have hinv : Inv crc32 json opened contents := by
      refine hopened.inv h (fun other store' hstore' ↦ ?_) ?_
      · rw [hstores] at hstore'
        by_cases hother : other = envelope.aggregateId
        · rw [hother, Function.update_self, Option.some.injEq] at hstore'
          exact hstore' ▸ hrest
        · rw [Function.update_of_ne hother] at hstore'
          exact h.atRest other store' hstore'
      · rw [hstores]
        by_cases hnone : none = envelope.aggregateId
        · rw [← hnone, Function.update_self]
          exact Option.some_ne_none _
        · rw [Function.update_of_ne hnone]
          exact h.globalStore
    have hfile := hinv.files (eventsDir opened.baseDir envelope.aggregateId)
    obtain ⟨hrests, -⟩ := (hrest.rests hfile).appendEnvelope sha256 envelope
    have hnext := hinv.withStore envelope.aggregateId store
      (fun store ↦ store.appendEnvelope crc32 sha256 json envelope) hrests
    let found := onDisk store (opened.disk.events (eventsDir opened.baseDir envelope.aggregateId))
    refine Or.inr ⟨hable, (opened.withStore envelope.aggregateId store fun store ↦
      store.appendEnvelope crc32 sha256 json envelope).incrementEventCount envelope.aggregateId,
      found.envelopeToPersist sha256 envelope, ?_, ?_, ?_⟩
    · simp only [appendEnvelope, hget]
    · refine ⟨hopened.baseDir, hopened.snapshots, ?_, hopened.dirs, hmade, fun other ↦ ?_,
        content_envelopeToPersist found envelope, fun hhashed ↦ ?_⟩
      · show Function.update opened.eventCounts _ (opened.eventCounts _ + 1) = _
        rw [hopened.eventCounts]
      · show Function.update opened.stores _ _ other ≠ none ↔ _
        rw [hstores]
        by_cases hother : other = envelope.aggregateId
        · simp [hother]
        · simp [hother]
      · unfold FileEventStore.envelopeToPersist EventEnvelope.link
        rw [if_neg fun h ↦ hhashed (Option.isNone_iff_eq_none.mp h.2)]
    · rw [put, ← hopened.baseDir]
      exact ⟨hnext.files, hnext.atRest, hnext.globalStore⟩

/-- Nothing changes but what stores see of their files. -/
structure Untouched (s next : MultiFileEventStore) : Prop where
  baseDir : next.baseDir = s.baseDir
  disk : next.disk = s.disk
  openIds : next.openIds = s.openIds
  eventCounts : next.eventCounts = s.eventCounts
  stores : ∀ aggregateId, next.stores aggregateId ≠ none ↔ s.stores aggregateId ≠ none

theorem Untouched.refl (s : MultiFileEventStore) : Untouched s s :=
  ⟨rfl, rfl, rfl, rfl, fun _ ↦ Iff.rfl⟩

theorem Untouched.trans {last : MultiFileEventStore} (h : Untouched s next)
    (h' : Untouched next last) : Untouched s last :=
  ⟨h'.baseDir.trans h.baseDir, h'.disk.trans h.disk, h'.openIds.trans h.openIds,
    h'.eventCounts.trans h.eventCounts, fun aggregateId ↦ (h'.stores aggregateId).trans
      (h.stores aggregateId)⟩

/-- There is nothing to write. -/
theorem flushStore_spec (h : Inv crc32 json s contents) (aggregateId : Option String) :
    Untouched s (s.flushStore crc32 aggregateId) ∧
      Inv crc32 json (s.flushStore crc32 aggregateId) contents := by
  unfold flushStore
  cases hstore : s.stores aggregateId with
  | none => exact ⟨Untouched.refl s, h⟩
  | some store =>
    have hrests := h.rests hstore
    have hidle :
        (onDisk store (s.disk.events (eventsDir s.baseDir aggregateId))).storage.flushEvents crc32 =
          (onDisk store (s.disk.events (eventsDir s.baseDir aggregateId))).storage :=
      hrests.file.flushBatch
    have hfile : (onDisk store (s.disk.events (eventsDir s.baseDir aggregateId))).storage.events =
        s.disk.events (eventsDir s.baseDir aggregateId) := rfl
    constructor
    · refine ⟨rfl, ?_, rfl, rfl, fun other ↦ ?_⟩
      · simp only [withStore, hidle, hfile, Function.update_eq_self]
      · show Function.update s.stores _ _ other ≠ none ↔ _
        by_cases hother : other = aggregateId
        · simp [hother, hstore]
        · rw [Function.update_of_ne hother]
    · have hflushed : FileEventStore.Rests crc32 json
          { onDisk store (s.disk.events (eventsDir s.baseDir aggregateId)) with
            storage := (onDisk store
              (s.disk.events (eventsDir s.baseDir aggregateId))).storage.flushEvents crc32 }
          (contents (eventsDir s.baseDir aggregateId)) := by
        rw [hidle]
        exact hrests
      have hinv := h.withStore aggregateId store
        (fun store ↦ { store with storage := store.storage.flushEvents crc32 }) hflushed
      rwa [Function.update_eq_self] at hinv

theorem flushAll_spec (h : Inv crc32 json s contents) :
    Untouched s (s.flushAll crc32) ∧ Inv crc32 json (s.flushAll crc32) contents := by
  have hfold : ∀ (ids : List (Option String)) (s : MultiFileEventStore), Inv crc32 json s contents →
      Untouched s (ids.foldl (flushStore crc32) s) ∧
        Inv crc32 json (ids.foldl (flushStore crc32) s) contents := by
    intro ids
    induction ids with
    | nil => exact fun s h ↦ ⟨Untouched.refl s, h⟩
    | cons aggregateId rest ih =>
      intro s h
      obtain ⟨huntouched, hinv⟩ := flushStore_spec h aggregateId
      obtain ⟨huntouched', hinv'⟩ := ih _ hinv
      exact ⟨huntouched.trans huntouched', hinv'⟩
  exact hfold _ s h

/-- A store that is made again has only the global store open and has counted nothing. -/
theorem reopen_spec (h : Inv crc32 json s contents) :
    ∃ next, s.reopen crc32 json = some next ∧ Inv crc32 json next contents ∧
      next.baseDir = s.baseDir ∧
      next.disk = { s.disk with
        dirs := s.disk.dirs ++ s.baseDir.inits ++ [s.baseDir ++ ["global"]] } ∧
      (∀ id, next.stores (some id) = none) ∧ next.openIds = [] ∧
      ∀ aggregateId, next.eventCounts aggregateId = 0 := by
  obtain ⟨huntouched, -⟩ := flushAll_spec h
  rw [reopen, huntouched.disk]
  exact new_spec h.files s.baseDir

/-- The file of an open store reads back. -/
theorem readStore_of_open (h : Inv crc32 json s contents) (hopen : s.stores aggregateId ≠ none) :
    s.readStore crc32 json aggregateId = some (contents (eventsDir s.baseDir aggregateId)) := by
  obtain ⟨store, hstore⟩ := Option.ne_none_iff_exists'.mp hopen
  have hrests := h.rests hstore
  simp only [readStore, hstore]
  rw [hrests.file.readAllEvents, Option.bind_some, json.mapM_parse_render]

theorem readStore_of_not_open (hclosed : s.stores aggregateId = none) :
    s.readStore crc32 json aggregateId = some [] := by
  simp only [readStore, hclosed]

variable (snapshotJson) in
/-- A snapshot that is saved is loaded by each id that leads to its directory, and the others are as
they were. -/
theorem saveSnapshot_spec (h : Inv crc32 json s contents) (aggregateId : Option String)
    (state : String) (lastEventId : Option String) (timestamp : ℕ) (answer : DirAnswer) :
    ∃ next ok, s.saveSnapshot crc32 snapshotJson aggregateId state lastEventId timestamp answer =
        (next, ok) ∧ (ok = true ↔ answer = .made) ∧ Inv crc32 json next contents ∧
      next.baseDir = s.baseDir ∧ next.stores = s.stores ∧ next.eventCounts = s.eventCounts ∧
      (∀ dir ∈ next.disk.dirs, dir ∈ s.disk.dirs ∨
        dir ∈ way s.baseDir (snapshotNames aggregateId)) ∧
      (ok = true → ∀ dir ∈ way s.baseDir (snapshotNames aggregateId), dir ∈ next.disk.dirs) ∧
      next.disk.snapshots = if ok then
        Function.update s.disk.snapshots (snapshotDir s.baseDir aggregateId)
          (some (Snapshot.protectedContent crc32 snapshotJson (Snapshot.new crc32 aggregateId
            (s.eventCounts aggregateId) lastEventId state timestamp)))
        else s.disk.snapshots := by
  cases answer with
  | made =>
    refine ⟨_, true, rfl, by simp, ⟨h.files, h.atRest, h.globalStore⟩, rfl, rfl, rfl,
      fun dir hdir ↦ ?_, fun _ dir hdir ↦ ?_, rfl⟩
    · exact List.mem_append.mp hdir
    · exact List.mem_append_right _ hdir
  | refused after =>
    refine ⟨_, false, rfl, by simp, ⟨h.files, h.atRest, h.globalStore⟩, rfl, rfl, rfl,
      fun dir hdir ↦ ?_, fun hok ↦ absurd hok (by decide), rfl⟩
    exact (List.mem_append.mp hdir).imp_right List.mem_of_mem_take

/-! ### Runs -/

/-- A call on the store, with what becomes of the directories it needs; or the store is dropped and
made again. -/
inductive StoreAction
  | append (envelope : EventEnvelope) (answer : DirAnswer)
  | saveSnapshot (aggregateId : Option String) (state : String) (lastEventId : Option String)
    (timestamp : ℕ) (answer : DirAnswer)
  | flush
  | reopen

variable (crc32 sha256 json snapshotJson) in
def step (s : MultiFileEventStore) : StoreAction → Option MultiFileEventStore
  | .append envelope answer => some (s.appendEnvelope crc32 sha256 json envelope answer).1
  | .saveSnapshot aggregateId state lastEventId timestamp answer =>
    some (s.saveSnapshot crc32 snapshotJson aggregateId state lastEventId timestamp answer).1
  | .flush => some (s.flushAll crc32)
  | .reopen => s.reopen crc32 json

end MultiFileEventStore

end Lithair.Engine
