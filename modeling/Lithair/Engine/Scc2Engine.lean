import Lithair.Engine.AsyncWriter
import Lithair.Lib.Json
import Mathlib.Data.Finmap

/-!
# The state engine

`engine/scc2_engine.rs`: the states by key, the secondary indexes, and the writer. An event is
applied to the state of a key after the unique fields of its result have been looked up in the
indexes, and its text is sent to the writer. `replay_events` rebuilds the states from the lines of
the log; which key an event belongs to is read from its line.

What the application gives is the structure `Application`, and the JSON library the structure
`JsonText`. Calls come one after the other, so that an entry of the map is never held by another
call, and the writer runs.

For the data of the states, an event is an update of one key (`dataOf_touch`), and the replay of a
log is the updates of its lines (`dataOf_replayEvents`).
-/

namespace Lithair.Engine

open Lithair.Lib

/-- What the engine asks of a field. -/
structure FieldPolicy where
  unique : Bool
  indexed : Bool
  deriving DecidableEq

/-- An application: its states with their fields, and its events with their texts. The text may
depend on the time. -/
structure Application (S E : Type*) where
  default : S
  getAllFields : S → List String
  getPolicy : S → String → Option FieldPolicy
  getFieldValue : S → String → Option Json
  apply : E → S → S
  toJson : ℕ → E → String
  fromStr : String → Option E

/-- The texts of JSON values. -/
structure JsonText where
  parse : String → Option Json
  render : Json → String

/-- A state with the number of its changes and the time of the last one. -/
structure VersionedEntry (S : Type*) where
  version : ℕ
  lastUpdated : ℕ
  data : S

abbrev StateMap (S : Type*) := Finmap fun _ : String ↦ VersionedEntry S

/-- The keys under each value of a field. -/
abbrev SecondaryIndex := Finmap fun _ : String ↦ List String

abbrev Indexes := Finmap fun _ : String ↦ SecondaryIndex

structure Scc2EngineConfig where
  enableSnapshots : Bool
  autoPersistWrites : Bool
  deriving DecidableEq

structure Scc2Engine (S : Type*) where
  stateMap : StateMap S
  indexes : Indexes
  writer : AsyncWriter

/-- The data under each key. -/
def dataOf {S : Type*} (map : StateMap S) (key : String) : Option S :=
  (map.lookup key).map VersionedEntry.data

/-! ### Secondary indexes -/

namespace Indexes

/-- The text by which a value is indexed. -/
def valueStr (json : JsonText) : Json → String
  | .string s => s
  | value => json.render value

def createIndex (indexes : Indexes) (fieldName : String) : Indexes :=
  if fieldName ∈ indexes then indexes else indexes.insert fieldName ∅

def getIndexedValues (indexes : Indexes) (fieldName value : String) : List String :=
  ((indexes.lookup fieldName).bind fun index ↦ index.lookup value).getD []

def addToIndexValue (indexes : Indexes) (fieldName value key : String) : Indexes :=
  let indexes := indexes.createIndex fieldName
  match indexes.lookup fieldName with
  | none => indexes
  | some index =>
    match index.lookup value with
    | some keys =>
      if key ∈ keys then indexes
      else indexes.insert fieldName (index.insert value (keys ++ [key]))
    | none => indexes.insert fieldName (index.insert value [key])

def removeFromIndexValue (indexes : Indexes) (fieldName value key : String) : Indexes :=
  match indexes.lookup fieldName with
  | none => indexes
  | some index =>
    match index.lookup value with
    | some keys => indexes.insert fieldName (index.insert value (keys.erase key))
    | none => indexes

section Application

variable {S E : Type*} (json : JsonText) (app : Application S E)

/-- Whether there is an index for the field of the state. -/
def isIndexed (state : S) (fieldName : String) : Bool :=
  match app.getPolicy state fieldName with
  | some policy => policy.indexed || policy.unique
  | none => false

/-- Bring the indexes from one state of the key to the next. -/
def updateIndexes (indexes : Indexes) (key : String) (oldState newState : S) : Indexes :=
  (app.getAllFields newState).foldl
    (fun indexes fieldName ↦
      let oldVal := app.getFieldValue oldState fieldName
      let newVal := app.getFieldValue newState fieldName
      if isIndexed app newState fieldName ∧ oldVal ≠ newVal then
        let removed :=
          match oldVal with
          | some value => indexes.removeFromIndexValue fieldName (valueStr json value) key
          | none => indexes
        match newVal with
        | some value => removed.addToIndexValue fieldName (valueStr json value) key
        | none => removed
      else indexes)
    indexes

/-- Enter the first state of the key. -/
def addToIndex (indexes : Indexes) (key : String) (state : S) : Indexes :=
  (app.getAllFields state).foldl
    (fun indexes fieldName ↦
      if isIndexed app state fieldName then
        match app.getFieldValue state fieldName with
        | some value => indexes.addToIndexValue fieldName (valueStr json value) key
        | none => indexes
      else indexes)
    indexes

/-- Bring the indexes to the new state of the key, from the old one when there was one. -/
def reindex (indexes : Indexes) (key : String) (oldState : Option S) (newState : S) : Indexes :=
  match oldState with
  | some oldState => indexes.updateIndexes json app key oldState newState
  | none => indexes.addToIndex json app key newState

end Application

end Indexes

/-! ### The engine -/

namespace StateMap

variable {S E : Type*} (app : Application S E)

/-- Change the state under a key. A key that is not there starts from the default state. -/
def touch (map : StateMap S) (key : String) (now : ℕ) (f : S → S) : StateMap S :=
  match map.lookup key with
  | some entry => map.insert key ⟨entry.version + 1, now, f entry.data⟩
  | none => map.insert key ⟨1, now, f app.default⟩

end StateMap

namespace Scc2Engine

variable {S E : Type*} (json : JsonText) (app : Application S E) (config : Scc2EngineConfig)
  (crc32 : List UInt8 → UInt32)

/-- An engine without states, with a writer for the storage. -/
def new (store : FileStorage) : Scc2Engine S where
  stateMap := ∅
  indexes := ∅
  writer := AsyncWriter.new store 1000

def read (s : Scc2Engine S) (key : String) : Option S := dataOf s.stateMap key

/-- Change the state under a key; the indexes follow when there are any. -/
def updateEntryVolatile (s : Scc2Engine S) (key : String) (now : ℕ) (f : S → S) : Scc2Engine S :=
  let oldState := s.read key
  { s with
    stateMap := s.stateMap.touch app key now f
    indexes :=
      if s.indexes = ∅ then s.indexes
      else s.indexes.reindex json app key oldState (f (oldState.getD app.default)) }

/-- An event is refused when its result has a unique field with a value that the index has under
another key. -/
def checkUniqueness (s : Scc2Engine S) (event : E) (key : String) : Except String Unit :=
  let state := app.apply event ((s.read key).getD app.default)
  let violation := (app.getAllFields state).findSome? fun fieldName ↦
    match app.getPolicy state fieldName, app.getFieldValue state fieldName with
    | some policy, some value =>
      if policy.unique then
        let valueStr := Indexes.valueStr json value
        ((s.indexes.getIndexedValues fieldName valueStr).find? fun id ↦ id ≠ key).map fun id ↦
          "Unique constraint violation: Field '" ++ fieldName ++ "' with value '" ++ valueStr ++
            "' already exists in record '" ++ id ++ "'"
      else none
    | _, _ => none
  match violation with
  | some message => .error message
  | none => .ok ()

/-- The texts that are sent to the writer for an event. -/
def sentTexts (now : ℕ) (event : E) : List String :=
  if config.autoPersistWrites then [app.toJson now event] else []

/-- Apply an event that is to be persisted. -/
def applyEvent (s : Scc2Engine S) (key : String) (event : E) (now : ℕ) :
    Except String (Scc2Engine S) :=
  match s.checkUniqueness json app event key with
  | .error message => .error message
  | .ok () =>
    let oldState := s.read key
    .ok
      { stateMap := s.stateMap.touch app key now (app.apply event)
        indexes :=
          s.indexes.reindex json app key oldState
            (app.apply event (oldState.getD app.default))
        writer :=
          (sentTexts app config now event).foldl (fun writer text ↦ writer.send (.event text))
            s.writer }

/-- The key and the event of a line: of an envelope, its aggregate id and its payload; else the key
`global` and the line itself. -/
def keyedEvent (eventJson : String) : Option (String × E) :=
  match json.parse eventJson with
  | none => none
  | some envelope =>
    let aggregateId := ((envelope.get "aggregate_id").bind Json.asStr).getD "global"
    let payload := ((envelope.get "payload").bind Json.asStr).getD eventJson
    (app.fromStr payload).map fun event ↦ (aggregateId, event)

/-- Apply the event of a line, if there is one. -/
def replayEvent (now : ℕ) (s : Scc2Engine S) (eventJson : String) : Scc2Engine S :=
  match keyedEvent json app eventJson with
  | some (key, event) => s.updateEntryVolatile json app key now (app.apply event)
  | none => s

def replayEvents (s : Scc2Engine S) (events : List String) (now : ℕ) : Scc2Engine S :=
  events.foldl (replayEvent json app now) s

/-- An engine over the files of a storage, with the events of the log replayed. -/
def start (store : FileStorage) (now : ℕ) : Option (Scc2Engine S) :=
  (store.reopen.readAllEvents crc32).map fun events ↦
    (new store.reopen).replayEvents json app events now

/-! ### The data of the states -/

/-- What an event does to the data. -/
def effect (data : String → Option S) (keyed : String × E) : String → Option S :=
  Function.update data keyed.1 (some (app.apply keyed.2 ((data keyed.1).getD app.default)))

theorem dataOf_insert (map : StateMap S) (key : String) (entry : VersionedEntry S) :
    dataOf (map.insert key entry) = Function.update (dataOf map) key (some entry.data) := by
  ext1 other
  by_cases hother : other = key
  · subst hother
    rw [Function.update_self, dataOf, Finmap.lookup_insert]
    rfl
  · rw [Function.update_of_ne hother, dataOf, Finmap.lookup_insert_of_ne _ hother]
    rfl

/-- To change the state under a key is to update the data there. -/
theorem dataOf_touch (map : StateMap S) (key : String) (now : ℕ) (f : S → S) :
    dataOf (map.touch app key now f) =
      Function.update (dataOf map) key (some (f ((dataOf map key).getD app.default))) := by
  unfold StateMap.touch
  cases hlookup : map.lookup key with
  | some entry =>
    rw [show dataOf map key = some entry.data by rw [dataOf, hlookup]; rfl]
    exact dataOf_insert map key _
  | none =>
    rw [show dataOf map key = none by rw [dataOf, hlookup]; rfl]
    exact dataOf_insert map key _

/-- The replay of lines is what their events do, one after the other. -/
theorem dataOf_replayEvents (s : Scc2Engine S) (events : List String) (now : ℕ) :
    dataOf (s.replayEvents json app events now).stateMap =
      (events.filterMap (keyedEvent json app)).foldl (effect app) (dataOf s.stateMap) := by
  induction events generalizing s with
  | nil => rfl
  | cons line rest ih =>
    show dataOf ((replayEvent json app now s line).replayEvents json app rest now).stateMap = _
    rw [ih]
    unfold replayEvent
    cases hkeyed : keyedEvent json app line with
    | none => rw [List.filterMap_cons_none hkeyed]
    | some keyed =>
      have htouch := dataOf_touch app s.stateMap keyed.1 now (app.apply keyed.2)
      rw [List.filterMap_cons_some hkeyed, List.foldl_cons]
      exact congrArg (fun data ↦ (rest.filterMap _).foldl (effect app) data) htouch

theorem writer_replayEvents (s : Scc2Engine S) (events : List String) (now : ℕ) :
    (s.replayEvents json app events now).writer = s.writer := by
  induction events generalizing s with
  | nil => rfl
  | cons line rest ih =>
    show ((replayEvent json app now s line).replayEvents json app rest now).writer = _
    rw [ih]
    unfold replayEvent
    split
    · rfl
    · rfl

/-- An event that is applied does to the data what it does to its key, and its texts are sent. -/
theorem applyEvent_spec {s next : Scc2Engine S} {key : String} {event : E} {now : ℕ}
    (h : s.applyEvent json app config key event now = .ok next) :
    dataOf next.stateMap = effect app (dataOf s.stateMap) (key, event) ∧
      next.writer = { s.writer with
        channel := s.writer.channel ++ (sentTexts app config now event).map .event } := by
  unfold applyEvent at h
  split at h
  · exact absurd h (by simp)
  obtain rfl := Except.ok.inj h
  refine ⟨dataOf_touch app s.stateMap key now (app.apply event), ?_⟩
  unfold sentTexts
  split_ifs
  · rfl
  · show s.writer = { s.writer with channel := s.writer.channel ++ [] }
    rw [List.append_nil]

end Scc2Engine

end Lithair.Engine
