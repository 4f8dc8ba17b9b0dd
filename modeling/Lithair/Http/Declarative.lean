import Lithair.Engine.EventStore
import Lithair.Lib.Json
import Lithair.Lib.KeyedMap

/-!
# The declarative HTTP handler

The operations of `DeclarativeHttpHandler` in `http/declarative.rs` that change a model's storage:
create, update and delete from a client, and their replicated counterparts, each with the event it
persists, and `replay_events`, which rebuilds the storage from the log.

What the trait `HttpExposable` and the derived serialisation give the handler is the structure
`HttpExposable`: the texts and values of an item are the library's business, and all that is asked
of them is that an item reads back from its text. A client's operation answers with a `Response`;
where it fails after the storage was changed, the changed storage stays.
-/

namespace Lithair.Http

open Lithair.Engine Lithair.Lib

/-- A model type as the handler sees it. -/
structure HttpExposable (T : Type*) where
  typeName : String
  getPrimaryKey : T → String
  validate : T → Except String Unit
  canWrite : T → List String → Bool
  applyLifecycle : T → Except String T
  toValue : T → Option Json
  fromValue : Json → Except String T
  toText : T → Option String
  fromText : String → Option T
  fromSlice : List UInt8 → Option T
  /-- An item reads back from the text it was written as. -/
  fromText_toText : ∀ {item text}, toText item = some text → fromText text = some item

namespace HttpExposable

variable {T : Type*} (M : HttpExposable T)

/-- The key of a replicated item: the string under `id` of its value, else its primary key. -/
def actualKey (item : T) : String :=
  (((M.toValue item).bind (Json.get "id")).bind Json.asStr).getD (M.getPrimaryKey item)

/-- The last segment of the type's name. -/
def modelName : String := ((M.typeName.splitOn "::").getLast?).getD "Item"

end HttpExposable

/-- How a handler is set up: with a consensus to propose writes to or without, with a permission
extractor, with a permission checker, and the limit on the body of a single write. -/
structure HandlerConfig where
  consensus : Bool
  permissionExtractor : Bool
  permissionChecker : Option (String → String → Bool)
  maxBodyBytesSingle : ℕ

/-- What the handler reads of a write request: whether it is declared as JSON, the declared length,
the body unless reading it failed, the permissions the extractor finds, and the role of the
session. -/
structure WriteRequest where
  jsonContentType : Bool
  contentLength : Option ℕ
  body : Option (List UInt8)
  permissions : List String
  role : Option String

/-- What the environment decides during an operation: the consensus on the proposal, how the append
to the event log ends, and the time. -/
structure Environment where
  proposal : Except String Unit
  append : AppendOutcome
  now : ℕ

/-- The answers to a write. -/
inductive Response (T : Type*)
  | created (item : T)
  | updated (item : T)
  | noContent
  | badRequest (message : String)
  | unauthorized
  | forbidden
  | notFound
  | unsupportedMediaType
  | entityTooLarge (max : ℕ)
  | serviceUnavailable (message : String)
  | internalError
  deriving DecidableEq

/-- The answers that report success. -/
def Response.isSuccess {T : Type*} : Response T → Bool
  | .created _ | .updated _ | .noContent => true
  | _ => false

/-- The storage of a model, by key. -/
abbrev Storage (T : Type*) := Finmap fun _ : String ↦ T

/-- The state of a handler: its storage and its event store. -/
structure HandlerState (T : Type*) where
  storage : Storage T
  store : EventStore

namespace Declarative

variable {T : Type*} (M : HttpExposable T) (sha256 : List UInt8 → String) (config : HandlerConfig)

/-- A handler before any operation. -/
def emptyHandler (enableHashChain : Bool) : HandlerState T :=
  ⟨∅, { events := [], lastEventHash := none, enableHashChain }⟩

/-! ### Persisting -/

/-- The envelope of an operation on an item. -/
def envelope (operation payload : String) (item : T) (now : ℕ) : EventEnvelope where
  eventType := M.typeName ++ operation
  eventId := M.typeName ++ ":" ++ operation ++ ":" ++ M.getPrimaryKey item
  timestamp := now
  payload := payload
  aggregateId := some (M.getPrimaryKey item)
  eventHash := none
  previousHash := none

/-- Persist an operation on an item; the second component says whether it succeeded. -/
def persistToEventStore (store : EventStore) (operation : String) (item : T)
    (env : Environment) : EventStore × Bool :=
  match M.toText item with
  | none => (store, false)
  | some payload =>
    store.appendEnvelope sha256 (envelope M operation payload item env.now) env.append

/-! ### Writes of a client -/

/-- Whether the request may do `operation` (`Write` or `Delete`) on the item: by the item's own rule
when there is a permission extractor, else by the role when there is a permission checker. -/
def authorize (req : WriteRequest) (item : T) (operation : String) : Except (Response T) Unit :=
  if config.permissionExtractor then
    if M.canWrite item req.permissions then .ok () else .error .forbidden
  else
    match config.permissionChecker, req.role with
    | none, _ => .ok ()
    | some _, none => .error .unauthorized
    | some hasPermission, some role =>
      if hasPermission role (M.modelName ++ operation) ∨ hasPermission role operation then .ok ()
      else .error .forbidden

/-- The item in the body of a request. -/
def parseBody (req : WriteRequest) : Except (Response T) T :=
  if req.jsonContentType = false then .error .unsupportedMediaType
  else if config.maxBodyBytesSingle < req.contentLength.getD 0 then
    .error (.entityTooLarge config.maxBodyBytesSingle)
  else
    match req.body with
    | none => .error (.badRequest "Invalid body")
    | some bytes =>
      if config.maxBodyBytesSingle < bytes.length then
        .error (.entityTooLarge config.maxBodyBytesSingle)
      else
        match M.fromSlice bytes with
        | none => .error (.badRequest "Invalid JSON")
        | some item => .ok item

/-- The item that a create or an update stores: parsed, authorised, validated, and with the
lifecycle rules applied. -/
def prepare (req : WriteRequest) : Except (Response T) T :=
  match parseBody M config req with
  | .error response => .error response
  | .ok item =>
    match authorize M config req item "Write" with
    | .error response => .error response
    | .ok () =>
      match M.validate item with
      | .error message => .error (.badRequest message)
      | .ok () =>
        match M.applyLifecycle item with
        | .error message => .error (.badRequest message)
        | .ok item => .ok item

/-- The proposal of a write to the consensus, when there is one. -/
def propose (env : Environment) : Except (Response T) Unit :=
  if config.consensus then
    match env.proposal with
    | .ok () => .ok ()
    | .error message => .error (.serviceUnavailable ("Consensus failed: " ++ message))
  else .ok ()

/-- The key a created item is stored under: after consensus the id in its value, locally its primary
key. -/
def createKey (item : T) : String :=
  if config.consensus then M.actualKey item else M.getPrimaryKey item

/-- Persist what was done, and answer. -/
def persistAndAnswer (s : HandlerState T) (operation : String) (item : T) (env : Environment)
    (response : Response T) : HandlerState T × Response T :=
  let (store, ok) := persistToEventStore M sha256 s.store operation item env
  ({ s with store }, if ok then response else .internalError)

def handleCreate (s : HandlerState T) (req : WriteRequest) (env : Environment) :
    HandlerState T × Response T :=
  match prepare M config req with
  | .error response => (s, response)
  | .ok item =>
    match propose config env with
    | .error response => (s, response)
    | .ok () =>
      persistAndAnswer M sha256
        { s with storage := s.storage.insert (createKey M config item) item } "Created" item env
        (.created item)

def handleUpdate (s : HandlerState T) (id : String) (req : WriteRequest) (env : Environment) :
    HandlerState T × Response T :=
  match prepare M config req with
  | .error response => (s, response)
  | .ok item =>
    match propose config env with
    | .error response => (s, response)
    | .ok () =>
      if id ∈ s.storage then
        persistAndAnswer M sha256 { s with storage := s.storage.insert id item } "Updated" item env
          (.updated item)
      else (s, .notFound)

/-- A delete is checked against the item that is there; there is nothing to check without one. -/
def authorizeDelete (storage : Storage T) (id : String) (req : WriteRequest) :
    Except (Response T) Unit :=
  match storage.lookup id with
  | some item => authorize M config req item "Delete"
  | none => .ok ()

def handleDelete (s : HandlerState T) (id : String) (req : WriteRequest) (env : Environment) :
    HandlerState T × Response T :=
  match authorizeDelete M config s.storage id req with
  | .error response => (s, response)
  | .ok () =>
    match propose config env with
    | .error response => (s, response)
    | .ok () =>
      match s.storage.lookup id with
      | some item =>
        persistAndAnswer M sha256 { s with storage := s.storage.erase id } "Deleted" item env
          .noContent
      | none => (s, .notFound)

/-! ### Replicated writes -/

/-- Persist a replicated operation; a failure is only logged. -/
def persistReplicated (s : HandlerState T) (operation : String) (item : T) (env : Environment) :
    HandlerState T :=
  { s with store := (persistToEventStore M sha256 s.store operation item env).1 }

def applyReplicatedItem (s : HandlerState T) (item : T) (env : Environment) : HandlerState T :=
  persistReplicated M sha256 { s with storage := s.storage.insert (M.actualKey item) item }
    "Replicated" item env

/-- Apply a list of items, each in the environment of its position. -/
def applyReplicatedItems (s : HandlerState T) : List T → (ℕ → Environment) → HandlerState T
  | [], _ => s
  | item :: rest, env =>
    applyReplicatedItems (applyReplicatedItem M sha256 s item (env 0)) rest fun n ↦ env (n + 1)

/-- Replace the storage by the given items. -/
def reconcileReplaceAll (s : HandlerState T) (items : List T) : HandlerState T :=
  { s with storage := KeyedMap.insertAll M.actualKey items ∅ }

/-- An update of an item that is not there is taken as a create. -/
def applyReplicatedUpdate (s : HandlerState T) (id : String) (item : T) (env : Environment) :
    HandlerState T :=
  if id ∈ s.storage then
    persistReplicated M sha256 { s with storage := s.storage.insert id item } "Updated" item env
  else applyReplicatedItem M sha256 s item env

/-- The second component says whether there was an item to delete; both are success. -/
def applyReplicatedDelete (s : HandlerState T) (id : String) (env : Environment) :
    HandlerState T × Bool :=
  match s.storage.lookup id with
  | some item =>
    (persistReplicated M sha256 { s with storage := s.storage.erase id } "Deleted" item env, true)
  | none => (s, false)

/-- Applying a list of items merges it into the storage. -/
theorem storage_applyReplicatedItems (s : HandlerState T) (items : List T)
    (env : ℕ → Environment) :
    (applyReplicatedItems M sha256 s items env).storage =
      KeyedMap.insertAll M.actualKey items s.storage := by
  induction items generalizing s env with
  | nil => rfl
  | cons item rest ih => exact ih _ _

/-! ### Reading -/

/-- The items, in the order in which the map goes through its keys. -/
def getAllItems (s : HandlerState T) (order : List String) : List T :=
  order.filterMap s.storage.lookup

/-! ### Replay -/

/-- The effect of one event: the item in its payload goes under its primary key, whatever the event
is about; a payload that does not parse is skipped. -/
def replayEvent (storage : Storage T) (event : EventEnvelope) : Storage T :=
  match M.fromText event.payload with
  | some item => storage.insert (M.getPrimaryKey item) item
  | none => storage

def replayEvents (events : List EventEnvelope) (storage : Storage T) : Storage T :=
  events.foldl (replayEvent M) storage

end Declarative

/-! ### A model -/

/-- A model whose items have nothing but their id, one of two. -/
inductive Shelf
  | a
  | b
  deriving DecidableEq

namespace Shelf

def id : Shelf → String
  | a => "a"
  | b => "b"

def text : Shelf → String
  | a => "\x7b\"id\":\"a\"\x7d"
  | b => "\x7b\"id\":\"b\"\x7d"

def ofText (text : String) : Option Shelf :=
  if text = a.text then some a else if text = b.text then some b else none

theorem ofText_text (item : Shelf) : ofText item.text = some item := by
  cases item with
  | a => rfl
  | b => simp [ofText, text]

/-- The shelf as a model of the handler, without validation and permissions. -/
def exposed : HttpExposable Shelf where
  typeName := "shop::Shelf"
  getPrimaryKey := id
  validate := fun _ ↦ .ok ()
  canWrite := fun _ _ ↦ true
  applyLifecycle := .ok
  toValue := fun item ↦ some (.object [("id", .string item.id)])
  fromValue := fun value ↦
    match value.get "id" with
    | none => .error "missing field id"
    | some id =>
      match [a, b].find? fun item ↦ Json.string item.id = id with
      | none => .error "unknown variant"
      | some item => .ok item
  toText := fun item ↦ some item.text
  fromText := ofText
  fromSlice := fun bytes ↦ [a, b].find? fun item ↦ asBytes item.text = bytes
  fromText_toText := by
    intro item text h
    obtain rfl := Option.some.inj h
    exact ofText_text item

end Shelf

/-- An environment in which everything succeeds. -/
def quietEnvironment : Environment := ⟨.ok (), .written, 0⟩

end Lithair.Http
