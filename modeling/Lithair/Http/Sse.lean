import Mathlib.Data.Finset.Sort
import Lithair.Http.StorageKeys
import Lithair.Http.WriteAuthorisation
import Lithair.Lib.Broadcast

/-!
# Streams of changes

The broadcaster of `http/sse.rs` and the base paths that `#[derive(DeclarativeModel)]` writes
(`http_base_path` in `declarative_simple.rs`), which name its channels. A node serves several models
through one broadcaster, and its clients read streams of them.

`accounted_iff_isolated` says which runs keep every stream to the changes of its own model: those in
which no change of a model goes to the stream of another, under a base path that the two share, and
no change of the streamed model is made by other means than a create, an update or a delete of one
item, which are the only ones to be broadcast. `streamsExact_of_isolated` says that a stream then
holds every change, as long as its client does not fall a thousand of them behind.
-/

namespace Lithair.Http

open Lithair.Engine Lithair.Lib Lithair.Lib.Run

/-! ### The broadcaster -/

/-- The base path that the macro writes for a model, from the name of its struct. -/
def httpBasePath (name : String) : String :=
  match name with
  | "Product" => "products"
  | "User" => "users"
  | "Order" => "orders"
  | "Article" => "articles"
  | "StaticAsset" => "assets"
  | "Author" => "authors"
  | "Category" => "categories"
  | "Comment" => "comments"
  | "ConsensusProduct" => "consensus_products"
  | "VirtualHost" => "virtual_hosts"
  | _ => "items"

structure ModelChangeEvent where
  modelName : String
  operation : String
  data : Json
  deriving DecidableEq

/-- The frames of a stream. -/
inductive SseFrame
  | connected (channelName : String)
  | heartbeat
  | change (event : ModelChangeEvent)
  | warning (dropped : ℕ)
  deriving DecidableEq

/-- What the receiver of a stream was told, where a frame says so. -/
def SseFrame.received : SseFrame → Option (Broadcast.Received ModelChangeEvent)
  | .change event => some (.event event)
  | .warning dropped => some (.lagged dropped)
  | .connected _ | .heartbeat => none

def SseFrame.event : SseFrame → Option ModelChangeEvent
  | .change event => some event
  | .warning _ | .connected _ | .heartbeat => none

/-- What was sent on each channel, from when the channel is there. -/
abbrev SseEventBroadcaster := String → Option (List ModelChangeEvent)

namespace SseEventBroadcaster

variable (broadcaster : SseEventBroadcaster) (modelName : String)

/-- The channel is made on first access. -/
def getChannel : List ModelChangeEvent × SseEventBroadcaster :=
  match broadcaster modelName with
  | some sent => (sent, broadcaster)
  | none => ([], Function.update broadcaster modelName (some []))

def broadcast (operation : String) (data : Json) : SseEventBroadcaster :=
  let (sent, broadcaster) := broadcaster.getChannel modelName
  Function.update broadcaster modelName (some (sent ++ [⟨modelName, operation, data⟩]))

/-- What was sent on a channel. -/
def sent : List ModelChangeEvent := (broadcaster.getChannel modelName).1

/-- Broadcast changes one after the other. -/
def broadcastAll (changes : List (String × Json)) : SseEventBroadcaster :=
  changes.foldl (fun broadcaster change ↦ broadcaster.broadcast modelName change.1 change.2)
    broadcaster

variable {broadcaster modelName}

theorem sent_eq_getD : broadcaster.sent modelName = (broadcaster modelName).getD [] := by
  unfold sent getChannel
  cases broadcaster modelName with
  | none => rfl
  | some sent => rfl

/-- Making a channel sends nothing. -/
theorem sent_getChannel (broadcaster : SseEventBroadcaster) (modelName other : String) :
    SseEventBroadcaster.sent (broadcaster.getChannel modelName).2 other =
      broadcaster.sent other := by
  rw [sent_eq_getD, sent_eq_getD]
  unfold getChannel
  cases hchannel : broadcaster modelName with
  | some sent => rfl
  | none =>
    dsimp only
    by_cases h : other = modelName
    · rw [h, Function.update_self, hchannel]
      rfl
    · rw [Function.update_of_ne h]

theorem sent_broadcast (operation : String) (data : Json) (other : String) :
    SseEventBroadcaster.sent (broadcaster.broadcast modelName operation data) other =
      broadcaster.sent other ++
        if other = modelName then [⟨modelName, operation, data⟩] else [] := by
  have hother := broadcaster.sent_getChannel modelName other
  rw [← hother, sent_eq_getD]
  unfold broadcast
  dsimp only
  by_cases h : other = modelName
  · subst h
    rw [Function.update_self, if_pos rfl, hother]
    rfl
  · rw [Function.update_of_ne h, if_neg h, List.append_nil, sent_eq_getD]

theorem sent_broadcastAll (changes : List (String × Json)) (other : String) :
    SseEventBroadcaster.sent (broadcaster.broadcastAll modelName changes) other =
      broadcaster.sent other ++
        if other = modelName then changes.map fun change ↦ ⟨modelName, change.1, change.2⟩
        else [] := by
  induction changes generalizing broadcaster with
  | nil => simp [broadcastAll]
  | cons change rest ih =>
    have hstep := @ih (broadcaster.broadcast modelName change.1 change.2)
    rw [sent_broadcast, List.append_assoc] at hstep
    refine hstep.trans ?_
    split_ifs with h
    · rfl
    · rfl

end SseEventBroadcaster

/-- A streaming response: its channel, the position of its receiver and the frames so far. -/
structure SseStream where
  channelName : String
  next : ℕ
  frames : List SseFrame

/-- The response starts with a frame, and its receiver with what comes next. -/
def createSseResponse (broadcaster : SseEventBroadcaster) (modelName : String) :
    SseStream × SseEventBroadcaster :=
  let (sent, broadcaster) := broadcaster.getChannel modelName
  (⟨modelName, sent.length, [.connected modelName]⟩, broadcaster)

namespace SseStream

def push (stream : SseStream) (frame : SseFrame) : SseStream :=
  { stream with frames := stream.frames ++ [frame] }

/-- The next turn of the loop for what the receiver is told. The stream waits when there is
nothing. -/
def recv (capacity : ℕ) (broadcaster : SseEventBroadcaster) (stream : SseStream) :
    Option SseStream :=
  match Broadcast.recv capacity (broadcaster.sent stream.channelName) stream.next with
  | some (.event event, next) => some ({ stream with next }.push (.change event))
  | some (.lagged missed, next) => some ({ stream with next }.push (.warning missed))
  | none => none

end SseStream

namespace Declarative

variable {T : Type*} (M : HttpExposable T) (sha256 : List UInt8 → String) (config : BulkConfig T)
  (s : HandlerState T)

/-- What an operation sends to the broadcaster. -/
def published : StorageOperation T → List (String × Json)
  | .create req env => broadcasts M sha256 config true s (.create req) fun _ ↦ env
  | .update id req env => broadcasts M sha256 config true s (.update id req) fun _ ↦ env
  | .delete id req env => broadcasts M sha256 config true s (.delete id req) fun _ ↦ env
  | .createItem _ _ | .adminEdit _ _ _ _ | .replicatedItem _ _ | .replicatedUpdate _ _ _
  | .replicatedDelete _ _ | .reconcile _ => []

/-- The create, update and delete of one item by a client. -/
def IsSingleWrite : StorageOperation T → Prop
  | .create _ _ | .update _ _ _ | .delete _ _ _ => True
  | .createItem _ _ | .adminEdit _ _ _ _ | .replicatedItem _ _ | .replicatedUpdate _ _ _
  | .replicatedDelete _ _ | .reconcile _ => False

/-- A change of an item, when the item can be written down. -/
def changeOf (operation : String) (item : T) : List (String × Json) :=
  ((M.toValue item).map (Prod.mk operation)).toList

/-- The changes that an operation makes to the model, whether they are broadcast or not. -/
def changes : StorageOperation T → List (String × Json)
  | .create req env =>
    match (handleCreate M sha256 config.toHandlerConfig s req env).2 with
    | .created item => changeOf M "create" item
    | _ => []
  | .createItem item env =>
    match (createItem M sha256 config s item env).2 with
    | .ok stored => changeOf M "create" stored
    | .error _ => []
  | .update id req env =>
    match (handleUpdate M sha256 config.toHandlerConfig s id req env).2 with
    | .updated item => changeOf M "update" item
    | _ => []
  | .delete id req env =>
    match (handleDelete M sha256 config.toHandlerConfig s id req env).2, s.storage.lookup id with
    | .noContent, some item => changeOf M "delete" item
    | _, _ => []
  | .adminEdit id edit env nowMillis =>
    match (submitAdminEdit M sha256 s id edit env nowMillis).2 with
    | .ok item => changeOf M "update" item
    | .error _ => []
  | .replicatedItem item _ => changeOf M "create" item
  | .replicatedUpdate id item _ => changeOf M (if id ∈ s.storage then "update" else "create") item
  | .replicatedDelete id _ => (s.storage.lookup id).toList.flatMap (changeOf M "delete")
  | .reconcile items =>
    -- what goes, in the order of the keys, and then what comes
    (((s.storage.keys.sort (· ≤ ·)).filter (· ∉ items.map M.actualKey)).filterMap
      s.storage.lookup).flatMap (changeOf M "delete") ++ items.flatMap (changeOf M "create")

variable {M sha256 config s} {op : StorageOperation T}

theorem broadcastSse_true {operation : String} {item : T} :
    broadcastSse M true operation item = changeOf M operation item := by
  unfold broadcastSse changeOf
  rw [if_pos rfl]
  cases M.toValue item with
  | none => rfl
  | some data => rfl

/-- The changes of a single write are broadcast. -/
theorem published_of_isSingleWrite (h : IsSingleWrite op) :
    published M sha256 config s op = changes M sha256 config s op := by
  cases op with
  | create req env | update id req env | delete id req env =>
    simp only [published, broadcasts, broadcastSse_true]
    rfl
  | _ => exact absurd h id

/-- Those of another operation are not. -/
theorem published_of_not_isSingleWrite (h : ¬ IsSingleWrite op) :
    published M sha256 config s op = [] := by
  cases op with
  | create req env | update id req env | delete id req env => exact absurd trivial h
  | _ => rfl

theorem length_changes_le (h : IsSingleWrite op) :
    (changes M sha256 config s op).length ≤ 1 := by
  have hchange (operation : String) (item : T) : (changeOf M operation item).length ≤ 1 := by
    unfold changeOf
    cases M.toValue item with
    | none => exact Nat.zero_le 1
    | some data => exact le_rfl
  cases op with
  | create req env | update id req env | delete id req env =>
    unfold changes
    dsimp only
    split
    · exact hchange _ _
    · exact Nat.zero_le 1
  | _ => exact absurd h id

theorem length_published_le : (published M sha256 config s op).length ≤ 1 := by
  by_cases h : IsSingleWrite op
  · rw [published_of_isSingleWrite h]
    exact length_changes_le h
  · rw [published_of_not_isSingleWrite h]
    exact Nat.zero_le 1

end Declarative

/-! ### A node with its models -/

/-- The models that a node serves, each with the name of its struct. -/
structure ServedModels {ι : Type*} (T : ι → Type*) where
  structName : ι → String
  exposed : ∀ i, HttpExposable (T i)
  config : ∀ i, BulkConfig (T i)

def ServedModels.basePath {ι : Type*} {T : ι → Type*} (models : ServedModels T) (i : ι) : String :=
  httpBasePath (models.structName i)

/-- The handlers of the models, their one broadcaster, and the stream of each client that has
one. -/
structure Node {ι : Type*} (T : ι → Type*) where
  handlers : ∀ i, HandlerState (T i)
  broadcaster : SseEventBroadcaster
  streams : ℕ → Option SseStream

inductive StreamAction {ι : Type*} (T : ι → Type*)
  | operation (i : ι) (op : StorageOperation (T i))
  | subscribe (client : ℕ) (i : ι)
  | recv (client : ℕ)
  | heartbeat (client : ℕ)
  | disconnect (client : ℕ)

section Node

variable {ι : Type*} [DecidableEq ι] {T : ι → Type*} (models : ServedModels T)
  (sha256 : List UInt8 → String) (capacity : ℕ)

open Declarative

def Node.step (node : Node T) : StreamAction T → Option (Node T)
  | .operation i op =>
    let handler := node.handlers i
    some
      { node with
        handlers := Function.update node.handlers i
          (applyOperation (models.exposed i) sha256 (models.config i) handler op)
        broadcaster := node.broadcaster.broadcastAll (models.basePath i)
          (published (models.exposed i) sha256 (models.config i) handler op) }
  | .subscribe client i =>
    match node.streams client with
    | some _ => none
    | none =>
      let (stream, broadcaster) := createSseResponse node.broadcaster (models.basePath i)
      some { node with broadcaster, streams := Function.update node.streams client (some stream) }
  | .recv client =>
    (node.streams client).bind fun stream ↦
      (stream.recv capacity node.broadcaster).map fun stream ↦
        { node with streams := Function.update node.streams client (some stream) }
  | .heartbeat client =>
    (node.streams client).map fun stream ↦
      { node with
        streams := Function.update node.streams client (some (stream.push .heartbeat)) }
  | .disconnect client =>
    (node.streams client).map fun _ ↦
      { node with streams := Function.update node.streams client none }

/-! ### What the streams are for -/

/-- The model that a client listens to, and the changes of it since. -/
abbrev Feed (ι : Type*) := ℕ → Option (ι × List (String × Json))

/-- The changes that an action makes to the model `j`. -/
def changesOf (node : Node T) (j : ι) : StreamAction T → List (String × Json)
  | .operation i op =>
    if j = i then changes (models.exposed i) sha256 (models.config i) (node.handlers i) op else []
  | .subscribe _ _ | .recv _ | .heartbeat _ | .disconnect _ => []

def Feed.next (node : Node T) (feed : Feed ι) : StreamAction T → Feed ι
  | .operation i op => fun client ↦
    (feed client).map fun (j, since) ↦
      (j, since ++ changesOf models sha256 node j (.operation i op))
  | .subscribe client i => Function.update feed client (some (i, []))
  | .disconnect client => Function.update feed client none
  | .recv _ | .heartbeat _ => feed

/-- A node beside what its streams are for. -/
structure ObservedNode (T : ι → Type*) extends Node T where
  feed : Feed ι

def ObservedNode.step (s : ObservedNode T) (action : StreamAction T) : Option (ObservedNode T) :=
  (s.toNode.step models sha256 capacity action).map fun node ↦
    ⟨node, Feed.next models sha256 s.toNode s.feed action⟩

/-- The changes of the model `i` as the events of its channel. -/
def eventsOf (i : ι) (since : List (String × Json)) : List ModelChangeEvent :=
  since.map fun change ↦ ⟨models.basePath i, change.1, change.2⟩

/-- The stream has told its client of all changes, as an event or as one among those dropped, but
for the ones that are waiting for it. -/
def SseStream.Accounts (broadcaster : SseEventBroadcaster) (stream : SseStream)
    (events : List ModelChangeEvent) : Prop :=
  ∃ explained, Broadcast.Explains (stream.frames.filterMap SseFrame.received) explained ∧
    events = explained ++ (broadcaster.sent stream.channelName).drop stream.next

/-- Every stream accounts for the changes of its own model since the client came, and for nothing
else. -/
def Accounted (s : ObservedNode T) : Prop :=
  ∀ client stream i since, s.streams client = some stream → s.feed client = some (i, since) →
    stream.Accounts s.broadcaster (eventsOf models i since)

/-- Every stream holds the changes of its own model since the client came, in order, without a
warning, and but for the ones that are waiting for it. -/
def StreamsExact (s : ObservedNode T) : Prop :=
  ∀ client stream i since, s.streams client = some stream → s.feed client = some (i, since) →
    (∀ dropped, .warning dropped ∉ stream.frames) ∧
      eventsOf models i since = stream.frames.filterMap SseFrame.event ++
        (s.broadcaster.sent stream.channelName).drop stream.next

/-- No client listens to another model under the same base path when the operation broadcasts a
change, and none to this one when the operation makes a change without broadcasting it. -/
def Isolated (s : ObservedNode T) : StreamAction T → Prop
  | .operation i op => ∀ client j since, s.feed client = some (j, since) →
      models.basePath j = models.basePath i →
        changes (models.exposed i) sha256 (models.config i) (s.handlers i) op = [] ∨
          (j = i ↔ IsSingleWrite op)
  | .subscribe _ _ | .recv _ | .heartbeat _ | .disconnect _ => True

/-- Fewer than a thousand events are waiting for each client of the model that changes. -/
def Timely (s : ObservedNode T) : StreamAction T → Prop
  | .operation i _ => ∀ client stream, s.streams client = some stream →
      stream.channelName = models.basePath i →
        (s.broadcaster.sent stream.channelName).length < stream.next + 1000
  | .subscribe _ _ | .recv _ | .heartbeat _ | .disconnect _ => True

/-! ### One step -/

/-- A turn of the loop of a stream. -/
def SseStream.Turn (broadcaster : SseEventBroadcaster) (stream after : SseStream) : Prop :=
  after = stream.push .heartbeat ∨ stream.recv capacity broadcaster = some after

/-- What an action does that is not an operation on a model: it starts a stream, or ends it, or is a
turn of its loop, and does nothing to the other streams and to what was sent. -/
structure Moves (s t : ObservedNode T) (client : ℕ) : Prop where
  sent : ∀ modelName, t.broadcaster.sent modelName = s.broadcaster.sent modelName
  others : ∀ other, other ≠ client → t.streams other = s.streams other ∧ t.feed other = s.feed other
  own : (∃ i, t.streams client = some ⟨models.basePath i,
          (s.broadcaster.sent (models.basePath i)).length, [.connected (models.basePath i)]⟩ ∧
        t.feed client = some (i, [])) ∨
    (t.streams client = none ∧ t.feed client = none) ∨
    ∃ stream after, s.streams client = some stream ∧ t.streams client = some after ∧
      t.feed client = s.feed client ∧ stream.Turn capacity s.broadcaster after

/-- Streams and what they are for go together. -/
def Served (s : ObservedNode T) : Prop :=
  ∀ client, (s.streams client = none ∧ s.feed client = none) ∨
    ∃ stream i since, s.streams client = some stream ∧ s.feed client = some (i, since) ∧
      stream.channelName = models.basePath i ∧
      stream.next ≤ (s.broadcaster.sent stream.channelName).length

variable {models sha256 capacity} {broadcaster : SseEventBroadcaster} {stream : SseStream}
  {events : List ModelChangeEvent} {i j : ι}

omit [DecidableEq ι] in
theorem eventsOf_append (since more : List (String × Json)) :
    eventsOf models i (since ++ more) = eventsOf models i since ++ eventsOf models i more :=
  List.map_append

omit [DecidableEq ι] in
theorem eventsOf_eq_nil_iff {since : List (String × Json)} :
    eventsOf models i since = [] ↔ since = [] := List.map_eq_nil_iff

/-- A stream goes on accounting when it is sent what is added. -/
theorem accounts_broadcastAll_iff {modelName : String} {sent : List (String × Json)}
    {more : List ModelChangeEvent} (h : stream.Accounts broadcaster events)
    (hnext : stream.next ≤ (broadcaster.sent stream.channelName).length) :
    stream.Accounts (broadcaster.broadcastAll modelName sent) (events ++ more) ↔
      more = if stream.channelName = modelName then
        sent.map fun change ↦ ⟨modelName, change.1, change.2⟩ else [] := by
  obtain ⟨explained, hexplained, hevents⟩ := h
  unfold SseStream.Accounts
  rw [SseEventBroadcaster.sent_broadcastAll, List.drop_append_of_le_length hnext]
  constructor
  · rintro ⟨other, hother, heq⟩
    rw [hevents, List.append_assoc] at heq
    exact List.append_cancel_left (hexplained.append_left_inj hother heq)
  · intro hmore
    refine ⟨explained, hexplained, ?_⟩
    rw [hevents, hmore, List.append_assoc]

omit [DecidableEq ι] in
theorem SseStream.recv_eq_some {after : SseStream}
    (h : stream.recv capacity broadcaster = some after) :
    ∃ item, Broadcast.recv capacity (broadcaster.sent stream.channelName) stream.next =
        some (item, after.next) ∧ after.channelName = stream.channelName ∧
      ∃ frame, frame.received = some item ∧ after.frames = stream.frames ++ [frame] := by
  unfold SseStream.recv at h
  split at h
  · next event next hrecv =>
    obtain rfl := Option.some.inj h
    exact ⟨.event event, hrecv, rfl, .change event, rfl, rfl⟩
  · next missed next hrecv =>
    obtain rfl := Option.some.inj h
    exact ⟨.lagged missed, hrecv, rfl, .warning missed, rfl, rfl⟩
  · exact absurd h (Option.some_ne_none _).symm

namespace SseStream.Turn

variable {after : SseStream}

theorem channelName_eq (h : stream.Turn capacity broadcaster after) :
    after.channelName = stream.channelName := by
  rcases h with rfl | hrecv
  · rfl
  · obtain ⟨-, -, hchannel, -⟩ := recv_eq_some hrecv
    exact hchannel

theorem next_le (h : stream.Turn capacity broadcaster after)
    (hnext : stream.next ≤ (broadcaster.sent stream.channelName).length) :
    stream.next ≤ after.next ∧ after.next ≤ (broadcaster.sent stream.channelName).length := by
  rcases h with rfl | hrecv
  · exact ⟨le_rfl, hnext⟩
  · obtain ⟨item, hitem, -, -⟩ := recv_eq_some hrecv
    exact Broadcast.le_of_recv hitem

theorem accounts (h : stream.Turn capacity broadcaster after)
    (hstream : stream.Accounts broadcaster events) : after.Accounts broadcaster events := by
  obtain ⟨explained, hexplained, hevents⟩ := hstream
  rcases h with rfl | hrecv
  · refine ⟨explained, ?_, hevents⟩
    have hframes : (stream.push .heartbeat).frames.filterMap SseFrame.received =
        stream.frames.filterMap SseFrame.received := by
      unfold push
      rw [List.filterMap_append]
      exact List.append_nil _
    rwa [hframes]
  · obtain ⟨item, hitem, hchannel, frame, hframe, hframes⟩ := recv_eq_some hrecv
    obtain ⟨more, hmore, hall⟩ := hexplained.recv hevents hitem
    refine ⟨more, ?_, ?_⟩
    · rw [hframes, List.filterMap_append, List.filterMap_cons_some hframe]
      exact hmore
    · rw [hchannel, hall]

/-- A stream that is not too far behind gets no warning. -/
theorem warning_notMem (h : stream.Turn capacity broadcaster after)
    (htimely : (broadcaster.sent stream.channelName).length ≤ stream.next + capacity)
    (hwarning : ∀ dropped, .warning dropped ∉ stream.frames) (dropped : ℕ) :
    .warning dropped ∉ after.frames := by
  rcases h with rfl | hrecv
  · unfold push
    simp [hwarning]
  · obtain ⟨item, hitem, -, frame, hframe, hframes⟩ := recv_eq_some hrecv
    rw [Broadcast.recv_of_le htimely] at hitem
    obtain ⟨value, -, hpair⟩ := Option.map_eq_some_iff.mp hitem
    obtain ⟨rfl, -⟩ := Prod.mk.inj hpair
    rw [hframes, List.mem_append, List.mem_singleton]
    rintro (hmem | rfl)
    · exact hwarning dropped hmem
    · exact absurd hframe (by simp [SseFrame.received])

end SseStream.Turn

/-- What an operation on one model sends to the listeners of another, or of the same, is what it
changes of theirs. -/
theorem eventsOf_changes_iff {handler : HandlerState (T i)} {op : StorageOperation (T i)} :
    eventsOf models j (if j = i then
        changes (models.exposed i) sha256 (models.config i) handler op else []) =
      (if models.basePath j = models.basePath i then
        (published (models.exposed i) sha256 (models.config i) handler op).map
          fun change ↦ ⟨models.basePath i, change.1, change.2⟩ else []) ↔
      (models.basePath j = models.basePath i →
        changes (models.exposed i) sha256 (models.config i) handler op = [] ∨
          (j = i ↔ IsSingleWrite op)) := by
  by_cases hpath : models.basePath j = models.basePath i
  · rw [if_pos hpath, forall_prop_of_true hpath]
    by_cases hwrite : IsSingleWrite op
    · rw [published_of_isSingleWrite hwrite, iff_true_right hwrite]
      split_ifs with hji
      · subst hji
        exact iff_of_true rfl (Or.inr rfl)
      · rw [or_iff_left hji]
        exact eq_comm.trans List.map_eq_nil_iff
    · rw [published_of_not_isSingleWrite hwrite, iff_false_right hwrite, List.map_nil]
      split_ifs with hji
      · rw [eventsOf_eq_nil_iff, or_iff_left (not_not_intro hji)]
      · exact iff_of_true rfl (Or.inr hji)
  · have hji : j ≠ i := fun h ↦ hpath (congrArg models.basePath h)
    rw [if_neg hpath, if_neg hji]
    exact iff_of_true rfl fun h ↦ absurd h hpath

variable {s t : ObservedNode T} {action : StreamAction T}

theorem step_operation {op : StorageOperation (T i)}
    (h : s.step models sha256 capacity (.operation i op) = some t) :
    t.streams = s.streams ∧
      t.feed = Feed.next models sha256 s.toNode s.feed (.operation i op) ∧
      t.broadcaster = s.broadcaster.broadcastAll (models.basePath i)
        (published (models.exposed i) sha256 (models.config i) (s.handlers i) op) := by
  obtain rfl := Option.some.inj h
  exact ⟨rfl, rfl, rfl⟩

/-- The other actions. -/
theorem moves_of_step (haction : ∀ i op, action ≠ .operation i op)
    (h : s.step models sha256 capacity action = some t) :
    ∃ client, Moves models capacity s t client := by
  obtain ⟨node, hnode, rfl⟩ := Option.map_eq_some_iff.mp h
  cases action with
  | operation i op => exact absurd rfl (haction i op)
  | subscribe client i =>
    cases hclient : s.streams client with
    | some stream =>
      simp only [Node.step, hclient] at hnode
      exact absurd hnode (Option.some_ne_none _).symm
    | none =>
      simp only [Node.step, hclient] at hnode
      obtain rfl := Option.some.inj hnode
      refine ⟨client, SseEventBroadcaster.sent_getChannel _ _, fun other hother ↦ ?_, ?_⟩
      · exact ⟨Function.update_of_ne hother _ _, Function.update_of_ne hother _ _⟩
      · exact Or.inl ⟨i, Function.update_self .., Function.update_self ..⟩
  | recv client =>
    obtain ⟨stream, hstream, hmap⟩ := Option.bind_eq_some_iff.mp hnode
    obtain ⟨after, hrecv, rfl⟩ := Option.map_eq_some_iff.mp hmap
    refine ⟨client, fun _ ↦ rfl, fun other hother ↦ ⟨Function.update_of_ne hother _ _, rfl⟩, ?_⟩
    exact Or.inr (Or.inr ⟨stream, after, hstream, Function.update_self .., rfl, Or.inr hrecv⟩)
  | heartbeat client =>
    obtain ⟨stream, hstream, rfl⟩ := Option.map_eq_some_iff.mp hnode
    refine ⟨client, fun _ ↦ rfl, fun other hother ↦ ⟨Function.update_of_ne hother _ _, rfl⟩, ?_⟩
    exact Or.inr (Or.inr ⟨stream, _, hstream, Function.update_self .., rfl, Or.inl rfl⟩)
  | disconnect client =>
    obtain ⟨stream, hstream, rfl⟩ := Option.map_eq_some_iff.mp hnode
    refine ⟨client, fun _ ↦ rfl, fun other hother ↦ ?_, ?_⟩
    · exact ⟨Function.update_of_ne hother _ _, Function.update_of_ne hother _ _⟩
    · exact Or.inr (Or.inl ⟨Function.update_self .., Function.update_self ..⟩)

omit [DecidableEq ι] in
theorem Served.of_feed {client : ℕ} {since : List (String × Json)} (hs : Served models s)
    (hfeed : s.feed client = some (i, since)) :
    ∃ stream, s.streams client = some stream ∧ stream.channelName = models.basePath i ∧
      stream.next ≤ (s.broadcaster.sent stream.channelName).length := by
  rcases hs client with ⟨-, hnone⟩ | ⟨stream, j, other, hstream, hlistened, hchannel, hnext⟩
  · exact absurd (hfeed.symm.trans hnone) (Option.some_ne_none _)
  · obtain ⟨rfl, -⟩ := Prod.mk.inj (Option.some.inj (hfeed.symm.trans hlistened))
    exact ⟨stream, hstream, hchannel, hnext⟩

omit [DecidableEq ι] in
theorem Served.next_le {client : ℕ} (hs : Served models s)
    (hstream : s.streams client = some stream) :
    stream.next ≤ (s.broadcaster.sent stream.channelName).length := by
  rcases hs client with ⟨hnone, -⟩ | ⟨other, i, since, hother, -, -, hnext⟩
  · exact absurd (hstream.symm.trans hnone) (Option.some_ne_none _)
  · obtain rfl := Option.some.inj (hstream.symm.trans hother)
    exact hnext

/-- What a client listens to after an operation. -/
theorem Feed.next_operation {op : StorageOperation (T i)} {client : ℕ} :
    Feed.next models sha256 s.toNode s.feed (.operation i op) client =
      (s.feed client).map fun listened ↦ (listened.1, listened.2 ++ if listened.1 = i then
        changes (models.exposed i) sha256 (models.config i) (s.handlers i) op else []) := rfl

theorem served_step : Kept (ObservedNode.step models sha256 capacity) (Served models) := by
  intro s action t hs hstep client
  by_cases haction : ∀ i op, action ≠ .operation i op
  · obtain ⟨mover, hsent, hothers, hown⟩ := moves_of_step haction hstep
    simp only [hsent]
    by_cases hclient : client = mover
    · subst hclient
      rcases hown with ⟨i, hstream, hfeed⟩ | hgone |
        ⟨stream, after, hstream, hafter, hfeed, hturn⟩
      · exact Or.inr ⟨_, i, [], hstream, hfeed, rfl, le_rfl⟩
      · exact Or.inl hgone
      · rcases hs client with ⟨hnone, -⟩ | ⟨other, i, since, hother, hlistened, hchannel, hnext⟩
        · exact absurd (hstream.symm.trans hnone) (Option.some_ne_none _)
        · obtain rfl := Option.some.inj (hstream.symm.trans hother)
          refine Or.inr ⟨after, i, since, hafter, hfeed.trans hlistened, ?_⟩
          rw [hturn.channelName_eq]
          exact ⟨hchannel, (hturn.next_le hnext).2⟩
    · rw [(hothers client hclient).1, (hothers client hclient).2]
      exact hs client
  · push Not at haction
    obtain ⟨i, op, rfl⟩ := haction
    obtain ⟨hstreams, hfeed, hbroadcaster⟩ := step_operation hstep
    rw [hstreams, hfeed, hbroadcaster, Feed.next_operation]
    rcases hs client with ⟨hnone, hlistened⟩ |
      ⟨stream, j, since, hstream, hlistened, hchannel, hnext⟩
    · exact Or.inl ⟨hnone, by rw [hlistened, Option.map_none]⟩
    · rw [hlistened, Option.map_some]
      refine Or.inr ⟨stream, j, _, hstream, rfl, hchannel, ?_⟩
      rw [SseEventBroadcaster.sent_broadcastAll, List.length_append]
      exact Nat.le_add_right_of_le hnext

/-- An operation keeps the streams to their models exactly when it is isolated from the clients of
others. -/
theorem accounted_operation_iff {op : StorageOperation (T i)} (hserved : Served models s)
    (haccounted : Accounted models s)
    (hstep : s.step models sha256 capacity (.operation i op) = some t) :
    Accounted models t ↔ Isolated models sha256 s (.operation i op) := by
  obtain ⟨hstreams, hfeed, hbroadcaster⟩ := step_operation hstep
  have hone : ∀ client j since, s.feed client = some (j, since) →
      ∀ stream, s.streams client = some stream →
        (stream.Accounts t.broadcaster (eventsOf models j (since ++ if j = i then
          changes (models.exposed i) sha256 (models.config i) (s.handlers i) op else [])) ↔
        (models.basePath j = models.basePath i →
          changes (models.exposed i) sha256 (models.config i) (s.handlers i) op = [] ∨
            (j = i ↔ IsSingleWrite op))) := by
    intro client j since hlistened stream hstream
    obtain ⟨other, hother, hchannel, hnext⟩ := hserved.of_feed hlistened
    rw [hstream, Option.some.injEq] at hother
    subst hother
    rw [hbroadcaster, eventsOf_append, ← eventsOf_changes_iff, ← hchannel,
      accounts_broadcastAll_iff (haccounted client stream j since hstream hlistened) hnext]
  constructor
  · intro h client j since hlistened
    obtain ⟨stream, hstream, -, -⟩ := hserved.of_feed hlistened
    refine (hone client j since hlistened stream hstream).mp (h client stream j _ ?_ ?_)
    · rw [hstreams, hstream]
    · rw [hfeed, Feed.next_operation, hlistened, Option.map_some]
  · intro h client stream j after hstream hafter
    rw [hstreams] at hstream
    rw [hfeed, Feed.next_operation] at hafter
    obtain ⟨⟨other, since⟩, hlistened, hpair⟩ := Option.map_eq_some_iff.mp hafter
    obtain ⟨rfl, rfl⟩ := Prod.mk.inj hpair
    exact (hone client other since hlistened stream hstream).mpr (h client other since hlistened)

omit [DecidableEq ι] in
/-- The other actions keep them. -/
theorem Accounted.moves {client : ℕ} (h : Accounted models s)
    (hmoves : Moves models capacity s t client) : Accounted models t := by
  obtain ⟨hsent, hothers, hown⟩ := hmoves
  have hcongr (stream : SseStream) (events : List ModelChangeEvent) :
      stream.Accounts t.broadcaster events ↔ stream.Accounts s.broadcaster events := by
    unfold SseStream.Accounts
    rw [hsent]
  intro other stream i since hstream hfeed
  rw [hcongr]
  by_cases hother : other = client
  · subst hother
    rcases hown with ⟨j, hnew, hlistened⟩ | ⟨hgone, -⟩ |
      ⟨before, after, hbefore, hafter, hsame, hturn⟩
    · obtain rfl := Option.some.inj (hstream.symm.trans hnew)
      obtain ⟨rfl, rfl⟩ := Prod.mk.inj (Option.some.inj (hfeed.symm.trans hlistened))
      exact ⟨[], Broadcast.Explains.nil, List.drop_length.symm⟩
    · exact absurd (hstream.symm.trans hgone) (Option.some_ne_none stream)
    · obtain rfl := Option.some.inj (hstream.symm.trans hafter)
      exact hturn.accounts (h other before i since hbefore (hsame ▸ hfeed))
  · obtain ⟨hstreams, hfeeds⟩ := hothers other hother
    exact h other stream i since (hstreams ▸ hstream) (hfeeds ▸ hfeed)

theorem accounted_step_iff (hserved : Served models s) (haccounted : Accounted models s)
    (hstep : s.step models sha256 capacity action = some t) :
    Accounted models t ↔ Isolated models sha256 s action := by
  cases action with
  | operation i op => exact accounted_operation_iff hserved haccounted hstep
  | subscribe client i | recv client | heartbeat client | disconnect client =>
    obtain ⟨mover, hmoves⟩ := moves_of_step (fun _ _ ↦ by simp) hstep
    exact iff_of_true (haccounted.moves hmoves) trivial

/-- No stream has a warning, or is so far behind that it would get one. -/
def Unmissed (s : ObservedNode T) : Prop :=
  ∀ client stream, s.streams client = some stream →
    (∀ dropped, .warning dropped ∉ stream.frames) ∧
      (s.broadcaster.sent stream.channelName).length ≤ stream.next + 1000

theorem unmissed_step (hcapacity : 1000 ≤ capacity) (hserved : Served models s)
    (hunmissed : Unmissed s) (htimely : Timely models s action)
    (hstep : s.step models sha256 capacity action = some t) : Unmissed t := by
  by_cases haction : ∀ i op, action ≠ .operation i op
  · obtain ⟨mover, hsent, hothers, hown⟩ := moves_of_step haction hstep
    intro client stream hstream
    rw [hsent]
    by_cases hclient : client = mover
    · subst hclient
      rcases hown with ⟨i, hnew, -⟩ | ⟨hgone, -⟩ | ⟨before, after, hbefore, hafter, -, hturn⟩
      · obtain rfl := Option.some.inj (hstream.symm.trans hnew)
        exact ⟨fun dropped ↦ by simp, Nat.le_add_right _ _⟩
      · exact absurd (hstream.symm.trans hgone) (Option.some_ne_none stream)
      · obtain rfl := Option.some.inj (hstream.symm.trans hafter)
        obtain ⟨hwarning, hlength⟩ := hunmissed client before hbefore
        refine ⟨hturn.warning_notMem (by omega) hwarning, ?_⟩
        rw [hturn.channelName_eq]
        have hnext : before.next ≤ stream.next := (hturn.next_le (hserved.next_le hbefore)).1
        omega
    · rw [(hothers client hclient).1] at hstream
      exact hunmissed client stream hstream
  · push Not at haction
    obtain ⟨i, op, rfl⟩ := haction
    obtain ⟨hstreams, -, hbroadcaster⟩ := step_operation hstep
    intro client stream hstream
    rw [hstreams] at hstream
    obtain ⟨hwarning, hlength⟩ := hunmissed client stream hstream
    refine ⟨hwarning, ?_⟩
    rw [hbroadcaster, SseEventBroadcaster.sent_broadcastAll, List.length_append]
    split_ifs with hchannel
    · have hbefore := htimely client stream hstream hchannel
      have hmore : (published (models.exposed i) sha256 (models.config i) (s.handlers i)
          op).length ≤ 1 := length_published_le
      rw [List.length_map]
      omega
    · exact hlength

/-! ### Runs -/

/-- Before any client has come. -/
def unobserved (handlers : ∀ i, HandlerState (T i)) (broadcaster : SseEventBroadcaster) :
    ObservedNode T where
  handlers := handlers
  broadcaster := broadcaster
  streams := fun _ ↦ none
  feed := fun _ ↦ none

/-- Without a warning a stream holds all that it accounts for. -/
theorem SseStream.Accounts.eq_events (h : stream.Accounts broadcaster events)
    (hwarning : ∀ dropped, .warning dropped ∉ stream.frames) :
    events = stream.frames.filterMap SseFrame.event ++
      (broadcaster.sent stream.channelName).drop stream.next := by
  obtain ⟨explained, hexplained, hevents⟩ := h
  have hall : explained = (stream.frames.filterMap SseFrame.received).filterMap
      Broadcast.Received.value := by
    refine hexplained.eq_events fun item hitem missed heq ↦ ?_
    obtain ⟨frame, hframe, hreceived⟩ := List.mem_filterMap.mp hitem
    cases frame with
    | warning dropped => exact hwarning dropped hframe
    | connected channelName | heartbeat => exact absurd hreceived (Option.some_ne_none _).symm
    | change event =>
      obtain rfl := Option.some.inj hreceived
      exact absurd heq (by simp)
  rw [hevents, hall, List.filterMap_filterMap]
  congr 2
  funext frame
  cases frame with
  | _ => rfl

omit [DecidableEq ι] in
/-- The single writes of models that share no base path are isolated. -/
theorem isolated_of_injective (hinjective : Function.Injective models.basePath)
    (haction : ∀ i op, action = .operation i op → IsSingleWrite op) (s : ObservedNode T) :
    Isolated models sha256 s action := by
  cases action with
  | operation i op =>
    intro client j since hfeed hpath
    exact Or.inr (iff_of_true (hinjective hpath) (haction i op rfl))
  | subscribe client i | recv client | heartbeat client | disconnect client => trivial

variable (models sha256 capacity)

/-- Which runs keep the streams to their models. -/
theorem accounted_iff_isolated (handlers : ∀ i, HandlerState (T i))
    (broadcaster : SseEventBroadcaster) (actions : List (StreamAction T)) :
    Always (ObservedNode.step models sha256 capacity) (Accounted models)
      (unobserved handlers broadcaster) actions ↔
    EachStep (ObservedNode.step models sha256 capacity) (Isolated models sha256)
      (unobserved handlers broadcaster) actions := by
  refine always_iff_eachStep served_step (fun s action t ↦ accounted_step_iff) ?_ ?_ actions
  · exact fun _ ↦ Or.inl ⟨rfl, rfl⟩
  · intro client stream i since hstream
    exact absurd hstream (Option.some_ne_none _).symm

variable {capacity}

/-- In which runs the streams hold every change. -/
theorem streamsExact_of_isolated (hcapacity : 1000 ≤ capacity)
    (handlers : ∀ i, HandlerState (T i)) (broadcaster : SseEventBroadcaster)
    {actions : List (StreamAction T)}
    (hisolated : EachStep (ObservedNode.step models sha256 capacity) (Isolated models sha256)
      (unobserved handlers broadcaster) actions)
    (htimely : EachStep (ObservedNode.step models sha256 capacity) (Timely models)
      (unobserved handlers broadcaster) actions) :
    Always (ObservedNode.step models sha256 capacity) (StreamsExact models)
      (unobserved handlers broadcaster) actions := by
  have hkept : ∀ s action t, (Served models s ∧ Accounted models s ∧ Unmissed s) →
      (Isolated models sha256 s action ∧ Timely models s action) →
        s.step models sha256 capacity action = some t →
          Served models t ∧ Accounted models t ∧ Unmissed t := by
    rintro s action t ⟨hserved, haccounted, hunmissed⟩ ⟨hisolated, htimely⟩ hstep
    exact ⟨served_step s action t hserved hstep,
      (accounted_step_iff hserved haccounted hstep).mpr hisolated,
      unmissed_step hcapacity hserved hunmissed htimely hstep⟩
  refine Always.mono ?_ (EachStep.always hkept ⟨?_, ?_, ?_⟩ (hisolated.and htimely))
  · rintro s ⟨-, haccounted, hunmissed⟩ client stream i since hstream hfeed
    have hwarning := (hunmissed client stream hstream).1
    exact ⟨hwarning, (haccounted client stream i since hstream hfeed).eq_events hwarning⟩
  · exact fun _ ↦ Or.inl ⟨rfl, rfl⟩
  · exact fun client stream i since hstream ↦ absurd hstream (Option.some_ne_none _).symm
  · exact fun client stream hstream ↦ absurd hstream (Option.some_ne_none _).symm

end Node

/-! ### Two models -/

/-- Two models of shelves, by the names of their structs. -/
def twoModels (structName : Bool → String) : ServedModels fun _ : Bool ↦ Shelf where
  structName := structName
  exposed := fun _ ↦ Shelf.exposed
  config := fun _ ↦ withoutLists

/-- A client comes for one model, and then an item of the other is created. -/
def createInOther : List (StreamAction fun _ : Bool ↦ Shelf) :=
  [.subscribe 0 false, .operation true (.create createShelf quietEnvironment)]

end Lithair.Http
