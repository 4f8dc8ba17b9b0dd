import Lithair.Engine.AsyncWriter
import Lithair.Engine.MultiFileLog
import Lithair.Lib.Utf8

/-!
# The writer task over a store that fails

The task of `engine/async_writer.rs` over the event store of `engine/events.rs` with one file or
with a file for each aggregate, where every write may fail. `flush_buffer` hands the texts of the
buffer to the store one by one, then flushes the store, and then acknowledges the flushes; it does
so whatever the store answers. In between messages can be sent, but none is received.

A batch goes through the buffered writer of its file: a write that fails may have passed on a part
of the lines, another part may wait in the writer, and the batch is kept and written again. The
files are written as lines of text on the synchronous path; `log` is what the writer has written to
one of them, also when rotation has renamed the file since.

`Delivers` is what the writer is for: the events are written in the order in which they were sent,
each once, and a flush is acknowledged when all before it is written. `delivers_of_sound`: a run
delivers when its writes fail only where nothing of them was accepted and no flush is waiting.
-/

namespace Lithair.Engine

open Lithair.Lib.Run Lithair.Lib.Utf8

/-! ### A file that fails -/

/-- What becomes of an attempt to write a batch: the lines are written, and the rotation behind it
succeeds or not; or an error, after the buffered writer had accepted so many bytes of the lines and
so many of the bytes waiting in it had reached the file. -/
inductive WriteOutcome
  | written (rotated : Bool)
  | failed (accepted wrote : ℕ)
  deriving DecidableEq

/-- The write succeeds, or fails with nothing accepted. -/
def WriteOutcome.Clean : WriteOutcome → Prop
  | .written _ => True
  | .failed accepted _ => accepted = 0

/-- A storage as far as its log goes: what was written, what waits in the buffered writer, and the
batch with its limit. -/
structure LogStorage where
  log : List UInt8
  held : List UInt8
  eventBatch : List String
  maxBatchSize : ℕ
  deriving DecidableEq

namespace LogStorage

variable (crc32 : List UInt8 → UInt32)

def empty (maxBatchSize : ℕ) : LogStorage where
  log := []
  held := []
  eventBatch := []
  maxBatchSize := maxBatchSize

/-- The bytes of the lines of events. -/
def lineBytes (events : List String) : List UInt8 :=
  utf8 (FileStorage.eventLines crc32 true events)

/-- Write the batch; the second component says whether the call succeeded. -/
def flushBatch (s : LogStorage) (outcome : WriteOutcome) : LogStorage × Bool :=
  if s.eventBatch = [] then (s, true)
  else
    let lines := lineBytes crc32 s.eventBatch
    match outcome with
    | .written rotated =>
      ({ s with
          log := s.log ++ s.held ++ lines
          held := []
          eventBatch := [] },
        rotated)
    | .failed accepted wrote =>
      let waiting := s.held ++ lines.take accepted
      ({ s with
          log := s.log ++ waiting.take wrote
          held := waiting.drop wrote },
        false)

/-- Put an event into the batch, and write the batch when it is full. -/
def appendEvent (s : LogStorage) (eventJson : String) (outcome : WriteOutcome) :
    LogStorage × Bool :=
  let s := { s with eventBatch := s.eventBatch ++ [eventJson] }
  if s.maxBatchSize ≤ s.eventBatch.length then s.flushBatch crc32 outcome else (s, true)

/-! #### What a storage does with its batch -/

/-- Events have come in, and the first of those that wait were written. -/
structure Advances (s s' : LogStorage) (new first : List String) : Prop where
  batch : s.eventBatch ++ new = first ++ s'.eventBatch
  log : s'.log = s.log ++ lineBytes crc32 first
  held : s'.held = []

variable {crc32} {s s' s'' : LogStorage} {outcome : WriteOutcome}

theorem lineBytes_append (first second : List String) :
    lineBytes crc32 (first ++ second) = lineBytes crc32 first ++ lineBytes crc32 second := by
  unfold lineBytes utf8
  rw [FileStorage.eventLines_append, List.flatMap_append]

theorem Advances.trans {new first new' first' : List String} (h : Advances crc32 s s' new first)
    (h' : Advances crc32 s' s'' new' first') :
    Advances crc32 s s'' (new ++ new') (first ++ first') where
  batch := by
    rw [← List.append_assoc, h.batch, List.append_assoc, h'.batch, List.append_assoc]
  log := by rw [h'.log, h.log, lineBytes_append, List.append_assoc]
  held := h'.held

variable (crc32) in
theorem flushBatch_advances (hheld : s.held = []) (h : s.eventBatch = [] ∨ outcome.Clean) :
    ∃ first, Advances crc32 s (s.flushBatch crc32 outcome).1 [] first := by
  unfold flushBatch
  split_ifs with hempty
  · exact ⟨[], by simp, by simp [lineBytes, utf8, FileStorage.eventLines], hheld⟩
  · cases outcome with
    | written rotated =>
      refine ⟨s.eventBatch, rfl, ?_, rfl⟩
      show s.log ++ s.held ++ _ = _
      rw [hheld, List.append_nil]
    | failed accepted wrote =>
      have hnone : accepted = 0 := h.resolve_left hempty
      refine ⟨[], by simp, ?_, ?_⟩
      · simp [hnone, hheld, lineBytes, utf8, FileStorage.eventLines]
      · simp [hnone, hheld]

theorem flushBatch_ok (h : s.eventBatch = [] ∨ outcome = .written true) :
    (s.flushBatch crc32 outcome).2 = true := by
  unfold flushBatch
  split_ifs with hempty
  · rfl
  · rw [h.resolve_left hempty]

/-- A flush that succeeds leaves nothing in the batch. -/
theorem eventBatch_flushBatch (h : (s.flushBatch crc32 outcome).2 = true) :
    (s.flushBatch crc32 outcome).1.eventBatch = [] := by
  unfold flushBatch at h ⊢
  split_ifs at h ⊢ with hempty
  · exact hempty
  · cases outcome with
    | written rotated => rfl
    | failed accepted wrote => exact absurd h (by simp)

variable (crc32) in
theorem appendEvent_advances (hheld : s.held = [])
    (h : outcome.Clean ∨ s.eventBatch.length + 1 < s.maxBatchSize) (eventJson : String) :
    ∃ first, Advances crc32 s (s.appendEvent crc32 eventJson outcome).1 [eventJson] first := by
  unfold appendEvent
  simp only [List.length_append, List.length_singleton]
  split_ifs with hfull
  · have hclean : outcome.Clean := h.resolve_right (by omega)
    obtain ⟨first, hfirst⟩ := flushBatch_advances crc32
      (s := { s with eventBatch := s.eventBatch ++ [eventJson] }) hheld (Or.inr hclean)
    refine ⟨first, ?_, hfirst.log, hfirst.held⟩
    rw [← hfirst.batch, List.append_nil]
  · exact ⟨[], by simp, by simp [lineBytes, utf8, FileStorage.eventLines], hheld⟩

end LogStorage

/-! ### The event store -/

inductive Backend
  | single
  | multi
  deriving DecidableEq

/-- An event store over one storage, with the state of its hash chain. -/
structure LogEventStore where
  storage : LogStorage
  lastEventHash : Option String
  enableHashChain : Bool

/-- The event store of the task. Its storages are each under their aggregate id: the one of a single
file and the global one under none. A store that is opened has a hash chain by default or not. -/
structure FallibleStore where
  backend : Backend
  stores : Option String → Option LogEventStore
  openIds : List String
  lastEventHash : Option String
  enableHashChain : Bool
  chainByDefault : Bool
  flushEvery : ℕ
  pendingSinceFlush : ℕ

/-- What the environment decides in a step of `flush_buffer`: whether a store can be opened, with
the last hash in its file; what becomes of the write; and the order in which the map goes through
the open stores. -/
structure StoreAnswer where
  opened : Option (Option String)
  outcome : WriteOutcome
  order : List String

section Store

variable (crc32 : List UInt8 → UInt32) (sha256 : List UInt8 → String) (json : EnvelopeJson)

/-- Append an envelope and write the batch. When the append has written the batch already, there is
nothing left for the flush. -/
def LogEventStore.appendEnvelope (store : LogEventStore) (envelope : EventEnvelope)
    (outcome : WriteOutcome) : LogEventStore × Bool :=
  let persisted := envelope.link sha256 store.enableHashChain store.lastEventHash
  match store.storage.appendEvent crc32 (json.render persisted) outcome with
  | (storage, false) => ({ store with storage }, false)
  | (storage, true) =>
    let (storage, ok) := storage.flushBatch crc32 outcome
    ({ store with
        storage
        lastEventHash :=
          if store.enableHashChain then persisted.eventHash else store.lastEventHash },
      ok)

namespace FallibleStore

def put (s : FallibleStore) (id : Option String) (store : LogEventStore) : FallibleStore :=
  { s with stores := Function.update s.stores id (some store) }

/-- Open a store over a directory with the default size of a batch. -/
def createStore (s : FallibleStore) (id : String) (lastEventHash : Option String) :
    FallibleStore × LogEventStore :=
  let store :=
    { storage := LogStorage.empty 1000, lastEventHash
      enableHashChain := s.chainByDefault : LogEventStore }
  ({ s.put (some id) store with openIds := s.openIds ++ [id] }, store)

/-- The store of an aggregate, which is opened when it is not there. -/
def getStoreMut (s : FallibleStore) (id : Option String) (answer : StoreAnswer) :
    FallibleStore × Option LogEventStore :=
  match s.stores id, id, answer.opened with
  | some store, _, _ => (s, some store)
  | none, some id, some lastEventHash =>
    let (s, store) := s.createStore id lastEventHash
    (s, some store)
  | none, _, _ => (s, none)

/-- Append an envelope to the store of its aggregate. The second component says whether all open
stores are to be flushed then. -/
def appendEnvelope (s : FallibleStore) (envelope : EventEnvelope) (answer : StoreAnswer) :
    FallibleStore × Bool :=
  let persisted := envelope.link sha256 s.enableHashChain s.lastEventHash
  match s.getStoreMut persisted.aggregateId answer with
  | (s, none) => (s, false)
  | (s, some store) =>
    match store.appendEnvelope crc32 sha256 json persisted answer.outcome with
    | (store, false) => (s.put persisted.aggregateId store, false)
    | (store, true) =>
      ({ s.put persisted.aggregateId store with
          lastEventHash := if s.enableHashChain then persisted.eventHash else s.lastEventHash
          pendingSinceFlush := s.pendingSinceFlush + 1 },
        0 < s.flushEvery ∧ s.flushEvery ≤ s.pendingSinceFlush + 1)

/-- Append a line; one that is no envelope is refused when there are several files. -/
def appendRawLine (s : FallibleStore) (line : String) (answer : StoreAnswer) :
    FallibleStore × Bool :=
  match s.backend with
  | .single =>
    match s.stores none with
    | some store =>
      let (storage, ok) := store.storage.appendEvent crc32 line answer.outcome
      ({ s.put none { store with storage } with
          pendingSinceFlush := s.pendingSinceFlush + if ok then 1 else 0 },
        false)
    | none => (s, false)
  | .multi =>
    match json.parse line with
    | some envelope => s.appendEnvelope crc32 sha256 json envelope answer
    | none => (s, false)

/-- Write the batch of a storage. -/
def flushStore (s : FallibleStore) (id : Option String) (outcome : WriteOutcome) :
    FallibleStore × Bool :=
  match s.stores id with
  | some store =>
    let (storage, ok) := store.storage.flushBatch crc32 outcome
    (s.put id { store with storage }, ok)
  | none => (s, true)

/-- The size of a batch is set when there is one file. -/
def configureBatching (s : FallibleStore) (maxBatchSize : ℕ) : FallibleStore :=
  match s.backend, s.stores none with
  | .single, some store => s.put none { store with storage := { store.storage with maxBatchSize } }
  | _, _ => s

/-- The storages that a flush goes through, one after the other. -/
def flushOrder (s : FallibleStore) (order : List String) : List (Option String) :=
  match s.backend with
  | .single => [none]
  | .multi => none :: order.map some

end FallibleStore

end Store

/-! ### The task -/

/-- What the task does: it waits for a message; it hands the buffer to the store; it flushes the
storages that are listed, at the end or after an append; or it has ended. -/
inductive WriterPhase
  | waiting
  | appending
  | flushing (rest : List (Option String)) (last : Bool)
  | ended
  deriving DecidableEq

/-- The task with the messages it has not received, its buffer with the size of a batch, the flushes
it is to acknowledge and those it has acknowledged, the store, and whether the store's lock is
poisoned; beside these all messages that were sent. A flush is known by the number of messages sent
before it. -/
structure FallibleWriter where
  sent : List WriteEvent
  channel : List WriteEvent
  closed : Bool
  buffer : List String
  batchSize : ℕ
  flushes : List ℕ
  acknowledged : List ℕ
  phase : WriterPhase
  poisoned : Bool
  store : FallibleStore

inductive WriterAction
  | send (message : WriteEvent)
  | close
  | receive
  | timeout
  | work (answer : StoreAnswer)
  | poison
  | stop

namespace FallibleWriter

variable (crc32 : List UInt8 → UInt32) (sha256 : List UInt8 → String) (json : EnvelopeJson)

/-- A writer over a store. -/
def new (store : FallibleStore) (batchSize : ℕ) : FallibleWriter where
  sent := []
  channel := []
  closed := false
  buffer := []
  batchSize := batchSize
  flushes := []
  acknowledged := []
  phase := .waiting
  poisoned := false
  store := store.configureBatching batchSize

/-- `flush_buffer` begins when there is something to do, and takes the lock of the store. -/
def flushBuffer (w : FallibleWriter) : FallibleWriter :=
  if (w.buffer = [] ∧ w.flushes = []) ∨ w.poisoned then w else { w with phase := .appending }

/-- The texts that a message brings. -/
def textsOf : WriteEvent → List String := AsyncWriter.textsOf fun envelope ↦
  some (json.render envelope)

def handle (w : FallibleWriter) (message : WriteEvent) : FallibleWriter :=
  match message with
  | .flush ack => { w with flushes := w.flushes ++ [ack] }.flushBuffer
  | message =>
    let w := { w with buffer := w.buffer ++ textsOf json message }
    if w.batchSize ≤ w.buffer.length then w.flushBuffer else w

/-- The stores have been flushed, or one of them has failed: the task goes on with the buffer, or
acknowledges all flushes. -/
def endFlush (w : FallibleWriter) (last : Bool) : FallibleWriter :=
  if last then
    { w with
      flushes := []
      acknowledged := w.acknowledged ++ w.flushes
      phase := .waiting }
  else { w with phase := .appending }

/-- A step of `flush_buffer`. -/
def work (w : FallibleWriter) (answer : StoreAnswer) : Option FallibleWriter :=
  match w.phase with
  | .appending =>
    match w.buffer with
    | line :: rest =>
      let (store, flushes) := w.store.appendRawLine crc32 sha256 json line answer
      if answer.order.Perm store.openIds then
        some
          { w with
            buffer := rest
            store
            phase := if flushes then .flushing (store.flushOrder answer.order) false
              else .appending }
      else none
    | [] =>
      if answer.order.Perm w.store.openIds then
        some { w with phase := .flushing (w.store.flushOrder answer.order) true }
      else none
  | .flushing (id :: rest) last =>
    match w.store.flushStore crc32 id answer.outcome with
    | (store, true) => some { w with store, phase := .flushing rest last }
    | (store, false) => some ({ w with store }.endFlush last)
  | .flushing [] last =>
    some ({ w with
      store := if last then w.store else { w.store with pendingSinceFlush := 0 } }.endFlush last)
  | _ => none

def step (w : FallibleWriter) : WriterAction → Option FallibleWriter
  | .send message =>
    if w.closed = false ∧ ∀ ack ∈ AsyncWriter.acksOf message, ack = w.sent.length then
      some
        { w with
          sent := w.sent ++ [message]
          channel := w.channel ++ [message] }
    else none
  | .close => some { w with closed := true }
  | .receive =>
    match w.phase, w.channel with
    | .waiting, message :: rest => some ({ w with channel := rest }.handle json message)
    | _, _ => none
  | .timeout => if w.phase = .waiting ∧ w.buffer ≠ [] then some w.flushBuffer else none
  | .work answer => w.work crc32 sha256 json answer
  -- another holder of the lock panics; while the task holds it there is none
  | .poison =>
    if w.phase = .waiting ∨ w.phase = .ended then some { w with poisoned := true } else none
  -- the senders are gone and nothing is left: flushes that are still there get an error
  | .stop =>
    if w.phase = .waiting ∧ w.closed ∧ w.channel = [] ∧ w.buffer = [] then
      if w.flushes = [] ∨ w.poisoned then
        some
          { w with
            flushes := []
            phase := .ended }
      else some w.flushBuffer
    else none

/-! ### What the writer is for -/

def texts (messages : List WriteEvent) : List String := messages.flatMap (textsOf json)

/-- The storage that a text goes to, if it goes anywhere. -/
def route (backend : Backend) (text : String) : Option (Option String) :=
  match backend with
  | .single => some none
  | .multi => (json.parse text).map EventEnvelope.aggregateId

/-- The texts that go to a storage. -/
def routed (backend : Backend) (id : Option String) (texts : List String) : List String :=
  texts.filter fun text ↦ route json backend text = some id

/-- The line that is written for a text: itself, or with several files the text of the envelope in
it, which gets its place in the chain unless it has one. -/
def Carries (backend : Backend) (text line : String) : Prop :=
  match backend with
  | .single => line = text
  | .multi => ∃ envelope persisted, json.parse text = some envelope ∧ line = json.render persisted ∧
      persisted.content = envelope.content ∧ (envelope.eventHash ≠ none → persisted = envelope)

end FallibleWriter

namespace FallibleStore

variable (crc32 : List UInt8 → UInt32) (json : EnvelopeJson)

def log (s : FallibleStore) (id : Option String) : List UInt8 :=
  ((s.stores id).map fun store ↦ store.storage.log).getD []

def held (s : FallibleStore) (id : Option String) : List UInt8 :=
  ((s.stores id).map fun store ↦ store.storage.held).getD []

def batch (s : FallibleStore) (id : Option String) : List String :=
  ((s.stores id).map fun store ↦ store.storage.eventBatch).getD []

/-- The texts that were handed to the store are each in the log or the batch of the storage they go
to, in their order and once; `stored` has the events that the logs consist of. -/
structure Stores (s : FallibleStore) (handed : List String)
    (stored : Option String → List String) : Prop where
  routes : ∀ text ∈ handed, FallibleWriter.route json s.backend text ≠ none
  log : ∀ id, s.log id = LogStorage.lineBytes crc32 (stored id)
  events : ∀ id, List.Forall₂ (FallibleWriter.Carries json s.backend)
    (FallibleWriter.routed json s.backend id handed) (stored id ++ s.batch id)

/-- A store that nothing was written to: one storage, or the global one and those of the open
aggregates. -/
structure Fresh (s : FallibleStore) : Prop where
  log : ∀ id, s.log id = []
  held : ∀ id, s.held id = []
  batch : ∀ id, s.batch id = []
  opened : ∀ id, s.stores id ≠ none → id ∈ s.flushOrder s.openIds
  global : s.stores none ≠ none

end FallibleStore

namespace FallibleWriter

variable (crc32 : List UInt8 → UInt32) (sha256 : List UInt8 → String) (json : EnvelopeJson)

/-- The texts that were sent are in the store as far as they were handed to it, then come those in
the buffer and the channel. A flush is acknowledged only when all texts sent before it are in the
logs, and none waits for an answer while the task does nothing. -/
structure Delivered (w : FallibleWriter) (handed : List String)
    (stored : Option String → List String) : Prop where
  inOrder : texts json w.sent = handed ++ w.buffer ++ texts json w.channel
  stores : w.store.Stores crc32 json handed stored
  acknowledged : ∀ n ∈ w.acknowledged, ∀ id,
    (routed json w.store.backend id (texts json (w.sent.take n))).length ≤ (stored id).length
  answered : w.phase = .waiting ∨ w.phase = .ended → w.flushes = []

def Delivers (w : FallibleWriter) : Prop :=
  ∃ handed stored, Delivered crc32 json w handed stored

/-! ### The condition -/

/-- The line gets into the store: a write that it brings about succeeds or fails with nothing
accepted, and when there are several files, it is an envelope whose store is open or can be
opened. -/
def Accepts (s : FallibleStore) (line : String) (answer : StoreAnswer) : Prop :=
  match s.backend with
  | .single => answer.outcome.Clean ∨
      ∀ store, s.stores none = some store →
        store.storage.eventBatch.length + 1 < store.storage.maxBatchSize
  | .multi => ∃ envelope, json.parse line = some envelope ∧
      (s.stores envelope.aggregateId ≠ none ∨ answer.opened ≠ none) ∧ answer.outcome.Clean

/-- A flush is received only while the lock is not poisoned, each line gets into the store, and a
storage with something to write writes it; while no flush is waiting, it may also fail with nothing
accepted. -/
def Sound (w : FallibleWriter) : WriterAction → Prop
  | .receive => ∀ ack rest, w.channel = .flush ack :: rest → w.poisoned = false
  | .work answer =>
    match w.phase, w.buffer with
    | .appending, line :: _ => Accepts json w.store line answer
    | .flushing (id :: _) last, _ => w.store.batch id = [] ∨ answer.outcome = .written true ∨
        answer.outcome.Clean ∧ ¬ (last ∧ w.flushes ≠ [])
    | _, _ => True
  | _ => True

end FallibleWriter

/-! ### What a step does to the store -/

theorem LogEventStore.appendEnvelope_advances (store : LogEventStore)
    (crc32 : List UInt8 → UInt32) (sha256 : List UInt8 → String) (json : EnvelopeJson)
    (envelope : EventEnvelope)
    {outcome : WriteOutcome} (hheld : store.storage.held = []) (hclean : outcome.Clean) :
    ∃ first, LogStorage.Advances crc32 store.storage
      (store.appendEnvelope crc32 sha256 json envelope outcome).1.storage
      [json.render (envelope.link sha256 store.enableHashChain store.lastEventHash)] first := by
  obtain ⟨first, hfirst⟩ := LogStorage.appendEvent_advances crc32 hheld
    (Or.inl hclean)
    (json.render (envelope.link sha256 store.enableHashChain store.lastEventHash))
  unfold LogEventStore.appendEnvelope
  simp only
  generalize store.storage.appendEvent crc32 _ outcome = result at hfirst ⊢
  obtain ⟨storage, ok⟩ := result
  cases ok with
  | false => exact ⟨first, hfirst⟩
  | true =>
    obtain ⟨second, hsecond⟩ := LogStorage.flushBatch_advances crc32 hfirst.held
      (Or.inr hclean)
    exact ⟨first ++ second, hfirst.trans hsecond⟩

namespace FallibleStore

open FallibleWriter

variable {crc32 : List UInt8 → UInt32} {json : EnvelopeJson} {s : FallibleStore}
  {handed : List String} {stored : Option String → List String} {id : Option String}
  {store : LogEventStore}

variable (crc32 json) in
/-- The store holds what was handed to it, with nothing in the buffered writers, and each storage is
one that a flush goes through. -/
structure Holds (s : FallibleStore) (handed : List String)
    (stored : Option String → List String) : Prop extends Stores crc32 json s handed stored where
  held : ∀ id, s.held id = []
  opened : ∀ id, s.stores id ≠ none → id ∈ s.flushOrder s.openIds
  global : s.stores none ≠ none

theorem stores_put (other : Option String) :
    (s.put id store).stores other = if other = id then some store else s.stores other :=
  Function.update_apply ..

theorem log_put (other : Option String) :
    (s.put id store).log other = if other = id then store.storage.log else s.log other := by
  unfold log
  rw [stores_put]
  split_ifs <;> rfl

theorem held_put (other : Option String) :
    (s.put id store).held other = if other = id then store.storage.held else s.held other := by
  unfold held
  rw [stores_put]
  split_ifs <;> rfl

theorem batch_put (other : Option String) :
    (s.put id store).batch other =
      if other = id then store.storage.eventBatch else s.batch other := by
  unfold batch
  rw [stores_put]
  split_ifs <;> rfl

theorem of_stores (hstore : s.stores id = some store) : s.log id = store.storage.log ∧
    s.held id = store.storage.held ∧ s.batch id = store.storage.eventBatch := by
  unfold log held batch
  rw [hstore]
  exact ⟨rfl, rfl, rfl⟩

/-- One storage goes on with texts that are its own. -/
theorem Holds.put (h : s.Holds crc32 json handed stored) (hstore : s.stores id = some store)
    (store' : LogEventStore) {more new first : List String}
    (hadvances : LogStorage.Advances crc32 store.storage store'.storage new first)
    (hroutes : ∀ text ∈ more, route json s.backend text = some id)
    (hcarries : List.Forall₂ (Carries json s.backend) more new) :
    (s.put id store').Holds crc32 json (handed ++ more)
      (Function.update stored id (stored id ++ first)) := by
  obtain ⟨hlog, hheld, hbatch⟩ := of_stores hstore
  refine ⟨⟨fun text htext ↦ ?_, fun other ↦ ?_, fun other ↦ ?_⟩, fun other ↦ ?_,
    fun other hother ↦ ?_, ?_⟩
  · rcases List.mem_append.mp htext with htext | htext
    · exact h.routes text htext
    · show route json s.backend text ≠ none
      rw [hroutes text htext]
      exact Option.some_ne_none _
  · rw [log_put, Function.update_apply]
    split_ifs with hother
    · rw [hadvances.log, LogStorage.lineBytes_append, ← h.log id, hlog]
    · exact h.log other
  · rw [batch_put, Function.update_apply]
    show List.Forall₂ (Carries json s.backend) (routed json s.backend other (handed ++ more)) _
    unfold routed
    rw [List.filter_append]
    split_ifs with hother
    · subst hother
      have hall : more.filter (fun text ↦ route json s.backend text = some other) = more :=
        List.filter_eq_self.mpr fun text htext ↦ by simpa using hroutes text htext
      rw [hall, List.append_assoc, ← hadvances.batch, ← List.append_assoc, ← hbatch]
      exact List.rel_append (h.events other) hcarries
    · have hnone : more.filter (fun text ↦ route json s.backend text = some other) = [] := by
        refine List.filter_eq_nil_iff.mpr fun text htext ↦ ?_
        rw [hroutes text htext]
        simpa using fun heq ↦ hother heq.symm
      rw [hnone, List.append_nil]
      exact h.events other
  · rw [held_put]
    split_ifs
    · exact hadvances.held
    · exact h.held other
  · refine h.opened other fun hnone ↦ hother ?_
    rw [stores_put, if_neg]
    · exact hnone
    · rintro rfl
      rw [hstore] at hnone
      exact absurd hnone (Option.some_ne_none _)
  · rw [stores_put]
    split_ifs
    · exact Option.some_ne_none _
    · exact h.global

/-- What a store keeps when it takes in texts: what is stored stays in front. -/
structure Takes (crc32 : List UInt8 → UInt32) (json : EnvelopeJson) (s s' : FallibleStore)
    (handed more : List String) (stored stored' : Option String → List String) : Prop where
  holds : s'.Holds crc32 json (handed ++ more) stored'
  keeps : ∀ id, stored id <+: stored' id
  backend : s'.backend = s.backend

theorem prefix_update (stored : Option String → List String) (id : Option String)
    (first : List String) (other : Option String) :
    stored other <+: Function.update stored id (stored id ++ first) other := by
  rw [Function.update_apply]
  split_ifs with hother
  · rw [hother]
    exact List.prefix_append _ _
  · exact List.prefix_rfl

/-- A store that is opened has nothing in it. -/
theorem Holds.createStore (h : s.Holds crc32 json handed stored) (hbackend : s.backend = .multi)
    {key : String} (hnone : s.stores (some key) = none) (lastEventHash : Option String) :
    ((s.createStore key lastEventHash).1).Holds crc32 json handed stored := by
  set s' := (s.createStore key lastEventHash).1 with hs'
  have hstores : ∀ other, s'.stores other =
      if other = some key then some (s.createStore key lastEventHash).2 else s.stores other :=
    fun other ↦ stores_put other
  have hsame : ∀ other, s'.log other = s.log other ∧ s'.held other = s.held other ∧
      s'.batch other = s.batch other := by
    intro other
    unfold log FallibleStore.held batch
    rw [hstores]
    split_ifs with hother
    · rw [hother, hnone]
      exact ⟨rfl, rfl, rfl⟩
    · exact ⟨rfl, rfl, rfl⟩
  refine ⟨⟨h.routes, fun other ↦ ?_, fun other ↦ ?_⟩, fun other ↦ ?_, fun other hother ↦ ?_, ?_⟩
  · rw [(hsame other).1, h.log]
  · rw [(hsame other).2.2]
    exact h.events other
  · rw [(hsame other).2.1, h.held]
  · have hold := h.opened other
    rw [hstores] at hother
    unfold flushOrder at hold ⊢
    simp only [hs', FallibleStore.createStore, FallibleStore.put, hbackend, List.map_append,
      List.mem_cons, List.mem_append] at hold ⊢
    split_ifs at hother with hkey
    · exact Or.inr (Or.inr (by simp [hkey]))
    · exact (hold hother).imp_right Or.inl
  · rw [hstores, if_neg (by simp)]
    exact h.global

/-- The store of an aggregate is there, or can be opened. -/
theorem getStoreMut_spec (h : s.Holds crc32 json handed stored) {answer : StoreAnswer}
    (hopen : s.stores id ≠ none ∨ answer.opened ≠ none) (hbackend : s.backend = .multi) :
    ∃ s' store, s.getStoreMut id answer = (s', some store) ∧ s'.stores id = some store ∧
      s'.Holds crc32 json handed stored ∧ s'.backend = s.backend := by
  cases hstore : s.stores id with
  | some store => exact ⟨s, store, by simp [getStoreMut, hstore], hstore, h, rfl⟩
  | none =>
    cases id with
    | none => exact absurd hstore h.global
    | some key =>
      have hopened : answer.opened ≠ none := hopen.resolve_left (not_not.mpr hstore)
      obtain ⟨lastEventHash, hlast⟩ := Option.ne_none_iff_exists'.mp hopened
      refine ⟨_, _, by simp only [getStoreMut, hstore, hlast]; rfl, Function.update_self ..,
        h.createStore hbackend hstore lastEventHash, rfl⟩

/-- Fields that do not matter to what is held. -/
theorem Holds.congr (h : s.Holds crc32 json handed stored) {s' : FallibleStore}
    (hbackend : s'.backend = s.backend) (hstores : s'.stores = s.stores)
    (hopen : s'.openIds = s.openIds) : s'.Holds crc32 json handed stored := by
  obtain ⟨backend, stores, openIds⟩ := s'
  obtain rfl : backend = s.backend := hbackend
  obtain rfl : stores = s.stores := hstores
  obtain rfl : openIds = s.openIds := hopen
  exact ⟨⟨h.routes, h.log, h.events⟩, h.held, h.opened, h.global⟩

theorem link_of_eventHash {sha256 : List UInt8 → String} {envelope : EventEnvelope}
    (h : envelope.eventHash ≠ none) (enable : Bool) (last : Option String) :
    envelope.link sha256 enable last = envelope := by
  unfold EventEnvelope.link
  rw [if_neg]
  rintro ⟨-, hnone⟩
  exact h (Option.isNone_iff_eq_none.mp hnone)

theorem appendEnvelope_takes (h : s.Holds crc32 json handed stored) (hbackend : s.backend = .multi)
    (sha256 : List UInt8 → String) {line : String} {envelope : EventEnvelope}
    (hparse : json.parse line = some envelope) {answer : StoreAnswer}
    (hopen : s.stores envelope.aggregateId ≠ none ∨ answer.opened ≠ none)
    (hclean : answer.outcome.Clean) :
    ∃ stored', Takes crc32 json s (s.appendEnvelope crc32 sha256 json envelope answer).1 handed
      [line] stored stored' := by
  set persisted := envelope.link sha256 s.enableHashChain s.lastEventHash with hpersisted
  have hcontent : persisted.content = envelope.content := MultiEventStore.content_link ..
  have hid : persisted.aggregateId = envelope.aggregateId :=
    MultiEventStore.aggregateId_eq_of_content_eq hcontent
  rw [← hid] at hopen
  obtain ⟨s', store, hget, hstore, hholds, hsame⟩ := getStoreMut_spec h hopen hbackend
  have hheld : store.storage.held = [] :=
    (of_stores hstore).2.1.symm.trans (hholds.held persisted.aggregateId)
  obtain ⟨first, hfirst⟩ := store.appendEnvelope_advances crc32 sha256 json persisted
    hheld hclean
  have hroutes : ∀ text ∈ [line], route json s'.backend text = some persisted.aggregateId := by
    intro text htext
    rw [List.mem_singleton.mp htext, hsame, hbackend, hid]
    show (json.parse line).map _ = _
    rw [hparse]
    rfl
  have hcarries : List.Forall₂ (Carries json s'.backend) [line]
      [json.render (persisted.link sha256 store.enableHashChain store.lastEventHash)] := by
    rw [hsame, hbackend]
    refine List.Forall₂.cons ⟨envelope, _, hparse, rfl, ?_, fun hhash ↦ ?_⟩ List.Forall₂.nil
    · rw [MultiEventStore.content_link, hcontent]
    · have hlinked : persisted = envelope := link_of_eventHash hhash _ _
      rw [hlinked, link_of_eventHash hhash]
  have hput := hholds.put hstore _ hfirst hroutes hcarries
  refine ⟨_, ?_, prefix_update stored persisted.aggregateId first, ?_⟩
  · unfold appendEnvelope
    simp only [← hpersisted, hget]
    split
    · next hok =>
      rw [hok] at hput
      exact hput
    · next hok =>
      rw [hok] at hput
      exact hput.congr rfl rfl rfl
  · unfold appendEnvelope
    simp only [← hpersisted, hget]
    split <;> exact hsame

theorem appendRawLine_takes (h : s.Holds crc32 json handed stored) (sha256 : List UInt8 → String)
    {line : String} {answer : StoreAnswer} (haccepts : Accepts json s line answer) :
    ∃ stored', Takes crc32 json s (s.appendRawLine crc32 sha256 json line answer).1 handed [line]
      stored stored' := by
  unfold Accepts at haccepts
  unfold appendRawLine
  cases hbackend : s.backend with
  | single =>
    rw [hbackend] at haccepts
    obtain ⟨store, hstore⟩ := Option.ne_none_iff_exists'.mp h.global
    have hheld : store.storage.held = [] := (of_stores hstore).2.1.symm.trans (h.held none)
    obtain ⟨first, hfirst⟩ := LogStorage.appendEvent_advances crc32 hheld
      (haccepts.imp_right fun hroom ↦ hroom store hstore) line
    have hroutes : ∀ text ∈ [line], route json s.backend text = some none := by
      intro text _
      rw [hbackend]
      rfl
    have hcarries : List.Forall₂ (Carries json s.backend) [line] [line] := by
      rw [hbackend]
      exact List.Forall₂.cons rfl List.Forall₂.nil
    have hput := h.put hstore
      { store with storage := (store.storage.appendEvent crc32 line answer.outcome).1 } hfirst
      hroutes hcarries
    simp only [hstore]
    exact ⟨_, hput.congr rfl rfl rfl, prefix_update stored none first, rfl⟩
  | multi =>
    rw [hbackend] at haccepts
    obtain ⟨envelope, hparse, hopen, hclean⟩ := haccepts
    simp only [hparse]
    exact appendEnvelope_takes h hbackend sha256 hparse hopen hclean

theorem flushStore_takes (h : s.Holds crc32 json handed stored) {outcome : WriteOutcome}
    (hclean : s.batch id = [] ∨ outcome.Clean) :
    ∃ stored', Takes crc32 json s (s.flushStore crc32 id outcome).1 handed [] stored stored' := by
  unfold flushStore
  cases hstore : s.stores id with
  | none => exact ⟨stored, by rwa [List.append_nil], fun _ ↦ List.prefix_rfl, rfl⟩
  | some store =>
    obtain ⟨-, hheld, hbatch⟩ := of_stores hstore
    rw [hbatch] at hclean
    obtain ⟨first, hfirst⟩ := LogStorage.flushBatch_advances crc32
      (hheld.symm.trans (h.held id)) hclean
    have hroutes : ∀ text ∈ ([] : List String), route json s.backend text = some id :=
      fun text htext ↦ absurd htext List.not_mem_nil
    exact ⟨_, h.put hstore { store with storage := (store.storage.flushBatch crc32 outcome).1 }
      hfirst hroutes List.Forall₂.nil, prefix_update stored id first, rfl⟩

/-- A flush that succeeds leaves nothing in this batch, and touches no other. -/
theorem batch_flushStore (crc32 : List UInt8 → UInt32) {outcome : WriteOutcome}
    (hok : (s.flushStore crc32 id outcome).2 = true)
    (other : Option String) :
    ((s.flushStore crc32 id outcome).1).batch other = if other = id then [] else s.batch other := by
  unfold flushStore at hok ⊢
  cases hstore : s.stores id with
  | none =>
    simp only
    split_ifs with hother
    · rw [hother, batch, hstore]
      rfl
    · rfl
  | some store =>
    rw [hstore] at hok
    simp only
    rw [batch_put]
    split_ifs
    · exact LogStorage.eventBatch_flushBatch hok
    · rfl

theorem flushStore_ok (crc32 : List UInt8 → UInt32) {outcome : WriteOutcome}
    (h : s.batch id = [] ∨ outcome = .written true) :
    (s.flushStore crc32 id outcome).2 = true := by
  unfold flushStore
  cases hstore : s.stores id with
  | none => rfl
  | some store =>
    rw [(of_stores hstore).2.2] at h
    exact LogStorage.flushBatch_ok h

/-- A flush in any order of the open stores goes through all of them. -/
theorem Holds.mem_flushOrder (h : s.Holds crc32 json handed stored) {order : List String}
    (horder : order.Perm s.openIds) {other : Option String} (hother : other ∉ s.flushOrder order) :
    s.batch other = [] := by
  cases hstore : s.stores other with
  | none =>
    rw [batch, hstore]
    rfl
  | some store =>
    have hmem := h.opened other (by rw [hstore]; exact Option.some_ne_none _)
    unfold flushOrder at hmem hother
    cases hbackend : s.backend with
    | single =>
      rw [hbackend] at hmem hother
      exact absurd hmem hother
    | multi =>
      rw [hbackend] at hmem hother
      simp only [List.mem_cons, List.mem_map, horder.mem_iff] at hmem hother
      exact absurd hmem hother

end FallibleStore

namespace FallibleWriter

variable {crc32 : List UInt8 → UInt32} {sha256 : List UInt8 → String} {json : EnvelopeJson}

/-! ### What a step keeps -/

/-- `Delivered` with what carries it along: what was received is handed to the store or in the
buffer, flushes have their numbers, and a flush of all storages has left nothing in those behind
it. -/
structure Inv (crc32 : List UInt8 → UInt32) (json : EnvelopeJson) (w : FallibleWriter)
    (received : List WriteEvent) (handed : List String) (stored : Option String → List String) :
    Prop where
  sent : w.sent = received ++ w.channel
  taken : texts json received = handed ++ w.buffer
  numbered : ∀ n message, w.sent[n]? = some message → ∀ ack ∈ AsyncWriter.acksOf message, ack = n
  holds : w.store.Holds crc32 json handed stored
  flushes : ∀ n ∈ w.flushes, n ≤ received.length
  acknowledged : ∀ n ∈ w.acknowledged, n ≤ received.length ∧ ∀ id,
    (routed json w.store.backend id (texts json (received.take n))).length ≤ (stored id).length
  answered : w.phase = .waiting ∨ w.phase = .ended → w.flushes = []
  flushing : ∀ rest, w.phase = .flushing rest true → w.buffer = [] ∧
    (w.flushes ≠ [] → ∀ id, id ∉ rest → w.store.batch id = [])

variable {w next : FallibleWriter} {received : List WriteEvent} {handed : List String}
  {stored : Option String → List String}

theorem texts_append (first second : List WriteEvent) :
    texts json (first ++ second) = texts json first ++ texts json second := List.flatMap_append

theorem Inv.delivers (h : Inv crc32 json w received handed stored) : Delivers crc32 json w := by
  refine ⟨handed, stored, ?_, h.holds.toStores, fun n hn id ↦ ?_, h.answered⟩
  · rw [h.sent, texts_append, h.taken]
  · obtain ⟨hle, hlength⟩ := h.acknowledged n hn
    rw [h.sent, List.take_append_of_le_length hle]
    exact hlength id

/-- The task takes up the buffer, or something else that changes nothing of it. -/
theorem Inv.appending (h : Inv crc32 json w received handed stored) :
    Inv crc32 json { w with phase := .appending } received handed stored :=
  ⟨h.sent, h.taken, h.numbered, h.holds, h.flushes, h.acknowledged,
    fun hphase ↦ by rcases hphase with hphase | hphase <;> exact absurd hphase (by simp),
    fun rest hphase ↦ absurd hphase (by simp)⟩

theorem Inv.flushBuffer (h : Inv crc32 json w received handed stored) :
    Inv crc32 json w.flushBuffer received handed stored := by
  unfold FallibleWriter.flushBuffer
  split_ifs
  · exact h
  · exact h.appending

theorem Inv.send (h : Inv crc32 json w received handed stored) {message : WriteEvent}
    (hack : ∀ ack ∈ AsyncWriter.acksOf message, ack = w.sent.length) :
    Inv crc32 json { w with
      sent := w.sent ++ [message]
      channel := w.channel ++ [message] } received handed stored where
  sent := by rw [h.sent, List.append_assoc]
  taken := h.taken
  numbered := by
    intro n other hother
    rcases lt_or_ge n w.sent.length with hlt | hge
    · exact h.numbered n other ((List.getElem?_append_left hlt).symm.trans hother)
    · rw [List.getElem?_append_right hge, List.getElem?_singleton] at hother
      split_ifs at hother with hlast
      obtain rfl := Option.some.inj hother
      intro ack hmem
      rw [hack ack hmem]
      omega
  holds := h.holds
  flushes := h.flushes
  acknowledged := h.acknowledged
  answered := h.answered
  flushing := h.flushing

/-- A message is received; its texts go into the buffer. -/
theorem Inv.receive (h : Inv crc32 json w received handed stored) (hphase : w.phase = .waiting)
    {message : WriteEvent} {rest : List WriteEvent} (hchannel : w.channel = message :: rest) :
    Inv crc32 json { w with
      channel := rest
      buffer := w.buffer ++ textsOf json message } (received ++ [message]) handed stored where
  sent := by rw [h.sent, hchannel, List.append_assoc]; rfl
  taken := by
    rw [texts_append, h.taken, List.append_assoc]
    show _ ++ (_ ++ (textsOf json message ++ [])) = _
    rw [List.append_nil]
  numbered := h.numbered
  holds := h.holds
  flushes := fun n hn ↦ (h.flushes n hn).trans (by simp)
  acknowledged := by
    intro n hn
    obtain ⟨hle, hlength⟩ := h.acknowledged n hn
    refine ⟨hle.trans (by simp), fun id ↦ ?_⟩
    rw [List.take_append_of_le_length hle]
    exact hlength id
  answered := h.answered
  flushing := fun rest hflushing ↦ absurd (hphase.symm.trans hflushing) (by simp)

theorem Inv.handle (h : Inv crc32 json w received handed stored) (hphase : w.phase = .waiting)
    {message : WriteEvent} {rest : List WriteEvent} (hchannel : w.channel = message :: rest)
    (hpoisoned : ∀ ack, message = .flush ack → w.poisoned = false) :
    Inv crc32 json ({ w with channel := rest }.handle json message) (received ++ [message]) handed
      stored := by
  have hreceived := h.receive hphase hchannel
  unfold FallibleWriter.handle
  split
  · next ack =>
    have hnumber : ack = received.length := by
      refine h.numbered received.length (.flush ack) ?_ ack List.mem_cons_self
      rw [h.sent, hchannel, List.getElem?_append_right le_rfl, Nat.sub_self]
      rfl
    have hbusy : ¬ ((w.buffer = [] ∧ w.flushes ++ [ack] = []) ∨ w.poisoned = true) := by
      rw [hpoisoned ack rfl]
      simp
    unfold FallibleWriter.flushBuffer
    simp only
    rw [if_neg hbusy]
    have happending := hreceived.appending
    refine ⟨happending.sent, ?_, happending.numbered, happending.holds, fun n hn ↦ ?_,
      happending.acknowledged, ?_, fun _ hflushing ↦ absurd hflushing (by simp)⟩
    · rw [happending.taken]
      show handed ++ (w.buffer ++ []) = _
      rw [List.append_nil]
    · rw [h.answered (Or.inl hphase), List.nil_append, List.mem_singleton] at hn
      rw [hn, hnumber]
      simp
    · rintro (hwaiting | hended)
      · exact absurd hwaiting (by simp)
      · exact absurd hended (by simp)
  · simp only
    split_ifs
    · exact hreceived.flushBuffer
    · exact hreceived

/-- When all storages have written what they had, everything that was received is stored. -/
theorem Inv.endFlush (h : Inv crc32 json w received handed stored) {last : Bool}
    (hdone : last = true → w.buffer = [] ∧ (w.flushes ≠ [] → ∀ id, w.store.batch id = [])) :
    Inv crc32 json (w.endFlush last) received handed stored := by
  unfold FallibleWriter.endFlush
  split_ifs with hlast
  · obtain ⟨hbuffer, hbatches⟩ := hdone hlast
    refine ⟨h.sent, h.taken, h.numbered, h.holds, fun n hn ↦ absurd hn List.not_mem_nil,
      fun n hn ↦ ?_, fun _ ↦ rfl, fun _ hflushing ↦ absurd hflushing (by simp)⟩
    rcases List.mem_append.mp hn with hn | hn
    · exact h.acknowledged n hn
    · refine ⟨h.flushes n hn, fun id ↦ ?_⟩
      have hlength := (h.holds.events id).length_eq
      rw [hbatches (List.ne_nil_of_mem hn) id, List.append_nil] at hlength
      rw [← hlength]
      have htexts : texts json received = handed := by rw [h.taken, hbuffer, List.append_nil]
      have hbegins : texts json (received.take n) <+: handed := by
        rw [← htexts]
        refine ⟨texts json (received.drop n), ?_⟩
        rw [← texts_append, List.take_append_drop]
      exact (hbegins.filter _).length_le
  · exact h.appending

/-- The store goes on with texts from the front of the buffer. -/
theorem Inv.takes (h : Inv crc32 json w received handed stored) {store : FallibleStore}
    {more rest : List String} {stored' : Option String → List String}
    (htakes : FallibleStore.Takes crc32 json w.store store handed more stored stored')
    (hbuffer : w.buffer = more ++ rest) :
    Inv crc32 json { w with
      store
      buffer := rest
      phase := .appending } received (handed ++ more) stored' where
  sent := h.sent
  taken := by rw [h.taken, hbuffer, List.append_assoc]
  numbered := h.numbered
  holds := htakes.holds
  flushes := h.flushes
  acknowledged := by
    intro n hn
    obtain ⟨hle, hlength⟩ := h.acknowledged n hn
    refine ⟨hle, fun id ↦ ?_⟩
    show (routed json store.backend id _).length ≤ _
    rw [htakes.backend]
    exact (hlength id).trans (htakes.keeps id).length_le
  answered := by
    rintro (hphase | hphase)
    · exact absurd hphase (by simp)
    · exact absurd hphase (by simp)
  flushing := fun _ hflushing ↦ absurd hflushing (by simp)

/-- Another phase in which flushes may wait. -/
theorem Inv.setPhase (h : Inv crc32 json w received handed stored) {phase : WriterPhase}
    (hbusy : phase ≠ .waiting ∧ phase ≠ .ended)
    (hflushing : ∀ rest, phase = .flushing rest true → w.buffer = [] ∧
      (w.flushes ≠ [] → ∀ id, id ∉ rest → w.store.batch id = [])) :
    Inv crc32 json { w with phase } received handed stored :=
  ⟨h.sent, h.taken, h.numbered, h.holds, h.flushes, h.acknowledged,
    fun hphase ↦ by
      rcases hphase with hphase | hphase
      · exact absurd hphase hbusy.1
      · exact absurd hphase hbusy.2,
    hflushing⟩

theorem Inv.work (h : Inv crc32 json w received handed stored) {answer : StoreAnswer}
    (hsound : Sound json w (.work answer)) (hstep : w.work crc32 sha256 json answer = some next) :
    ∃ handed' stored', Inv crc32 json next received handed' stored' := by
  unfold FallibleWriter.work at hstep
  unfold Sound at hsound
  split at hstep
  · next hphase =>
    split at hstep
    · next line rest hbuffer =>
      rw [hphase, hbuffer] at hsound
      simp only at hsound hstep
      obtain ⟨stored', htakes⟩ := FallibleStore.appendRawLine_takes h.holds sha256 hsound
      split_ifs at hstep
      · obtain rfl := Option.some.inj hstep
        exact ⟨_, stored', (h.takes htakes hbuffer).setPhase (by simp) (by simp)⟩
      · obtain rfl := Option.some.inj hstep
        exact ⟨_, stored', h.takes htakes hbuffer⟩
    · next hbuffer =>
      split_ifs at hstep with horder
      obtain rfl := Option.some.inj hstep
      refine ⟨handed, stored, h.setPhase (by simp) fun rest hrest ↦ ⟨hbuffer, fun _ id hid ↦ ?_⟩⟩
      obtain ⟨rfl, -⟩ := WriterPhase.flushing.inj hrest
      exact h.holds.mem_flushOrder horder hid
  · next id rest last hphase =>
    rw [hphase] at hsound
    simp only at hsound
    have hclean : w.store.batch id = [] ∨ answer.outcome.Clean := by
      rcases hsound with hempty | hwritten | hfailed
      · exact Or.inl hempty
      · exact Or.inr (by rw [hwritten]; trivial)
      · exact Or.inr hfailed.1
    obtain ⟨stored', htakes⟩ := FallibleStore.flushStore_takes h.holds hclean
    have hbatch : (w.store.flushStore crc32 id answer.outcome).2 = true → ∀ other,
        ((w.store.flushStore crc32 id answer.outcome).1).batch other =
          if other = id then [] else w.store.batch other := FallibleStore.batch_flushStore crc32
    have hok : w.store.batch id = [] ∨ answer.outcome = .written true →
        (w.store.flushStore crc32 id answer.outcome).2 = true := FallibleStore.flushStore_ok crc32
    have hinv := h.takes htakes (List.nil_append w.buffer).symm
    generalize w.store.flushStore crc32 id answer.outcome = result at *
    obtain ⟨store, ok⟩ := result
    cases ok with
    | true =>
      obtain rfl := Option.some.inj hstep
      refine ⟨_, stored', hinv.setPhase (by simp) fun rest' hrest ↦ ?_⟩
      obtain ⟨rfl, rfl⟩ := WriterPhase.flushing.inj hrest
      obtain ⟨hbuffer, hdone⟩ := h.flushing _ hphase
      refine ⟨hbuffer, fun hflushes other hother ↦ ?_⟩
      rw [hbatch rfl other]
      split_ifs with hsame
      · rfl
      · exact hdone hflushes other (by simp [hsame, hother])
    | false =>
      obtain rfl := Option.some.inj hstep
      have hnone : ¬ (last = true ∧ w.flushes ≠ []) := by
        rcases hsound with hempty | hwritten | hfailed
        · exact absurd (hok (Or.inl hempty)) (by simp)
        · exact absurd (hok (Or.inr hwritten)) (by simp)
        · exact hfailed.2
      refine ⟨_, stored', hinv.endFlush fun hlast ↦ ?_⟩
      subst hlast
      exact ⟨(h.flushing _ hphase).1, fun hflushes ↦ absurd ⟨rfl, hflushes⟩ hnone⟩
  · next last hphase =>
    obtain rfl := Option.some.inj hstep
    refine ⟨handed, stored, Inv.endFlush ?_ fun hlast ↦ ?_⟩
    · refine ⟨h.sent, h.taken, h.numbered, ?_, h.flushes, ?_, h.answered, ?_⟩
      · split_ifs
        · exact h.holds
        · exact h.holds.congr rfl rfl rfl
      · split_ifs <;> exact h.acknowledged
      · split_ifs <;> exact h.flushing
    · subst hlast
      obtain ⟨hbuffer, hdone⟩ := h.flushing [] hphase
      exact ⟨hbuffer, fun hflushes id ↦ hdone hflushes id List.not_mem_nil⟩
  · exact absurd hstep (by simp)

theorem Inv.step (h : Inv crc32 json w received handed stored) {a : WriterAction}
    (hsound : Sound json w a) (hstep : w.step crc32 sha256 json a = some next) :
    ∃ received' handed' stored', Inv crc32 json next received' handed' stored' := by
  cases a with
  | send message =>
    simp only [FallibleWriter.step] at hstep
    split_ifs at hstep with hopen
    obtain rfl := Option.some.inj hstep
    exact ⟨received, handed, stored, h.send hopen.2⟩
  | close =>
    obtain rfl := Option.some.inj hstep
    exact ⟨received, handed, stored, h.sent, h.taken, h.numbered, h.holds, h.flushes,
      h.acknowledged, h.answered, h.flushing⟩
  | receive =>
    simp only [FallibleWriter.step] at hstep
    split at hstep
    · next message rest hphase hchannel =>
      obtain rfl := Option.some.inj hstep
      refine ⟨_, handed, stored, h.handle hphase hchannel ?_⟩
      rintro ack rfl
      exact hsound ack rest hchannel
    · exact absurd hstep (by simp)
  | timeout =>
    simp only [FallibleWriter.step] at hstep
    split_ifs at hstep
    obtain rfl := Option.some.inj hstep
    exact ⟨received, handed, stored, h.flushBuffer⟩
  | work answer =>
    obtain ⟨handed', stored', hinv⟩ := h.work hsound hstep
    exact ⟨received, handed', stored', hinv⟩
  | poison =>
    simp only [FallibleWriter.step] at hstep
    split_ifs at hstep
    obtain rfl := Option.some.inj hstep
    exact ⟨received, handed, stored, h.sent, h.taken, h.numbered, h.holds, h.flushes,
      h.acknowledged, h.answered, h.flushing⟩
  | stop =>
    simp only [FallibleWriter.step] at hstep
    split_ifs at hstep with hidle hflushes
    · obtain rfl := Option.some.inj hstep
      exact ⟨received, handed, stored, h.sent, h.taken, h.numbered, h.holds,
        fun n hn ↦ absurd hn List.not_mem_nil, h.acknowledged, fun _ ↦ rfl,
        fun rest hflushing ↦ absurd hflushing (by simp)⟩
    · obtain rfl := Option.some.inj hstep
      exact ⟨received, handed, stored, h.flushBuffer⟩

theorem Inv.new {store : FallibleStore} (hfresh : store.Fresh) (batchSize : ℕ) :
    Inv crc32 json (new store batchSize) [] [] fun _ ↦ [] := by
  have hconfigured : ∀ id, (store.configureBatching batchSize).log id = store.log id ∧
      (store.configureBatching batchSize).held id = store.held id ∧
      (store.configureBatching batchSize).batch id = store.batch id ∧
      ((store.configureBatching batchSize).stores id = none ↔ store.stores id = none) := by
    intro id
    unfold FallibleStore.configureBatching
    split
    · next inner hbackend hstore =>
      obtain ⟨hlog, hheld, hbatch⟩ := FallibleStore.of_stores hstore
      rw [FallibleStore.log_put, FallibleStore.held_put, FallibleStore.batch_put,
        FallibleStore.stores_put]
      split_ifs with hid
      · subst hid
        exact ⟨hlog.symm, hheld.symm, hbatch.symm, by simp [hstore]⟩
      · exact ⟨rfl, rfl, rfl, Iff.rfl⟩
    · exact ⟨rfl, rfl, rfl, Iff.rfl⟩
  have horder : (store.configureBatching batchSize).flushOrder
      (store.configureBatching batchSize).openIds = store.flushOrder store.openIds := by
    unfold FallibleStore.configureBatching
    split <;> rfl
  refine ⟨rfl, rfl, fun n message hmessage ↦ absurd hmessage (by simp [FallibleWriter.new]),
    ⟨⟨fun text htext ↦ absurd htext List.not_mem_nil, fun id ↦ ?_, fun id ↦ ?_⟩, fun id ↦ ?_,
      fun id hid ↦ ?_, ?_⟩, fun n hn ↦ absurd hn List.not_mem_nil,
    fun n hn ↦ absurd hn List.not_mem_nil, fun _ ↦ rfl, fun rest hrest ↦ absurd hrest ?_⟩
  · rw [FallibleWriter.new, (hconfigured id).1, hfresh.log]
    rfl
  · rw [FallibleWriter.new, (hconfigured id).2.2.1, hfresh.batch]
    exact List.Forall₂.nil
  · rw [FallibleWriter.new, (hconfigured id).2.1, hfresh.held]
  · rw [FallibleWriter.new, horder]
    exact hfresh.opened id fun hnone ↦ hid ((hconfigured id).2.2.2.mpr hnone)
  · exact fun hnone ↦ hfresh.global ((hconfigured none).2.2.2.mp hnone)
  · simp [FallibleWriter.new]

/-- In a run whose writes fail only where nothing of them was accepted and no flush is waiting,
whose lines are envelopes where there are several files, and in which no flush is received while
the lock is poisoned, the events are written in order and once, and a flush is acknowledged when
all before it is written. -/
theorem delivers_of_sound (crc32 : List UInt8 → UInt32) (sha256 : List UInt8 → String)
    (json : EnvelopeJson) {store : FallibleStore} (hfresh : store.Fresh) (batchSize : ℕ)
    {actions : List WriterAction}
    (hsound : EachStep (step crc32 sha256 json) (Sound json) (new store batchSize) actions) :
    Always (step crc32 sha256 json) (Delivers crc32 json) (new store batchSize) actions := by
  have hinv : Always (step crc32 sha256 json)
      (fun w ↦ ∃ received handed stored, Inv crc32 json w received handed stored)
      (new store batchSize) actions := by
    refine EachStep.always ?_ ⟨[], [], _, Inv.new hfresh batchSize⟩ hsound
    rintro w a next ⟨received, handed, stored, h⟩ hsound hstep
    exact h.step hsound hstep
  exact hinv.mono fun w ⟨received, handed, stored, h⟩ ↦ h.delivers

/-! ### Runs that fail -/

section Failures

/-- A store to which nothing was written. -/
def sampleStore (backend : Backend) : FallibleStore where
  backend
  stores := fun id ↦
    if id = none then some ⟨LogStorage.empty 1000, none, true⟩ else none
  openIds := []
  lastEventHash := none
  enableHashChain := true
  chainByDefault := true
  flushEvery := 1
  pendingSinceFlush := 0

theorem fresh_sampleStore (backend : Backend) : (sampleStore backend).Fresh := by
  have hstores : ∀ id, (sampleStore backend).stores id =
      if id = none then some ⟨LogStorage.empty 1000, none, true⟩ else none := fun _ ↦ rfl
  refine ⟨fun id ↦ ?_, fun id ↦ ?_, fun id ↦ ?_, fun id hid ↦ ?_, by simp [hstores]⟩
  · rw [FallibleStore.log, hstores]
    split_ifs <;> rfl
  · rw [FallibleStore.held, hstores]
    split_ifs <;> rfl
  · rw [FallibleStore.batch, hstores]
    split_ifs <;> rfl
  · rw [hstores] at hid
    split_ifs at hid with hnone
    · rw [hnone]
      cases backend with
      | single => exact List.mem_cons_self
      | multi => exact List.mem_cons_self
    · exact absurd rfl hid

/-- A step in which a write ends like this. -/
def write (outcome : WriteOutcome) : WriterAction := .work ⟨none, outcome, []⟩

/-- An event and a flush are sent and received, and the event is handed to the store. -/
def eventAndFlush : List WriterAction :=
  [.send (.event "a"), .send (.flush 1), .receive, .receive, write (.written true),
    write (.written true)]

/-- An event is written with no error, up to `sync_all`, and is written again with the next
flush. -/
def failedSync : List WriterAction :=
  [.send (.event "a"), .receive, .timeout, write (.written true), write (.written true),
    write (.failed 11 11), .send (.flush 1), .receive, write (.written true), write (.written true),
    write (.written true)]

theorem lineBytes_ne_nil (crc32 : List UInt8 → UInt32) {events : List String} (h : events ≠ []) :
    LogStorage.lineBytes crc32 events ≠ [] := by
  obtain ⟨event, rest, rfl⟩ := List.exists_cons_of_ne_nil h
  unfold LogStorage.lineBytes utf8 FileStorage.eventLines
  rw [List.flatMap_cons, List.flatMap_append]
  refine List.append_ne_nil_of_left_ne_nil ?_ _
  rw [FileStorage.eventLine, List.flatMap_append]
  exact List.append_ne_nil_of_right_ne_nil _ (by decide)

/-- What is looked at where a run leads; `before` has the texts before the flush with the number
one, `waiting` those that were not handed to the store. -/
structure Seen where
  backend : Backend
  acknowledged : List ℕ
  before : List String
  sent : List String
  waiting : List String
  log : List UInt8
  batch : List String
  deriving DecidableEq

def seen (w : FallibleWriter) : Seen where
  backend := w.store.backend
  acknowledged := w.acknowledged
  before := texts EnvelopeJson.ofFormat (w.sent.take 1)
  sent := texts EnvelopeJson.ofFormat w.sent
  waiting := w.buffer ++ texts EnvelopeJson.ofFormat w.channel
  log := w.store.log none
  batch := w.store.batch none

abbrev sampleStep : FallibleWriter → WriterAction → Option FallibleWriter :=
  step (fun _ ↦ 0) (fun _ ↦ "") EnvelopeJson.ofFormat

abbrev SampleDelivers : FallibleWriter → Prop := Delivers (fun _ ↦ 0) EnvelopeJson.ofFormat

/-- A flush is acknowledged after a write that failed; an event is written twice after a flush that
failed; and an event that is no envelope is lost where there are several files. -/
theorem failed_writes_ignored :
    (¬ ∀ actions, Always sampleStep SampleDelivers (new (sampleStore .single) 10) actions) ∧
    (¬ Always sampleStep SampleDelivers (new (sampleStore .single) 10) failedSync) ∧
    ¬ Always sampleStep SampleDelivers (new (sampleStore .multi) 10)
      (eventAndFlush ++ [write (.written true)]) := by
  refine ⟨fun h ↦ ?_, fun h ↦ ?_, fun h ↦ ?_⟩
  · have hrun : (exec sampleStep (new (sampleStore .single) 10)
        (eventAndFlush ++ [write (.failed 0 0)])).map seen =
          some ⟨.single, [1], ["a"], ["a"], [], [], ["a"]⟩ := by decide
    obtain ⟨w, hexec, hseen⟩ := Option.map_eq_some_iff.mp hrun
    obtain ⟨handed, stored, hdelivered⟩ := (h _).exec hexec
    obtain ⟨hbackend, hacknowledged, hbefore, -, -, hlog, -⟩ := Seen.mk.inj hseen
    have hlength := hdelivered.acknowledged 1 (by rw [hacknowledged]; exact List.mem_cons_self) none
    have hbytes := hdelivered.stores.log none
    rw [hlog] at hbytes
    have hstored : stored none = [] := by
      by_contra hne
      exact lineBytes_ne_nil _ hne hbytes.symm
    rw [hbefore, hbackend, hstored] at hlength
    exact absurd hlength (by decide)
  · have hrun : (exec sampleStep (new (sampleStore .single) 10) failedSync).map seen =
        some ⟨.single, [1], ["a"], ["a"], [], LogStorage.lineBytes (fun _ ↦ 0) ["a", "a"], []⟩ := by
      decide
    obtain ⟨w, hexec, hseen⟩ := Option.map_eq_some_iff.mp hrun
    obtain ⟨handed, stored, hdelivered⟩ := h.exec hexec
    obtain ⟨hbackend, -, -, hsent, hwaiting, hlog, hbatch⟩ := Seen.mk.inj hseen
    have horder := hdelivered.inOrder
    rw [hsent, List.append_assoc, hwaiting, List.append_nil] at horder
    have hevents := hdelivered.stores.events none
    rw [hbatch, List.append_nil, hbackend, ← horder] at hevents
    have hstored : stored none = ["a"] := by
      obtain ⟨line, rest, hline, hrest, heq⟩ := List.forall₂_cons_left_iff.mp hevents
      rw [heq, List.forall₂_nil_left_iff.mp hrest]
      exact congrArg (fun line ↦ [line]) hline
    have hbytes := hdelivered.stores.log none
    rw [hlog, hstored] at hbytes
    exact absurd hbytes (by decide)
  · have hrun : (exec sampleStep (new (sampleStore .multi) 10)
        (eventAndFlush ++ [write (.written true)])).map seen =
          some ⟨.multi, [], ["a"], ["a"], [], [], []⟩ := by decide
    obtain ⟨w, hexec, hseen⟩ := Option.map_eq_some_iff.mp hrun
    obtain ⟨handed, stored, hdelivered⟩ := h.exec hexec
    obtain ⟨hbackend, -, -, hsent, hwaiting, -, -⟩ := Seen.mk.inj hseen
    have horder := hdelivered.inOrder
    rw [hsent, List.append_assoc, hwaiting, List.append_nil] at horder
    have hroute := hdelivered.stores.routes "a" (by rw [← horder]; exact List.mem_cons_self)
    rw [hbackend] at hroute
    exact hroute (by decide)

/-- A run in which the flush is acknowledged behind the event. -/
theorem delivers_of_sound_eventAndFlush :
    Always sampleStep SampleDelivers (new (sampleStore .single) 10)
      (eventAndFlush ++ [write (.written true), write (.written true)]) := by
  refine delivers_of_sound _ _ _ (fresh_sampleStore .single) 10 ?_
  refine EachStep.cons rfl trivial ?_
  refine EachStep.cons rfl trivial ?_
  refine EachStep.cons rfl (fun _ _ _ ↦ rfl) ?_
  refine EachStep.cons rfl (fun _ _ _ ↦ rfl) ?_
  refine EachStep.cons rfl (Or.inl trivial) ?_
  refine EachStep.cons rfl trivial ?_
  refine EachStep.cons rfl (Or.inr (Or.inl rfl)) ?_
  exact EachStep.cons rfl trivial trivial

end Failures

end FallibleWriter

end Lithair.Engine
