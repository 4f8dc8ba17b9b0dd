import Lithair.Engine.HashChain
import Lithair.Engine.Rotation
import Lithair.Lib.JsonText

/-!
# The event store over a file

`EventStore` of `engine/events.rs` in its single-file mode with JSON lines: the envelope that
`append_envelope` chains goes to the file as a line, the store keeps the last event's hash and the
number of events, and a store that is opened reads both from the file. SHA-256, the CRC-32 and
`serde_json` are parameters; of `serde_json` it is used that an envelope is written on one line and
reads back.

`Holds` is the refinement: the file has the lines of the log of `EventStore`, and the store the
state of its chain. Every append, flush and reopening keeps it, so `verify_chain` sees the chain of
`chained_ofAppends` (`fully_verified`).
-/

namespace Lithair.Engine

open Lithair.Lib Lithair.Lib.JsonText Lithair.Lib.Run

/-! ### The text of an envelope -/

/-- What is used of `serde_json`. -/
structure EnvelopeJson where
  render : EventEnvelope → String
  parse : String → Option EventEnvelope
  parse_render : ∀ envelope, parse (render envelope) = some envelope
  oneLine : ∀ envelope, OneLine (render envelope)

section Json

/-- The end of an object. -/
def endFormat : Format Unit := .mark ['}']

theorem endFormat_not_key (key : List Char) (b : Unit) (rest : List Char) :
    ¬ ',' :: key <+: endFormat.write b ++ rest := by
  show ¬ _ <+: '}' :: rest
  rw [List.cons_prefix_cons]
  exact fun h ↦ absurd h.1 (by decide)

/-- The hash of the event before, which is left out when there is none. -/
def previousHashFormat : Format (Option String × Unit) :=
  .optionally (',' :: "\"previous_hash\":".toList) .text endFormat (endFormat_not_key _)

theorem previousHashFormat_not_key (b : Option String × Unit) (rest : List Char) :
    ¬ ',' :: "\"event_hash\":".toList <+: previousHashFormat.write b ++ rest := by
  obtain ⟨previousHash, end_⟩ := b
  cases previousHash with
  | none => exact endFormat_not_key _ end_ rest
  | some hash =>
    show ¬ ',' :: '"' :: 'e' :: _ <+: ',' :: '"' :: 'p' :: _
    simp only [List.cons_prefix_cons]
    exact fun h ↦ absurd h.2.2.1 (by decide)

/-- The hashes, which are left out when there are none. -/
def hashesFormat : Format (Option String × Option String × Unit) :=
  .optionally (',' :: "\"event_hash\":".toList) .text previousHashFormat previousHashFormat_not_key

/-- The object of an envelope. -/
def envelopeFormat : Format EventEnvelope :=
  ((Format.behind "\x7b\"event_type\":".toList .text).andThen <|
    (Format.behind ",\"event_id\":".toList .text).andThen <|
    (Format.behind ",\"timestamp\":".toList .number).andThen <|
    (Format.behind "\"payload\":".toList .text).andThen <|
    (Format.behind ",\"aggregate_id\":".toList .nullable).andThen hashesFormat).map
    (fun (eventType, eventId, timestamp, payload, aggregateId, eventHash, previousHash, _) ↦
      ⟨eventType, eventId, timestamp, payload, aggregateId, eventHash, previousHash⟩)
    (fun e ↦ (e.eventType, e.eventId, e.timestamp, e.payload, e.aggregateId, e.eventHash,
      e.previousHash, ()))
    fun _ ↦ rfl

theorem noLineFeed_hashesFormat : hashesFormat.NoLineFeed :=
  Format.noLineFeed_text.optionally
    (Format.noLineFeed_text.optionally (Format.noLineFeed_mark (by decide)) (by decide)
      (endFormat_not_key _)) (by decide) previousHashFormat_not_key

theorem noLineFeed_envelopeFormat : envelopeFormat.NoLineFeed :=
  ((Format.noLineFeed_text.behind (by decide)).andThen <|
    (Format.noLineFeed_text.behind (by decide)).andThen <|
    (Format.noLineFeed_number.behind (by decide)).andThen <|
    (Format.noLineFeed_text.behind (by decide)).andThen <|
    (Format.noLineFeed_nullable.behind (by decide)).andThen noLineFeed_hashesFormat).map _

theorem endsIn_envelopeFormat : envelopeFormat.EndsIn '}' := by
  have hend : endFormat.EndsIn '}' := fun _ ↦ ⟨[], rfl⟩
  have hhashes : hashesFormat.EndsIn '}' :=
    (hend.optionally _ (endFormat_not_key _)).optionally _ previousHashFormat_not_key
  exact (((((hhashes.andThen _).andThen _).andThen _).andThen _).andThen _).map _

/-- The text that the derived serializer writes. -/
def EnvelopeJson.ofFormat : EnvelopeJson where
  render := envelopeFormat.toText
  parse := envelopeFormat.fromText
  parse_render := envelopeFormat.fromText_toText
  oneLine := by
    intro envelope
    obtain ⟨front, hfront⟩ := endsIn_envelopeFormat envelope
    have htext : (envelopeFormat.toText envelope).toList = front ++ ['}'] := by
      rw [Format.toText, String.toList_ofList, hfront]
    refine ⟨fun hempty ↦ ?_, ?_, ?_⟩
    · rw [hempty] at htext
      exact absurd htext.symm (by simp)
    · rw [Format.toText, String.toList_ofList]
      exact noLineFeed_envelopeFormat envelope
    · rw [htext, List.getLast?_concat]
      decide

end Json

namespace EnvelopeJson

variable (json : EnvelopeJson) (envelopes : List EventEnvelope)

/-- The lines of envelopes are read back from a file. -/
theorem readEvents_eventLines (crc32 : List UInt8 → UInt32) :
    readEvents crc32 (FileStorage.eventLines crc32 true (envelopes.map json.render)) =
      some (envelopes.map json.render) := by
  refine FileStorage.readEvents_eventLines fun event hevent ↦ ?_
  obtain ⟨envelope, -, rfl⟩ := List.mem_map.mp hevent
  exact json.oneLine envelope

theorem filterMap_parse_render : (envelopes.map json.render).filterMap json.parse = envelopes := by
  rw [List.filterMap_map]
  exact (List.filterMap_congr fun e _ ↦ json.parse_render e).trans List.filterMap_some

theorem mapM_parse_render : (envelopes.map json.render).mapM json.parse = some envelopes := by
  induction envelopes with
  | nil => rfl
  | cons envelope rest ih =>
    rw [List.map_cons, List.mapM_cons, json.parse_render, ih]
    rfl

end EnvelopeJson

/-! ### The store -/

/-- With the chain enabled, an envelope without a hash names the last hash and gets its own. -/
def EventEnvelope.link (sha256 : List UInt8 → String) (enableHashChain : Bool)
    (lastEventHash : Option String) (envelope : EventEnvelope) : EventEnvelope :=
  if enableHashChain ∧ envelope.eventHash.isNone then
    let chained := { envelope with previousHash := lastEventHash }
    { chained with eventHash := some (chained.computeHash sha256) }
  else envelope

/-- The storage with what the store keeps in memory. -/
structure FileEventStore where
  storage : FileStorage
  eventsCount : ℕ
  pendingSinceFlush : ℕ
  flushEvery : ℕ
  lastEventHash : Option String
  enableHashChain : Bool

namespace FileEventStore

variable (crc32 : List UInt8 → UInt32) (sha256 : List UInt8 → String) (json : EnvelopeJson)

/-- The envelopes of a storage; a line that is none is left out. -/
def envelopesOf (storage : FileStorage) : Option (List EventEnvelope) :=
  (storage.readAllEvents crc32).map fun lines ↦ lines.filterMap json.parse

def loadLastEventHash (storage : FileStorage) : Option (Option String) :=
  (envelopesOf crc32 json storage).map fun events ↦
    events.getLast?.bind EventEnvelope.eventHash

/-- Open a store over the files of a storage, with the hash chain enabled. There is no result where
the reader of a line panics. -/
def new (storage : FileStorage) : Option FileEventStore :=
  (storage.readAllEvents crc32).bind fun lines ↦
    (loadLastEventHash crc32 json storage).map fun lastEventHash ↦
      { storage
        eventsCount := lines.length
        pendingSinceFlush := 0
        flushEvery := 1
        lastEventHash
        enableHashChain := true }

def getAllEnvelopes (store : FileEventStore) : Option (List EventEnvelope) :=
  envelopesOf crc32 json store.storage

def eventCount (store : FileEventStore) : ℕ := store.eventsCount

def flush (store : FileEventStore) : FileEventStore :=
  { store with
    storage := store.storage.flushEvents crc32
    pendingSinceFlush := 0 }

/-- The envelope that goes to the file. -/
def envelopeToPersist (store : FileEventStore) (envelope : EventEnvelope) : EventEnvelope :=
  envelope.link sha256 store.enableHashChain store.lastEventHash

def appendEnvelope (store : FileEventStore) (envelope : EventEnvelope) : FileEventStore :=
  let persisted := store.envelopeToPersist sha256 envelope
  let store := { store with
    storage := store.storage.appendEvent crc32 (json.render persisted)
    lastEventHash := if store.enableHashChain then persisted.eventHash else store.lastEventHash
    eventsCount := store.eventsCount + 1
    pendingSinceFlush := store.pendingSinceFlush + 1 }
  if 0 < store.flushEvery ∧ store.flushEvery ≤ store.pendingSinceFlush then store.flush crc32
  else store

/-- A store that is dropped writes its batch. -/
def reopen (store : FileEventStore) : Option FileEventStore :=
  new crc32 json (store.storage.flushBatch crc32).reopen

/-- Verification reads the files. -/
def verifyChain (store : FileEventStore) : Option ChainVerificationResult :=
  (store.getAllEnvelopes crc32 json).map (Engine.verifyChain sha256)

/-! ### What the file holds -/

/-- The files hold the lines of the envelopes, and there is no segment and no batch. -/
structure FileHolds (storage : FileStorage) (envelopes : List EventEnvelope) : Prop where
  events : storage.events = FileStorage.eventLines crc32 true (envelopes.map json.render)
  rotated : storage.rotated = []
  eventBatch : storage.eventBatch = []
  maxLogFileSize : storage.maxLogFileSize = 0
  enableChecksums : storage.enableChecksums = true

variable {crc32 sha256 json} {storage : FileStorage} {store : FileEventStore}
  {envelopes : List EventEnvelope} {envelope : EventEnvelope}

theorem FileHolds.readAllEvents (h : FileHolds crc32 json storage envelopes) :
    storage.readAllEvents crc32 = some (envelopes.map json.render) := by
  have hread : readEvents crc32 storage.events = some (envelopes.map json.render) := by
    rw [h.events, json.readEvents_eventLines]
  rw [FileStorage.readAllEvents, h.rotated, hread]
  rfl

theorem FileHolds.envelopesOf (h : FileHolds crc32 json storage envelopes) :
    envelopesOf crc32 json storage = some envelopes := by
  rw [FileEventStore.envelopesOf, h.readAllEvents, Option.map_some, json.filterMap_parse_render]

theorem FileHolds.new (h : FileHolds crc32 json storage envelopes) :
    FileEventStore.new crc32 json storage = some
      { storage
        eventsCount := envelopes.length
        pendingSinceFlush := 0
        flushEvery := 1
        lastEventHash := envelopes.getLast?.bind EventEnvelope.eventHash
        enableHashChain := true } := by
  rw [FileEventStore.new, h.readAllEvents, loadLastEventHash, h.envelopesOf, Option.bind_some,
    Option.map_some, Option.map_some, List.length_map]

theorem FileHolds.flushBatch (h : FileHolds crc32 json storage envelopes) :
    storage.flushBatch crc32 = storage := if_pos h.eventBatch

theorem FileHolds.reopen (h : FileHolds crc32 json storage envelopes) :
    FileHolds crc32 json storage.reopen envelopes :=
  ⟨h.events, h.rotated, rfl, h.maxLogFileSize, rfl⟩

/-- An event that is appended and flushed is behind the others. -/
theorem FileHolds.appendEvent (h : FileHolds crc32 json storage envelopes)
    (envelope : EventEnvelope) :
    FileHolds crc32 json
      ((storage.appendEvent crc32 (json.render envelope)).flushEvents crc32)
      (envelopes ++ [envelope]) := by
  obtain ⟨hsame, hwritten⟩ :=
    FileStorage.appendEvent_spec crc32 h.maxLogFileSize (json.render envelope)
  have hrotate := hsame.maxLogFileSize.trans h.maxLogFileSize
  rw [FileStorage.flushEvents, FileStorage.flushBatch_eq crc32 hrotate]
  refine ⟨?_, hsame.rotated.trans h.rotated, rfl, hrotate,
    hsame.enableChecksums.trans h.enableChecksums⟩
  show (storage.appendEvent crc32 (json.render envelope)).written crc32 = _
  rw [hwritten, FileStorage.written, h.eventBatch, h.enableChecksums, h.events, List.map_append,
    FileStorage.eventLines_append]
  simp [FileStorage.eventLines]

/-- The store is at rest over a file that holds the envelopes. -/
structure Rests (crc32 : List UInt8 → UInt32) (json : EnvelopeJson) (store : FileEventStore)
    (envelopes : List EventEnvelope) : Prop where
  file : FileHolds crc32 json store.storage envelopes
  pendingSinceFlush : store.pendingSinceFlush = 0
  flushEvery : store.flushEvery = 1

variable (sha256) in
/-- Each append is flushed. -/
theorem Rests.appendEnvelope (h : Rests crc32 json store envelopes) (envelope : EventEnvelope) :
    let persisted := store.envelopeToPersist sha256 envelope
    let next := store.appendEnvelope crc32 sha256 json envelope
    Rests crc32 json next (envelopes ++ [persisted]) ∧ next.eventsCount = store.eventsCount + 1 ∧
      next.enableHashChain = store.enableHashChain ∧
      next.lastEventHash =
        if store.enableHashChain then persisted.eventHash else store.lastEventHash := by
  intro persisted next
  have hflush : 0 < store.flushEvery ∧ store.flushEvery ≤ store.pendingSinceFlush + 1 := by
    rw [h.flushEvery, h.pendingSinceFlush]
    exact ⟨Nat.one_pos, le_rfl⟩
  have hnext : next = { store with
      storage := (store.storage.appendEvent crc32 (json.render persisted)).flushEvents crc32
      lastEventHash := if store.enableHashChain then persisted.eventHash else store.lastEventHash
      eventsCount := store.eventsCount + 1
      pendingSinceFlush := 0 } := if_pos hflush
  rw [hnext]
  exact ⟨⟨h.file.appendEvent persisted, rfl, h.flushEvery⟩, rfl, rfl, rfl⟩

/-! ### Runs -/

/-- A call: an append, a flush, or the store dropped and opened again. -/
inductive StoreCall
  | append (envelope : EventEnvelope)
  | flush
  | reopen

/-- The envelopes that calls append. -/
def appendsOf (calls : List StoreCall) : List EventEnvelope :=
  calls.filterMap fun c ↦ match c with
    | .append envelope => some envelope
    | .flush | .reopen => none

variable (crc32 sha256 json) in
def call (store : FileEventStore) : StoreCall → Option FileEventStore
  | .append envelope => some (store.appendEnvelope crc32 sha256 json envelope)
  | .flush => some (store.flush crc32)
  | .reopen => store.reopen crc32 json

variable (crc32 json) in
/-- The store holds the log. -/
structure Holds (store : FileEventStore) (log : EventStore) : Prop where
  rests : Rests crc32 json store log.events
  eventsCount : store.eventsCount = log.events.length
  lastEventHash : store.lastEventHash = log.lastEventHash
  enableHashChain : store.enableHashChain = log.enableHashChain

variable {log : EventStore} {c : StoreCall} {calls : List StoreCall}

theorem Holds.appendEnvelope (h : Holds crc32 json store log) (envelope : EventEnvelope) :
    Holds crc32 json (store.appendEnvelope crc32 sha256 json envelope)
      (log.appendEnvelope sha256 envelope .written).1 := by
  have hpersisted : store.envelopeToPersist sha256 envelope = log.chained sha256 envelope := by
    rw [envelopeToPersist, EventEnvelope.link, EventStore.chained, h.enableHashChain,
      h.lastEventHash]
  obtain ⟨hrests, hcount, henabled, hlast⟩ := h.rests.appendEnvelope sha256 envelope
  rw [hpersisted] at hrests hlast
  refine ⟨hrests, ?_, ?_, henabled.trans h.enableHashChain⟩
  · show _ = (log.events ++ [_]).length
    rw [hcount, h.eventsCount, List.length_append, List.length_singleton]
  · rw [hlast, h.enableHashChain, h.lastEventHash]
    rfl

/-- A flush finds nothing to write. -/
theorem Holds.flush (h : Holds crc32 json store log) :
    Holds crc32 json (store.flush crc32) log := by
  have hstorage : (store.flush crc32).storage = store.storage := h.rests.file.flushBatch
  refine ⟨⟨?_, rfl, h.rests.flushEvery⟩, h.eventsCount, h.lastEventHash, h.enableHashChain⟩
  rw [hstorage]
  exact h.rests.file

/-- The last hash is read back from the file. -/
theorem Holds.reopen (h : Holds crc32 json store log) (hchain : log.ChainState sha256) :
    ∃ next, store.reopen crc32 json = some next ∧ Holds crc32 json next log := by
  have hlast : log.events.getLast?.bind EventEnvelope.eventHash = log.lastEventHash := by
    rw [hchain.last, lastHash_eq_getLast?]
  have hfile := h.rests.file.reopen
  rw [FileEventStore.reopen, h.rests.file.flushBatch, hfile.new, hlast]
  exact ⟨_, rfl, ⟨hfile, rfl, rfl⟩, rfl, rfl, hchain.enabled.symm⟩

theorem appendsOf_cons (c : StoreCall) (calls : List StoreCall) :
    appendsOf (c :: calls) = appendsOf [c] ++ appendsOf calls :=
  List.filterMap_append (l := [c])

/-- Calls with envelopes without hashes succeed, and the store holds the chain of them. -/
theorem Holds.exec (h : Holds crc32 json store log) (hchain : log.ChainState sha256)
    (hnew : ∀ envelope ∈ appendsOf calls, envelope.eventHash = none) :
    ∃ next log' : _, Run.exec (call crc32 sha256 json) store calls = some next ∧
      Holds crc32 json next log' ∧ log'.ChainState sha256 ∧
      log'.events.length = log.events.length + (appendsOf calls).length := by
  induction calls generalizing store log with
  | nil => exact ⟨store, log, rfl, h, hchain, rfl⟩
  | cons c rest ih =>
    rw [appendsOf_cons] at hnew ⊢
    have hrest : ∀ envelope ∈ appendsOf rest, envelope.eventHash = none := fun envelope hmem ↦
      hnew envelope (List.mem_append_right _ hmem)
    cases c with
    | append envelope =>
      have henvelope : envelope.eventHash = none :=
        hnew envelope (List.mem_append_left _ List.mem_cons_self)
      obtain ⟨next, log', hexec, hnext, hchain', hlength⟩ :=
        ih (h.appendEnvelope envelope) (hchain.appendEnvelope henvelope .written) hrest
      refine ⟨next, log', hexec, hnext, hchain', ?_⟩
      rw [hlength, List.length_append]
      show (log.events ++ [_]).length + _ = _ + (1 + _)
      rw [List.length_append, List.length_singleton, Nat.add_assoc]
    | flush => exact ih h.flush hchain hrest
    | reopen =>
      obtain ⟨opened, hopened, hholds⟩ := h.reopen hchain
      obtain ⟨next, log', hexec, hnext⟩ := ih hholds hchain hrest
      exact ⟨next, log', Run.exec_cons_eq_some.mpr ⟨opened, hopened, hexec⟩, hnext⟩

/-- Whatever calls append envelopes without hashes to a new store, with flushes and reopenings
anywhere between them: the chain is verified with every event, their number is the number of
appends, and each envelope names the hash of the one before it. -/
theorem fully_verified (crc32 : List UInt8 → UInt32) (sha256 : List UInt8 → String)
    (json : EnvelopeJson) {calls : List StoreCall}
    (hnew : ∀ envelope ∈ appendsOf calls, envelope.eventHash = none) :
    ∃ opened store envelopes result, new crc32 json .empty = some opened ∧
      Run.exec (call crc32 sha256 json) opened calls = some store ∧
      store.getAllEnvelopes crc32 json = some envelopes ∧
      store.verifyChain crc32 sha256 json = some result ∧
      result.isValid = true ∧ result.isFullyVerified = true ∧
      result.verifiedEvents = result.totalEvents ∧
      result.totalEvents = (appendsOf calls).length ∧
      store.eventCount = (appendsOf calls).length ∧
      ∀ i (hi : i + 1 < envelopes.length), envelopes[i + 1].previousHash = envelopes[i].eventHash ∧
        envelopes[i].eventHash ≠ none := by
  have hempty : FileHolds crc32 json .empty [] := ⟨rfl, rfl, rfl, rfl, rfl⟩
  have hstart : Holds crc32 json
      ⟨.empty, 0, 0, 1, none, true⟩ ⟨[], none, true⟩ := ⟨⟨hempty, rfl, rfl⟩, rfl, rfl, rfl⟩
  have hchain : EventStore.ChainState sha256 ⟨[], none, true⟩ :=
    EventStore.chained_ofAppends fun _ hmem ↦ absurd hmem List.not_mem_nil
  obtain ⟨store, log, hexec, hholds, hchained, hlength⟩ := hstart.exec hchain hnew
  have hcount : log.events.length = (appendsOf calls).length := hlength.trans (Nat.zero_add _)
  obtain ⟨hvalid, hfull, hverified, htotal⟩ := verifyChain_of_chained hchained.chained
  have hread : store.getAllEnvelopes crc32 json = some log.events := hholds.rests.file.envelopesOf
  refine ⟨_, store, log.events, Engine.verifyChain sha256 log.events, hempty.new, hexec, hread, ?_,
    hvalid, hfull, hverified.trans htotal.symm, htotal.trans hcount,
    hholds.eventsCount.trans hcount, fun i hi ↦ ⟨HashChain.link_getElem hchained.chained.linked hi,
      (hchained.chained.hashed _ (List.getElem_mem _)).ne_none⟩⟩
  rw [FileEventStore.verifyChain, hread, Option.map_some]

theorem fully_verified_twoAppends :
    ∃ opened store envelopes result, new (fun _ ↦ 0) .ofFormat .empty = some opened ∧
      Run.exec (call (fun _ ↦ 0) (fun _ ↦ "00") .ofFormat) opened
        [.append ⟨"created", "e1", 1, "{}", none, none, none⟩, .flush, .reopen,
          .append ⟨"updated", "e2", 2, "{}", some "a", none, none⟩] = some store ∧
      store.getAllEnvelopes (fun _ ↦ 0) .ofFormat = some envelopes ∧
      store.verifyChain (fun _ ↦ 0) (fun _ ↦ "00") .ofFormat = some result ∧
      result.isFullyVerified = true ∧ result.totalEvents = 2 := by
  have hnew : ∀ envelope ∈ appendsOf
      [.append ⟨"created", "e1", 1, "{}", none, none, none⟩, .flush, .reopen,
        .append ⟨"updated", "e2", 2, "{}", some "a", none, none⟩], envelope.eventHash = none := by
    intro envelope hmem
    rcases List.mem_cons.mp hmem with rfl | hmem
    · rfl
    · rw [List.mem_singleton.mp hmem]
  obtain ⟨opened, store, envelopes, result, hopened, hexec, hread, hresult, -, hfull, -, htotal,
    -⟩ := fully_verified (fun _ ↦ 0) (fun _ ↦ "00") .ofFormat hnew
  exact ⟨opened, store, envelopes, result, hopened, hexec, hread, hresult, hfull, htotal⟩

end FileEventStore

end Lithair.Engine
