import Lithair.Engine.BinaryFraming
import Lithair.Engine.FileEventStore
import Lithair.Lib.Codec

/-!
# The event store over one log, in both formats

`EventStore` of `engine/events.rs` over a `FileStorage` with its files as bytes: an envelope goes to
the log as a line of JSON, through the batch, or as a binary event, at once. Beside the log there is
the index, with the place of each envelope of an aggregate, which is the size of the log when the
envelope is appended. What the optimised writer has taken waits in its thread, which does not rename
the log. SHA-256, the CRC-32, `serde_json` and `bincode` are parameters.

Of `bincode` it is used that an envelope with both of its hashes is read back. A hash that an
envelope does not have is left out by the writer, not by the reader, so that of another envelope
there is nothing to read.
-/

namespace Lithair.Engine

open Lithair.Lib

/-! ### The bytes of an envelope -/

/-- The envelope has both of its hashes. -/
def EventEnvelope.Complete (envelope : EventEnvelope) : Prop :=
  envelope.eventHash ≠ none ∧ envelope.previousHash ≠ none

instance (envelope : EventEnvelope) : Decidable envelope.Complete :=
  inferInstanceAs (Decidable (envelope.eventHash ≠ none ∧ envelope.previousHash ≠ none))

/-- What is used of `bincode`. -/
structure EnvelopeBincode where
  encode : EventEnvelope → List UInt8
  decode : List UInt8 → Option EventEnvelope
  encode_ne_nil : ∀ envelope, encode envelope ≠ []
  decode_encode : ∀ envelope, envelope.Complete → decode (encode envelope) = some envelope
  decode_incomplete : ∀ envelope, ¬ envelope.Complete → decode (encode envelope) = none

section Bincode

/-- The fields that are always written. -/
def fieldsCodec : Codec (String × String × ℕ × String × Option String) :=
  Codec.text.andThen <| Codec.text.andThen <| Codec.number.andThen <|
    Codec.text.andThen Codec.text.optional

/-- An envelope as the derived reader expects it. -/
def envelopeCodec : Codec EventEnvelope :=
  (fieldsCodec.andThen (Codec.text.optional.andThen Codec.text.optional)).map
    (fun ((eventType, eventId, timestamp, payload, aggregateId), eventHash, previousHash) ↦
      ⟨eventType, eventId, timestamp, payload, aggregateId, eventHash, previousHash⟩)
    (fun e ↦ ((e.eventType, e.eventId, e.timestamp, e.payload, e.aggregateId), e.eventHash,
      e.previousHash))
    fun _ ↦ rfl

def encodeFields (e : EventEnvelope) : List UInt8 :=
  fieldsCodec.write (e.eventType, e.eventId, e.timestamp, e.payload, e.aggregateId)

/-- A field that the derived writer leaves out when there is nothing in it. -/
def encodeHash : Option String → List UInt8
  | none => []
  | some hash => Codec.text.optional.write (some hash)

def encodeEnvelope (e : EventEnvelope) : List UInt8 :=
  encodeFields e ++ (encodeHash e.eventHash ++ encodeHash e.previousHash)

theorem write_envelopeCodec (e : EventEnvelope) : envelopeCodec.write e =
    encodeFields e ++
      (Codec.text.optional.write e.eventHash ++ Codec.text.optional.write e.previousHash) := rfl

/-- An envelope without one of its hashes is written as a part of another one. -/
theorem encodeEnvelope_part {e : EventEnvelope} (h : ¬ e.Complete) :
    ∃ other more, envelopeCodec.write other = encodeEnvelope e ++ more ∧ more ≠ [] := by
  obtain ⟨eventType, eventId, timestamp, payload, aggregateId, eventHash, previousHash⟩ := e
  cases eventHash with
  | none =>
    cases previousHash with
    | none =>
      exact ⟨⟨eventType, eventId, timestamp, payload, aggregateId, none, none⟩, [0, 0],
        by simp [write_envelopeCodec, encodeEnvelope, encodeHash, encodeFields, Codec.optional],
        by simp⟩
    | some hash =>
      exact ⟨⟨eventType, eventId, timestamp, payload, aggregateId, some hash, none⟩, [0],
        by simp [write_envelopeCodec, encodeEnvelope, encodeHash, encodeFields, Codec.optional],
        by simp⟩
  | some hash =>
    cases previousHash with
    | none =>
      exact ⟨⟨eventType, eventId, timestamp, payload, aggregateId, some hash, none⟩, [0],
        by simp [write_envelopeCodec, encodeEnvelope, encodeHash, encodeFields, Codec.optional],
        by simp⟩
    | some previous => exact absurd ⟨Option.some_ne_none _, Option.some_ne_none _⟩ h

/-- The bytes that the derived writer and reader use. -/
def EnvelopeBincode.ofCodec : EnvelopeBincode where
  encode := encodeEnvelope
  decode := envelopeCodec.decode
  encode_ne_nil := by
    intro e hnil
    have hfields := (List.append_eq_nil_iff.mp hnil).1
    exact fieldsCodec.write_ne_nil (b := (e.eventType ++ "a", "", 0, "", none)) (by
      intro hsame
      have hlength := congrArg (fun p ↦ p.1.length) hsame
      simp at hlength) hfields
  decode_encode := by
    intro e hcomplete
    obtain ⟨eventType, eventId, timestamp, payload, aggregateId, eventHash, previousHash⟩ := e
    obtain ⟨hash, rfl⟩ := Option.ne_none_iff_exists'.mp hcomplete.1
    obtain ⟨previous, rfl⟩ := Option.ne_none_iff_exists'.mp hcomplete.2
    exact envelopeCodec.decode_write _
  decode_incomplete := by
    intro e hincomplete
    obtain ⟨other, more, hwrite, hmore⟩ := encodeEnvelope_part hincomplete
    exact envelopeCodec.decode_eq_none_of_part hwrite hmore

end Bincode

/-! ### The storage -/

/-- A storage with its index file, an aggregate id and a place in each record, and, on the optimised
path, the bytes that have not reached the log. -/
structure IndexedStorage where
  plain : PlainStorage
  asyncWriter : Option (List UInt8)
  index : List (String × ℕ)
  deriving DecidableEq

namespace IndexedStorage

variable (crc32 : List UInt8 → UInt32)

def appendEvent (s : IndexedStorage) (eventJson : String) : IndexedStorage :=
  match s.asyncWriter with
  | some waiting => { s with asyncWriter := some (waiting ++ jsonLine crc32 eventJson) }
  | none => { s with plain := s.plain.appendEvent crc32 eventJson }

def appendBinaryEventBytes (s : IndexedStorage) (data : List UInt8) : IndexedStorage :=
  match s.asyncWriter with
  | some waiting => { s with asyncWriter := some (waiting ++ (data ++ [10])) }
  | none => { s with plain := s.plain.appendBinaryEventBytes data }

/-- The thread is told to write, which it does later. -/
def flushEvents (s : IndexedStorage) : IndexedStorage :=
  match s.asyncWriter with
  | some _ => { s with plain := { s.plain with eventBatch := [] } }
  | none => { s with plain := s.plain.flushBatch crc32 }

def currentEventsSize (s : IndexedStorage) : ℕ := s.plain.files.events.length

def appendIndexEntry (s : IndexedStorage) (aggregateId : String) (offset : ℕ) : IndexedStorage :=
  { s with index := s.index ++ [(aggregateId, offset)] }

def readIndexOffsets (s : IndexedStorage) (aggregateId : String) : List ℕ :=
  s.index.filterMap fun entry ↦ if entry.1 = aggregateId then some entry.2 else none

def configureBatching (s : IndexedStorage) (maxBatchSize : ℕ) : IndexedStorage :=
  { s with plain := { s.plain with maxBatchSize } }

/-- Wait for the thread to write and to end, and empty the log. -/
def truncateEvents (s : IndexedStorage) : IndexedStorage :=
  let files := match s.asyncWriter with
    | some waiting => { s.plain.files with events := s.plain.files.events ++ waiting }
    | none => s.plain.files
  { s with
    plain := { s.plain with files := { files with events := [] } }
    asyncWriter := none }

/-- A storage over the files, on the plain path. -/
def new (files : LogFiles) (index : List (String × ℕ)) (maxLogFileSize : ℕ) : IndexedStorage :=
  ⟨.new files 1000 maxLogFileSize, none, index⟩

end IndexedStorage

/-! ### The store -/

structure SingleFileStore where
  storage : IndexedStorage
  eventsCount : ℕ
  pendingSinceFlush : ℕ
  flushEvery : ℕ
  binaryMode : Bool
  disableIndex : Bool
  lastEventHash : Option String
  enableHashChain : Bool
  deriving DecidableEq

/-- What the environment says: `LT_ENABLE_BINARY`, `LT_DISABLE_INDEX` and
`LT_DISABLE_HASH_CHAIN`. -/
structure StoreEnvironment where
  enableBinary : Bool
  disableIndex : Bool
  disableHashChain : Bool
  deriving DecidableEq

namespace SingleFileStore

variable (crc32 : List UInt8 → UInt32) (sha256 : List UInt8 → String) (json : EnvelopeJson)
  (bincode : EnvelopeBincode)

/-- The envelopes of binary events. -/
def decodeAll (events : List (List UInt8)) : List EventEnvelope :=
  events.filterMap fun line ↦ if line = [] then none else bincode.decode line

/-- The envelopes of a log. There is no result where reading it fails or panics. -/
def readEnvelopes (files : LogFiles) (binaryMode : Bool) : Option (List EventEnvelope) :=
  if binaryMode then (files.readAllEventBytes).map (decodeAll bincode)
  else (files.readAllEvents crc32).toOption.map fun lines ↦ lines.filterMap json.parse

/-- The number of the events of a log. -/
def countEvents (files : LogFiles) (binaryMode : Bool) : Option ℕ :=
  if binaryMode then (files.readAllEventBytes).map List.length
  else (files.readAllEvents crc32).toOption.map List.length

def loadLastEventHash (files : LogFiles) (binaryMode : Bool) : Option (Option String) :=
  (readEnvelopes crc32 json bincode files binaryMode).map fun events ↦
    events.getLast?.bind EventEnvelope.eventHash

/-- The number of the events and the last hash are read in the format of the argument. -/
def newWithOptions (env : StoreEnvironment) (storage : IndexedStorage) (binaryMode : Bool) :
    Option SingleFileStore :=
  (countEvents crc32 storage.plain.files binaryMode).bind fun eventsCount ↦
    (loadLastEventHash crc32 json bincode storage.plain.files binaryMode).map fun lastEventHash ↦
      { storage
        eventsCount
        pendingSinceFlush := 0
        flushEvery := 1
        binaryMode := binaryMode || env.enableBinary
        disableIndex := env.disableIndex
        lastEventHash
        enableHashChain := !env.disableHashChain }

def setBinaryMode (s : SingleFileStore) (enabled : Bool) : SingleFileStore :=
  { s with binaryMode := enabled }

def setFlushEvery (s : SingleFileStore) (count : ℕ) : SingleFileStore :=
  { s with flushEvery := count }

def configureBatching (s : SingleFileStore) (maxBatchSize : ℕ) : SingleFileStore :=
  { s with storage := s.storage.configureBatching maxBatchSize }

def flush (s : SingleFileStore) : SingleFileStore :=
  { s with
    storage := s.storage.flushEvents crc32
    pendingSinceFlush := 0 }

/-- The envelope that goes to the log. -/
def envelopeToPersist (s : SingleFileStore) (envelope : EventEnvelope) : EventEnvelope :=
  envelope.link sha256 s.enableHashChain s.lastEventHash

/-- Write the envelope in the format of the store. -/
def persist (s : SingleFileStore) (envelope : EventEnvelope) : IndexedStorage :=
  if s.binaryMode then s.storage.appendBinaryEventBytes (bincode.encode envelope)
  else s.storage.appendEvent crc32 (json.render envelope)

/-- The store with the envelope in its storage, its place in the index, and the hash that the next
one will name. -/
def putEnvelope (s : SingleFileStore) (envelope : EventEnvelope) : SingleFileStore :=
  let persisted := s.envelopeToPersist sha256 envelope
  let offset := s.storage.currentEventsSize
  let storage := s.persist crc32 json bincode persisted
  { s with
    storage := match persisted.aggregateId with
      | some agg => if s.disableIndex then storage else storage.appendIndexEntry agg offset
      | none => storage
    lastEventHash := if s.enableHashChain then persisted.eventHash else s.lastEventHash
    eventsCount := s.eventsCount + 1
    pendingSinceFlush := s.pendingSinceFlush + 1 }

def appendEnvelope (s : SingleFileStore) (envelope : EventEnvelope) : SingleFileStore :=
  let next := s.putEnvelope crc32 sha256 json bincode envelope
  if 0 < next.flushEvery ∧ next.flushEvery ≤ next.pendingSinceFlush then next.flush crc32 else next

/-- The envelopes that go to the log when envelopes are appended one behind the other. -/
def linkAll (enableHashChain : Bool) : Option String → List EventEnvelope → List EventEnvelope
  | _, [] => []
  | lastEventHash, envelope :: rest =>
    let persisted := envelope.link sha256 enableHashChain lastEventHash
    persisted :: linkAll enableHashChain
      (if enableHashChain then persisted.eventHash else lastEventHash) rest

/-- The envelopes that the store would write of these. -/
def persistedOf (s : SingleFileStore) (envelopes : List EventEnvelope) : List EventEnvelope :=
  linkAll sha256 s.enableHashChain s.lastEventHash envelopes

/-- The bytes of an envelope in the log. -/
def record (binaryMode : Bool) (envelope : EventEnvelope) : List UInt8 :=
  if binaryMode then binaryFrame (bincode.encode envelope)
  else jsonLine crc32 (json.render envelope)

def eventCount (s : SingleFileStore) : ℕ := s.eventsCount

def truncateEvents (s : SingleFileStore) : SingleFileStore :=
  { s with
    storage := s.storage.truncateEvents
    eventsCount := 0 }

def getAllEnvelopes (s : SingleFileStore) : Option (List EventEnvelope) :=
  readEnvelopes crc32 json bincode s.storage.plain.files s.binaryMode

def verifyChain (s : SingleFileStore) : Option ChainVerificationResult :=
  (s.getAllEnvelopes crc32 json bincode).map (Engine.verifyChain sha256)

/-- The store over an empty directory. -/
def fresh (env : StoreEnvironment) (maxLogFileSize : ℕ) (binaryMode : Bool) : SingleFileStore where
  storage := .new .empty [] maxLogFileSize
  eventsCount := 0
  pendingSinceFlush := 0
  flushEvery := 1
  binaryMode := binaryMode || env.enableBinary
  disableIndex := env.disableIndex
  lastEventHash := none
  enableHashChain := !env.disableHashChain

/-! ### What an append does -/

section Append

variable {crc32 sha256 json bincode} {s : SingleFileStore} {envelope : EventEnvelope}

theorem length_linkAll (enableHashChain : Bool) (lastEventHash : Option String)
    (envelopes : List EventEnvelope) :
    (linkAll sha256 enableHashChain lastEventHash envelopes).length = envelopes.length := by
  induction envelopes generalizing lastEventHash with
  | nil => rfl
  | cons envelope rest ih => rw [linkAll, List.length_cons, ih, List.length_cons]

@[simp] theorem aggregateId_link (enableHashChain : Bool) (lastEventHash : Option String)
    (envelope : EventEnvelope) :
    (envelope.link sha256 enableHashChain lastEventHash).aggregateId = envelope.aggregateId := by
  unfold EventEnvelope.link
  split_ifs <;> rfl

theorem link_of_new (hnew : envelope.eventHash = none) (lastEventHash : Option String) :
    (envelope.link sha256 true lastEventHash).previousHash = lastEventHash ∧
      (envelope.link sha256 true lastEventHash).Sealed sha256 := by
  have hlinked : true = true ∧ envelope.eventHash.isNone = true := by
    rw [hnew]
    exact ⟨rfl, rfl⟩
  rw [EventEnvelope.link, if_pos hlinked]
  exact ⟨rfl, rfl⟩

@[simp] theorem aggregateId_envelopeToPersist (s : SingleFileStore) (envelope : EventEnvelope) :
    (s.envelopeToPersist sha256 envelope).aggregateId = envelope.aggregateId :=
  aggregateId_link _ _ _

/-- The next append flushes. -/
def FlushDue (s : SingleFileStore) : Prop :=
  0 < s.flushEvery ∧ s.flushEvery ≤ s.pendingSinceFlush + 1

instance (s : SingleFileStore) : Decidable s.FlushDue :=
  inferInstanceAs (Decidable (0 < s.flushEvery ∧ s.flushEvery ≤ s.pendingSinceFlush + 1))

theorem appendEnvelope_eq : s.appendEnvelope crc32 sha256 json bincode envelope =
    if s.FlushDue then (s.putEnvelope crc32 sha256 json bincode envelope).flush crc32
    else s.putEnvelope crc32 sha256 json bincode envelope := rfl

variable (crc32 sha256 json bincode) in
/-- What an append leaves as it is, and the hash that the next one names. -/
theorem appendEnvelope_spec (s : SingleFileStore) (envelope : EventEnvelope) :
    let next := s.appendEnvelope crc32 sha256 json bincode envelope
    next.binaryMode = s.binaryMode ∧ next.disableIndex = s.disableIndex ∧
      next.enableHashChain = s.enableHashChain ∧ next.flushEvery = s.flushEvery ∧
      next.eventsCount = s.eventsCount + 1 ∧
      next.lastEventHash =
        if s.enableHashChain then (s.envelopeToPersist sha256 envelope).eventHash
        else s.lastEventHash := by
  intro next
  have hnext : next = if s.FlushDue then
      (s.putEnvelope crc32 sha256 json bincode envelope).flush crc32
    else s.putEnvelope crc32 sha256 json bincode envelope := appendEnvelope_eq
  rw [hnext]
  by_cases hdue : s.FlushDue
  · rw [if_pos hdue]
    exact ⟨rfl, rfl, rfl, rfl, rfl, rfl⟩
  · rw [if_neg hdue]
    exact ⟨rfl, rfl, rfl, rfl, rfl, rfl⟩

variable (crc32 json bincode) in
theorem persistedOf_cons (s : SingleFileStore) (envelope : EventEnvelope)
    (rest : List EventEnvelope) :
    s.persistedOf sha256 (envelope :: rest) = s.envelopeToPersist sha256 envelope ::
      (s.appendEnvelope crc32 sha256 json bincode envelope).persistedOf sha256 rest := by
  obtain ⟨-, -, henable, -, -, hlast⟩ := appendEnvelope_spec crc32 sha256 json bincode s envelope
  rw [persistedOf, persistedOf, henable, hlast]
  rfl

/-- The records of an envelope in the index. -/
def indexEntries (s : SingleFileStore) (envelope : EventEnvelope) : List (String × ℕ) :=
  match envelope.aggregateId with
  | some agg => if s.disableIndex then [] else [(agg, s.storage.currentEventsSize)]
  | none => []

variable (crc32 sha256 json bincode) in
theorem storage_putEnvelope (s : SingleFileStore) (envelope : EventEnvelope) :
    (s.putEnvelope crc32 sha256 json bincode envelope).storage =
      { s.persist crc32 json bincode (s.envelopeToPersist sha256 envelope) with
        index := (s.persist crc32 json bincode (s.envelopeToPersist sha256 envelope)).index ++
          s.indexEntries envelope } := by
  have haggregate : (s.envelopeToPersist sha256 envelope).aggregateId = envelope.aggregateId :=
    aggregateId_envelopeToPersist s envelope
  unfold putEnvelope indexEntries
  dsimp only
  rw [haggregate]
  generalize s.persist crc32 json bincode _ = storage
  split
  · split_ifs
    · rw [List.append_nil]
    · rfl
  · rw [List.append_nil]

theorem persist_of_plain (hplain : s.storage.asyncWriter = none) :
    s.persist crc32 json bincode envelope =
      { s.storage with
        plain :=
          if s.binaryMode then
            s.storage.plain.appendBinaryEventBytes (bincode.encode envelope)
          else s.storage.plain.appendEvent crc32 (json.render envelope) } := by
  obtain ⟨⟨plain, asyncWriter, index⟩, _⟩ := s
  obtain rfl : asyncWriter = none := hplain
  unfold persist
  split_ifs <;> rfl

theorem flush_of_plain (hplain : s.storage.asyncWriter = none) : s.flush crc32 =
    { s with
      storage := { s.storage with plain := s.storage.plain.flushBatch crc32 }
      pendingSinceFlush := 0 } := by
  obtain ⟨⟨plain, asyncWriter, index⟩, _⟩ := s
  obtain rfl : asyncWriter = none := hplain
  rfl

variable (crc32 sha256 json bincode) in
/-- The storage of an append in the format of the store, before it is flushed. -/
def plainPut (s : SingleFileStore) (envelope : EventEnvelope) : PlainStorage :=
  let persisted := s.envelopeToPersist sha256 envelope
  if s.binaryMode then s.storage.plain.appendBinaryEventBytes (bincode.encode persisted)
  else s.storage.plain.appendEvent crc32 (json.render persisted)

/-- An append on the plain path. -/
theorem appendEnvelope_of_plain (hplain : s.storage.asyncWriter = none) :
    s.appendEnvelope crc32 sha256 json bincode envelope =
      { s with
        storage :=
          { plain :=
              if s.FlushDue then
                (s.plainPut crc32 sha256 json bincode envelope).flushBatch crc32
              else s.plainPut crc32 sha256 json bincode envelope
            asyncWriter := none
            index := s.storage.index ++ s.indexEntries envelope }
        lastEventHash :=
          if s.enableHashChain then (s.envelopeToPersist sha256 envelope).eventHash
          else s.lastEventHash
        eventsCount := s.eventsCount + 1
        pendingSinceFlush := if s.FlushDue then 0 else s.pendingSinceFlush + 1 } := by
  have hput : s.putEnvelope crc32 sha256 json bincode envelope =
      { s with
        storage :=
          { plain := s.plainPut crc32 sha256 json bincode envelope
            asyncWriter := none
            index := s.storage.index ++ s.indexEntries envelope }
        lastEventHash :=
          if s.enableHashChain then (s.envelopeToPersist sha256 envelope).eventHash
          else s.lastEventHash
        eventsCount := s.eventsCount + 1
        pendingSinceFlush := s.pendingSinceFlush + 1 } := by
    have hstorage := storage_putEnvelope crc32 sha256 json bincode s envelope
    rw [persist_of_plain hplain] at hstorage
    dsimp only at hstorage
    rw [hplain] at hstorage
    unfold putEnvelope at hstorage ⊢
    dsimp only at hstorage ⊢
    rw [hstorage]
    rfl
  rw [appendEnvelope_eq, hput]
  by_cases hdue : s.FlushDue
  · simp only [if_pos hdue]
    rw [flush_of_plain rfl]
  · simp only [if_neg hdue]

variable (sha256 json) in
/-- The storage with the line of the envelope in its batch. -/
def pushed (s : SingleFileStore) (envelope : EventEnvelope) : PlainStorage :=
  { s.storage.plain with
    eventBatch := s.storage.plain.eventBatch ++
      [json.render (s.envelopeToPersist sha256 envelope)] }

/-- The next line fills the batch, or a flush is due with it. -/
def WritesBatch (s : SingleFileStore) : Prop :=
  s.storage.plain.maxBatchSize ≤ s.storage.plain.eventBatch.length + 1 ∨ s.FlushDue

instance (s : SingleFileStore) : Decidable s.WritesBatch :=
  inferInstanceAs (Decidable
    (s.storage.plain.maxBatchSize ≤ s.storage.plain.eventBatch.length + 1 ∨ s.FlushDue))

/-- In JSON an append writes the batch with its line, or puts the line into it. -/
theorem storage_append_json (hplain : s.storage.asyncWriter = none) (hjson : s.binaryMode = false) :
    (s.appendEnvelope crc32 sha256 json bincode envelope).storage.plain =
      if s.WritesBatch then (s.pushed sha256 json envelope).flushBatch crc32
      else s.pushed sha256 json envelope := by
  have hlength : (s.pushed sha256 json envelope).eventBatch.length =
      s.storage.plain.eventBatch.length + 1 := List.length_append
  have hput : s.plainPut crc32 sha256 json bincode envelope =
      if s.storage.plain.maxBatchSize ≤ s.storage.plain.eventBatch.length + 1 then
        (s.pushed sha256 json envelope).flushBatch crc32
      else s.pushed sha256 json envelope := by
    rw [plainPut, hjson, ← hlength]
    rfl
  have htwice : ((s.pushed sha256 json envelope).flushBatch crc32).flushBatch crc32 =
      (s.pushed sha256 json envelope).flushBatch crc32 :=
    if_pos (PlainStorage.eventBatch_flushBatch _)
  rw [appendEnvelope_of_plain hplain]
  dsimp only
  rw [hput]
  by_cases hdue : s.FlushDue
  · rw [if_pos hdue, if_pos (show s.WritesBatch from Or.inr hdue)]
    split_ifs
    · exact htwice
    · rfl
  · have hwrites : s.WritesBatch ↔
        s.storage.plain.maxBatchSize ≤ s.storage.plain.eventBatch.length + 1 := or_iff_left hdue
    rw [if_neg hdue]
    simp only [hwrites]

theorem index_eq_nil_iff : s.storage.index = [] ↔
    ∀ aggregateId, s.storage.readIndexOffsets aggregateId = [] := by
  constructor
  · intro hindex aggregateId
    rw [IndexedStorage.readIndexOffsets, hindex]
    rfl
  · intro h
    cases hindex : s.storage.index with
    | nil => rfl
    | cons entry rest =>
      have hentry := h entry.1
      simp [IndexedStorage.readIndexOffsets, hindex] at hentry

/-- A store that writes its envelopes at once: it is on the plain path and in binary mode, and its
batch is empty. -/
structure AtOnce (s : SingleFileStore) : Prop where
  asyncWriter : s.storage.asyncWriter = none
  binaryMode : s.binaryMode = true
  eventBatch : s.storage.plain.eventBatch = []

variable (crc32 sha256 json bincode) in
/-- The flush of an append finds nothing to write. -/
theorem AtOnce.appendEnvelope (h : s.AtOnce) (envelope : EventEnvelope) :
    (s.appendEnvelope crc32 sha256 json bincode envelope).AtOnce ∧
      (s.appendEnvelope crc32 sha256 json bincode envelope).storage.plain =
        s.storage.plain.appendBinaryEventBytes
          (bincode.encode (s.envelopeToPersist sha256 envelope)) := by
  have hput : s.plainPut crc32 sha256 json bincode envelope =
      s.storage.plain.appendBinaryEventBytes
        (bincode.encode (s.envelopeToPersist sha256 envelope)) := by
    rw [plainPut, h.binaryMode]
    rfl
  have hflush : (s.plainPut crc32 sha256 json bincode envelope).flushBatch crc32 =
      s.plainPut crc32 sha256 json bincode envelope := by
    rw [hput]
    exact if_pos h.eventBatch
  rw [appendEnvelope_of_plain h.asyncWriter]
  simp only [hflush, ite_self]
  rw [hput]
  exact ⟨⟨rfl, h.binaryMode, h.eventBatch⟩, rfl⟩

variable (crc32 sha256 json bincode) in
theorem AtOnce.foldl (h : s.AtOnce) (envelopes : List EventEnvelope) :
    (envelopes.foldl (SingleFileStore.appendEnvelope crc32 sha256 json bincode) s).AtOnce ∧
      (envelopes.foldl (SingleFileStore.appendEnvelope crc32 sha256 json bincode) s).storage.plain =
        ((s.persistedOf sha256 envelopes).map bincode.encode).foldl
          PlainStorage.appendBinaryEventBytes s.storage.plain := by
  induction envelopes generalizing s with
  | nil => exact ⟨h, rfl⟩
  | cons envelope rest ih =>
    obtain ⟨hnext, hplain⟩ := h.appendEnvelope crc32 sha256 json bincode envelope
    obtain ⟨hlast, hrest⟩ := ih hnext
    rw [List.foldl_cons, persistedOf_cons crc32 json bincode, List.map_cons, List.foldl_cons,
      ← hplain]
    exact ⟨hlast, hrest⟩

end Append

end SingleFileStore

end Lithair.Engine
