import Lithair.Engine.Rotation

/-!
# The optimised writer

`FileStorage` of `engine/persistence.rs` with its files as bytes, on both of its paths: the plain
one, which gathers JSON events in a batch and writes a binary event at once behind its length, and
the one with `LT_OPT_PERSIST`, which sends them to the writer thread of
`engine/persistence_optimized.rs`. The thread writes a binary event with a line feed behind it, into
a buffer of its own, and goes on when its storage is dropped. A handle of a file that has been
renamed writes to the renamed file.

Beside the log a second one is kept by the plain path alone (`Twin`). `reads_same` says when both
read back the same.
-/

namespace Lithair.Engine

open Lithair.Lib.Framing Lithair.Lib.Run Lithair.Lib.Text

/-! ### The files -/

/-- The log and the segment renamed before it. A handle is the number of the log it was opened for,
and the log that is written now has the number `generation`. -/
structure LogFiles where
  rotated : List UInt8
  events : List UInt8
  generation : ℕ
  deriving DecidableEq

/-- Why a log cannot be read as text. -/
inductive ReadError
  | invalidUtf8
  | panicked
  deriving DecidableEq

def decodeUtf8 (bytes : List UInt8) : Option (List Char) :=
  (String.fromUTF8? ⟨bytes.toArray⟩).map String.toList

/-- The payloads of a file from the cursor on. A round takes one of them, so that there are no more
rounds than bytes. There is no result where the end of a payload is not a number of 64 bits. -/
def readFramesFrom : ℕ → ℕ → List UInt8 → Option (List (List UInt8))
  | 0, _, _ => some []
  | rounds + 1, cursor, bytes =>
    match readExact 8 bytes with
    | none => some []
    | some (lenBytes, rest) =>
      let len := ofLeBytes lenBytes
      if 2 ^ 64 ≤ cursor + 8 + len then none
      else
        match readExact len rest with
        | none => some []
        | some (payload, rest) =>
          (readFramesFrom rounds (cursor + 8 + len) rest).map (payload :: ·)

def readFrames (content : List UInt8) : Option (List (List UInt8)) :=
  readFramesFrom content.length 0 content

namespace LogFiles

variable (crc32 : List UInt8 → UInt32)

def empty : LogFiles := ⟨[], [], 0⟩

/-- Append through a handle. What was renamed twice is no longer read. -/
def write (f : LogFiles) (handle : ℕ) (bytes : List UInt8) : LogFiles :=
  if handle = f.generation then { f with events := f.events ++ bytes }
  else if handle + 1 = f.generation then { f with rotated := f.rotated ++ bytes }
  else f

def rotate (f : LogFiles) : LogFiles := ⟨f.events, [], f.generation + 1⟩

/-- The events of one file. -/
def readFile (content : List UInt8) : Except ReadError (List String) :=
  match decodeUtf8 content with
  | none => .error .invalidUtf8
  | some text =>
    match readEvents crc32 text with
    | none => .error .panicked
    | some events => .ok events

def readAllEvents (f : LogFiles) : Except ReadError (List String) :=
  match readFile crc32 f.rotated with
  | .error error => .error error
  | .ok first =>
    match readFile crc32 f.events with
    | .error error => .error error
    | .ok second => .ok (first ++ second)

def readAllEventBytes (f : LogFiles) : Option (List (List UInt8)) :=
  (readFrames f.rotated).bind fun first ↦ (readFrames f.events).map (first ++ ·)

/-- `read_all_events` of the optimised storage: the lines as they are, of the log alone. -/
def optimizedReadAllEvents (f : LogFiles) : Except ReadError (List String) :=
  match decodeUtf8 f.events with
  | none => .error .invalidUtf8
  | some text => .ok (((lines text).filter fun line ↦ !line.all isWhitespace).map String.ofList)

end LogFiles

/-! ### The plain path -/

section Formats

variable (crc32 : List UInt8 → UInt32)

/-- The bytes of the line of an event. -/
def jsonLine (eventJson : String) : List UInt8 :=
  asBytes (String.ofList (FileStorage.eventLine crc32 true eventJson))

def jsonLines (events : List String) : List UInt8 := events.flatMap (jsonLine crc32)

/-- The bytes of a binary event. -/
def binaryFrame (data : List UInt8) : List UInt8 := leBytes 8 data.length ++ data

end Formats

/-- A storage on the plain path: the batch with its limit, the size from which the log is rotated,
and the handle of the writer of binary events when it is open. -/
structure PlainStorage where
  files : LogFiles
  eventBatch : List String
  binaryWriter : Option ℕ
  maxBatchSize : ℕ
  maxLogFileSize : ℕ
  deriving DecidableEq

namespace PlainStorage

variable (crc32 : List UInt8 → UInt32)

def maybeRotate (s : PlainStorage) : PlainStorage :=
  if s.maxLogFileSize = 0 then s
  else if s.maxLogFileSize ≤ s.files.events.length then { s with files := s.files.rotate }
  else s

def flushBatch (s : PlainStorage) : PlainStorage :=
  if s.eventBatch = [] then s
  else
    { s with
      files := { s.files with events := s.files.events ++ jsonLines crc32 s.eventBatch }
      eventBatch := [] }.maybeRotate

def appendEvent (s : PlainStorage) (eventJson : String) : PlainStorage :=
  let s := { s with eventBatch := s.eventBatch ++ [eventJson] }
  if s.maxBatchSize ≤ s.eventBatch.length then s.flushBatch crc32 else s

def appendBinaryEventBytes (s : PlainStorage) (data : List UInt8) : PlainStorage :=
  let handle := s.binaryWriter.getD s.files.generation
  { s with
    files := s.files.write handle (binaryFrame data)
    binaryWriter := some handle }

/-- A storage over the files. -/
def new (files : LogFiles) (maxBatchSize maxLogFileSize : ℕ) : PlainStorage :=
  ⟨files, [], none, maxBatchSize, maxLogFileSize⟩

end PlainStorage

/-! ### The writer thread -/

inductive AsyncWriteCommand
  | writeJson (eventJson : String)
  | writeBinary (eventData : List UInt8)
  | flush
  deriving DecidableEq

/-- A writer thread with its handle, the commands it has not received, and the bytes that are not in
the file. -/
structure WriterThread where
  handle : ℕ
  channel : List AsyncWriteCommand
  buffer : List UInt8
  eventCount : ℕ
  deriving DecidableEq

/-- What a thread does next: it receives a command, or nothing has come in time, and in both cases
the flush interval may be over; its buffer is full; or its storage is gone with an empty channel. -/
inductive ThreadAction
  | receive (elapsed : Bool)
  | timeout (elapsed : Bool)
  | spill (n : ℕ)
  | disconnect
  deriving DecidableEq

namespace WriterThread

variable (crc32 : List UInt8 → UInt32) (maxEventsBuffer : ℕ)

/-- What a flush writes, and the thread after it. -/
def flushBuffer (t : WriterThread) : List UInt8 × WriterThread :=
  if 0 < t.eventCount then
    (t.buffer, { t with
      buffer := []
      eventCount := 0 })
  else ([], t)

/-- The flush of a thread that has many events, or when the interval is over. -/
def autoFlush (elapsed : Bool) (t : WriterThread) : List UInt8 × WriterThread :=
  if maxEventsBuffer ≤ t.eventCount ∨ elapsed then t.flushBuffer else ([], t)

def put (t : WriterThread) (bytes : List UInt8) : WriterThread :=
  { t with
    buffer := t.buffer ++ bytes
    eventCount := t.eventCount + 1 }

/-- What the command writes to the file, and the thread after it. -/
def process (t : WriterThread) : AsyncWriteCommand → List UInt8 × WriterThread
  | .writeJson eventJson => ([], t.put (jsonLine crc32 eventJson))
  | .writeBinary eventData => ([], t.put (eventData ++ [10]))
  | .flush => t.flushBuffer

/-- What the thread writes to the file, and the thread after it. -/
def act (t : WriterThread) : ThreadAction → Option (List UInt8 × WriterThread)
  | .receive elapsed =>
    match t.channel with
    | [] => none
    | command :: channel =>
      let (first, t) := { t with channel }.process crc32 command
      let (second, t) := t.autoFlush maxEventsBuffer elapsed
      some (first ++ second, t)
  | .timeout elapsed => some (t.autoFlush maxEventsBuffer elapsed)
  | .spill n => some (t.buffer.take n, { t with buffer := t.buffer.drop n })
  | .disconnect =>
    if t.channel = [] then some (t.buffer, { t with buffer := [] }) else none

/-- What a command brings to the file. -/
def commandBytes : AsyncWriteCommand → List UInt8
  | .writeJson eventJson => jsonLine crc32 eventJson
  | .writeBinary eventData => eventData ++ [10]
  | .flush => []

/-- What the thread has still to write. -/
def pending (t : WriterThread) : List UInt8 :=
  t.buffer ++ t.channel.flatMap (commandBytes crc32)

/-- The thread has written everything. -/
def Drained (t : WriterThread) : Prop := t.channel = [] ∧ t.buffer = []

instance (t : WriterThread) : Decidable t.Drained :=
  inferInstanceAs (Decidable (t.channel = [] ∧ t.buffer = []))

variable {crc32 maxEventsBuffer} {t : WriterThread}

theorem Drained.pending (h : t.Drained) : t.pending crc32 = [] := by
  rw [WriterThread.pending, h.1, h.2]
  rfl

/-- A flush writes a part of what is in the buffer, and keeps the rest. -/
theorem flushBuffer_spec (t : WriterThread) :
    t.flushBuffer.1 ++ t.flushBuffer.2.buffer = t.buffer ∧
      t.flushBuffer.2.channel = t.channel ∧ t.flushBuffer.2.handle = t.handle := by
  unfold flushBuffer
  split_ifs
  · exact ⟨List.append_nil _, rfl, rfl⟩
  · exact ⟨rfl, rfl, rfl⟩

theorem autoFlush_spec (maxEventsBuffer : ℕ) (elapsed : Bool) (t : WriterThread) :
    (t.autoFlush maxEventsBuffer elapsed).1 ++ (t.autoFlush maxEventsBuffer elapsed).2.buffer =
        t.buffer ∧
      (t.autoFlush maxEventsBuffer elapsed).2.channel = t.channel ∧
      (t.autoFlush maxEventsBuffer elapsed).2.handle = t.handle := by
  unfold autoFlush
  split_ifs
  · exact t.flushBuffer_spec
  · exact ⟨rfl, rfl, rfl⟩

theorem process_spec (crc32 : List UInt8 → UInt32) (command : AsyncWriteCommand)
    (t : WriterThread) :
    (t.process crc32 command).1 ++ (t.process crc32 command).2.buffer =
        t.buffer ++ commandBytes crc32 command ∧
      (t.process crc32 command).2.channel = t.channel ∧
      (t.process crc32 command).2.handle = t.handle := by
  cases command with
  | writeJson eventJson => exact ⟨rfl, rfl, rfl⟩
  | writeBinary eventData => exact ⟨rfl, rfl, rfl⟩
  | flush =>
    rw [commandBytes, List.append_nil]
    exact t.flushBuffer_spec

/-- What a thread writes is the front of what it had to write. -/
theorem act_spec {a : ThreadAction} {written : List UInt8} {next : WriterThread}
    (h : t.act crc32 maxEventsBuffer a = some (written, next)) :
    written ++ next.pending crc32 = t.pending crc32 ∧ next.handle = t.handle ∧
      next.channel <:+ t.channel := by
  cases a with
  | receive elapsed =>
    simp only [act] at h
    split at h
    · exact absurd h (by simp)
    · next command channel hchannel =>
      obtain ⟨hprocess, hchannel', hhandle⟩ := process_spec crc32 command { t with channel }
      generalize process crc32 { t with channel } command = processed
        at h hprocess hchannel' hhandle
      obtain ⟨hauto, hchannel'', hhandle'⟩ := autoFlush_spec maxEventsBuffer elapsed processed.2
      generalize autoFlush maxEventsBuffer elapsed processed.2 = flushed
        at h hauto hchannel'' hhandle'
      obtain ⟨rfl, rfl⟩ := Prod.mk.inj (Option.some.inj h)
      rw [hchannel'] at hchannel''
      refine ⟨?_, hhandle'.trans hhandle, ?_⟩
      · calc (processed.1 ++ flushed.1) ++ flushed.2.pending crc32
            = processed.1 ++ (flushed.1 ++ flushed.2.buffer) ++
                flushed.2.channel.flatMap (commandBytes crc32) := by
              rw [pending]
              simp only [List.append_assoc]
          _ = t.buffer ++ commandBytes crc32 command ++ channel.flatMap (commandBytes crc32) := by
              rw [hauto, hprocess, hchannel'']
          _ = t.pending crc32 := by
              rw [pending, hchannel, List.flatMap_cons, List.append_assoc]
      · rw [hchannel'', hchannel]
        exact List.suffix_cons _ _
  | timeout elapsed =>
    obtain ⟨hauto, hchannel, hhandle⟩ := autoFlush_spec maxEventsBuffer elapsed t
    rw [Option.some.inj h] at hauto hchannel hhandle
    refine ⟨?_, hhandle, hchannel ▸ List.suffix_rfl⟩
    rw [pending, ← List.append_assoc, hauto, hchannel]
    rfl
  | spill n =>
    obtain ⟨rfl, rfl⟩ := Prod.mk.inj (Option.some.inj h)
    refine ⟨?_, rfl, List.suffix_rfl⟩
    rw [pending, ← List.append_assoc, List.take_append_drop]
    rfl
  | disconnect =>
    unfold act at h
    split_ifs at h with hchannel
    obtain ⟨rfl, rfl⟩ := Prod.mk.inj (Option.some.inj h)
    exact ⟨by rw [pending, pending]; simp, rfl, List.suffix_rfl⟩

end WriterThread

/-! ### The log and its twin -/

/-- What happens: a call, another storage on one of the two paths in the place of the one there is,
and a step of a thread. -/
inductive LogAction
  | appendEvent (eventJson : String)
  | appendBinaryEventBytes (data : List UInt8)
  | flushEvents
  | reopen (optimized : Bool) (maxBatchSize : ℕ)
  | thread (i : ℕ) (a : ThreadAction)
  deriving DecidableEq

/-- A log with its storage, the threads, the newest first, which is that of the storage when it is
on the optimised path, and a storage on the plain path that gets the same calls. -/
structure Twin where
  storage : PlainStorage
  optimized : Bool
  threads : List WriterThread
  plain : PlainStorage
  deriving DecidableEq

namespace Twin

variable (crc32 : List UInt8 → UInt32) (maxEventsBuffer : ℕ)

/-- Send a command to the newest thread. -/
def send (command : AsyncWriteCommand) : List WriterThread → List WriterThread
  | [] => []
  | t :: rest => { t with channel := t.channel ++ [command] } :: rest

/-- Make a storage over the files. -/
def create (s : Twin) (optimized : Bool) (maxBatchSize : ℕ) : Twin where
  storage := .new s.storage.files maxBatchSize s.storage.maxLogFileSize
  optimized := optimized
  threads := if optimized then ⟨s.storage.files.generation, [], [], 0⟩ :: s.threads else s.threads
  plain := .new s.plain.files maxBatchSize s.plain.maxLogFileSize

/-- The first storage over an empty directory. -/
def start (optimized : Bool) (maxBatchSize maxLogFileSize : ℕ) : Twin :=
  create ⟨.new .empty maxBatchSize maxLogFileSize, false, [],
    .new .empty maxBatchSize maxLogFileSize⟩ optimized maxBatchSize

/-- A call, which sends the command on the optimised path, and does `f` on the plain one. -/
def call (s : Twin) (command : AsyncWriteCommand) (f : PlainStorage → PlainStorage) : Twin where
  storage := if s.optimized then s.storage else f s.storage
  optimized := s.optimized
  threads := if s.optimized then send command s.threads else s.threads
  plain := f s.plain

/-- A storage that is dropped writes its batch, or tells its thread to; a thread notices that its
storage is gone. -/
def step (s : Twin) : LogAction → Option Twin
  | .appendEvent eventJson =>
    some (s.call (.writeJson eventJson) fun p ↦ p.appendEvent crc32 eventJson)
  | .appendBinaryEventBytes data =>
    some (s.call (.writeBinary data) fun p ↦ p.appendBinaryEventBytes data)
  | .flushEvents => some (s.call .flush fun p ↦ p.flushBatch crc32)
  | .reopen optimized maxBatchSize =>
    some ((s.call .flush fun p ↦ p.flushBatch crc32).create optimized maxBatchSize)
  | .thread i a =>
    if a = .disconnect ∧ s.optimized ∧ i = 0 then none
    else
      (s.threads[i]?).bind fun t ↦
        (t.act crc32 maxEventsBuffer a).map fun (written, next) ↦
          { s with
            storage := { s.storage with files := s.storage.files.write t.handle written }
            threads := s.threads.set i next }

/-- Everything has been written. -/
def Quiet (s : Twin) : Prop :=
  (∀ t ∈ s.threads, t.Drained) ∧ s.storage.eventBatch = [] ∧ s.plain.eventBatch = []

/-- The threads of the storages before have written everything when a storage on the plain path is
used, or a thread does something. -/
def InOrder (s : Twin) : LogAction → Prop
  | .thread i _ => ∀ t ∈ s.threads.drop (i + 1), t.Drained
  | _ => s.optimized = false → ∀ t ∈ s.threads, t.Drained

end Twin

namespace PlainStorage

variable (crc32 : List UInt8 → UInt32)

/-- The storage when its batch is to be written. -/
def writing (s : PlainStorage) : LogAction → Option PlainStorage
  | .appendEvent eventJson =>
    let s := { s with eventBatch := s.eventBatch ++ [eventJson] }
    if s.maxBatchSize ≤ s.eventBatch.length then some s else none
  | .flushEvents | .reopen _ _ => some s
  | .appendBinaryEventBytes _ | .thread _ _ => none

/-- The log with the lines of the batch. -/
def written (s : PlainStorage) : List UInt8 := s.files.events ++ jsonLines crc32 s.eventBatch

/-- To write the batch rotates the log. -/
def Rotates (s : PlainStorage) : Prop :=
  s.eventBatch ≠ [] ∧ s.maxLogFileSize ≠ 0 ∧ s.maxLogFileSize ≤ (s.written crc32).length

variable {crc32} {s : PlainStorage}

theorem flushBatch_of_not_rotates (h : ¬ s.Rotates crc32) : s.flushBatch crc32 = { s with
    files := { s.files with events := s.written crc32 }
    eventBatch := [] } := by
  unfold flushBatch
  split_ifs with hbatch
  · have hwritten : s.written crc32 = s.files.events := by
      rw [written, hbatch]
      exact List.append_nil _
    rw [hwritten, ← hbatch]
  · unfold maybeRotate
    split_ifs with hnever hsize
    · rfl
    · exact absurd ⟨hbatch, hnever, hsize⟩ h
    · rfl

theorem flushBatch_of_rotates (h : s.Rotates crc32) : s.flushBatch crc32 = { s with
    files := ⟨s.written crc32, [], s.files.generation + 1⟩
    eventBatch := [] } := by
  obtain ⟨hbatch, hnever, hsize⟩ := h
  rw [flushBatch, if_neg hbatch, maybeRotate, if_neg hnever]
  exact if_pos hsize

theorem eventBatch_flushBatch (s : PlainStorage) : (s.flushBatch crc32).eventBatch = [] := by
  by_cases h : s.Rotates crc32
  · rw [flushBatch_of_rotates h]
  · rw [flushBatch_of_not_rotates h]

/-- A call that rotates nothing adds the bytes to the log with its batch. -/
structure Adds (crc32 : List UInt8 → UInt32) (bytes : List UInt8) (s next : PlainStorage) :
    Prop where
  rotated : next.files.rotated = s.files.rotated
  generation : next.files.generation = s.files.generation
  written : next.written crc32 = s.written crc32 ++ bytes
  maxBatchSize : next.maxBatchSize = s.maxBatchSize
  maxLogFileSize : next.maxLogFileSize = s.maxLogFileSize

theorem adds_flushBatch (h : ¬ s.Rotates crc32) : Adds crc32 [] s (s.flushBatch crc32) := by
  rw [flushBatch_of_not_rotates h]
  exact ⟨rfl, rfl, rfl, rfl, rfl⟩

theorem adds_appendEvent {eventJson : String}
    (h : ∀ p ∈ s.writing (.appendEvent eventJson), ¬ p.Rotates crc32) :
    Adds crc32 (jsonLine crc32 eventJson) s (s.appendEvent crc32 eventJson) := by
  have hput : Adds crc32 (jsonLine crc32 eventJson) s
      { s with eventBatch := s.eventBatch ++ [eventJson] } := by
    refine ⟨rfl, rfl, ?_, rfl, rfl⟩
    rw [written, written, List.append_assoc]
    refine congrArg (s.files.events ++ ·) ?_
    rw [jsonLines, List.flatMap_append, List.flatMap_singleton]
    rfl
  unfold appendEvent
  simp only [writing] at h ⊢
  split_ifs at h ⊢
  · have hflush := adds_flushBatch (h _ rfl)
    exact ⟨hflush.rotated.trans hput.rotated, hflush.generation.trans hput.generation,
      hflush.written.trans ((List.append_nil _).trans hput.written),
      hflush.maxBatchSize.trans hput.maxBatchSize,
      hflush.maxLogFileSize.trans hput.maxLogFileSize⟩
  · exact hput

end PlainStorage

/-! ### One format on both paths -/

namespace Twin

variable (crc32 : List UInt8 → UInt32) (maxEventsBuffer : ℕ)

/-- What the threads have still to write, those of the first storages before the others. -/
def pendingAll : List WriterThread → List UInt8
  | [] => []
  | t :: rest => pendingAll rest ++ t.pending crc32

/-- On the optimised path no binary event is appended, and the plain path would not rotate the
log. -/
def SameFormat (s : Twin) (a : LogAction) : Prop :=
  s.InOrder a ∧ (s.optimized = true →
    (∀ data, a ≠ .appendBinaryEventBytes data) ∧ ∀ p ∈ s.plain.writing a, ¬ p.Rotates crc32)

/-- Both logs are the same when the threads have written everything, on the plain path with what is
in the batches, on the optimised one with the batch of the twin in the file. -/
structure Inv (s : Twin) : Prop where
  rotated : s.storage.files.rotated = s.plain.files.rotated
  generation : s.storage.files.generation = s.plain.files.generation
  events : s.storage.files.events ++ pendingAll crc32 s.threads =
    if s.optimized then s.plain.written crc32 else s.plain.files.events
  eventBatch : s.storage.eventBatch = if s.optimized then [] else s.plain.eventBatch
  binaryWriter : s.optimized = false → s.storage.binaryWriter = s.plain.binaryWriter
  maxBatchSize : s.storage.maxBatchSize = s.plain.maxBatchSize
  maxLogFileSize : s.storage.maxLogFileSize = s.plain.maxLogFileSize
  handles : ∀ t ∈ s.threads, t.Drained ∨ t.handle = s.storage.files.generation
  current : s.optimized = true →
    ∃ t rest, s.threads = t :: rest ∧ t.handle = s.storage.files.generation

section Steps

variable {crc32 maxEventsBuffer} {s next : Twin}

theorem pendingAll_append (first second : List WriterThread) :
    pendingAll crc32 (first ++ second) = pendingAll crc32 second ++ pendingAll crc32 first := by
  induction first with
  | nil => exact (List.append_nil _).symm
  | cons t rest ih =>
    rw [List.cons_append, pendingAll, pendingAll, ih, List.append_assoc]

theorem pendingAll_of_drained {threads : List WriterThread} (h : ∀ t ∈ threads, t.Drained) :
    pendingAll crc32 threads = [] := by
  induction threads with
  | nil => rfl
  | cons t rest ih =>
    rw [pendingAll, ih fun other hother ↦ h other (List.mem_cons_of_mem t hother),
      (h t List.mem_cons_self).pending]
    rfl

/-- A command changes only what is sent to the newest thread. -/
theorem forall_send {P : WriterThread → Prop} {t : WriterThread} {rest : List WriterThread}
    (h : ∀ other ∈ t :: rest, P other) (ht : ∀ channel, P { t with channel })
    (command : AsyncWriteCommand) : ∀ other ∈ send command (t :: rest), P other := by
  intro other hother
  rcases List.mem_cons.mp hother with rfl | hother
  · exact ht _
  · exact h other (List.mem_cons_of_mem t hother)

/-- What a command adds to what is pending. -/
theorem pendingAll_send {t : WriterThread} {rest : List WriterThread}
    (command : AsyncWriteCommand) :
    pendingAll crc32 (send command (t :: rest)) =
      pendingAll crc32 (t :: rest) ++ WriterThread.commandBytes crc32 command := by
  rw [send, pendingAll, pendingAll, WriterThread.pending, WriterThread.pending,
    List.flatMap_append, List.flatMap_singleton]
  simp only [List.append_assoc]

theorem call_of_plain (h : s.optimized = false) (command : AsyncWriteCommand)
    (f : PlainStorage → PlainStorage) :
    s.call command f = ⟨f s.storage, false, s.threads, f s.plain⟩ := by
  rw [call, h]
  rfl

theorem call_of_optimized (h : s.optimized = true) (command : AsyncWriteCommand)
    (f : PlainStorage → PlainStorage) :
    s.call command f = ⟨s.storage, true, send command s.threads, f s.plain⟩ := by
  rw [call, h]
  rfl

/-- On the plain path, with nothing pending, both storages are the same. -/
theorem Inv.storage_eq (h : Inv crc32 s) (hplain : s.optimized = false)
    (hdrained : ∀ t ∈ s.threads, t.Drained) : s.storage = s.plain := by
  have hevents := h.events
  have hbatch := h.eventBatch
  rw [pendingAll_of_drained hdrained, List.append_nil, hplain, if_neg (by decide)] at hevents
  rw [hplain, if_neg (by decide)] at hbatch
  have hfiles : s.storage.files = s.plain.files := by
    have hrotated := h.rotated
    have hgeneration := h.generation
    generalize s.storage.files = first at *
    generalize s.plain.files = second at *
    cases first
    cases second
    exact LogFiles.mk.injEq .. ▸ ⟨hrotated, hevents, hgeneration⟩
  have hwriter := h.binaryWriter hplain
  have hbatchSize := h.maxBatchSize
  have hlogSize := h.maxLogFileSize
  generalize s.storage = first at *
  generalize s.plain = second at *
  cases first
  cases second
  exact PlainStorage.mk.injEq .. ▸ ⟨hfiles, hbatch, hwriter, hbatchSize, hlogSize⟩

theorem Inv.call_plain (h : Inv crc32 s) (hplain : s.optimized = false)
    (hdrained : ∀ t ∈ s.threads, t.Drained) (command : AsyncWriteCommand)
    (f : PlainStorage → PlainStorage) : Inv crc32 (s.call command f) := by
  rw [call_of_plain hplain, h.storage_eq hplain hdrained]
  refine ⟨rfl, rfl, ?_, rfl, fun _ ↦ rfl, rfl, rfl, fun t ht ↦ Or.inl (hdrained t ht), ?_⟩
  · rw [pendingAll_of_drained hdrained, List.append_nil]
    rfl
  · exact fun hoptimized ↦ absurd hoptimized (by simp)

theorem Inv.call_optimized (h : Inv crc32 s) (hoptimized : s.optimized = true)
    {command : AsyncWriteCommand} {f : PlainStorage → PlainStorage}
    (hadds : PlainStorage.Adds crc32 (WriterThread.commandBytes crc32 command) s.plain
      (f s.plain)) :
    Inv crc32 (s.call command f) := by
  obtain ⟨t, rest, hthreads, hhandle⟩ := h.current hoptimized
  have hevents := h.events
  have hbatch := h.eventBatch
  rw [hoptimized, if_pos rfl] at hevents hbatch
  rw [call_of_optimized hoptimized]
  refine ⟨h.rotated.trans hadds.rotated.symm, h.generation.trans hadds.generation.symm, ?_, hbatch,
    fun hplain ↦ absurd hplain (by simp), h.maxBatchSize.trans hadds.maxBatchSize.symm,
    h.maxLogFileSize.trans hadds.maxLogFileSize.symm, ?_, fun _ ↦ ?_⟩
  · rw [if_pos rfl, hadds.written, ← hevents, hthreads, pendingAll_send, List.append_assoc]
  · rw [hthreads]
    exact forall_send (hthreads ▸ h.handles) (fun _ ↦ Or.inr hhandle) _
  · rw [hthreads]
    exact ⟨_, rest, rfl, hhandle⟩

/-- Another storage over the files, when the batch of the twin is written. -/
theorem Inv.create (h : Inv crc32 s) (hbatch : s.plain.eventBatch = []) (optimized : Bool)
    (maxBatchSize : ℕ) : Inv crc32 (s.create optimized maxBatchSize) := by
  have hevents : s.storage.files.events ++ pendingAll crc32 s.threads = s.plain.files.events := by
    rw [h.events, PlainStorage.written, hbatch]
    split_ifs
    · exact List.append_nil _
    · rfl
  have hwritten : (PlainStorage.new s.plain.files maxBatchSize s.plain.maxLogFileSize).written
      crc32 = s.plain.files.events := List.append_nil _
  cases optimized with
  | false =>
    exact ⟨h.rotated, h.generation, hevents, rfl, fun _ ↦ rfl, rfl, h.maxLogFileSize, h.handles,
      fun hoptimized ↦ absurd hoptimized (by simp [Twin.create])⟩
  | true =>
    refine ⟨h.rotated, h.generation, ?_, rfl, fun _ ↦ rfl, rfl, h.maxLogFileSize, ?_,
      fun _ ↦ ⟨_, s.threads, rfl, rfl⟩⟩
    · show _ ++ (pendingAll crc32 s.threads ++ []) = PlainStorage.written _ _
      rw [List.append_nil]
      exact hevents.trans hwritten.symm
    · intro t ht
      rcases List.mem_cons.mp ht with rfl | ht
      · exact Or.inr rfl
      · exact h.handles t ht

theorem write_nil (f : LogFiles) (handle : ℕ) : f.write handle [] = f := by
  unfold LogFiles.write
  split_ifs
  · rw [List.append_nil]
  · rw [List.append_nil]
  · rfl

/-- A step of a thread writes the front of what is pending, when the threads before it are done. -/
theorem step_thread {i : ℕ} {a : ThreadAction}
    (hhandles : ∀ t ∈ s.threads, t.Drained ∨ t.handle = s.storage.files.generation)
    (horder : s.InOrder (.thread i a))
    (hnext : s.step crc32 maxEventsBuffer (.thread i a) = some next) :
    ∃ written threads, next = { s with
        storage := { s.storage with files := { s.storage.files with
          events := s.storage.files.events ++ written } }
        threads := threads } ∧
      written ++ pendingAll crc32 threads = pendingAll crc32 s.threads ∧
      (∀ t ∈ threads, t.Drained ∨ t.handle = s.storage.files.generation) ∧
      threads.map WriterThread.handle = s.threads.map WriterThread.handle := by
  simp only [step] at hnext
  split_ifs at hnext
  obtain ⟨t, ht, hact⟩ := Option.bind_eq_some_iff.mp hnext
  obtain ⟨⟨written, t'⟩, hspec, rfl⟩ := Option.map_eq_some_iff.mp hact
  obtain ⟨hpending, hhandle, hchannel⟩ := WriterThread.act_spec hspec
  obtain ⟨hi, rfl⟩ := List.getElem?_eq_some_iff.mp ht
  have hsplit : s.threads = s.threads.take i ++ s.threads[i] :: s.threads.drop (i + 1) := by
    rw [List.getElem_cons_drop, List.take_append_drop]
  have hset : s.threads.set i t' = s.threads.take i ++ t' :: s.threads.drop (i + 1) :=
    List.set_eq_take_append_cons_drop .. |>.trans (if_pos hi)
  have holder : pendingAll crc32 (s.threads.drop (i + 1)) = [] := pendingAll_of_drained horder
  have hmember := hhandles s.threads[i] (List.getElem_mem hi)
  refine ⟨written, s.threads.set i t', ?_, ?_, ?_, ?_⟩
  · have hwrite : s.storage.files.write s.threads[i].handle written =
        { s.storage.files with events := s.storage.files.events ++ written } := by
      rcases hmember with hdrained | hgeneration
      · rw [hdrained.pending, List.append_eq_nil_iff] at hpending
        rw [hpending.1, write_nil, List.append_nil]
      · rw [LogFiles.write, if_pos hgeneration]
    rw [hwrite]
  · rw [hset]
    conv_rhs => rw [hsplit]
    rw [pendingAll_append, pendingAll_append, pendingAll, pendingAll, holder, List.nil_append,
      List.nil_append, ← List.append_assoc, hpending]
  · intro other hother
    rcases List.mem_or_eq_of_mem_set hother with hother | rfl
    · exact hhandles other hother
    · rcases hmember with hdrained | hgeneration
      · left
        rw [hdrained.pending, List.append_eq_nil_iff, WriterThread.pending,
          List.append_eq_nil_iff] at hpending
        rw [hdrained.1, List.suffix_nil] at hchannel
        exact ⟨hchannel, hpending.2.1⟩
      · exact Or.inr (hhandle.trans hgeneration)
  · have hsame : (s.threads.map WriterThread.handle)[i]? = some s.threads[i].handle := by
      rw [List.getElem?_map, ht]
      rfl
    rw [List.map_set, hhandle]
    obtain ⟨hi', hsame⟩ := List.getElem?_eq_some_iff.mp hsame
    rw [← hsame]
    exact List.set_getElem_self hi'

theorem inv_step {a : LogAction} (h : Inv crc32 s) (hformat : s.SameFormat crc32 a)
    (hnext : s.step crc32 maxEventsBuffer a = some next) : Inv crc32 next := by
  obtain ⟨horder, hoptimized⟩ := hformat
  -- A call that sends a command, and rotates nothing on the plain path.
  have hcall : ∀ command f, (s.optimized = false → ∀ t ∈ s.threads, t.Drained) →
      (s.optimized = true →
        PlainStorage.Adds crc32 (WriterThread.commandBytes crc32 command) s.plain (f s.plain)) →
      Inv crc32 (s.call command f) := by
    intro command f hdrained hadds
    cases hpath : s.optimized with
    | false => exact h.call_plain hpath (hdrained hpath) command f
    | true => exact h.call_optimized hpath (hadds hpath)
  cases a with
  | appendEvent eventJson =>
    obtain rfl := Option.some.inj hnext
    exact hcall _ _ horder fun hpath ↦ PlainStorage.adds_appendEvent (hoptimized hpath).2
  | appendBinaryEventBytes data =>
    obtain rfl := Option.some.inj hnext
    exact hcall _ _ horder fun hpath ↦ absurd rfl ((hoptimized hpath).1 data)
  | flushEvents =>
    obtain rfl := Option.some.inj hnext
    exact hcall _ _ horder fun hpath ↦
      PlainStorage.adds_flushBatch ((hoptimized hpath).2 s.plain rfl)
  | reopen optimized maxBatchSize =>
    obtain rfl := Option.some.inj hnext
    refine (hcall .flush _ horder fun hpath ↦ ?_).create ?_ optimized maxBatchSize
    · exact PlainStorage.adds_flushBatch ((hoptimized hpath).2 s.plain rfl)
    · exact PlainStorage.eventBatch_flushBatch s.plain
  | thread i action =>
    obtain ⟨written, threads, rfl, hpending, hhandles, hsame⟩ :=
      step_thread h.handles horder hnext
    refine ⟨h.rotated, h.generation, ?_, h.eventBatch, h.binaryWriter, h.maxBatchSize,
      h.maxLogFileSize, hhandles, fun hpath ↦ ?_⟩
    · rw [List.append_assoc, hpending]
      exact h.events
    · obtain ⟨t, rest, hthreads, hhandle⟩ := h.current hpath
      rw [hthreads, List.map_cons, List.map_eq_cons_iff] at hsame
      obtain ⟨t', rest', hnew, hhandle', -⟩ := hsame
      exact ⟨t', rest', hnew, hhandle'.trans hhandle⟩

theorem inv_start (optimized : Bool) (maxBatchSize maxLogFileSize : ℕ) :
    Inv crc32 (start optimized maxBatchSize maxLogFileSize) := by
  refine Inv.create ⟨rfl, rfl, rfl, rfl, fun _ ↦ rfl, rfl, rfl, ?_, ?_⟩ rfl optimized maxBatchSize
  · exact fun t ht ↦ absurd ht List.not_mem_nil
  · exact fun hoptimized ↦ absurd hoptimized (by simp)

/-- When everything has been written the files are the same. -/
theorem Inv.files_eq (h : Inv crc32 s) (hquiet : s.Quiet) :
    s.storage.files.rotated = s.plain.files.rotated ∧
      s.storage.files.events = s.plain.files.events := by
  obtain ⟨hdrained, -, hbatch⟩ := hquiet
  refine ⟨h.rotated, ?_⟩
  have hevents := h.events
  rw [pendingAll_of_drained hdrained, List.append_nil, PlainStorage.written, hbatch] at hevents
  split_ifs at hevents
  · exact hevents.trans (List.append_nil _)
  · exact hevents

end Steps

end Twin

/-! ### Logs of JSON events -/

section Lines

variable {crc32 : List UInt8 → UInt32}

theorem jsonLines_append (first second : List String) :
    jsonLines crc32 (first ++ second) = jsonLines crc32 first ++ jsonLines crc32 second :=
  List.flatMap_append

theorem decodeUtf8_asBytes (s : String) : decodeUtf8 (asBytes s) = some s.toList := by
  have hbytes : (⟨(asBytes s).toArray⟩ : ByteArray) = s.toByteArray := rfl
  unfold decodeUtf8 String.fromUTF8?
  rw [hbytes, dif_pos s.isValidUTF8]
  rfl

/-- The bytes of the lines are those of their text. -/
theorem jsonLines_eq (events : List String) : jsonLines crc32 events =
    asBytes (String.ofList (FileStorage.eventLines crc32 true events)) := by
  induction events with
  | nil => rfl
  | cons event rest ih =>
    have hlines : FileStorage.eventLines crc32 true (event :: rest) =
        FileStorage.eventLine crc32 true event ++ FileStorage.eventLines crc32 true rest := rfl
    rw [hlines, String.ofList_append, asBytes_append, ← ih]
    rfl

variable (crc32) in
theorem decodeUtf8_jsonLines (events : List String) :
    decodeUtf8 (jsonLines crc32 events) = some (FileStorage.eventLines crc32 true events) := by
  rw [jsonLines_eq, decodeUtf8_asBytes, String.toList_ofList]

theorem jsonLines_eq_nil_iff {events : List String} :
    jsonLines crc32 events = [] ↔ events = [] := by
  constructor
  · intro hnil
    have htext := decodeUtf8_jsonLines crc32 events
    rw [hnil, show decodeUtf8 [] = some [] from decodeUtf8_asBytes "", Option.some.injEq] at htext
    exact FileStorage.eventLines_eq_nil_iff.mp htext.symm
  · rintro rfl
    rfl

variable (crc32) in
/-- The files hold the lines of events, of those that were rotated and of those that came then. -/
structure HoldsLines (f : LogFiles) (segment current : List String) : Prop where
  rotated : f.rotated = jsonLines crc32 segment
  events : f.events = jsonLines crc32 current

theorem readFile_jsonLines (events : List String) :
    LogFiles.readFile crc32 (jsonLines crc32 events) =
      match readEvents crc32 (FileStorage.eventLines crc32 true events) with
      | none => .error .panicked
      | some found => .ok found := by
  rw [LogFiles.readFile, decodeUtf8_jsonLines]

/-- What is read of lines in front of others that are one line each. -/
theorem readFile_jsonLines_append (first : List String) {second : List String}
    (h : ∀ event ∈ second, OneLine event) :
    LogFiles.readFile crc32 (jsonLines crc32 (first ++ second)) =
      (LogFiles.readFile crc32 (jsonLines crc32 first)).map (· ++ second) := by
  rw [readFile_jsonLines, readFile_jsonLines, FileStorage.eventLines_append,
    readEvents_append crc32 (FileStorage.ended_eventLines crc32 true first),
    FileStorage.readEvents_eventLines h]
  cases readEvents crc32 (FileStorage.eventLines crc32 true first) <;> rfl

theorem readFile_jsonLines_of_oneLine {events : List String} (h : ∀ event ∈ events, OneLine event) :
    LogFiles.readFile crc32 (jsonLines crc32 events) = .ok events :=
  readFile_jsonLines_append [] h

/-- The files give the events of their lines. -/
theorem HoldsLines.readAllEvents {f : LogFiles} {segment current : List String}
    (h : HoldsLines crc32 f segment current) :
    f.readAllEvents crc32 =
      match readEvents crc32 (FileStorage.eventLines crc32 true (segment ++ current)) with
      | none => .error .panicked
      | some events => .ok events := by
  rw [LogFiles.readAllEvents, h.rotated, h.events, readFile_jsonLines, readFile_jsonLines,
    FileStorage.eventLines_append,
    readEvents_append crc32 (FileStorage.ended_eventLines crc32 true segment)]
  cases readEvents crc32 (FileStorage.eventLines crc32 true segment) with
  | none => rfl
  | some first =>
    cases readEvents crc32 (FileStorage.eventLines crc32 true current) with
    | none => rfl
    | some second => rfl

/-- The lines of events that are one line each. -/
theorem lines_eventLines {events : List String} (h : ∀ event ∈ events, OneLine event) :
    lines (FileStorage.eventLines crc32 true events) = events.map (formatEventWithCrc32 crc32) := by
  induction events with
  | nil => rfl
  | cons event rest ih =>
    have hevent := h event List.mem_cons_self
    have hline : lines (formatEventWithCrc32 crc32 event ++ ['\n']) =
        [formatEventWithCrc32 crc32 event] := by
      rw [lines_formatEventWithCrc32 crc32 hevent.noLineFeed, stripCarriageReturn,
        if_neg hevent.noCarriageReturn]
      rfl
    have hsplit : FileStorage.eventLines crc32 true (event :: rest) =
        (formatEventWithCrc32 crc32 event ++ ['\n']) ++
          FileStorage.eventLines crc32 true rest := rfl
    rw [hsplit, lines_append (ended_concat _), hline,
      ih fun other hother ↦ h other (List.mem_cons_of_mem event hother)]
    rfl

/-- The optimised storage reads events with their checksums in front. -/
theorem optimizedReadAllEvents_eq_iff {events : List String} (h : ∀ event ∈ events, OneLine event) :
    (⟨[], jsonLines crc32 events, 0⟩ : LogFiles).optimizedReadAllEvents =
        (⟨[], jsonLines crc32 events, 0⟩ : LogFiles).readAllEvents crc32 ↔ events = [] := by
  have hholds : HoldsLines crc32 ⟨[], jsonLines crc32 events, 0⟩ [] events := ⟨rfl, rfl⟩
  have hblank : ∀ line ∈ events.map (formatEventWithCrc32 crc32),
      (!line.all isWhitespace) = true := by
    intro line hline
    obtain ⟨event, -, rfl⟩ := List.mem_map.mp hline
    rw [formatEventWithCrc32, not_blank_of_colon]
    rfl
  rw [LogFiles.optimizedReadAllEvents, decodeUtf8_jsonLines, hholds.readAllEvents, List.nil_append,
    FileStorage.readEvents_eventLines h]
  simp only [lines_eventLines h, List.filter_eq_self.mpr hblank, List.map_map, Except.ok.injEq]
  constructor
  · intro hsame
    cases events with
    | nil => rfl
    | cons event rest =>
      have hevent := congrArg (fun s ↦ s.toList.length) (List.cons.inj hsame).1
      simp [formatEventWithCrc32, length_hexDigits] at hevent
      omega
  · rintro rfl
    rfl

/-- A batch is written, with the log in the place of a segment only when that is empty. -/
theorem HoldsLines.flushBatch {p : PlainStorage} {segment current : List String}
    (h : HoldsLines crc32 p.files segment current)
    (hkeeps : p.Rotates crc32 → p.files.rotated = []) :
    ∃ segment' current', HoldsLines crc32 (p.flushBatch crc32).files segment' current' ∧
      segment' ++ current' = segment ++ current ++ p.eventBatch := by
  have hwritten : p.written crc32 = jsonLines crc32 (current ++ p.eventBatch) := by
    rw [PlainStorage.written, h.events, jsonLines_append]
  by_cases hrotates : p.Rotates crc32
  · have hsegment : segment = [] :=
      jsonLines_eq_nil_iff.mp (h.rotated.symm.trans (hkeeps hrotates))
    rw [PlainStorage.flushBatch_of_rotates hrotates]
    refine ⟨current ++ p.eventBatch, [], ⟨hwritten, rfl⟩, ?_⟩
    rw [hsegment, List.append_nil]
    rfl
  · rw [PlainStorage.flushBatch_of_not_rotates hrotates]
    exact ⟨segment, current ++ p.eventBatch, ⟨h.rotated, hwritten⟩, (List.append_assoc ..).symm⟩

theorem HoldsLines.appendEvent {p : PlainStorage} {segment current : List String}
    {eventJson : String} (h : HoldsLines crc32 p.files segment current)
    (hkeeps : ∀ t ∈ p.writing (.appendEvent eventJson), t.Rotates crc32 → t.files.rotated = []) :
    ∃ segment' current', HoldsLines crc32 (p.appendEvent crc32 eventJson).files segment' current' ∧
      segment' ++ current' ++ (p.appendEvent crc32 eventJson).eventBatch =
        segment ++ current ++ p.eventBatch ++ [eventJson] := by
  unfold PlainStorage.appendEvent
  simp only [PlainStorage.writing] at hkeeps ⊢
  split_ifs at hkeeps ⊢
  · obtain ⟨segment', current', hholds, hsplit⟩ := HoldsLines.flushBatch
      (p := { p with eventBatch := p.eventBatch ++ [eventJson] }) h (hkeeps _ rfl)
    refine ⟨segment', current', hholds, ?_⟩
    rw [PlainStorage.eventBatch_flushBatch, List.append_nil, hsplit, ← List.append_assoc]
  · exact ⟨segment, current, h, (List.append_assoc ..).symm⟩

end Lines

namespace Twin

variable (crc32 : List UInt8 → UInt32) (maxEventsBuffer : ℕ)

/-- No binary event is appended, and on neither path a log is rotated over a segment that is
there. -/
def JsonOnly (s : Twin) (a : LogAction) : Prop :=
  s.InOrder a ∧ (∀ data, a ≠ .appendBinaryEventBytes data) ∧
    (∀ p ∈ s.plain.writing a, p.Rotates crc32 → p.files.rotated = []) ∧
    (s.optimized = false → ∀ p ∈ s.storage.writing a, p.Rotates crc32 → p.files.rotated = [])

/-- Both logs have the lines of the same events, in segments of their own. -/
structure JsonInv (s : Twin) : Prop where
  lines : ∃ segment current segment' current',
    s.storage.files.rotated = jsonLines crc32 segment ∧
    s.storage.files.events ++ pendingAll crc32 s.threads = jsonLines crc32 current ∧
    HoldsLines crc32 s.plain.files segment' current' ∧
    segment ++ current ++ s.storage.eventBatch = segment' ++ current' ++ s.plain.eventBatch
  eventBatch : s.optimized = true → s.storage.eventBatch = []
  handles : ∀ t ∈ s.threads, t.Drained ∨ t.handle = s.storage.files.generation
  current : s.optimized = true →
    ∃ t rest, s.threads = t :: rest ∧ t.handle = s.storage.files.generation

section JsonSteps

variable {crc32 maxEventsBuffer} {s next : Twin}

/-- A call that brings events to both logs. -/
theorem JsonInv.call (h : JsonInv crc32 s) {command : AsyncWriteCommand}
    {f : PlainStorage → PlainStorage} {more : List String}
    (hmore : WriterThread.commandBytes crc32 command = jsonLines crc32 more)
    (horder : s.optimized = false → ∀ t ∈ s.threads, t.Drained)
    (hplain : ∀ segment current, HoldsLines crc32 s.plain.files segment current →
      ∃ segment' current', HoldsLines crc32 (f s.plain).files segment' current' ∧
        segment' ++ current' ++ (f s.plain).eventBatch =
          segment ++ current ++ s.plain.eventBatch ++ more)
    (hstorage : s.optimized = false → ∀ segment current,
      HoldsLines crc32 s.storage.files segment current →
        ∃ segment' current', HoldsLines crc32 (f s.storage).files segment' current' ∧
          segment' ++ current' ++ (f s.storage).eventBatch =
            segment ++ current ++ s.storage.eventBatch ++ more) :
    JsonInv crc32 (s.call command f) := by
  obtain ⟨segment, current, segment', current', hrotated, hevents, hholds, hsame⟩ := h.lines
  obtain ⟨newSegment', newCurrent', hnewHolds, hnewSame⟩ := hplain segment' current' hholds
  cases hpath : s.optimized with
  | false =>
    have hdrained := horder hpath
    rw [pendingAll_of_drained hdrained, List.append_nil] at hevents
    obtain ⟨newSegment, newCurrent, hstored, hnewStored⟩ :=
      hstorage hpath segment current ⟨hrotated, hevents⟩
    rw [call_of_plain hpath]
    refine ⟨⟨newSegment, newCurrent, newSegment', newCurrent', hstored.rotated, ?_, hnewHolds, ?_⟩,
      fun hoptimized ↦ absurd hoptimized (by simp), fun t ht ↦ Or.inl (hdrained t ht),
      fun hoptimized ↦ absurd hoptimized (by simp)⟩
    · rw [pendingAll_of_drained hdrained, List.append_nil]
      exact hstored.events
    · rw [hnewStored, hnewSame, hsame]
  | true =>
    obtain ⟨t, rest, hthreads, hhandle⟩ := h.current hpath
    have hbatch := h.eventBatch hpath
    rw [call_of_optimized hpath, hthreads]
    refine ⟨⟨segment, current ++ more, newSegment', newCurrent', hrotated, ?_, hnewHolds, ?_⟩,
      fun _ ↦ hbatch, ?_, fun _ ↦ ⟨_, rest, rfl, hhandle⟩⟩
    · rw [pendingAll_send, ← List.append_assoc, ← hthreads, hevents, hmore, jsonLines_append]
    · rw [hnewSame, ← hsame, hbatch]
      simp only [List.append_nil, List.append_assoc]
    · exact forall_send (hthreads ▸ h.handles) (fun _ ↦ Or.inr hhandle) _

theorem JsonInv.create (h : JsonInv crc32 s) (hstorage : s.storage.eventBatch = [])
    (hplain : s.plain.eventBatch = []) (optimized : Bool) (maxBatchSize : ℕ) :
    JsonInv crc32 (s.create optimized maxBatchSize) := by
  obtain ⟨segment, current, segment', current', hrotated, hevents, hholds, hsame⟩ := h.lines
  rw [hstorage, hplain] at hsame
  cases optimized with
  | false =>
    exact ⟨⟨segment, current, segment', current', hrotated, hevents, hholds, hsame⟩, fun _ ↦ rfl,
      h.handles, fun hoptimized ↦ absurd hoptimized (by simp [Twin.create])⟩
  | true =>
    refine ⟨⟨segment, current, segment', current', hrotated, ?_, hholds, hsame⟩, fun _ ↦ rfl, ?_,
      fun _ ↦ ⟨_, s.threads, rfl, rfl⟩⟩
    · show _ ++ (pendingAll crc32 s.threads ++ []) = _
      rw [List.append_nil]
      exact hevents
    · intro t ht
      rcases List.mem_cons.mp ht with rfl | ht
      · exact Or.inr rfl
      · exact h.handles t ht

/-- A flush, as a call or when a storage is dropped. -/
theorem JsonInv.flush (h : JsonInv crc32 s)
    (horder : s.optimized = false → ∀ t ∈ s.threads, t.Drained)
    (hplain : s.plain.Rotates crc32 → s.plain.files.rotated = [])
    (hstorage : s.optimized = false → s.storage.Rotates crc32 → s.storage.files.rotated = []) :
    JsonInv crc32 (s.call .flush fun p ↦ p.flushBatch crc32) := by
  have hflush : ∀ p : PlainStorage, (p.Rotates crc32 → p.files.rotated = []) →
      ∀ segment current, HoldsLines crc32 p.files segment current →
        ∃ segment' current', HoldsLines crc32 (p.flushBatch crc32).files segment' current' ∧
          segment' ++ current' ++ (p.flushBatch crc32).eventBatch =
            segment ++ current ++ p.eventBatch ++ [] := by
    intro p hkeeps segment current hholds
    obtain ⟨segment', current', hwritten, hsplit⟩ := hholds.flushBatch hkeeps
    refine ⟨segment', current', hwritten, ?_⟩
    rw [PlainStorage.eventBatch_flushBatch, List.append_nil, List.append_nil, hsplit]
  have hnothing : WriterThread.commandBytes crc32 .flush = jsonLines crc32 [] := rfl
  exact h.call hnothing horder (hflush s.plain hplain) fun hpath ↦
    hflush s.storage (hstorage hpath)

theorem jsonInv_step {a : LogAction} (h : JsonInv crc32 s) (hjson : s.JsonOnly crc32 a)
    (hnext : s.step crc32 maxEventsBuffer a = some next) : JsonInv crc32 next := by
  obtain ⟨horder, hbinary, hplain, hstorage⟩ := hjson
  cases a with
  | appendEvent eventJson =>
    obtain rfl := Option.some.inj hnext
    have hline : WriterThread.commandBytes crc32 (.writeJson eventJson) =
        jsonLines crc32 [eventJson] := (List.flatMap_singleton ..).symm
    exact h.call hline horder (fun segment current hholds ↦ hholds.appendEvent hplain)
      fun hpath segment current hholds ↦ hholds.appendEvent (hstorage hpath)
  | appendBinaryEventBytes data => exact absurd rfl (hbinary data)
  | flushEvents =>
    obtain rfl := Option.some.inj hnext
    exact h.flush horder (hplain s.plain rfl) fun hpath ↦ hstorage hpath s.storage rfl
  | reopen optimized maxBatchSize =>
    obtain rfl := Option.some.inj hnext
    have hflushed := h.flush horder (hplain s.plain rfl) fun hpath ↦ hstorage hpath s.storage rfl
    refine hflushed.create ?_ (PlainStorage.eventBatch_flushBatch s.plain) optimized maxBatchSize
    cases hpath : s.optimized with
    | false =>
      rw [call_of_plain hpath]
      exact PlainStorage.eventBatch_flushBatch s.storage
    | true => exact hflushed.eventBatch hpath
  | thread i action =>
    obtain ⟨written, threads, rfl, hpending, hhandles, hsame⟩ :=
      step_thread h.handles horder hnext
    obtain ⟨segment, current, segment', current', hrotated, hevents, hholds, hsplit⟩ := h.lines
    refine ⟨⟨segment, current, segment', current', hrotated, ?_, hholds, hsplit⟩, h.eventBatch,
      hhandles, fun hpath ↦ ?_⟩
    · rw [List.append_assoc, hpending]
      exact hevents
    · obtain ⟨t, rest, hthreads, hhandle⟩ := h.current hpath
      rw [hthreads, List.map_cons, List.map_eq_cons_iff] at hsame
      obtain ⟨t', rest', hnew, hhandle', -⟩ := hsame
      exact ⟨t', rest', hnew, hhandle'.trans hhandle⟩

theorem jsonInv_start (optimized : Bool) (maxBatchSize maxLogFileSize : ℕ) :
    JsonInv crc32 (start optimized maxBatchSize maxLogFileSize) := by
  refine JsonInv.create ⟨⟨[], [], [], [], rfl, rfl, ⟨rfl, rfl⟩, rfl⟩, fun _ ↦ rfl, ?_, ?_⟩ rfl rfl
    optimized maxBatchSize
  · exact fun t ht ↦ absurd ht List.not_mem_nil
  · exact fun hoptimized ↦ absurd hoptimized (by simp)

/-- When everything has been written both logs give the same events. -/
theorem JsonInv.readAllEvents_eq (h : JsonInv crc32 s) (hquiet : s.Quiet) :
    s.storage.files.readAllEvents crc32 = s.plain.files.readAllEvents crc32 := by
  obtain ⟨hdrained, hstorage, hplain⟩ := hquiet
  obtain ⟨segment, current, segment', current', hrotated, hevents, hholds, hsplit⟩ := h.lines
  rw [pendingAll_of_drained hdrained, List.append_nil] at hevents
  rw [hstorage, hplain, List.append_nil, List.append_nil] at hsplit
  have hstored : HoldsLines crc32 s.storage.files segment current := ⟨hrotated, hevents⟩
  rw [hstored.readAllEvents, hholds.readAllEvents, hsplit]

end JsonSteps

end Twin

/-! ### Logs of binary events -/

section Frames

def binaryFrames (events : List (List UInt8)) : List UInt8 := events.flatMap binaryFrame

theorem binaryFrames_cons (data : List UInt8) (rest : List (List UInt8)) :
    binaryFrames (data :: rest) = leBytes 8 data.length ++ (data ++ binaryFrames rest) := by
  rw [binaryFrames, List.flatMap_cons, binaryFrame, List.append_assoc]
  rfl

theorem length_binaryFrames_cons (data : List UInt8) (rest : List (List UInt8)) :
    (binaryFrames (data :: rest)).length = 8 + data.length + (binaryFrames rest).length := by
  rw [binaryFrames_cons, List.length_append, List.length_append, length_leBytes, Nat.add_assoc]

/-- What is read took the bytes of its frames. -/
theorem length_of_readFramesFrom {rounds cursor : ℕ} {bytes : List UInt8}
    {events : List (List UInt8)} (h : readFramesFrom rounds cursor bytes = some events) :
    (binaryFrames events).length ≤ bytes.length := by
  induction rounds generalizing cursor bytes events with
  | zero =>
    obtain rfl := Option.some.inj h
    exact Nat.zero_le _
  | succ rounds ih =>
    unfold readFramesFrom at h
    split at h
    · obtain rfl := Option.some.inj h
      exact Nat.zero_le _
    · next lenBytes rest hlen =>
      simp only at h
      split_ifs at h
      split at h
      · obtain rfl := Option.some.inj h
        exact Nat.zero_le _
      · next payload rest' hpayload =>
        obtain ⟨more, hmore, rfl⟩ := Option.map_eq_some_iff.mp h
        have hrest := ih hmore
        have hlenLength := length_of_readExact hlen
        have hpayloadLength := length_of_readExact hpayload
        have hpayloadExact : payload.length = ofLeBytes lenBytes := by
          unfold readExact at hpayload
          split_ifs at hpayload with hle
          obtain ⟨rfl, -⟩ := Prod.mk.inj (Option.some.inj hpayload)
          rw [List.length_take]
          omega
        rw [length_binaryFrames_cons]
        omega

/-- Frames are read back. -/
theorem readFramesFrom_binaryFrames {rounds cursor : ℕ} {events : List (List UInt8)}
    (hrounds : (binaryFrames events).length ≤ rounds)
    (hfits : cursor + (binaryFrames events).length < 2 ^ 64) :
    readFramesFrom rounds cursor (binaryFrames events) = some events := by
  induction events generalizing rounds cursor with
  | nil =>
    cases rounds with
    | zero => rfl
    | succ rounds => rfl
  | cons data rest ih =>
    rw [length_binaryFrames_cons] at hrounds hfits
    obtain ⟨rounds, rfl⟩ : ∃ n, rounds = n + 1 := ⟨rounds - 1, by omega⟩
    have hlen : ofLeBytes (leBytes 8 data.length) = data.length :=
      ofLeBytes_leBytes (by omega)
    rw [binaryFrames_cons, readFramesFrom, readExact_append (length_leBytes 8 _)]
    simp only [hlen, readExact_append rfl]
    rw [if_neg (by omega), ih (by omega) (by omega)]
    rfl

end Frames

namespace LogFiles

theorem readAllEventBytes_binaryFrames {f : LogFiles} {events : List (List UInt8)}
    (hrotated : f.rotated = []) (hevents : f.events = binaryFrames events)
    (hfits : f.events.length < 2 ^ 64) : f.readAllEventBytes = some events := by
  have hread : readFrames f.events = some events := by
    rw [hevents] at hfits ⊢
    exact readFramesFrom_binaryFrames le_rfl (by omega)
  rw [readAllEventBytes, hrotated, hread]
  rfl

/-- Fewer bytes than the frames of the events do not give them. -/
theorem readAllEventBytes_ne_of_lt {f : LogFiles} {events : List (List UInt8)}
    (hrotated : f.rotated = []) (hshort : f.events.length < (binaryFrames events).length) :
    f.readAllEventBytes ≠ some events := by
  intro hread
  rw [readAllEventBytes, hrotated] at hread
  obtain ⟨found, hfound, rfl⟩ := Option.map_eq_some_iff.mp hread
  exact absurd (length_of_readFramesFrom hfound) (Nat.not_le.mpr hshort)

end LogFiles

namespace Twin

variable (crc32 : List UInt8 → UInt32) (maxEventsBuffer : ℕ)

/-- A binary event is appended on the optimised path. -/
def OptimizedBinary (s : Twin) (a : LogAction) : Prop :=
  s.optimized = true ∧ ∃ data, a = .appendBinaryEventBytes data

/-- The twin has the frames of the events, and the log is seven bytes shorter for each of them that
was appended on the optimised path. -/
structure BinaryInv (s : Twin) (events : List (List UInt8)) (shorter : ℕ) : Prop where
  plain : s.plain.files = ⟨[], binaryFrames events, 0⟩
  plainBatch : s.plain.eventBatch = []
  plainWriter : s.plain.binaryWriter.getD 0 = 0
  rotated : s.storage.files.rotated = []
  generation : s.storage.files.generation = 0
  eventBatch : s.storage.eventBatch = []
  binaryWriter : s.storage.binaryWriter.getD 0 = 0
  length : s.storage.files.events.length + (pendingAll crc32 s.threads).length + 7 * shorter =
    (binaryFrames events).length
  handles : ∀ t ∈ s.threads, t.handle = 0
  current : s.optimized = true → s.threads ≠ []

section BinarySteps

variable {crc32 maxEventsBuffer} {s next : Twin} {events : List (List UInt8)} {shorter : ℕ}

/-- The threads that a command was sent to. -/
theorem BinaryInv.handles_send (h : BinaryInv crc32 s events shorter) (hthreads : s.threads ≠ [])
    (command : AsyncWriteCommand) :
    (∀ t ∈ send command s.threads, t.handle = 0) ∧ send command s.threads ≠ [] := by
  obtain ⟨t, rest, heq⟩ := List.exists_cons_of_ne_nil hthreads
  have hhandles := h.handles
  rw [heq] at hhandles ⊢
  exact ⟨forall_send hhandles (fun _ ↦ hhandles t List.mem_cons_self) _, List.cons_ne_nil _ _⟩

theorem BinaryInv.flush (h : BinaryInv crc32 s events shorter) :
    BinaryInv crc32 (s.call .flush fun p ↦ p.flushBatch crc32) events shorter := by
  have hplain : s.plain.flushBatch crc32 = s.plain := if_pos h.plainBatch
  have hstorage : s.storage.flushBatch crc32 = s.storage := if_pos h.eventBatch
  cases hpath : s.optimized with
  | false =>
    rw [call_of_plain hpath, hplain, hstorage]
    exact ⟨h.plain, h.plainBatch, h.plainWriter, h.rotated, h.generation, h.eventBatch,
      h.binaryWriter, h.length, h.handles, fun hoptimized ↦ absurd hoptimized (by simp)⟩
  | true =>
    obtain ⟨t, rest, hthreads⟩ := List.exists_cons_of_ne_nil (h.current hpath)
    rw [call_of_optimized hpath, hplain]
    obtain ⟨hhandles, hsent⟩ := h.handles_send (h.current hpath) .flush
    refine ⟨h.plain, h.plainBatch, h.plainWriter, h.rotated, h.generation, h.eventBatch,
      h.binaryWriter, ?_, hhandles, fun _ ↦ hsent⟩
    rw [hthreads, pendingAll_send, WriterThread.commandBytes, List.append_nil, ← hthreads]
    exact h.length

/-- The plain path writes the frame of a binary event at once. -/
theorem files_appendBinaryEventBytes {p : PlainStorage} (hgeneration : p.files.generation = 0)
    (hwriter : p.binaryWriter.getD 0 = 0) (data : List UInt8) :
    p.appendBinaryEventBytes data = { p with
      files := { p.files with events := p.files.events ++ binaryFrame data }
      binaryWriter := some 0 } := by
  have hhandle : p.binaryWriter.getD p.files.generation = 0 := by rw [hgeneration, hwriter]
  unfold PlainStorage.appendBinaryEventBytes
  simp only [hhandle]
  rw [LogFiles.write, if_pos hgeneration.symm]

theorem binaryFrames_concat (data : List UInt8) :
    binaryFrames (events ++ [data]) = binaryFrames events ++ binaryFrame data := by
  rw [binaryFrames, List.flatMap_append, List.flatMap_singleton]
  rfl

theorem length_binaryFrame (data : List UInt8) : (binaryFrame data).length = 8 + data.length := by
  rw [binaryFrame, List.length_append, length_leBytes]

/-- A binary event is seven bytes shorter on the optimised path. -/
theorem BinaryInv.append (h : BinaryInv crc32 s events shorter) (data : List UInt8) :
    BinaryInv crc32 (s.call (.writeBinary data) fun p ↦ p.appendBinaryEventBytes data)
      (events ++ [data]) (if s.optimized then shorter + 1 else shorter) := by
  have hgeneration : s.plain.files.generation = 0 := by rw [h.plain]
  have hplain := files_appendBinaryEventBytes hgeneration h.plainWriter data
  have hfiles : ({ s.plain.files with events := s.plain.files.events ++ binaryFrame data } :
      LogFiles) = ⟨[], binaryFrames (events ++ [data]), 0⟩ := by
    rw [h.plain, binaryFrames_concat]
  rw [hfiles] at hplain
  have hlength := h.length
  cases hpath : s.optimized with
  | false =>
    rw [call_of_plain hpath, hplain, files_appendBinaryEventBytes h.generation h.binaryWriter]
    refine ⟨rfl, h.plainBatch, rfl, h.rotated, h.generation, h.eventBatch, rfl, ?_, h.handles,
      fun hoptimized ↦ absurd hoptimized (by simp)⟩
    show (s.storage.files.events ++ binaryFrame data).length +
      (pendingAll crc32 s.threads).length + 7 * shorter = _
    rw [binaryFrames_concat, List.length_append, List.length_append, length_binaryFrame]
    omega
  | true =>
    obtain ⟨t, rest, hthreads⟩ := List.exists_cons_of_ne_nil (h.current hpath)
    rw [call_of_optimized hpath, hplain, if_pos rfl]
    obtain ⟨hhandles, hsent⟩ := h.handles_send (h.current hpath) (.writeBinary data)
    refine ⟨rfl, h.plainBatch, rfl, h.rotated, h.generation, h.eventBatch, h.binaryWriter, ?_,
      hhandles, fun _ ↦ hsent⟩
    show s.storage.files.events.length +
      (pendingAll crc32 (send (.writeBinary data) s.threads)).length + 7 * (shorter + 1) = _
    rw [hthreads, pendingAll_send, WriterThread.commandBytes, ← hthreads, binaryFrames_concat,
      List.length_append, List.length_append, List.length_append, length_binaryFrame,
      List.length_singleton]
    omega

theorem BinaryInv.create (h : BinaryInv crc32 s events shorter) (optimized : Bool)
    (maxBatchSize : ℕ) : BinaryInv crc32 (s.create optimized maxBatchSize) events shorter := by
  cases optimized with
  | false =>
    exact ⟨h.plain, rfl, rfl, h.rotated, h.generation, rfl, rfl, h.length, h.handles,
      fun hoptimized ↦ absurd hoptimized (by simp [Twin.create])⟩
  | true =>
    refine ⟨h.plain, rfl, rfl, h.rotated, h.generation, rfl, rfl, ?_, ?_,
      fun _ ↦ List.cons_ne_nil _ _⟩
    · show _ + (pendingAll crc32 s.threads ++ []).length + _ = _
      rw [List.append_nil]
      exact h.length
    · intro t ht
      rcases List.mem_cons.mp ht with rfl | ht
      · exact h.generation
      · exact h.handles t ht

theorem BinaryInv.thread (h : BinaryInv crc32 s events shorter) {i : ℕ} {a : ThreadAction}
    (horder : s.InOrder (.thread i a))
    (hnext : s.step crc32 maxEventsBuffer (.thread i a) = some next) :
    BinaryInv crc32 next events shorter := by
  obtain ⟨written, threads, rfl, hpending, -, hsame⟩ := step_thread
    (fun t ht ↦ Or.inr ((h.handles t ht).trans h.generation.symm)) horder hnext
  refine ⟨h.plain, h.plainBatch, h.plainWriter, h.rotated, h.generation, h.eventBatch,
    h.binaryWriter, ?_, ?_, fun hpath hnil ↦ ?_⟩
  · have hlength := h.length
    rw [← hpending, List.length_append] at hlength
    show (s.storage.files.events ++ written).length + (pendingAll crc32 threads).length +
      7 * shorter = _
    rw [List.length_append]
    omega
  · intro t ht
    have hmem : t.handle ∈ s.threads.map WriterThread.handle :=
      hsame ▸ List.mem_map_of_mem ht
    obtain ⟨old, hold, hhandle⟩ := List.mem_map.mp hmem
    exact hhandle.symm.trans (h.handles old hold)
  · have hnil' : threads = [] := hnil
    rw [hnil', List.map_nil] at hsame
    exact h.current hpath (List.map_eq_nil_iff.mp hsame.symm)

/-- What a step does to the lengths. -/
theorem binaryInv_step {a : LogAction} (h : BinaryInv crc32 s events shorter)
    (hbinary : ∀ eventJson, a ≠ .appendEvent eventJson) (horder : s.InOrder a)
    (hnext : s.step crc32 maxEventsBuffer a = some next) :
    ∃ events' shorter', BinaryInv crc32 next events' shorter' ∧ shorter ≤ shorter' ∧
      (shorter' = shorter ↔ ¬ s.OptimizedBinary a) := by
  cases a with
  | appendEvent eventJson => exact absurd rfl (hbinary eventJson)
  | appendBinaryEventBytes data =>
    obtain rfl := Option.some.inj hnext
    refine ⟨_, _, h.append data, ?_, ?_⟩
    · split_ifs <;> omega
    · cases hpath : s.optimized <;> simp [OptimizedBinary, hpath]
  | flushEvents =>
    obtain rfl := Option.some.inj hnext
    exact ⟨_, _, h.flush, le_rfl, iff_of_true rfl (by simp [OptimizedBinary])⟩
  | reopen optimized maxBatchSize =>
    obtain rfl := Option.some.inj hnext
    exact ⟨_, _, h.flush.create optimized maxBatchSize, le_rfl,
      iff_of_true rfl (by simp [OptimizedBinary])⟩
  | thread i action =>
    exact ⟨_, _, h.thread horder hnext, le_rfl, iff_of_true rfl (by simp [OptimizedBinary])⟩

/-- What a run does to the lengths. -/
theorem binaryInv_exec {actions : List LogAction} (h : BinaryInv crc32 s events shorter)
    (hbinary : ∀ a ∈ actions, ∀ eventJson, a ≠ .appendEvent eventJson)
    (horder : EachStep (step crc32 maxEventsBuffer) InOrder s actions)
    (hexec : exec (step crc32 maxEventsBuffer) s actions = some next) :
    ∃ events' shorter', BinaryInv crc32 next events' shorter' ∧ shorter ≤ shorter' ∧
      (shorter' = shorter ↔
        EachStep (step crc32 maxEventsBuffer) (fun s a ↦ ¬ s.OptimizedBinary a) s actions) := by
  induction actions generalizing s events shorter with
  | nil =>
    obtain rfl := Option.some.inj hexec
    exact ⟨events, shorter, h, le_rfl, iff_of_true rfl trivial⟩
  | cons a rest ih =>
    obtain ⟨mid, hmid, hrest⟩ := exec_cons_eq_some.mp hexec
    obtain ⟨hstep, hsteps⟩ := horder mid hmid
    obtain ⟨events', shorter', h', hle, hiff⟩ :=
      binaryInv_step h (hbinary a List.mem_cons_self) hstep hmid
    obtain ⟨events'', shorter'', h'', hle', hiff'⟩ :=
      ih h' (fun b hb ↦ hbinary b (List.mem_cons_of_mem a hb)) hsteps hrest
    refine ⟨events'', shorter'', h'', hle.trans hle', ?_⟩
    constructor
    · intro hsame t ht
      obtain rfl := Option.some.inj (hmid.symm.trans ht)
      exact ⟨hiff.mp (by omega), hiff'.mp (by omega)⟩
    · intro heach
      obtain ⟨hhere, hthere⟩ := heach mid hmid
      exact (hiff'.mpr hthere).trans (hiff.mpr hhere)

theorem binaryInv_start (optimized : Bool) (maxBatchSize maxLogFileSize : ℕ) :
    BinaryInv crc32 (start optimized maxBatchSize maxLogFileSize) [] 0 := by
  refine BinaryInv.create ⟨rfl, rfl, rfl, rfl, rfl, rfl, rfl, rfl, ?_, ?_⟩ optimized maxBatchSize
  · exact fun t ht ↦ absurd ht List.not_mem_nil
  · exact fun hoptimized ↦ absurd hoptimized (by simp)

end BinarySteps

/-! ### Reading back -/

/-- When everything has been written both logs give the same events, through both readers. -/
def ReadsSame (s : Twin) : Prop :=
  s.Quiet → s.storage.files.readAllEvents crc32 = s.plain.files.readAllEvents crc32 ∧
    s.storage.files.readAllEventBytes = s.plain.files.readAllEventBytes

/-- When everything has been written both logs give the same JSON events. -/
def ReadsSameEvents (s : Twin) : Prop :=
  s.Quiet → s.storage.files.readAllEvents crc32 = s.plain.files.readAllEvents crc32

variable {crc32 maxEventsBuffer} {s t : Twin}

theorem Inv.readsSame (h : Inv crc32 s) : s.ReadsSame crc32 := by
  intro hquiet
  obtain ⟨hrotated, hevents⟩ := h.files_eq hquiet
  constructor
  · rw [LogFiles.readAllEvents, LogFiles.readAllEvents, hrotated, hevents]
  · rw [LogFiles.readAllEventBytes, LogFiles.readAllEventBytes, hrotated, hevents]

/-- What is read back of binary events tells whether one was appended on the optimised path. -/
theorem BinaryInv.readAllEventBytes_eq_iff {events : List (List UInt8)} {shorter : ℕ}
    (h : BinaryInv crc32 s events shorter) (hquiet : s.Quiet)
    (hfits : s.plain.files.events.length < 2 ^ 64)
    (hsame : shorter = 0 →
      s.storage.files.readAllEventBytes = s.plain.files.readAllEventBytes) :
    s.storage.files.readAllEventBytes = s.plain.files.readAllEventBytes ↔ shorter = 0 := by
  refine ⟨fun hread ↦ ?_, hsame⟩
  have hplain : s.plain.files.readAllEventBytes = some events :=
    LogFiles.readAllEventBytes_binaryFrames (by rw [h.plain]) (by rw [h.plain]) hfits
  have hlength := h.length
  rw [pendingAll_of_drained hquiet.1, List.length_nil, Nat.add_zero] at hlength
  by_contra hshorter
  exact LogFiles.readAllEventBytes_ne_of_lt h.rotated (by omega) (hread.trans hplain)

/-- A run of binary calls in order that appends no binary event on the optimised path keeps the
format. -/
theorem sameFormat_of_binary {actions : List LogAction} {events : List (List UInt8)} {shorter : ℕ}
    (h : BinaryInv crc32 s events shorter)
    (hbinary : ∀ a ∈ actions, ∀ eventJson, a ≠ .appendEvent eventJson)
    (horder : EachStep (step crc32 maxEventsBuffer) InOrder s actions)
    (hplain : EachStep (step crc32 maxEventsBuffer) (fun s a ↦ ¬ s.OptimizedBinary a) s actions) :
    EachStep (step crc32 maxEventsBuffer) (SameFormat crc32) s actions := by
  induction actions generalizing s events shorter with
  | nil => trivial
  | cons a rest ih =>
    intro next hnext
    obtain ⟨hstep, hsteps⟩ := horder next hnext
    obtain ⟨hhere, hthere⟩ := hplain next hnext
    have ha := hbinary a List.mem_cons_self
    obtain ⟨events', shorter', h', -, -⟩ := binaryInv_step h ha hstep hnext
    refine ⟨⟨hstep, fun hpath ↦ ⟨fun data hdata ↦ hhere ⟨hpath, data, hdata⟩, ?_⟩⟩,
      ih h' (fun b hb ↦ hbinary b (List.mem_cons_of_mem a hb)) hsteps hthere⟩
    -- The batch is empty, so that nothing is rotated.
    rintro p hp ⟨hbatch, -⟩
    cases a with
    | appendEvent eventJson => exact ha eventJson rfl
    | appendBinaryEventBytes | thread => exact absurd hp (by simp [PlainStorage.writing])
    | flushEvents | reopen =>
      obtain rfl := Option.mem_some_iff.mp hp
      exact hbatch h.plainBatch

/-- A log reads back like the one of the plain path alone, in both formats, when the threads finish
in order, and no binary event is appended and no log would be rotated on the optimised path; so do
JSON events when no log is rotated over a segment. A log of binary events alone reads back like that
exactly when none is appended on the optimised path. The reader of the optimised storage agrees with
the other one on empty logs alone. -/
theorem reads_same (crc32 : List UInt8 → UInt32) (maxEventsBuffer : ℕ) (optimized : Bool)
    (maxBatchSize maxLogFileSize : ℕ) (actions : List LogAction) :
    (EachStep (step crc32 maxEventsBuffer) (SameFormat crc32)
        (start optimized maxBatchSize maxLogFileSize) actions →
      Always (step crc32 maxEventsBuffer) (ReadsSame crc32)
        (start optimized maxBatchSize maxLogFileSize) actions) ∧
    (EachStep (step crc32 maxEventsBuffer) (JsonOnly crc32)
        (start optimized maxBatchSize maxLogFileSize) actions →
      Always (step crc32 maxEventsBuffer) (ReadsSameEvents crc32)
        (start optimized maxBatchSize maxLogFileSize) actions) ∧
    (∀ t, (∀ a ∈ actions, ∀ eventJson, a ≠ .appendEvent eventJson) →
      EachStep (step crc32 maxEventsBuffer) InOrder
        (start optimized maxBatchSize maxLogFileSize) actions →
      exec (step crc32 maxEventsBuffer) (start optimized maxBatchSize maxLogFileSize) actions =
        some t →
      t.Quiet → t.plain.files.events.length < 2 ^ 64 →
      (t.storage.files.readAllEventBytes = t.plain.files.readAllEventBytes ↔
        EachStep (step crc32 maxEventsBuffer) (fun s a ↦ ¬ s.OptimizedBinary a)
          (start optimized maxBatchSize maxLogFileSize) actions)) ∧
    ∀ events : List String, (∀ event ∈ events, OneLine event) →
      ((⟨[], jsonLines crc32 events, 0⟩ : LogFiles).optimizedReadAllEvents =
        (⟨[], jsonLines crc32 events, 0⟩ : LogFiles).readAllEvents crc32 ↔ events = []) := by
  have hsame : EachStep (step crc32 maxEventsBuffer) (SameFormat crc32)
      (start optimized maxBatchSize maxLogFileSize) actions →
        Always (step crc32 maxEventsBuffer) (ReadsSame crc32)
          (start optimized maxBatchSize maxLogFileSize) actions := by
    intro hsteps
    have hkept := hsteps.always (fun _ _ _ h hformat hnext ↦ inv_step h hformat hnext)
      (inv_start optimized maxBatchSize maxLogFileSize)
    exact hkept.mono fun _ h ↦ h.readsSame
  refine ⟨hsame, fun hsteps ↦ ?_, fun t hbinary horder hexec hquiet hfits ↦ ?_,
    fun events hlines ↦ optimizedReadAllEvents_eq_iff hlines⟩
  · have hkept := hsteps.always (fun _ _ _ h hjson hnext ↦ jsonInv_step h hjson hnext)
      (jsonInv_start optimized maxBatchSize maxLogFileSize)
    exact hkept.mono fun _ h hquiet ↦ h.readAllEvents_eq hquiet
  · have hstart : BinaryInv crc32 (start optimized maxBatchSize maxLogFileSize) [] 0 :=
      binaryInv_start optimized maxBatchSize maxLogFileSize
    obtain ⟨events, shorter, h, -, hiff⟩ := binaryInv_exec hstart hbinary horder hexec
    rw [← hiff]
    refine h.readAllEventBytes_eq_iff hquiet hfits fun hzero ↦ ?_
    have hformat := sameFormat_of_binary hstart hbinary horder (hiff.mp hzero)
    exact ((hsame hformat).exec hexec hquiet).2

/-- An event on the optimised path, and after it one on the plain path. -/
theorem reads_same_twoPaths :
    Always (step (fun _ ↦ 0) 1000) (ReadsSame fun _ ↦ 0) (start true 1000 0)
      [.appendEvent "a", .thread 0 (.receive true), .reopen false 1, .thread 0 (.receive false),
        .appendEvent "b"] := by
  refine (reads_same (fun _ ↦ 0) 1000 true 1000 0 _).1 ?_
  rintro _ ⟨⟩
  refine ⟨⟨fun hpath ↦ absurd hpath (by decide), fun _ ↦ ⟨fun _ ↦ by simp, fun p hp ↦ ?_⟩⟩, ?_⟩
  · exact absurd (show (none : Option PlainStorage) = some p from hp) (by simp)
  rintro _ ⟨⟩
  refine ⟨⟨fun t ht ↦ absurd ht List.not_mem_nil, fun _ ↦ ⟨fun _ ↦ by simp, fun p hp ↦ ?_⟩⟩, ?_⟩
  · exact absurd hp (by simp [PlainStorage.writing])
  rintro _ ⟨⟩
  refine ⟨⟨fun hpath ↦ absurd hpath (by decide), fun _ ↦ ⟨fun _ ↦ by simp, fun p hp ↦ ?_⟩⟩, ?_⟩
  · obtain rfl := Option.mem_some_iff.mp hp
    exact fun hrotates ↦ hrotates.2.1 rfl
  rintro _ ⟨⟩
  refine ⟨⟨fun t ht ↦ absurd ht List.not_mem_nil, fun hpath ↦ absurd hpath (by decide)⟩, ?_⟩
  rintro _ ⟨⟩
  exact ⟨⟨fun _ ↦ by decide, fun hpath ↦ absurd hpath (by decide)⟩, trivial⟩

/-- An empty binary event is a line feed on the optimised path, which is not read back. -/
theorem binary_line_not_read : ¬ ∀ (crc32 : List UInt8 → UInt32) (maxEventsBuffer : ℕ)
    (optimized : Bool) (maxBatchSize maxLogFileSize : ℕ) (actions : List LogAction),
    Always (step crc32 maxEventsBuffer) (ReadsSame crc32)
      (start optimized maxBatchSize maxLogFileSize) actions := by
  intro h
  have hreads := ((h (fun _ ↦ 0) 1000 true 1000 0
    [.appendBinaryEventBytes [], .thread 0 (.receive true)]).exec rfl ?_).2
  · exact absurd hreads (by decide)
  · refine ⟨?_, rfl, rfl⟩
    decide

end Twin

end Lithair.Engine
