import Lithair.Engine.FileStorage

/-!
# The writer task

`engine/async_writer.rs`: a task that takes messages from a channel, gathers the texts of events in
a buffer, and hands the buffer to the storage when it is full, when a flush is asked for, or when
nothing has come in for a while. A flush is acknowledged when the storage has been flushed.

Whatever the task does, the log will be the same once everything is written (`receive_spec`,
`timeout_spec`); and after a flush nothing that came in before it is left in memory.
-/

namespace Lithair.Engine

open Lithair.Lib.Text

/-- What is sent to the writer. A flush carries the channel for its acknowledgement. -/
inductive WriteEvent
  | event (json : String)
  | envelope (envelope : EventEnvelope)
  | flush (ack : ℕ)
  deriving DecidableEq

/-- The task: the messages it has not received, its buffer with the size of a batch, the flushes it
is to acknowledge, those it has acknowledged, and the storage. -/
structure AsyncWriter where
  channel : List WriteEvent
  buffer : List String
  batchSize : ℕ
  flushes : List ℕ
  acknowledged : List ℕ
  store : FileStorage
  deriving DecidableEq

namespace AsyncWriter

variable (crc32 : List UInt8 → UInt32) (envelopeJson : EventEnvelope → Option String)

/-- A writer for the storage, with the batches of both made of the same size. -/
def new (store : FileStorage) (batchSize : ℕ) : AsyncWriter where
  channel := []
  buffer := []
  batchSize := batchSize
  flushes := []
  acknowledged := []
  store := store.configureBatching batchSize

def send (w : AsyncWriter) (message : WriteEvent) : AsyncWriter :=
  { w with channel := w.channel ++ [message] }

/-- Hand the buffer to the storage (`append_raw_line` of the event store passes each line on), flush
it, and acknowledge all flushes. -/
def flushBuffer (w : AsyncWriter) : AsyncWriter :=
  if w.buffer = [] ∧ w.flushes = [] then w
  else
    { w with
      buffer := []
      flushes := []
      acknowledged := w.acknowledged ++ w.flushes
      store := (w.buffer.foldl (FileStorage.appendEvent crc32) w.store).flushEvents crc32 }

/-- Put a text into the buffer. -/
def push (w : AsyncWriter) (json : String) : AsyncWriter :=
  let w := { w with buffer := w.buffer ++ [json] }
  if w.batchSize ≤ w.buffer.length then w.flushBuffer crc32 else w

def handle (w : AsyncWriter) : WriteEvent → AsyncWriter
  | .event json => w.push crc32 json
  | .envelope envelope =>
    match envelopeJson envelope with
    | some json => w.push crc32 json
    | none => w
  | .flush ack => { w with flushes := w.flushes ++ [ack] }.flushBuffer crc32

/-- The task takes the next message. -/
def receive (w : AsyncWriter) : Option AsyncWriter :=
  match w.channel with
  | [] => none
  | message :: rest => some ({ w with channel := rest }.handle crc32 envelopeJson message)

/-- Nothing came in while the buffer was not empty. -/
def timeout (w : AsyncWriter) : Option AsyncWriter :=
  if w.buffer = [] then none else some (w.flushBuffer crc32)

/-! ### What will be written -/

/-- The texts that a message brings. -/
def textsOf : WriteEvent → List String
  | .event json => [json]
  | .envelope envelope => (envelopeJson envelope).toList
  | .flush _ => []

/-- The texts that have not been handed to the storage. -/
def pending (w : AsyncWriter) : List String := w.buffer ++ w.channel.flatMap (textsOf envelopeJson)

/-- The log as it will be when everything is written. -/
def promised (w : AsyncWriter) : List Char :=
  w.store.written crc32 ++
    FileStorage.eventLines crc32 w.store.enableChecksums (w.pending envelopeJson)

/-- What the task keeps: the log that is promised, and what is not the log. -/
structure Keeps (w w' : AsyncWriter) : Prop where
  promised : w'.promised crc32 envelopeJson = w.promised crc32 envelopeJson
  files : FileStorage.SameFiles w.store w'.store
  batchSize : w'.batchSize = w.batchSize

theorem Keeps.trans {u v w : AsyncWriter} (h : Keeps crc32 envelopeJson u v)
    (h' : Keeps crc32 envelopeJson v w) : Keeps crc32 envelopeJson u w :=
  ⟨h'.promised.trans h.promised, h.files.trans h'.files, h'.batchSize.trans h.batchSize⟩

/-- The flushes that a message asks for. -/
def acksOf : WriteEvent → List ℕ
  | .flush ack => [ack]
  | _ => []

variable {w w' : AsyncWriter}

theorem foldl_appendEvent (texts : List String) {s : FileStorage} (hrotate : s.maxLogFileSize = 0) :
    FileStorage.SameFiles s (texts.foldl (FileStorage.appendEvent crc32) s) ∧
      (texts.foldl (FileStorage.appendEvent crc32) s).written crc32 =
        s.written crc32 ++ FileStorage.eventLines crc32 s.enableChecksums texts := by
  induction texts generalizing s with
  | nil => exact ⟨⟨rfl, rfl, rfl, rfl⟩, (List.append_nil _).symm⟩
  | cons json rest ih =>
    obtain ⟨hsame, hwritten⟩ := FileStorage.appendEvent_spec crc32 hrotate json
    obtain ⟨hsame', hwritten'⟩ := ih (hsame.maxLogFileSize.trans hrotate)
    refine ⟨hsame.trans hsame', ?_⟩
    rw [List.foldl_cons, hwritten', hwritten, hsame.enableChecksums, List.append_assoc]
    rfl

/-- The buffer goes to the log, and nothing of it is left. -/
theorem flushBuffer_spec (hrotate : w.store.maxLogFileSize = 0)
    (hsome : ¬ (w.buffer = [] ∧ w.flushes = [])) :
    ∃ store, FileStorage.SameFiles w.store store ∧ store.eventBatch = [] ∧
      store.events = w.store.written crc32 ++
        FileStorage.eventLines crc32 w.store.enableChecksums w.buffer ∧
      w.flushBuffer crc32 = { w with
        buffer := []
        flushes := []
        acknowledged := w.acknowledged ++ w.flushes
        store := store } := by
  obtain ⟨hsame, hwritten⟩ := foldl_appendEvent crc32 w.buffer hrotate
  have hflush := FileStorage.flushBatch_eq crc32 (hsame.maxLogFileSize.trans hrotate)
  refine ⟨_, ?_, ?_, ?_, by rw [flushBuffer, if_neg hsome]⟩
  · rw [FileStorage.flushEvents, hflush]
    exact ⟨hsame.1, hsame.2, hsame.3, hsame.4⟩
  · rw [FileStorage.flushEvents, hflush]
  · rw [FileStorage.flushEvents, hflush]
    exact hwritten

theorem written_of_eventBatch {s : FileStorage} (h : s.eventBatch = []) :
    s.written crc32 = s.events := by
  rw [FileStorage.written, h]
  exact List.append_nil _

theorem keeps_flushBuffer (hrotate : w.store.maxLogFileSize = 0) :
    Keeps crc32 envelopeJson w (w.flushBuffer crc32) := by
  by_cases hsome : w.buffer = [] ∧ w.flushes = []
  · rw [flushBuffer, if_pos hsome]
    exact ⟨rfl, ⟨rfl, rfl, rfl, rfl⟩, rfl⟩
  · obtain ⟨store, hsame, hbatch, hevents, heq⟩ := flushBuffer_spec crc32 hrotate hsome
    rw [heq]
    refine ⟨?_, hsame, rfl⟩
    show store.written crc32 ++ FileStorage.eventLines crc32 store.enableChecksums ([] ++ _) = _
    rw [written_of_eventBatch crc32 hbatch, hevents, hsame.enableChecksums, List.append_assoc,
      ← FileStorage.eventLines_append]
    rfl

/-- Without a flush to acknowledge, the buffer is all that a flush of the buffer changes outside
the storage. -/
theorem flushBuffer_of_flushes (hflushes : w.flushes = []) :
    (w.flushBuffer crc32).channel = w.channel ∧ (w.flushBuffer crc32).flushes = [] ∧
      (w.flushBuffer crc32).acknowledged = w.acknowledged := by
  unfold flushBuffer
  split_ifs
  · exact ⟨rfl, hflushes, rfl⟩
  · refine ⟨rfl, rfl, ?_⟩
    show w.acknowledged ++ w.flushes = _
    rw [hflushes, List.append_nil]

/-- What happens when the task takes a message. -/
structure Receives (message : WriteEvent) (w w' : AsyncWriter) : Prop where
  keeps : Keeps crc32 envelopeJson w w'
  channel : w.channel = message :: w'.channel
  flushes : w'.flushes = []
  acknowledged : w'.acknowledged = w.acknowledged ++ acksOf message
  drained : ∀ ack, message = .flush ack → w'.buffer = [] ∧ w'.store.eventBatch = []

theorem receives_push {message : WriteEvent} {rest : List WriteEvent} {json : String}
    (hrotate : w.store.maxLogFileSize = 0) (hflushes : w.flushes = [])
    (hchannel : w.channel = message :: rest) (hacks : acksOf message = [])
    (htexts : textsOf envelopeJson message = [json]) :
    Receives crc32 envelopeJson message w ({ w with channel := rest }.push crc32 json) := by
  have hpromised : { w with
      channel := rest
      buffer := w.buffer ++ [json] }.promised crc32 envelopeJson =
        w.promised crc32 envelopeJson := by
    show _ ++ FileStorage.eventLines crc32 _ _ = _ ++ FileStorage.eventLines crc32 _ _
    unfold pending
    rw [hchannel, List.flatMap_cons, htexts, List.append_assoc]
  have hdrained : ∀ ack, message = .flush ack → False := by
    rintro ack rfl
    exact List.cons_ne_nil _ _ hacks
  unfold push
  simp only
  split_ifs
  · have hkeeps := keeps_flushBuffer crc32 envelopeJson
      (w := { w with
        channel := rest
        buffer := w.buffer ++ [json] }) hrotate
    obtain ⟨hrest, hnone, hsame⟩ := flushBuffer_of_flushes crc32
      (w := { w with
        channel := rest
        buffer := w.buffer ++ [json] }) hflushes
    refine ⟨⟨hkeeps.promised.trans hpromised, hkeeps.files, hkeeps.batchSize⟩, ?_, hnone, ?_,
      fun ack hack ↦ (hdrained ack hack).elim⟩
    · rw [hrest]
      exact hchannel
    · rw [hsame, hacks, List.append_nil]
  · refine ⟨⟨hpromised, ⟨rfl, rfl, rfl, rfl⟩, rfl⟩, hchannel, hflushes, ?_,
      fun ack hack ↦ (hdrained ack hack).elim⟩
    rw [hacks, List.append_nil]

/-- Taking a message keeps the promised log. -/
theorem receive_spec (hrotate : w.store.maxLogFileSize = 0) (hflushes : w.flushes = [])
    (h : w.receive crc32 envelopeJson = some w') :
    ∃ message, Receives crc32 envelopeJson message w w' := by
  unfold receive at h
  split at h
  · exact absurd h (by simp)
  next message rest hchannel =>
  obtain rfl := Option.some.inj h
  refine ⟨message, ?_⟩
  cases message with
  | event json => exact receives_push crc32 envelopeJson hrotate hflushes hchannel rfl rfl
  | envelope envelope =>
    cases hjson : envelopeJson envelope with
    | some json =>
      simp only [handle, hjson]
      refine receives_push crc32 envelopeJson hrotate hflushes hchannel rfl ?_
      rw [textsOf, hjson]
      rfl
    | none =>
      have hpromised : { w with channel := rest }.promised crc32 envelopeJson =
          w.promised crc32 envelopeJson := by
        show _ ++ FileStorage.eventLines crc32 _ _ = _ ++ FileStorage.eventLines crc32 _ _
        unfold pending
        rw [hchannel, List.flatMap_cons, textsOf, hjson]
        rfl
      simp only [handle, hjson]
      exact ⟨⟨hpromised, ⟨rfl, rfl, rfl, rfl⟩, rfl⟩, hchannel, hflushes,
        (List.append_nil _).symm, fun ack hack ↦ absurd hack (by simp)⟩
  | flush ack =>
    have hpromised : { w with
        channel := rest
        flushes := w.flushes ++ [ack] }.promised crc32 envelopeJson =
          w.promised crc32 envelopeJson := by
      show _ ++ FileStorage.eventLines crc32 _ _ = _ ++ FileStorage.eventLines crc32 _ _
      unfold pending
      rw [hchannel]
      rfl
    have hsome : ¬ (w.buffer = [] ∧ w.flushes ++ [ack] = []) :=
      fun hnil ↦ List.append_ne_nil_of_right_ne_nil _ (List.cons_ne_nil _ _) hnil.2
    have hkeeps := keeps_flushBuffer crc32 envelopeJson
      (w := { w with
        channel := rest
        flushes := w.flushes ++ [ack] }) hrotate
    obtain ⟨store, -, hbatch, -, heq⟩ := flushBuffer_spec crc32
      (w := { w with
        channel := rest
        flushes := w.flushes ++ [ack] }) hrotate hsome
    rw [heq] at hkeeps
    simp only [handle, heq]
    refine ⟨⟨hkeeps.promised.trans hpromised, hkeeps.files, rfl⟩, hchannel, rfl, ?_,
      fun _ _ ↦ ⟨rfl, hbatch⟩⟩
    show _ ++ (_ ++ _) = _ ++ [ack]
    rw [hflushes, List.nil_append]

/-- So does a flush of the buffer after a while. -/
theorem timeout_spec (hrotate : w.store.maxLogFileSize = 0) (hflushes : w.flushes = [])
    (h : w.timeout crc32 = some w') :
    Keeps crc32 envelopeJson w w' ∧ w'.channel = w.channel ∧ w'.flushes = [] ∧
      w'.acknowledged = w.acknowledged := by
  unfold timeout at h
  split_ifs at h
  obtain rfl := Option.some.inj h
  exact ⟨keeps_flushBuffer crc32 envelopeJson hrotate, flushBuffer_of_flushes crc32 hflushes⟩

end AsyncWriter

end Lithair.Engine
