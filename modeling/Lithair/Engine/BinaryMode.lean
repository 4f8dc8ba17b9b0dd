import Lithair.Engine.SingleFileStore

/-!
# A log of binary events that is opened again

The binary mode of `EventStore` of `engine/events.rs` is enabled by the argument of
`new_with_options`, by `LT_ENABLE_BINARY` or by `set_binary_mode`. When a log is opened, its events
are counted and the last hash is read in binary only when the argument says so; in the other two
cases the binary log is read as lines of JSON. And an envelope without its two hashes, as the first
one of a chain is, is written so that it is not read back.

`reopens_iff`: a log is opened again with all of its envelopes and goes on with its chain exactly
when each envelope in it has both hashes and it is opened with the argument, or reading it as lines
happens to give the same number and the same last hash (`JsonAgrees`).
-/

namespace Lithair.Engine

/-- What enables the binary mode. -/
inductive BinaryWay
  | option
  | environment
  | setter
  deriving DecidableEq

namespace SingleFileStore

variable (crc32 : List UInt8 → UInt32) (sha256 : List UInt8 → String) (json : EnvelopeJson)
  (bincode : EnvelopeBincode)

/-- Open a store in binary mode. -/
def startUp (way : BinaryWay) (env : StoreEnvironment) (storage : IndexedStorage) :
    Option SingleFileStore :=
  match way with
  | .option => newWithOptions crc32 json bincode env storage true
  | .environment =>
    newWithOptions crc32 json bincode { env with enableBinary := true } storage false
  | .setter =>
    (newWithOptions crc32 json bincode env storage false).map fun s ↦ s.setBinaryMode true

/-- The storage over what a store leaves, which writes its batch when it is dropped. -/
def close (s : SingleFileStore) : IndexedStorage :=
  .new (s.flush crc32).storage.plain.files (s.flush crc32).storage.index
    s.storage.plain.maxLogFileSize

/-- The next event names the hash of the last one of these, and what is verified with it is valid
when these are. -/
def ContinuesChain (s : SingleFileStore) (persisted : List EventEnvelope) : Prop :=
  ∀ next : EventEnvelope, next.eventHash = none →
    (s.enableHashChain = true → (s.envelopeToPersist sha256 next).previousHash =
      persisted.getLast?.bind EventEnvelope.eventHash) ∧
    ((binaryFrames ((persisted ++ [s.envelopeToPersist sha256 next]).map bincode.encode)).length
        < 2 ^ 64 →
      (Engine.verifyChain sha256 persisted).isValid = true →
        ∃ result, (s.appendEnvelope crc32 sha256 json bincode next).verifyChain crc32 sha256 json
          bincode = some result ∧ result.isValid = true)

/-- Envelopes that are appended to a new log are all there when the log is opened again, and the
chain goes on. -/
def Reopens (way : BinaryWay) (env : StoreEnvironment) (maxLogFileSize : ℕ)
    (envelopes : List EventEnvelope) : Prop :=
  ∃ opened reopened,
    startUp crc32 json bincode way env (.new .empty [] maxLogFileSize) = some opened ∧
    startUp crc32 json bincode way env
      ((envelopes.foldl (appendEnvelope crc32 sha256 json bincode) opened).close crc32) =
        some reopened ∧
    reopened.eventCount = envelopes.length ∧
    reopened.getAllEnvelopes crc32 json bincode = some (opened.persistedOf sha256 envelopes) ∧
    reopened.ContinuesChain crc32 sha256 json bincode (opened.persistedOf sha256 envelopes)

/-- The envelopes that go to a new log. -/
def persistedFrom (env : StoreEnvironment) (envelopes : List EventEnvelope) : List EventEnvelope :=
  linkAll sha256 (!env.disableHashChain) none envelopes

/-- Read as lines of JSON, the binary log of the envelopes has as many events, and the last of the
envelopes that are found has the last hash. -/
def JsonAgrees (env : StoreEnvironment) (persisted : List EventEnvelope) : Prop :=
  ∃ lines, LogFiles.readFile crc32 (binaryFrames (persisted.map bincode.encode)) = .ok lines ∧
    lines.length = persisted.length ∧
    (env.disableHashChain = false →
      (lines.filterMap json.parse).getLast?.bind EventEnvelope.eventHash =
        persisted.getLast?.bind EventEnvelope.eventHash)

variable {crc32 sha256 json bincode} {way : BinaryWay} {env : StoreEnvironment}
  {maxLogFileSize : ℕ} {envelopes persisted : List EventEnvelope}

/-- An envelope is read back when it has both hashes. -/
theorem decodeAll_encode (envelopes : List EventEnvelope) :
    decodeAll bincode (envelopes.map bincode.encode) =
      envelopes.filter fun e ↦ decide e.Complete := by
  induction envelopes with
  | nil => rfl
  | cons e rest ih =>
    rw [decodeAll] at ih
    rw [decodeAll, List.map_cons, List.filterMap_cons, if_neg (bincode.encode_ne_nil e), ih]
    by_cases hcomplete : e.Complete
    · rw [bincode.decode_encode e hcomplete, List.filter_cons_of_pos (by simpa using hcomplete)]
    · rw [bincode.decode_incomplete e hcomplete,
        List.filter_cons_of_neg (by simpa using hcomplete)]

/-- Nothing is left out when every envelope has both hashes. -/
theorem filter_complete (hcomplete : ∀ e ∈ persisted, e.Complete) :
    persisted.filter (fun e ↦ decide e.Complete) = persisted :=
  List.filter_eq_self.mpr fun e he ↦ decide_eq_true (hcomplete e he)

/-- The storage is over the binary log of the envelopes. -/
structure Leaves (bincode : EnvelopeBincode) (storage : IndexedStorage)
    (persisted : List EventEnvelope) : Prop where
  asyncWriter : storage.asyncWriter = none
  eventBatch : storage.plain.eventBatch = []
  binaryWriter : storage.plain.binaryWriter = none
  rotated : storage.plain.files.rotated = []
  events : storage.plain.files.events = binaryFrames (persisted.map bincode.encode)

/-- A store that has been opened in binary mode. -/
def openedStore (env : StoreEnvironment) (storage : IndexedStorage) (eventsCount : ℕ)
    (lastEventHash : Option String) : SingleFileStore where
  storage := storage
  eventsCount := eventsCount
  pendingSinceFlush := 0
  flushEvery := 1
  binaryMode := true
  disableIndex := env.disableIndex
  lastEventHash := lastEventHash
  enableHashChain := !env.disableHashChain

theorem startUp_empty (way : BinaryWay) (env : StoreEnvironment) (maxLogFileSize : ℕ) :
    startUp crc32 json bincode way env (.new .empty [] maxLogFileSize) =
      some (openedStore env (.new .empty [] maxLogFileSize) 0 none) := by
  cases way <;> rfl

variable (crc32 sha256 json bincode env maxLogFileSize envelopes) in
/-- The storage over a new log to which the envelopes have been appended. -/
def closedLog : IndexedStorage :=
  (envelopes.foldl (appendEnvelope crc32 sha256 json bincode)
    (openedStore env (.new .empty [] maxLogFileSize) 0 none)).close crc32

variable (crc32 sha256 json bincode env maxLogFileSize envelopes) in
theorem leaves_closedLog :
    Leaves bincode (closedLog crc32 sha256 json bincode env maxLogFileSize envelopes)
      (persistedFrom sha256 env envelopes) := by
  have hatOnce : (openedStore env (.new .empty [] maxLogFileSize) 0 none).AtOnce := ⟨rfl, rfl, rfl⟩
  obtain ⟨hlast, hplain⟩ := hatOnce.foldl crc32 sha256 json bincode envelopes
  have hfiles : (envelopes.foldl (appendEnvelope crc32 sha256 json bincode)
      (openedStore env (.new .empty [] maxLogFileSize) 0 none)).storage.plain.files =
        ⟨[], binaryFrames ((persistedFrom sha256 env envelopes).map bincode.encode), 0⟩ := by
    rw [hplain]
    exact PlainStorage.files_foldl_appendBinaryEventBytes rfl _
  rw [closedLog, close, flush_of_plain hlast.asyncWriter]
  dsimp only
  rw [PlainStorage.flushBatch, if_pos hlast.eventBatch, hfiles]
  exact ⟨rfl, rfl, rfl, rfl, rfl⟩

section Reopened

variable {storage : IndexedStorage} {eventsCount : ℕ} {lastEventHash : Option String}

theorem Leaves.readAllEventBytes (h : Leaves bincode storage persisted)
    (hfits : (binaryFrames (persisted.map bincode.encode)).length < 2 ^ 64) :
    storage.plain.files.readAllEventBytes = some (persisted.map bincode.encode) :=
  LogFiles.readAllEventBytes_binaryFrames h.rotated h.events (by rwa [h.events])

theorem Leaves.readAllEvents (h : Leaves bincode storage persisted) :
    storage.plain.files.readAllEvents crc32 =
      LogFiles.readFile crc32 (binaryFrames (persisted.map bincode.encode)) := by
  have hnone : LogFiles.readFile crc32 [] = .ok [] := rfl
  rw [LogFiles.readAllEvents, h.rotated, hnone, h.events]
  cases LogFiles.readFile crc32 (binaryFrames (persisted.map bincode.encode)) with
  | error error => rfl
  | ok lines => rfl

variable (crc32 json env) in
/-- With the argument the log is read as it was written. -/
theorem Leaves.startUp_option (h : Leaves bincode storage persisted)
    (hfits : (binaryFrames (persisted.map bincode.encode)).length < 2 ^ 64) :
    startUp crc32 json bincode .option env storage =
      some (openedStore env storage persisted.length
        ((persisted.filter fun e ↦ decide e.Complete).getLast?.bind EventEnvelope.eventHash)) := by
  rw [startUp, newWithOptions, countEvents, loadLastEventHash, readEnvelopes, if_pos rfl,
    if_pos rfl, h.readAllEventBytes hfits, Option.map_some, Option.map_some, decodeAll_encode,
    List.length_map]
  rfl

variable (crc32 json env) in
/-- Without it the log is read as lines of JSON. -/
theorem Leaves.startUp_json (h : Leaves bincode storage persisted) (hway : way ≠ .option) :
    startUp crc32 json bincode way env storage =
      (LogFiles.readFile crc32 (binaryFrames (persisted.map bincode.encode))).toOption.map
        fun lines ↦ openedStore env storage lines.length
          ((lines.filterMap json.parse).getLast?.bind EventEnvelope.eventHash) := by
  cases way with
  | option => exact absurd rfl hway
  | environment | setter =>
    rw [startUp, newWithOptions, countEvents, loadLastEventHash, readEnvelopes,
      if_neg Bool.false_ne_true, if_neg Bool.false_ne_true, h.readAllEvents]
    cases LogFiles.readFile crc32 (binaryFrames (persisted.map bincode.encode)) <;> rfl

theorem Leaves.getAllEnvelopes (h : Leaves bincode storage persisted)
    (hfits : (binaryFrames (persisted.map bincode.encode)).length < 2 ^ 64) :
    (openedStore env storage eventsCount lastEventHash).getAllEnvelopes crc32 json bincode =
      some (persisted.filter fun e ↦ decide e.Complete) := by
  rw [SingleFileStore.getAllEnvelopes, readEnvelopes]
  show (storage.plain.files.readAllEventBytes).map _ = _
  rw [h.readAllEventBytes hfits, Option.map_some, decodeAll_encode]

variable (crc32 json) in
/-- An envelope that is appended to a log that has been opened is behind the others. -/
theorem Leaves.getAllEnvelopes_append (h : Leaves bincode storage persisted)
    {persistedNext : EventEnvelope} (next : EventEnvelope)
    (hnext : (openedStore env storage eventsCount lastEventHash).envelopeToPersist sha256 next =
      persistedNext)
    (hfits : (binaryFrames ((persisted ++ [persistedNext]).map bincode.encode)).length < 2 ^ 64) :
    ((openedStore env storage eventsCount lastEventHash).appendEnvelope crc32 sha256 json bincode
      next).getAllEnvelopes crc32 json bincode =
        some ((persisted ++ [persistedNext]).filter fun e ↦ decide e.Complete) := by
  have hatOnce : (openedStore env storage eventsCount lastEventHash).AtOnce :=
    ⟨h.asyncWriter, rfl, h.eventBatch⟩
  obtain ⟨hafter, hplain⟩ := hatOnce.appendEnvelope crc32 sha256 json bincode next
  have hfiles : ((openedStore env storage eventsCount lastEventHash).appendEnvelope crc32 sha256
      json bincode next).storage.plain.files =
        { storage.plain.files with
          events := binaryFrames ((persisted ++ [persistedNext]).map bincode.encode) } := by
    have hwrite : (storage.plain.appendBinaryEventBytes (bincode.encode persistedNext)).files =
        { storage.plain.files with
          events := storage.plain.files.events ++
            binaryFrame (bincode.encode persistedNext) } := by
      rw [PlainStorage.appendBinaryEventBytes, h.binaryWriter]
      exact if_pos rfl
    rw [hplain, hnext]
    refine hwrite.trans ?_
    rw [h.events, List.map_append, binaryFrames, binaryFrames, List.flatMap_append,
      List.map_singleton, List.flatMap_singleton]
  have hread : LogFiles.readAllEventBytes { storage.plain.files with
      events := binaryFrames ((persisted ++ [persistedNext]).map bincode.encode) } =
        some ((persisted ++ [persistedNext]).map bincode.encode) :=
    LogFiles.readAllEventBytes_binaryFrames h.rotated rfl hfits
  rw [SingleFileStore.getAllEnvelopes, readEnvelopes, hafter.binaryMode, if_pos rfl, hfiles, hread,
    Option.map_some, decodeAll_encode]

/-- An envelope without a hash is linked to the last hash of an enabled chain. -/
theorem envelopeToPersist_openedStore {next : EventEnvelope} (hnew : next.eventHash = none)
    (henabled : env.disableHashChain = false) :
    ((openedStore env storage eventsCount lastEventHash).envelopeToPersist sha256
        next).previousHash = lastEventHash ∧
      ((openedStore env storage eventsCount lastEventHash).envelopeToPersist sha256 next).Sealed
        sha256 := by
  have hlink : (openedStore env storage eventsCount lastEventHash).envelopeToPersist sha256 next =
      next.link sha256 true lastEventHash := by
    show next.link sha256 (!env.disableHashChain) lastEventHash = _
    rw [henabled]
    rfl
  rw [hlink]
  exact link_of_new hnew lastEventHash

/-- The chain goes on exactly when the store knows the last hash. -/
theorem Leaves.continuesChain_iff (h : Leaves bincode storage persisted)
    (hcomplete : ∀ e ∈ persisted, e.Complete) :
    (openedStore env storage eventsCount lastEventHash).ContinuesChain crc32 sha256 json bincode
        persisted ↔
      (env.disableHashChain = false →
        lastEventHash = persisted.getLast?.bind EventEnvelope.eventHash) := by
  constructor
  · intro hcontinues henabled
    have hnew : (⟨"", "", 0, "", none, none, none⟩ : EventEnvelope).eventHash = none := rfl
    have hlink := (hcontinues _ hnew).1 (by
      show (!env.disableHashChain) = true
      rw [henabled]
      rfl)
    rwa [(envelopeToPersist_openedStore hnew henabled).1] at hlink
  · intro hlast next hnew
    refine ⟨fun henabled ↦ ?_, fun hfits hvalid ↦ ?_⟩
    · have hnot : env.disableHashChain = false := Bool.not_eq_true' _ ▸ henabled
      rw [(envelopeToPersist_openedStore hnew hnot).1, hlast hnot]
    · have hread := h.getAllEnvelopes_append crc32 json next rfl hfits
      refine ⟨_, by rw [verifyChain, hread, Option.map_some], ?_⟩
      rw [isValid_verifyChain] at hvalid ⊢
      rw [List.filter_append, filter_complete hcomplete]
      by_cases hwhole :
          ((openedStore env storage eventsCount lastEventHash).envelopeToPersist sha256
            next).Complete
      · rw [List.filter_cons_of_pos (by simpa using hwhole), List.filter_nil, chainOk_concat,
          lastHash_eq_getLast?]
        refine ⟨hvalid, fun _ ↦ ?_⟩
        cases hdisabled : env.disableHashChain with
        | true =>
          -- An envelope without a hash stays without it.
          refine absurd ?_ hwhole.1
          rw [envelopeToPersist, EventEnvelope.link, if_neg]
          · exact hnew
          · show ¬ ((!env.disableHashChain) = true ∧ _)
            rw [hdisabled]
            exact fun hboth ↦ Bool.false_ne_true hboth.1
        | false =>
          have hlinked : ((openedStore env storage eventsCount lastEventHash).envelopeToPersist
              sha256 next).previousHash = lastEventHash ∧
                ((openedStore env storage eventsCount lastEventHash).envelopeToPersist sha256
                  next).Sealed sha256 := envelopeToPersist_openedStore hnew hdisabled
          obtain ⟨hprevious, hsealed⟩ := hlinked
          refine ⟨hsealed.verifyHash, fun expected hexpected ↦ ?_⟩
          rw [hprevious, hlast hdisabled]
          exact hexpected
      · rw [List.filter_cons_of_neg (by simpa using hwhole), List.filter_nil, List.append_nil]
        exact hvalid

end Reopened

theorem reopens_iff_startUp :
    Reopens crc32 sha256 json bincode way env maxLogFileSize envelopes ↔
      ∃ reopened, startUp crc32 json bincode way env
          (closedLog crc32 sha256 json bincode env maxLogFileSize envelopes) = some reopened ∧
        reopened.eventCount = envelopes.length ∧
        reopened.getAllEnvelopes crc32 json bincode = some (persistedFrom sha256 env envelopes) ∧
        reopened.ContinuesChain crc32 sha256 json bincode (persistedFrom sha256 env envelopes) := by
  constructor
  · rintro ⟨opened, reopened, hopened, hrest⟩
    rw [startUp_empty] at hopened
    obtain rfl := Option.some.inj hopened
    exact ⟨reopened, hrest⟩
  · rintro ⟨reopened, hrest⟩
    exact ⟨_, reopened, startUp_empty way env maxLogFileSize, hrest⟩

/-- What is opened again has all of its envelopes only when each of them has both hashes. -/
theorem complete_of_reopens
    (hfits : (binaryFrames ((persistedFrom sha256 env envelopes).map bincode.encode)).length <
      2 ^ 64)
    (h : Reopens crc32 sha256 json bincode way env maxLogFileSize envelopes) :
    ∀ e ∈ persistedFrom sha256 env envelopes, e.Complete := by
  obtain ⟨reopened, hreopened, -, hread, -⟩ := reopens_iff_startUp.mp h
  have hleaves := leaves_closedLog crc32 sha256 json bincode env maxLogFileSize envelopes
  have hopened : ∃ eventsCount lastEventHash, openedStore env
      (closedLog crc32 sha256 json bincode env maxLogFileSize envelopes) eventsCount
        lastEventHash = reopened := by
    by_cases hway : way = .option
    · rw [hway, hleaves.startUp_option crc32 json env hfits] at hreopened
      exact ⟨_, _, Option.some.inj hreopened⟩
    · rw [hleaves.startUp_json crc32 json env hway] at hreopened
      obtain ⟨lines, -, hlines⟩ := Option.map_eq_some_iff.mp hreopened
      exact ⟨_, _, hlines⟩
  obtain ⟨eventsCount, lastEventHash, rfl⟩ := hopened
  rw [hleaves.getAllEnvelopes hfits, Option.some.injEq, List.filter_eq_self] at hread
  exact fun e he ↦ of_decide_eq_true (hread e he)

end SingleFileStore

open SingleFileStore in
/-- A new log to which envelopes were appended in binary mode is opened again with all of them, and
goes on with its chain, exactly when each has both hashes and the log is opened with the argument,
or is read as lines with the same number and the same last hash. -/
theorem reopens_iff (crc32 : List UInt8 → UInt32) (sha256 : List UInt8 → String)
    (json : EnvelopeJson) (bincode : EnvelopeBincode) (way : BinaryWay) (env : StoreEnvironment)
    (maxLogFileSize : ℕ) (envelopes : List EventEnvelope)
    (hfits : (binaryFrames ((persistedFrom sha256 env envelopes).map bincode.encode)).length <
      2 ^ 64) :
    Reopens crc32 sha256 json bincode way env maxLogFileSize envelopes ↔
      (∀ e ∈ persistedFrom sha256 env envelopes, e.Complete) ∧
        (way = .option ∨
          JsonAgrees crc32 json bincode env (persistedFrom sha256 env envelopes)) := by
  have hleaves := leaves_closedLog crc32 sha256 json bincode env maxLogFileSize envelopes
  have hlength : (persistedFrom sha256 env envelopes).length = envelopes.length :=
    length_linkAll _ _ envelopes
  constructor
  · intro h
    have hcomplete := complete_of_reopens hfits h
    refine ⟨hcomplete, ?_⟩
    by_cases hway : way = .option
    · exact Or.inl hway
    · obtain ⟨reopened, hreopened, hcount, -, hcontinues⟩ := reopens_iff_startUp.mp h
      rw [hleaves.startUp_json crc32 json env hway] at hreopened
      obtain ⟨lines, hlines, rfl⟩ := Option.map_eq_some_iff.mp hreopened
      refine Or.inr ⟨lines, ?_, hcount.trans hlength.symm,
        (hleaves.continuesChain_iff hcomplete).mp hcontinues⟩
      cases hread : LogFiles.readFile crc32 _ with
      | error error =>
        rw [hread] at hlines
        exact absurd hlines nofun
      | ok found =>
        rw [hread] at hlines
        rw [Option.some.inj hlines]
  · rintro ⟨hcomplete, hway⟩
    have hfilter := filter_complete hcomplete
    rw [reopens_iff_startUp]
    by_cases hoption : way = .option
    · have hreopened := hleaves.startUp_option crc32 json env hfits
      rw [hfilter, ← hoption] at hreopened
      refine ⟨_, hreopened, hlength, ?_, ?_⟩
      · rw [hleaves.getAllEnvelopes hfits, hfilter]
      · exact (hleaves.continuesChain_iff hcomplete).mpr fun _ ↦ rfl
    · obtain ⟨lines, hread, hcount, hlast⟩ := hway.resolve_left hoption
      have hreopened := hleaves.startUp_json crc32 json env hoption
      rw [hread] at hreopened
      refine ⟨_, hreopened, hcount.trans hlength, ?_, ?_⟩
      · rw [hleaves.getAllEnvelopes hfits, hfilter]
      · exact (hleaves.continuesChain_iff hcomplete).mpr hlast

open SingleFileStore in
theorem reopens_iff_imported :
    Reopens (fun _ ↦ 0) (fun _ ↦ "00") .ofFormat .ofCodec .environment ⟨false, false, false⟩ 0
        [⟨"created", "e1", 300, "{}", some "a", some "h1", some "h0"⟩] ↔
      (∀ e ∈ persistedFrom (fun _ ↦ "00") ⟨false, false, false⟩
          [⟨"created", "e1", 300, "{}", some "a", some "h1", some "h0"⟩], e.Complete) ∧
        (BinaryWay.environment = .option ∨
          JsonAgrees (fun _ ↦ 0) .ofFormat .ofCodec ⟨false, false, false⟩
            (persistedFrom (fun _ ↦ "00") ⟨false, false, false⟩
              [⟨"created", "e1", 300, "{}", some "a", some "h1", some "h0"⟩])) :=
  reopens_iff (fun _ ↦ 0) (fun _ ↦ "00") .ofFormat .ofCodec .environment ⟨false, false, false⟩ 0 _
    (by decide)

/-- The first event of a chain names no hash, and is not read back. -/
theorem firstEvent_not_reopened : ¬ ∀ (crc32 : List UInt8 → UInt32) (sha256 : List UInt8 → String)
    (json : EnvelopeJson) (bincode : EnvelopeBincode) (way : BinaryWay) (env : StoreEnvironment)
    (maxLogFileSize : ℕ) (envelopes : List EventEnvelope),
    SingleFileStore.Reopens crc32 sha256 json bincode way env maxLogFileSize envelopes := by
  intro h
  have hcomplete := SingleFileStore.complete_of_reopens (by decide)
    (h (fun _ ↦ 0) (fun _ ↦ "00") .ofFormat .ofCodec .option ⟨false, false, false⟩ 0
      [⟨"created", "e1", 1, "{}", none, none, none⟩])
  exact (hcomplete _ List.mem_cons_self).2 rfl

end Lithair.Engine
