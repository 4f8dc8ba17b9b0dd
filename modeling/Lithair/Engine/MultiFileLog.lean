import Lithair.Engine.MultiFileStore

/-!
# The event store in its multi-file mode

`EventStore` of `engine/events.rs` over a `MultiFileEventStore`: one hash chain over the envelopes
of all aggregates, which go to a file for each aggregate. A store that is made over the directory
has the global store open and no other, so that it reads the file in `global` alone.

`reopened_complete_iff`: after appends, a flush and a reopening the store has every envelope, their
number and a valid chain exactly when every append that succeeds goes to the directory of the global
store, and an envelope that comes with a hash has its own and names the last one.
-/

namespace Lithair.Engine

open Lithair.Lib Lithair.Lib.Path Lithair.Lib.Run

/-- The stores of the aggregates with the state of the chain. -/
structure MultiEventStore where
  backend : MultiFileEventStore
  eventsCount : ℕ
  pendingSinceFlush : ℕ
  flushEvery : ℕ
  lastEventHash : Option String
  enableHashChain : Bool

/-- The append of an envelope, and what becomes of its directory if it is opened. -/
structure AppendCall where
  envelope : EventEnvelope
  answer : DirAnswer

namespace MultiEventStore

variable (crc32 : List UInt8 → UInt32) (sha256 : List UInt8 → String) (json : EnvelopeJson)

/-- A store over the stores of the aggregates, with the hash chain enabled. -/
def ofBackend (backend : MultiFileEventStore) : Option MultiEventStore :=
  (backend.readAllEnvelopes crc32 json).map fun envelopes ↦
    { backend
      eventsCount := envelopes.length
      pendingSinceFlush := 0
      flushEvery := 1
      lastEventHash := envelopes.getLast?.bind EventEnvelope.eventHash
      enableHashChain := true }

def new (disk : Disk) (baseDir : Dir) : Option MultiEventStore :=
  (MultiFileEventStore.new crc32 json disk baseDir).bind (ofBackend crc32 json)

def flush (s : MultiEventStore) : MultiEventStore :=
  { s with
    backend := s.backend.flushAll crc32
    pendingSinceFlush := 0 }

/-- Append an envelope; the second component says whether the call succeeded. -/
def appendEnvelope (s : MultiEventStore) (c : AppendCall) : MultiEventStore × Bool :=
  let persisted := c.envelope.link sha256 s.enableHashChain s.lastEventHash
  match s.backend.appendEnvelope crc32 sha256 json persisted c.answer with
  | (backend, false) => ({ s with backend }, false)
  | (backend, true) =>
    let s := { s with
      backend
      lastEventHash := if s.enableHashChain then persisted.eventHash else s.lastEventHash
      eventsCount := s.eventsCount + 1
      pendingSinceFlush := s.pendingSinceFlush + 1 }
    (if 0 < s.flushEvery ∧ s.flushEvery ≤ s.pendingSinceFlush then s.flush crc32 else s, true)

/-- The store is dropped and made again. -/
def reopen (s : MultiEventStore) : Option MultiEventStore :=
  (s.backend.reopen crc32 json).bind (ofBackend crc32 json)

def getAllEnvelopes (s : MultiEventStore) : Option (List EventEnvelope) :=
  s.backend.readAllEnvelopes crc32 json

def eventCount (s : MultiEventStore) : ℕ := s.eventsCount

def verifyChain (s : MultiEventStore) : Option ChainVerificationResult :=
  (s.getAllEnvelopes crc32 json).map (Engine.verifyChain sha256)

/-- The envelopes of the appends that succeed. -/
def appended : MultiEventStore → List AppendCall → List EventEnvelope
  | _, [] => []
  | s, c :: rest =>
    let (next, ok) := s.appendEnvelope crc32 sha256 json c
    (if ok then [c.envelope] else []) ++ appended next rest

/-- The store has the envelopes, those of each aggregate in their order, counts them, and verifies
their chain. -/
structure Complete (s : MultiEventStore) (envelopes : List EventEnvelope) : Prop where
  read : ∃ found, s.getAllEnvelopes crc32 json = some found ∧
    (found.map EventEnvelope.content).Perm (envelopes.map EventEnvelope.content) ∧
    ∀ aggregateId, (found.filter fun e ↦ e.aggregateId = aggregateId).map EventEnvelope.content =
      (envelopes.filter fun e ↦ e.aggregateId = aggregateId).map EventEnvelope.content
  count : s.eventCount = envelopes.length
  verified : ∃ result, s.verifyChain crc32 sha256 json = some result ∧ result.isValid = true

/-- The append succeeds. -/
def Succeeds (s : MultiEventStore) (c : AppendCall) : Prop :=
  s.backend.stores c.envelope.aggregateId ≠ none ∨ c.answer = .made

/-- The envelope goes to the directory of the global store, and if it has a hash, the hash is its
own and it names the last one. -/
structure InGlobalChain (s : MultiEventStore) (c : AppendCall) : Prop where
  directory : MultiFileEventStore.eventsDir s.backend.baseDir c.envelope.aggregateId =
    MultiFileEventStore.eventsDir s.backend.baseDir none
  chain : EventOk sha256 s.lastEventHash c.envelope

/-! ### What a run writes -/

/-- The log: the envelopes in the order of the appends. Each file has those of its directory. -/
structure Writes (crc32 : List UInt8 → UInt32) (json : EnvelopeJson) (baseDir : Dir)
    (s : MultiEventStore) (log : List EventEnvelope) : Prop where
  backend : MultiFileEventStore.Inv crc32 json s.backend fun dir ↦
    log.filter fun e ↦ MultiFileEventStore.eventsDir baseDir e.aggregateId = dir
  baseDir : s.backend.baseDir = baseDir
  lastEventHash : s.lastEventHash = HashChain.lastHash EventEnvelope.eventHash none log
  enableHashChain : s.enableHashChain = true
  pendingSinceFlush : s.pendingSinceFlush = 0
  flushEvery : s.flushEvery = 1

variable {crc32 sha256 json} {baseDir : Dir} {s next : MultiEventStore} {log : List EventEnvelope}
  {c : AppendCall} {calls : List AppendCall}

theorem eventHash_link (envelope : EventEnvelope) (last : Option String) :
    (envelope.link sha256 true last).eventHash ≠ none := by
  unfold EventEnvelope.link
  split_ifs with hnone
  · exact Option.some_ne_none _
  · exact fun h ↦ hnone ⟨rfl, Option.isNone_iff_eq_none.mpr h⟩

theorem content_link (envelope : EventEnvelope) (enable : Bool) (last : Option String) :
    (envelope.link sha256 enable last).content = envelope.content := by
  unfold EventEnvelope.link
  split_ifs <;> rfl

theorem aggregateId_eq_of_content_eq {first second : EventEnvelope}
    (h : first.content = second.content) : first.aggregateId = second.aggregateId := by
  have haggregate := congrArg EventEnvelope.aggregateId h
  exact haggregate

/-- What is persisted passes behind the last hash exactly when the envelope does. -/
theorem eventOk_link_iff (envelope : EventEnvelope) (last : Option String) :
    EventOk sha256 last (envelope.link sha256 true last) ↔ EventOk sha256 last envelope := by
  unfold EventEnvelope.link
  split_ifs with hnone
  · refine iff_of_true (fun _ ↦ ⟨?_, fun expected hexpected ↦ hexpected⟩) fun hhash ↦ ?_
    · exact EventEnvelope.Sealed.verifyHash rfl
    · exact absurd (Option.isNone_iff_eq_none.mp hnone.2) hhash
  · exact Iff.rfl

variable (sha256) in
/-- An append writes the envelope behind the log unless its directory is refused. -/
theorem Writes.appendEnvelope (h : Writes crc32 json baseDir s log) (c : AppendCall) :
    ∃ next, s.appendEnvelope crc32 sha256 json c = (next, false) ∧ ¬ Succeeds s c ∧
        Writes crc32 json baseDir next log ∨
      s.appendEnvelope crc32 sha256 json c = (next, true) ∧ Succeeds s c ∧
        Writes crc32 json baseDir next (log ++ [c.envelope.link sha256 true s.lastEventHash]) := by
  have haggregate : (c.envelope.link sha256 true s.lastEventHash).aggregateId =
      c.envelope.aggregateId := aggregateId_eq_of_content_eq (content_link _ _ _)
  rcases MultiFileEventStore.appendEnvelope_spec sha256 h.backend
    (c.envelope.link sha256 true s.lastEventHash) c.answer with
    ⟨hclosed, hanswer, backend, happend, hopened, hstores⟩ |
    ⟨hable, backend, persisted, happend, happended, hinv⟩
  · refine ⟨{ s with backend }, Or.inl ⟨?_, ?_, ?_⟩⟩
    · simp only [MultiEventStore.appendEnvelope, h.enableHashChain, happend]
    · rw [haggregate] at hclosed
      exact fun hsucceeds ↦ hsucceeds.elim (fun hopen ↦ hopen hclosed) hanswer
    · exact ⟨hopened.inv_of_stores h.backend hstores, hopened.baseDir.trans h.baseDir,
        h.lastEventHash, h.enableHashChain, h.pendingSinceFlush, h.flushEvery⟩
  · obtain rfl := happended.hashed (eventHash_link c.envelope s.lastEventHash)
    have hflush : 0 < s.flushEvery ∧ s.flushEvery ≤ s.pendingSinceFlush + 1 := by
      rw [h.flushEvery, h.pendingSinceFlush]
      exact ⟨Nat.one_pos, le_rfl⟩
    obtain ⟨huntouched, hflushed⟩ := MultiFileEventStore.flushAll_spec hinv
    refine ⟨{ s with
      backend := backend.flushAll crc32
      lastEventHash := (c.envelope.link sha256 true s.lastEventHash).eventHash
      eventsCount := s.eventsCount + 1
      pendingSinceFlush := 0 }, Or.inr ⟨?_, ?_, ?_⟩⟩
    · simp only [MultiEventStore.appendEnvelope, h.enableHashChain, happend, if_true, if_pos hflush,
        flush]
    · rw [haggregate] at hable
      exact hable
    · refine ⟨?_, huntouched.baseDir.trans (happended.baseDir.trans h.baseDir), ?_,
        h.enableHashChain, rfl, h.flushEvery⟩
      · rw [h.baseDir, MultiFileEventStore.put_filter] at hflushed
        exact hflushed
      · rw [HashChain.lastHash_concat]

variable (crc32 sha256 json) in
def step (s : MultiEventStore) (c : AppendCall) : Option MultiEventStore :=
  some (s.appendEnvelope crc32 sha256 json c).1

variable (sha256 calls) in
/-- What a run writes are the envelopes of the appends that succeed, and it is one chain in the
global directory exactly when each of them belongs there. -/
theorem Writes.exec (h : Writes crc32 json baseDir s log) :
    ∃ next more, Run.exec (step crc32 sha256 json) s calls = some next ∧
      Writes crc32 json baseDir next (log ++ more) ∧
      more.map EventEnvelope.content =
        (appended crc32 sha256 json s calls).map EventEnvelope.content ∧
      ((∀ e ∈ more, MultiFileEventStore.eventsDir baseDir e.aggregateId =
          MultiFileEventStore.eventsDir baseDir none) ∧ ChainOk sha256 s.lastEventHash more ↔
        EachStep (step crc32 sha256 json) (fun s c ↦ Succeeds s c → InGlobalChain sha256 s c) s
          calls) := by
  induction calls generalizing s log with
  | nil =>
    refine ⟨s, [], rfl, by rwa [List.append_nil], rfl, iff_of_true ⟨?_, trivial⟩ trivial⟩
    exact fun e he ↦ absurd he List.not_mem_nil
  | cons c rest ih =>
    obtain ⟨next, ⟨happend, hfails, hnext⟩ | ⟨happend, hsucceeds, hnext⟩⟩ :=
      h.appendEnvelope sha256 c
    · have hstep : step crc32 sha256 json s c = some next := by rw [step, happend]
      obtain ⟨last, more, hexec, hlast, hcontent, hiff⟩ := ih hnext
      refine ⟨last, more, exec_cons_eq_some.mpr ⟨next, hstep, hexec⟩, hlast, ?_, ?_⟩
      · simp only [appended, happend]
        exact hcontent
      · rw [eachStep_cons hstep, ← hiff, hnext.lastEventHash, h.lastEventHash]
        exact (and_iff_right fun hsucceeds ↦ absurd hsucceeds hfails).symm
    · have hstep : step crc32 sha256 json s c = some next := by rw [step, happend]
      obtain ⟨last, more, hexec, hlast, hcontent, hiff⟩ := ih hnext
      refine ⟨last, c.envelope.link sha256 true s.lastEventHash :: more,
        exec_cons_eq_some.mpr ⟨next, hstep, hexec⟩, ?_, ?_, ?_⟩
      · rwa [List.append_assoc] at hlast
      · simp only [appended, happend, if_true]
        rw [List.map_cons, content_link, hcontent]
        rfl
      · rw [eachStep_cons hstep, ← hiff, hnext.lastEventHash, HashChain.lastHash_concat,
          List.forall_mem_cons]
        show (_ ∧ _) ∧ EventOk sha256 s.lastEventHash _ ∧ _ ↔ _
        rw [eventOk_link_iff]
        have hdirectory : MultiFileEventStore.eventsDir baseDir
            (c.envelope.link sha256 true s.lastEventHash).aggregateId =
              MultiFileEventStore.eventsDir s.backend.baseDir c.envelope.aggregateId := by
          rw [h.baseDir, aggregateId_eq_of_content_eq (content_link _ _ _)]
        rw [hdirectory, ← h.baseDir]
        constructor
        · rintro ⟨⟨hglobal, hrest⟩, hok, hchain⟩
          exact ⟨fun _ ↦ ⟨hglobal, hok⟩, hrest, hchain⟩
        · rintro ⟨hin, hrest, hchain⟩
          exact ⟨⟨(hin hsucceeds).directory, hrest⟩, (hin hsucceeds).chain, hchain⟩

/-- What a store that is made again reads is the file of the global directory. -/
theorem Writes.reopen (h : Writes crc32 json baseDir s log) :
    ∃ reopened, (s.flush crc32).reopen crc32 json = some reopened ∧
      reopened.getAllEnvelopes crc32 json = some (log.filter fun e ↦
        MultiFileEventStore.eventsDir baseDir e.aggregateId =
          MultiFileEventStore.eventsDir baseDir none) ∧
      reopened.eventCount = (log.filter fun e ↦
        MultiFileEventStore.eventsDir baseDir e.aggregateId =
          MultiFileEventStore.eventsDir baseDir none).length := by
  obtain ⟨huntouched, hflushed⟩ := MultiFileEventStore.flushAll_spec h.backend
  obtain ⟨backend, hreopen, hinv, hbase, -, -, hids, -⟩ := MultiFileEventStore.reopen_spec hflushed
  have hread := MultiFileEventStore.readStore_of_open hinv hinv.globalStore
  rw [hbase, huntouched.baseDir, h.baseDir] at hread
  have hall : backend.readAllEnvelopes crc32 json = some (log.filter fun e ↦
      MultiFileEventStore.eventsDir baseDir e.aggregateId =
        MultiFileEventStore.eventsDir baseDir none) := by
    rw [MultiFileEventStore.readAllEnvelopes, hread, hids]
    show some (_ ++ []) = _
    rw [List.append_nil]
  have hmade : ∃ reopened, ofBackend crc32 json backend = some reopened ∧
      reopened.backend = backend ∧
      reopened.eventCount = (log.filter fun e ↦
        MultiFileEventStore.eventsDir baseDir e.aggregateId =
          MultiFileEventStore.eventsDir baseDir none).length :=
    ⟨_, congrArg (Option.map _) hall, rfl, rfl⟩
  obtain ⟨reopened, hofBackend, hbackend, hcount⟩ := hmade
  refine ⟨reopened, ?_, ?_, hcount⟩
  · show ((s.backend.flushAll crc32).reopen crc32 json).bind _ = _
    rw [hreopen, Option.bind_some, hofBackend]
  · rw [getAllEnvelopes, hbackend, hall]

variable (crc32 json) in
/-- A new store writes nothing yet. -/
theorem writes_new (dirs : List Dir) (baseDir : Dir) :
    ∃ opened, new crc32 json (.fresh dirs) baseDir = some opened ∧
      Writes crc32 json baseDir opened [] := by
  obtain ⟨backend, hnew, hinv, hbase, -, -, hids, -⟩ :=
    MultiFileEventStore.new_spec (MultiFileEventStore.fresh_files crc32 json dirs) baseDir
  have hread := MultiFileEventStore.readStore_of_open hinv hinv.globalStore
  have hall : backend.readAllEnvelopes crc32 json = some [] := by
    rw [MultiFileEventStore.readAllEnvelopes, hread, hids]
    rfl
  have hofBackend : ofBackend crc32 json backend = some ⟨backend, 0, 0, 1, none, true⟩ := by
    rw [ofBackend, hall]
    rfl
  refine ⟨⟨backend, 0, 0, 1, none, true⟩, ?_, hinv, hbase, rfl, rfl, rfl, rfl⟩
  rw [new, hnew, Option.bind_some, hofBackend]

theorem map_content_filter (aggregateId : Option String) (envelopes : List EventEnvelope) :
    (envelopes.filter fun e ↦ e.aggregateId = aggregateId).map EventEnvelope.content =
      (envelopes.map EventEnvelope.content).filter fun e ↦ e.aggregateId = aggregateId := by
  rw [List.filter_map]
  rfl

/-- A store that has read a part of the log is complete exactly when the part is the whole log and
one chain. -/
theorem complete_iff {directory : EventEnvelope → Prop} [DecidablePred directory]
    {envelopes : List EventEnvelope}
    (hread : s.getAllEnvelopes crc32 json = some (log.filter directory))
    (hcount : s.eventCount = (log.filter directory).length)
    (hcontent : log.map EventEnvelope.content = envelopes.map EventEnvelope.content) :
    Complete crc32 sha256 json s envelopes ↔
      (∀ e ∈ log, directory e) ∧ ChainOk sha256 none log := by
  have hlength : log.length = envelopes.length := by
    simpa using congrArg List.length hcontent
  have hverify : s.verifyChain crc32 sha256 json =
      some (Engine.verifyChain sha256 (log.filter directory)) := by
    rw [verifyChain, hread, Option.map_some]
  constructor
  · intro h
    have hall : (log.filter directory).length = log.length := by
      rw [← hcount, h.count, hlength]
    have hfilter : log.filter directory = log :=
      List.filter_sublist.eq_of_length hall
    obtain ⟨result, hresult, hvalid⟩ := h.verified
    rw [hverify, Option.some.injEq, hfilter] at hresult
    refine ⟨fun e he ↦ ?_, isValid_verifyChain.mp (hresult ▸ hvalid)⟩
    rw [← hfilter] at he
    exact of_decide_eq_true (List.mem_filter.mp he).2
  · rintro ⟨hdirectory, hchain⟩
    have hfilter : log.filter directory = log :=
      List.filter_eq_self.mpr fun e he ↦ decide_eq_true (hdirectory e he)
    rw [hfilter] at hread hcount hverify
    refine ⟨⟨log, hread, List.Perm.of_eq hcontent, fun aggregateId ↦ ?_⟩, hcount.trans hlength,
      _, hverify, isValid_verifyChain.mpr hchain⟩
    rw [map_content_filter, map_content_filter, hcontent]

/-- After appends to a new store, a flush and a reopening, the store is complete exactly when each
append that succeeds goes to the directory of the global store, and an envelope that comes with a
hash has its own and names the last one. -/
theorem reopened_complete_iff (crc32 : List UInt8 → UInt32) (sha256 : List UInt8 → String)
    (json : EnvelopeJson) (dirs : List Dir) (baseDir : Dir) (calls : List AppendCall) :
    ∃ opened last reopened, new crc32 json (.fresh dirs) baseDir = some opened ∧
      Run.exec (step crc32 sha256 json) opened calls = some last ∧
      (last.flush crc32).reopen crc32 json = some reopened ∧
      (Complete crc32 sha256 json reopened (appended crc32 sha256 json opened calls) ↔
        EachStep (step crc32 sha256 json) (fun s c ↦ Succeeds s c → InGlobalChain sha256 s c)
          opened calls) := by
  obtain ⟨opened, hnew, hwrites⟩ := writes_new crc32 json dirs baseDir
  obtain ⟨last, log, hexec, hlast, hcontent, hiff⟩ := hwrites.exec sha256 calls
  rw [List.nil_append] at hlast
  obtain ⟨reopened, hreopen, hread, hcount⟩ := hlast.reopen
  refine ⟨opened, last, reopened, hnew, hexec, hreopen, ?_⟩
  rw [complete_iff hread hcount hcontent, ← hiff, hwrites.lastEventHash]
  rfl

/-- An event of an aggregate, which a store that is made again does not have. -/
def articleCreated : EventEnvelope := ⟨"created", "e1", 1, "{}", some "articles", none, none⟩

theorem aggregate_missing_after_reopen :
    ∃ opened last reopened, new (fun _ ↦ 0) .ofFormat (.fresh []) ["data"] = some opened ∧
      Run.exec (step (fun _ ↦ 0) (fun _ ↦ "00") .ofFormat) opened [⟨articleCreated, .made⟩] =
        some last ∧
      (last.flush fun _ ↦ 0).reopen (fun _ ↦ 0) .ofFormat = some reopened ∧
      appended (fun _ ↦ 0) (fun _ ↦ "00") .ofFormat opened [⟨articleCreated, .made⟩] =
        [articleCreated] ∧
      reopened.getAllEnvelopes (fun _ ↦ 0) .ofFormat = some [] ∧
      ¬ Complete (fun _ ↦ 0) (fun _ ↦ "00") .ofFormat reopened [articleCreated] := by
  obtain ⟨opened, hnew, hwrites⟩ := writes_new (fun _ ↦ 0) .ofFormat [] ["data"]
  obtain ⟨last, ⟨-, hfails, -⟩ | ⟨happend, -, hlast⟩⟩ :=
    hwrites.appendEnvelope (fun _ ↦ "00") ⟨articleCreated, .made⟩
  · exact absurd (Or.inr rfl) hfails
  · obtain ⟨reopened, hreopen, hread, -⟩ := hlast.reopen
    have helsewhere : MultiFileEventStore.eventsDir ["data"] (some "articles") ≠
        MultiFileEventStore.eventsDir ["data"] none := by
      decide
    have hnothing : reopened.getAllEnvelopes (fun _ ↦ 0) .ofFormat = some [] := by
      rw [hread, List.nil_append]
      exact congrArg some (List.filter_cons_of_neg (by
        rw [decide_eq_true_eq]
        exact helsewhere))
    refine ⟨opened, last, reopened, hnew, ?_, hreopen, ?_, hnothing, fun hcomplete ↦ ?_⟩
    · refine exec_cons_eq_some.mpr ⟨last, ?_, rfl⟩
      rw [step, happend]
    · simp only [appended, happend]
      rfl
    · obtain ⟨found, hfound, hperm, -⟩ := hcomplete.read
      rw [hnothing, Option.some.injEq] at hfound
      rw [← hfound] at hperm
      exact absurd hperm.length_eq (by decide)

end MultiEventStore

end Lithair.Engine
