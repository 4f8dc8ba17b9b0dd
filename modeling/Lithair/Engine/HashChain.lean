import Lithair.Engine.EventStore
import Lithair.Lib.HashChain

/-!
# Verification of the hash chain

`verify_chain` of `engine/events.rs`: each event's hash is computed again, and the event must name
the hash of the event before it. An event without a hash is counted and passed over, and what comes
behind it starts a chain of its own.

The log that `append_envelope` writes of envelopes without hashes is one chain from its first event
(`chained_ofAppends`), and such a chain passes with every event verified (`verifyChain_of_chained`);
both for any function in the place of SHA-256.
-/

namespace Lithair.Engine

open Lithair.Lib Lithair.Lib.Framing

/-! ### The verifier -/

structure ChainError where
  eventIndex : ℕ
  eventId : String
  error : String
  deriving DecidableEq

structure ChainVerificationResult where
  totalEvents : ℕ
  verifiedEvents : ℕ
  legacyEvents : ℕ
  invalidHashes : List ChainError
  brokenLinks : List ChainError
  isValid : Bool
  deriving DecidableEq

def ChainVerificationResult.isFullyVerified (result : ChainVerificationResult) : Bool :=
  result.isValid && result.legacyEvents == 0

/-- A legacy event without a hash passes. -/
def EventEnvelope.verifyHash (sha256 : List UInt8 → String) (envelope : EventEnvelope) : Bool :=
  match envelope.eventHash with
  | some storedHash => storedHash == envelope.computeHash sha256
  | none => true

section Verify

variable (sha256 : List UInt8 → String)

/-- The event's own hash. -/
def checkHash (result : ChainVerificationResult) (index : ℕ) (envelope : EventEnvelope) :
    ChainVerificationResult :=
  if envelope.verifyHash sha256 then result
  else
    { result with
      invalidHashes := result.invalidHashes ++ [⟨index, envelope.eventId,
        "Event hash does not match computed hash (tampered?)"⟩]
      isValid := false }

def addBrokenLink (result : ChainVerificationResult) (index : ℕ) (envelope : EventEnvelope)
    (error : String) : ChainVerificationResult :=
  { result with
    brokenLinks := result.brokenLinks ++ [⟨index, envelope.eventId, error⟩]
    isValid := false }

/-- The link to the event before it. -/
def checkLink (result : ChainVerificationResult) (index : ℕ) (envelope : EventEnvelope)
    (prevHash : Option String) : ChainVerificationResult :=
  match envelope.previousHash, prevHash with
  | some prev, some expected =>
    if prev ≠ expected then
      addBrokenLink result index envelope
        ("Chain broken: previous_hash " ++ prev ++ " doesn't match expected " ++ expected)
    else { result with verifiedEvents := result.verifiedEvents + 1 }
  | none, some _ =>
    addBrokenLink result index envelope "Missing previous_hash but chain expected continuation"
  | _, none => { result with verifiedEvents := result.verifiedEvents + 1 }

/-- Check one event, given the hash of the event before it. -/
def verifyEvent (state : ChainVerificationResult × Option String) (indexed : EventEnvelope × ℕ) :
    ChainVerificationResult × Option String :=
  let (result, prevHash) := state
  let (envelope, index) := indexed
  if envelope.eventHash.isNone then
    ({ result with legacyEvents := result.legacyEvents + 1 }, none)
  else
    (checkLink (checkHash sha256 result index envelope) index envelope prevHash, envelope.eventHash)

def verifyChain (envelopes : List EventEnvelope) : ChainVerificationResult :=
  (envelopes.zipIdx.foldl (verifyEvent sha256) (⟨envelopes.length, 0, 0, [], [], true⟩, none)).1

/-- The event passes behind an event with the hash. -/
def EventOk (prevHash : Option String) (envelope : EventEnvelope) : Prop :=
  envelope.eventHash ≠ none →
    envelope.verifyHash sha256 = true ∧ ∀ expected ∈ prevHash, envelope.previousHash = some expected

/-- Each event passes behind the one before it. -/
def ChainOk : Option String → List EventEnvelope → Prop
  | _, [] => True
  | prevHash, envelope :: rest =>
    EventOk sha256 prevHash envelope ∧ ChainOk envelope.eventHash rest

/-- Checks between two results, which pass or leave an invalid one, with what they add to the
counts. -/
structure Checks (passes : Prop) (legacy verified : ℕ) (result next : ChainVerificationResult) :
    Prop where
  isValid : next.isValid = true ↔ result.isValid = true ∧ passes
  totalEvents : next.totalEvents = result.totalEvents
  legacyEvents : next.legacyEvents = result.legacyEvents + legacy
  verifiedEvents : passes → next.verifiedEvents = result.verifiedEvents + verified

variable {sha256} {result next last : ChainVerificationResult} {prevHash : Option String}
  {envelope : EventEnvelope} {index : ℕ}

theorem Checks.trans {passes passes' : Prop} {legacy legacy' verified verified' : ℕ}
    (h : Checks passes legacy verified result next)
    (h' : Checks passes' legacy' verified' next last) :
    Checks (passes ∧ passes') (legacy + legacy') (verified + verified') result last := by
  refine ⟨?_, h'.totalEvents.trans h.totalEvents, ?_, fun ⟨hpasses, hpasses'⟩ ↦ ?_⟩
  · rw [h'.isValid, h.isValid, and_assoc]
  · rw [h'.legacyEvents, h.legacyEvents, Nat.add_assoc]
  · rw [h'.verifiedEvents hpasses', h.verifiedEvents hpasses, Nat.add_assoc]

theorem checks_checkHash : Checks (envelope.verifyHash sha256 = true) 0 0 result
    (checkHash sha256 result index envelope) := by
  unfold checkHash
  split_ifs with hverify
  · exact ⟨(and_iff_left hverify).symm, rfl, rfl, fun _ ↦ rfl⟩
  · exact ⟨iff_of_false (by simp) fun h ↦ hverify h.2, rfl, rfl, fun h ↦ absurd h hverify⟩

theorem checks_addBrokenLink {passes : Prop} (h : ¬ passes) (error : String) :
    Checks passes 0 1 result (addBrokenLink result index envelope error) :=
  ⟨iff_of_false (by simp [addBrokenLink]) fun hvalid ↦ h hvalid.2, rfl, rfl,
    fun hpasses ↦ absurd hpasses h⟩

theorem checks_checkLink :
    Checks (∀ expected ∈ prevHash, envelope.previousHash = some expected) 0 1 result
      (checkLink result index envelope prevHash) := by
  unfold checkLink
  split
  · next prev expected hprev =>
    split_ifs with hbroken
    · refine checks_addBrokenLink (fun hlink ↦ ?_) _
      exact hbroken (Option.some.inj (hprev.symm.trans (hlink expected rfl)))
    · refine ⟨(and_iff_left fun other hother ↦ ?_).symm, rfl, rfl, fun _ ↦ rfl⟩
      rw [← Option.mem_some_iff.mp hother, hprev, not_not.mp hbroken]
  · next expected hprev =>
    refine checks_addBrokenLink (fun hlink ↦ ?_) _
    exact absurd (hprev.symm.trans (hlink expected rfl)) (by simp)
  · exact ⟨(and_iff_left fun other hother ↦ absurd hother (by simp)).symm, rfl, rfl, fun _ ↦ rfl⟩

/-- The check of one event. -/
theorem checks_verifyEvent (sha256 : List UInt8 → String) (result : ChainVerificationResult)
    (prevHash : Option String) (envelope : EventEnvelope) (index : ℕ) :
    Checks (EventOk sha256 prevHash envelope) (if envelope.eventHash.isNone then 1 else 0)
      (if envelope.eventHash.isSome then 1 else 0) result
      (verifyEvent sha256 (result, prevHash) (envelope, index)).1 := by
  cases hhash : envelope.eventHash with
  | none =>
    have hok : EventOk sha256 prevHash envelope := fun h ↦ absurd hhash h
    simp only [verifyEvent, hhash]
    exact ⟨(and_iff_left hok).symm, rfl, rfl, fun _ ↦ rfl⟩
  | some hash =>
    have hok : EventOk sha256 prevHash envelope ↔ envelope.verifyHash sha256 = true ∧
        ∀ expected ∈ prevHash, envelope.previousHash = some expected :=
      forall_prop_of_true (by simp [hhash])
    have hhashed : Checks (envelope.verifyHash sha256 = true) 0 0 result
        (checkHash sha256 result index envelope) := checks_checkHash
    have hlinked : Checks (∀ expected ∈ prevHash, envelope.previousHash = some expected) 0 1
        (checkHash sha256 result index envelope)
        (checkLink (checkHash sha256 result index envelope) index envelope prevHash) :=
      checks_checkLink
    simp only [verifyEvent, hhash, hok]
    exact hhashed.trans hlinked

theorem verifyEvent_snd (sha256 : List UInt8 → String) (result : ChainVerificationResult)
    (prevHash : Option String) (envelope : EventEnvelope) (index : ℕ) :
    (verifyEvent sha256 (result, prevHash) (envelope, index)).2 = envelope.eventHash := by
  cases hhash : envelope.eventHash <;> simp [verifyEvent, hhash]

/-- The checks of the events one after the other. -/
theorem checks_foldl (sha256 : List UInt8 → String) (result : ChainVerificationResult)
    (prevHash : Option String) (envelopes : List EventEnvelope) (index : ℕ) :
    Checks (ChainOk sha256 prevHash envelopes) (envelopes.countP fun e ↦ e.eventHash.isNone)
      (envelopes.countP fun e ↦ e.eventHash.isSome) result
      ((envelopes.zipIdx index).foldl (verifyEvent sha256) (result, prevHash)).1 := by
  induction envelopes generalizing result prevHash index with
  | nil => exact ⟨(and_iff_left trivial).symm, rfl, rfl, fun _ ↦ rfl⟩
  | cons envelope rest ih =>
    have hone := checks_verifyEvent sha256 result prevHash envelope index
    have hpair : verifyEvent sha256 (result, prevHash) (envelope, index) =
        ((verifyEvent sha256 (result, prevHash) (envelope, index)).1, envelope.eventHash) :=
      Prod.ext rfl (verifyEvent_snd sha256 result prevHash envelope index)
    rw [List.zipIdx_cons, List.foldl_cons, List.countP_cons, List.countP_cons, Nat.add_comm,
      Nat.add_comm (rest.countP _), hpair]
    exact hone.trans (ih _ envelope.eventHash (index + 1))

variable (sha256) in
/-- What the verification of a list finds. -/
theorem checks_verifyChain (envelopes : List EventEnvelope) :
    Checks (ChainOk sha256 none envelopes) (envelopes.countP fun e ↦ e.eventHash.isNone)
      (envelopes.countP fun e ↦ e.eventHash.isSome) ⟨envelopes.length, 0, 0, [], [], true⟩
      (verifyChain sha256 envelopes) :=
  checks_foldl sha256 _ none envelopes 0

theorem isValid_verifyChain {envelopes : List EventEnvelope} :
    (verifyChain sha256 envelopes).isValid = true ↔ ChainOk sha256 none envelopes :=
  (checks_verifyChain sha256 envelopes).isValid.trans (and_iff_right rfl)

end Verify

/-! ### Logs that are one chain -/

section Chained

variable (sha256 : List UInt8 → String)

/-- The event has its own hash. -/
def EventEnvelope.Sealed (envelope : EventEnvelope) : Prop :=
  envelope.eventHash = some (envelope.computeHash sha256)

/-- Each event has its own hash and names the one of the event before it. -/
structure Chained (events : List EventEnvelope) : Prop where
  linked : HashChain.Linked EventEnvelope.previousHash EventEnvelope.eventHash none events
  hashed : ∀ e ∈ events, e.Sealed sha256

variable {sha256} {events : List EventEnvelope} {start : Option String}

theorem EventEnvelope.Sealed.ne_none {envelope : EventEnvelope} (h : envelope.Sealed sha256) :
    envelope.eventHash ≠ none := by
  rw [h]
  simp

theorem EventEnvelope.Sealed.verifyHash {envelope : EventEnvelope} (h : envelope.Sealed sha256) :
    envelope.verifyHash sha256 = true := by
  unfold EventEnvelope.verifyHash
  rw [h]
  exact beq_self_eq_true _

theorem chainOk_of_linked
    (hlinked : HashChain.Linked EventEnvelope.previousHash EventEnvelope.eventHash start events)
    (hsealed : ∀ e ∈ events, e.Sealed sha256) : ChainOk sha256 start events := by
  induction events generalizing start with
  | nil => trivial
  | cons e rest ih =>
    refine ⟨fun _ ↦ ⟨(hsealed e List.mem_cons_self).verifyHash, fun expected hexpected ↦ ?_⟩,
      ih hlinked.2 fun e' he' ↦ hsealed e' (List.mem_cons_of_mem e he')⟩
    rw [hlinked.1]
    exact hexpected

/-- A list that passes, in which every event has a hash, is linked; the first event must not name a
hash when none is expected, since the verifier passes it whatever it names. -/
theorem linked_of_chainOk (hok : ChainOk sha256 start events)
    (hhashed : ∀ e ∈ events, e.eventHash ≠ none)
    (hfirst : start = none → ∀ e ∈ events.head?, e.previousHash = none) :
    HashChain.Linked EventEnvelope.previousHash EventEnvelope.eventHash start events := by
  induction events generalizing start with
  | nil => trivial
  | cons e rest ih =>
    have he := hhashed e List.mem_cons_self
    refine ⟨?_, ih hok.2 (fun e' he' ↦ hhashed e' (List.mem_cons_of_mem e he')) fun h ↦ absurd h he⟩
    cases hstart : start with
    | none => exact hfirst hstart e rfl
    | some expected => exact (hok.1 he).2 expected hstart

theorem sealed_of_chainOk (hok : ChainOk sha256 start events)
    (hhashed : ∀ e ∈ events, e.eventHash ≠ none) : ∀ e ∈ events, e.Sealed sha256 := by
  induction events generalizing start with
  | nil => exact fun e he ↦ absurd he List.not_mem_nil
  | cons e rest ih =>
    intro e' he'
    rcases List.mem_cons.mp he' with rfl | he'
    · obtain ⟨hash, hhash⟩ := Option.ne_none_iff_exists'.mp (hhashed e' List.mem_cons_self)
      have hverify := (hok.1 (hhashed e' List.mem_cons_self)).1
      unfold EventEnvelope.verifyHash at hverify
      rw [hhash] at hverify
      rw [EventEnvelope.Sealed, hhash, eq_of_beq hverify]
    · exact ih hok.2 (fun e'' he'' ↦ hhashed e'' (List.mem_cons_of_mem e he'')) e' he'

theorem lastHash_eq_getLast? (events : List EventEnvelope) :
    HashChain.lastHash EventEnvelope.eventHash none events =
      events.getLast?.bind EventEnvelope.eventHash := by
  cases events using List.reverseRecOn with
  | nil => rfl
  | append_singleton events e =>
    rw [HashChain.lastHash_concat, List.getLast?_concat]
    rfl

/-- A list passes when what is in front of its last event does, and the last event passes behind
it. -/
theorem chainOk_concat {e : EventEnvelope} : ChainOk sha256 start (events ++ [e]) ↔
    ChainOk sha256 start events ∧
      EventOk sha256 (HashChain.lastHash EventEnvelope.eventHash start events) e := by
  induction events generalizing start with
  | nil => exact ⟨fun h ↦ ⟨trivial, h.1⟩, fun h ↦ ⟨h.2, trivial⟩⟩
  | cons first rest ih =>
    show _ ∧ ChainOk sha256 first.eventHash (rest ++ [e]) ↔ (_ ∧ _) ∧ _
    rw [ih, and_assoc]
    rfl

/-- A list passes as one chain. -/
theorem chained_of_isValid (hvalid : (verifyChain sha256 events).isValid = true)
    (hhashed : ∀ e ∈ events, e.eventHash ≠ none)
    (hfirst : ∀ e ∈ events.head?, e.previousHash = none) : Chained sha256 events := by
  have hok := isValid_verifyChain.mp hvalid
  exact ⟨linked_of_chainOk hok hhashed fun _ ↦ hfirst, sealed_of_chainOk hok hhashed⟩

/-- In one chain every event is verified. -/
theorem verifyChain_of_chained (h : Chained sha256 events) :
    (verifyChain sha256 events).isValid = true ∧
      (verifyChain sha256 events).isFullyVerified = true ∧
      (verifyChain sha256 events).verifiedEvents = events.length ∧
      (verifyChain sha256 events).totalEvents = events.length := by
  have hok : ChainOk sha256 none events := chainOk_of_linked h.linked h.hashed
  have hchecks := checks_verifyChain sha256 events
  have hvalid := isValid_verifyChain.mpr hok
  have hlegacy : (events.countP fun e ↦ e.eventHash.isNone) = 0 := by
    refine List.countP_eq_zero.mpr fun e he hnone ↦ ?_
    exact (h.hashed e he).ne_none (Option.isNone_iff_eq_none.mp hnone)
  have hhashed : (events.countP fun e ↦ e.eventHash.isSome) = events.length := by
    refine List.countP_eq_length.mpr fun e he ↦ ?_
    exact Option.isSome_iff_ne_none.mpr (h.hashed e he).ne_none
  refine ⟨hvalid, ?_, ?_, hchecks.totalEvents⟩
  · have hzero : (verifyChain sha256 events).legacyEvents = 0 := by
      rw [hchecks.legacyEvents, hlegacy]
    rw [ChainVerificationResult.isFullyVerified, hvalid, hzero]
    rfl
  · rw [hchecks.verifiedEvents hok, hhashed, Nat.zero_add]

end Chained

namespace EventStore

variable (sha256 : List UInt8 → String)

/-- Appends one after the other. -/
def appendAll (store : EventStore) (appends : List (EventEnvelope × AppendOutcome)) : EventStore :=
  appends.foldl (fun store append ↦ (store.appendEnvelope sha256 append.1 append.2).1) store

/-- The log of appends to an empty one with the chain enabled. -/
def ofAppends (appends : List (EventEnvelope × AppendOutcome)) : EventStore :=
  EventStore.appendAll sha256 ⟨[], none, true⟩ appends

/-- The log is one chain, and the hash the next event will name is the last one. -/
structure ChainState (store : EventStore) : Prop where
  enabled : store.enableHashChain = true
  chained : Chained sha256 store.events
  last : store.lastEventHash = HashChain.lastHash EventEnvelope.eventHash none store.events

variable {sha256} {store : EventStore} {envelope : EventEnvelope}

theorem chained_eq (henabled : store.enableHashChain = true) (hnew : envelope.eventHash = none) :
    (store.chained sha256 envelope).previousHash = store.lastEventHash ∧
      (store.chained sha256 envelope).Sealed sha256 := by
  have hchain : store.enableHashChain = true ∧ envelope.eventHash.isNone = true := by
    rw [hnew]
    exact ⟨henabled, rfl⟩
  unfold chained
  rw [if_pos hchain]
  exact ⟨rfl, rfl⟩

/-- An envelope without a hash extends the chain. -/
theorem ChainState.appendEnvelope (h : ChainState sha256 store) (hnew : envelope.eventHash = none)
    (outcome : AppendOutcome) :
    ChainState sha256 (store.appendEnvelope sha256 envelope outcome).1 := by
  obtain ⟨hprevious, hsealed⟩ : (store.chained sha256 envelope).previousHash =
      store.lastEventHash ∧ (store.chained sha256 envelope).Sealed sha256 :=
    chained_eq h.enabled hnew
  have hwritten : ChainState sha256 { store with
      events := store.events ++ [store.chained sha256 envelope]
      lastEventHash := if store.enableHashChain then (store.chained sha256 envelope).eventHash
        else store.lastEventHash } := by
    refine ⟨h.enabled, ⟨HashChain.linked_concat.mpr ⟨h.chained.linked, hprevious.trans h.last⟩,
      fun e he ↦ ?_⟩, ?_⟩
    · rcases List.mem_append.mp he with he | he
      · exact h.chained.hashed e he
      · rw [List.mem_singleton.mp he]
        exact hsealed
    · rw [HashChain.lastHash_concat]
      exact if_pos h.enabled
  cases outcome with
  | lost => exact h
  | written => exact hwritten
  | writtenThenFailed => exact hwritten

theorem ChainState.appendAll (h : ChainState sha256 store)
    {appends : List (EventEnvelope × AppendOutcome)}
    (hnew : ∀ append ∈ appends, append.1.eventHash = none) :
    ChainState sha256 (store.appendAll sha256 appends) := by
  induction appends generalizing store with
  | nil => exact h
  | cons append rest ih =>
    exact ih (h.appendEnvelope (hnew append List.mem_cons_self) append.2) fun append' hmem ↦
      hnew append' (List.mem_cons_of_mem append hmem)

/-- What is written of envelopes without hashes is one chain. -/
theorem chained_ofAppends {appends : List (EventEnvelope × AppendOutcome)}
    (hnew : ∀ append ∈ appends, append.1.eventHash = none) :
    ChainState sha256 (ofAppends sha256 appends) := by
  have hempty : ChainState sha256 ⟨[], none, true⟩ :=
    ⟨rfl, ⟨trivial, fun e he ↦ absurd he List.not_mem_nil⟩, rfl⟩
  exact hempty.appendAll hnew

end EventStore

end Lithair.Engine
