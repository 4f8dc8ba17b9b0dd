import Lithair.Engine.HashChain

/-!
# What the verification of a chain reports

The counts and the lists of `ChainVerificationResult`, as `verify_chain` of `engine/events.rs` fills
them in one loop. An event is counted as verified when its link is valid, whether or not its own
hash is, so that an event may be counted and listed as well.

`Tallies` says what the loop has added for the events it has gone through, and
`accounts_verifyChain_iff` for which lists of events the count is that of the verified ones: those
in which no event with a wrong hash has a valid link.
-/

namespace Lithair.Engine

/-- The events, each with the hash of the one before it. -/
def withPrevious (prevHash : Option String) (envelopes : List EventEnvelope) :
    List (Option String × EventEnvelope) :=
  (prevHash :: envelopes.map EventEnvelope.eventHash).zip envelopes

theorem withPrevious_cons (prevHash : Option String) (envelope : EventEnvelope)
    (rest : List EventEnvelope) :
    withPrevious prevHash (envelope :: rest) =
      [(prevHash, envelope)] ++ withPrevious envelope.eventHash rest := rfl

/-- The event names the hash of the one before it, if that has one. -/
def EventEnvelope.LinksBehind (envelope : EventEnvelope) (prevHash : Option String) : Prop :=
  ∀ expected ∈ prevHash, envelope.previousHash = some expected

instance (envelope : EventEnvelope) (prevHash : Option String) :
    Decidable (envelope.LinksBehind prevHash) :=
  inferInstanceAs (Decidable (∀ expected ∈ prevHash, envelope.previousHash = some expected))

/-- The event that an error is about. -/
def ChainError.event (error : ChainError) : ℕ × String := (error.eventIndex, error.eventId)

/-! ### The loop -/

section Tallies

/-- An event with a hash, whose link is valid. -/
def linked (pair : Option String × EventEnvelope) : Bool :=
  pair.2.eventHash.isSome && decide (pair.2.LinksBehind pair.1)

def unlinked (pair : Option String × EventEnvelope) : Bool :=
  pair.2.eventHash.isSome && !decide (pair.2.LinksBehind pair.1)

def misstated (sha256 : List UInt8 → String) (pair : Option String × EventEnvelope) : Bool :=
  !pair.2.verifyHash sha256

/-- The events that meet a condition, by their index and id. -/
def listed (p : Option String × EventEnvelope → Bool) (pairs : List (Option String × EventEnvelope))
    (index : ℕ) : List (ℕ × String) :=
  (pairs.zipIdx index).filterMap fun indexed ↦
    if p indexed.1 then some (indexed.2, indexed.1.2.eventId) else none

/-- What the loop adds to a result for the events that it goes through. -/
structure Tallies (sha256 : List UInt8 → String) (pairs : List (Option String × EventEnvelope))
    (index : ℕ) (result next : ChainVerificationResult) : Prop where
  verifiedEvents : next.verifiedEvents = result.verifiedEvents + pairs.countP linked
  legacyEvents : next.legacyEvents =
    result.legacyEvents + pairs.countP fun pair ↦ pair.2.eventHash.isNone
  invalidHashes : next.invalidHashes.map ChainError.event =
    result.invalidHashes.map ChainError.event ++ listed (misstated sha256) pairs index
  brokenLinks : next.brokenLinks.map ChainError.event =
    result.brokenLinks.map ChainError.event ++ listed unlinked pairs index
  isValid : next.isValid = true ↔ result.isValid = true ∧
    listed (misstated sha256) pairs index = [] ∧ listed unlinked pairs index = []

variable {sha256 : List UInt8 → String} {p : Option String × EventEnvelope → Bool}
  {first second : List (Option String × EventEnvelope)} {pair : Option String × EventEnvelope}
  {index : ℕ} {result next last : ChainVerificationResult} {prevHash : Option String}
  {envelope : EventEnvelope}

theorem listed_append : listed p (first ++ second) index =
    listed p first index ++ listed p second (index + first.length) := by
  unfold listed
  rw [List.zipIdx_append, List.filterMap_append]

@[simp] theorem listed_singleton :
    listed p [pair] index = if p pair then [(index, pair.2.eventId)] else [] := by
  unfold listed
  rw [List.zipIdx_singleton]
  by_cases hp : p pair = true
  · rw [if_pos hp]
    exact List.filterMap_cons_some (if_pos hp)
  · rw [if_neg hp]
    exact List.filterMap_cons_none (if_neg hp)

theorem mem_listed {i : ℕ} : (i, pair.2.eventId) ∈ listed p first 0 ↔
    ∃ other, first[i]? = some other ∧ p other = true ∧ other.2.eventId = pair.2.eventId := by
  unfold listed
  rw [List.mem_filterMap]
  constructor
  · rintro ⟨⟨other, j⟩, hmem, hlisted⟩
    split_ifs at hlisted with hp
    obtain ⟨rfl, hid⟩ := Prod.mk.inj (Option.some.inj hlisted)
    exact ⟨other, List.mem_zipIdx_iff_getElem?.mp hmem, hp, hid⟩
  · rintro ⟨other, hother, hp, hid⟩
    refine ⟨(other, i), List.mem_zipIdx_iff_getElem?.mpr hother, ?_⟩
    rw [if_pos hp, hid]

theorem Tallies.append (h : Tallies sha256 first index result next)
    (h' : Tallies sha256 second (index + first.length) next last) :
    Tallies sha256 (first ++ second) index result last := by
  refine ⟨?_, ?_, ?_, ?_, ?_⟩
  · rw [h'.verifiedEvents, h.verifiedEvents, List.countP_append, Nat.add_assoc]
  · rw [h'.legacyEvents, h.legacyEvents, List.countP_append, Nat.add_assoc]
  · rw [h'.invalidHashes, h.invalidHashes, listed_append, List.append_assoc]
  · rw [h'.brokenLinks, h.brokenLinks, listed_append, List.append_assoc]
  · rw [h'.isValid, h.isValid, listed_append, listed_append, List.append_eq_nil_iff,
      List.append_eq_nil_iff, and_assoc, and_and_and_comm]

/-- The link of an event is counted or reported. -/
theorem checkLink_cases (result : ChainVerificationResult) (index : ℕ) (envelope : EventEnvelope)
    (prevHash : Option String) :
    (envelope.LinksBehind prevHash ∧ checkLink result index envelope prevHash =
      { result with verifiedEvents := result.verifiedEvents + 1 }) ∨
    ¬ envelope.LinksBehind prevHash ∧
      ∃ error, checkLink result index envelope prevHash =
        addBrokenLink result index envelope error := by
  unfold checkLink EventEnvelope.LinksBehind
  split
  · next prev expected hprev =>
    rw [hprev]
    split_ifs with hbroken
    · exact Or.inr ⟨fun h ↦ hbroken (Option.some.inj (h expected rfl)), _, rfl⟩
    · refine Or.inl ⟨fun other hother ↦ ?_, rfl⟩
      rw [not_not.mp hbroken, Option.mem_some_iff.mp hother]
  · next expected hprev =>
    rw [hprev]
    exact Or.inr ⟨fun h ↦ absurd (h expected rfl) (by simp), _, rfl⟩
  · exact Or.inl ⟨fun other hother ↦ absurd hother (by simp), rfl⟩

/-- What is added for one event. -/
theorem tallies_verifyEvent (result : ChainVerificationResult) (prevHash : Option String)
    (envelope : EventEnvelope) (index : ℕ) :
    Tallies sha256 [(prevHash, envelope)] index result
      (verifyEvent sha256 (result, prevHash) (envelope, index)).1 := by
  cases hhash : envelope.eventHash with
  | none =>
    have hverify : envelope.verifyHash sha256 = true := by
      rw [EventEnvelope.verifyHash, hhash]
    simp only [verifyEvent, hhash]
    constructor <;> simp [linked, unlinked, misstated, hhash, hverify]
  | some hash =>
    have hchecked : (verifyEvent sha256 (result, prevHash) (envelope, index)).1 =
        checkLink (checkHash sha256 result index envelope) index envelope prevHash := by
      simp only [verifyEvent, hhash]
      rfl
    rw [hchecked]
    rcases checkLink_cases (checkHash sha256 result index envelope) index envelope prevHash with
      ⟨hlinks, hlink⟩ | ⟨hlinks, error, hlink⟩
    · rw [hlink, checkHash]
      by_cases hverify : envelope.verifyHash sha256 = true
      · rw [if_pos hverify]
        constructor <;> simp [linked, unlinked, misstated, hhash, hverify, hlinks]
      · rw [if_neg hverify]
        constructor <;> simp [linked, unlinked, misstated, hhash, hverify, hlinks, ChainError.event]
    · rw [hlink, checkHash, addBrokenLink]
      by_cases hverify : envelope.verifyHash sha256 = true
      · rw [if_pos hverify]
        constructor <;> simp [linked, unlinked, misstated, hhash, hverify, hlinks, ChainError.event]
      · rw [if_neg hverify]
        constructor <;> simp [linked, unlinked, misstated, hhash, hverify, hlinks, ChainError.event]

theorem tallies_foldl (result : ChainVerificationResult) (prevHash : Option String)
    (envelopes : List EventEnvelope) (index : ℕ) :
    Tallies sha256 (withPrevious prevHash envelopes) index result
      ((envelopes.zipIdx index).foldl (verifyEvent sha256) (result, prevHash)).1 := by
  induction envelopes generalizing result prevHash index with
  | nil => constructor <;> simp [withPrevious, listed]
  | cons envelope rest ih =>
    have hpair : verifyEvent sha256 (result, prevHash) (envelope, index) =
        ((verifyEvent sha256 (result, prevHash) (envelope, index)).1, envelope.eventHash) :=
      Prod.ext rfl (verifyEvent_snd sha256 result prevHash envelope index)
    rw [List.zipIdx_cons, List.foldl_cons, hpair, withPrevious_cons]
    exact (tallies_verifyEvent result prevHash envelope index).append
      (ih _ envelope.eventHash (index + 1))

variable (sha256) in
/-- What the verification of a list reports. -/
theorem tallies_verifyChain (envelopes : List EventEnvelope) :
    Tallies sha256 (withPrevious none envelopes) 0 ⟨envelopes.length, 0, 0, [], [], true⟩
      (verifyChain sha256 envelopes) :=
  tallies_foldl _ none envelopes 0

end Tallies

/-! ### What the report is to say -/

/-- The event has a hash, and that and its link are valid. -/
def verified (sha256 : List UInt8 → String) (pair : Option String × EventEnvelope) : Bool :=
  linked pair && pair.2.verifyHash sha256

/-- The verified and the legacy events are counted, the others listed, and the chain is valid when
none is listed. -/
structure Accounts (sha256 : List UInt8 → String) (envelopes : List EventEnvelope)
    (result : ChainVerificationResult) : Prop where
  verifiedEvents : result.verifiedEvents = (withPrevious none envelopes).countP (verified sha256)
  legacyEvents : result.legacyEvents =
    (withPrevious none envelopes).countP fun pair ↦ pair.2.eventHash.isNone
  listed : ∀ i pair, (withPrevious none envelopes)[i]? = some pair → pair.2.eventHash.isSome →
    verified sha256 pair = false →
      (i, pair.2.eventId) ∈ result.invalidHashes.map ChainError.event ∨
        (i, pair.2.eventId) ∈ result.brokenLinks.map ChainError.event
  isValid : result.isValid = true ↔ result.invalidHashes = [] ∧ result.brokenLinks = []

section Counts

variable {α : Type*} {p q : α → Bool} {l : List α}

/-- Of two conditions the weaker one is met as often as the stronger only by elements that meet
both. -/
theorem countP_eq_countP_iff (himp : ∀ a, q a = true → p a = true) :
    l.countP p = l.countP q ↔ ∀ a ∈ l, p a = true → q a = true := by
  constructor
  · intro hcount a ha hp
    have hsub : (l.filter q).Sublist (l.filter p) := List.monotone_filter_right l himp
    have hlength : (l.filter q).length = (l.filter p).length := by
      rw [← List.countP_eq_length_filter, ← List.countP_eq_length_filter, hcount]
    have hmem : a ∈ l.filter q := by
      rw [hsub.eq_of_length hlength]
      exact List.mem_filter.mpr ⟨ha, hp⟩
    exact (List.mem_filter.mp hmem).2
  · intro h
    refine List.countP_congr fun a ha ↦ ?_
    exact ⟨h a ha, himp a⟩

end Counts

/-- Whatever the events are, the report accounts for them exactly when none has a valid link and a
wrong hash. -/
theorem accounts_verifyChain_iff (sha256 : List UInt8 → String) (envelopes : List EventEnvelope) :
    Accounts sha256 envelopes (verifyChain sha256 envelopes) ↔
      ∀ pair ∈ withPrevious none envelopes, linked pair = true →
        pair.2.verifyHash sha256 = true := by
  have htallies := tallies_verifyChain sha256 envelopes
  have hverified : (verifyChain sha256 envelopes).verifiedEvents =
      (withPrevious none envelopes).countP linked :=
    htallies.verifiedEvents.trans (Nat.zero_add _)
  have himp : ∀ pair, verified sha256 pair = true → linked pair = true :=
    fun pair hpair ↦ (Bool.and_eq_true_iff.mp hpair).1
  have hcounts : (verifyChain sha256 envelopes).verifiedEvents =
        (withPrevious none envelopes).countP (verified sha256) ↔
      ∀ pair ∈ withPrevious none envelopes, linked pair = true →
        pair.2.verifyHash sha256 = true := by
    rw [hverified, countP_eq_countP_iff himp]
    refine forall₂_congr fun pair _ ↦ imp_congr_right fun hlinked ↦ ?_
    rw [verified, hlinked, Bool.true_and]
  refine ⟨fun h ↦ hcounts.mp h.verifiedEvents, fun h ↦ ⟨hcounts.mpr h, ?_, ?_, ?_⟩⟩
  · exact htallies.legacyEvents.trans (Nat.zero_add _)
  · intro i pair hpair hhash hbad
    rw [htallies.invalidHashes, htallies.brokenLinks, List.map_nil, List.nil_append,
      List.nil_append, mem_listed, mem_listed]
    by_cases hlinks : pair.2.LinksBehind pair.1
    · refine Or.inl ⟨pair, hpair, ?_, rfl⟩
      simpa [verified, linked, misstated, hhash, hlinks] using hbad
    · refine Or.inr ⟨pair, hpair, ?_, rfl⟩
      simp [unlinked, hhash, hlinks]
  · have hnil {errors : List ChainError} : errors.map ChainError.event = [] ↔ errors = [] :=
      List.map_eq_nil_iff
    rw [htallies.isValid, ← hnil, ← hnil, htallies.invalidHashes, htallies.brokenLinks]
    exact and_iff_right rfl

/-- An event whose payload was changed is counted as verified. -/
theorem tampered_counted :
    ¬ ∀ (sha256 : List UInt8 → String) (envelopes : List EventEnvelope),
      Accounts sha256 envelopes (verifyChain sha256 envelopes) := by
  intro h
  have hcount := (h (fun _ ↦ "00")
    [⟨"created", "e1", 1, "{}", none, some "01", none⟩]).verifiedEvents
  exact absurd hcount (by decide)

end Lithair.Engine
