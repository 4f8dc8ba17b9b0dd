import Lithair.Engine.HashChain
import Lithair.Lib.Text

/-!
# What the hash chain tells of a changed log

SHA-256 is taken as injective, with its digest in hexadecimal. An event's hash then commits to the
bytes it is computed from, to the hash in front of it, and, for fields that do not have the
separator in them, to every field.

A list that is verified, whose events all have hashes and whose first event names none, is a front
of the log that was written, and behind it events whose hashes do not occur in that log
(`tampering_evident`). The verifier passes other lists too, and each condition is needed for one of
them: events without hashes, hashes computed anew, a first event that names a hash, a separator
moved from one field to the next.
-/

namespace Lithair.Engine

open Lithair.Lib Lithair.Lib.Framing Lithair.Lib.Text

/-! ### The bytes of a text -/

theorem asBytes_eq (s : String) : asBytes s = s.toList.flatMap String.utf8EncodeChar := by
  have hbytes : s.toByteArray = s.toList.utf8Encode := by
    rw [← String.toByteArray_ofList, String.ofList_toList]
  show s.toByteArray.data.toList = _
  rw [hbytes]
  simp [List.utf8Encode]

theorem asBytes_injective : Function.Injective asBytes := by
  intro s t h
  have hdata : s.toByteArray.data = t.toByteArray.data := Array.toList_inj.mp h
  exact String.toByteArray_inj.mp (ByteArray.ext hdata)

/-- The byte of the separator stands for no part of another character. -/
theorem separator_mem_utf8EncodeChar {c : Char} (h : 124 ∈ String.utf8EncodeChar c) : c = '|' := by
  unfold String.utf8EncodeChar at h
  simp only at h
  split_ifs at h <;> simp only [List.mem_cons, List.not_mem_nil, or_false, ← UInt8.toNat_inj] at h
  · have hvalue : c.val.toNat = 124 := by
      simp at h
      change 124 = c.val.toNat % 256 at h
      omega
    exact Char.ext (UInt32.toNat_inj.mp hvalue)
  all_goals
    simp at h
    omega

theorem separator_notMem_asBytes {s : String} (h : '|' ∉ s.toList) : 124 ∉ asBytes s := by
  rw [asBytes_eq]
  intro hmem
  obtain ⟨c, hc, hbyte⟩ := List.mem_flatMap.mp hmem
  rw [separator_mem_utf8EncodeChar hbyte] at hc
  exact h hc

/-! ### The digest -/

/-- An injective function in the place of SHA-256, with its digest in hexadecimal. -/
structure Digest where
  sha256 : List UInt8 → String
  injective : Function.Injective sha256
  nonempty : ∀ bytes, sha256 bytes ≠ ""
  hexadecimal : ∀ bytes, ∀ c ∈ (sha256 bytes).toList, ∃ digit < 16, c = hexDigit digit

/-- The bytes themselves in hexadecimal. -/
def hexOfBytes (bytes : List UInt8) : List Char := bytes.flatMap fun byte ↦ hexDigits 2 byte.toNat

theorem hexOfBytes_injective : Function.Injective hexOfBytes := by
  intro first second h
  induction first generalizing second with
  | nil =>
    cases second with
    | nil => rfl
    | cons byte rest =>
      have hlength := congrArg List.length h
      simp [hexOfBytes, length_hexDigits] at hlength
      omega
  | cons byte rest ih =>
    cases second with
    | nil =>
      have hlength := congrArg List.length h
      simp [hexOfBytes, length_hexDigits] at hlength
    | cons byte' rest' =>
      obtain ⟨hdigits, hrest⟩ := List.append_inj h
        ((length_hexDigits 2 byte.toNat).trans (length_hexDigits 2 byte'.toNat).symm)
      have hread := congrArg (readHex 0) hdigits
      rw [readHex_hexDigits, readHex_hexDigits, Option.some.injEq] at hread
      have hlt := byte.toNat_lt
      have hlt' := byte'.toNat_lt
      have hbyte : byte = byte' := UInt8.toNat_inj.mp (by omega)
      rw [hbyte, ih hrest]

/-- A digest that is the bytes themselves. -/
def Digest.ofBytes : Digest where
  sha256 := fun bytes ↦ String.ofList ('0' :: hexOfBytes bytes)
  injective := fun first second h ↦
    hexOfBytes_injective (List.cons.inj (String.ofList_injective h)).2
  nonempty := fun bytes h ↦ by simpa using congrArg String.toList h
  hexadecimal := by
    intro bytes c hc
    rw [String.toList_ofList] at hc
    rcases List.mem_cons.mp hc with rfl | hc
    · exact ⟨0, by decide, by decide⟩
    · obtain ⟨byte, -, hc⟩ := List.mem_flatMap.mp hc
      exact mem_hexDigits hc

theorem Digest.noSeparator (digest : Digest) (bytes : List UInt8) :
    '|' ∉ (digest.sha256 bytes).toList := by
  intro hmem
  obtain ⟨digit, hdigit, hc⟩ := digest.hexadecimal bytes '|' hmem
  interval_cases digit <;> exact absurd hc (by decide)

/-- A hash in an envelope, or none. -/
def HashText (hash : Option String) : Prop := ∀ h ∈ hash, h ≠ "" ∧ '|' ∉ h.toList

theorem hashText_none : HashText none := fun _ h ↦ absurd h (by simp)

/-- The texts are told apart by their bytes, when none is empty. -/
theorem eq_of_optionBytes {first second : Option String} (hfirst : ∀ s ∈ first, s ≠ "")
    (hsecond : ∀ s ∈ second, s ≠ "")
    (h : (first.map asBytes).getD [] = (second.map asBytes).getD []) : first = second := by
  have hempty {s : String} (hs : asBytes s = []) : s = "" := asBytes_injective hs
  cases first with
  | none =>
    cases second with
    | none => rfl
    | some t => exact absurd (hempty h.symm) (hsecond t rfl)
  | some s =>
    cases second with
    | none => exact absurd (hempty h) (hfirst s rfl)
    | some t => rw [asBytes_injective h]

theorem separator_notMem_optionBytes {text : Option String} (h : ∀ s ∈ text, '|' ∉ s.toList) :
    124 ∉ (text.map asBytes).getD [] := by
  cases text with
  | none => exact List.not_mem_nil
  | some s => exact separator_notMem_asBytes (h s rfl)

/-! ### What a hash commits to -/

/-- The fields can be read off the hashed bytes: the separator occurs in the payload alone, an
aggregate that is named has a name, and the time has 64 bits. -/
structure EventEnvelope.Separated (envelope : EventEnvelope) : Prop where
  eventType : '|' ∉ envelope.eventType.toList
  eventId : '|' ∉ envelope.eventId.toList
  aggregateId : ∀ id ∈ envelope.aggregateId, id ≠ "" ∧ '|' ∉ id.toList
  timestamp : envelope.timestamp < 2 ^ 64

section Commits

variable {first second : EventEnvelope}

theorem asBytes_separator : asBytes "|" = [124] := by decide

theorem hashInput_eq_front (envelope : EventEnvelope) : envelope.hashInput =
    (asBytes envelope.eventType ++ 124 :: (asBytes envelope.eventId ++
      124 :: (leBytes 8 envelope.timestamp ++ 124 :: asBytes envelope.payload)) ++
      124 :: (envelope.aggregateId.map asBytes).getD []) ++
      124 :: (envelope.previousHash.map asBytes).getD [] := by
  unfold EventEnvelope.hashInput
  simp [asBytes_separator]

/-- The hashed bytes end in the hash of the event before. -/
theorem split_hashInput (hfirst : HashText first.previousHash)
    (hsecond : HashText second.previousHash) (h : first.hashInput = second.hashInput) :
    first.previousHash = second.previousHash ∧
      asBytes first.eventType ++ 124 :: (asBytes first.eventId ++
        124 :: (leBytes 8 first.timestamp ++ 124 :: asBytes first.payload)) ++
        124 :: (first.aggregateId.map asBytes).getD [] =
      asBytes second.eventType ++ 124 :: (asBytes second.eventId ++
        124 :: (leBytes 8 second.timestamp ++ 124 :: asBytes second.payload)) ++
        124 :: (second.aggregateId.map asBytes).getD [] := by
  rw [hashInput_eq_front, hashInput_eq_front] at h
  obtain ⟨hfront, hprevious⟩ := split_lastMark
    (separator_notMem_optionBytes fun s hs ↦ (hfirst s hs).2)
    (separator_notMem_optionBytes fun s hs ↦ (hsecond s hs).2) h
  exact ⟨eq_of_optionBytes (fun s hs ↦ (hfirst s hs).1) (fun s hs ↦ (hsecond s hs).1) hprevious,
    hfront⟩

/-- Separated fields are read off the hashed bytes. -/
theorem eq_of_hashInput_eq (hfirst : first.Separated) (hsecond : second.Separated)
    (hfirstHash : HashText first.previousHash) (hsecondHash : HashText second.previousHash)
    (hhash : first.eventHash = second.eventHash) (h : first.hashInput = second.hashInput) :
    first = second := by
  obtain ⟨hprevious, hfront⟩ := split_hashInput hfirstHash hsecondHash h
  obtain ⟨hfront, haggregate⟩ := split_lastMark
    (separator_notMem_optionBytes fun s hs ↦ (hfirst.aggregateId s hs).2)
    (separator_notMem_optionBytes fun s hs ↦ (hsecond.aggregateId s hs).2) hfront
  obtain ⟨htype, hrest⟩ := split_firstMark (separator_notMem_asBytes hfirst.eventType)
    (separator_notMem_asBytes hsecond.eventType) hfront
  obtain ⟨hid, hrest⟩ := split_firstMark (separator_notMem_asBytes hfirst.eventId)
    (separator_notMem_asBytes hsecond.eventId) hrest
  obtain ⟨htime, hpayload⟩ := List.append_inj hrest (by simp)
  have htimestamp : first.timestamp = second.timestamp := by
    have hread := congrArg ofLeBytes htime
    rwa [ofLeBytes_leBytes (by simpa using hfirst.timestamp),
      ofLeBytes_leBytes (by simpa using hsecond.timestamp)] at hread
  have haggregate : first.aggregateId = second.aggregateId :=
    eq_of_optionBytes (fun s hs ↦ (hfirst.aggregateId s hs).1)
      (fun s hs ↦ (hsecond.aggregateId s hs).1) haggregate
  cases first
  cases second
  simp only [EventEnvelope.mk.injEq]
  exact ⟨asBytes_injective htype, asBytes_injective hid, htimestamp,
    asBytes_injective (List.cons.inj hpayload).2, haggregate, hhash, hprevious⟩

end Commits

/-! ### Changed logs -/

/-- The events have the same hash, computed from the same bytes, and name the same hash. -/
structure SameContent (first second : EventEnvelope) : Prop where
  eventHash : first.eventHash = second.eventHash
  previousHash : first.previousHash = second.previousHash
  hashInput : first.hashInput = second.hashInput

section Changed

variable {digest : Digest} {log modified : List EventEnvelope} {e e' : EventEnvelope}

theorem hashInput_eq_of_sealed (he : e.Sealed digest.sha256) (he' : e'.Sealed digest.sha256)
    (h : e.eventHash = e'.eventHash) : e.hashInput = e'.hashInput := by
  rw [he, he', Option.some.injEq] at h
  exact digest.injective h

theorem hashText_eventHash (h : e.Sealed digest.sha256) : HashText e.eventHash := by
  intro hash hhash
  rw [h] at hhash
  rw [← Option.mem_some_iff.mp hhash]
  exact ⟨digest.nonempty _, digest.noSeparator _⟩

theorem Chained.hashText (h : Chained digest.sha256 log) (he : e ∈ log) :
    HashText e.previousHash := by
  rcases HashChain.link_of_mem h.linked he with hnone | ⟨e', he', hlink⟩
  · rw [hnone]
    exact hashText_none
  · rw [hlink]
    exact hashText_eventHash (h.hashed e' he')

/-- Of two chains, one is a front of the other with foreign events behind it. -/
theorem front_of_chained (hmodified : Chained digest.sha256 modified)
    (hlog : Chained digest.sha256 log) :
    ∃ n ≤ modified.length, List.Forall₂ SameContent (modified.take n) (log.take n) ∧
      ∀ e ∈ modified.drop n, ∀ e' ∈ log, e.eventHash ≠ e'.eventHash := by
  have hinput : ∀ e ∈ modified, ∀ e' ∈ log, e.eventHash = e'.eventHash →
      e.hashInput = e'.hashInput := fun e he e' he' ↦
    hashInput_eq_of_sealed (hmodified.hashed e he) (hlog.hashed e' he')
  have hcommits : ∀ e ∈ modified, ∀ e' ∈ log, e.eventHash = e'.eventHash →
      e.previousHash = e'.previousHash := fun e he e' he' h ↦
    (split_hashInput (hmodified.hashText he) (hlog.hashText he') (hinput e he e' he' h)).1
  have hstart : ∀ e ∈ modified ++ log, e.eventHash ≠ none := by
    intro e he
    rcases List.mem_append.mp he with he | he
    · exact (hmodified.hashed e he).ne_none
    · exact (hlog.hashed e he).ne_none
  obtain ⟨n, hn, hsame, hforeign⟩ :=
    HashChain.front_then_foreign hcommits hstart hmodified.linked hlog.linked
  refine ⟨n, hn, List.forall₂_iff_zip.mpr ⟨hsame.length_eq, fun {e e'} hpair ↦ ?_⟩, hforeign⟩
  obtain ⟨he, he'⟩ := List.of_mem_zip hpair
  have he := List.mem_of_mem_take he
  have he' := List.mem_of_mem_take he'
  have hhash : e.eventHash = e'.eventHash := List.forall₂_zip hsame hpair
  exact ⟨hhash, hcommits e he e' he' hhash, hinput e he e' he' hhash⟩

/-- When the fields are separated, the front is the same events. -/
theorem eq_of_sameContent (hmodified : Chained digest.sha256 modified)
    (hlog : Chained digest.sha256 log) (hseparated : ∀ e ∈ modified ++ log, e.Separated) {n : ℕ}
    (h : List.Forall₂ SameContent (modified.take n) (log.take n)) :
    modified.take n = log.take n := by
  have heq : List.Forall₂ Eq (modified.take n) (log.take n) := by
    refine List.forall₂_iff_zip.mpr ⟨h.length_eq, fun {e e'} hpair ↦ ?_⟩
    obtain ⟨he, he'⟩ := List.of_mem_zip hpair
    have he := List.mem_of_mem_take he
    have he' := List.mem_of_mem_take he'
    have hsame := List.forall₂_zip h hpair
    exact eq_of_hashInput_eq (hseparated e (List.mem_append_left log he))
      (hseparated e' (List.mem_append_right modified he')) (hmodified.hashText he)
      (hlog.hashText he') hsame.eventHash hsame.hashInput
  rwa [List.forall₂_eq_eq_eq] at heq

/-- A list that is verified, whose events all have hashes and whose first event names none, is a
front of the log with foreign events behind it. When the fields are separated, such a list that is
no front of the log itself, and ends in a hash of the log, is not verified. -/
theorem tampering_evident (digest : Digest) {appends : List (EventEnvelope × AppendOutcome)}
    (hnew : ∀ append ∈ appends, append.1.eventHash = none) {modified : List EventEnvelope}
    (hhashed : ∀ e ∈ modified, e.eventHash ≠ none)
    (hfirst : ∀ e ∈ modified.head?, e.previousHash = none) :
    let log := (EventStore.ofAppends digest.sha256 appends).events
    ((verifyChain digest.sha256 modified).isValid = true →
      ∃ n ≤ modified.length, List.Forall₂ SameContent (modified.take n) (log.take n) ∧
        (∀ e ∈ modified.drop n, ∀ e' ∈ log, e.eventHash ≠ e'.eventHash) ∧
        ((∀ e ∈ modified ++ log, e.Separated) → modified.take n = log.take n)) ∧
    ((∀ e ∈ modified ++ log, e.Separated) →
      (∀ e ∈ modified.getLast?, ∃ e' ∈ log, e.eventHash = e'.eventHash) → ¬ modified <+: log →
      (verifyChain digest.sha256 modified).isValid = false) := by
  intro log
  have hlog : Chained digest.sha256 log := (EventStore.chained_ofAppends hnew).chained
  have hfront : (verifyChain digest.sha256 modified).isValid = true →
      ∃ n ≤ modified.length, List.Forall₂ SameContent (modified.take n) (log.take n) ∧
        (∀ e ∈ modified.drop n, ∀ e' ∈ log, e.eventHash ≠ e'.eventHash) ∧
        ((∀ e ∈ modified ++ log, e.Separated) → modified.take n = log.take n) := by
    intro hvalid
    have hmodified := chained_of_isValid hvalid hhashed hfirst
    obtain ⟨n, hn, hsame, hforeign⟩ := front_of_chained hmodified hlog
    exact ⟨n, hn, hsame, hforeign, fun hseparated ↦
      eq_of_sameContent hmodified hlog hseparated hsame⟩
  refine ⟨hfront, fun hseparated hlast hprefix ↦ ?_⟩
  rw [← Bool.not_eq_true]
  intro hvalid
  obtain ⟨n, hn, -, hforeign, hsame⟩ := hfront hvalid
  -- No event is behind the front, since the last one's hash is not foreign.
  have hdrop : modified.drop n = [] := by
    by_contra hne
    have hlastDrop : (modified.drop n).getLast? = modified.getLast? := by
      rw [← List.take_append_drop n modified, List.getLast?_append_of_ne_nil _ hne,
        List.take_append_drop]
    obtain ⟨e, he⟩ := Option.ne_none_iff_exists'.mp (mt List.getLast?_eq_none_iff.mp hne)
    obtain ⟨e', he', hhash⟩ := hlast e (hlastDrop ▸ he)
    exact hforeign e (List.mem_of_getLast? he) e' he' hhash
  have hall : modified.take n = modified := by
    rw [← List.append_nil (modified.take n), ← hdrop, List.take_append_drop]
  have heq := hsame hseparated
  rw [hall] at heq
  exact hprefix (heq ▸ List.take_prefix n log)

end Changed

/-! ### Changes that are not noticed -/

section Unnoticed

/-- An event of a small log. -/
def sampleEvent (eventType eventId payload : String) (previousHash : Option String) :
    EventEnvelope :=
  ⟨eventType, eventId, 0, payload, none, none, previousHash⟩

/-- The event with its own hash. -/
def EventEnvelope.seal (sha256 : List UInt8 → String) (envelope : EventEnvelope) : EventEnvelope :=
  { envelope with eventHash := some (envelope.computeHash sha256) }

def sampleAppends : List (EventEnvelope × AppendOutcome) :=
  [(sampleEvent "a|b" "c" "1" none, .written), (sampleEvent "a" "d" "2" none, .written)]

def sampleFirst : EventEnvelope :=
  (sampleEvent "a|b" "c" "1" none).seal Digest.ofBytes.sha256

def sampleSecond : EventEnvelope :=
  (sampleEvent "a" "d" "2" sampleFirst.eventHash).seal Digest.ofBytes.sha256

theorem tampering_evident_sample :
    (∀ append ∈ sampleAppends, append.1.eventHash = none) ∧
      sampleFirst.eventHash ≠ none ∧
      ∃ n ≤ 1, List.Forall₂ SameContent ([sampleFirst].take n)
        ((EventStore.ofAppends Digest.ofBytes.sha256 sampleAppends).events.take n) := by
  have hnew : ∀ append ∈ sampleAppends, append.1.eventHash = none := by
    intro append happend
    rcases List.mem_cons.mp happend with rfl | happend
    · rfl
    · rw [List.mem_singleton.mp happend]
      rfl
  have hhashed : ∀ e ∈ [sampleFirst], e.eventHash ≠ none := by
    intro e he
    rw [List.mem_singleton.mp he]
    exact Option.some_ne_none _
  have hfirst : ∀ e ∈ [sampleFirst].head?, e.previousHash = none := by
    intro e he
    rw [← Option.mem_some_iff.mp he]
    rfl
  have hvalid : (verifyChain Digest.ofBytes.sha256 [sampleFirst]).isValid = true := by
    refine isValid_verifyChain.mpr ⟨fun _ ↦ ⟨?_, fun h hh ↦ absurd hh (by simp)⟩, trivial⟩
    exact EventEnvelope.Sealed.verifyHash rfl
  obtain ⟨n, hn, hsame, -⟩ :=
    (tampering_evident Digest.ofBytes hnew hhashed hfirst).1 hvalid
  exact ⟨hnew, hhashed sampleFirst List.mem_cons_self, n, hn, hsame⟩

/-- Four changes that are not noticed: the hashes removed and the payload changed; the payload
changed and the hash computed anew; the first event deleted; and the separator moved from one field
to the next. -/
theorem tampering_unnoticed :
    [[{ sampleFirst with payload := "9", eventHash := none, previousHash := none }],
      [(sampleEvent "a|b" "c" "9" none).seal Digest.ofBytes.sha256],
      [sampleSecond],
      [{ sampleFirst with eventType := "a", eventId := "b|c" }]].Forall fun modified ↦
        (verifyChain Digest.ofBytes.sha256 modified).isValid = true ∧
          ¬ modified <+: (EventStore.ofAppends Digest.ofBytes.sha256 sampleAppends).events := by
  have hlog : (EventStore.ofAppends Digest.ofBytes.sha256 sampleAppends).events =
      [sampleFirst, sampleSecond] := rfl
  have hsingle {e : EventEnvelope} (he : e.verifyHash Digest.ofBytes.sha256 = true)
      (hne : e ≠ sampleFirst) :
      (verifyChain Digest.ofBytes.sha256 [e]).isValid = true ∧
        ¬ [e] <+: [sampleFirst, sampleSecond] :=
    ⟨isValid_verifyChain.mpr ⟨fun _ ↦ ⟨he, fun h hh ↦ absurd hh (by simp)⟩, trivial⟩,
      fun hprefix ↦ hne (List.cons_prefix_cons.mp hprefix).1⟩
  rw [hlog]
  refine ⟨?_, ?_, ?_, ?_⟩
  · exact hsingle rfl fun h ↦ absurd (congrArg EventEnvelope.payload h) (by decide)
  · exact hsingle (EventEnvelope.Sealed.verifyHash rfl) fun h ↦
      absurd (congrArg EventEnvelope.payload h) (by decide)
  · exact hsingle (EventEnvelope.Sealed.verifyHash rfl) fun h ↦
      absurd (congrArg EventEnvelope.payload h) (by decide)
  · refine hsingle (EventEnvelope.Sealed.verifyHash ?_) fun h ↦
      absurd (congrArg EventEnvelope.eventType h) (by decide)
    exact congrArg (fun bytes ↦ some (Digest.ofBytes.sha256 bytes)) (by decide)

end Unnoticed

end Lithair.Engine
