import Lithair.Engine.TamperEvidence

/-!
# What the bytes of a hash determine

The bytes that `compute_hash` of `engine/events.rs` gives to SHA-256 are the fields of an envelope
with `|` between them; a field that is absent is as one that is empty.

`determined_iff_delimited`: no other envelope has the bytes of this one exactly when none of its
texts has the separator in it and the aggregate and the hash before it are there and not empty. The
time, whose eight bytes may have the separator, takes no part in that: the separators in front of it
and those behind it are told apart by their number.
-/

namespace Lithair.Engine

open Lithair.Lib.Framing

/-! ### Envelopes with the same bytes -/

namespace EventEnvelope

/-- The fields that a hash is to protect. -/
structure SameFields (first second : EventEnvelope) : Prop where
  eventType : first.eventType = second.eventType
  eventId : first.eventId = second.eventId
  timestamp : first.timestamp = second.timestamp
  payload : first.payload = second.payload
  aggregateId : first.aggregateId = second.aggregateId
  previousHash : first.previousHash = second.previousHash

/-- Every envelope with the same bytes has the same fields. -/
def Determined (envelope : EventEnvelope) : Prop :=
  ∀ other : EventEnvelope, other.timestamp < 2 ^ 64 → envelope.hashInput = other.hashInput →
    SameFields envelope other

/-- No text has the separator in it, and no field is absent or empty that may be absent. -/
structure Delimited (envelope : EventEnvelope) : Prop where
  eventType : '|' ∉ envelope.eventType.toList
  eventId : '|' ∉ envelope.eventId.toList
  payload : '|' ∉ envelope.payload.toList
  aggregateId : ∃ id, envelope.aggregateId = some id ∧ id ≠ "" ∧ '|' ∉ id.toList
  previousHash : ∃ hash, envelope.previousHash = some hash ∧ hash ≠ "" ∧ '|' ∉ hash.toList

variable {envelope other : EventEnvelope}

/-- The bytes of a field that may be absent. -/
def fieldBytes (field : Option String) : List UInt8 := (field.map asBytes).getD []

theorem hashInput_eq_block (envelope : EventEnvelope) : envelope.hashInput =
    (asBytes envelope.eventType ++ 124 :: asBytes envelope.eventId) ++
      124 :: (leBytes 8 envelope.timestamp ++ 124 :: (asBytes envelope.payload ++
        124 :: (fieldBytes envelope.aggregateId ++ 124 :: fieldBytes envelope.previousHash))) := by
  unfold hashInput fieldBytes
  simp [asBytes_separator]

theorem count_separator {s : String} (h : '|' ∉ s.toList) : (asBytes s).count 124 = 0 :=
  List.count_eq_zero.mpr (separator_notMem_asBytes h)

theorem separator_notMem_of_count {bytes : List UInt8} (h : bytes.count 124 = 0) : 124 ∉ bytes :=
  List.count_eq_zero.mp h

/-- A field that is there and not empty is read off its bytes. -/
theorem field_eq_of_bytes {field : Option String} {text : String} (hne : text ≠ "")
    (h : asBytes text = fieldBytes field) : field = some text := by
  cases field with
  | none => exact absurd (asBytes_injective h) hne
  | some other => rw [asBytes_injective h]

theorem Delimited.determined (h : envelope.Delimited) (htime : envelope.timestamp < 2 ^ 64) :
    envelope.Determined := by
  intro other hother hinput
  obtain ⟨id, hid, hidNe, hidMark⟩ := h.aggregateId
  obtain ⟨hash, hhash, hhashNe, hhashMark⟩ := h.previousHash
  rw [hashInput_eq_block, hashInput_eq_block, hid, hhash] at hinput
  have hcounts : (asBytes envelope.eventType).count 124 = 0 ∧
      (asBytes envelope.eventId).count 124 = 0 ∧ (asBytes envelope.payload).count 124 = 0 ∧
      (asBytes id).count 124 = 0 ∧ (asBytes hash).count 124 = 0 :=
    ⟨count_separator h.eventType, count_separator h.eventId, count_separator h.payload,
      count_separator hidMark, count_separator hhashMark⟩
  obtain ⟨hcountType, hcountId, hcountPayload, hcountAggregate, hcountHash⟩ := hcounts
  have hfewerFront : (asBytes envelope.eventType ++ 124 :: asBytes envelope.eventId).count 124 ≤
      (asBytes other.eventType ++ 124 :: asBytes other.eventId).count 124 := by
    simp only [List.count_append, List.count_cons_self, hcountType, hcountId]
    omega
  have hfewerBack : (asBytes envelope.payload ++
        124 :: (fieldBytes (some id) ++ 124 :: fieldBytes (some hash))).count 124 ≤
      (asBytes other.payload ++ 124 :: (fieldBytes other.aggregateId ++
        124 :: fieldBytes other.previousHash)).count 124 := by
    simp only [List.count_append, List.count_cons_self, fieldBytes, Option.map_some,
      Option.getD_some, hcountPayload, hcountAggregate, hcountHash]
    omega
  obtain ⟨hfront, htimes, hback⟩ := split_block (by simp) hfewerFront hfewerBack hinput
  have hfrontCount := congrArg (List.count 124) hfront
  have hbackCount := congrArg (List.count 124) hback
  simp only [List.count_append, List.count_cons_self, fieldBytes, Option.map_some, Option.getD_some,
    hcountType, hcountId, hcountPayload, hcountAggregate, hcountHash] at hfrontCount hbackCount
  obtain ⟨htype, hid'⟩ := split_firstMark (separator_notMem_of_count hcountType)
    (separator_notMem_of_count (by omega)) hfront
  obtain ⟨hpayload, hback⟩ := split_firstMark (separator_notMem_of_count hcountPayload)
    (separator_notMem_of_count (by omega)) hback
  obtain ⟨haggregate, hprevious⟩ := split_firstMark (separator_notMem_of_count hcountAggregate)
    (separator_notMem_of_count (by unfold fieldBytes; omega)) hback
  have htimestamp : envelope.timestamp = other.timestamp := by
    have hread := congrArg ofLeBytes htimes
    rwa [ofLeBytes_leBytes (by simpa using htime), ofLeBytes_leBytes (by simpa using hother)]
      at hread
  exact ⟨asBytes_injective htype, asBytes_injective hid', htimestamp, asBytes_injective hpayload,
    hid.trans (field_eq_of_bytes hidNe haggregate).symm,
    hhash.trans (field_eq_of_bytes hhashNe hprevious).symm⟩

/-! ### Separators that can be moved -/

/-- A text with the separator in it, as two texts. -/
theorem exists_split {s : String} (h : '|' ∈ s.toList) :
    ∃ left right : String, s = left ++ "|" ++ right := by
  obtain ⟨left, right, hsplit⟩ := List.append_of_mem h
  refine ⟨String.ofList left, String.ofList right, String.toList_injective ?_⟩
  rw [hsplit]
  simp

/-- A text in which no separator can be moved out of its field has none. -/
theorem separator_notMem_of_moved {s : String}
    (h : ∀ left right : String, s = left ++ "|" ++ right → s = left ∨ s = right) :
    '|' ∉ s.toList := by
  intro hmem
  obtain ⟨left, right, hsplit⟩ := exists_split hmem
  have hlength := congrArg (fun s : String ↦ s.toList.length) hsplit
  simp only [String.toList_append, List.length_append] at hlength
  have hmark : "|".toList.length = 1 := rfl
  rcases h left right hsplit with hleft | hright
  · rw [hleft] at hlength
    omega
  · rw [hright] at hlength
    omega

/-- A field that may be absent, of which another value does not have the same bytes. -/
theorem exists_nonempty_of_unique {field : Option String}
    (h : ∀ other, fieldBytes other = fieldBytes field → field = other) :
    ∃ text, field = some text ∧ text ≠ "" := by
  cases field with
  | none => exact absurd (h (some "") rfl) (by simp)
  | some text =>
    refine ⟨text, rfl, ?_⟩
    rintro rfl
    exact absurd (h none rfl) (by simp)

theorem Determined.delimited (h : envelope.Determined) (htime : envelope.timestamp < 2 ^ 64) :
    envelope.Delimited := by
  have haggregate : ∃ id, envelope.aggregateId = some id ∧ id ≠ "" :=
    exists_nonempty_of_unique fun other hbytes ↦
      (h { envelope with aggregateId := other } htime
        (by rw [hashInput_eq_block, hashInput_eq_block, hbytes])).aggregateId
  have hprevious : ∃ hash, envelope.previousHash = some hash ∧ hash ≠ "" :=
    exists_nonempty_of_unique fun other hbytes ↦
      (h { envelope with previousHash := other } htime
        (by rw [hashInput_eq_block, hashInput_eq_block, hbytes])).previousHash
  obtain ⟨id, hid, hidNe⟩ := haggregate
  obtain ⟨hash, hhash, hhashNe⟩ := hprevious
  -- What is behind a separator goes to the next field, or what is in front to the one before.
  refine ⟨separator_notMem_of_moved fun left right hsplit ↦ Or.inl ?_,
    separator_notMem_of_moved fun left right hsplit ↦ Or.inr ?_,
    separator_notMem_of_moved fun left right hsplit ↦ Or.inl ?_,
    ⟨id, hid, hidNe, separator_notMem_of_moved fun left right hsplit ↦ Or.inr ?_⟩,
    ⟨hash, hhash, hhashNe, separator_notMem_of_moved fun left right hsplit ↦ Or.inr ?_⟩⟩
  · refine (h { envelope with
      eventType := left
      eventId := right ++ "|" ++ envelope.eventId } htime ?_).eventType
    simp [hashInput, hsplit, asBytes_append]
  · refine (h { envelope with
      eventType := envelope.eventType ++ "|" ++ left
      eventId := right } htime ?_).eventId
    simp [hashInput, hsplit, asBytes_append]
  · refine (h { envelope with
      payload := left
      aggregateId := some (right ++ "|" ++ id) } htime ?_).payload
    simp [hashInput, hsplit, hid, asBytes_append]
  · refine Option.some.inj (hid.symm.trans (h { envelope with
      payload := envelope.payload ++ "|" ++ left
      aggregateId := some right } htime ?_).aggregateId)
    simp [hashInput, hsplit, hid, asBytes_append]
  · refine Option.some.inj (hhash.symm.trans (h { envelope with
      aggregateId := some (id ++ "|" ++ left)
      previousHash := some right } htime ?_).previousHash)
    simp [hashInput, hsplit, hid, hhash, asBytes_append]

/-- No other envelope has the bytes of this one exactly when none of its texts has the separator in
it and its aggregate and the hash before it are there and not empty. -/
theorem determined_iff_delimited (envelope : EventEnvelope) (htime : envelope.timestamp < 2 ^ 64) :
    envelope.Determined ↔ envelope.Delimited :=
  ⟨fun h ↦ h.delimited htime, fun h ↦ h.determined htime⟩

theorem determined_iff_delimited_renamed :
    Determined ⟨"renamed", "e2", 1, "{}", some "a", none, some "00"⟩ :=
  (determined_iff_delimited ⟨"renamed", "e2", 1, "{}", some "a", none, some "00"⟩
    (by decide)).mpr ⟨by decide, by decide, by decide, ⟨"a", rfl, by decide, by decide⟩,
      ⟨"00", rfl, by decide, by decide⟩⟩

/-- The separator between the type and the id of an event can be a part of either. -/
theorem separator_moved : ¬ ∀ first second : EventEnvelope, first.timestamp < 2 ^ 64 →
    second.timestamp < 2 ^ 64 → first.hashInput = second.hashInput → SameFields first second := by
  intro h
  have hsame := h ⟨"a|b", "c", 1, "{}", none, none, none⟩ ⟨"a", "b|c", 1, "{}", none, none, none⟩
    (by decide) (by decide) (by decide)
  exact absurd hsame.eventType (by decide)

end EventEnvelope

end Lithair.Engine
