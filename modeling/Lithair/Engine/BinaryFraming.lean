import Lithair.Engine.OptimizedPersistence

/-!
# The framing of binary events

`append_binary_event_bytes` of `engine/persistence.rs` on the plain path writes an event behind its
length in eight bytes, and `read_all_event_bytes` takes the lengths from the file. The sum of a
length and of the place behind it is a number of 64 bits, which a length in the file may exceed.

`framing_iff`: what is appended is read back, what is left of it when the file is cut is read back
as far as it is whole, and any files whatever are read to their end exactly when in neither whole
frames are followed by such a length.
-/

namespace Lithair.Engine

open Lithair.Lib.Framing

/-- Behind whole frames there is a length that leads beyond the numbers of 64 bits. -/
def OverflowsFrom (cursor : ℕ) (bytes : List UInt8) : Prop :=
  ∃ payloads lenBytes rest, bytes = binaryFrames payloads ++ (lenBytes ++ rest) ∧
    lenBytes.length = 8 ∧
      2 ^ 64 ≤ cursor + (binaryFrames payloads).length + 8 + ofLeBytes lenBytes

def Overflows (content : List UInt8) : Prop := OverflowsFrom 0 content

section Reader

variable {rounds cursor : ℕ} {bytes lenBytes rest : List UInt8} {events : List (List UInt8)}

theorem not_overflowsFrom_of_short (h : bytes.length < 8) : ¬ OverflowsFrom cursor bytes := by
  rintro ⟨payloads, lenBytes, rest, rfl, hlen, -⟩
  rw [List.length_append, List.length_append, hlen] at h
  omega

/-- The first length leads beyond, or its payload is whole and what is behind it does. -/
theorem overflowsFrom_iff (hlen : lenBytes.length = 8) (hfits : rest.length < 2 ^ 64) :
    OverflowsFrom cursor (lenBytes ++ rest) ↔
      2 ^ 64 ≤ cursor + 8 + ofLeBytes lenBytes ∨
        ∃ payload behind, payload.length = ofLeBytes lenBytes ∧ rest = payload ++ behind ∧
          OverflowsFrom (cursor + 8 + ofLeBytes lenBytes) behind := by
  constructor
  · rintro ⟨payloads, lenBytes', rest', hbytes, hlen', hover⟩
    cases payloads with
    | nil =>
      have hsame : lenBytes ++ rest = lenBytes' ++ rest' := hbytes
      obtain ⟨rfl, rfl⟩ := List.append_inj hsame (hlen.trans hlen'.symm)
      exact Or.inl hover
    | cons payload payloads =>
      rw [binaryFrames_cons, List.append_assoc] at hbytes
      obtain ⟨rfl, rfl⟩ := List.append_inj hbytes (hlen.trans (length_leBytes 8 _).symm)
      rw [List.length_append, List.length_append] at hfits
      have hpayload : ofLeBytes (leBytes 8 payload.length) = payload.length :=
        ofLeBytes_leBytes (by omega)
      refine Or.inr ⟨payload, _, hpayload.symm, List.append_assoc _ _ _, payloads, lenBytes', rest',
        rfl, hlen', ?_⟩
      rw [length_binaryFrames_cons] at hover
      omega
  · rintro (hover | ⟨payload, behind, hpayload, rfl, payloads, lenBytes', rest', rfl, hlen', hover⟩)
    · exact ⟨[], lenBytes, rest, rfl, hlen, hover⟩
    · have hbytes : leBytes 8 payload.length = lenBytes := by
        rw [hpayload, ← hlen, leBytes_ofLeBytes]
      refine ⟨payload :: payloads, lenBytes', rest', ?_, hlen', ?_⟩
      · rw [binaryFrames_cons, hbytes]
        simp only [List.append_assoc]
      · rw [length_binaryFrames_cons]
        omega

/-- The reader fails exactly when a length leads beyond. -/
theorem readFramesFrom_eq_none_iff (hrounds : bytes.length ≤ rounds)
    (hfits : bytes.length < 2 ^ 64) :
    readFramesFrom rounds cursor bytes = none ↔ OverflowsFrom cursor bytes := by
  induction rounds generalizing cursor bytes with
  | zero =>
    exact iff_of_false (Option.some_ne_none _) (not_overflowsFrom_of_short (by omega))
  | succ rounds ih =>
    unfold readFramesFrom
    split
    · next hshort =>
      refine iff_of_false (Option.some_ne_none _) (not_overflowsFrom_of_short ?_)
      by_contra hlong
      rw [readExact, if_pos (Nat.le_of_not_lt hlong)] at hshort
      cases hshort
    · next lenBytes rest hread =>
      obtain ⟨hlen, rfl⟩ := append_of_readExact hread
      rw [List.length_append, hlen] at hrounds hfits
      rw [overflowsFrom_iff hlen (by omega)]
      dsimp only
      by_cases hover : 2 ^ 64 ≤ cursor + 8 + ofLeBytes lenBytes
      · rw [if_pos hover]
        exact iff_of_true rfl (Or.inl hover)
      · rw [if_neg hover, or_iff_right hover]
        split
        · next hpart =>
          refine iff_of_false (Option.some_ne_none _) ?_
          rintro ⟨payload, behind, hpayload, rfl, -⟩
          rw [readExact_append hpayload] at hpart
          cases hpart
        · next payload behind hpart =>
          obtain ⟨hpayload, rfl⟩ := append_of_readExact hpart
          rw [List.length_append] at hrounds hfits
          rw [Option.map_eq_none_iff, ih (by omega) (by omega)]
          constructor
          · exact fun h ↦ ⟨payload, behind, hpayload, rfl, h⟩
          · rintro ⟨payload', behind', hpayload', hsame, h⟩
            obtain ⟨rfl, rfl⟩ := List.append_inj hsame (hpayload.trans hpayload'.symm)
            exact h

/-- There are no more rounds than bytes. -/
theorem readFramesFrom_rounds {rounds' : ℕ} (hrounds : bytes.length ≤ rounds)
    (hrounds' : bytes.length ≤ rounds') :
    readFramesFrom rounds cursor bytes = readFramesFrom rounds' cursor bytes := by
  induction rounds generalizing rounds' cursor bytes with
  | zero =>
    obtain rfl := List.length_eq_zero_iff.mp (Nat.le_zero.mp hrounds)
    cases rounds' <;> rfl
  | succ rounds ih =>
    by_cases hnil : bytes = []
    · subst hnil
      cases rounds' <;> rfl
    · have hpos := List.length_pos_of_ne_nil hnil
      obtain ⟨rounds', rfl⟩ : ∃ m, rounds' = m + 1 := ⟨rounds' - 1, by omega⟩
      rw [readFramesFrom, readFramesFrom]
      split
      · rfl
      · next lenBytes rest hread =>
        have hrest := length_of_readExact hread
        dsimp only
        split_ifs
        · rfl
        · split
          · rfl
          · next payload behind hpart =>
            have hbehind := length_of_readExact hpart
            rw [ih (show behind.length ≤ rounds by omega) (show behind.length ≤ rounds' by omega)]

/-- Of frames that are cut those are read that are whole. -/
theorem readFramesFrom_take (n : ℕ) (hrounds : (binaryFrames events).length ≤ rounds)
    (hfits : cursor + (binaryFrames events).length < 2 ^ 64) :
    ∃ front, front <+: events ∧
      readFramesFrom rounds cursor ((binaryFrames events).take n) = some front := by
  induction events generalizing rounds cursor n with
  | nil =>
    refine ⟨[], List.prefix_rfl, ?_⟩
    rw [binaryFrames, List.flatMap_nil, List.take_nil]
    cases rounds <;> rfl
  | cons data rest ih =>
    rw [length_binaryFrames_cons] at hrounds hfits
    obtain ⟨rounds, rfl⟩ : ∃ m, rounds = m + 1 := ⟨rounds - 1, by omega⟩
    have hlen : ofLeBytes (leBytes 8 data.length) = data.length := ofLeBytes_leBytes (by omega)
    rw [binaryFrames_cons, readFramesFrom]
    by_cases hlength : n < 8
    · -- The cut is in the length.
      refine ⟨[], List.nil_prefix, ?_⟩
      rw [readExact_eq_none]
      rw [List.length_take]
      omega
    · rw [List.take_append, length_leBytes, List.take_of_length_le (by simpa using hlength),
        readExact_append (length_leBytes 8 _)]
      simp only [hlen]
      rw [if_neg (by omega)]
      by_cases hpayload : n - 8 < data.length
      · -- The cut is in the payload.
        refine ⟨[], List.nil_prefix, ?_⟩
        rw [readExact_eq_none]
        rw [List.length_take]
        omega
      · rw [List.take_append, List.take_of_length_le (Nat.le_of_not_lt hpayload),
          readExact_append rfl]
        obtain ⟨front, hfront, hread⟩ := ih (n - 8 - data.length)
          (show (binaryFrames rest).length ≤ rounds by omega)
          (show cursor + 8 + data.length + (binaryFrames rest).length < 2 ^ 64 by omega)
        refine ⟨data :: front, List.cons_prefix_cons.mpr ⟨rfl, hfront⟩, ?_⟩
        simp only [hread]
        rfl

end Reader

/-! ### What is appended -/

namespace PlainStorage

/-- Appends to a log that no one has renamed. -/
theorem files_foldl_appendBinaryEventBytes {s : PlainStorage}
    (hhandle : s.binaryWriter.getD s.files.generation = s.files.generation)
    (events : List (List UInt8)) :
    (events.foldl appendBinaryEventBytes s).files =
      { s.files with events := s.files.events ++ binaryFrames events } := by
  induction events generalizing s with
  | nil =>
    rw [binaryFrames, List.flatMap_nil, List.append_nil]
    rfl
  | cons data rest ih =>
    have hfiles : (s.appendBinaryEventBytes data).files =
        { s.files with events := s.files.events ++ binaryFrame data } := by
      rw [appendBinaryEventBytes, hhandle]
      exact if_pos rfl
    have hhandle' : (s.appendBinaryEventBytes data).binaryWriter.getD
        (s.appendBinaryEventBytes data).files.generation =
        (s.appendBinaryEventBytes data).files.generation := by
      rw [hfiles]
      exact hhandle
    have hframes : binaryFrames (data :: rest) = binaryFrame data ++ binaryFrames rest :=
      List.flatMap_cons
    rw [List.foldl_cons, ih hhandle', hfiles, hframes, ← List.append_assoc]

end PlainStorage

theorem readFrames_eq_none_iff {content : List UInt8} (hfits : content.length < 2 ^ 64) :
    readFrames content = none ↔ Overflows content :=
  readFramesFrom_eq_none_iff le_rfl hfits

theorem LogFiles.readAllEventBytes_ne_none_iff {files : LogFiles}
    (hrotated : files.rotated.length < 2 ^ 64) (hevents : files.events.length < 2 ^ 64) :
    files.readAllEventBytes ≠ none ↔ ¬ Overflows files.rotated ∧ ¬ Overflows files.events := by
  rw [← readFrames_eq_none_iff hrotated, ← readFrames_eq_none_iff hevents,
    LogFiles.readAllEventBytes]
  cases readFrames files.rotated with
  | none => simp
  | some first => simp

/-- Binary events that fit into a file are read back, and a prefix of them is when the file is cut;
and any two files are read, in no more rounds than they have bytes, exactly when in neither whole
frames are followed by a length that leads beyond the numbers of 64 bits. -/
theorem framing_iff (events : List (List UInt8)) (maxBatchSize maxLogFileSize : ℕ)
    (anyFiles : LogFiles) :
    ((binaryFrames events).length < 2 ^ 64 →
        let files := (events.foldl PlainStorage.appendBinaryEventBytes
          (.new .empty maxBatchSize maxLogFileSize)).files
        files.readAllEventBytes = some events ∧ ∀ n, ∃ front, front <+: events ∧
          { files with events := files.events.take n }.readAllEventBytes = some front) ∧
      (anyFiles.rotated.length < 2 ^ 64 → anyFiles.events.length < 2 ^ 64 →
        (anyFiles.readAllEventBytes ≠ none ↔
          ¬ Overflows anyFiles.rotated ∧ ¬ Overflows anyFiles.events) ∧
          ∀ rounds, anyFiles.events.length ≤ rounds →
            readFramesFrom rounds 0 anyFiles.events = readFrames anyFiles.events) := by
  refine ⟨fun hfits ↦ ?_, fun hrotated hevents ↦
    ⟨LogFiles.readAllEventBytes_ne_none_iff hrotated hevents,
      fun rounds hrounds ↦ readFramesFrom_rounds hrounds le_rfl⟩⟩
  intro files
  have hfiles : files = ⟨[], binaryFrames events, 0⟩ :=
    PlainStorage.files_foldl_appendBinaryEventBytes rfl events
  rw [hfiles]
  refine ⟨LogFiles.readAllEventBytes_binaryFrames rfl rfl hfits, fun n ↦ ?_⟩
  obtain ⟨front, hfront, hread⟩ := readFramesFrom_take n (le_refl (binaryFrames events).length)
    (show 0 + (binaryFrames events).length < 2 ^ 64 by omega)
  refine ⟨front, hfront, ?_⟩
  have hshort : ((binaryFrames events).take n).length ≤ (binaryFrames events).length :=
    List.length_take_le' _ _
  show (readFrames []).bind (fun first ↦ Option.map _ (readFramesFrom _ 0 _)) = _
  rw [readFramesFrom_rounds le_rfl hshort, hread]
  rfl

/-- A file of eight bytes of ones. -/
theorem allOnes_overflows :
    ¬ ∀ files : LogFiles, files.rotated.length < 2 ^ 64 → files.events.length < 2 ^ 64 →
      files.readAllEventBytes ≠ none := by
  intro h
  exact h ⟨[], List.replicate 8 255, 0⟩ (by decide) (by decide) (by decide)

end Lithair.Engine
