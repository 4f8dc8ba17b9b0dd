import Mathlib.Data.List.Basic

/-!
# Compression by runs

A run of at least four equal bytes is written as the marker `0xFF`, its length and the byte; every
other byte stands for itself. A `0xFF` of the data that is not part of such a run is then taken for
a marker, unless fewer than two bytes follow it. The bytes that come back are those that went in
exactly when this happens to no run of the marker (`simpleDecompress_simpleCompress_iff`): a decoder
that has once taken data for a marker is behind by some bytes and never catches up (`late`).
-/

namespace Lithair.Serialization.RunLength

inductive BinaryError
  | invalidFormat (message : String)
  | insufficientData
  | serializationFailed (message : String)
  | deserializationFailed (message : String)
  | compressionFailed (message : String)
  | decompressionFailed (message : String)

/-- How many of the bytes, `count` already counted, are the same byte. -/
def countRun (byte : UInt8) : ℕ → List UInt8 → ℕ
  | count, next :: data =>
    if next = byte ∧ count < 255 then countRun byte (count + 1) data else count
  | count, [] => count

def simpleCompress : List UInt8 → List UInt8
  | [] => []
  | byte :: data =>
    let count := countRun byte 1 data
    (if 3 < count then [0xFF, UInt8.ofNat count, byte] else List.replicate count byte) ++
      simpleCompress (data.drop (count - 1))
termination_by data => data.length
decreasing_by rw [List.length_drop, List.length_cons]; omega

def decompressed : List UInt8 → List UInt8
  | first :: count :: byte :: data =>
    if first = 0xFF then List.replicate count.toNat byte ++ decompressed data
    else first :: decompressed (count :: byte :: data)
  | byte :: data => byte :: decompressed data
  | [] => []

def simpleDecompress (data : List UInt8) : Except BinaryError (List UInt8) :=
  .ok (decompressed data)

/-! ### One step of each -/

variable {b c : UInt8} {k n : ℕ} {data rest t : List UInt8}

theorem countRun_replicate (hn : k + n ≤ 255) (ht : k + n = 255 ∨ t.head? ≠ some b) :
    countRun b k (List.replicate n b ++ t) = k + n := by
  induction n generalizing k with
  | zero =>
    cases t with
    | nil => rfl
    | cons next t =>
      have hstop : ¬ (next = b ∧ k < 255) := by
        rintro ⟨rfl, hk⟩
        rcases ht with ht | ht
        · omega
        · exact ht rfl
      rw [List.replicate_zero, List.nil_append, countRun, if_neg hstop, Nat.add_zero]
  | succ n ih =>
    rw [List.replicate_succ, List.cons_append, countRun, if_pos ⟨rfl, by omega⟩,
      ih (by omega) (by rwa [Nat.succ_add_eq_add_succ])]
    omega

/-- A run that is written as it is or as a marker, and what is behind it. -/
theorem simpleCompress_replicate (hk : k ≠ 0) (hle : k ≤ 255) (ht : k = 255 ∨ t.head? ≠ some b) :
    simpleCompress (List.replicate k b ++ t) =
      (if 3 < k then [0xFF, UInt8.ofNat k, b] else List.replicate k b) ++ simpleCompress t := by
  obtain ⟨n, rfl⟩ := Nat.exists_eq_succ_of_ne_zero hk
  have hcount : countRun b 1 (List.replicate n b ++ t) = n + 1 := by
    rw [countRun_replicate (by omega) (by rwa [Nat.add_comm 1 n]), Nat.add_comm]
  rw [List.replicate_succ, List.cons_append, simpleCompress]
  simp only [hcount, Nat.add_sub_cancel, List.drop_left' List.length_replicate, Nat.succ_eq_add_one,
    List.replicate_succ]

/-- The bytes in front of which there are no more of the same. -/
theorem exists_run (b : UInt8) (data : List UInt8) :
    ∃ n t, data = List.replicate n b ++ t ∧ t.head? ≠ some b := by
  induction data with
  | nil => exact ⟨0, [], rfl, nofun⟩
  | cons c data ih =>
    by_cases hc : c = b
    · obtain ⟨n, t, rfl, ht⟩ := ih
      exact ⟨n + 1, t, by rw [hc, List.replicate_succ, List.cons_append], ht⟩
    · exact ⟨0, c :: data, rfl, by simpa using hc⟩

theorem lt_three_of_not_prefix (h : ¬ [b, b, b] <+: List.replicate n b ++ t) : n < 3 := by
  by_contra hn
  obtain ⟨m, rfl⟩ := Nat.exists_eq_add_of_le' (Nat.le_of_not_lt hn)
  refine h ⟨List.replicate m b ++ t, ?_⟩
  rw [Nat.add_comm, List.replicate_add, List.append_assoc]
  rfl

/-- A byte that fewer than three of the same follow is written as it is. -/
theorem simpleCompress_cons (h : ¬ [b, b, b] <+: data) :
    simpleCompress (b :: data) = b :: simpleCompress data := by
  obtain ⟨n, t, rfl, ht⟩ := exists_run b data
  have hn : n < 3 := lt_three_of_not_prefix h
  have hwhole := simpleCompress_replicate (b := b) (Nat.succ_ne_zero n) (by omega) (.inr ht)
  rw [if_neg (by omega), List.replicate_succ, List.cons_append, List.cons_append] at hwhole
  rw [hwhole]
  cases n with
  | zero => rfl
  | succ n =>
    rw [simpleCompress_replicate (Nat.succ_ne_zero n) (by omega) (.inr ht), if_neg (by omega)]

/-- Four of the same begin a run, which is written as a marker. -/
theorem exists_marker (h : [b, b, b] <+: data) :
    ∃ k t, 4 ≤ k ∧ k ≤ 255 ∧ (k = 255 ∨ t.head? ≠ some b) ∧
      b :: data = List.replicate k b ++ t ∧
        simpleCompress (b :: data) = 0xFF :: UInt8.ofNat k :: b :: simpleCompress t := by
  obtain ⟨rest, rfl⟩ := h
  obtain ⟨n, t, rfl, ht⟩ := exists_run b rest
  have hall : b :: ([b, b, b] ++ (List.replicate n b ++ t)) = List.replicate (n + 4) b ++ t := by
    rw [Nat.add_comm, List.replicate_add, List.append_assoc]
    rfl
  have hcompress {k : ℕ} {t : List UInt8} (hk : 4 ≤ k) (hle : k ≤ 255)
      (ht : k = 255 ∨ t.head? ≠ some b) : simpleCompress (List.replicate k b ++ t) =
        0xFF :: UInt8.ofNat k :: b :: simpleCompress t := by
    rw [simpleCompress_replicate (by omega) hle ht, if_pos (by omega)]
    rfl
  by_cases hn : n + 4 ≤ 255
  · exact ⟨n + 4, t, by omega, hn, .inr ht, hall, hall ▸ hcompress (by omega) hn (.inr ht)⟩
  · have hcut : List.replicate (n + 4) b ++ t =
        List.replicate 255 b ++ (List.replicate (n + 4 - 255) b ++ t) := by
      rw [← List.append_assoc, ← List.replicate_add, Nat.add_sub_cancel' (by omega)]
    refine ⟨255, List.replicate (n + 4 - 255) b ++ t, by omega, Nat.le_refl 255, .inl rfl,
      hall.trans hcut, ?_⟩
    rw [hall, hcut, hcompress (by omega) (Nat.le_refl 255) (.inl rfl)]

theorem toNat_length (hk : k ≤ 255) : (UInt8.ofNat k).toNat = k :=
  UInt8.toNat_ofNat_of_lt' (Nat.lt_succ_of_le hk)

theorem decompressed_marker (k b : UInt8) (data : List UInt8) :
    decompressed (0xFF :: k :: b :: data) = List.replicate k.toNat b ++ decompressed data := by
  rw [decompressed, if_pos rfl]

theorem decompressed_literal (hb : b ≠ 0xFF) (data : List UInt8) :
    decompressed (b :: data) = b :: decompressed data := by
  match data with
  | [] | [_] => rfl
  | _ :: _ :: _ => rw [decompressed, if_neg hb]

theorem decompressed_short (h : data.length ≤ 2) : decompressed data = data := by
  match data with
  | [] | [_] | [_, _] => rfl

/-! ### A decoder that is behind -/

/-- Copies of a byte that do not make up all that is expected are the front of it, and what is not
that byte is still to come. -/
theorem behind_of_replicate {expected rest found : List UInt8} {n : ℕ} {c : UInt8}
    (h : List.replicate n c ++ found = expected ++ rest)
    (hother : (∃ b ∈ expected, b ≠ c) ∨ rest.head? ≠ some c ∨ n ≤ expected.length) :
    ∃ behind, expected = List.replicate n c ++ behind ∧ found = behind ++ rest := by
  rcases List.append_eq_append_iff.mp h with ⟨behind, hexpected, hfound⟩ | ⟨beyond, hcopies, hrest⟩
  · exact ⟨behind, hexpected, hfound⟩
  · have hcopied {b : UInt8} (hb : b ∈ expected ++ beyond) : b = c :=
      List.eq_of_mem_replicate (hcopies ▸ hb)
    have hover : beyond = [] := by
      rcases hother with ⟨b, hb, hne⟩ | hne | hle
      · exact absurd (hcopied (List.mem_append_left _ hb)) hne
      · cases beyond with
        | nil => rfl
        | cons first beyond =>
          rw [hrest, List.cons_append, List.head?_cons] at hne
          exact absurd (congrArg some (hcopied (List.mem_append_right _ List.mem_cons_self))) hne
      · have hlength := congrArg List.length hcopies
        rw [List.length_replicate, List.length_append] at hlength
        exact List.eq_nil_of_length_eq_zero (by omega)
    subst hover
    exact ⟨[], by rw [hcopies, List.append_nil, List.append_nil], by simpa using hrest.symm⟩

theorem mem_of_replicate {expected later : List UInt8} {n : ℕ} {b c : UInt8}
    (h : expected = List.replicate n c ++ later) (hb : b ∈ expected) (hne : b ≠ c) : b ∈ later := by
  rw [h] at hb
  exact (List.mem_append.mp hb).resolve_left fun hmem ↦ hne (List.eq_of_mem_replicate hmem)

/-- With `n` bytes of the data left, a decoder that still has to give out the bytes `behind` does
not give out what it has to: in front of what is written for these bytes, behind a marker that the
data has as a byte, and in a run that is written as a marker, in front of its length and in front of
its byte. -/
structure Late (n : ℕ) : Prop where
  start {behind data : List UInt8} : data.length = n → behind ≠ [] →
    (data.head? = some 0xFF → ∃ b ∈ behind, b ≠ 0xFF) →
      decompressed (simpleCompress data) ≠ behind ++ data
  marker {behind data : List UInt8} : data.length = n → 0xFF ∈ behind →
    (2 ≤ behind.length ∨ 2 ≤ (simpleCompress data).length) → ¬ [0xFF, 0xFF, 0xFF] <+: data →
      (data.head? = some 0xFF → behind = [0xFF] ∨ ∃ b ∈ behind, b ≠ 0xFF) →
        decompressed (0xFF :: simpleCompress data) ≠ behind ++ data
  count {behind data : List UInt8} {b : UInt8} {k : ℕ} : data.length = n → 4 ≤ k → k ≤ 255 →
    (k = 255 ∨ data.head? ≠ some b) → (b = 0xFF → ∃ c ∈ behind, c ≠ 0xFF) →
      decompressed (UInt8.ofNat k :: b :: simpleCompress data) ≠
        behind ++ (List.replicate k b ++ data)
  byte {behind data : List UInt8} {b : UInt8} {k : ℕ} : data.length = n → 2 ≤ k →
    (b = 0xFF → data.head? ≠ some 0xFF) →
      decompressed (b :: simpleCompress data) ≠ behind ++ (List.replicate k b ++ data)

theorem late_start (ih : ∀ m < n, Late m) {behind data : List UInt8} (hlength : data.length = n)
    (hbehind : behind ≠ []) (hother : data.head? = some 0xFF → ∃ b ∈ behind, b ≠ 0xFF) :
    decompressed (simpleCompress data) ≠ behind ++ data := by
  intro h
  cases data with
  | nil =>
    rw [simpleCompress, List.append_nil] at h
    exact hbehind h.symm
  | cons b data =>
    by_cases hrun : [b, b, b] <+: data
    · obtain ⟨k, t, hk, hle, -, hsplit, hcompress⟩ := exists_marker hrun
      have hshorter : t.length < n := by
        have := congrArg List.length hsplit
        rw [hlength, List.length_append, List.length_replicate] at this
        omega
      rw [hcompress, decompressed_marker, toNat_length hle, hsplit,
        ← List.append_assoc] at h
      obtain ⟨later, hlater, hfound⟩ := behind_of_replicate h (.inr (.inr (by simp)))
      have hne : later ≠ [] := by
        rintro rfl
        have := congrArg List.length hlater
        rw [List.append_nil, List.length_append] at this
        exact hbehind (List.eq_nil_of_length_eq_zero (by omega))
      refine (ih _ hshorter).start rfl hne (fun _ ↦ ?_) hfound
      by_cases hb : b = 0xFF
      · obtain ⟨c, hc, hcne⟩ := hother (by rw [hb]; rfl)
        exact ⟨c, mem_of_replicate hlater (List.mem_append_left _ hc) (hb ▸ hcne), hcne⟩
      · have hlast : later.getLast? = some b := by
          have hend : (List.replicate k b).getLast? = some b := by
            rw [List.getLast?_replicate, if_neg (by omega)]
          rw [← List.getLast?_append_of_ne_nil (List.replicate k b) hne, ← hlater,
            List.getLast?_append, hend, Option.some_or]
        exact ⟨b, List.mem_of_getLast? hlast, hb⟩
    · rw [simpleCompress_cons hrun] at h
      have hshorter : data.length < n := hlength ▸ Nat.lt_succ_self _
      by_cases hb : b = 0xFF
      · subst hb
        have hsplit : behind ++ 0xFF :: data = (behind ++ [0xFF]) ++ data := by simp
        have hpositive := List.length_pos_iff.mpr hbehind
        refine (ih _ hshorter).marker rfl (by simp) (.inl (by simp; omega)) hrun ?_
          (h.trans hsplit)
        intro _
        obtain ⟨c, hc, hne⟩ := hother rfl
        exact .inr ⟨c, List.mem_append_left _ hc, hne⟩
      · rw [decompressed_literal hb] at h
        cases behind with
        | nil => exact hbehind rfl
        | cons c behind =>
          rw [List.cons_append, List.cons.injEq] at h
          obtain ⟨rfl, h⟩ := h
          have hsplit : behind ++ b :: data = (behind ++ [b]) ++ data := by simp
          exact (ih _ hshorter).start rfl (by simp) (fun _ ↦ ⟨b, by simp, hb⟩) (h.trans hsplit)

/-- A marker of the data takes the next two bytes that are written for a length and a byte. -/
theorem late_marker (ih : ∀ m < n, Late m) {behind data : List UInt8} (hlength : data.length = n)
    (hmarker : 0xFF ∈ behind) (hlong : 2 ≤ behind.length ∨ 2 ≤ (simpleCompress data).length)
    (hrun : ¬ [0xFF, 0xFF, 0xFF] <+: data)
    (hother : data.head? = some 0xFF → behind = [0xFF] ∨ ∃ b ∈ behind, b ≠ 0xFF) :
    decompressed (0xFF :: simpleCompress data) ≠ behind ++ data := by
  intro h
  match data with
  | [] =>
    have hshort : simpleCompress [] = [] := by rw [simpleCompress]
    rw [hshort, decompressed_short (by decide), List.append_nil] at h
    rw [← h, hshort] at hlong
    exact absurd hlong (by decide)
  | b :: data =>
    have hshorter : data.length < n := hlength ▸ Nat.lt_succ_self _
    by_cases hfirst : [b, b, b] <+: data
    · obtain ⟨k, t, hk, hle, -, hsplit, hcompress⟩ := exists_marker hfirst
      have hb : b ≠ 0xFF := by
        rintro rfl
        obtain ⟨rest, rfl⟩ := hfirst
        exact hrun ⟨0xFF :: rest, rfl⟩
      have ht : t.length < n := by
        have := congrArg List.length hsplit
        rw [hlength, List.length_append, List.length_replicate] at this
        omega
      rw [hcompress, decompressed_marker, hsplit] at h
      have hgiven : (∃ c ∈ behind, c ≠ UInt8.ofNat k) ∨
          (List.replicate k b ++ t).head? ≠ some (UInt8.ofNat k) ∨
            (255 : UInt8).toNat ≤ behind.length := by
        by_cases hcount : UInt8.ofNat k = 0xFF
        · refine .inr (.inl ?_)
          rw [← hsplit, hcount]
          simpa using hb
        · exact .inl ⟨0xFF, hmarker, Ne.symm hcount⟩
      obtain ⟨later, -, hfound⟩ := behind_of_replicate h hgiven
      exact (ih _ ht).byte rfl (by omega) (absurd · hb) hfound
    · rw [simpleCompress_cons hfirst] at h hlong
      match data with
      | [] =>
        have hshort : simpleCompress [] = [] := by rw [simpleCompress]
        have hpair : decompressed [0xFF, b] = [0xFF, b] := decompressed_short (Nat.le_refl 2)
        rw [hshort, hpair] at h
        have := congrArg List.length h
        rw [hshort] at hlong
        simp at this hlong
        omega
      | c :: data =>
        have htail : data.length < n := Nat.lt_of_succ_lt hshorter
        by_cases hsecond : [c, c, c] <+: data
        · obtain ⟨k, t, hk, hle, hend, hsplit, hcompress⟩ := exists_marker hsecond
          have ht : t.length < n := by
            have := congrArg List.length hsplit
            rw [List.length_cons, List.length_append, List.length_replicate] at this
            omega
          have hsame : b = 0xFF → c ≠ 0xFF := by
            rintro rfl rfl
            obtain ⟨rest, rfl⟩ := hsecond
            exact hrun ⟨0xFF :: 0xFF :: rest, rfl⟩
          have hsides : behind ++ b :: (List.replicate k c ++ t) =
              (behind ++ [b]) ++ (List.replicate k c ++ t) := by simp
          rw [hcompress, decompressed_marker, hsplit, hsides] at h
          have hgiven : (∃ y ∈ behind ++ [b], y ≠ 0xFF) ∨
              (List.replicate k c ++ t).head? ≠ some 0xFF ∨
                b.toNat ≤ (behind ++ [b]).length := by
            by_cases hb : b = 0xFF
            · refine .inr (.inl ?_)
              rw [← hsplit]
              simpa using hsame hb
            · exact .inl ⟨b, by simp, hb⟩
          obtain ⟨later, hlater, hfound⟩ := behind_of_replicate h hgiven
          refine (ih _ ht).count rfl hk hle hend (fun hc ↦ ?_) hfound
          have hb : b ≠ 0xFF := fun hb ↦ hsame hb hc
          exact ⟨b, mem_of_replicate hlater (by simp) hb, hb⟩
        · rw [simpleCompress_cons hsecond, decompressed_marker] at h
          by_cases hboth : b = 0xFF ∧ c = 0xFF
          · obtain ⟨rfl, rfl⟩ := hboth
            have hsides : behind ++ 0xFF :: 0xFF :: data = (behind ++ [0xFF, 0xFF]) ++ data := by
              simp
            have hhead : data.head? ≠ some 0xFF := by
              intro hhead
              obtain ⟨t, rfl⟩ := List.head?_eq_some_iff.mp hhead
              exact hrun ⟨t, rfl⟩
            obtain ⟨later, hlater, hfound⟩ :=
              behind_of_replicate (h.trans hsides) (.inr (.inl hhead))
            refine (ih _ htail).start rfl ?_ (absurd · hhead) hfound
            rcases hother rfl with rfl | ⟨y, hy, hne⟩
            · have := congrArg List.length hlater
              rw [List.length_append, List.length_append, List.length_replicate] at this
              exact absurd this (by simp; omega)
            · exact List.ne_nil_of_mem (mem_of_replicate hlater (List.mem_append_left _ hy) hne)
          · have hsides : behind ++ b :: c :: data = (behind ++ [b]) ++ (c :: data) := by simp
            have hgiven : ∃ y ∈ behind ++ [b], y ≠ c := by
              by_cases hc : c = 0xFF
              · exact ⟨b, by simp, fun hb ↦ hboth ⟨hb.trans hc, hc⟩⟩
              · exact ⟨0xFF, List.mem_append_left _ hmarker, Ne.symm hc⟩
            obtain ⟨later, hlater, hfound⟩ := behind_of_replicate (h.trans hsides) (.inl hgiven)
            have hpass : later ++ c :: data = (later ++ [c]) ++ data := by simp
            refine (ih _ htail).start rfl (by simp) (fun _ ↦ ?_) (hfound.trans hpass)
            by_cases hc : c = 0xFF
            · have hb : b ≠ 0xFF := fun hb ↦ hboth ⟨hb, hc⟩
              exact ⟨b, List.mem_append_left _ (mem_of_replicate hlater (by simp) (hc ▸ hb)), hb⟩
            · exact ⟨c, by simp, hc⟩

theorem late_byte (hstart : ∀ {behind data : List UInt8}, data.length = n → behind ≠ [] →
      (data.head? = some 0xFF → ∃ b ∈ behind, b ≠ 0xFF) →
        decompressed (simpleCompress data) ≠ behind ++ data)
    (ih : ∀ m < n, Late m) {behind data : List UInt8} {b : UInt8} {k : ℕ}
    (hlength : data.length = n) (hk : 2 ≤ k) (hend : b = 0xFF → data.head? ≠ some 0xFF) :
    decompressed (b :: simpleCompress data) ≠ behind ++ (List.replicate k b ++ data) := by
  intro h
  obtain ⟨k, rfl⟩ := Nat.exists_eq_add_of_le' hk
  rw [← List.append_assoc] at h
  by_cases hb : b = 0xFF
  · subst hb
    refine late_marker ih hlength (by simp) (.inl (by simp; omega)) ?_ (absurd · (hend rfl)) h
    rintro ⟨t, rfl⟩
    exact hend rfl rfl
  · rw [decompressed_literal hb] at h
    have hmem : ∃ later, behind ++ List.replicate (k + 2) b = b :: later ∧ b ∈ later := by
      cases behind with
      | nil => exact ⟨List.replicate (k + 1) b, rfl, by simp⟩
      | cons c behind =>
        rw [List.cons_append, List.cons_append, List.cons.injEq] at h
        exact ⟨behind ++ List.replicate (k + 2) b, by rw [h.1, List.cons_append], by simp⟩
    obtain ⟨later, hlater, hmem⟩ := hmem
    rw [hlater, List.cons_append, List.cons.injEq] at h
    exact hstart hlength (List.ne_nil_of_mem hmem) (fun _ ↦ ⟨b, hmem, hb⟩) h.2

theorem late_count (hbyte : ∀ {behind data : List UInt8} {b : UInt8} {k : ℕ}, data.length = n →
      2 ≤ k → (b = 0xFF → data.head? ≠ some 0xFF) →
        decompressed (b :: simpleCompress data) ≠ behind ++ (List.replicate k b ++ data))
    (ih : ∀ m < n, Late m) {behind data : List UInt8} {b : UInt8} {k : ℕ}
    (hlength : data.length = n) (hk : 4 ≤ k) (hle : k ≤ 255)
    (hend : k = 255 ∨ data.head? ≠ some b) (hother : b = 0xFF → ∃ c ∈ behind, c ≠ 0xFF) :
    decompressed (UInt8.ofNat k :: b :: simpleCompress data) ≠
      behind ++ (List.replicate k b ++ data) := by
  intro h
  by_cases hcount : k = 255
  · have hmarker : UInt8.ofNat k = 0xFF := by rw [hcount]; rfl
    rw [← List.append_assoc, hmarker] at h
    -- The length is taken for a marker and the byte for a length.
    cases data with
    | nil =>
      have hshort : simpleCompress [] = [] := by rw [simpleCompress]
      have hpair : decompressed [0xFF, b] = [0xFF, b] := decompressed_short (Nat.le_refl 2)
      rw [hshort, hpair] at h
      have := congrArg List.length h
      simp at this
      omega
    | cons c data =>
      have htail : data.length < n := hlength ▸ Nat.lt_succ_self _
      have hgiven : b.toNat ≤ (behind ++ List.replicate k b).length := by
        have := b.toNat_lt
        rw [List.length_append, List.length_replicate]
        omega
      -- What is still to come has a byte that is not a marker.
      have hmem {later : List UInt8} (hlater : behind ++ List.replicate k b =
          List.replicate b.toNat 0xFF ++ later) : ∃ y ∈ later, y ≠ 0xFF := by
        by_cases hb : b = 0xFF
        · obtain ⟨y, hy, hne⟩ := hother hb
          exact ⟨y, mem_of_replicate hlater (List.mem_append_left _ hy) hne, hne⟩
        · exact ⟨b, mem_of_replicate hlater (by simp; omega) hb, hb⟩
      by_cases hrun : [c, c, c] <+: data
      · obtain ⟨k, t, hk, hle, hend, hsplit, hcompress⟩ := exists_marker hrun
        have ht : t.length < n := by
          have := congrArg List.length hsplit
          rw [hlength, List.length_append, List.length_replicate] at this
          omega
        rw [hcompress, hsplit] at h
        obtain ⟨later, hlater, hfound⟩ := behind_of_replicate
          ((decompressed_marker b 0xFF _).symm.trans h) (.inr (.inr hgiven))
        exact (ih _ ht).count rfl hk hle hend (fun _ ↦ hmem hlater) hfound
      · rw [simpleCompress_cons hrun] at h
        obtain ⟨later, hlater, hfound⟩ := behind_of_replicate
          ((decompressed_marker b c _).symm.trans h) (.inr (.inr hgiven))
        have hpass : later ++ c :: data = (later ++ [c]) ++ data := by simp
        refine (ih _ htail).start rfl (by simp) (fun _ ↦ ?_) (hfound.trans hpass)
        by_cases hc : c = 0xFF
        · obtain ⟨y, hy, hne⟩ := hmem (hc ▸ hlater)
          exact ⟨y, List.mem_append_left _ hy, hne⟩
        · exact ⟨c, by simp, hc⟩
  · have hliteral : UInt8.ofNat k ≠ 0xFF := by
      intro heq
      have := congrArg UInt8.toNat heq
      rw [toNat_length hle] at this
      exact hcount this
    have hb : b = 0xFF → data.head? ≠ some 0xFF := by
      rintro rfl
      exact hend.resolve_left hcount
    rw [decompressed_literal hliteral] at h
    cases behind with
    | nil =>
      obtain ⟨k, rfl⟩ := Nat.exists_eq_add_of_le' hk
      rw [List.nil_append, List.replicate_succ, List.cons_append, List.cons.injEq] at h
      exact hbyte hlength (by omega) hb (h.2.trans (List.nil_append _).symm)
    | cons c behind =>
      rw [List.cons_append, List.cons.injEq] at h
      exact hbyte hlength (by omega) hb h.2

/-- A decoder that is behind never catches up. -/
theorem late (n : ℕ) : Late n := by
  induction n using Nat.strongRecOn with
  | ind n ih =>
    have hstart {behind data : List UInt8} (hlength : data.length = n) (hbehind : behind ≠ [])
        (hother : data.head? = some 0xFF → ∃ b ∈ behind, b ≠ 0xFF) :
        decompressed (simpleCompress data) ≠ behind ++ data :=
      late_start ih hlength hbehind hother
    have hbyte {behind data : List UInt8} {b : UInt8} {k : ℕ} (hlength : data.length = n)
        (hk : 2 ≤ k) (hend : b = 0xFF → data.head? ≠ some 0xFF) :
        decompressed (b :: simpleCompress data) ≠ behind ++ (List.replicate k b ++ data) :=
      late_byte hstart ih hlength hk hend
    exact ⟨hstart, late_marker ih, late_count hbyte ih, hbyte⟩

/-! ### What comes back -/

/-- Every run of the marker in the data is one of 255, or leaves at least four over, or is at the
end: nothing that it leaves over has two more bytes behind it. -/
def Spared (data : List UInt8) : Prop :=
  ∀ front back n, data = front ++ (List.replicate n 0xFF ++ back) →
    front.getLast? ≠ some 0xFF → back.head? ≠ some 0xFF →
      n % 255 = 0 ∨ 4 ≤ n % 255 ∨ n % 255 + back.length ≤ 2

theorem spared_cons_iff (hb : b ≠ 0xFF) : Spared (b :: data) ↔ Spared data := by
  constructor
  · rintro h front back n rfl hfront hback
    refine h (b :: front) back n rfl ?_ hback
    cases front with
    | nil => simpa using hb
    | cons c front => simpa using hfront
  · intro h front back n hsplit hfront hback
    cases front with
    | nil =>
      cases n with
      | zero => exact .inl rfl
      | succ n =>
        rw [List.nil_append, List.replicate_succ, List.cons_append, List.cons.injEq] at hsplit
        exact absurd hsplit.1 hb
    | cons c front =>
      rw [List.cons_append, List.cons.injEq] at hsplit
      refine h front back n hsplit.2 ?_ hback
      cases front with
      | nil => nofun
      | cons d front => simpa using hfront

theorem spared_of_length_le (h : data.length ≤ 2) : Spared data := by
  rintro front back n rfl - -
  rw [List.length_append, List.length_append, List.length_replicate] at h
  exact .inr (.inr (by rw [Nat.mod_eq_of_lt (by omega)]; omega))

theorem spared_marker_iff (hk : 4 ≤ k) (hle : k ≤ 255) (hend : k = 255 ∨ t.head? ≠ some 0xFF) :
    Spared (List.replicate k 0xFF ++ t) ↔ Spared t := by
  have hlast : (List.replicate k (0xFF : UInt8)).getLast? = some 0xFF := by
    rw [List.getLast?_replicate, if_neg (by omega)]
  constructor
  · rintro h front back n rfl hfront hback
    cases front with
    | nil =>
      rcases hend with rfl | hend
      · have hwhole : List.replicate 255 0xFF ++ ([] ++ (List.replicate n 0xFF ++ back)) =
            [] ++ (List.replicate (255 + n) 0xFF ++ back) := by
          rw [List.nil_append, List.nil_append, ← List.append_assoc, List.replicate_add]
        have hspared := h [] back (255 + n) hwhole nofun hback
        rwa [Nat.add_mod_left] at hspared
      · cases n with
        | zero => exact .inl rfl
        | succ n => exact absurd rfl hend
    | cons c front =>
      refine h (List.replicate k 0xFF ++ c :: front) back n ?_ ?_ hback
      · rw [List.append_assoc]
      · rwa [List.getLast?_append_of_ne_nil _ (List.cons_ne_nil c front)]
  · intro h front back n hsplit hfront hback
    rcases List.append_eq_append_iff.mp hsplit with ⟨later, rfl, ht⟩ | ⟨beyond, hrun, hover⟩
    · cases later with
      | nil => exact absurd (by rw [List.append_nil, hlast]) hfront
      | cons c later =>
        rw [List.getLast?_append_of_ne_nil _ (List.cons_ne_nil c later)] at hfront
        exact h _ back n ht hfront hback
    · have hnil : front = [] := by
        by_contra hne
        refine hfront (List.getLast?_eq_some_getLast hne ▸ congrArg some ?_)
        exact List.eq_of_mem_replicate (hrun ▸ List.mem_append_left _ (List.getLast_mem hne))
      subst hnil
      rw [List.nil_append] at hrun
      rw [← hrun] at hover
      obtain ⟨later, hlater, ht⟩ := behind_of_replicate hover.symm (.inr (.inl hback))
      have hrest : later = List.replicate (n - k) 0xFF := by
        rw [← List.drop_replicate, hlater, List.drop_left' List.length_replicate]
      have hlength := congrArg List.length hlater
      rw [List.length_append, List.length_replicate, List.length_replicate] at hlength
      rcases hend with rfl | hend
      · have hspared := h [] back (n - 255) (by rw [ht, hrest, List.nil_append]) nofun hback
        rwa [← Nat.mod_eq_sub_mod (by omega)] at hspared
      · cases later with
        | nil =>
          rw [List.length_nil, Nat.add_zero] at hlength
          omega
        | cons c later =>
          have hc : c = 0xFF := List.eq_of_mem_replicate (hrest ▸ List.mem_cons_self)
          exact absurd (by rw [ht, hc]; rfl) hend

theorem spared_run_iff (hk : 4 ≤ k) (hle : k ≤ 255) (hend : k = 255 ∨ t.head? ≠ some b) :
    Spared (List.replicate k b ++ t) ↔ Spared t := by
  by_cases hb : b = 0xFF
  · subst hb
    exact spared_marker_iff hk hle hend
  · clear hk hle hend
    induction k with
    | zero => rfl
    | succ k ih => rw [List.replicate_succ, List.cons_append, spared_cons_iff hb, ih]

theorem simpleCompress_short (h : data.length ≤ 1) : simpleCompress data = data := by
  match data with
  | [] => rw [simpleCompress]
  | [b] => rw [simpleCompress_cons (by simp), simpleCompress]

theorem two_le_length_simpleCompress (h : 2 ≤ data.length) : 2 ≤ (simpleCompress data).length := by
  match data with
  | b :: c :: data =>
    by_cases hrun : [b, b, b] <+: c :: data
    · obtain ⟨k, t, -, -, -, -, hcompress⟩ := exists_marker hrun
      rw [hcompress]
      exact Nat.le_add_left 2 _
    · rw [simpleCompress_cons hrun]
      by_cases hrun : [c, c, c] <+: data
      · obtain ⟨k, t, -, -, -, -, hcompress⟩ := exists_marker hrun
        rw [hcompress]
        exact Nat.le_add_left 2 _
      · rw [simpleCompress_cons hrun]
        exact Nat.le_add_left 2 _

/-- The marker as a byte of the data, in no run of four, is spared only at the end. -/
theorem not_spared_marker (hrun : ¬ [0xFF, 0xFF, 0xFF] <+: data) (hlength : 2 ≤ data.length) :
    ¬ Spared (0xFF :: data) := by
  obtain ⟨n, t, rfl, ht⟩ := exists_run 0xFF data
  have hn : n < 3 := lt_three_of_not_prefix hrun
  rw [List.length_append, List.length_replicate] at hlength
  intro h
  have hspared := h [] t (n + 1) (by rw [List.replicate_succ]; rfl) nofun ht
  rw [Nat.mod_eq_of_lt (by omega)] at hspared
  omega

/-- Bytes come back from their compressed form exactly when every marker among them is spared. -/
theorem simpleDecompress_simpleCompress_iff (data : List UInt8) :
    simpleDecompress (simpleCompress data) = .ok data ↔ Spared data := by
  have hresult : decompressed (simpleCompress data) = data ↔ Spared data := by
    induction hn : data.length using Nat.strongRecOn generalizing data with
    | ind n ih =>
      cases data with
      | nil =>
        rw [simpleCompress]
        exact iff_of_true rfl (spared_of_length_le (Nat.zero_le 2))
      | cons b data =>
        by_cases hrun : [b, b, b] <+: data
        · obtain ⟨k, t, hk, hle, hend, hsplit, hcompress⟩ := exists_marker hrun
          have hshorter : t.length < n := by
            have := congrArg List.length hsplit
            rw [hn, List.length_append, List.length_replicate] at this
            omega
          rw [hcompress, decompressed_marker, toNat_length hle, hsplit, List.append_cancel_left_eq,
            ih _ hshorter t rfl, spared_run_iff hk hle hend]
        · have hshorter : data.length < n := hn ▸ Nat.lt_succ_self _
          rw [simpleCompress_cons hrun]
          by_cases hb : b = 0xFF
          · subst hb
            by_cases hlength : 2 ≤ data.length
            · refine iff_of_false ?_ (not_spared_marker hrun hlength)
              have hlate : decompressed (0xFF :: simpleCompress data) ≠ [0xFF] ++ data :=
                (late data.length).marker rfl (by decide)
                  (.inr (two_le_length_simpleCompress hlength)) hrun fun _ ↦ .inl rfl
              exact hlate
            · have hlength : (0xFF :: data).length ≤ 2 := Nat.succ_le_of_lt (Nat.not_le.mp hlength)
              rw [simpleCompress_short (Nat.le_of_succ_le_succ hlength), decompressed_short hlength]
              exact iff_of_true rfl (spared_of_length_le hlength)
          · rw [decompressed_literal hb, List.cons.injEq, eq_self_iff_true, true_and,
              ih _ hshorter data rfl, spared_cons_iff hb]
  rw [simpleDecompress, Except.ok.injEq, hresult]

/-- A marker in front of two bytes is taken for the beginning of a run of the second. -/
theorem not_simpleDecompress_simpleCompress :
    ¬ ∀ data : List UInt8, simpleDecompress (simpleCompress data) = .ok data := by
  intro h
  have hend : simpleCompress [2] = [2] := simpleCompress_short (Nat.le_refl 1)
  have hcompress : simpleCompress [0xFF, 1, 2] = [0xFF, 1, 2] := by
    rw [simpleCompress_cons (by decide), simpleCompress_cons (by decide), hend]
  have hback := h [0xFF, 1, 2]
  rw [hcompress, simpleDecompress, decompressed_marker, decompressed] at hback
  exact absurd (Except.ok.inj hback) (by decide)

end Lithair.Serialization.RunLength
