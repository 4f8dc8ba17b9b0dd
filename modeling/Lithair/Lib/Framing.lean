import Mathlib.Data.List.Basic
import Mathlib.Tactic.IntervalCases
import Mathlib.Tactic.Ring

/-!
# Framed records in a byte file

Numbers as little-endian bytes, and records that carry their length and a checksum in front. A
reader takes one record off the bytes (`readFrame`) and tells the end of the file, a record that is
cut off, and one whose checksum does not match from a record; what was framed is read back, with
the bytes behind it (`readFrame_frame_append`). Fields with a mark between them are told apart at a
mark that the field before it, or the one behind it, does not have, and a block of known length by
the number of marks in front of it and behind it (`split_block`).
-/

namespace Lithair.Lib.Framing

/-- The lowest `width` bytes of a number, lowest first. -/
def leBytes : ℕ → ℕ → List UInt8
  | 0, _ => []
  | width + 1, n => UInt8.ofNat (n % 256) :: leBytes width (n / 256)

/-- The number that little-endian bytes stand for. -/
def ofLeBytes : List UInt8 → ℕ
  | [] => 0
  | b :: rest => b.toNat + 256 * ofLeBytes rest

@[simp] theorem length_leBytes (width n : ℕ) : (leBytes width n).length = width := by
  induction width generalizing n with
  | zero => rfl
  | succ width ih => rw [leBytes, List.length_cons, ih]

/-- A number that fits into the bytes is read back. -/
theorem ofLeBytes_leBytes {width n : ℕ} (h : n < 256 ^ width) :
    ofLeBytes (leBytes width n) = n := by
  induction width generalizing n with
  | zero =>
    rw [pow_zero] at h
    rw [leBytes, ofLeBytes]
    omega
  | succ width ih =>
    have hdiv : n / 256 < 256 ^ width := by
      rw [Nat.div_lt_iff_lt_mul (by decide)]
      rwa [pow_succ] at h
    have hbyte : (UInt8.ofNat (n % 256)).toNat = n % 256 := by
      rw [UInt8.toNat_ofNat']
      omega
    rw [leBytes, ofLeBytes, ih hdiv, hbyte]
    omega

/-- The first bytes of a number stand for its remainder. -/
theorem ofLeBytes_leBytes_mod (width n : ℕ) : ofLeBytes (leBytes width n) = n % 256 ^ width := by
  induction width generalizing n with
  | zero => rw [pow_zero, Nat.mod_one, leBytes, ofLeBytes]
  | succ width ih =>
    have hbyte : (UInt8.ofNat (n % 256)).toNat = n % 256 := by
      rw [UInt8.toNat_ofNat']
      omega
    rw [leBytes, ofLeBytes, ih, hbyte, pow_succ', Nat.mod_mul]

/-- Bytes are those of the number that they stand for. -/
theorem leBytes_ofLeBytes (bytes : List UInt8) :
    leBytes bytes.length (ofLeBytes bytes) = bytes := by
  induction bytes with
  | nil => rfl
  | cons b rest ih =>
    have hbyte := b.toNat_lt
    have hlow : (b.toNat + 256 * ofLeBytes rest) % 256 = b.toNat := by omega
    have hhigh : (b.toNat + 256 * ofLeBytes rest) / 256 = ofLeBytes rest := by omega
    rw [List.length_cons, ofLeBytes, leBytes, hlow, hhigh, ih, UInt8.ofNat_toNat]

theorem take_leBytes {k width : ℕ} (h : k ≤ width) (n : ℕ) :
    (leBytes width n).take k = leBytes k n := by
  induction k generalizing width n with
  | zero => rfl
  | succ k ih =>
    obtain ⟨width, rfl⟩ : ∃ m, width = m + 1 := ⟨width - 1, by omega⟩
    rw [leBytes, List.take_succ_cons, ih (by omega), leBytes]

theorem ofLeBytes_append (first second : List UInt8) :
    ofLeBytes (first ++ second) = ofLeBytes first + 256 ^ first.length * ofLeBytes second := by
  induction first with
  | nil => rw [List.nil_append, List.length_nil, pow_zero, one_mul, ofLeBytes, zero_add]
  | cons b rest ih =>
    rw [List.cons_append, ofLeBytes, ofLeBytes, ih, List.length_cons, pow_succ']
    ring

/-! ### Fields with a mark between them -/

section Marks

variable {α : Type*} {mark : α} {first first' rest rest' : List α}

theorem split_firstMark (h : mark ∉ first) (h' : mark ∉ first')
    (heq : first ++ mark :: rest = first' ++ mark :: rest') : first = first' ∧ rest = rest' := by
  induction first generalizing first' with
  | nil =>
    cases first' with
    | nil => exact ⟨rfl, (List.cons.inj heq).2⟩
    | cons b first' => exact absurd (List.cons.inj heq).1 (List.ne_of_not_mem_cons h')
  | cons a first ih =>
    cases first' with
    | nil => exact absurd (List.cons.inj heq).1.symm (List.ne_of_not_mem_cons h)
    | cons b first' =>
      obtain ⟨hab, htail⟩ := List.cons.inj heq
      obtain ⟨hfirst, hrest⟩ :=
        ih (List.not_mem_of_not_mem_cons h) (List.not_mem_of_not_mem_cons h') htail
      exact ⟨by rw [hab, hfirst], hrest⟩

theorem split_lastMark (h : mark ∉ rest) (h' : mark ∉ rest')
    (heq : first ++ mark :: rest = first' ++ mark :: rest') : first = first' ∧ rest = rest' := by
  have hreverse :
      rest.reverse ++ mark :: first.reverse = rest'.reverse ++ mark :: first'.reverse := by
    simpa using congrArg List.reverse heq
  obtain ⟨hrest, hfirst⟩ := split_firstMark (by simpa using h) (by simpa using h') hreverse
  exact ⟨List.reverse_injective hfirst, List.reverse_injective hrest⟩

/-- A block between two fields, when in one reading neither the field in front of it nor the one
behind it has more marks than in the other. -/
theorem split_block [DecidableEq α] {block block' : List α} (hblock : block.length = block'.length)
    (hfirst : first.count mark ≤ first'.count mark) (hrest : rest.count mark ≤ rest'.count mark)
    (h : first ++ mark :: (block ++ mark :: rest) = first' ++ mark :: (block' ++ mark :: rest')) :
    first = first' ∧ block = block' ∧ rest = rest' := by
  have htotal := congrArg List.length h
  simp only [List.length_append, List.length_cons] at htotal
  have hlength : first.length = first'.length := by
    rcases Nat.lt_trichotomy first'.length first.length with hlt | heq | hgt
    · -- The mark behind the shorter field is in the longer one.
      have hfront : first' ++ [mark] <+: first ++ mark :: (block ++ mark :: rest) := by
        rw [h]
        exact ⟨block' ++ mark :: rest', by simp⟩
      obtain ⟨more, hmore⟩ := List.prefix_of_prefix_length_le hfront (List.prefix_append _ _)
        (by rw [List.length_append]; exact hlt)
      have hcount := congrArg (List.count mark) hmore
      simp only [List.count_append, List.count_singleton_self] at hcount
      omega
    · exact heq.symm
    · have hback : mark :: rest' <:+ first ++ mark :: (block ++ mark :: rest) := by
        rw [h]
        exact ⟨first' ++ mark :: block', by simp⟩
      have hwhole : rest <:+ first ++ mark :: (block ++ mark :: rest) :=
        ⟨first ++ mark :: (block ++ [mark]), by simp⟩
      obtain ⟨more, hmore⟩ := List.suffix_of_suffix_length_le hback hwhole
        (by rw [List.length_cons]; omega)
      have hcount := congrArg (List.count mark) hmore
      simp only [List.count_append, List.count_cons_self] at hcount
      omega
  obtain ⟨hfirst, htail⟩ := List.append_inj h hlength
  obtain ⟨hblock, htail⟩ := List.append_inj (List.cons.inj htail).2 hblock
  exact ⟨hfirst, hblock, (List.cons.inj htail).2⟩

end Marks

/-! ### Reading -/

/-- The first `n` bytes and the bytes behind them, unless there are fewer than `n`. -/
def readExact (n : ℕ) (bytes : List UInt8) : Option (List UInt8 × List UInt8) :=
  if n ≤ bytes.length then some (bytes.take n, bytes.drop n) else none

theorem readExact_append {n : ℕ} {data : List UInt8} (h : data.length = n) (rest : List UInt8) :
    readExact n (data ++ rest) = some (data, rest) := by
  subst h
  simp [readExact]

theorem append_of_readExact {n : ℕ} {bytes data rest : List UInt8}
    (h : readExact n bytes = some (data, rest)) : data.length = n ∧ bytes = data ++ rest := by
  unfold readExact at h
  split_ifs at h with hle
  obtain ⟨rfl, rfl⟩ := Prod.mk.inj (Option.some.inj h)
  exact ⟨List.length_take_of_le hle, (List.take_append_drop n bytes).symm⟩

theorem readExact_append_of_eq_some {n : ℕ} {bytes data rest : List UInt8}
    (h : readExact n bytes = some (data, rest)) (more : List UInt8) :
    readExact n (bytes ++ more) = some (data, rest ++ more) := by
  obtain ⟨hlength, rfl⟩ := append_of_readExact h
  rw [List.append_assoc, readExact_append hlength]

theorem length_of_readExact {n : ℕ} {bytes data rest : List UInt8}
    (h : readExact n bytes = some (data, rest)) : bytes.length = n + rest.length := by
  unfold readExact at h
  split_ifs at h with hle
  rw [Option.some.injEq, Prod.mk.injEq] at h
  rw [← h.2, List.length_drop]
  omega

/-! ### Records -/

/-- The FNV-1a hash, a checksum for records. -/
def fnv1aHash (data : List UInt8) : UInt64 :=
  data.foldl (fun hash byte ↦ (hash ^^^ byte.toUInt64) * 0x100000001b3) 0xcbf29ce484222325

variable (checksum : List UInt8 → UInt64)

/-- A record: the length of the data, its checksum, and the data. -/
def frame (data : List UInt8) : List UInt8 :=
  leBytes 8 data.length ++ (leBytes 8 (checksum data).toNat ++ data)

/-- What a reader finds: no further record, one that is cut off, one with a wrong checksum, or the
data of a record and the bytes behind it. -/
inductive FrameRead
  | done
  | truncated
  | corrupt
  | frame (data rest : List UInt8)
  deriving DecidableEq

/-- Read one record. A rest that is too short for a length field counts as the end. -/
def readFrame (bytes : List UInt8) : FrameRead :=
  match readExact 8 bytes with
  | none => .done
  | some (len, rest) =>
    match readExact 8 rest with
    | none => .truncated
    | some (stored, rest) =>
      match readExact (ofLeBytes len) rest with
      | none => .truncated
      | some (data, rest) =>
        if ofLeBytes stored = (checksum data).toNat then .frame data rest else .corrupt

@[simp] theorem length_frame (data : List UInt8) :
    (frame checksum data).length = 16 + data.length := by
  unfold frame
  rw [List.length_append, List.length_append, length_leBytes, length_leBytes]
  omega

/-- What was framed is read back. -/
theorem readFrame_frame_append {data : List UInt8} (h : data.length < 2 ^ 64)
    (rest : List UInt8) : readFrame checksum (frame checksum data ++ rest) = .frame data rest := by
  have hlen : ofLeBytes (leBytes 8 data.length) = data.length := ofLeBytes_leBytes h
  have hsum : ofLeBytes (leBytes 8 (checksum data).toNat) = (checksum data).toNat :=
    ofLeBytes_leBytes (checksum data).toNat_lt
  unfold readFrame frame
  rw [List.append_assoc, List.append_assoc, readExact_append (length_leBytes 8 _)]
  simp only [readExact_append (length_leBytes 8 _), hlen, readExact_append rfl, hsum, if_true]

theorem readExact_eq_none {n : ℕ} {bytes : List UInt8} (h : bytes.length < n) :
    readExact n bytes = none := if_neg (Nat.not_le.mpr h)

/-- A length field with fewer bytes behind it than the checksum and the data take. -/
theorem readFrame_eq_truncated {len rest : List UInt8} (hlen : len.length = 8)
    (hrest : rest.length < 8 + ofLeBytes len) :
    readFrame checksum (len ++ rest) = .truncated := by
  unfold readFrame
  rw [readExact_append hlen]
  by_cases hsum : rest.length < 8
  · simp only [readExact_eq_none hsum]
  · have hstored : readExact 8 rest = some (rest.take 8, rest.drop 8) := if_pos (by omega)
    have hdata : readExact (ofLeBytes len) (rest.drop 8) = none := by
      refine readExact_eq_none ?_
      rw [List.length_drop]
      omega
    simp only [hstored, hdata]

/-- A record that is cut off behind its length field. -/
theorem readFrame_take_frame {data : List UInt8} (hdata : data.length < 2 ^ 64) {n : ℕ}
    (hlow : 8 ≤ n) (hhigh : n < 16 + data.length) :
    readFrame checksum ((frame checksum data).take n) = .truncated := by
  have hlen : ofLeBytes (leBytes 8 data.length) = data.length := ofLeBytes_leBytes hdata
  unfold frame
  rw [List.take_append, length_leBytes, List.take_of_length_le (by rw [length_leBytes]; exact hlow)]
  refine readFrame_eq_truncated checksum (length_leBytes 8 _) ?_
  rw [hlen, List.length_take]
  omega

/-- A record behind a few bytes of another one's length field: the two length fields together ask
for more bytes than there are, unless the lowest byte of the length is zero. -/
theorem readFrame_take_frame_append {data other : List UInt8} {n : ℕ} (hlow : 0 < n) (hhigh : n < 8)
    (hother : other.length < 2 ^ 32) (hbyte : other.length % 256 ≠ 0) :
    readFrame checksum ((frame checksum data).take n ++ frame checksum other) = .truncated := by
  have htorn : (frame checksum data).take n = leBytes n data.length := by
    unfold frame
    rw [List.take_append, length_leBytes, Nat.sub_eq_zero_of_le hhigh.le, List.take_zero,
      List.append_nil, take_leBytes hhigh.le]
  have hsplit : leBytes 8 other.length =
      leBytes (8 - n) other.length ++ (leBytes 8 other.length).drop (8 - n) := by
    rw [← take_leBytes (Nat.sub_le 8 n), List.take_append_drop]
  have hlength : (leBytes n data.length ++ leBytes (8 - n) other.length).length = 8 := by
    rw [List.length_append, length_leBytes, length_leBytes]
    omega
  unfold frame at htorn ⊢
  rw [htorn, hsplit, List.append_assoc, ← List.append_assoc (leBytes n data.length)]
  refine readFrame_eq_truncated checksum hlength ?_
  rw [ofLeBytes_append, length_leBytes, ofLeBytes_leBytes_mod, ofLeBytes_leBytes_mod,
    List.length_append, List.length_append, List.length_drop, length_leBytes, length_leBytes]
  interval_cases n <;> omega

/-- A record that is read, or found damaged, is so in front of other bytes too. -/
theorem readFrame_append {bytes : List UInt8}
    (hdone : readFrame checksum bytes ≠ .done) (hcut : readFrame checksum bytes ≠ .truncated)
    (more : List UInt8) :
    readFrame checksum (bytes ++ more) =
      match readFrame checksum bytes with
      | .frame data rest => .frame data (rest ++ more)
      | read => read := by
  unfold readFrame at hdone hcut ⊢
  cases hlen : readExact 8 bytes with
  | none => simp [hlen] at hdone
  | some first =>
    obtain ⟨len, rest⟩ := first
    rw [readExact_append_of_eq_some hlen]
    cases hsum : readExact 8 rest with
    | none => simp [hlen, hsum] at hcut
    | some second =>
      obtain ⟨stored, rest⟩ := second
      cases hdata : readExact (ofLeBytes len) rest with
      | none => simp [hlen, hsum, hdata] at hcut
      | some third =>
        obtain ⟨data, rest⟩ := third
        simp only [readExact_append_of_eq_some hsum, readExact_append_of_eq_some hdata, hsum, hdata]
        split_ifs
        · rfl
        · rfl

/-- Reading a record leaves fewer bytes. -/
theorem length_of_readFrame {bytes data rest : List UInt8}
    (h : readFrame checksum bytes = .frame data rest) : rest.length < bytes.length := by
  unfold readFrame at h
  split at h
  · exact absurd h (by simp)
  · next hlen =>
    split at h
    · exact absurd h (by simp)
    · next hsum =>
      split at h
      · exact absurd h (by simp)
      · next hdata =>
        split_ifs at h
        obtain ⟨-, rfl⟩ := FrameRead.frame.inj h
        have hlenLength := length_of_readExact hlen
        have hsumLength := length_of_readExact hsum
        have hdataLength := length_of_readExact hdata
        omega

end Lithair.Lib.Framing
