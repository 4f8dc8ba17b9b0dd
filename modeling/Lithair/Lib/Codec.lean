import Lithair.Lib.Framing
import Lithair.Lib.Utf8

/-!
# Values as bytes, one behind the other

A codec writes a value so that a reader takes it off the bytes without being told where it ends.
What is read does not depend on the bytes behind it (`read_append`), so that nothing is read from a
part of what was written (`decode_eq_none_of_part`): a reader notices when a writer has left out the
last value.

A small number is one byte, and another one stands behind a mark; a text stands behind its length,
and a value that may be missing behind a byte that says whether it is there.
-/

namespace Lithair.Lib

open Lithair.Lib.Framing Lithair.Lib.Utf8

structure Codec (α : Type*) where
  write : α → List UInt8
  read : List UInt8 → Option (α × List UInt8)
  read_write : ∀ a rest, read (write a ++ rest) = some (a, rest)
  read_append : ∀ {bytes a rest}, read bytes = some (a, rest) →
    ∀ more, read (bytes ++ more) = some (a, rest ++ more)

namespace Codec

variable {α β : Type*}

/-- The value in front of the bytes. -/
def decode (c : Codec α) (bytes : List UInt8) : Option α := (c.read bytes).map Prod.fst

theorem read_eq (c : Codec α) (a : α) : c.read (c.write a) = some (a, []) := by
  have hread := c.read_write a []
  rwa [List.append_nil] at hread

theorem decode_write (c : Codec α) (a : α) : c.decode (c.write a) = some a := by
  rw [decode, c.read_eq]
  rfl

theorem decode_eq_none_of_part (c : Codec α) {a : α} {front more : List UInt8}
    (h : c.write a = front ++ more) (hmore : more ≠ []) : c.decode front = none := by
  rw [decode, Option.map_eq_none_iff]
  cases hread : c.read front with
  | none => rfl
  | some found =>
    have hwhole := c.read_eq a
    rw [h, c.read_append hread more] at hwhole
    have hrest : found.2 ++ more = [] := congrArg Prod.snd (Option.some.inj hwhole)
    exact absurd (List.append_eq_nil_iff.mp hrest).2 hmore

/-- Where there are two values, each takes bytes. -/
theorem write_ne_nil (c : Codec α) {a b : α} (h : a ≠ b) : c.write a ≠ [] := by
  intro hnil
  have hempty := c.read_eq a
  rw [hnil] at hempty
  have hboth := c.read_append hempty (c.write b)
  rw [List.nil_append, c.read_eq] at hboth
  exact h (congrArg Prod.fst (Option.some.inj hboth)).symm

/-- One value behind the other. -/
def andThen (first : Codec α) (second : Codec β) : Codec (α × β) where
  write p := first.write p.1 ++ second.write p.2
  read bytes := (first.read bytes).bind fun (a, rest) ↦
    (second.read rest).map fun (b, rest) ↦ ((a, b), rest)
  read_write := by
    intro p rest
    rw [List.append_assoc, first.read_write, Option.bind_some]
    dsimp only
    rw [second.read_write]
    rfl
  read_append := by
    intro bytes p rest h more
    obtain ⟨⟨a, behind⟩, hfirst, hmap⟩ := Option.bind_eq_some_iff.mp h
    obtain ⟨⟨b, behind'⟩, hsecond, hpair⟩ := Option.map_eq_some_iff.mp hmap
    obtain ⟨rfl, rfl⟩ := Prod.mk.inj hpair
    rw [first.read_append hfirst, Option.bind_some]
    dsimp only
    rw [second.read_append hsecond]
    rfl

/-- The same bytes for another type. -/
def map (c : Codec α) (f : α → β) (g : β → α) (h : ∀ b, f (g b) = b) : Codec β where
  write b := c.write (g b)
  read bytes := (c.read bytes).map fun (a, rest) ↦ (f a, rest)
  read_write := by
    intro b rest
    rw [c.read_write, Option.map_some]
    dsimp only
    rw [h]
  read_append := by
    intro bytes b rest hread more
    obtain ⟨⟨a, behind⟩, hfirst, hpair⟩ := Option.map_eq_some_iff.mp hread
    obtain ⟨rfl, rfl⟩ := Prod.mk.inj hpair
    rw [c.read_append hfirst]
    rfl

/-- A value that may be missing. -/
def optional (c : Codec α) : Codec (Option α) where
  write
    | none => [0]
    | some a => 1 :: c.write a
  read
    | [] => none
    | tag :: rest =>
      if tag = 0 then some (none, rest)
      else if tag = 1 then (c.read rest).map fun (a, rest) ↦ (some a, rest)
      else none
  read_write := by
    intro o rest
    cases o with
    | none => rfl
    | some a =>
      have hread := c.read_write a rest
      simp [hread]
  read_append := by
    intro bytes o rest h more
    cases bytes with
    | nil => exact absurd h (Option.some_ne_none _).symm
    | cons tag bytes =>
      simp only [List.cons_append] at h ⊢
      split_ifs at h ⊢
      · obtain ⟨rfl, rfl⟩ := Prod.mk.inj (Option.some.inj h)
        rfl
      · obtain ⟨⟨a, behind⟩, hread, hpair⟩ := Option.map_eq_some_iff.mp h
        obtain ⟨rfl, rfl⟩ := Prod.mk.inj hpair
        rw [c.read_append hread]
        rfl

/-! ### Numbers and texts -/

theorem readExact_read_append {n : ℕ} {bytes data rest : List UInt8}
    (h : readExact n bytes = some (data, rest)) (more : List UInt8) :
    readExact n (bytes ++ more) = some (data, rest ++ more) := by
  obtain ⟨hlength, rfl⟩ := append_of_readExact h
  rw [List.append_assoc, readExact_append hlength]

/-- The bytes behind the mark of a number. -/
def numberWidth (mark : UInt8) : ℕ := if mark = 251 then 2 else if mark = 252 then 4 else 8

/-- A number as so many ones. -/
def readOnes : List UInt8 → Option (ℕ × List UInt8)
  | [] => none
  | b :: rest =>
    if b = 1 then (readOnes rest).map fun (n, rest) ↦ (n + 1, rest) else some (0, rest)

theorem readOnes_replicate (n : ℕ) (rest : List UInt8) :
    readOnes (List.replicate n 1 ++ 0 :: rest) = some (n, rest) := by
  induction n with
  | zero => rfl
  | succ n ih =>
    rw [List.replicate_succ, List.cons_append, readOnes, if_pos rfl, ih]
    rfl

theorem readOnes_append {n : ℕ} {bytes rest : List UInt8} (h : readOnes bytes = some (n, rest))
    (more : List UInt8) : readOnes (bytes ++ more) = some (n, rest ++ more) := by
  induction bytes generalizing n with
  | nil => exact absurd h (Option.some_ne_none _).symm
  | cons b bytes ih =>
    rw [List.cons_append, readOnes]
    rw [readOnes] at h
    split_ifs at h ⊢
    · obtain ⟨⟨m, behind⟩, hread, hpair⟩ := Option.map_eq_some_iff.mp h
      obtain ⟨rfl, rfl⟩ := Prod.mk.inj hpair
      rw [ih hread]
      rfl
    · obtain ⟨rfl, rfl⟩ := Prod.mk.inj (Option.some.inj h)
      rfl

/-- A number below 251 is one byte; another one has two, four or eight bytes behind its mark. One
of more than 64 bits, for which the format has no place, is written in ones. -/
def writeNumber (n : ℕ) : List UInt8 :=
  if n < 251 then [UInt8.ofNat n]
  else if n < 2 ^ 16 then 251 :: leBytes 2 n
  else if n < 2 ^ 32 then 252 :: leBytes 4 n
  else if n < 2 ^ 64 then 253 :: leBytes 8 n
  else 255 :: (List.replicate n 1 ++ [0])

def readNumber : List UInt8 → Option (ℕ × List UInt8)
  | [] => none
  | mark :: rest =>
    if mark.toNat < 251 then some (mark.toNat, rest)
    else if mark = 255 then readOnes rest
    else if mark = 254 then none
    else (readExact (numberWidth mark) rest).map fun (bytes, rest) ↦ (ofLeBytes bytes, rest)

theorem readNumber_write (n : ℕ) (rest : List UInt8) :
    readNumber (writeNumber n ++ rest) = some (n, rest) := by
  have hbytes : ∀ (mark : UInt8) (width : ℕ), numberWidth mark = width → ¬ mark.toNat < 251 →
      mark ≠ 255 → mark ≠ 254 → n < 256 ^ width →
        readNumber (mark :: leBytes width n ++ rest) = some (n, rest) := by
    intro mark width hwidth hlarge hones hnever hn
    rw [List.cons_append, readNumber, if_neg hlarge, if_neg hones, if_neg hnever, hwidth,
      readExact_append (length_leBytes width n), Option.map_some]
    dsimp only
    rw [ofLeBytes_leBytes hn]
  unfold writeNumber
  split_ifs with hone htwo hfour height
  · have hbyte : (UInt8.ofNat n).toNat = n := UInt8.toNat_ofNat_of_lt' (show n < 256 by omega)
    rw [List.singleton_append, readNumber, hbyte, if_pos hone]
  · exact hbytes 251 2 rfl (by decide) (by decide) (by decide) htwo
  · exact hbytes 252 4 rfl (by decide) (by decide) (by decide) hfour
  · exact hbytes 253 8 rfl (by decide) (by decide) (by decide) height
  · rw [List.cons_append, List.append_assoc, readNumber, if_neg (by decide), if_pos rfl]
    exact readOnes_replicate n rest

def number : Codec ℕ where
  write := writeNumber
  read := readNumber
  read_write := readNumber_write
  read_append := by
    intro bytes n rest h more
    cases bytes with
    | nil => exact absurd h (Option.some_ne_none _).symm
    | cons mark bytes =>
      rw [List.cons_append, readNumber]
      rw [readNumber] at h
      split_ifs at h ⊢
      · obtain ⟨rfl, rfl⟩ := Prod.mk.inj (Option.some.inj h)
        rfl
      · exact readOnes_append h more
      · obtain ⟨⟨data, behind⟩, hread, hpair⟩ := Option.map_eq_some_iff.mp h
        obtain ⟨rfl, rfl⟩ := Prod.mk.inj hpair
        rw [readExact_read_append hread]
        rfl

/-- A text behind the number of its bytes. -/
def text : Codec String where
  write s := writeNumber (utf8 s.toList).length ++ utf8 s.toList
  read bytes := (readNumber bytes).bind fun (n, rest) ↦
    (readExact n rest).bind fun (data, rest) ↦
      (fromUtf8 data).map fun chars ↦ (String.ofList chars, rest)
  read_write := by
    intro s rest
    rw [List.append_assoc, readNumber_write, Option.bind_some]
    dsimp only
    rw [readExact_append rfl, Option.bind_some]
    dsimp only
    rw [fromUtf8_utf8, Option.map_some, String.ofList_toList]
  read_append := by
    intro bytes s rest h more
    obtain ⟨⟨n, behind⟩, hnumber, hbind⟩ := Option.bind_eq_some_iff.mp h
    obtain ⟨⟨data, behind'⟩, hdata, hmap⟩ := Option.bind_eq_some_iff.mp hbind
    obtain ⟨chars, hchars, hpair⟩ := Option.map_eq_some_iff.mp hmap
    obtain ⟨rfl, rfl⟩ := Prod.mk.inj hpair
    have hnumber' : readNumber (bytes ++ more) = some (n, behind ++ more) :=
      number.read_append hnumber more
    rw [hnumber', Option.bind_some]
    dsimp only at hdata ⊢
    rw [readExact_read_append hdata, Option.bind_some]
    dsimp only at hchars ⊢
    rw [hchars]
    rfl

end Codec

end Lithair.Lib
