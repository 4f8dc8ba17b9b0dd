import Mathlib.Data.List.Infix

/-!
# Lists cut at a mark

A list cut at the first place where a mark stands (`splitFirst`), and at every such place
(`splitAll`), where the mark is a list itself. Parts that do not have the first item of the mark are
found again when the mark is put between them (`splitAll_intercalate`), and so is the end of a
sequence of such parts, each with the mark behind it, when a second mark follows
(`splitFirst_twice`).
-/

namespace Lithair.Lib.Split

variable {α : Type*} [DecidableEq α]

/-- What is in front of the first mark, and what is behind it if there is one. -/
def splitFirst (mark : List α) : List α → List α × Option (List α)
  | [] => ([], none)
  | a :: rest =>
    if mark <+: a :: rest then ([], some ((a :: rest).drop mark.length))
    else
      match splitFirst mark rest with
      | (front, behind) => (a :: front, behind)

/-- The parts between the marks. There are at most `fuel` marks. -/
def splitAllFrom (mark : List α) : ℕ → List α → List (List α)
  | 0, items => [items]
  | fuel + 1, items =>
    match splitFirst mark items with
    | (front, none) => [front]
    | (front, some behind) => front :: splitAllFrom mark fuel behind

/-- The parts between the marks. -/
def splitAll (mark items : List α) : List (List α) := splitAllFrom mark items.length items

/-- Items, each of which is followed by the mark. -/
def endEach (mark : List α) (parts : List (List α)) : List α := parts.flatMap (· ++ mark)

variable {a : α} {mark front rest : List α}

theorem splitFirst_mark (hmark : mark ≠ []) (rest : List α) :
    splitFirst mark (mark ++ rest) = ([], some rest) := by
  obtain ⟨a, tail, rfl⟩ := List.exists_cons_of_ne_nil hmark
  rw [List.cons_append, splitFirst, ← List.cons_append, if_pos (List.prefix_append _ _),
    List.drop_left]

theorem splitFirst_cons (h : ¬ mark <+: a :: rest) :
    splitFirst mark (a :: rest) = (a :: (splitFirst mark rest).1, (splitFirst mark rest).2) :=
  if_neg h

/-- The mark does not start before its first item. -/
theorem splitFirst_append (h : a ∉ front) (items : List α) :
    splitFirst (a :: mark) (front ++ items) =
      (front ++ (splitFirst (a :: mark) items).1, (splitFirst (a :: mark) items).2) := by
  induction front with
  | nil => rfl
  | cons b front ih =>
    have hnot : ¬ a :: mark <+: b :: (front ++ items) := by
      intro hprefix
      exact List.ne_of_not_mem_cons h (List.cons_prefix_cons.mp hprefix).1
    rw [List.cons_append, splitFirst_cons hnot, ih (List.not_mem_of_not_mem_cons h)]
    rfl

/-- The part in front of a mark. -/
theorem splitFirst_append_mark (h : a ∉ front) (rest : List α) :
    splitFirst (a :: mark) (front ++ (a :: mark ++ rest)) = (front, some rest) := by
  rw [splitFirst_append h, splitFirst_mark (List.cons_ne_nil a mark), List.append_nil]

theorem splitFirst_of_not_mem (h : a ∉ front) : splitFirst (a :: mark) front = (front, none) := by
  have happend : splitFirst (a :: mark) (front ++ []) = (front ++ [], none) :=
    splitFirst_append h []
  rwa [List.append_nil] at happend

/-- Parts with the mark between them are found again. -/
theorem splitAllFrom_intercalate {parts : List (List α)} (hparts : parts ≠ [])
    (h : ∀ part ∈ parts, a ∉ part) {fuel : ℕ} (hfuel : parts.length ≤ fuel + 1) :
    splitAllFrom (a :: mark) fuel ((a :: mark).intercalate parts) = parts := by
  induction parts generalizing fuel with
  | nil => exact absurd rfl hparts
  | cons part parts ih =>
    have hpart := h part List.mem_cons_self
    cases parts with
    | nil =>
      rw [List.intercalate_singleton]
      cases fuel with
      | zero => rfl
      | succ fuel => rw [splitAllFrom, splitFirst_of_not_mem hpart]
    | cons second parts =>
      rw [List.length_cons, List.length_cons] at hfuel
      obtain ⟨fuel, rfl⟩ : ∃ m, fuel = m + 1 := ⟨fuel - 1, by omega⟩
      rw [List.intercalate_cons_cons, List.append_assoc, splitAllFrom,
        splitFirst_append_mark hpart]
      have hfewer : (second :: parts).length ≤ fuel + 1 := by
        rw [List.length_cons]
        omega
      have hrest := ih (List.cons_ne_nil second parts)
        (fun other hother ↦ h other (List.mem_cons_of_mem part hother)) hfewer
      simp only [hrest]

omit [DecidableEq α] in
theorem length_le_length_intercalate (hmark : mark ≠ []) (parts : List (List α)) :
    parts.length ≤ (mark.intercalate parts).length + 1 := by
  have hpos := List.length_pos_iff.mpr hmark
  induction parts with
  | nil => exact Nat.zero_le _
  | cons part parts ih =>
    cases parts with
    | nil => exact Nat.succ_le_succ (Nat.zero_le _)
    | cons second parts =>
      rw [List.intercalate_cons_cons, List.length_append, List.length_append, List.length_cons]
      omega

theorem splitAll_intercalate {parts : List (List α)} (hparts : parts ≠ [])
    (h : ∀ part ∈ parts, a ∉ part) :
    splitAll (a :: mark) ((a :: mark).intercalate parts) = parts :=
  splitAllFrom_intercalate hparts h (length_le_length_intercalate (List.cons_ne_nil a mark) parts)

/-- The end of parts that each have the mark behind them is where two marks follow each other. -/
theorem splitFirst_twice {b : α} (hab : a ≠ b) {parts : List (List α)} (hparts : parts ≠ [])
    (h : ∀ part ∈ parts, part ≠ [] ∧ a ∉ part) (rest : List α) :
    splitFirst [a, b, a, b] (endEach [a, b] parts ++ ([a, b] ++ rest)) =
      ([a, b].intercalate parts, some rest) := by
  induction parts with
  | nil => exact absurd rfl hparts
  | cons part parts ih =>
    obtain ⟨hne, hpart⟩ := h part List.mem_cons_self
    cases parts with
    | nil =>
      have hlast : endEach [a, b] [part] ++ ([a, b] ++ rest) = part ++ ([a, b, a, b] ++ rest) := by
        simp [endEach]
      rw [hlast, splitFirst_append_mark hpart, List.intercalate_singleton]
    | cons second parts =>
      obtain ⟨hsecondNe, hsecond⟩ := h second (List.mem_cons_of_mem part List.mem_cons_self)
      obtain ⟨c, tail, rfl⟩ := List.exists_cons_of_ne_nil hsecondNe
      have hrest := ih (List.cons_ne_nil (c :: tail) parts)
        fun other hother ↦ h other (List.mem_cons_of_mem part hother)
      have hca : a ≠ c := fun heq ↦ hsecond (heq ▸ List.mem_cons_self)
      -- behind the mark of the first part comes the first item of the second, no second mark
      obtain ⟨more, hmore⟩ : ∃ more,
          endEach [a, b] ((c :: tail) :: parts) ++ ([a, b] ++ rest) = c :: more := ⟨_, rfl⟩
      have hsplit : endEach [a, b] (part :: (c :: tail) :: parts) ++ ([a, b] ++ rest) =
          part ++ a :: b :: c :: more := by
        rw [← hmore]
        simp [endEach]
      have hfirst : ¬ [a, b, a, b] <+: a :: b :: c :: more := by
        simp [List.cons_prefix_cons, hca]
      have hnext : ¬ [a, b, a, b] <+: b :: c :: more := by
        simp [List.cons_prefix_cons, hab]
      rw [hmore] at hrest
      rw [hsplit, splitFirst_append hpart, splitFirst_cons hfirst, splitFirst_cons hnext, hrest,
        List.intercalate_cons_cons]
      simp

end Lithair.Lib.Split
