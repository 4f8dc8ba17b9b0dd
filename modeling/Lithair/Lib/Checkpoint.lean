import Mathlib.Data.List.TakeDrop
import Mathlib.Order.Nat

/-!
# A checkpoint of a log

The state of a log is the fold of its events. A checkpoint keeps the state after the events that it
covers, with the number of events to skip when the log is read behind it, which is taken from a
counter of the writer. A `Progress` has these numbers and whether the log is read at all; `replayed`
has the events that a recovery applies.

`replayed_eq_iff` says when these are the events of the log (`Whole`), and `whole_after_iff` which
moves of the writer keep that (`Meets`): an event, a checkpoint, and a restart, which begins to
count anew and after which the log may not be read until the next event.
-/

namespace Lithair.Lib.Checkpoint

/-- How many events a log has, how many of them the writer has counted, how many of them are skipped
behind the checkpoint and how many are in its state. -/
structure Progress where
  total : ℕ
  counted : ℕ
  skip : ℕ
  covered : ℕ
  readable : Bool
  counted_le : counted ≤ total
  skip_le : skip ≤ covered
  covered_le : covered ≤ total

inductive Move
  | append
  | save
  | restart (stays : Bool)
  deriving DecidableEq

namespace Progress

variable {α β : Type*}

/-- No event and no checkpoint. -/
def start (readable : Bool) : Progress :=
  ⟨0, 0, 0, 0, readable, le_rfl, le_rfl, le_rfl⟩

def after (p : Progress) : Move → Progress
  | .append =>
    { p with
      total := p.total + 1
      counted := p.counted + 1
      readable := true
      counted_le := Nat.succ_le_succ p.counted_le
      covered_le := p.covered_le.trans (Nat.le_succ _) }
  | .save =>
    { p with
      skip := p.counted
      covered := p.total
      skip_le := p.counted_le
      covered_le := le_rfl }
  | .restart stays =>
    { p with
      counted := 0
      readable := p.readable && stays
      counted_le := Nat.zero_le _ }

/-- What becomes of a log that a move may be about. -/
def follow (p : Progress) : Option Move → Progress
  | none => p
  | some move => p.after move

/-- The events in the state of the checkpoint, and those that are read behind it. -/
def replayed (p : Progress) (log : List α) : List α :=
  log.take p.covered ++ if p.readable then log.drop p.skip else []

/-- The recovery applies each event once. -/
def Whole (p : Progress) : Prop :=
  if p.readable then p.skip = p.covered else p.covered = p.total

instance (p : Progress) : Decidable p.Whole :=
  inferInstanceAs (Decidable (if p.readable then p.skip = p.covered else p.covered = p.total))

/-- An event that lets the log be read needs a checkpoint that skips the others, a checkpoint of a
log that is read a writer that has counted all events, and a restart after which the log is not read
a checkpoint that skips all. -/
def Meets (p : Progress) : Move → Prop
  | .append => p.readable = false → p.skip = p.total
  | .save => p.readable = true → p.counted = p.total
  | .restart stays => p.readable = true → stays = false → p.skip = p.total

theorem replayed_map (p : Progress) (f : α → β) (log : List α) :
    (p.replayed log).map f = p.replayed (log.map f) := by
  unfold replayed
  split_ifs
  · rw [List.map_append, List.map_take, List.map_drop]
  · rw [List.append_nil, List.append_nil, List.map_take]

theorem replayed_eq_iff {p : Progress} {log : List α} (hlog : log.length = p.total) :
    p.replayed log = log ↔ p.Whole := by
  have hcovered := p.covered_le
  have hskip := p.skip_le
  unfold replayed Whole
  split_ifs
  · constructor
    · intro h
      -- An event too few or too many shows in the length.
      have hlength := congrArg List.length h
      rw [List.length_append, List.length_take, List.length_drop] at hlength
      omega
    · intro h
      rw [h, List.take_append_drop]
  · rw [List.append_nil, List.take_eq_self_iff, hlog]
    exact ⟨fun h ↦ le_antisymm hcovered h, fun h ↦ h.ge⟩

theorem whole_start (readable : Bool) : (start readable).Whole := by
  cases readable <;> rfl

/-- A move keeps a recovery whole exactly when it meets the condition. -/
theorem whole_after_iff {p : Progress} (h : p.Whole) (move : Move) :
    (p.after move).Whole ↔ p.Meets move := by
  have hcounted := p.counted_le
  have hskip := p.skip_le
  have hcovered := p.covered_le
  unfold Whole at h
  cases move with
  | append =>
    show p.skip = p.covered ↔ (p.readable = false → p.skip = p.total)
    cases hread : p.readable with
    | true => simpa [hread] using h
    | false =>
      rw [hread, if_neg Bool.false_ne_true] at h
      rw [h]
      exact ⟨fun heq _ ↦ heq, fun heq ↦ heq rfl⟩
  | save =>
    show (if p.readable then p.counted = p.total else p.total = p.total) ↔
      (p.readable = true → p.counted = p.total)
    cases p.readable <;> simp
  | restart stays =>
    show (if p.readable && stays then p.skip = p.covered else p.covered = p.total) ↔
      (p.readable = true → stays = false → p.skip = p.total)
    cases hread : p.readable with
    | false => simpa [hread] using h
    | true =>
      rw [hread, if_pos rfl] at h
      cases stays with
      | true => simpa using h
      | false =>
        rw [← h]
        simp

theorem whole_follow_iff {p : Progress} (h : p.Whole) (move : Option Move) :
    (p.follow move).Whole ↔ ∀ m ∈ move, p.Meets m := by
  cases move with
  | none => exact iff_of_true h (by simp)
  | some m =>
    rw [follow, whole_after_iff h m]
    simp

/-- The writer has not begun anew: it has counted all events, and reads the log if there are any. -/
structure Unbroken (p : Progress) : Prop where
  counted : p.counted = p.total
  empty : p.readable = false → p.total = 0

theorem unbroken_start (readable : Bool) : (start readable).Unbroken := ⟨rfl, fun _ ↦ rfl⟩

/-- A writer that has not begun anew meets what an event or a checkpoint asks. -/
theorem Unbroken.meets {p : Progress} (h : p.Unbroken) {move : Move}
    (hmove : ∀ stays, move ≠ .restart stays) : p.Meets move := by
  have hskip := p.skip_le.trans p.covered_le
  cases move with
  | append =>
    intro hclosed
    have htotal := h.empty hclosed
    show p.skip = p.total
    omega
  | save => exact fun _ ↦ h.counted
  | restart stays => exact absurd rfl (hmove stays)

theorem Unbroken.after {p : Progress} (h : p.Unbroken) {move : Move}
    (hmove : ∀ stays, move ≠ .restart stays) : (p.after move).Unbroken := by
  cases move with
  | append => exact ⟨congrArg (· + 1) h.counted, fun hclosed ↦ absurd hclosed Bool.true_eq_false.mp⟩
  | save => exact ⟨h.counted, h.empty⟩
  | restart stays => exact absurd rfl (hmove stays)

end Progress

end Lithair.Lib.Checkpoint
