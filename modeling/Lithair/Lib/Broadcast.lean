import Mathlib.Algebra.Order.Ring.Nat
import Mathlib.Data.List.Basic

/-!
# Bounded broadcast channels

A channel keeps its last `capacity` values for every receiver. A receiver has a position in what was
sent and takes the values one by one from there; when the value at its position is gone, it is told
how many it has missed and goes on with the oldest that is left (`recv`).

What a receiver was told explains a list of values when each of them is one it was given or is
counted among those it has missed (`Explains`). `Explains.recv` says that a receiver is told about
every value in turn, and `Explains.eq_events` that it has them all when none was missed.
-/

namespace Lithair.Lib.Broadcast

variable {E : Type*} (capacity : ℕ)

/-- What a receiver is told: the next value, or the number of those it has missed. -/
inductive Received (E : Type*)
  | event (value : E)
  | lagged (missed : ℕ)

/-- What the receiver at position `next` is told, and its new position. It waits when there is
nothing left. -/
def recv (sent : List E) (next : ℕ) : Option (Received E × ℕ) :=
  if next + capacity < sent.length then
    some (.lagged (sent.length - capacity - next), sent.length - capacity)
  else sent[next]?.map fun value ↦ (.event value, next + 1)

/-- Each of the values was given, or counted as missed, in turn. -/
inductive Explains : List (Received E) → List E → Prop
  | nil : Explains [] []
  | event {told : List (Received E)} {values : List E} (value : E) (h : Explains told values) :
    Explains (told ++ [.event value]) (values ++ [value])
  | lagged {told : List (Received E)} {values : List E} (missed : List E)
    (h : Explains told values) :
    Explains (told ++ [.lagged missed.length]) (values ++ missed)

def Received.count : Received E → ℕ
  | .event _ => 1
  | .lagged missed => missed

/-- The values that the receiver was given. -/
def Received.value : Received E → Option E
  | .event value => some value
  | .lagged _ => none

variable {capacity} {told : List (Received E)} {values sent : List E} {next : ℕ}

theorem Explains.length_eq (h : Explains told values) :
    values.length = (told.map Received.count).sum := by
  induction h with
  | nil => rfl
  | event value h ih => simp [Received.count, ih]
  | lagged missed h ih => simp [Received.count, ih]

/-- Values that are explained and followed by the same end at the same place. -/
theorem Explains.append_left_inj {others left right : List E} (h : Explains told values)
    (h' : Explains told others) (heq : values ++ left = others ++ right) : left = right := by
  have hlength : values.length = others.length := h.length_eq.trans h'.length_eq.symm
  exact (List.append_inj heq hlength).2

/-- A receiver that was told of all values before its position is told of those that follow. -/
theorem Explains.recv {all : List E} {item : Received E} {after : ℕ} (h : Explains told values)
    (hall : all = values ++ sent.drop next)
    (hrecv : Broadcast.recv capacity sent next = some (item, after)) :
    ∃ explained, Explains (told ++ [item]) explained ∧ all = explained ++ sent.drop after := by
  unfold Broadcast.recv at hrecv
  split_ifs at hrecv with hlag
  · obtain ⟨rfl, rfl⟩ := Prod.mk.inj (Option.some.inj hrecv)
    have hmissed : ((sent.drop next).take (sent.length - capacity - next)).length =
        sent.length - capacity - next := by
      rw [List.length_take, List.length_drop]
      omega
    refine ⟨values ++ (sent.drop next).take (sent.length - capacity - next), ?_, ?_⟩
    · have hstep := h.lagged ((sent.drop next).take (sent.length - capacity - next))
      rwa [hmissed] at hstep
    · have hdrop : sent.drop (sent.length - capacity) =
          (sent.drop next).drop (sent.length - capacity - next) := by
        rw [List.drop_drop]
        congr 1
        omega
      rw [hall, hdrop, List.append_assoc, List.take_append_drop]
  · obtain ⟨value, hvalue, hpair⟩ := Option.map_eq_some_iff.mp hrecv
    obtain ⟨rfl, rfl⟩ := Prod.mk.inj hpair
    obtain ⟨hnext, rfl⟩ := List.getElem?_eq_some_iff.mp hvalue
    refine ⟨values ++ [sent[next]], h.event sent[next], ?_⟩
    rw [hall, List.append_assoc, List.singleton_append, List.getElem_cons_drop]

/-- Without a miss the receiver was given every value. -/
theorem Explains.eq_events (h : Explains told values)
    (hmissed : ∀ item ∈ told, ∀ missed, item ≠ .lagged missed) :
    values = told.filterMap Received.value := by
  induction h with
  | nil => rfl
  | event value h ih =>
    rw [List.filterMap_append, ← ih fun item hitem ↦ hmissed item (List.mem_append_left _ hitem)]
    rfl
  | lagged missed h ih =>
    exact absurd rfl (hmissed _ (List.mem_append_right _ List.mem_cons_self) missed.length)

/-- A receiver that is not too far behind misses nothing. -/
theorem recv_of_le (h : sent.length ≤ next + capacity) :
    recv capacity sent next = sent[next]?.map fun value ↦ (.event value, next + 1) :=
  if_neg (Nat.not_lt.mpr h)

/-- A receiver stays within what was sent. -/
theorem le_of_recv {item : Received E} {after : ℕ}
    (h : recv capacity sent next = some (item, after)) :
    next ≤ after ∧ after ≤ sent.length := by
  unfold recv at h
  split_ifs at h with hlag
  · obtain ⟨-, rfl⟩ := Prod.mk.inj (Option.some.inj h)
    omega
  · obtain ⟨value, hvalue, hpair⟩ := Option.map_eq_some_iff.mp h
    obtain ⟨-, rfl⟩ := Prod.mk.inj hpair
    obtain ⟨hnext, -⟩ := List.getElem?_eq_some_iff.mp hvalue
    omega

end Lithair.Lib.Broadcast
