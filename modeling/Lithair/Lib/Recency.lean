import Mathlib.Data.List.Nodup

/-!
# Least recently used

A map with room for so many entries, in the order in which they were last used, the last used one
first. A new entry of a full map takes the place of the one that has not been used for longest,
which is the last of the order.
-/

namespace Lithair.Lib.Recency

variable {κ α : Type*} [DecidableEq κ] {capacity : ℕ} {entries : List (κ × α)} {key : κ} {value : α}

/-- The entries of the other keys. -/
def without (entries : List (κ × α)) (key : κ) : List (κ × α) :=
  entries.filter fun entry ↦ entry.1 ≠ key

theorem without_sublist : (without entries key).Sublist entries := List.filter_sublist

theorem without_eq_self (h : key ∉ entries.map Prod.fst) : without entries key = entries := by
  refine List.filter_eq_self.mpr fun entry hentry ↦ decide_eq_true ?_
  rintro rfl
  exact h (List.mem_map_of_mem hentry)

theorem key_notMem_without : key ∉ (without entries key).map Prod.fst := by
  intro h
  obtain ⟨entry, hentry, rfl⟩ := List.mem_map.mp h
  exact of_decide_eq_true (List.mem_filter.mp hentry).2 rfl

theorem length_without_lt (h : key ∈ entries.map Prod.fst) :
    (without entries key).length < entries.length := by
  obtain ⟨entry, hentry, rfl⟩ := List.mem_map.mp h
  exact List.length_filter_lt_length_iff_exists.mpr ⟨entry, hentry, by simp⟩

theorem lookup_eq_some_iff_mem (hdistinct : (entries.map Prod.fst).Nodup) :
    entries.lookup key = some value ↔ (key, value) ∈ entries := by
  induction entries with
  | nil => simp
  | cons first rest ih =>
    obtain ⟨hfirst, hrest⟩ := List.nodup_cons.mp hdistinct
    rw [List.lookup_cons, List.mem_cons]
    by_cases heq : key = first.1
    · subst heq
      have hnot : (first.1, value) ∉ rest := fun hmem ↦ hfirst (List.mem_map.mpr ⟨_, hmem, rfl⟩)
      simp [hnot, Prod.ext_iff, eq_comm]
    · rw [beq_eq_false_iff_ne.mpr heq]
      simp [ih hrest, Prod.ext_iff, heq]

theorem mem_keys_of_lookup (hdistinct : (entries.map Prod.fst).Nodup)
    (h : entries.lookup key = some value) : key ∈ entries.map Prod.fst :=
  List.mem_map_of_mem ((lookup_eq_some_iff_mem hdistinct).mp h)

theorem lookup_eq_none_iff_notMem (hdistinct : (entries.map Prod.fst).Nodup) :
    entries.lookup key = none ↔ key ∉ entries.map Prod.fst := by
  rw [← not_iff_not, not_not, ← ne_eq, Option.ne_none_iff_exists', List.mem_map]
  constructor
  · rintro ⟨value, hvalue⟩
    exact ⟨_, (lookup_eq_some_iff_mem hdistinct).mp hvalue, rfl⟩
  · rintro ⟨entry, hentry, rfl⟩
    exact ⟨entry.2, (lookup_eq_some_iff_mem hdistinct).mpr hentry⟩

/-- The entries by their last use, each key once and no more of them than there is room for. -/
structure LruMap (κ α : Type*) (capacity : ℕ) where
  entries : List (κ × α)
  distinct : (entries.map Prod.fst).Nodup
  atMost : entries.length ≤ capacity
  positive : 0 < capacity

namespace LruMap

def empty (hcapacity : 0 < capacity) : LruMap κ α capacity where
  entries := []
  distinct := List.nodup_nil
  atMost := Nat.zero_le capacity
  positive := hcapacity

variable (m : LruMap κ α capacity)

/-- Use the key, which is in the map, with a value. -/
def use (key : κ) (value : α) (hkey : key ∈ m.entries.map Prod.fst) : LruMap κ α capacity where
  entries := (key, value) :: without m.entries key
  distinct := List.nodup_cons.mpr
    ⟨key_notMem_without, m.distinct.sublist (without_sublist.map Prod.fst)⟩
  atMost := Nat.lt_of_lt_of_le (length_without_lt hkey) m.atMost
  positive := m.positive

/-- Add a key that is not in the map; when the map is full, the last entry is evicted. -/
def add (key : κ) (value : α) (hkey : key ∉ m.entries.map Prod.fst) : LruMap κ α capacity where
  entries := (key, value) ::
    if capacity ≤ m.entries.length then m.entries.dropLast else m.entries
  distinct := by
    have hsublist : (if capacity ≤ m.entries.length then m.entries.dropLast else
        m.entries).Sublist m.entries := by
      split_ifs
      · exact List.dropLast_sublist m.entries
      · exact List.Sublist.refl m.entries
    exact List.nodup_cons.mpr ⟨fun hmem ↦ hkey ((hsublist.map Prod.fst).subset hmem),
      m.distinct.sublist (hsublist.map Prod.fst)⟩
  atMost := by
    have hatMost := m.atMost
    have hpositive := m.positive
    split_ifs with hfull
    · rw [List.length_cons, List.length_dropLast]
      omega
    · rw [List.length_cons]
      omega
  positive := m.positive

def get (key : κ) : LruMap κ α capacity × Option α :=
  match hlookup : m.entries.lookup key with
  | none => (m, none)
  | some value => (m.use key value (mem_keys_of_lookup m.distinct hlookup), some value)

def insert (key : κ) (value : α) : LruMap κ α capacity × Option α :=
  match hlookup : m.entries.lookup key with
  | none => (m.add key value ((lookup_eq_none_iff_notMem m.distinct).mp hlookup), none)
  | some old => (m.use key value (mem_keys_of_lookup m.distinct hlookup), some old)

def remove (key : κ) : LruMap κ α capacity × Option α :=
  ({ m with
      entries := without m.entries key
      distinct := m.distinct.sublist (without_sublist.map Prod.fst)
      atMost := Nat.le_trans without_sublist.length_le m.atMost },
    m.entries.lookup key)

def clear : LruMap κ α capacity := empty m.positive

variable {m} {old : α}

theorem get_of_absent (h : m.entries.lookup key = none) : m.get key = (m, none) := by
  unfold get
  split
  · rfl
  · next value hvalue => exact absurd (h.symm.trans hvalue) (Option.some_ne_none value).symm

theorem get_of_present (h : m.entries.lookup key = some value) :
    (m.get key).2 = some value ∧
      (m.get key).1.entries = (key, value) :: without m.entries key := by
  unfold get
  split
  · next hnone => exact absurd (h.symm.trans hnone) (Option.some_ne_none value)
  · next other hother =>
    obtain rfl := Option.some.inj (h.symm.trans hother)
    exact ⟨rfl, rfl⟩

theorem insert_of_absent (value : α) (h : m.entries.lookup key = none) :
    (m.insert key value).2 = none ∧ (m.insert key value).1.entries = (key, value) ::
      if capacity ≤ m.entries.length then m.entries.dropLast else m.entries := by
  unfold insert
  split
  · exact ⟨rfl, rfl⟩
  · next old hold => exact absurd (h.symm.trans hold) (Option.some_ne_none old).symm

theorem insert_of_present (value : α) (h : m.entries.lookup key = some old) :
    (m.insert key value).2 = some old ∧
      (m.insert key value).1.entries = (key, value) :: without m.entries key := by
  unfold insert
  split
  · next hnone => exact absurd (h.symm.trans hnone) (Option.some_ne_none old)
  · next other hother =>
    obtain rfl := Option.some.inj (h.symm.trans hother)
    exact ⟨rfl, rfl⟩

end LruMap

end Lithair.Lib.Recency
