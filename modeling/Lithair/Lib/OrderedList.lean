import Mathlib.Data.List.InsertIdx
import Mathlib.Data.List.Infix
import Mathlib.Order.Lattice

/-!
# Lists kept in key order, and lists numbered consecutively

Two facts about lists that an ordered log rests on.

`insertByKey` puts an element before the first element with a greater key, or at the end when
there is none. It adds that element and nothing else (`perm_insertByKey`) and keeps a list ordered
by key (`SortedBy.insertByKey`), strictly when the key is new (`StrictSortedBy.insertByKey`).

`NumberedFrom number n l` says that the numbers of `l` are `n, n + 1, …`. A list that carries
strictly increasing numbers from `n` on, and contains every element of a list numbered
consecutively from `n`, starts with that list (`NumberedFrom.prefix`): a reader that only ever
takes the next number can be neither ahead of the list nor beside it.
-/

namespace Lithair.Lib.OrderedList

/-! ### Insertion by key -/

section InsertByKey

variable {α κ : Type*} [LinearOrder κ] (key : α → κ)

/-- Insert an element before the first one whose key is greater, at the end if there is none. -/
def insertByKey (x : α) (l : List α) : List α :=
  l.insertIdx (l.findIdx fun y ↦ key x < key y) x

/-- The keys never decrease along the list. -/
def SortedBy (l : List α) : Prop := l.Pairwise fun a b ↦ key a ≤ key b

/-- The keys increase along the list, so no key occurs twice. -/
def StrictSortedBy (l : List α) : Prop := l.Pairwise fun a b ↦ key a < key b

variable {key}

theorem insertByKey_cons (x y : α) (l : List α) :
    insertByKey key x (y :: l) =
      if key x < key y then x :: y :: l else y :: insertByKey key x l := by
  unfold insertByKey
  by_cases h : key x < key y
  · simp [List.findIdx_cons, h]
  · simp [List.findIdx_cons, h]

theorem perm_insertByKey (x : α) (l : List α) : (insertByKey key x l).Perm (x :: l) :=
  List.perm_insertIdx x l List.findIdx_le_length

@[simp] theorem mem_insertByKey {x y : α} {l : List α} :
    y ∈ insertByKey key x l ↔ y = x ∨ y ∈ l := by
  rw [(perm_insertByKey x l).mem_iff, List.mem_cons]

/-- A filter that drops the inserted element does not see the insertion. -/
theorem filter_insertByKey_of_not (p : α → Bool) {x : α} (hx : p x = false) (l : List α) :
    (insertByKey key x l).filter p = l.filter p := by
  induction l with
  | nil => simp [hx]
  | cons y l ih =>
    rw [insertByKey_cons]
    split_ifs
    · rw [List.filter_cons_of_neg (by simpa using hx)]
    · rw [List.filter_cons, ih, ← List.filter_cons]

/-- The last element stays the last unless the inserted one comes behind all others. -/
theorem getLast?_insertByKey (x : α) (l : List α) :
    (insertByKey key x l).getLast? =
      if ∃ y ∈ l, key x < key y then l.getLast? else some x := by
  induction l with
  | nil => simp [insertByKey]
  | cons y l ih =>
    rw [insertByKey_cons]
    by_cases hxy : key x < key y
    · rw [if_pos hxy, if_pos ⟨y, List.mem_cons_self, hxy⟩, List.getLast?_cons_cons]
    · rw [if_neg hxy, List.getLast?_cons, ih]
      by_cases hl : ∃ z ∈ l, key x < key z
      · obtain ⟨z, hz, hlt⟩ := hl
        rw [if_pos ⟨z, hz, hlt⟩, if_pos ⟨z, List.mem_cons_of_mem _ hz, hlt⟩, List.getLast?_cons]
      · rw [if_neg hl, if_neg (by simpa [hxy] using hl), Option.getD_some]

/-- Inserting by key keeps a list ordered by key. -/
theorem SortedBy.insertByKey {l : List α} (h : SortedBy key l) (x : α) :
    SortedBy key (insertByKey key x l) := by
  induction l with
  | nil => exact List.pairwise_singleton _ x
  | cons y l ih =>
    obtain ⟨hy, hl⟩ := List.pairwise_cons.mp h
    rw [insertByKey_cons]
    split_ifs with hxy
    · refine List.pairwise_cons.mpr ⟨?_, h⟩
      intro z hz
      rcases List.mem_cons.mp hz with rfl | hz
      · exact hxy.le
      · exact hxy.le.trans (hy z hz)
    · refine List.pairwise_cons.mpr ⟨?_, ih hl⟩
      intro z hz
      rcases mem_insertByKey.mp hz with rfl | hz
      · exact not_lt.mp hxy
      · exact hy z hz

theorem StrictSortedBy.sortedBy {l : List α} (h : StrictSortedBy key l) : SortedBy key l :=
  h.imp fun hlt ↦ hlt.le

/-- An ordered list in which no key occurs twice is strictly ordered. -/
theorem SortedBy.strict {l : List α} (h : SortedBy key l) (hkeys : (l.map key).Nodup) :
    StrictSortedBy key l := by
  have hne : l.Pairwise fun a b ↦ key a ≠ key b := List.pairwise_map.mp hkeys
  exact (List.Pairwise.and h hne).imp fun ⟨hle, hkey⟩ ↦ lt_of_le_of_ne hle hkey

/-- Inserting an element with a new key keeps a list strictly ordered. -/
theorem StrictSortedBy.insertByKey {l : List α} (h : StrictSortedBy key l) {x : α}
    (hx : ∀ y ∈ l, key y ≠ key x) : StrictSortedBy key (insertByKey key x l) := by
  refine (h.sortedBy.insertByKey x).strict ?_
  rw [((perm_insertByKey x l).map key).nodup_iff, List.map_cons, List.nodup_cons]
  constructor
  · intro hmem
    obtain ⟨y, hy, hkey⟩ := List.mem_map.mp hmem
    exact hx y hy hkey
  · exact List.pairwise_map.mpr (h.imp fun hlt ↦ hlt.ne)

/-- Two elements of a strictly ordered list with one key are the same element. -/
theorem StrictSortedBy.eq_of_key_eq {l : List α} (h : StrictSortedBy key l) {a b : α}
    (ha : a ∈ l) (hb : b ∈ l) (hkey : key a = key b) : a = b := by
  induction l with
  | nil => exact absurd ha List.not_mem_nil
  | cons y l ih =>
    obtain ⟨hy, hl⟩ := List.pairwise_cons.mp h
    rcases List.mem_cons.mp ha with rfl | hal <;> rcases List.mem_cons.mp hb with rfl | hbl
    · rfl
    · exact absurd hkey (hy b hbl).ne
    · exact absurd hkey.symm (hy a hal).ne
    · exact ih hl hal hbl

end InsertByKey

/-! ### Consecutive numbers -/

section Numbered

variable {α : Type*} {number : α → ℕ}

/-- The numbers of the list are `n, n + 1, …` in order. -/
def NumberedFrom (number : α → ℕ) : ℕ → List α → Prop
  | _, [] => True
  | n, a :: rest => number a = n ∧ NumberedFrom number (n + 1) rest

@[simp] theorem numberedFrom_nil (n : ℕ) : NumberedFrom number n [] := trivial

@[simp] theorem numberedFrom_cons {n : ℕ} {a : α} {rest : List α} :
    NumberedFrom number n (a :: rest) ↔ number a = n ∧ NumberedFrom number (n + 1) rest :=
  Iff.rfl

theorem numberedFrom_append {n : ℕ} {first second : List α} :
    NumberedFrom number n (first ++ second) ↔
      NumberedFrom number n first ∧ NumberedFrom number (n + first.length) second := by
  induction first generalizing n with
  | nil => simp
  | cons a rest ih =>
    rw [List.cons_append, numberedFrom_cons, numberedFrom_cons, ih, and_assoc,
      List.length_cons, Nat.add_right_comm, Nat.add_assoc]

/-- The numbers of a list numbered from `n` lie in `[n, n + length)`. -/
theorem NumberedFrom.bounds {n : ℕ} {l : List α} (h : NumberedFrom number n l) {a : α}
    (ha : a ∈ l) : n ≤ number a ∧ number a < n + l.length := by
  induction l generalizing n with
  | nil => exact absurd ha List.not_mem_nil
  | cons b rest ih =>
    rw [List.length_cons]
    rcases List.mem_cons.mp ha with rfl | ha
    · rw [h.1]
      omega
    · have hrest := ih h.2 ha
      omega

/-- Consecutive numbers increase. -/
theorem NumberedFrom.strictSortedBy {n : ℕ} {l : List α} (h : NumberedFrom number n l) :
    StrictSortedBy number l := by
  induction l generalizing n with
  | nil => exact List.Pairwise.nil
  | cons a rest ih =>
    refine List.pairwise_cons.mpr ⟨fun b hb ↦ ?_, ih h.2⟩
    rw [h.1]
    exact (h.2.bounds hb).1

/-- Every number of the interval occurs. -/
theorem NumberedFrom.exists_mem {n : ℕ} {l : List α} (h : NumberedFrom number n l) {i : ℕ}
    (hlow : n ≤ i) (hhigh : i < n + l.length) : ∃ a ∈ l, number a = i := by
  induction l generalizing n with
  | nil =>
    rw [List.length_nil] at hhigh
    omega
  | cons b rest ih =>
    rw [List.length_cons] at hhigh
    by_cases hi : i = n
    · exact ⟨b, List.mem_cons_self, h.1.trans hi.symm⟩
    · obtain ⟨a, ha, hnumber⟩ := ih h.2 (by omega) (by omega)
      exact ⟨a, List.mem_cons_of_mem _ ha, hnumber⟩

/-- A list numbered consecutively from `n` is a prefix of every list that contains its elements
and carries strictly increasing numbers from `n` on. -/
theorem NumberedFrom.prefix {n : ℕ} {taken l : List α} (htaken : NumberedFrom number n taken)
    (hl : StrictSortedBy number l) (hlow : ∀ a ∈ l, n ≤ number a) (hsub : ∀ a ∈ taken, a ∈ l) :
    taken <+: l := by
  induction taken generalizing n l with
  | nil => exact List.nil_prefix
  | cons a rest ih =>
    cases l with
    | nil => exact absurd (hsub a List.mem_cons_self) List.not_mem_nil
    | cons b tail =>
      obtain ⟨hb, htail⟩ := List.pairwise_cons.mp hl
      have hab : a = b := by
        rcases List.mem_cons.mp (hsub a List.mem_cons_self) with h | h
        · exact h
        · have hlt := hb a h
          have hle := hlow b List.mem_cons_self
          rw [htaken.1] at hlt
          omega
      subst hab
      refine List.cons_prefix_cons.mpr ⟨rfl, ih htaken.2 htail ?_ ?_⟩
      · intro c hc
        have hlt := hb c hc
        rw [htaken.1] at hlt
        exact hlt
      · intro c hc
        rcases List.mem_cons.mp (hsub c (List.mem_cons_of_mem _ hc)) with rfl | h
        · have hbound := (htaken.2.bounds hc).1
          rw [htaken.1] at hbound
          omega
        · exact h

end Numbered

/-! ### The last element with a property -/

/-- The last element that passes a filter is the one behind which no other passes. -/
theorem getLast?_filter_eq_some {α : Type*} {l : List α} {p : α → Bool} {n : ℕ} {a : α}
    (ha : l[n]? = some a) (hp : p a = true)
    (hlast : ∀ m b, l[m]? = some b → p b = true → m ≤ n) : (l.filter p).getLast? = some a := by
  obtain ⟨hn, hget⟩ := List.getElem?_eq_some_iff.mp ha
  have hsplit : l = l.take n ++ a :: l.drop (n + 1) := by
    rw [← hget, ← List.drop_eq_getElem_cons hn, List.take_append_drop]
  have hnone : (l.drop (n + 1)).filter p = [] := by
    refine List.filter_eq_nil_iff.mpr fun b hb hpb ↦ ?_
    obtain ⟨m, hm⟩ := List.mem_iff_getElem?.mp hb
    rw [List.getElem?_drop] at hm
    have hle := hlast (n + 1 + m) b hm hpb
    omega
  rw [hsplit, List.filter_append, List.filter_cons_of_pos hp, hnone, List.getLast?_append]
  rfl

end Lithair.Lib.OrderedList
