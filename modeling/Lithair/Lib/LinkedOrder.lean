import Mathlib.Data.List.Induction
import Mathlib.Data.List.Nodup

/-!
# Linked lists as orders

The nodes of a doubly linked list are named, and each has the names of the one before it and of the
one after it. Such a list stands for the order in which its nodes follow each other (`linksOf`).

Taking a node out of the list and putting one in front of it need a change of the links of its
neighbours only (`linksOf_erase`, `linksOf_cons`), and in the order the two directions are inverse
(`prevOf_eq_some_iff`).
-/

namespace Lithair.Lib.LinkedOrder

variable {ι : Type*}

/-- The names of the neighbours of a node. -/
structure Links (ι : Type*) where
  prev : Option ι
  next : Option ι

/-- The list that is followed from a start by going to the next one until there is none. -/
def Follows (next : ι → Option ι) : Option ι → List ι → Prop
  | start, [] => start = none
  | start, i :: rest => start = some i ∧ Follows next (next i) rest

variable [DecidableEq ι] {order rest : List ι} {i j k : ι}

def nextOf : List ι → ι → Option ι
  | [], _ => none
  | j :: rest, i => if j = i then rest.head? else nextOf rest i

def prevOf : List ι → ι → Option ι
  | [], _ => none
  | j :: rest, i => if rest.head? = some i then some j else prevOf rest i

def linksOf (order : List ι) (i : ι) : Option (Links ι) :=
  if i ∈ order then some ⟨prevOf order i, nextOf order i⟩ else none

/-- Change the links of a node, if one is named. -/
def relink (links : ι → Option (Links ι)) (node : Option ι) (f : Links ι → Links ι) (i : ι) :
    Option (Links ι) :=
  if node = some i then (links i).map f else links i

theorem mem_of_nextOf (h : nextOf order i = some j) : i ∈ order ∧ j ∈ order := by
  induction order with
  | nil => exact absurd h (Option.some_ne_none j).symm
  | cons first rest ih =>
    rw [nextOf] at h
    split_ifs at h with hfirst
    · exact ⟨hfirst ▸ List.mem_cons_self, List.mem_cons_of_mem _ (List.mem_of_head? h)⟩
    · exact ⟨List.mem_cons_of_mem _ (ih h).1, List.mem_cons_of_mem _ (ih h).2⟩

theorem nextOf_of_notMem (h : i ∉ order) : nextOf order i = none := by
  cases hnext : nextOf order i with
  | none => rfl
  | some j => exact absurd (mem_of_nextOf hnext).1 h

theorem prevOf_eq_none (h : i ∉ order.tail) : prevOf order i = none := by
  induction order with
  | nil => rfl
  | cons first rest ih =>
    rw [List.tail_cons] at h
    rw [prevOf, if_neg fun hhead ↦ h (List.mem_of_head? hhead)]
    exact ih fun hmem ↦ h (List.mem_of_mem_tail hmem)

theorem prevOf_of_notMem (h : i ∉ order) : prevOf order i = none :=
  prevOf_eq_none fun hmem ↦ h (List.mem_of_mem_tail hmem)

/-- The first node has none before it. -/
theorem prevOf_head (hnodup : order.Nodup) (h : order.head? = some i) : prevOf order i = none := by
  cases order with
  | nil => rfl
  | cons first rest =>
    obtain rfl := Option.some.inj h
    exact prevOf_eq_none (List.nodup_cons.mp hnodup).1

theorem prevOf_eq_some_iff (hnodup : order.Nodup) :
    prevOf order j = some i ↔ nextOf order i = some j := by
  induction order with
  | nil => exact iff_of_false (Option.some_ne_none i).symm (Option.some_ne_none j).symm
  | cons first rest ih =>
    obtain ⟨hfirst, hrest⟩ := List.nodup_cons.mp hnodup
    rw [prevOf, nextOf]
    by_cases hhead : rest.head? = some j
    · rw [if_pos hhead, Option.some.injEq]
      by_cases heq : first = i
      · rw [if_pos heq]
        exact iff_of_true heq hhead
      · rw [if_neg heq, ← ih hrest, prevOf_head hrest hhead]
        exact iff_of_false heq (Option.some_ne_none i).symm
    · rw [if_neg hhead, ih hrest]
      by_cases heq : first = i
      · rw [if_pos heq]
        subst heq
        exact iff_of_false (fun hnext ↦ hfirst (mem_of_nextOf hnext).1) hhead
      · rw [if_neg heq]

theorem nextOf_ne_self (hnodup : order.Nodup) : nextOf order i ≠ some i := by
  intro h
  induction order with
  | nil => exact absurd h (Option.some_ne_none i).symm
  | cons first rest ih =>
    obtain ⟨hfirst, hrest⟩ := List.nodup_cons.mp hnodup
    rw [nextOf] at h
    split_ifs at h with heq
    · subst heq
      exact hfirst (List.mem_of_head? h)
    · exact ih hrest h

/-- The next of a node in the middle is the first of those after it. -/
theorem nextOf_append_cons {front : List ι} (h : i ∉ front) :
    nextOf (front ++ i :: rest) i = rest.head? := by
  induction front with
  | nil => rw [List.nil_append, nextOf, if_pos rfl]
  | cons first front ih =>
    have hne : first ≠ i := fun heq ↦ h (heq ▸ List.mem_cons_self)
    rw [List.cons_append, nextOf, if_neg hne]
    exact ih fun hmem ↦ h (List.mem_cons_of_mem _ hmem)

theorem follows_append (front : List ι) (hnodup : (front ++ rest).Nodup) :
    Follows (nextOf (front ++ rest)) rest.head? rest := by
  induction rest generalizing front with
  | nil => rfl
  | cons i rest ih =>
    have hfront : i ∉ front := fun hmem ↦
      (List.nodup_append.mp hnodup).2.2 i hmem i List.mem_cons_self rfl
    refine ⟨rfl, ?_⟩
    rw [nextOf_append_cons hfront, List.append_cons]
    rw [List.append_cons] at hnodup
    exact ih _ hnodup

theorem bind_next_linksOf : (linksOf order i).bind Links.next = nextOf order i := by
  unfold linksOf
  split_ifs with hi
  · rfl
  · exact (nextOf_of_notMem hi).symm

theorem bind_prev_linksOf : (linksOf order i).bind Links.prev = prevOf order i := by
  unfold linksOf
  split_ifs with hi
  · rfl
  · exact (prevOf_of_notMem hi).symm

/-- The order is what is followed from its first node. -/
theorem follows_nextOf (hnodup : order.Nodup) : Follows (nextOf order) order.head? order :=
  follows_append [] hnodup

theorem prevOf_eq_none_iff (hnodup : order.Nodup) (h : i ∈ order) :
    prevOf order i = none ↔ order.head? = some i := by
  refine ⟨fun hprev ↦ ?_, prevOf_head hnodup⟩
  induction order with
  | nil => exact absurd h List.not_mem_nil
  | cons first rest ih =>
    rw [prevOf] at hprev
    split_ifs at hprev with hhead
    rcases List.mem_cons.mp h with rfl | hmem
    · rfl
    · exact absurd (ih (List.nodup_cons.mp hnodup).2 hmem hprev) hhead

theorem nextOf_eq_none_iff (hnodup : order.Nodup) (h : i ∈ order) :
    nextOf order i = none ↔ order.getLast? = some i := by
  obtain ⟨front, rest, rfl⟩ := List.append_of_mem h
  have hfront : i ∉ front := fun hmem ↦
    (List.nodup_append.mp hnodup).2.2 i hmem i List.mem_cons_self rfl
  rw [nextOf_append_cons hfront, List.head?_eq_none_iff]
  constructor
  · rintro rfl
    exact List.getLast?_concat
  · intro hlast
    have hrest : i ∉ rest := (List.nodup_cons.mp hnodup.of_append_right).1
    cases rest using List.reverseRecOn with
    | nil => rfl
    | append_singleton others last =>
      rw [← List.cons_append, ← List.append_assoc, List.getLast?_concat, Option.some.injEq] at hlast
      exact absurd (hlast ▸ List.mem_append_right _ List.mem_cons_self) hrest

/-! ### One node less -/

theorem head?_erase : (order.erase i).head? =
    if order.head? = some i then nextOf order i else order.head? := by
  cases order with
  | nil => rfl
  | cons first rest =>
    rw [List.head?_cons, nextOf]
    by_cases heq : first = i
    · rw [heq, List.erase_cons_head, if_pos rfl, if_pos rfl]
    · rw [List.erase_cons_tail (by rwa [beq_iff_eq]),
        if_neg fun hsome ↦ heq (Option.some.inj hsome), List.head?_cons]

theorem nextOf_erase (hnodup : order.Nodup) (hne : j ≠ i) : nextOf (order.erase i) j =
    if nextOf order j = some i then nextOf order i else nextOf order j := by
  induction order with
  | nil => rfl
  | cons first rest ih =>
    obtain ⟨hfirst, hrest⟩ := List.nodup_cons.mp hnodup
    by_cases heq : first = i
    · have hnext : nextOf rest j ≠ some i := fun hnext ↦ hfirst (heq ▸ (mem_of_nextOf hnext).2)
      rw [heq, List.erase_cons_head, nextOf, if_neg hne.symm, if_neg hnext]
    · rw [List.erase_cons_tail (by rwa [beq_iff_eq]), nextOf, nextOf, nextOf, if_neg heq]
      by_cases hj : first = j
      · rw [if_pos hj, if_pos hj, head?_erase]
      · rw [if_neg hj, if_neg hj, ih hrest]

theorem prevOf_erase (hnodup : order.Nodup) (hne : j ≠ i) : prevOf (order.erase i) j =
    if prevOf order j = some i then prevOf order i else prevOf order j := by
  ext k
  rw [prevOf_eq_some_iff (hnodup.erase i)]
  by_cases hk : k = i
  · rw [hk, nextOf_of_notMem hnodup.not_mem_erase]
    refine iff_of_false (Option.some_ne_none j).symm ?_
    split_ifs with hprev
    · rw [prevOf_eq_some_iff hnodup]
      exact nextOf_ne_self hnodup
    · exact hprev
  · rw [nextOf_erase hnodup hk]
    split_ifs with hnext hprev hprev
    · rw [prevOf_eq_some_iff hnodup]
      exact iff_of_true ((prevOf_eq_some_iff hnodup).mp hprev) hnext
    · rw [prevOf_eq_some_iff hnodup, hnext, Option.some.injEq]
      rw [prevOf_eq_some_iff hnodup] at hprev
      exact iff_of_false hprev hne.symm
    · rw [prevOf_eq_some_iff hnodup] at hprev ⊢
      refine iff_of_false (fun hkj ↦ ?_) hnext
      have hsame := ((prevOf_eq_some_iff hnodup).mpr hkj).symm.trans
        ((prevOf_eq_some_iff hnodup).mpr hprev)
      exact hk (Option.some.inj hsame)
    · exact (prevOf_eq_some_iff hnodup).symm

/-- The previous one of the last of two or more is the last of the others. -/
theorem prevOf_concat (hnodup : (order ++ [i]).Nodup) :
    prevOf (order ++ [i]) i = order.getLast? := by
  cases order using List.reverseRecOn with
  | nil => rfl
  | append_singleton front last =>
    rw [List.getLast?_concat, prevOf_eq_some_iff hnodup, List.append_assoc, List.singleton_append]
    refine nextOf_append_cons fun hmem ↦ ?_
    have hlast : last ∈ front ++ [last] := List.mem_append_right _ List.mem_cons_self
    rw [List.append_assoc, List.singleton_append] at hnodup
    exact (List.nodup_append.mp hnodup).2.2 last hmem last List.mem_cons_self rfl

theorem getLast?_erase (hnodup : order.Nodup) : (order.erase i).getLast? =
    if order.getLast? = some i then prevOf order i else order.getLast? := by
  cases order using List.reverseRecOn with
  | nil => rfl
  | append_singleton front last =>
    rw [List.getLast?_concat]
    by_cases heq : last = i
    · subst heq
      have hlast : last ∉ front := fun hmem ↦
        (List.nodup_append.mp hnodup).2.2 last hmem last List.mem_cons_self rfl
      rw [List.erase_append_right _ hlast, List.erase_cons_head, List.append_nil, if_pos rfl,
        prevOf_concat hnodup]
    · rw [if_neg fun hsome ↦ heq (Option.some.inj hsome)]
      by_cases hmem : i ∈ front
      · rw [List.erase_append_left _ hmem, List.getLast?_concat]
      · rw [List.erase_append_right _ hmem, List.erase_cons_tail (by rwa [beq_iff_eq]),
          List.erase_nil, List.getLast?_concat]

theorem linksOf_erase (hnodup : order.Nodup) (hne : j ≠ i) :
    linksOf (order.erase i) j =
      relink (relink (linksOf order) (prevOf order i) fun links ↦
        { links with next := nextOf order i }) (nextOf order i)
          (fun links ↦ { links with prev := prevOf order i }) j := by
  have hmem : j ∈ order.erase i ↔ j ∈ order := List.mem_erase_of_ne hne
  unfold relink linksOf
  by_cases hj : j ∈ order
  · rw [if_pos (hmem.mpr hj), if_pos hj, nextOf_erase hnodup hne, prevOf_erase hnodup hne]
    have hprev : prevOf order i = some j ↔ nextOf order j = some i := prevOf_eq_some_iff hnodup
    have hnext : prevOf order j = some i ↔ nextOf order i = some j := prevOf_eq_some_iff hnodup
    simp only [hprev, hnext]
    split_ifs
    · rfl
    · rfl
    · rfl
    · rfl
  · rw [if_neg fun h ↦ hj (hmem.mp h), if_neg hj]
    simp only [Option.map_none, ite_self]

/-! ### One node more -/

omit [DecidableEq ι] in
theorem getLast?_cons : (i :: order).getLast? =
    if order.getLast? = none then some i else order.getLast? := by
  rw [List.getLast?_cons]
  cases order.getLast? with
  | none => rfl
  | some last => rfl

/-- A node with no links yet is put in front. -/
theorem linksOf_cons (hi : i ∉ order) {links : ι → Option (Links ι)}
    (hfirst : links i = some ⟨none, order.head?⟩)
    (hlinks : ∀ j, j ≠ i → links j = linksOf order j) :
    relink links order.head? (fun links ↦ { links with prev := some i }) =
      linksOf (i :: order) := by
  funext j
  unfold relink
  by_cases heq : j = i
  · subst heq
    have hhead : order.head? ≠ some j := fun h ↦ hi (List.mem_of_head? h)
    rw [if_neg hhead, hfirst, linksOf, if_pos List.mem_cons_self,
      prevOf_eq_none (by rwa [List.tail_cons]), nextOf, if_pos rfl]
  · rw [hlinks j heq]
    unfold linksOf
    by_cases hj : j ∈ order
    · rw [if_pos hj, if_pos (List.mem_cons_of_mem _ hj), prevOf, nextOf, if_neg (Ne.symm heq)]
      split_ifs
      · rfl
      · rfl
    · have hcons : j ∉ i :: order := fun h ↦ (List.mem_cons.mp h).elim heq hj
      rw [if_neg hj, if_neg hcons, Option.map_none, ite_self]

end Lithair.Lib.LinkedOrder
