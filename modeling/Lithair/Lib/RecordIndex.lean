import Mathlib.Data.List.Sort

/-!
# Where the records of a file start

A file is the records of values one behind the other, and an index has the places where those of
some of the values start. `Indexed` says that the places in a list are those of the values in
another, in their order and each at a place of its own. When the values can be told from the file,
a list with as many places as it has values is the list of where they start (`eq_startsOf`).
-/

namespace Lithair.Lib.RecordIndex

variable {α β : Type*} (record : α → List β)

/-- The bytes are records, and the one of the value starts at the place. -/
def RecordAt (content : List β) (offset : ℕ) (a : α) : Prop :=
  ∃ front later : List α, content = front.flatMap record ++ (record a ++ later.flatMap record) ∧
    (front.flatMap record).length = offset

/-- The places are those of the values, in their order, and no two are the same. -/
structure Indexed (content : List β) (offsets : List ℕ) (values : List α) : Prop where
  places : List.Forall₂ (RecordAt record content) offsets values
  increasing : offsets.Pairwise (· < ·)

/-- The values with the places where their records start. -/
def starts : ℕ → List α → List (α × ℕ)
  | _, [] => []
  | base, a :: rest => (a, base) :: starts (base + (record a).length) rest

/-- The places of some of the values. -/
def startsOf (p : α → Bool) (values : List α) : List ℕ :=
  ((starts record 0 values).filter fun entry ↦ p entry.1).map Prod.snd

variable {record} {base offset : ℕ} {values first second : List α} {a : α}

theorem starts_append : starts record base (first ++ second) =
    starts record base first ++ starts record (base + (first.flatMap record).length) second := by
  induction first generalizing base with
  | nil => rfl
  | cons a first ih =>
    rw [List.cons_append, starts, starts, ih, List.flatMap_cons, List.length_append, Nat.add_assoc]
    rfl

theorem startsOf_append (p : α → Bool) : startsOf record p (first ++ second) =
    startsOf record p first ++
      ((starts record (first.flatMap record).length second).filter fun entry ↦ p entry.1).map
        Prod.snd := by
  rw [startsOf, starts_append, Nat.zero_add, List.filter_append, List.map_append]
  rfl

theorem startsOf_concat (p : α → Bool) : startsOf record p (values ++ [a]) =
    startsOf record p values ++ if p a then [(values.flatMap record).length] else [] := by
  rw [startsOf_append, starts, starts]
  cases hp : p a <;> simp [hp]

theorem map_fst_starts (base : ℕ) (values : List α) :
    (starts record base values).map Prod.fst = values := by
  induction values generalizing base with
  | nil => rfl
  | cons a rest ih => rw [starts, List.map_cons, ih]

theorem length_startsOf (p : α → Bool) : (startsOf record p values).length =
    (values.filter p).length := by
  have hvalues : (starts record 0 values).map Prod.fst = values := map_fst_starts 0 values
  calc (startsOf record p values).length
      = ((starts record 0 values).filter fun entry ↦ p entry.1).length := List.length_map ..
    _ = (((starts record 0 values).map Prod.fst).filter p).length := by
        rw [List.filter_map, List.length_map]
        rfl
    _ = (values.filter p).length := by rw [hvalues]

theorem startsOf_eq_nil_iff {p : α → Bool} :
    startsOf record p values = [] ↔ values.filter p = [] := by
  rw [← List.length_eq_zero_iff, length_startsOf, List.length_eq_zero_iff]

theorem mem_starts_iff : (a, offset) ∈ starts record base values ↔
    ∃ front later, values = front ++ a :: later ∧
      offset = base + (front.flatMap record).length := by
  induction values generalizing base with
  | nil => simp [starts]
  | cons b rest ih =>
    rw [starts, List.mem_cons, ih, Prod.mk.injEq]
    constructor
    · rintro (⟨rfl, rfl⟩ | ⟨front, later, rfl, rfl⟩)
      · exact ⟨[], rest, rfl, rfl⟩
      · refine ⟨b :: front, later, rfl, ?_⟩
        rw [List.flatMap_cons, List.length_append, Nat.add_assoc]
    · rintro ⟨front, later, hsplit, rfl⟩
      cases front with
      | nil =>
        obtain ⟨rfl, rfl⟩ := List.cons.inj hsplit
        exact Or.inl ⟨rfl, rfl⟩
      | cons c front =>
        obtain ⟨rfl, rfl⟩ := List.cons.inj hsplit
        refine Or.inr ⟨front, later, rfl, ?_⟩
        rw [List.flatMap_cons, List.length_append, Nat.add_assoc]

theorem recordAt_of_mem_starts (h : (a, offset) ∈ starts record 0 values) :
    RecordAt record (values.flatMap record) offset a := by
  obtain ⟨front, later, rfl, rfl⟩ := mem_starts_iff.mp h
  refine ⟨front, later, ?_, (Nat.zero_add _).symm⟩
  rw [List.flatMap_append, List.flatMap_cons]

/-- The places of values in a file are where their records start. -/
theorem forall₂_startsOf (p : α → Bool) :
    List.Forall₂ (RecordAt record (values.flatMap record)) (startsOf record p values)
      (values.filter p) := by
  have hall : ∀ entries : List (α × ℕ),
      (∀ entry ∈ entries, RecordAt record (values.flatMap record) entry.2 entry.1) →
        List.Forall₂ (RecordAt record (values.flatMap record))
          ((entries.filter fun entry ↦ p entry.1).map Prod.snd)
          ((entries.map Prod.fst).filter p) := by
    intro entries
    induction entries with
    | nil => exact fun _ ↦ List.Forall₂.nil
    | cons entry rest ih =>
      intro hentries
      have hrest := ih fun other hother ↦ hentries other (List.mem_cons_of_mem _ hother)
      rw [List.map_cons]
      by_cases hp : p entry.1 = true
      · rw [List.filter_cons_of_pos hp, List.filter_cons_of_pos (by exact hp), List.map_cons]
        exact List.Forall₂.cons (hentries entry List.mem_cons_self) hrest
      · rw [List.filter_cons_of_neg hp, List.filter_cons_of_neg (by exact hp)]
        exact hrest
  have hstarts := hall (starts record 0 values) fun entry hentry ↦ recordAt_of_mem_starts hentry
  rwa [map_fst_starts] at hstarts

section Increasing

variable (hrecord : ∀ a, record a ≠ [])

include hrecord

theorem pairwise_starts : (starts record base values).Pairwise fun p q ↦ p.2 < q.2 := by
  induction values generalizing base with
  | nil => exact List.Pairwise.nil
  | cons a rest ih =>
    refine List.Pairwise.cons ?_ ih
    rintro ⟨b, offset⟩ hmem
    obtain ⟨front, later, -, rfl⟩ := mem_starts_iff.mp hmem
    have hpos := List.length_pos_of_ne_nil (hrecord a)
    show base < base + (record a).length + _
    omega

theorem pairwise_startsOf (p : α → Bool) : (startsOf record p values).Pairwise (· < ·) :=
  List.pairwise_map.mpr ((pairwise_starts hrecord).filter _)

theorem indexed_startsOf (p : α → Bool) : Indexed record (values.flatMap record)
    (startsOf record p values) (values.filter p) :=
  ⟨forall₂_startsOf p, pairwise_startsOf hrecord p⟩

/-- Places of values, of which there are as many at least as in the file, are the places of those
in the file, and there are no more of them. -/
theorem Indexed.eq_startsOf {p : α → Bool} {offsets : List ℕ} {found : List α}
    (hinjective : Function.Injective fun l : List α ↦ l.flatMap record)
    (h : Indexed record (values.flatMap record) offsets found) (hfound : ∀ b ∈ found, p b = true)
    (hlength : (values.filter p).length ≤ found.length) :
    offsets = startsOf record p values ∧ found.length = (values.filter p).length := by
  have hsubset : offsets ⊆ startsOf record p values := by
    intro offset hoffset
    obtain ⟨b, hb, front, later, hcontent, rfl⟩ :
        ∃ b ∈ found, RecordAt record (values.flatMap record) offset b := by
      obtain ⟨i, hi, rfl⟩ := List.mem_iff_getElem.mp hoffset
      have hi' : i < found.length := h.places.length_eq ▸ hi
      exact ⟨found[i], List.getElem_mem hi', h.places.get hi hi'⟩
    have hvalues : values = front ++ b :: later := by
      refine hinjective ?_
      show values.flatMap record = (front ++ b :: later).flatMap record
      rw [hcontent, List.flatMap_append, List.flatMap_cons]
    have hstart : (b, (front.flatMap record).length) ∈ starts record 0 values :=
      mem_starts_iff.mpr ⟨front, later, hvalues, (Nat.zero_add _).symm⟩
    exact List.mem_map.mpr ⟨_, List.mem_filter.mpr ⟨hstart, hfound b hb⟩, rfl⟩
  have hoffsets : offsets.length = found.length := h.places.length_eq
  have hnodup : offsets.Nodup := h.increasing.imp fun hlt ↦ Nat.ne_of_lt hlt
  have hle := (List.subperm_of_subset hnodup hsubset).length_le
  rw [length_startsOf] at hle
  have hperm : offsets.Perm (startsOf record p values) :=
    (List.subperm_of_subset hnodup hsubset).perm_of_length_le (by
      rw [length_startsOf]
      omega)
  refine ⟨hperm.eq_of_pairwise (fun _ _ _ _ hlt hgt ↦ absurd hlt (Nat.lt_asymm hgt)) h.increasing
    (pairwise_startsOf hrecord p), by omega⟩

end Increasing

end Lithair.Lib.RecordIndex
