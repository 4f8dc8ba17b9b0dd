import Mathlib.Data.Finmap

/-!
# Maps that store values under a key of their own

A finite map in which every value sits under the key the value itself names (`Keyed`) is what one
gets by inserting a list of values one after the other (`insertAll`). Such a map tells whether a
value was put in its place: inserting `x` under `k` gives the same map as inserting it under its own
key exactly when `k` is that key (`Keyed.insert_eq_insert_iff`).

`insertAll_eq_insertAll_empty_iff` compares inserting a list into a map with building the map from
the list alone: the two agree exactly when the list covers every key the map had. When values are
put under another key than their own, `keyed_insertAll_empty_iff` says which of them have to have
the same.
-/

namespace Lithair.Lib.KeyedMap

variable {κ α : Type*} [DecidableEq κ]

/-- Every value is stored under its own key. -/
def Keyed (key : α → κ) (m : Finmap fun _ : κ ↦ α) : Prop :=
  ∀ k x, m.lookup k = some x → key x = k

/-- Insert the values of a list, first to last, each under its own key. -/
def insertAll (key : α → κ) (items : List α) (m : Finmap fun _ : κ ↦ α) :
    Finmap fun _ : κ ↦ α :=
  items.foldl (fun m x ↦ m.insert (key x) x) m

/-- Change every value, and leave it under its key. -/
def mapValues {β : Type*} (f : α → β) (m : Finmap fun _ : κ ↦ α) : Finmap fun _ : κ ↦ β where
  entries := m.entries.map (Sigma.map id fun _ ↦ f)
  nodupKeys := by
    refine Finmap.induction_on m fun entries ↦ ?_
    exact entries.nodupKeys.map₂ (fun _ ↦ f) entries.entries

variable {key : α → κ} {m : Finmap fun _ : κ ↦ α}

theorem lookup_mapValues {β : Type*} (f : α → β) (m : Finmap fun _ : κ ↦ α) (k : κ) :
    (mapValues f m).lookup k = (m.lookup k).map f := by
  refine Finmap.induction_on m fun entries ↦ ?_
  exact List.dlookup_map₂ k

@[simp] theorem insertAll_nil : insertAll key [] m = m := rfl

@[simp] theorem insertAll_cons (x : α) (items : List α) :
    insertAll key (x :: items) m = insertAll key items (m.insert (key x) x) := rfl

theorem insertAll_append (first second : List α) :
    insertAll key (first ++ second) m = insertAll key second (insertAll key first m) :=
  List.foldl_append

theorem keyed_empty : Keyed key ∅ := by
  intro k x h
  rw [Finmap.lookup_empty] at h
  exact absurd h (Option.some_ne_none x).symm

theorem Keyed.insert (h : Keyed key m) (x : α) : Keyed key (m.insert (key x) x) := by
  intro k y hy
  by_cases hk : k = key x
  · rw [hk, Finmap.lookup_insert, Option.some.injEq] at hy
    rw [hk, hy]
  · rw [Finmap.lookup_insert_of_ne _ hk] at hy
    exact h k y hy

theorem Keyed.insertAll (h : Keyed key m) (items : List α) : Keyed key (insertAll key items m) := by
  induction items generalizing m with
  | nil => exact h
  | cons x rest ih => exact ih (h.insert x)

/-- Inserting a value keeps a map keyed exactly when it goes under its own key. -/
theorem Keyed.insert_iff (h : Keyed key m) {k : κ} {x : α} :
    Keyed key (m.insert k x) ↔ key x = k := by
  constructor
  · intro hkeyed
    exact hkeyed k x (Finmap.lookup_insert _)
  · rintro rfl
    exact h.insert x

theorem Keyed.erase (h : Keyed key m) (k : κ) : Keyed key (m.erase k) := by
  intro l x hx
  by_cases hl : l = k
  · rw [hl, Finmap.lookup_erase] at hx
    exact absurd hx (Option.some_ne_none x).symm
  · rw [Finmap.lookup_erase_ne hl] at hx
    exact h l x hx

/-- No value is in a keyed map twice. -/
theorem Keyed.eq_of_lookup (h : Keyed key m) {k l : κ} {x : α} (hk : m.lookup k = some x)
    (hl : m.lookup l = some x) : k = l :=
  (h k x hk).symm.trans (h l x hl)

/-- In a keyed map, only its own key is the right place for a value. -/
theorem Keyed.insert_eq_insert_iff (h : Keyed key m) {k : κ} {x : α} :
    m.insert (key x) x = m.insert k x ↔ k = key x := by
  refine ⟨fun heq ↦ ?_, fun hk ↦ hk ▸ rfl⟩
  by_contra hk
  have hlookup : (m.insert (key x) x).lookup k = some x := by
    rw [heq, Finmap.lookup_insert]
  rw [Finmap.lookup_insert_of_ne _ hk] at hlookup
  exact hk (h k x hlookup).symm

theorem eq_insert_iff {k : κ} {x : α} : m = m.insert k x ↔ m.lookup k = some x := by
  refine ⟨fun h ↦ ?_, fun h ↦ Finmap.ext_lookup fun l ↦ ?_⟩
  · rw [h, Finmap.lookup_insert]
  · by_cases hl : l = k
    · rw [hl, Finmap.lookup_insert, h]
    · rw [Finmap.lookup_insert_of_ne _ hl]

theorem ne_erase {k : κ} {x : α} (h : m.lookup k = some x) : m ≠ m.erase k := by
  intro heq
  rw [heq, Finmap.lookup_erase] at h
  exact absurd h (Option.some_ne_none x).symm

/-- Keys that the list does not have keep the value of the map. -/
theorem lookup_insertAll_of_notMem {items : List α} {k : κ} (h : k ∉ items.map key) :
    (insertAll key items m).lookup k = m.lookup k := by
  induction items generalizing m with
  | nil => rfl
  | cons x rest ih =>
    rw [List.map_cons, List.mem_cons, not_or] at h
    rw [insertAll_cons, ih h.2, Finmap.lookup_insert_of_ne _ h.1]

/-- Keys of the list have a value that does not depend on the map. -/
theorem lookup_insertAll_of_mem {items : List α} {k : κ} (h : k ∈ items.map key)
    (other : Finmap fun _ : κ ↦ α) :
    (insertAll key items m).lookup k = (insertAll key items other).lookup k := by
  induction items generalizing m other with
  | nil => exact absurd h List.not_mem_nil
  | cons x rest ih =>
    rw [insertAll_cons, insertAll_cons]
    by_cases hrest : k ∈ rest.map key
    · exact ih hrest _
    · rw [List.map_cons, List.mem_cons, or_iff_left hrest] at h
      rw [lookup_insertAll_of_notMem hrest, lookup_insertAll_of_notMem hrest, h,
        Finmap.lookup_insert, Finmap.lookup_insert]

/-- A key has the value of the list that comes last for it, or else the one the map has. -/
theorem lookup_insertAll_eq_some_iff {items : List α} {k : κ} {x : α} :
    (insertAll key items m).lookup k = some x ↔
      (∃ before after, items = before ++ x :: after ∧ key x = k ∧ k ∉ after.map key) ∨
        k ∉ items.map key ∧ m.lookup k = some x := by
  induction items generalizing m with
  | nil => simp
  | cons y rest ih =>
    have hsplit : (∃ before after, y :: rest = before ++ x :: after ∧ key x = k ∧
          k ∉ after.map key) ↔
        (y = x ∧ key x = k ∧ k ∉ rest.map key) ∨
          ∃ before after, rest = before ++ x :: after ∧ key x = k ∧ k ∉ after.map key := by
      constructor
      · rintro ⟨before, after, hitems, hx, hafter⟩
        cases before with
        | nil =>
          obtain ⟨rfl, rfl⟩ := List.cons.inj hitems
          exact Or.inl ⟨rfl, hx, hafter⟩
        | cons z before =>
          exact Or.inr ⟨before, after, (List.cons.inj hitems).2, hx, hafter⟩
      · rintro (⟨rfl, hx, hafter⟩ | ⟨before, after, rfl, hx, hafter⟩)
        · exact ⟨[], rest, rfl, hx, hafter⟩
        · exact ⟨y :: before, after, rfl, hx, hafter⟩
    rw [insertAll_cons, ih, hsplit, List.map_cons, List.mem_cons, not_or]
    by_cases hk : k = key y
    · rw [hk, Finmap.lookup_insert, Option.some.injEq]
      constructor
      · rintro (hlater | ⟨hrest, rfl⟩)
        · exact Or.inl (Or.inr hlater)
        · exact Or.inl (Or.inl ⟨rfl, rfl, hrest⟩)
      · rintro ((⟨rfl, -, hrest⟩ | hlater) | ⟨⟨hy, -⟩, -⟩)
        · exact Or.inr ⟨hrest, rfl⟩
        · exact Or.inl hlater
        · exact absurd rfl hy
    · rw [Finmap.lookup_insert_of_ne _ hk]
      constructor
      · rintro (hlater | ⟨hrest, hm⟩)
        · exact Or.inl (Or.inr hlater)
        · exact Or.inr ⟨⟨hk, hrest⟩, hm⟩
      · rintro ((⟨rfl, hx, -⟩ | hlater) | ⟨⟨-, hrest⟩, hm⟩)
        · exact absurd hx.symm hk
        · exact Or.inl hlater
        · exact Or.inr ⟨hrest, hm⟩

/-- A map built from a list by inserting each value at its place is keyed exactly when each value
that is the last for its place has that place as its key. -/
theorem keyed_insertAll_empty_iff {place : α → κ} {items : List α} :
    Keyed key (insertAll place items ∅) ↔
      ∀ before x after, items = before ++ x :: after → place x ∉ after.map place →
        key x = place x := by
  constructor
  · intro hkeyed before x after hitems hafter
    exact hkeyed (place x) x
      (lookup_insertAll_eq_some_iff.mpr (Or.inl ⟨before, after, hitems, rfl, hafter⟩))
  · intro h k x hx
    rcases lookup_insertAll_eq_some_iff.mp hx with ⟨before, after, hitems, rfl, hafter⟩ | ⟨-, hm⟩
    · exact h before x after hitems hafter
    · rw [Finmap.lookup_empty] at hm
      exact absurd hm (Option.some_ne_none x).symm

theorem mem_insertAll {items : List α} {k : κ} :
    k ∈ insertAll key items m ↔ k ∈ items.map key ∨ k ∈ m := by
  induction items generalizing m with
  | nil => simp
  | cons x rest ih =>
    rw [insertAll_cons, ih, Finmap.mem_insert, List.map_cons, List.mem_cons]
    tauto

/-- Inserting a list into a map gives the map of the list alone exactly when the list has every key
of the map. -/
theorem insertAll_eq_insertAll_empty_iff {items : List α} :
    insertAll key items m = insertAll key items ∅ ↔ ∀ k ∈ m, k ∈ items.map key := by
  constructor
  · intro heq k hk
    have hmem : k ∈ insertAll key items ∅ := heq ▸ mem_insertAll.mpr (Or.inr hk)
    exact (mem_insertAll.mp hmem).elim id fun h ↦ absurd h Finmap.notMem_empty
  · intro h
    refine Finmap.ext_lookup fun k ↦ ?_
    by_cases hk : k ∈ items.map key
    · exact lookup_insertAll_of_mem hk ∅
    · have hnone : k ∉ m := fun hmem ↦ hk (h k hmem)
      rw [lookup_insertAll_of_notMem hk, lookup_insertAll_of_notMem hk,
        Finmap.lookup_eq_none.mpr hnone, Finmap.lookup_empty]

/-- The map has the last value of the list for every key of the list. -/
def Holds (key : α → κ) (items : List α) (m : Finmap fun _ : κ ↦ α) : Prop :=
  ∀ k ∈ items.map key, m.lookup k = (insertAll key items ∅).lookup k

/-- Inserting a list changes nothing exactly when the map has its values already. -/
theorem insertAll_eq_self_iff {items : List α} :
    insertAll key items m = m ↔ Holds key items m := by
  constructor
  · intro heq k hk
    have hlookup : (insertAll key items m).lookup k = (insertAll key items ∅).lookup k :=
      lookup_insertAll_of_mem hk ∅
    rw [← hlookup, heq]
  · intro h
    refine Finmap.ext_lookup fun k ↦ ?_
    by_cases hk : k ∈ items.map key
    · rw [lookup_insertAll_of_mem hk ∅]
      exact (h k hk).symm
    · exact lookup_insertAll_of_notMem hk

/-- Lists that give the same map, inserted one after the other, give that map. -/
theorem insertAll_flatten_empty {lists : List (List α)}
    (h : ∀ items ∈ lists, ∀ other ∈ lists, insertAll key items ∅ = insertAll key other ∅)
    {items : List α} (hitems : items ∈ lists) :
    insertAll key lists.flatten ∅ = insertAll key items ∅ := by
  induction lists generalizing items with
  | nil => exact absurd hitems List.not_mem_nil
  | cons first rest ih =>
    rw [List.flatten_cons, insertAll_append]
    cases rest with
    | nil =>
      obtain rfl := List.mem_singleton.mp hitems
      rfl
    | cons second rest =>
      have hsecond : second ∈ second :: rest := List.mem_cons_self
      have hrest := ih
        (fun a ha b hb ↦ h a (List.mem_cons_of_mem _ ha) b (List.mem_cons_of_mem _ hb)) hsecond
      rw [insertAll_eq_insertAll_empty_iff.mpr ?_, hrest]
      · exact h second (List.mem_cons_of_mem _ hsecond) items hitems
      · intro k hk
        rw [h first List.mem_cons_self second (List.mem_cons_of_mem _ hsecond)] at hk
        have hmem : k ∈ second.map key :=
          (mem_insertAll.mp hk).resolve_right Finmap.notMem_empty
        rw [List.flatten_cons, List.map_append]
        exact List.mem_append_left _ hmem

/-- Lists inserted one after the other into a map give what each of them gives alone exactly when
each has every key of the map and all give the same. -/
theorem insertAll_flatten_eq_iff {lists : List (List α)} :
    (∀ items ∈ lists, insertAll key lists.flatten m = insertAll key items ∅) ↔
      (∀ items ∈ lists, ∀ k ∈ m, k ∈ items.map key) ∧
        ∀ items ∈ lists, ∀ other ∈ lists, insertAll key items ∅ = insertAll key other ∅ := by
  constructor
  · intro h
    refine ⟨fun items hitems k hk ↦ ?_, fun items hitems other hother ↦ ?_⟩
    · have hmem : k ∈ insertAll key items ∅ := h items hitems ▸ mem_insertAll.mpr (Or.inr hk)
      exact (mem_insertAll.mp hmem).resolve_right Finmap.notMem_empty
    · exact (h items hitems).symm.trans (h other hother)
  · rintro ⟨hcovers, hagree⟩ items hitems
    rw [← insertAll_flatten_empty hagree hitems, insertAll_eq_insertAll_empty_iff]
    intro k hk
    rw [List.map_flatten]
    exact List.mem_flatten.mpr ⟨_, List.mem_map_of_mem hitems, hcovers items hitems k hk⟩

end Lithair.Lib.KeyedMap
