import Lithair.Lib.History
import Lithair.Lib.KeyedMap
import Lithair.Lib.Run

/-!
# Filter lists

The values that are blocked in a category are kept in two tables, one with what is known about each
value and an older one without. A value is blocked when it is in either. An entry that is removed is
taken out of one of them, a list that is replaced is replaced in one of them, and the statistics add
up both: the tables stand for one set of values in each category exactly as long as no value is put
in one table that is in the other, and none is replaced while the other has values
(`always_refines_iff`).
-/

namespace Lithair.Proxy.Filtering

open Lib.History Lib.KeyedMap Lib.Run

structure EntryMetadata where
  source_name : String
  category : Option String
  source_url : String
  last_updated : ℕ

structure FilterEntry where
  value : String
  metadata : EntryMetadata

def FilterEntry.manual (value : String) (category : Option String) (now : ℕ) : FilterEntry :=
  ⟨value, "Manual Entry", category, "API", now⟩

structure BlockInfo where
  entry : FilterEntry
  category : String

structure BlockResult where
  blocked : Bool
  block_info : Option BlockInfo

structure FilterListManager where
  legacy_lists : Finmap fun _ : String ↦ Finset String
  enhanced_lists : Finmap fun _ : String ↦ Finmap fun _ : String ↦ FilterEntry

namespace FilterListManager

def new : FilterListManager := ⟨∅, ∅⟩

variable (m : FilterListManager) (category : String)

/-- The values of a category in the table that knows more about them. -/
def enhancedValues : Finset String := ((m.enhanced_lists.lookup category).getD ∅).keys

/-- The values of a category in the older table. -/
def legacyValues : Finset String := (m.legacy_lists.lookup category).getD ∅

def addLegacyEntries (values : List String) : FilterListManager :=
  let list := (m.legacy_lists.lookup category).getD ∅
  { m with
    legacy_lists := m.legacy_lists.insert category (values.foldl (fun l v ↦ insert v l) list) }

def addEntries (entries : List FilterEntry) : FilterListManager :=
  let list := (m.enhanced_lists.lookup category).getD ∅
  { m with
    enhanced_lists :=
      m.enhanced_lists.insert category (insertAll FilterEntry.value entries list) }

def checkBlock (value : String) (now : ℕ) : BlockResult :=
  match (m.enhanced_lists.lookup category).bind fun entries ↦ entries.lookup value with
  | some entry => ⟨true, some ⟨entry, category⟩⟩
  | none =>
    match m.legacy_lists.lookup category with
    | some values =>
      if value ∈ values then
        ⟨true, some ⟨FilterEntry.manual value (some "legacy") now, category⟩⟩
      else ⟨false, none⟩
    | none => ⟨false, none⟩

def removeEnhanced (value : String) : FilterListManager :=
  match m.enhanced_lists.lookup category with
  | some entries =>
    { m with enhanced_lists := m.enhanced_lists.insert category (entries.erase value) }
  | none => m

def removeLegacy (value : String) : FilterListManager :=
  match m.legacy_lists.lookup category with
  | some values => { m with legacy_lists := m.legacy_lists.insert category (values.erase value) }
  | none => m

/-- The older table is looked at only when nothing was removed from the other. -/
def removeEntry (value : String) : FilterListManager × Bool :=
  if value ∈ m.enhancedValues category then (m.removeEnhanced category value, true)
  else
    ((m.removeEnhanced category value).removeLegacy category value,
      decide (value ∈ m.legacyValues category))

def clearCategory : FilterListManager :=
  ⟨m.legacy_lists.erase category, m.enhanced_lists.erase category⟩

def getStats : Option ℕ :=
  let stats := (m.enhanced_lists.lookup category).map fun entries ↦ entries.keys.card
  match m.legacy_lists.lookup category with
  | some values => some (stats.getD 0 + values.card)
  | none => stats

def replaceCategoryLegacy (entries : Finset String) : FilterListManager :=
  { m with legacy_lists := m.legacy_lists.insert category entries }

def replaceCategoryEnhanced (entries : List FilterEntry) : FilterListManager :=
  { m with
    enhanced_lists := m.enhanced_lists.insert category (insertAll FilterEntry.value entries ∅) }

end FilterListManager

/-! ### Calls -/

inductive Call
  | addLegacyEntries (category : String) (values : List String)
  | addEntries (category : String) (entries : List FilterEntry)
  | removeEntry (category value : String)
  | clearCategory (category : String)
  | replaceCategoryLegacy (category : String) (entries : Finset String)
  | replaceCategoryEnhanced (category : String) (entries : List FilterEntry)

namespace Call

def apply (m : FilterListManager) : Call → FilterListManager
  | addLegacyEntries category values => m.addLegacyEntries category values
  | addEntries category entries => m.addEntries category entries
  | removeEntry category value => (m.removeEntry category value).1
  | clearCategory category => m.clearCategory category
  | replaceCategoryLegacy category entries => m.replaceCategoryLegacy category entries
  | replaceCategoryEnhanced category entries => m.replaceCategoryEnhanced category entries

/-- The call says whether the value is in the category: it adds or removes it, or is about all of
the category. -/
def Decides (category value : String) : Call → Prop
  | addLegacyEntries c values => category = c ∧ value ∈ values
  | addEntries c entries => category = c ∧ value ∈ entries.map FilterEntry.value
  | removeEntry c v => category = c ∧ value = v
  | clearCategory c => category = c
  | replaceCategoryLegacy c _ => category = c
  | replaceCategoryEnhanced c _ => category = c

/-- The value is among those that the call puts in. -/
def Puts (value : String) : Call → Prop
  | addLegacyEntries _ values => value ∈ values
  | addEntries _ entries => value ∈ entries.map FilterEntry.value
  | removeEntry _ _ => False
  | clearCategory _ => False
  | replaceCategoryLegacy _ entries => value ∈ entries
  | replaceCategoryEnhanced _ entries => value ∈ entries.map FilterEntry.value

end Call

/-- The value was put in the category, and has not been removed, cleared or replaced since. -/
def Listed (calls : List Call) (category value : String) : Prop :=
  Latest (fun _ call ↦ call.Decides category value) (fun _ call ↦ call.Puts value) calls

/-- The manager and the calls that it has had. -/
structure State where
  manager : FilterListManager
  calls : List Call

def start : State := ⟨.new, []⟩

def step (s : State) (call : Call) : Option State :=
  some ⟨call.apply s.manager, s.calls ++ [call]⟩

/-- In each category there is one set of values: those that are listed are the ones that are
blocked, and each is counted once. -/
def Refines (s : State) : Prop :=
  ∀ category, ∃ values : Finset String,
    (∀ value, value ∈ values ↔ Listed s.calls category value) ∧
      (∀ value now, (s.manager.checkBlock category value now).blocked = true ↔ value ∈ values) ∧
        (s.manager.getStats category).getD 0 = values.card

/-- The call puts no value in one table that is in the other, and replaces no table while the other
has values of the category. -/
def Apart (s : State) : Call → Prop
  | .addLegacyEntries category values =>
    ∀ value ∈ values, value ∉ s.manager.enhancedValues category
  | .addEntries category entries =>
    ∀ value ∈ entries.map FilterEntry.value, value ∉ s.manager.legacyValues category
  | .removeEntry _ _ => True
  | .clearCategory _ => True
  | .replaceCategoryLegacy category _ => s.manager.enhancedValues category = ∅
  | .replaceCategoryEnhanced category _ => s.manager.legacyValues category = ∅

namespace FilterListManager

variable {m : FilterListManager} {category other : String}

theorem blocked_checkBlock (value : String) (now : ℕ) :
    (m.checkBlock category value now).blocked = true ↔
      value ∈ m.enhancedValues category ∨ value ∈ m.legacyValues category := by
  have henhanced : value ∈ m.enhancedValues category ↔
      ((m.enhanced_lists.lookup category).bind
        fun entries ↦ entries.lookup value).isSome = true := by
    unfold enhancedValues
    cases m.enhanced_lists.lookup category with
    | none => simp
    | some entries => simp [Finmap.mem_keys, Finmap.lookup_isSome]
  rw [henhanced, checkBlock, legacyValues]
  cases (m.enhanced_lists.lookup category).bind fun entries ↦ entries.lookup value with
  | some entry => simp
  | none =>
    cases m.legacy_lists.lookup category with
    | none => simp
    | some values =>
      by_cases hmem : value ∈ values
      · simp [hmem]
      · simp [hmem]

theorem getD_getStats : (m.getStats category).getD 0 =
    (m.enhancedValues category).card + (m.legacyValues category).card := by
  unfold getStats enhancedValues legacyValues
  cases m.enhanced_lists.lookup category <;> cases m.legacy_lists.lookup category <;> simp

/-! What each call makes of the two tables of a category, and that it leaves those of the others. -/

section Tables

variable (lists : Finmap fun _ : String ↦ Finset String)
  (enhanced : Finmap fun _ : String ↦ Finmap fun _ : String ↦ FilterEntry)

theorem legacyValues_insert (values : Finset String) :
    legacyValues ⟨lists.insert category values, enhanced⟩ other =
      if other = category then values else legacyValues ⟨lists, enhanced⟩ other := by
  rw [legacyValues, legacyValues]
  split_ifs with h
  · rw [h, Finmap.lookup_insert, Option.getD_some]
  · rw [Finmap.lookup_insert_of_ne _ h]

theorem enhancedValues_insert (entries : Finmap fun _ : String ↦ FilterEntry) :
    enhancedValues ⟨lists, enhanced.insert category entries⟩ other =
      if other = category then entries.keys else enhancedValues ⟨lists, enhanced⟩ other := by
  rw [enhancedValues, enhancedValues]
  split_ifs with h
  · rw [h, Finmap.lookup_insert, Option.getD_some]
  · rw [Finmap.lookup_insert_of_ne _ h]

end Tables

theorem mem_foldl_insert {values : List String} {list : Finset String} {value : String} :
    value ∈ values.foldl (fun l v ↦ insert v l) list ↔ value ∈ list ∨ value ∈ values := by
  induction values generalizing list with
  | nil => simp
  | cons v values ih =>
    rw [List.foldl_cons, ih, Finset.mem_insert, List.mem_cons]
    tauto

theorem enhancedValues_removeEnhanced (value : String) :
    (m.removeEnhanced category value).enhancedValues other =
      if other = category then (m.enhancedValues other).erase value
      else m.enhancedValues other := by
  unfold removeEnhanced
  cases hlookup : m.enhanced_lists.lookup category with
  | none =>
    split_ifs with h
    · rw [h, enhancedValues, hlookup]
      rfl
    · rfl
  | some entries =>
    rw [enhancedValues_insert]
    split_ifs with h
    · rw [h, enhancedValues, hlookup]
      ext v
      simp [Finmap.mem_keys]
    · rfl

theorem legacyValues_removeEnhanced (value : String) :
    (m.removeEnhanced category value).legacyValues other = m.legacyValues other := by
  unfold removeEnhanced
  cases m.enhanced_lists.lookup category <;> rfl

theorem legacyValues_removeLegacy (value : String) :
    (m.removeLegacy category value).legacyValues other =
      if other = category then (m.legacyValues other).erase value else m.legacyValues other := by
  unfold removeLegacy
  cases hlookup : m.legacy_lists.lookup category with
  | none =>
    split_ifs with h
    · rw [h, legacyValues, hlookup]
      rfl
    · rfl
  | some values =>
    rw [legacyValues_insert]
    split_ifs with h
    · rw [h, legacyValues, hlookup]
      rfl
    · rfl

theorem enhancedValues_removeLegacy (value : String) :
    (m.removeLegacy category value).enhancedValues other = m.enhancedValues other := by
  unfold removeLegacy
  cases m.legacy_lists.lookup category <;> rfl

theorem mem_legacyValues_addLegacyEntries {values : List String} {value : String} :
    value ∈ (m.addLegacyEntries category values).legacyValues other ↔
      value ∈ m.legacyValues other ∨ other = category ∧ value ∈ values := by
  rw [addLegacyEntries, legacyValues_insert]
  split_ifs with h
  · rw [mem_foldl_insert, h, legacyValues]
    simp
  · simp [h]

theorem mem_enhancedValues_addEntries {entries : List FilterEntry} {value : String} :
    value ∈ (m.addEntries category entries).enhancedValues other ↔
      value ∈ m.enhancedValues other ∨
        other = category ∧ value ∈ entries.map FilterEntry.value := by
  rw [addEntries, enhancedValues_insert]
  split_ifs with h
  · rw [Finmap.mem_keys, mem_insertAll, h, enhancedValues, Finmap.mem_keys]
    tauto
  · simp [h]

theorem values_removeEntry (m : FilterListManager) (category value other : String) :
    (m.removeEntry category value).1.enhancedValues other =
        (if other = category then (m.enhancedValues other).erase value
          else m.enhancedValues other) ∧
      (m.removeEntry category value).1.legacyValues other =
        if other = category ∧ value ∉ m.enhancedValues category then
          (m.legacyValues other).erase value
        else m.legacyValues other := by
  unfold removeEntry
  split_ifs with hmem <;>
    simp_all [enhancedValues_removeEnhanced, legacyValues_removeEnhanced,
      enhancedValues_removeLegacy, legacyValues_removeLegacy]

theorem values_clearCategory (m : FilterListManager) (category other : String) :
    (m.clearCategory category).enhancedValues other =
        (if other = category then ∅ else m.enhancedValues other) ∧
      (m.clearCategory category).legacyValues other =
        if other = category then ∅ else m.legacyValues other := by
  unfold clearCategory enhancedValues legacyValues
  split_ifs with h
  · rw [h, Finmap.lookup_erase, Finmap.lookup_erase]
    exact ⟨rfl, rfl⟩
  · rw [Finmap.lookup_erase_ne h, Finmap.lookup_erase_ne h]
    exact ⟨rfl, rfl⟩

theorem mem_enhancedValues_replaceCategoryEnhanced {entries : List FilterEntry} {value : String} :
    value ∈ (m.replaceCategoryEnhanced category entries).enhancedValues other ↔
      if other = category then value ∈ entries.map FilterEntry.value
      else value ∈ m.enhancedValues other := by
  rw [replaceCategoryEnhanced, enhancedValues_insert]
  split_ifs with h
  · rw [Finmap.mem_keys, mem_insertAll]
    exact or_iff_left Finmap.notMem_empty
  · rfl

end FilterListManager

/-! ### One set of values -/

theorem listed_concat (calls : List Call) (call : Call) (category value : String) :
    Listed (calls ++ [call]) category value ↔
      call.Decides category value ∧ call.Puts value ∨
        ¬ call.Decides category value ∧ Listed calls category value :=
  latest_concat calls call

/-- The tables stand for the listed values when they have no value in common. -/
theorem refines_iff {s : State} :
    Refines s ↔ ∀ category,
      (∀ value, value ∈ s.manager.enhancedValues category ∨
          value ∈ s.manager.legacyValues category ↔
        Listed s.calls category value) ∧
      Disjoint (s.manager.enhancedValues category) (s.manager.legacyValues category) := by
  refine forall_congr' fun category ↦ ?_
  constructor
  · rintro ⟨values, hlisted, hblocked, hstats⟩
    have hvalues : values =
        s.manager.enhancedValues category ∪ s.manager.legacyValues category := by
      ext value
      rw [← hblocked value 0, FilterListManager.blocked_checkBlock, Finset.mem_union]
    refine ⟨fun value ↦ ?_, ?_⟩
    · rw [← hlisted, hvalues, Finset.mem_union]
    · rw [FilterListManager.getD_getStats, hvalues] at hstats
      exact Finset.card_union_eq_card_add_card.mp hstats.symm
  · rintro ⟨hlisted, hdisjoint⟩
    refine ⟨s.manager.enhancedValues category ∪ s.manager.legacyValues category,
      fun value ↦ ?_, fun value now ↦ ?_, ?_⟩
    · rw [Finset.mem_union, hlisted]
    · rw [FilterListManager.blocked_checkBlock, Finset.mem_union]
    · rw [FilterListManager.getD_getStats, Finset.card_union_of_disjoint hdisjoint]

/-- What becomes of the tables of a category when they stood for its values. -/
theorem refines_next_iff {s : State} (h : Refines s) (call : Call) :
    Refines ⟨call.apply s.manager, s.calls ++ [call]⟩ ↔ ∀ category,
      (∀ value, value ∈ (call.apply s.manager).enhancedValues category ∨
          value ∈ (call.apply s.manager).legacyValues category ↔
        call.Decides category value ∧ call.Puts value ∨ ¬ call.Decides category value ∧
          (value ∈ s.manager.enhancedValues category ∨ value ∈ s.manager.legacyValues category)) ∧
      Disjoint ((call.apply s.manager).enhancedValues category)
        ((call.apply s.manager).legacyValues category) := by
  rw [refines_iff] at h ⊢
  refine forall_congr' fun category ↦ and_congr_left fun _ ↦ forall_congr' fun value ↦ ?_
  rw [listed_concat, (h category).1 value]

theorem Refines.disjoint {s : State} (h : Refines s) {category value : String}
    (henhanced : value ∈ s.manager.enhancedValues category) :
    value ∉ s.manager.legacyValues category :=
  Finset.disjoint_left.mp ((refines_iff.mp h) category).2 henhanced

theorem refines_step_iff {s next : State} {call : Call} (h : Refines s)
    (hnext : step s call = some next) : Refines next ↔ Apart s call := by
  obtain rfl := Option.some.inj hnext
  rw [refines_next_iff h]
  simp only [Finset.disjoint_left]
  cases call with
  | addLegacyEntries category values =>
    have henhanced (other : String) :
        (s.manager.addLegacyEntries category values).enhancedValues other =
          s.manager.enhancedValues other := rfl
    simp only [Call.apply, Call.Decides, Call.Puts, Apart, henhanced,
      FilterListManager.mem_legacyValues_addLegacyEntries]
    constructor
    · exact fun h' value hvalue hin ↦ (h' category).2 hin (.inr ⟨rfl, hvalue⟩)
    · refine fun hapart other ↦ ⟨fun value ↦ by tauto, fun value hin ↦ ?_⟩
      rintro (hlegacy | ⟨rfl, hvalue⟩)
      · exact h.disjoint hin hlegacy
      · exact hapart value hvalue hin
  | addEntries category entries =>
    have hlegacy (other : String) :
        (s.manager.addEntries category entries).legacyValues other =
          s.manager.legacyValues other := rfl
    simp only [Call.apply, Call.Decides, Call.Puts, Apart, hlegacy,
      FilterListManager.mem_enhancedValues_addEntries]
    constructor
    · exact fun h' value hvalue hin ↦ (h' category).2 (.inr ⟨rfl, hvalue⟩) hin
    · refine fun hapart other ↦ ⟨fun value ↦ by tauto, fun value ↦ ?_⟩
      rintro (henhanced | ⟨rfl, hvalue⟩) hin
      · exact h.disjoint henhanced hin
      · exact hapart value hvalue hin
  | removeEntry category value =>
    refine iff_of_true (fun other ↦ ?_) trivial
    obtain ⟨henhanced, hlegacy⟩ :=
      s.manager.values_removeEntry category value other
    simp only [Call.apply, Call.Decides, Call.Puts, henhanced, hlegacy]
    by_cases hother : other = category
    · subst hother
      by_cases hmem : value ∈ s.manager.enhancedValues other
      · have hnot := h.disjoint hmem
        simp only [if_true, hmem, not_true_eq_false, and_false, if_false, Finset.mem_erase]
        refine ⟨fun found ↦ ?_, fun found hfound ↦ h.disjoint hfound.2⟩
        by_cases hfound : found = value
        · simp [hfound, hnot]
        · simp [hfound]
      · simp only [if_true, hmem, not_false_eq_true, and_true, Finset.mem_erase]
        refine ⟨fun found ↦ ?_, fun found hfound hin ↦ h.disjoint hfound.2 hin.2⟩
        by_cases hfound : found = value
        · simp [hfound]
        · simp [hfound]
    · simp only [hother, false_and, if_false]
      exact ⟨fun found ↦ by simp, fun found ↦ h.disjoint⟩
  | clearCategory category =>
    refine iff_of_true (fun other ↦ ?_) trivial
    obtain ⟨henhanced, hlegacy⟩ :=
      s.manager.values_clearCategory category other
    simp only [Call.apply, Call.Decides, Call.Puts, henhanced, hlegacy]
    by_cases hother : other = category
    · simp [hother]
    · simp only [hother, if_false]
      exact ⟨fun found ↦ by simp, fun found ↦ h.disjoint⟩
  | replaceCategoryLegacy category entries =>
    have henhanced (other : String) :
        (s.manager.replaceCategoryLegacy category entries).enhancedValues other =
          s.manager.enhancedValues other := rfl
    have hlegacy (other : String) :
        (s.manager.replaceCategoryLegacy category entries).legacyValues other =
          if other = category then entries else s.manager.legacyValues other :=
      FilterListManager.legacyValues_insert _ _ entries
    simp only [Call.apply, Call.Decides, Call.Puts, Apart, henhanced, hlegacy]
    constructor
    · intro h'
      obtain ⟨hlisted, hdisjoint⟩ := h' category
      simp only [if_true] at hlisted hdisjoint
      refine Finset.eq_empty_of_forall_notMem fun value hin ↦ hdisjoint hin ?_
      simpa using (hlisted value).mp (.inl hin)
    · intro hempty other
      by_cases hother : other = category
      · subst hother
        simp [hempty]
      · simp only [hother, if_false]
        exact ⟨fun found ↦ by simp, fun found ↦ h.disjoint⟩
  | replaceCategoryEnhanced category entries =>
    have hlegacy (other : String) :
        (s.manager.replaceCategoryEnhanced category entries).legacyValues other =
          s.manager.legacyValues other := rfl
    simp only [Call.apply, Call.Decides, Call.Puts, Apart, hlegacy,
      FilterListManager.mem_enhancedValues_replaceCategoryEnhanced]
    constructor
    · intro h'
      obtain ⟨hlisted, hdisjoint⟩ := h' category
      simp only [if_true] at hlisted hdisjoint
      refine Finset.eq_empty_of_forall_notMem fun value hin ↦ hdisjoint ?_ hin
      simpa using (hlisted value).mp (.inr hin)
    · intro hempty other
      by_cases hother : other = category
      · subst hother
        simp [hempty]
      · simp only [hother, if_false]
        exact ⟨fun found ↦ by simp, fun found ↦ h.disjoint⟩

theorem refines_start : Refines start := by
  refine refines_iff.mpr fun category ↦ ⟨fun value ↦ ?_, by simp [start, FilterListManager.new,
    FilterListManager.enhancedValues]⟩
  have hnot : ¬ Listed [] category value := not_latest_nil
  simp [start, FilterListManager.new, FilterListManager.enhancedValues,
    FilterListManager.legacyValues, hnot]

/-- The two tables stand for one set of values in each category, in every state of a run, exactly
when every call of the run keeps them apart. -/
theorem always_refines_iff (calls : List Call) :
    Always step Refines start calls ↔ EachStep step Apart start calls := by
  have hrun : Always step Refines start calls ↔ Refines start ∧ EachStep step Apart start calls :=
    always_iff_and_eachStep (fun s call next h ↦ refines_step_iff h) calls
  rw [hrun, and_iff_right refines_start]

/-- A value that is in both tables is still blocked when it has been removed, and is counted
twice. -/
theorem not_always_refines :
    (¬ ∀ calls : List Call, Always step Refines start calls) ∧
      ∃ m : FilterListManager, exec step start [.addLegacyEntries "c" ["v"],
          .addEntries "c" [.manual "v" none 0]] = some ⟨m, [.addLegacyEntries "c" ["v"],
            .addEntries "c" [.manual "v" none 0]]⟩ ∧
        m.getStats "c" = some 2 ∧ (m.removeEntry "c" "v").2 = true ∧
          ((m.removeEntry "c" "v").1.checkBlock "c" "v" 0).blocked = true := by
  let m := (FilterListManager.new.addLegacyEntries "c" ["v"]).addEntries "c" [.manual "v" none 0]
  have hlegacy : "v" ∈ m.legacyValues "c" :=
    FilterListManager.mem_legacyValues_addLegacyEntries.mpr (.inr ⟨rfl, by simp⟩)
  have henhanced : "v" ∈ m.enhancedValues "c" :=
    FilterListManager.mem_enhancedValues_addEntries.mpr (.inr ⟨rfl, by simp [FilterEntry.manual]⟩)
  refine ⟨fun h ↦ ?_, m, rfl, ?_, ?_, ?_⟩
  · have hrefines : Refines ⟨m, _⟩ := (h [.addLegacyEntries "c" ["v"],
      .addEntries "c" [.manual "v" none 0]]).exec rfl
    exact hrefines.disjoint henhanced hlegacy
  · decide
  · rw [FilterListManager.removeEntry, if_pos henhanced]
  · refine (FilterListManager.blocked_checkBlock "v" 0).mpr (.inr ?_)
    rw [(m.values_removeEntry "c" "v" "c").2, if_neg fun hnot ↦ hnot.2 henhanced]
    exact hlegacy

end Lithair.Proxy.Filtering
