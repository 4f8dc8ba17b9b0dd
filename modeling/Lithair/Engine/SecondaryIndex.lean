import Lithair.Engine.Scc2Engine
import Lithair.Lib.Run

/-!
# The secondary indexes

The operations of `engine/scc2_engine.rs` that change states, and the lists of keys that
`get_indexed_values` returns. An index is exact when each list has the keys, without repetition,
whose state has the value in an indexed or unique field.

A list changes with a single entry (`getIndexedValues_addToIndexValue`,
`getIndexedValues_removeFromIndexValue`), and what a change of one state does to all lists is
`mem_reindex`. From there, `exact_iff_keepsIndex` says which runs keep the indexes exact: those that
remove no state with an indexed value, write no indexed value as long as there is no index, and
change no policy of a field whose value stays. With policies that are the same in every state, all
that `apply_event` does is in order (`follows_of_fixedPolicies`).
-/

namespace Lithair.Engine

open Lithair.Lib Lithair.Lib.Run

/-! ### Entries of an index -/

namespace Indexes

theorem getIndexedValues_insert (indexes : Indexes) (fieldName : String) (index : SecondaryIndex)
    (other value : String) : getIndexedValues (indexes.insert fieldName index) other value =
      if other = fieldName then (index.lookup value).getD []
      else indexes.getIndexedValues other value := by
  unfold getIndexedValues
  split_ifs with hother
  · rw [hother, Finmap.lookup_insert]
    rfl
  · rw [Finmap.lookup_insert_of_ne _ hother]

/-- A new index has no entries. -/
theorem getIndexedValues_createIndex (indexes : Indexes) (fieldName other value : String) :
    (indexes.createIndex fieldName).getIndexedValues other value =
      indexes.getIndexedValues other value := by
  unfold createIndex
  split_ifs with hmem
  · rfl
  · rw [getIndexedValues_insert]
    split_ifs with hother
    · rw [hother, getIndexedValues, Finmap.lookup_eq_none.mpr hmem]
      rfl
    · rfl

theorem exists_lookup_createIndex (indexes : Indexes) (fieldName : String) :
    ∃ index, (indexes.createIndex fieldName).lookup fieldName = some index := by
  unfold createIndex
  split_ifs with hmem
  · exact Finmap.mem_iff.mp hmem
  · exact ⟨∅, Finmap.lookup_insert _⟩

/-- An index with one list put in the place of another. -/
theorem getIndexedValues_insert_insert {indexes : Indexes} {fieldName : String}
    {index : SecondaryIndex} (hindex : indexes.lookup fieldName = some index) (value : String)
    (keys : List String) (other otherValue : String) :
    getIndexedValues (indexes.insert fieldName (index.insert value keys)) other otherValue =
      if other = fieldName ∧ otherValue = value then keys
      else indexes.getIndexedValues other otherValue := by
  rw [getIndexedValues_insert]
  by_cases hother : other = fieldName
  · subst hother
    rw [if_pos rfl]
    by_cases hvalue : otherValue = value
    · rw [if_pos ⟨rfl, hvalue⟩, hvalue, Finmap.lookup_insert]
      rfl
    · rw [if_neg fun h ↦ hvalue h.2, Finmap.lookup_insert_of_ne _ hvalue, getIndexedValues, hindex]
      rfl
  · rw [if_neg hother, if_neg fun h ↦ hother h.1]

/-- The key is put at the end of one list, if it is not in it. -/
theorem getIndexedValues_addToIndexValue (indexes : Indexes) (fieldName value key : String)
    (other otherValue : String) :
    (indexes.addToIndexValue fieldName value key).getIndexedValues other otherValue =
      if other = fieldName ∧ otherValue = value ∧
          key ∉ indexes.getIndexedValues fieldName value then
        indexes.getIndexedValues fieldName value ++ [key]
      else indexes.getIndexedValues other otherValue := by
  obtain ⟨index, hindex⟩ := exists_lookup_createIndex indexes fieldName
  have hold : (index.lookup value).getD [] = indexes.getIndexedValues fieldName value := by
    rw [← getIndexedValues_createIndex indexes fieldName, getIndexedValues, hindex]
    rfl
  have hput := getIndexedValues_insert_insert hindex value
    (indexes.getIndexedValues fieldName value ++ [key]) other otherValue
  rw [getIndexedValues_createIndex] at hput
  unfold addToIndexValue
  simp only [hindex]
  cases hkeys : index.lookup value with
  | some keys =>
    rw [hkeys] at hold
    obtain rfl : keys = indexes.getIndexedValues fieldName value := hold
    by_cases hmem : key ∈ indexes.getIndexedValues fieldName value
    · simp only [hmem, if_true, not_true_eq_false, and_false, if_false]
      exact getIndexedValues_createIndex indexes fieldName other otherValue
    · simp only [hmem, if_false, not_false_eq_true, and_true]
      exact hput
  | none =>
    rw [hkeys] at hold
    have hnil : indexes.getIndexedValues fieldName value = [] := hold.symm
    rw [hnil] at hput ⊢
    simp only [List.not_mem_nil, not_false_eq_true, and_true]
    exact hput

/-- The key is taken out of one list. -/
theorem getIndexedValues_removeFromIndexValue (indexes : Indexes) (fieldName value key : String)
    (other otherValue : String) :
    (indexes.removeFromIndexValue fieldName value key).getIndexedValues other otherValue =
      if other = fieldName ∧ otherValue = value then
        (indexes.getIndexedValues fieldName value).erase key
      else indexes.getIndexedValues other otherValue := by
  unfold removeFromIndexValue
  cases hindex : indexes.lookup fieldName with
  | none =>
    have hnil : indexes.getIndexedValues fieldName value = [] := by
      rw [getIndexedValues, hindex]
      rfl
    split_ifs with hsame
    · rw [hsame.1, hsame.2, hnil]
      rfl
    · rfl
  | some index =>
    have hold : indexes.getIndexedValues fieldName value = (index.lookup value).getD [] := by
      rw [getIndexedValues, hindex]
      rfl
    cases hkeys : index.lookup value with
    | some keys =>
      simp only [hkeys]
      rw [hold, hkeys]
      exact getIndexedValues_insert_insert hindex _ _ other otherValue
    | none =>
      simp only [hkeys]
      rw [hkeys] at hold
      split_ifs with hsame
      · rw [hsame.1, hsame.2, hold]
        rfl
      · rfl

/-- No list has a key twice. -/
def Nodup (indexes : Indexes) : Prop :=
  ∀ fieldName value, (indexes.getIndexedValues fieldName value).Nodup

theorem nodup_empty : Nodup ∅ := fun _ _ ↦ List.nodup_nil

theorem Nodup.createIndex {indexes : Indexes} (h : indexes.Nodup) (fieldName : String) :
    (indexes.createIndex fieldName).Nodup := by
  intro other value
  rw [getIndexedValues_createIndex]
  exact h other value

theorem Nodup.addToIndexValue {indexes : Indexes} (h : indexes.Nodup)
    (fieldName value key : String) : (indexes.addToIndexValue fieldName value key).Nodup := by
  intro other otherValue
  rw [getIndexedValues_addToIndexValue]
  split_ifs with hadd
  · rw [← List.concat_eq_append]
    exact (h fieldName value).concat hadd.2.2
  · exact h other otherValue

theorem Nodup.removeFromIndexValue {indexes : Indexes} (h : indexes.Nodup)
    (fieldName value key : String) : (indexes.removeFromIndexValue fieldName value key).Nodup := by
  intro other otherValue
  rw [getIndexedValues_removeFromIndexValue]
  split_ifs
  · exact (h fieldName value).erase key
  · exact h other otherValue

/-- A key is in a list that it was added to, and in those it was in. -/
theorem mem_addToIndexValue {indexes : Indexes}
    {fieldName value key other otherValue key' : String} :
    key' ∈ (indexes.addToIndexValue fieldName value key).getIndexedValues other otherValue ↔
      (other = fieldName ∧ otherValue = value ∧ key' = key) ∨
        key' ∈ indexes.getIndexedValues other otherValue := by
  rw [getIndexedValues_addToIndexValue]
  by_cases hsame : other = fieldName ∧ otherValue = value
  · obtain ⟨rfl, rfl⟩ := hsame
    by_cases hmem : key ∈ indexes.getIndexedValues other otherValue
    · rw [if_neg fun h ↦ h.2.2 hmem]
      constructor
      · exact Or.inr
      · rintro (⟨-, -, rfl⟩ | h)
        · exact hmem
        · exact h
    · rw [if_pos ⟨rfl, rfl, hmem⟩, List.mem_append, List.mem_singleton, or_comm]
      simp only [true_and]
  · rw [if_neg fun h ↦ hsame ⟨h.1, h.2.1⟩]
    constructor
    · exact Or.inr
    · rintro (⟨hfield, hvalue, -⟩ | h)
      · exact absurd ⟨hfield, hvalue⟩ hsame
      · exact h

theorem mem_removeFromIndexValue {indexes : Indexes} (h : indexes.Nodup)
    {fieldName value key other otherValue key' : String} :
    key' ∈ (indexes.removeFromIndexValue fieldName value key).getIndexedValues other otherValue ↔
      key' ∈ indexes.getIndexedValues other otherValue ∧
        ¬ (other = fieldName ∧ otherValue = value ∧ key' = key) := by
  rw [getIndexedValues_removeFromIndexValue]
  by_cases hsame : other = fieldName ∧ otherValue = value
  · obtain ⟨rfl, rfl⟩ := hsame
    rw [if_pos ⟨rfl, rfl⟩, (h other otherValue).mem_erase_iff, and_comm]
    simp only [true_and]
  · rw [if_neg hsame]
    constructor
    · exact fun hmem ↦ ⟨hmem, fun heq ↦ hsame ⟨heq.1, heq.2.1⟩⟩
    · exact And.left

/-! ### Entries of a state -/

section Application

variable {S E : Type*} (json : JsonText) (app : Application S E)

/-- The text by which the value of a field is indexed. -/
def fieldStr (state : S) (fieldName : String) : Option String :=
  (app.getFieldValue state fieldName).map (valueStr json)

/-- The state has the value in an indexed or unique field. -/
def Carries (state : Option S) (fieldName value : String) : Prop :=
  ∃ s ∈ state, isIndexed app s fieldName = true ∧ fieldStr json app s fieldName = some value

/-- The field is indexed in the new state, and its value is not that of the old one. -/
def Changed (oldState : Option S) (newState : S) (fieldName : String) : Prop :=
  isIndexed app newState fieldName = true ∧
    ∀ s ∈ oldState, app.getFieldValue s fieldName ≠ app.getFieldValue newState fieldName

instance (oldState : Option S) (newState : S) (fieldName : String) :
    Decidable (Changed app oldState newState fieldName) := inferInstanceAs (Decidable (_ ∧ _))

/-- Put the key under the new value of a field in place of the old one. -/
def moveKey (indexes : Indexes) (fieldName key : String) (oldStr newStr : Option String) :
    Indexes :=
  let removed :=
    match oldStr with
    | some value => indexes.removeFromIndexValue fieldName value key
    | none => indexes
  match newStr with
  | some value => removed.addToIndexValue fieldName value key
  | none => removed

/-- What is done for one field. -/
def reindexField (key : String) (oldState : Option S) (newState : S)
    (indexes : Indexes) (fieldName : String) : Indexes :=
  if Changed app oldState newState fieldName then
    indexes.moveKey fieldName key (oldState.bind fun s ↦ fieldStr json app s fieldName)
      (fieldStr json app newState fieldName)
  else indexes

variable {json app} {indexes : Indexes} {key : String} {oldState : Option S} {newState : S}

theorem changed_none {fieldName : String} :
    Changed app none newState fieldName ↔ isIndexed app newState fieldName = true := by
  simp [Changed]

theorem changed_some {old : S} {fieldName : String} :
    Changed app (some old) newState fieldName ↔ isIndexed app newState fieldName = true ∧
      app.getFieldValue old fieldName ≠ app.getFieldValue newState fieldName := by
  simp [Changed]

theorem reindex_eq_foldl : indexes.reindex json app key oldState newState =
    (app.getAllFields newState).foldl (reindexField json app key oldState newState) indexes := by
  cases oldState with
  | none =>
    refine congrArg (List.foldl · indexes (app.getAllFields newState)) ?_
    funext indexes fieldName
    simp only [reindexField, changed_none, fieldStr]
    cases app.getFieldValue newState fieldName <;> simp [moveKey]
  | some old =>
    refine congrArg (List.foldl · indexes (app.getAllFields newState)) ?_
    funext indexes fieldName
    simp only [reindexField, changed_some, fieldStr]
    cases hold : app.getFieldValue old fieldName <;>
      cases app.getFieldValue newState fieldName <;> simp [moveKey, hold]

theorem Nodup.moveKey (h : indexes.Nodup) (fieldName key : String) (oldStr newStr : Option String) :
    (indexes.moveKey fieldName key oldStr newStr).Nodup := by
  cases oldStr with
  | none =>
    cases newStr with
    | none => exact h
    | some value => exact h.addToIndexValue fieldName value key
  | some old =>
    cases newStr with
    | none => exact h.removeFromIndexValue fieldName old key
    | some value =>
      exact (h.removeFromIndexValue fieldName old key).addToIndexValue fieldName value key

/-- A key is moved within the lists of one field. -/
theorem mem_moveKey (h : indexes.Nodup) {fieldName other value key' : String}
    {oldStr newStr : Option String} :
    key' ∈ (indexes.moveKey fieldName key oldStr newStr).getIndexedValues other value ↔
      (other = fieldName ∧ key' = key ∧ newStr = some value) ∨
        (key' ∈ indexes.getIndexedValues other value ∧
          ¬ (other = fieldName ∧ key' = key ∧ oldStr = some value)) := by
  cases oldStr with
  | none =>
    cases newStr with
    | none => simp [moveKey]
    | some new =>
      simp only [moveKey, mem_addToIndexValue, Option.some.injEq]
      grind
  | some old =>
    cases newStr with
    | none =>
      simp only [moveKey, mem_removeFromIndexValue h, Option.some.injEq]
      grind
    | some new =>
      simp only [moveKey, mem_addToIndexValue, mem_removeFromIndexValue h, Option.some.injEq]
      grind

theorem Nodup.reindexField (h : indexes.Nodup) (fieldName : String) :
    (indexes.reindexField json app key oldState newState fieldName).Nodup := by
  unfold Indexes.reindexField
  split_ifs
  · exact h.moveKey fieldName key _ _
  · exact h

theorem nodup_foldl_reindexField (h : indexes.Nodup) (fields : List String) :
    (fields.foldl (reindexField json app key oldState newState) indexes).Nodup := by
  induction fields generalizing indexes with
  | nil => exact h
  | cons fieldName rest ih => exact ih (h.reindexField fieldName)

theorem Nodup.reindex (h : indexes.Nodup) :
    (indexes.reindex json app key oldState newState).Nodup := by
  rw [reindex_eq_foldl]
  exact nodup_foldl_reindexField h _

/-- What has become of a list when the fields have been gone through, however often. -/
theorem mem_foldl_reindexField (h : indexes.Nodup) (fields : List String)
    {fieldName value key' : String} :
    key' ∈ (fields.foldl (reindexField json app key oldState newState) indexes).getIndexedValues
        fieldName value ↔
      if fieldName ∈ fields ∧ Changed app oldState newState fieldName then
        (key' = key ∧ fieldStr json app newState fieldName = some value) ∨
          (key' ∈ indexes.getIndexedValues fieldName value ∧
            ¬ (key' = key ∧ oldState.bind (fun s ↦ fieldStr json app s fieldName) = some value))
      else key' ∈ indexes.getIndexedValues fieldName value := by
  induction fields generalizing indexes with
  | nil =>
    rw [if_neg fun hmem ↦ List.not_mem_nil hmem.1]
    rfl
  | cons head rest ih =>
    rw [List.foldl_cons, ih (h.reindexField head)]
    by_cases hsame : fieldName = head
    · subst hsame
      unfold Indexes.reindexField
      by_cases hchanged : Changed app oldState newState fieldName
      · simp only [hchanged, List.mem_cons, true_or, and_true, if_true, mem_moveKey h, true_and]
        grind
      · simp only [hchanged, and_false, if_false]
    · have hhead : key' ∈ (indexes.reindexField json app key oldState newState
          head).getIndexedValues fieldName value ↔
            key' ∈ indexes.getIndexedValues fieldName value := by
        unfold Indexes.reindexField
        split_ifs
        · rw [mem_moveKey h]
          simp only [hsame, false_and, not_false_eq_true, and_true, false_or]
        · rfl
      simp only [hhead, List.mem_cons, hsame, false_or]

/-- What a change of one state does to all lists. -/
theorem mem_reindex (h : indexes.Nodup) {fieldName value key' : String} :
    key' ∈ (indexes.reindex json app key oldState newState).getIndexedValues fieldName value ↔
      if fieldName ∈ app.getAllFields newState ∧ Changed app oldState newState fieldName then
        (key' = key ∧ fieldStr json app newState fieldName = some value) ∨
          (key' ∈ indexes.getIndexedValues fieldName value ∧
            ¬ (key' = key ∧ oldState.bind (fun s ↦ fieldStr json app s fieldName) = some value))
      else key' ∈ indexes.getIndexedValues fieldName value := by
  rw [reindex_eq_foldl, mem_foldl_reindexField h]

/-! ### Exact indexes -/

variable (json app)

/-- The key is in the lists of the values that its state has. -/
def ExactAt (indexes : Indexes) (key : String) (state : Option S) : Prop :=
  ∀ fieldName value, key ∈ indexes.getIndexedValues fieldName value ↔
    Carries json app state fieldName value

/-- Each list has the keys of the states with the value. -/
def Exact (indexes : Indexes) (data : String → Option S) : Prop :=
  ∀ key, ExactAt json app indexes key (data key)

/-- Both states have the same values in indexed fields. -/
def SameEntries (oldState newState : Option S) : Prop :=
  ∀ fieldName value, Carries json app oldState fieldName value ↔
    Carries json app newState fieldName value

/-- Each field is gone through when its value has changed, or has the same entries as before. -/
def Follows (oldState : Option S) (newState : S) : Prop :=
  ∀ fieldName, (fieldName ∈ app.getAllFields newState ∧ Changed app oldState newState fieldName) ∨
    ∀ value, Carries json app oldState fieldName value ↔
      Carries json app (some newState) fieldName value

variable {json app} {data : String → Option S}

/-- A state with the same entries can take the place of another. -/
theorem exactAt_iff_sameEntries (h : ExactAt json app indexes key oldState) {state : Option S} :
    ExactAt json app indexes key state ↔ SameEntries json app oldState state := by
  constructor
  · intro hexact fieldName value
    rw [← h fieldName value, hexact fieldName value]
  · intro hsame fieldName value
    rw [h fieldName value, hsame fieldName value]

theorem exactAt_reindex_iff (hnodup : indexes.Nodup) (h : ExactAt json app indexes key oldState) :
    ExactAt json app (indexes.reindex json app key oldState newState) key (some newState) ↔
      Follows json app oldState newState := by
  constructor
  · intro hexact fieldName
    by_cases hchanged : fieldName ∈ app.getAllFields newState ∧
        Changed app oldState newState fieldName
    · exact Or.inl hchanged
    · refine Or.inr fun value ↦ ?_
      have hkey := hexact fieldName value
      rw [mem_reindex hnodup, if_neg hchanged] at hkey
      rw [← h fieldName value, hkey]
  · intro hfollows fieldName value
    rw [mem_reindex hnodup, h fieldName value]
    split_ifs with hchanged
    · have hnew : Carries json app (some newState) fieldName value ↔
          fieldStr json app newState fieldName = some value := by
        simp [Carries, hchanged.2.1]
      have hold : Carries json app oldState fieldName value →
          oldState.bind (fun s ↦ fieldStr json app s fieldName) = some value := by
        rintro ⟨s, hs, -, hvalue⟩
        rw [Option.mem_def.mp hs]
        exact hvalue
      rw [hnew]
      simp only [true_and]
      constructor
      · rintro (hvalue | ⟨hcarries, hnone⟩)
        · exact hvalue
        · exact absurd (hold hcarries) hnone
      · exact Or.inl
    · exact (hfollows fieldName).resolve_left hchanged value

/-- The lists have the other keys that they had. -/
theorem exactAt_reindex_of_ne (hnodup : indexes.Nodup) {key' : String} (hkey : key' ≠ key)
    {state : Option S} :
    ExactAt json app (indexes.reindex json app key oldState newState) key' state ↔
      ExactAt json app indexes key' state := by
  refine forall_congr' fun fieldName ↦ forall_congr' fun value ↦ ?_
  rw [mem_reindex hnodup]
  simp only [hkey, false_and, false_or, not_false_eq_true, and_true, ite_self]

/-- The indexes that are exact but for one key are exact when they are for the key. -/
theorem exact_update_iff {indexes' : Indexes} {state : Option S} (h : Exact json app indexes data)
    (hothers : ∀ key' ≠ key, ExactAt json app indexes' key' (data key') ↔
      ExactAt json app indexes key' (data key')) :
    Exact json app indexes' (Function.update data key state) ↔
      ExactAt json app indexes' key state := by
  constructor
  · intro hexact
    have hkey := hexact key
    rwa [Function.update_self] at hkey
  · intro hexact key'
    by_cases hkey : key' = key
    · subst hkey
      rwa [Function.update_self]
    · rw [Function.update_of_ne hkey, hothers key' hkey]
      exact h key'

theorem exact_update_same_iff (h : Exact json app indexes data) {state : Option S} :
    Exact json app indexes (Function.update data key state) ↔
      SameEntries json app (data key) state :=
  (exact_update_iff h fun _ _ ↦ Iff.rfl).trans (exactAt_iff_sameEntries (h key))

theorem exact_reindex_iff (hnodup : indexes.Nodup) (h : Exact json app indexes data) :
    Exact json app (indexes.reindex json app key (data key) newState)
        (Function.update data key (some newState)) ↔ Follows json app (data key) newState :=
  (exact_update_iff h fun _ hkey ↦ exactAt_reindex_of_ne hnodup hkey).trans
    (exactAt_reindex_iff hnodup (h key))

/-- Policies that are the same in every state, with all indexed fields listed. -/
def FixedPolicies (app : Application S E) : Prop :=
  (∀ s t fieldName, isIndexed app s fieldName = isIndexed app t fieldName) ∧
    ∀ s fieldName, isIndexed app s fieldName = true → fieldName ∈ app.getAllFields s

/-- With fixed policies every change of a state is followed. -/
theorem follows_of_fixedPolicies (h : FixedPolicies app) (oldState : Option S) (newState : S) :
    Follows json app oldState newState := by
  obtain ⟨hfixed, hlisted⟩ := h
  intro fieldName
  by_cases hindexed : isIndexed app newState fieldName = true
  · by_cases hchanged : Changed app oldState newState fieldName
    · exact Or.inl ⟨hlisted newState fieldName hindexed, hchanged⟩
    · right
      intro value
      have hold : ∃ s ∈ oldState,
          app.getFieldValue s fieldName = app.getFieldValue newState fieldName := by
        by_contra hnone
        exact hchanged ⟨hindexed, fun s hs heq ↦ hnone ⟨s, hs, heq⟩⟩
      obtain ⟨s, hs, heq⟩ := hold
      simp [Carries, Option.mem_def.mp hs, fieldStr, heq, hfixed s newState fieldName]
  · right
    intro value
    have hnone : ∀ s, isIndexed app s fieldName ≠ true :=
      fun s hs ↦ hindexed (hfixed s newState fieldName ▸ hs)
    simp [Carries, hnone]

end Application

end Indexes

/-! ### The operations -/

namespace Scc2Engine

variable {S E : Type*} (json : JsonText) (app : Application S E) (config : Scc2EngineConfig)

def write (s : Scc2Engine S) (key : String) (f : S → S) (now : ℕ) : Scc2Engine S :=
  s.updateEntryVolatile json app key now f

def insertSync (s : Scc2Engine S) (key : String) (value : S) (now : ℕ) : Scc2Engine S :=
  s.updateEntryVolatile json app key now fun _ ↦ value

/-- The state is removed; the indexes stay. -/
def removeSync (s : Scc2Engine S) (key : String) : Scc2Engine S :=
  { s with stateMap := s.stateMap.erase key }

def clearSync (s : Scc2Engine S) : Scc2Engine S :=
  { s with
    stateMap := ∅
    indexes := ∅ }

def createIndex (s : Scc2Engine S) (fieldName : String) : Scc2Engine S :=
  { s with indexes := s.indexes.createIndex fieldName }

def getIndexedValues (s : Scc2Engine S) (fieldName value : String) : List String :=
  s.indexes.getIndexedValues fieldName value

/-- What is called. A replay is the replay of its lines, one after the other. -/
inductive IndexAction (S E : Type*)
  | applyEvent (key : String) (event : E) (persist : Bool) (now : ℕ)
  | write (key : String) (f : S → S) (now : ℕ)
  | insert (key : String) (value : S) (now : ℕ)
  | remove (key : String)
  | clear
  | createIndex (fieldName : String)
  | replayEvent (eventJson : String) (now : ℕ)

/-- A refused event leaves the engine as it is. An event that is not to be persisted is like one
that the configuration does not persist. -/
def indexStep (s : Scc2Engine S) : IndexAction S E → Option (Scc2Engine S)
  | .applyEvent key event persist now =>
    match s.applyEvent json app
      { config with autoPersistWrites := config.autoPersistWrites && persist } key event now with
    | .ok next => some next
    | .error _ => some s
  | .write key f now => some (s.write json app key f now)
  | .insert key value now => some (s.insertSync json app key value now)
  | .remove key => some (s.removeSync key)
  | .clear => some s.clearSync
  | .createIndex fieldName => some (s.createIndex fieldName)
  | .replayEvent eventJson now => some (s.replayEvent json app now eventJson)

/-- Each list has the keys of the states with the value, and none of them twice. -/
def IndexExact (s : Scc2Engine S) : Prop :=
  ∀ fieldName value, (s.getIndexedValues fieldName value).Nodup ∧
    ∀ key, key ∈ s.getIndexedValues fieldName value ↔
      Indexes.Carries json app (s.read key) fieldName value

/-- A write that the indexes follow, or, as long as there are none, a state without entries. -/
def WriteFollows (s : Scc2Engine S) (key : String) (newState : S) : Prop :=
  if s.indexes = ∅ then Indexes.SameEntries json app (s.read key) (some newState)
  else Indexes.Follows json app (s.read key) newState

/-- The indexes follow what is done to the states. -/
def KeepsIndex (s : Scc2Engine S) : IndexAction S E → Prop
  | .applyEvent key event _ _ =>
    s.checkUniqueness json app event key = .ok () →
      Indexes.Follows json app (s.read key) (app.apply event ((s.read key).getD app.default))
  | .write key f _ => s.WriteFollows json app key (f ((s.read key).getD app.default))
  | .insert key value _ => s.WriteFollows json app key value
  | .remove key => Indexes.SameEntries json app (s.read key) none
  | .clear | .createIndex _ => True
  | .replayEvent eventJson _ => ∀ key event, keyedEvent json app eventJson = some (key, event) →
    s.WriteFollows json app key (app.apply event ((s.read key).getD app.default))

section Steps

variable {json app config} {s next : Scc2Engine S}

theorem indexExact_iff : s.IndexExact json app ↔
    s.indexes.Nodup ∧ Indexes.Exact json app s.indexes (dataOf s.stateMap) := by
  constructor
  · intro h
    exact ⟨fun fieldName value ↦ (h fieldName value).1,
      fun key fieldName value ↦ (h fieldName value).2 key⟩
  · rintro ⟨hnodup, hexact⟩ fieldName value
    exact ⟨hnodup fieldName value, fun key ↦ hexact key fieldName value⟩

/-- What a write leaves. -/
theorem updateEntryVolatile_indexes (key : String) (now : ℕ) (f : S → S) :
    (s.updateEntryVolatile json app key now f).indexes =
      if s.indexes = ∅ then s.indexes
      else s.indexes.reindex json app key (s.read key) (f ((s.read key).getD app.default)) := rfl

theorem nodup_updateEntryVolatile (h : s.indexes.Nodup) (key : String) (now : ℕ) (f : S → S) :
    (s.updateEntryVolatile json app key now f).indexes.Nodup := by
  rw [updateEntryVolatile_indexes]
  split_ifs
  · exact h
  · exact h.reindex

theorem indexExact_updateEntryVolatile_iff (h : s.IndexExact json app) (key : String) (now : ℕ)
    (f : S → S) :
    (s.updateEntryVolatile json app key now f).IndexExact json app ↔
      s.WriteFollows json app key (f ((s.read key).getD app.default)) := by
  obtain ⟨hnodup, hexact⟩ := indexExact_iff.mp h
  have hdata : dataOf (s.updateEntryVolatile json app key now f).stateMap =
      Function.update (dataOf s.stateMap) key (some (f ((s.read key).getD app.default))) :=
    dataOf_touch app s.stateMap key now f
  rw [indexExact_iff, and_iff_right (nodup_updateEntryVolatile hnodup key now f), hdata,
    updateEntryVolatile_indexes, WriteFollows]
  split_ifs
  · exact Indexes.exact_update_same_iff hexact
  · exact Indexes.exact_reindex_iff hnodup hexact

theorem applyEvent_indexes {key : String} {event : E} {now : ℕ}
    (h : s.applyEvent json app config key event now = .ok next) :
    s.checkUniqueness json app event key = .ok () ∧
      next.indexes = s.indexes.reindex json app key (s.read key)
        (app.apply event ((s.read key).getD app.default)) := by
  unfold applyEvent at h
  split at h
  · exact absurd h (by simp)
  · next hunique =>
    obtain rfl := Except.ok.inj h
    exact ⟨hunique, rfl⟩

theorem checkUniqueness_of_error {key : String} {event : E} {now : ℕ} {message : String}
    (h : s.applyEvent json app config key event now = .error message) :
    s.checkUniqueness json app event key ≠ .ok () := by
  intro hunique
  rw [applyEvent, hunique] at h
  exact absurd h (by simp)

theorem dataOf_removeSync (key : String) :
    dataOf (s.removeSync key).stateMap = Function.update (dataOf s.stateMap) key none := by
  funext other
  by_cases hother : other = key
  · subst hother
    rw [Function.update_self, dataOf, removeSync, Finmap.lookup_erase]
    rfl
  · rw [Function.update_of_ne hother, dataOf, removeSync, Finmap.lookup_erase_ne hother]
    rfl

/-- A step leaves the indexes exact when they follow what it does. -/
theorem indexExact_step {a : IndexAction S E} (h : s.IndexExact json app)
    (hnext : indexStep json app config s a = some next) :
    next.IndexExact json app ↔ s.KeepsIndex json app a := by
  obtain ⟨hnodup, hexact⟩ := indexExact_iff.mp h
  cases a with
  | applyEvent key event persist now =>
    simp only [indexStep] at hnext
    split at hnext
    · next engine happly =>
      obtain rfl := Option.some.inj hnext
      obtain ⟨hunique, hindexes⟩ := applyEvent_indexes happly
      rw [indexExact_iff, hindexes, (applyEvent_spec _ _ _ happly).1, and_iff_right hnodup.reindex,
        KeepsIndex, imp_iff_right hunique]
      exact Indexes.exact_reindex_iff hnodup hexact
    · next message happly =>
      obtain rfl := Option.some.inj hnext
      exact iff_of_true h fun hunique ↦ absurd hunique (checkUniqueness_of_error happly)
  | write key f now =>
    obtain rfl := Option.some.inj hnext
    exact indexExact_updateEntryVolatile_iff h key now f
  | insert key value now =>
    obtain rfl := Option.some.inj hnext
    exact indexExact_updateEntryVolatile_iff h key now fun _ ↦ value
  | remove key =>
    obtain rfl := Option.some.inj hnext
    rw [indexExact_iff, dataOf_removeSync]
    show s.indexes.Nodup ∧ Indexes.Exact json app s.indexes _ ↔ _
    rw [and_iff_right hnodup]
    exact Indexes.exact_update_same_iff hexact
  | clear =>
    obtain rfl := Option.some.inj hnext
    refine iff_of_true (indexExact_iff.mpr ⟨Indexes.nodup_empty, ?_⟩) trivial
    refine fun key fieldName value ↦ iff_of_false List.not_mem_nil ?_
    rintro ⟨state, hstate, -⟩
    exact absurd (Option.mem_def.mp hstate) (by simp [dataOf, clearSync])
  | createIndex fieldName =>
    obtain rfl := Option.some.inj hnext
    refine iff_of_true (indexExact_iff.mpr ⟨hnodup.createIndex fieldName, ?_⟩) trivial
    intro key other value
    show key ∈ (s.indexes.createIndex fieldName).getIndexedValues other value ↔ _
    rw [Indexes.getIndexedValues_createIndex]
    exact hexact key other value
  | replayEvent eventJson now =>
    obtain rfl := Option.some.inj hnext
    unfold replayEvent KeepsIndex
    split
    · next key event hkeyed =>
      rw [indexExact_updateEntryVolatile_iff h]
      constructor
      · intro hfollows key' event' hkeyed'
        obtain ⟨rfl, rfl⟩ := Prod.mk.inj (Option.some.inj (hkeyed.symm.trans hkeyed'))
        exact hfollows
      · intro hfollows
        exact hfollows key event hkeyed
    · next hkeyed =>
      exact iff_of_true h fun key event hkeyed' ↦ absurd (hkeyed.symm.trans hkeyed') (by simp)

theorem indexExact_new (store : FileStorage) : (new store : Scc2Engine S).IndexExact json app := by
  refine indexExact_iff.mpr ⟨Indexes.nodup_empty, fun key fieldName value ↦ ?_⟩
  refine iff_of_false List.not_mem_nil ?_
  rintro ⟨state, hstate, -⟩
  exact absurd (Option.mem_def.mp hstate) (by simp [dataOf, new])

end Steps

/-- In every run of calls, with replays of any lines, the indexes are exact in every state exactly
when they follow each step. -/
theorem exact_iff_keepsIndex {S E : Type*} (json : JsonText) (app : Application S E)
    (config : Scc2EngineConfig) (store : FileStorage) (actions : List (IndexAction S E)) :
    Always (indexStep json app config) (IndexExact json app) (new store) actions ↔
      EachStep (indexStep json app config) (KeepsIndex json app) (new store) actions :=
  always_iff_eachStep (I := fun _ ↦ True) (fun _ _ _ _ _ ↦ trivial)
    (fun _ _ _ _ h hnext ↦ indexExact_step h hnext) trivial (indexExact_new store) actions

end Scc2Engine

section Mailbox

/-- An application whose states are addresses in a unique field, which an event sets. -/
def mailbox : Application String String where
  default := ""
  getAllFields := fun _ ↦ ["email"]
  getPolicy := fun _ fieldName ↦ if fieldName = "email" then some ⟨true, true⟩ else none
  getFieldValue := fun state fieldName ↦ if fieldName = "email" then some (.string state) else none
  apply := fun event _ ↦ event
  toJson := fun _ event ↦ event
  fromStr := some

open Scc2Engine in
/-- The state under the key `a` is removed, and the key is still in the index of its address. -/
theorem removed_key_indexed : ¬ ∀ (json : JsonText) (config : Scc2EngineConfig)
    (store : FileStorage) (actions : List (IndexAction String String)),
    Always (indexStep json mailbox config) (IndexExact json mailbox) (new store) actions := by
  intro h
  have hrun := h ⟨fun _ ↦ none, fun _ ↦ ""⟩ ⟨true, true⟩ FileStorage.empty
    [.applyEvent "a" "x" true 0, .remove "a"]
  have hexact := ((hrun.2 _ rfl).2 _ rfl "email" "x").2 "a"
  obtain ⟨state, hstate, -⟩ := hexact.mp (by decide)
  have hnone : (none : Option String) = some state := hstate
  exact absurd hnone (by simp)

end Mailbox

end Lithair.Engine
