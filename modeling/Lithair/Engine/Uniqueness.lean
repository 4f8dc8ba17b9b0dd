import Lithair.Engine.SecondaryIndex

/-!
# Unique fields under concurrent calls

`apply_event` of `engine/scc2_engine.rs` as concurrent calls run it: the state of the key is read
and the event is applied to a copy, the unique fields of the copy are looked up in the indexes one
after the other, then the entry of the key is locked and changed, and the lists of the indexes are
changed one after the other before the entry is let go. Writes and replays lock an entry and change
it without a look at the indexes. An entry that cannot be locked at once is not waited for: a read
takes it for one that is not there, and a change is refused. That is the case when another call
holds it, and also when its place in the map is locked for another reason, which the environment
decides. The writer has no part in this.

`unique_of_checked`: in every run in which an event is applied when its check would still pass,
nothing is looked up while a call is between its change and the end of its index update, and what is
written and removed without a check leaves the indexes exact and the values unique, no two keys hold
the same value in a unique field, and no event is refused without reason.
-/

namespace Lithair.Engine

open Lithair.Lib Lithair.Lib.Run

/-! ### Lists that change one at a time -/

/-- A change of one list. -/
inductive IndexOp
  | remove (fieldName value : String)
  | add (fieldName value : String)
  deriving DecidableEq

namespace Indexes

variable {S E : Type*} (json : JsonText) (app : Application S E)

def runOp (key : String) (indexes : Indexes) : IndexOp → Indexes
  | .remove fieldName value => indexes.removeFromIndexValue fieldName value key
  | .add fieldName value => indexes.addToIndexValue fieldName value key

/-- What is left of a change when the list is locked. -/
def lockedOp (indexes : Indexes) : IndexOp → Indexes
  | .remove _ _ => indexes
  | .add fieldName _ => indexes.createIndex fieldName

/-- What is to be changed for one field. -/
def fieldOps (oldState : Option S) (newState : S) (fieldName : String) : List IndexOp :=
  if Changed app oldState newState fieldName then
    ((oldState.bind fun s ↦ fieldStr json app s fieldName).map (IndexOp.remove fieldName)).toList ++
      ((fieldStr json app newState fieldName).map (IndexOp.add fieldName)).toList
  else []

/-- What is to be changed when a state is. -/
def indexOps (oldState : Option S) (newState : S) : List IndexOp :=
  (app.getAllFields newState).flatMap (fieldOps json app oldState newState)

/-- The value of the field is in the index under another key. -/
def violates (indexes : Indexes) (key : String) (state : S) (fieldName : String) : Bool :=
  match app.getPolicy state fieldName, app.getFieldValue state fieldName with
  | some policy, some value =>
    policy.unique && (indexes.getIndexedValues fieldName (valueStr json value)).any (· ≠ key)
  | _, _ => false

variable {json app} {indexes : Indexes} {key : String} {oldState : Option S} {newState : S}

/-- To change the lists one at a time is to go through the fields. -/
theorem foldl_indexOps : (indexOps json app oldState newState).foldl (runOp key) indexes =
    indexes.reindex json app key oldState newState := by
  rw [reindex_eq_foldl, indexOps]
  generalize app.getAllFields newState = fields
  induction fields generalizing indexes with
  | nil => rfl
  | cons fieldName rest ih =>
    rw [List.flatMap_cons, List.foldl_append, ih, List.foldl_cons]
    refine congrArg (fun indexes ↦ rest.foldl _ indexes) ?_
    unfold fieldOps reindexField moveKey
    split_ifs
    · cases (oldState.bind fun s ↦ fieldStr json app s fieldName) <;>
        cases fieldStr json app newState fieldName <;> rfl
    · rfl

theorem Nodup.runOp (h : indexes.Nodup) (key : String) (op : IndexOp) :
    (indexes.runOp key op).Nodup := by
  cases op with
  | remove fieldName value => exact h.removeFromIndexValue fieldName value key
  | add fieldName value => exact h.addToIndexValue fieldName value key

/-- The key is in the same lists. -/
def SameAt (key : String) (first second : Indexes) : Prop :=
  ∀ fieldName value, key ∈ first.getIndexedValues fieldName value ↔
    key ∈ second.getIndexedValues fieldName value

theorem SameAt.exactAt_iff {first second : Indexes} (h : SameAt key first second)
    {state : Option S} :
    ExactAt json app first key state ↔ ExactAt json app second key state :=
  forall_congr' fun fieldName ↦ forall_congr' fun value ↦ by rw [h fieldName value]

/-- The lists have the other keys that they had. -/
theorem sameAt_runOp_of_ne (h : indexes.Nodup) {key' : String} (hkey : key' ≠ key) (op : IndexOp) :
    SameAt key' (indexes.runOp key op) indexes := by
  intro fieldName value
  cases op with
  | remove field old =>
    rw [Indexes.runOp, mem_removeFromIndexValue h, and_iff_left fun hsame ↦ hkey hsame.2.2]
  | add field new =>
    rw [Indexes.runOp, mem_addToIndexValue, or_iff_right fun hsame ↦ hkey hsame.2.2]

/-- What becomes of the lists a key is in depends on those alone. -/
theorem SameAt.foldl_runOp {first second : Indexes} (h : SameAt key first second)
    (hfirst : first.Nodup) (hsecond : second.Nodup) (ops : List IndexOp) :
    SameAt key (ops.foldl (Indexes.runOp key) first) (ops.foldl (Indexes.runOp key) second) := by
  induction ops generalizing first second with
  | nil => exact h
  | cons op ops ih =>
    refine ih ?_ (hfirst.runOp key op) (hsecond.runOp key op)
    intro fieldName value
    cases op with
    | remove field old =>
      rw [Indexes.runOp, Indexes.runOp, mem_removeFromIndexValue hfirst,
        mem_removeFromIndexValue hsecond, h fieldName value]
    | add field new =>
      rw [Indexes.runOp, Indexes.runOp, mem_addToIndexValue, mem_addToIndexValue,
        h fieldName value]

end Indexes

/-- The check of an event passes when no field of its result violates. -/
theorem Scc2Engine.checkUniqueness_eq_ok_iff {S E : Type*} {json : JsonText} {app : Application S E}
    {s : Scc2Engine S} {event : E} {key : String} :
    s.checkUniqueness json app event key = .ok () ↔
      ∀ fieldName ∈ app.getAllFields (app.apply event ((s.read key).getD app.default)),
        s.indexes.violates json app key (app.apply event ((s.read key).getD app.default))
          fieldName = false := by
  unfold checkUniqueness
  generalize app.apply event ((s.read key).getD app.default) = state
  simp only
  split
  · next message hviolation =>
    refine iff_of_false (by simp) fun h ↦ ?_
    obtain ⟨fieldName, hfield, hmessage⟩ := List.exists_of_findSome?_eq_some hviolation
    have hpasses := h fieldName hfield
    unfold Indexes.violates at hpasses
    split at hmessage
    · next policy value hpolicy hvalue =>
      rw [hpolicy, hvalue] at hpasses
      split_ifs at hmessage with hunique
      obtain ⟨id, hid, -⟩ := Option.map_eq_some_iff.mp hmessage
      have hmem := List.mem_of_find?_eq_some hid
      have hne := List.find?_some hid
      simp only [hunique, Bool.true_and, List.any_eq_false] at hpasses
      exact hpasses id hmem hne
    · exact absurd hmessage (by simp)
  · next hviolation =>
    refine iff_of_true rfl fun fieldName hfield ↦ ?_
    have hpasses := List.findSome?_eq_none_iff.mp hviolation fieldName hfield
    unfold Indexes.violates
    cases hpolicy : app.getPolicy state fieldName with
    | none => rfl
    | some policy =>
      cases hvalue : app.getFieldValue state fieldName with
      | none => rfl
      | some value =>
        rw [hpolicy, hvalue] at hpasses
        simp only at hpasses ⊢
        by_cases hunique : policy.unique = true
        · rw [if_pos hunique, Option.map_eq_none_iff, List.find?_eq_none] at hpasses
          rw [hunique, Bool.true_and, List.any_eq_false]
          exact hpasses
        · rw [Bool.eq_false_iff.mpr hunique, Bool.false_and]

/-! ### Values of unique fields -/

section Values

variable {S E : Type*} (json : JsonText) (app : Application S E)

/-- The state has the value in a unique field. -/
def HasUnique (state : S) (fieldName : String) (value : Json) : Prop :=
  (∃ policy, app.getPolicy state fieldName = some policy ∧ policy.unique = true) ∧
    app.getFieldValue state fieldName = some value

/-- Both states have the same value in a unique field. -/
def Share (state held : S) : Prop :=
  ∃ fieldName value, HasUnique app state fieldName value ∧ HasUnique app held fieldName value

/-- Another key holds a value of a unique field of the state. -/
def Conflicts (data : String → Option S) (key : String) (state : S) : Prop :=
  ∃ other held, other ≠ key ∧ data other = some held ∧ Share app state held

/-- No two keys hold the same value in a unique field. -/
def Unique (data : String → Option S) : Prop :=
  ∀ key state, data key = some state → ¬ Conflicts app data key state

/-- The policies are those of the type, the indexed fields are listed, and values of a unique field
with the same text are the same. -/
structure PlainFields : Prop where
  policy : ∀ s t fieldName, app.getPolicy s fieldName = app.getPolicy t fieldName
  listed : ∀ s fieldName, Indexes.isIndexed app s fieldName = true → fieldName ∈ app.getAllFields s
  texts : ∀ s t fieldName value value', HasUnique app s fieldName value →
    HasUnique app t fieldName value' →
      Indexes.valueStr json value = Indexes.valueStr json value' → value = value'

variable {json app} {indexes : Indexes} {key : String} {state : S}

theorem PlainFields.fixedPolicies (h : PlainFields json app) : Indexes.FixedPolicies app :=
  ⟨fun s t fieldName ↦ by rw [Indexes.isIndexed, h.policy s t, Indexes.isIndexed], h.listed⟩

theorem Share.symm {held : S} (h : Share app state held) : Share app held state := by
  obtain ⟨fieldName, value, hstate, hheld⟩ := h
  exact ⟨fieldName, value, hheld, hstate⟩

theorem HasUnique.isIndexed {fieldName : String} {value : Json}
    (h : HasUnique app state fieldName value) : Indexes.isIndexed app state fieldName = true := by
  obtain ⟨⟨policy, hpolicy, hunique⟩, -⟩ := h
  rw [Indexes.isIndexed, hpolicy]
  exact Bool.or_eq_true_iff.mpr (Or.inr hunique)

/-- A field violates when the index has its value under another key. -/
theorem violates_iff {fieldName : String} :
    indexes.violates json app key state fieldName = true ↔
      ∃ value other, HasUnique app state fieldName value ∧ other ≠ key ∧
        other ∈ indexes.getIndexedValues fieldName (Indexes.valueStr json value) := by
  unfold Indexes.violates
  split
  · next policy value hpolicy hvalue =>
    rw [Bool.and_eq_true_iff, List.any_eq_true]
    constructor
    · rintro ⟨hunique, other, hmem, hother⟩
      exact ⟨value, other, ⟨⟨policy, hpolicy, hunique⟩, hvalue⟩, of_decide_eq_true hother, hmem⟩
    · rintro ⟨value', other, ⟨⟨policy', hpolicy', hunique⟩, hvalue'⟩, hother, hmem⟩
      obtain rfl := Option.some.inj (hpolicy.symm.trans hpolicy')
      obtain rfl := Option.some.inj (hvalue.symm.trans hvalue')
      exact ⟨hunique, other, hmem, decide_eq_true hother⟩
  · next hnone =>
    refine iff_of_false (by simp) ?_
    rintro ⟨value, other, ⟨⟨policy, hpolicy, -⟩, hvalue⟩, -⟩
    exact hnone policy value hpolicy hvalue

/-- A key that is found under the value holds it. -/
theorem share_of_mem (hfields : PlainFields json app) {other fieldName : String} {value : Json}
    {held : Option S} (hexact : Indexes.ExactAt json app indexes other held)
    (hunique : HasUnique app state fieldName value)
    (hmem : other ∈ indexes.getIndexedValues fieldName (Indexes.valueStr json value)) :
    ∃ found, held = some found ∧ Share app state found := by
  obtain ⟨found, hfound, -, hstr⟩ := (hexact fieldName _).mp hmem
  obtain ⟨value', hvalue', htext⟩ := Option.map_eq_some_iff.mp hstr
  obtain ⟨policy, hpolicy, hflag⟩ := hunique.1
  have hother : HasUnique app found fieldName value' :=
    ⟨⟨policy, (hfields.policy found state fieldName).trans hpolicy, hflag⟩, hvalue'⟩
  obtain rfl := hfields.texts found state fieldName value' value hother hunique htext
  exact ⟨found, Option.mem_def.mp hfound, fieldName, value', hunique, hother⟩

/-- A key that holds a unique value of the state is found under it. -/
theorem violates_of_share (hfields : PlainFields json app) {other : String} {held : S}
    (hexact : Indexes.ExactAt json app indexes other (some held)) (hother : other ≠ key)
    (h : Share app state held) :
    ∃ fieldName ∈ app.getAllFields state, indexes.violates json app key state fieldName = true := by
  obtain ⟨fieldName, value, hstate, hheld⟩ := h
  refine ⟨fieldName, hfields.listed state fieldName hstate.isIndexed, violates_iff.mpr ?_⟩
  refine ⟨value, other, hstate, hother, (hexact fieldName _).mpr ⟨held, rfl, hheld.isIndexed, ?_⟩⟩
  rw [Indexes.fieldStr, hheld.2]
  rfl

end Values

/-! ### Concurrent calls -/

/-- Where a call is: it checks the fields that are left of the result on a copy, or it holds the
entry of the key and makes the changes of the indexes that are left. A state that was not there is
put in last. -/
inductive Call (S E : Type*)
  | checking (key : String) (event : E) (fields : List String) (state : S)
  | indexing (key : String) (now : ℕ) (oldState : Option S) (newState : S) (ops : List IndexOp)

def Call.isIndexing {S E : Type*} : Call S E → Bool
  | .checking .. => false
  | .indexing .. => true

/-- The engine with the calls under way and the keys whose entries they hold. -/
structure Concurrent (S E : Type*) where
  engine : Scc2Engine S
  calls : ℕ → Option (Call S E)
  held : List String

/-- A call makes its next step. Where it tries an entry, `locked` says whether something else has
locked it at that moment. -/
inductive ConcurrentAction (S E : Type*)
  | applyEvent (i : ℕ) (key : String) (event : E) (locked : Bool)
  | lookUp (i : ℕ) (locked : Bool)
  | lock (i : ℕ) (locked : Bool) (now : ℕ)
  | changeIndex (i : ℕ) (locked : Bool)
  | release (i : ℕ)
  | write (i : ℕ) (key : String) (f : S → S) (locked : Bool) (now : ℕ)
  | replayEvent (i : ℕ) (eventJson : String) (locked : Bool) (now : ℕ)
  | remove (key : String) (locked : Bool)

namespace Concurrent

variable {S E : Type*} (json : JsonText) (app : Application S E)

/-- No call is under way. -/
def start (engine : Scc2Engine S) : Concurrent S E where
  engine := engine
  calls := fun _ ↦ none
  held := []

/-- The states by key. -/
def data (s : Concurrent S E) : String → Option S := dataOf s.engine.stateMap

def setCall (s : Concurrent S E) (i : ℕ) (call : Option (Call S E)) : Concurrent S E :=
  { s with calls := Function.update s.calls i call }

/-- `try_entry` gives the entry of the key. -/
def obtains (s : Concurrent S E) (key : String) (locked : Bool) : Bool :=
  !locked && !s.held.contains key

/-- The entry of the key is locked and its state is changed, if it is there. -/
def change (s : Concurrent S E) (i : ℕ) (key : String) (now : ℕ) (f : S → S) (reindexed : Bool) :
    Concurrent S E :=
  let oldState := s.engine.read key
  let newState := f (oldState.getD app.default)
  let ops := if reindexed then Indexes.indexOps json app oldState newState else []
  { s with
    engine :=
      if oldState.isSome then
        { s.engine with stateMap := s.engine.stateMap.touch app key now f }
      else s.engine
    held := key :: s.held }.setCall i (some (.indexing key now oldState newState ops))

/-- A write goes on with the indexes when there are any, and is refused without the entry. -/
def startWrite (s : Concurrent S E) (i : ℕ) (key : String) (f : S → S) (locked : Bool) (now : ℕ) :
    Option (Concurrent S E) :=
  if (s.calls i).isNone then
    if s.obtains key locked then
      some (s.change json app i key now f (!decide (s.engine.indexes = ∅)))
    else some s
  else none

def step (s : Concurrent S E) : ConcurrentAction S E → Option (Concurrent S E)
  | .applyEvent i key event locked =>
    if (s.calls i).isNone then
      let state := app.apply event
        ((if s.obtains key locked then s.engine.read key else none).getD app.default)
      some (s.setCall i (some (.checking key event (app.getAllFields state) state)))
    else none
  | .lookUp i locked =>
    match s.calls i with
    | some (.checking key event (fieldName :: fields) state) =>
      if !locked && s.engine.indexes.violates json app key state fieldName then
        some (s.setCall i none)
      else some (s.setCall i (some (.checking key event fields state)))
    | _ => none
  | .lock i locked now =>
    match s.calls i with
    | some (.checking key event [] _) =>
      if s.obtains key locked then some (s.change json app i key now (app.apply event) true)
      else some (s.setCall i none)
    | _ => none
  | .changeIndex i locked =>
    match s.calls i with
    | some (.indexing key now oldState newState (op :: ops)) =>
      some ({ s with engine := { s.engine with
        indexes :=
          if locked then s.engine.indexes.lockedOp op else s.engine.indexes.runOp key op } }.setCall
            i (some (.indexing key now oldState newState ops)))
    | _ => none
  | .release i =>
    match s.calls i with
    | some (.indexing key now oldState newState []) =>
      some ({ s with
        engine :=
          if oldState.isSome then s.engine
          else { s.engine with stateMap := s.engine.stateMap.insert key ⟨1, now, newState⟩ }
        held := s.held.erase key }.setCall i none)
    | _ => none
  | .write i key f locked now => s.startWrite json app i key f locked now
  | .replayEvent i eventJson locked now =>
    match Scc2Engine.keyedEvent json app eventJson with
    | some (key, event) => s.startWrite json app i key (app.apply event) locked now
    | none => some s
  | .remove key locked =>
    if s.obtains key locked then some { s with engine := s.engine.removeSync key } else some s

/-- The event that a step refuses. -/
def refused (s : Concurrent S E) : ConcurrentAction S E → Option (String × E)
  | .lookUp i locked =>
    match s.calls i with
    | some (.checking key event (fieldName :: _) state) =>
      if !locked && s.engine.indexes.violates json app key state fieldName then some (key, event)
      else none
    | _ => none
  | .lock i locked _ =>
    match s.calls i with
    | some (.checking key event [] _) => if s.obtains key locked then none else some (key, event)
    | _ => none
  | _ => none

/-- The result of the event on the state of the key. -/
def result (s : Concurrent S E) (key : String) (event : E) : S :=
  app.apply event ((s.data key).getD app.default)

/-- An event is refused only when another key holds a unique value of its result. -/
def RefusesRightly (s : Concurrent S E) (a : ConcurrentAction S E) : Prop :=
  ∀ key event, s.refused json app a = some (key, event) →
    Conflicts app s.data key (s.result app key event)

/-- A call is putting the state under the key. -/
def Pending (s : Concurrent S E) (key : String) (state : S) : Prop :=
  ∃ i now oldState ops, s.calls i = some (.indexing key now oldState state ops)

/-- The key has the state, or is about to. -/
def Holds (s : Concurrent S E) (key : String) (state : S) : Prop :=
  s.data key = some state ∨ s.Pending key state

/-- What is written without a check shares no unique value with another key, and the indexes
follow. -/
def WritesRightly (s : Concurrent S E) (key : String) (f : S → S) (locked : Bool) : Prop :=
  s.obtains key locked = true →
    (∀ other held, other ≠ key → s.Holds other held →
        ¬ Share app (f ((s.data key).getD app.default)) held) ∧
      s.engine.WriteFollows json app key (f ((s.data key).getD app.default))

/-- When a field is found under another key, then under one that no call is changing, and the copy
is what the event gives now; when the event is applied, the entry is not locked, the check would
pass now, and no change under way shares a unique value; a list that is to be changed is not locked;
and what is not checked leaves the values unique and the indexes exact. -/
def Checked (s : Concurrent S E) : ConcurrentAction S E → Prop
  | .applyEvent _ _ _ _ | .release _ => True
  | .lookUp i locked => ∀ key event fieldName fields state,
    s.calls i = some (.checking key event (fieldName :: fields) state) → locked = false →
      s.engine.indexes.violates json app key state fieldName = true →
        state = s.result app key event ∧ ∃ value other, HasUnique app state fieldName value ∧
          other ≠ key ∧ other ∉ s.held ∧
          other ∈ s.engine.getIndexedValues fieldName (Indexes.valueStr json value)
  | .lock i locked _ => ∀ key event state, s.calls i = some (.checking key event [] state) →
    s.obtains key locked = true ∧ s.engine.checkUniqueness json app event key = .ok () ∧
      ∀ other held, s.Pending other held → ¬ Share app (s.result app key event) held
  | .changeIndex _ locked => locked = false
  | .write _ key f locked _ => s.WritesRightly json app key f locked
  | .replayEvent _ eventJson locked _ => ∀ key event,
    Scc2Engine.keyedEvent json app eventJson = some (key, event) →
      s.WritesRightly json app key (app.apply event) locked
  | .remove key locked => s.obtains key locked = true →
    Indexes.SameEntries json app (s.data key) none

/-! ### The invariant -/

/-- Each held entry is that of one call; the indexes are exact for the other keys, and will be for a
key that is held; and no two keys hold the same unique value, or are about to. -/
structure Inv (s : Concurrent S E) : Prop where
  nodup : s.engine.indexes.Nodup
  heldNodup : s.held.Nodup
  held : ∀ key ∈ s.held, ∃ state, s.Pending key state
  busy : ∀ i key now oldState newState ops,
    s.calls i = some (.indexing key now oldState newState ops) →
      key ∈ s.held ∧ s.data key = oldState.map (fun _ ↦ newState) ∧
        Indexes.ExactAt json app (ops.foldl (Indexes.runOp key) s.engine.indexes) key
          (some newState)
  apart : ∀ i j key now now' oldState oldState' newState newState' ops ops',
    s.calls i = some (.indexing key now oldState newState ops) →
      s.calls j = some (.indexing key now' oldState' newState' ops') → i = j
  free : ∀ key, key ∉ s.held → Indexes.ExactAt json app s.engine.indexes key (s.data key)
  unique : ∀ key state other held, s.Holds key state → s.Holds other held → other ≠ key →
    ¬ Share app state held

section Steps

variable {json app} {s next : Concurrent S E}

theorem obtains_iff {key : String} {locked : Bool} :
    s.obtains key locked = true ↔ locked = false ∧ key ∉ s.held := by
  simp [obtains]

/-- A call that holds no entry goes on to where it holds none. -/
theorem Inv.setCall (h : Inv json app s) {i : ℕ} {call : Option (Call S E)}
    (hold : ∀ c ∈ s.calls i, c.isIndexing = false) (hnew : ∀ c ∈ call, c.isIndexing = false) :
    Inv json app (s.setCall i call) := by
  have hcalls : ∀ j key now oldState newState ops,
      (s.setCall i call).calls j = some (.indexing key now oldState newState ops) ↔
        s.calls j = some (.indexing key now oldState newState ops) := by
    intro j key now oldState newState ops
    by_cases hj : j = i
    · subst hj
      show Function.update s.calls j call j = _ ↔ _
      rw [Function.update_self]
      refine iff_of_false (fun hcall ↦ ?_) (fun hcall ↦ ?_)
      · exact absurd (hnew _ (Option.mem_def.mpr hcall)) (by simp [Call.isIndexing])
      · exact absurd (hold _ (Option.mem_def.mpr hcall)) (by simp [Call.isIndexing])
    · show Function.update s.calls i call j = _ ↔ _
      rw [Function.update_of_ne hj]
  have hpending : ∀ key state, (s.setCall i call).Pending key state ↔ s.Pending key state :=
    fun key state ↦ exists_congr fun j ↦ exists_congr fun now ↦ exists_congr fun oldState ↦
      exists_congr fun ops ↦ hcalls j key now oldState state ops
  refine ⟨h.nodup, h.heldNodup, ?_, ?_, ?_, h.free, ?_⟩
  · intro key hkey
    obtain ⟨state, hstate⟩ := h.held key hkey
    exact ⟨state, (hpending key state).mpr hstate⟩
  · intro j key now oldState newState ops hcall
    exact h.busy j key now oldState newState ops ((hcalls ..).mp hcall)
  · intro j k key now now' oldState oldState' newState newState' ops ops' hj hk
    exact h.apart j k key now now' oldState oldState' newState newState' ops ops'
      ((hcalls ..).mp hj) ((hcalls ..).mp hk)
  · intro key state other held hkey hother
    exact h.unique key state other held (hkey.imp_right (hpending key state).mp)
      (hother.imp_right (hpending other held).mp)

/-- When an entry is locked, only its state changes. -/
theorem engine_change {i : ℕ} {key : String} {now : ℕ} {f : S → S} {reindexed : Bool} :
    (s.change json app i key now f reindexed).engine = { s.engine with
      stateMap :=
        if (s.data key).isSome then s.engine.stateMap.touch app key now f
        else s.engine.stateMap } := by
  show (if (s.data key).isSome then _ else _ : Scc2Engine S) = _
  split_ifs <;> rfl

/-- The states after an entry has been locked. -/
theorem data_change {i : ℕ} {key : String} {now : ℕ} {f : S → S} {reindexed : Bool} :
    (s.change json app i key now f reindexed).data =
      Function.update s.data key
        ((s.data key).map fun _ ↦ f ((s.data key).getD app.default)) := by
  show dataOf (Concurrent.engine _).stateMap = _
  cases hkey : s.data key with
  | none =>
    have hread : s.engine.read key = none := hkey
    simp only [change, setCall, hread, Option.isSome_none, Bool.false_eq_true, if_false,
      Option.map_none]
    rw [← hkey, Function.update_eq_self]
    rfl
  | some old =>
    have hread : s.engine.read key = some old := hkey
    simp only [change, setCall, hread, Option.isSome_some, if_true, Option.map_some]
    rw [Scc2Engine.dataOf_touch]
    show Function.update s.data key (some (f ((s.data key).getD app.default))) = _
    rw [hkey]

/-- The calls that hold an entry are the one that has locked its own, and those that did before. -/
theorem calls_change_iff {i : ℕ} {key : String} {now : ℕ} {f : S → S} {reindexed : Bool}
    (hcall : ∀ c ∈ s.calls i, c.isIndexing = false) {j : ℕ} {key' : String} {now' : ℕ}
    {oldState : Option S} {newState : S} {ops : List IndexOp} :
    (s.change json app i key now f reindexed).calls j =
        some (.indexing key' now' oldState newState ops) ↔
      (j = i ∧ key' = key ∧ now' = now ∧ oldState = s.data key ∧
        newState = f ((s.data key).getD app.default) ∧
        ops = if reindexed then Indexes.indexOps json app (s.data key)
          (f ((s.data key).getD app.default)) else []) ∨
        s.calls j = some (.indexing key' now' oldState newState ops) := by
  have hchange : (s.change json app i key now f reindexed).calls =
      Function.update s.calls i (some (.indexing key now (s.data key)
        (f ((s.data key).getD app.default))
        (if reindexed then Indexes.indexOps json app (s.data key)
          (f ((s.data key).getD app.default)) else []))) := rfl
  rw [hchange, update_eq_some_iff]
  constructor
  · rintro (⟨hj, hsame⟩ | ⟨-, hold⟩)
    · obtain ⟨rfl, rfl, rfl, rfl, rfl⟩ := Call.indexing.inj (Option.some.inj hsame)
      exact Or.inl ⟨hj, rfl, rfl, rfl, rfl, rfl⟩
    · exact Or.inr hold
  · rintro (⟨hj, rfl, rfl, rfl, rfl, rfl⟩ | hold)
    · exact Or.inl ⟨hj, rfl⟩
    · refine Or.inr ⟨?_, hold⟩
      rintro rfl
      exact absurd (hcall _ (Option.mem_def.mpr hold)) (by simp [Call.isIndexing])

/-- An entry that is not held is not that of a call. -/
theorem Inv.ne_of_indexing (h : Inv json app s) {key : String} (hkey : key ∉ s.held) {j : ℕ}
    {key' : String} {now : ℕ} {oldState : Option S} {newState : S} {ops : List IndexOp}
    (hold : s.calls j = some (.indexing key' now oldState newState ops)) : key' ≠ key := by
  rintro rfl
  exact hkey (h.busy j key' now oldState newState ops hold).1

/-- A state that is there after a change is the new one, or was there under another key. -/
theorem Inv.holds_of_change (h : Inv json app s) {i : ℕ} {key : String} {now : ℕ} {f : S → S}
    {reindexed : Bool} (hcall : ∀ c ∈ s.calls i, c.isIndexing = false) (hkey : key ∉ s.held)
    {key' : String} {state : S}
    (hstate : (s.change json app i key now f reindexed).Holds key' state) :
    (key' = key ∧ state = f ((s.data key).getD app.default)) ∨
      (key' ≠ key ∧ s.Holds key' state) := by
  obtain hstate | ⟨j, now', oldState, ops, hstate⟩ := hstate
  · rw [data_change] at hstate
    by_cases hsame : key' = key
    · subst hsame
      rw [Function.update_self] at hstate
      obtain ⟨_, -, hstate⟩ := Option.map_eq_some_iff.mp hstate
      exact Or.inl ⟨rfl, hstate.symm⟩
    · rw [Function.update_of_ne hsame] at hstate
      exact Or.inr ⟨hsame, Or.inl hstate⟩
  · rcases (calls_change_iff hcall).mp hstate with ⟨-, rfl, -, -, rfl, -⟩ | hold
    · exact Or.inl ⟨rfl, rfl⟩
    · exact Or.inr ⟨h.ne_of_indexing hkey hold, Or.inr ⟨j, now', oldState, ops, hold⟩⟩

/-- An entry is locked and changed. -/
theorem Inv.change (h : Inv json app s) {i : ℕ} {key : String} {now : ℕ} {f : S → S}
    {reindexed : Bool} (hcall : ∀ c ∈ s.calls i, c.isIndexing = false) (hkey : key ∉ s.held)
    (hunique : ∀ other held, other ≠ key → s.Holds other held →
      ¬ Share app (f ((s.data key).getD app.default)) held)
    (hexact : Indexes.ExactAt json app
      ((if reindexed then Indexes.indexOps json app (s.data key)
          (f ((s.data key).getD app.default)) else []).foldl (Indexes.runOp key) s.engine.indexes)
      key (some (f ((s.data key).getD app.default)))) :
    Inv json app (s.change json app i key now f reindexed) := by
  have hdata : (s.change json app i key now f reindexed).data = _ := data_change
  have hothers : ∀ key' ≠ key, (s.change json app i key now f reindexed).data key' =
      s.data key' := by
    intro key' hne
    rw [hdata, Function.update_of_ne hne]
  have hindexes : (s.change json app i key now f reindexed).engine.indexes = s.engine.indexes := by
    rw [engine_change]
  have hheld : (s.change json app i key now f reindexed).held = key :: s.held := rfl
  refine ⟨?_, ?_, ?_, ?_, ?_, ?_, ?_⟩
  · rw [hindexes]
    exact h.nodup
  · rw [hheld]
    exact List.nodup_cons.mpr ⟨hkey, h.heldNodup⟩
  · intro key' hmem
    rcases List.mem_cons.mp (hheld ▸ hmem) with rfl | hmem
    · exact ⟨_, i, now, _, _,
        (calls_change_iff hcall).mpr (Or.inl ⟨rfl, rfl, rfl, rfl, rfl, rfl⟩)⟩
    · obtain ⟨state, j, now', oldState, ops', hold⟩ := h.held key' hmem
      exact ⟨state, j, now', oldState, ops', (calls_change_iff hcall).mpr (Or.inr hold)⟩
  · intro j key' now' oldState newState' ops' hbusy
    rw [hheld, hindexes]
    rcases (calls_change_iff hcall).mp hbusy with ⟨-, rfl, -, rfl, rfl, rfl⟩ | hold
    · refine ⟨List.mem_cons_self, ?_, hexact⟩
      rw [hdata, Function.update_self]
    · obtain ⟨hmem, hstate, hlater⟩ := h.busy j key' now' oldState newState' ops' hold
      exact ⟨List.mem_cons_of_mem key hmem,
        (hothers key' (h.ne_of_indexing hkey hold)).trans hstate, hlater⟩
  · intro j k key' now' now'' oldState oldState' newState' newState'' ops' ops'' hj hk
    rcases (calls_change_iff hcall).mp hj with ⟨rfl, rfl, -⟩ | hold
    · rcases (calls_change_iff hcall).mp hk with ⟨rfl, -⟩ | hold'
      · rfl
      · exact absurd rfl (h.ne_of_indexing hkey hold')
    · rcases (calls_change_iff hcall).mp hk with ⟨-, rfl, -⟩ | hold'
      · exact absurd rfl (h.ne_of_indexing hkey hold)
      · exact h.apart j k key' now' now'' oldState oldState' newState' newState'' ops' ops'' hold
          hold'
  · intro key' hmem
    rw [hheld, List.mem_cons, not_or] at hmem
    rw [hindexes, hothers key' hmem.1]
    exact h.free key' hmem.2
  · intro key' state other held hstate hother hdiff
    rcases h.holds_of_change hcall hkey hstate with ⟨rfl, rfl⟩ | ⟨hkey', hold⟩
    · rcases h.holds_of_change hcall hkey hother with ⟨rfl, -⟩ | ⟨-, hold'⟩
      · exact absurd rfl hdiff
      · exact hunique other held hdiff hold'
    · rcases h.holds_of_change hcall hkey hother with ⟨rfl, rfl⟩ | ⟨-, hold'⟩
      · exact fun hshare ↦ hunique key' state hkey' hold hshare.symm
      · exact h.unique key' state other held hold hold' hdiff

/-- A call changes the next list. -/
theorem Inv.changeIndex (h : Inv json app s) {i : ℕ} {key : String} {now : ℕ} {oldState : Option S}
    {newState : S} {op : IndexOp} {ops : List IndexOp}
    (hcall : s.calls i = some (.indexing key now oldState newState (op :: ops)))
    (hnext : s.step json app (.changeIndex i false) = some next) : Inv json app next := by
  obtain ⟨hheldKey, hdataKey, hlater⟩ := h.busy i key now oldState newState (op :: ops) hcall
  simp only [step, hcall] at hnext
  obtain rfl := Option.some.inj hnext
  -- The call has one list less to change, and the other calls are where they were.
  have hcalls : ∀ j key' now' oldState' newState' ops',
      Function.update s.calls i (some (.indexing key now oldState newState ops)) j =
          some (.indexing key' now' oldState' newState' ops') →
        ∃ ops'', s.calls j = some (.indexing key' now' oldState' newState' ops'') ∧
          ((j = i ∧ ops'' = op :: ops ∧ ops' = ops) ∨ (j ≠ i ∧ ops'' = ops')) := by
    intro j key' now' oldState' newState' ops' hnew
    rcases update_eq_some_iff.mp hnew with ⟨rfl, hsame⟩ | ⟨hj, hold⟩
    · obtain ⟨rfl, rfl, rfl, rfl, rfl⟩ := Call.indexing.inj (Option.some.inj hsame)
      exact ⟨_, hcall, Or.inl ⟨rfl, rfl, rfl⟩⟩
    · exact ⟨ops', hold, Or.inr ⟨hj, rfl⟩⟩
  have hpending : ∀ key' state,
      (∃ j now' oldState' ops',
        Function.update s.calls i (some (.indexing key now oldState newState ops)) j =
          some (.indexing key' now' oldState' state ops')) → s.Pending key' state := by
    rintro key' state ⟨j, now', oldState', ops', hnew⟩
    obtain ⟨ops'', hold, -⟩ := hcalls j key' now' oldState' state ops' hnew
    exact ⟨j, now', oldState', ops'', hold⟩
  refine ⟨h.nodup.runOp key op, h.heldNodup, ?_, ?_, ?_, ?_, ?_⟩
  · intro key' hkey'
    obtain ⟨state, j, now', oldState', ops', hold⟩ := h.held key' hkey'
    by_cases hj : j = i
    · subst hj
      obtain ⟨rfl, -, -, rfl, -⟩ := Call.indexing.inj (Option.some.inj (hcall.symm.trans hold))
      exact ⟨newState, j, now, oldState, ops, Function.update_self ..⟩
    · exact ⟨state, j, now', oldState', ops', (Function.update_of_ne hj ..).trans hold⟩
  · intro j key' now' oldState' newState' ops' hnew
    obtain ⟨ops'', hold, ⟨rfl, rfl, rfl⟩ | ⟨hj, rfl⟩⟩ :=
      hcalls j key' now' oldState' newState' ops' hnew
    · obtain ⟨rfl, -⟩ := Call.indexing.inj (Option.some.inj (hcall.symm.trans hold))
      exact h.busy j key now' oldState' newState' _ hold
    · obtain ⟨hmem, hstate, hexact⟩ := h.busy j key' now' oldState' newState' _ hold
      have hkey' : key' ≠ key := by
        rintro rfl
        exact hj (h.apart _ _ _ _ _ _ _ _ _ _ _ hold hcall)
      refine ⟨hmem, hstate, ?_⟩
      have hsame := (Indexes.sameAt_runOp_of_ne h.nodup hkey' op).foldl_runOp
        (h.nodup.runOp key op) h.nodup ops''
      exact hsame.exactAt_iff.mpr hexact
  · intro j k key' now' now'' oldState' oldState'' newState' newState'' ops' ops'' hj hk
    obtain ⟨_, hj', -⟩ := hcalls _ _ _ _ _ _ hj
    obtain ⟨_, hk', -⟩ := hcalls _ _ _ _ _ _ hk
    exact h.apart _ _ _ _ _ _ _ _ _ _ _ hj' hk'
  · intro key' hkey'
    have hne : key' ≠ key := by
      rintro rfl
      exact hkey' hheldKey
    exact (Indexes.sameAt_runOp_of_ne h.nodup hne op).exactAt_iff.mpr (h.free key' hkey')
  · intro key' state other held hstate hother
    exact h.unique key' state other held (hstate.imp_right (hpending key' state))
      (hother.imp_right (hpending other held))

/-- The states after an entry has been let go. -/
theorem data_release (h : Inv json app s) {i : ℕ} {key : String} {now : ℕ} {oldState : Option S}
    {newState : S} (hcall : s.calls i = some (.indexing key now oldState newState []))
    (hnext : s.step json app (.release i) = some next) :
    next.data = Function.update s.data key (some newState) := by
  obtain ⟨-, hdata, -⟩ := h.busy i key now oldState newState [] hcall
  simp only [step, hcall] at hnext
  obtain rfl := Option.some.inj hnext
  show dataOf (if _ then _ else _ : Scc2Engine S).stateMap = _
  cases oldState with
  | none => exact Scc2Engine.dataOf_insert s.engine.stateMap key _
  | some old =>
    have hsame : s.data key = some newState := hdata
    rw [← hsame, Function.update_eq_self]
    rfl

/-- A call lets go its entry. -/
theorem Inv.release (h : Inv json app s) {i : ℕ} {key : String} {now : ℕ} {oldState : Option S}
    {newState : S} (hcall : s.calls i = some (.indexing key now oldState newState []))
    (hnext : s.step json app (.release i) = some next) : Inv json app next := by
  obtain ⟨hheldKey, -, hlater⟩ := h.busy i key now oldState newState [] hcall
  have hdata := data_release h hcall hnext
  simp only [step, hcall] at hnext
  have hindexes : next.engine.indexes = s.engine.indexes := by
    obtain rfl := Option.some.inj hnext
    show (if _ then _ else _ : Scc2Engine S).indexes = _
    split_ifs <;> rfl
  have hheld : next.held = s.held.erase key := by
    obtain rfl := Option.some.inj hnext
    rfl
  have hchange : next.calls = Function.update s.calls i none := by
    obtain rfl := Option.some.inj hnext
    rfl
  clear hnext
  have hcalls : ∀ j key' now' oldState' newState' ops',
      next.calls j = some (.indexing key' now' oldState' newState' ops') ↔
        key' ≠ key ∧ s.calls j = some (.indexing key' now' oldState' newState' ops') := by
    intro j key' now' oldState' newState' ops'
    rw [hchange, update_eq_some_iff]
    constructor
    · rintro (⟨-, hnone⟩ | ⟨hj, hold⟩)
      · exact absurd hnone (by simp)
      · refine ⟨?_, hold⟩
        rintro rfl
        exact hj (h.apart _ _ _ _ _ _ _ _ _ _ _ hold hcall)
    · rintro ⟨hne, hold⟩
      refine Or.inr ⟨?_, hold⟩
      rintro rfl
      exact hne (Call.indexing.inj (Option.some.inj (hold.symm.trans hcall))).1
  have hholds : ∀ key' state, next.Holds key' state → s.Holds key' state := by
    rintro key' state (hstate | ⟨j, now', oldState', ops', hstate⟩)
    · by_cases hne : key' = key
      · subst hne
        rw [hdata, Function.update_self, Option.some.injEq] at hstate
        exact Or.inr ⟨i, now, oldState, [], hstate ▸ hcall⟩
      · rw [hdata, Function.update_of_ne hne] at hstate
        exact Or.inl hstate
    · exact Or.inr ⟨j, now', oldState', ops', ((hcalls ..).mp hstate).2⟩
  refine ⟨?_, ?_, ?_, ?_, ?_, ?_, ?_⟩
  · rw [hindexes]
    exact h.nodup
  · rw [hheld]
    exact h.heldNodup.erase key
  · intro key' hmem
    rw [hheld, h.heldNodup.mem_erase_iff] at hmem
    obtain ⟨state, j, now', oldState', ops', hold⟩ := h.held key' hmem.2
    exact ⟨state, j, now', oldState', ops', (hcalls ..).mpr ⟨hmem.1, hold⟩⟩
  · intro j key' now' oldState' newState' ops' hbusy
    obtain ⟨hne, hold⟩ := (hcalls ..).mp hbusy
    obtain ⟨hmem, hstate, hexact⟩ := h.busy j key' now' oldState' newState' ops' hold
    rw [hheld, h.heldNodup.mem_erase_iff, hdata, Function.update_of_ne hne, hindexes]
    exact ⟨⟨hne, hmem⟩, hstate, hexact⟩
  · intro j k key' now' now'' oldState' oldState'' newState' newState'' ops' ops'' hj hk
    exact h.apart _ _ _ _ _ _ _ _ _ _ _ ((hcalls ..).mp hj).2 ((hcalls ..).mp hk).2
  · intro key' hmem
    rw [hheld, h.heldNodup.mem_erase_iff, not_and_or, not_not] at hmem
    rw [hindexes, hdata]
    by_cases hne : key' = key
    · subst hne
      rw [Function.update_self]
      exact hlater
    · rw [Function.update_of_ne hne]
      exact h.free key' (hmem.resolve_left hne)
  · intro key' state other held hstate hother
    exact h.unique key' state other held (hholds key' state hstate) (hholds other held hother)

/-- A state without entries is removed. -/
theorem Inv.remove (h : Inv json app s) {key : String} (hkey : key ∉ s.held)
    (hsame : Indexes.SameEntries json app (s.data key) none) :
    Inv json app { s with engine := s.engine.removeSync key } := by
  have hdata : ({ s with engine := s.engine.removeSync key } : Concurrent S E).data =
      Function.update s.data key none := Scc2Engine.dataOf_removeSync key
  have hothers : ∀ key' ≠ key, (Function.update s.data key none) key' = s.data key' :=
    fun key' hne ↦ Function.update_of_ne hne ..
  have hholds : ∀ key' state,
      ({ s with engine := s.engine.removeSync key } : Concurrent S E).Holds key' state →
        s.Holds key' state := by
    rintro key' state (hstate | hpending)
    · rw [hdata] at hstate
      by_cases hne : key' = key
      · subst hne
        rw [Function.update_self] at hstate
        exact absurd hstate (by simp)
      · exact Or.inl ((hothers key' hne).symm.trans hstate)
    · exact Or.inr hpending
  refine ⟨h.nodup, h.heldNodup, h.held, ?_, h.apart, ?_, ?_⟩
  · intro j key' now' oldState' newState' ops' hbusy
    obtain ⟨hmem, hstate, hexact⟩ := h.busy j key' now' oldState' newState' ops' hbusy
    refine ⟨hmem, ?_, hexact⟩
    rw [hdata, hothers key' fun heq ↦ hkey (heq ▸ hmem)]
    exact hstate
  · intro key' hmem
    rw [hdata]
    by_cases hne : key' = key
    · subst hne
      rw [Function.update_self]
      exact (Indexes.exactAt_iff_sameEntries (h.free key' hkey)).mpr hsame
    · rw [hothers key' hne]
      exact h.free key' hmem
  · intro key' state other held hstate hother
    exact h.unique key' state other held (hholds key' state hstate) (hholds other held hother)

/-- What a key holds is about to be put there, or the indexes are exact for it. -/
theorem Inv.pending_or_exactAt (h : Inv json app s) {key : String} {state : S}
    (hholds : s.Holds key state) :
    s.Pending key state ∨ Indexes.ExactAt json app s.engine.indexes key (some state) := by
  rcases hholds with hstate | hpending
  · by_cases hkey : key ∈ s.held
    · obtain ⟨pending, i, now, oldState, ops, hcall⟩ := h.held key hkey
      obtain ⟨-, hdata, -⟩ := h.busy i key now oldState pending ops hcall
      obtain ⟨_, -, rfl⟩ := Option.map_eq_some_iff.mp (hdata.symm.trans hstate)
      exact Or.inl ⟨i, now, oldState, ops, hcall⟩
    · have hexact := h.free key hkey
      rw [hstate] at hexact
      exact Or.inr hexact
  · exact Or.inl hpending

/-! ### Runs -/

/-- A write that keeps keys apart and whose lists follow it. -/
theorem Inv.written (h : Inv json app s) {i : ℕ} {key : String} {f : S → S} {locked : Bool}
    {now : ℕ} (hright : s.WritesRightly json app key f locked)
    (hstart : s.startWrite json app i key f locked now = some next) : Inv json app next := by
  unfold startWrite at hstart
  split_ifs at hstart with hnone hobtains
  · obtain rfl := Option.some.inj hstart
    obtain ⟨hshare, hfollows⟩ := hright hobtains
    have hkey := (obtains_iff.mp hobtains).2
    refine h.change (fun c hc ↦ ?_) hkey hshare ?_
    · rw [Option.isNone_iff_eq_none.mp hnone] at hc
      exact absurd hc (by simp)
    · rw [Scc2Engine.WriteFollows] at hfollows
      split_ifs at hfollows with hempty
      · simp only [hempty, decide_true, Bool.not_true, Bool.false_eq_true, if_false,
          List.foldl_nil]
        exact (Indexes.exactAt_iff_sameEntries (hempty ▸ h.free key hkey)).mpr hfollows
      · simp only [hempty, decide_false, Bool.not_false, if_true]
        rw [Indexes.foldl_indexOps]
        exact (Indexes.exactAt_reindex_iff h.nodup (h.free key hkey)).mpr hfollows
  · exact Option.some.inj hstart ▸ h

/-- An event whose key is checked when no other call is about to share it. -/
theorem Inv.locked (h : Inv json app s) (hfields : PlainFields json app) {i : ℕ} {locked : Bool}
    {now : ℕ} (hchecked : s.Checked json app (.lock i locked now))
    (hnext : s.step json app (.lock i locked now) = some next) : Inv json app next := by
  unfold step at hnext
  simp only at hnext
  split at hnext
  · next key event state hcall =>
    obtain ⟨hobtains, hpasses, hpending⟩ := hchecked key event state hcall
    rw [if_pos hobtains] at hnext
    obtain rfl := Option.some.inj hnext
    have hkey := (obtains_iff.mp hobtains).2
    refine h.change (fun c hc ↦ ?_) hkey ?_ ?_
    · rw [hcall] at hc
      exact Option.mem_some_iff.mp hc ▸ rfl
    · intro other held hother hholds hshare
      rcases h.pending_or_exactAt hholds with hbusy | hexact
      · exact hpending other held hbusy hshare
      · obtain ⟨fieldName, hfield, hviolates⟩ := violates_of_share hfields hexact hother hshare
        have hpass := Scc2Engine.checkUniqueness_eq_ok_iff.mp hpasses fieldName hfield
        exact absurd (hviolates.symm.trans hpass) (by simp)
    · rw [if_pos rfl, Indexes.foldl_indexOps]
      exact (Indexes.exactAt_reindex_iff h.nodup (h.free key hkey)).mpr
        (Indexes.follows_of_fixedPolicies hfields.fixedPolicies _ _)
  · exact absurd hnext (by simp)

/-- A step that is checked keeps the invariant. -/
theorem inv_step (hfields : PlainFields json app) {a : ConcurrentAction S E} (h : Inv json app s)
    (hchecked : s.Checked json app a) (hnext : s.step json app a = some next) :
    Inv json app next := by
  cases a with
  | applyEvent i key event locked =>
    unfold step at hnext
    simp only at hnext
    split_ifs at hnext with hnone
    all_goals
      obtain rfl := Option.some.inj hnext
      refine h.setCall (fun c hc ↦ ?_) (fun c hc ↦ ?_)
      · rw [Option.isNone_iff_eq_none.mp hnone] at hc
        exact absurd hc (by simp)
      · exact Option.mem_some_iff.mp hc ▸ rfl
  | lookUp i locked =>
    unfold step at hnext
    simp only at hnext
    split at hnext
    · next key event fieldName fields state hcall =>
      have hold : ∀ c ∈ s.calls i, c.isIndexing = false := by
        intro c hc
        rw [hcall] at hc
        exact Option.mem_some_iff.mp hc ▸ rfl
      split_ifs at hnext
      · exact Option.some.inj hnext ▸ h.setCall hold (by simp)
      · exact Option.some.inj hnext ▸ h.setCall hold fun c hc ↦ Option.mem_some_iff.mp hc ▸ rfl
    · exact absurd hnext (by simp)
  | lock i locked now => exact h.locked hfields hchecked hnext
  | changeIndex i locked =>
    obtain rfl : locked = false := hchecked
    have hbusy := hnext
    unfold step at hbusy
    simp only at hbusy
    split at hbusy
    · next key now oldState newState op ops hcall => exact h.changeIndex hcall hnext
    · exact absurd hbusy (by simp)
  | release i =>
    have hbusy := hnext
    unfold step at hbusy
    simp only at hbusy
    split at hbusy
    · next key now oldState newState hcall => exact h.release hcall hnext
    · exact absurd hbusy (by simp)
  | write i key f locked now => exact h.written hchecked hnext
  | replayEvent i eventJson locked now =>
    unfold step at hnext
    simp only at hnext
    split at hnext
    · next key event hkeyed =>
      exact h.written (hchecked key event hkeyed) hnext
    · exact Option.some.inj hnext ▸ h
  | remove key locked =>
    unfold step at hnext
    simp only at hnext
    split_ifs at hnext with hobtains
    · exact Option.some.inj hnext ▸ h.remove (obtains_iff.mp hobtains).2 (hchecked hobtains)
    · exact Option.some.inj hnext ▸ h

/-- A step that is checked refuses an event rightly. -/
theorem refusesRightly_of_checked (hfields : PlainFields json app) {a : ConcurrentAction S E}
    (h : Inv json app s) (hchecked : s.Checked json app a) : s.RefusesRightly json app a := by
  intro key event hrefused
  cases a with
  | lookUp i locked =>
    simp only [refused] at hrefused
    split at hrefused
    · next fieldName fields state hcall =>
      split_ifs at hrefused with hviolates
      obtain ⟨rfl, rfl⟩ := Prod.mk.inj (Option.some.inj hrefused)
      rw [Bool.and_eq_true_iff, Bool.not_eq_true'] at hviolates
      obtain ⟨rfl, value, other, hunique, hother, hfree, hmem⟩ :=
        hchecked _ _ _ _ _ hcall hviolates.1 hviolates.2
      obtain ⟨found, hfound, hshare⟩ := share_of_mem hfields (h.free other hfree) hunique hmem
      exact ⟨other, found, hother, hfound, hshare⟩
    · exact absurd hrefused (by simp)
  | lock i locked now =>
    simp only [refused] at hrefused
    split at hrefused
    · next state hcall =>
      rw [if_pos (hchecked _ _ _ hcall).1] at hrefused
      exact absurd hrefused (by simp)
    · exact absurd hrefused (by simp)
  | applyEvent | changeIndex | release | write | replayEvent | remove =>
    exact absurd hrefused (by simp [refused])

theorem inv_start (store : FileStorage) :
    Inv json app (start (Scc2Engine.new store) : Concurrent S E) := by
  have hexact : Indexes.Exact json app ∅ _ :=
    (Scc2Engine.indexExact_iff.mp (Scc2Engine.indexExact_new store)).2
  refine ⟨Indexes.nodup_empty, List.nodup_nil, ?_, ?_, ?_, fun key _ ↦ hexact key, ?_⟩
  · exact fun key hkey ↦ absurd hkey List.not_mem_nil
  · exact fun i key now oldState newState ops hcall ↦ absurd hcall (by simp [start])
  · exact fun i j key now now' oldState oldState' newState newState' ops ops' hcall ↦
      absurd hcall (by simp [start])
  · rintro key state other held (hstate | ⟨i, now, oldState, ops, hcall⟩)
    · exact absurd hstate (by simp [data, start, dataOf, Scc2Engine.new])
    · exact absurd hcall (by simp [start])

end Steps

/-- In every run whose steps are checked no two keys hold the same unique value in any state, and no
event is refused that would leave it so. -/
theorem unique_of_checked (hfields : PlainFields json app) (store : FileStorage)
    (actions : List (ConcurrentAction S E))
    (hchecked : EachStep (step json app) (Checked json app) (start (Scc2Engine.new store))
      actions) :
    Always (step json app) (fun s ↦ Unique app s.data) (start (Scc2Engine.new store)) actions ∧
      EachStep (step json app) (RefusesRightly json app) (start (Scc2Engine.new store)) actions := by
  have hkept : ∀ s a next, Inv json app s → Checked json app s a →
      step json app s a = some next → Inv json app next :=
    fun s a next h hstep hnext ↦ inv_step hfields h hstep hnext
  refine ⟨(hchecked.always hkept (inv_start store)).mono ?_, hchecked.imp hkept ?_
    (inv_start store)⟩
  · rintro s h key state hstate ⟨other, held, hother, hheld, hshare⟩
    exact h.unique key state other held (Or.inl hstate) (Or.inl hheld) hother hshare
  · exact fun s a next h hstep _ ↦ refusesRightly_of_checked hfields h hstep

end Concurrent

/-! ### Addresses -/

section Mailbox

open Concurrent

theorem plainFields_mailbox (json : JsonText) : PlainFields json mailbox := by
  refine ⟨fun _ _ _ ↦ rfl, fun s fieldName hindexed ↦ ?_, ?_⟩
  · by_cases hfield : fieldName = "email"
    · exact hfield ▸ List.mem_singleton_self _
    · exact absurd hindexed (by simp [Indexes.isIndexed, mailbox, hfield])
  · intro s t fieldName value value' hvalue hvalue' htext
    by_cases hfield : fieldName = "email"
    · obtain rfl := Option.some.inj ((if_pos hfield).symm.trans hvalue.2)
      obtain rfl := Option.some.inj ((if_pos hfield).symm.trans hvalue'.2)
      exact congrArg Json.string htext
    · exact absurd ((if_neg hfield).symm.trans hvalue.2) (by simp)

/-- The second key is refused the address of the first. -/
theorem unique_of_checked_mailbox :
    let json : JsonText := ⟨fun _ ↦ none, fun _ ↦ ""⟩
    let actions : List (ConcurrentAction String String) :=
      [.applyEvent 0 "a" "x" false, .lookUp 0 false, .lock 0 false 0, .changeIndex 0 false,
        .release 0, .applyEvent 1 "b" "x" false, .lookUp 1 false]
    Always (step json mailbox) (fun s ↦ Unique mailbox s.data)
        (start (Scc2Engine.new FileStorage.empty)) actions ∧
      EachStep (step json mailbox) (RefusesRightly json mailbox)
        (start (Scc2Engine.new FileStorage.empty)) actions := by
  refine unique_of_checked _ mailbox (plainFields_mailbox _) FileStorage.empty _ ?_
  rintro _ ⟨⟩
  refine ⟨trivial, ?_⟩
  rintro _ ⟨⟩
  refine ⟨fun key event fieldName fields state hcall _ hviolates ↦ ?_, ?_⟩
  · have hcall' : some (Call.checking "a" "x" ["email"] "x") =
        some (.checking key event (fieldName :: fields) state) := hcall
    cases hcall'
    exact absurd hviolates (by decide)
  rintro _ ⟨⟩
  refine ⟨fun key event state hcall ↦ ?_, ?_⟩
  · have hcall' : some (Call.checking "a" "x" [] "x") = some (.checking key event [] state) := hcall
    cases hcall'
    refine ⟨rfl, rfl, ?_⟩
    rintro other held ⟨i, now, oldState, ops, hpending⟩
    rcases update_eq_some_iff.mp hpending with ⟨-, hsame⟩ | ⟨-, hpending⟩
    · cases hsame
    · rcases update_eq_some_iff.mp hpending with ⟨-, hsame⟩ | ⟨-, hnone⟩
      · cases hsame
      · cases hnone
  rintro _ ⟨⟩
  refine ⟨rfl, ?_⟩
  rintro _ ⟨⟩
  refine ⟨trivial, ?_⟩
  rintro _ ⟨⟩
  refine ⟨trivial, ?_⟩
  rintro _ ⟨⟩
  refine ⟨fun key event fieldName fields state hcall _ hviolates ↦ ?_, ?_⟩
  · have hcall' : some (Call.checking "b" "x" ["email"] "x") =
        some (.checking key event (fieldName :: fields) state) := hcall
    cases hcall'
    exact ⟨rfl, .string "x", "a", ⟨⟨_, rfl, rfl⟩, rfl⟩, by decide, by decide, by decide⟩
  trivial

/-- Two calls look up one address before either enters it, and both keys have it. A key whose state
is removed stays in the index, and another key is refused the address. -/
theorem shared_address :
    (¬ ∀ (json : JsonText) (store : FileStorage)
        (actions : List (ConcurrentAction String String)),
      Always (step json mailbox) (fun s ↦ Unique mailbox s.data)
        (start (Scc2Engine.new store)) actions) ∧
    ¬ ∀ (json : JsonText) (store : FileStorage)
        (actions : List (ConcurrentAction String String)),
      EachStep (step json mailbox) (RefusesRightly json mailbox)
        (start (Scc2Engine.new store)) actions := by
  constructor
  · intro h
    have hrun := (h ⟨fun _ ↦ none, fun _ ↦ ""⟩ FileStorage.empty
      [.applyEvent 0 "a" "x" false, .applyEvent 1 "b" "x" false, .lookUp 0 false, .lookUp 1 false,
        .lock 0 false 0, .changeIndex 0 false, .release 0, .lock 1 false 0, .changeIndex 1 false,
        .release 1]).exec rfl
    refine hrun "a" "x" (by decide) ⟨"b", "x", by decide, by decide, "email", .string "x", ?_⟩
    exact ⟨⟨⟨_, rfl, rfl⟩, rfl⟩, ⟨_, rfl, rfl⟩, rfl⟩
  · intro h
    have hrun := ((((((h ⟨fun _ ↦ none, fun _ ↦ ""⟩ FileStorage.empty
      [.applyEvent 0 "a" "x" false, .lookUp 0 false, .lock 0 false 0, .changeIndex 0 false,
        .release 0, .remove "a" false, .applyEvent 0 "b" "x" false, .lookUp 0 false] _ rfl).2
          _ rfl).2 _ rfl).2 _ rfl).2 _ rfl).2 _ rfl).2 _ rfl
    obtain ⟨other, held, -, hheld, -⟩ := (hrun.2 _ rfl).1 "b" "x" (by decide)
    -- Nothing is left under any key.
    have hremoved := (congrFun (Scc2Engine.dataOf_removeSync "a") other).symm.trans hheld
    rcases update_eq_some_iff.mp hremoved with ⟨-, hnone⟩ | ⟨hother, hinserted⟩
    · cases hnone
    · have hempty := (congrFun (Scc2Engine.dataOf_insert ∅ "a" ⟨1, 0, "x"⟩) other).symm.trans
        hinserted
      rcases update_eq_some_iff.mp hempty with ⟨hsame, -⟩ | ⟨-, hnone⟩
      · exact hother hsame
      · cases hnone

end Mailbox

end Lithair.Engine
