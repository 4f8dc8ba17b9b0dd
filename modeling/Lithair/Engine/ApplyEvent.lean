import Lithair.Engine.Uniqueness

/-!
# The exits of `apply_event`

`apply_event` of `engine/scc2_engine.rs` with everything that one call of it may meet: an entry or a
list that another call has locked, and a writer that is gone. The event is checked, the state under
the key and the indexes are changed, and then the event is sent.

`exits_iff` says for which calls an error leaves states and indexes as they were, and no change that
was to be persisted is without its event. The check and the lock come before the change; the writer
does not, and what was changed for an event that cannot be sent stays (`not_exits_closed`).
-/

namespace Lithair.Engine

open Lithair.Lib

/-- What a call meets: whether the entry of the key is locked when the event is checked and when it
is applied, which of the lists that it looks up and changes, in their order, are locked, and whether
the channel to the writer is closed. -/
structure Circumstances where
  readLocked : Bool
  entryLocked : Bool
  lookupLocked : ℕ → Bool
  changeLocked : ℕ → Bool
  closed : Bool

/-- Nothing is locked, and the writer runs. -/
def Circumstances.free : Circumstances := ⟨false, false, fun _ ↦ false, fun _ ↦ false, false⟩

namespace Indexes

variable {S E : Type*} (json : JsonText) (app : Application S E)

/-- What is said when the value of a unique field is in the index under another key. -/
def violation (indexes : Indexes) (key : String) (state : S) (fieldName : String) :
    Option String :=
  match app.getPolicy state fieldName, app.getFieldValue state fieldName with
  | some policy, some value =>
    if policy.unique then
      let valueStr := valueStr json value
      ((indexes.getIndexedValues fieldName valueStr).find? fun id ↦ id ≠ key).map fun id ↦
        "Unique constraint violation: Field '" ++ fieldName ++ "' with value '" ++ valueStr ++
          "' already exists in record '" ++ id ++ "'"
    else none
  | _, _ => none

/-- `reindex` with some of the lists locked. -/
def tryReindex (indexes : Indexes) (key : String) (oldState : Option S) (newState : S)
    (locked : ℕ → Bool) : Indexes :=
  (indexOps json app oldState newState).zipIdx.foldl
    (fun indexes (op, n) ↦ if locked n then indexes.lockedOp op else indexes.runOp key op) indexes

theorem tryReindex_free (indexes : Indexes) (key : String) (oldState : Option S) (newState : S) :
    indexes.tryReindex json app key oldState newState (fun _ ↦ false) =
      indexes.reindex json app key oldState newState := by
  have hops := List.zipIdx_map_fst 0 (indexOps json app oldState newState)
  rw [← foldl_indexOps]
  conv_rhs => rw [← hops, List.foldl_map]
  rfl

end Indexes

namespace Scc2Engine

variable {S E : Type*} (json : JsonText) (app : Application S E) (config : Scc2EngineConfig)

/-- `check_uniqueness`; an entry that is locked is taken for one that is not there, and a list that
is locked for one that is empty. -/
def tryCheckUniqueness (s : Scc2Engine S) (event : E) (key : String) (met : Circumstances) :
    Except String Unit :=
  let state := app.apply event ((if met.readLocked then none else s.read key).getD app.default)
  match (app.getAllFields state).zipIdx.findSome? fun (fieldName, n) ↦
      if met.lookupLocked n then none else s.indexes.violation json app key state fieldName with
  | some message => .error message
  | none => .ok ()

/-- The state under the key and the indexes, changed by an event. -/
def tryChange (s : Scc2Engine S) (key : String) (event : E) (now : ℕ) (met : Circumstances) :
    Scc2Engine S :=
  let oldState := s.read key
  { s with
    stateMap := s.stateMap.touch app key now (app.apply event)
    indexes :=
      s.indexes.tryReindex json app key oldState (app.apply event (oldState.getD app.default))
        met.changeLocked }

/-- The event of a change is sent, if it is to be persisted. -/
def trySend (s : Scc2Engine S) (event : E) (persist : Bool) (now : ℕ) (met : Circumstances) :
    Except String Unit × Scc2Engine S :=
  if persist && config.autoPersistWrites then
    if met.closed then (.error ("Failed to send event to async writer: " ++ "channel closed"), s)
    else (.ok (), { s with writer := s.writer.send (.event (app.toJson now event)) })
  else (.ok (), s)

/-- What `apply_event` returns, and the engine after it. -/
def tryApplyEvent (s : Scc2Engine S) (key : String) (event : E) (persist : Bool) (now : ℕ)
    (met : Circumstances) : Except String Unit × Scc2Engine S :=
  match s.tryCheckUniqueness json app event key met with
  | .error message => (.error message, s)
  | .ok () =>
    if met.entryLocked then (.error "Failed to acquire entry lock", s)
    else (s.tryChange json app key event now met).trySend app config event persist now met

theorem tryCheckUniqueness_free (s : Scc2Engine S) (event : E) (key : String) :
    s.tryCheckUniqueness json app event key .free = s.checkUniqueness json app event key := by
  let state := app.apply event ((s.read key).getD app.default)
  have hfields := List.zipIdx_map_fst 0 (app.getAllFields state)
  have hfirst : (app.getAllFields state).zipIdx.findSome?
        (fun field ↦ s.indexes.violation json app key state field.1) =
      (app.getAllFields state).findSome? (s.indexes.violation json app key state) := by
    conv_rhs => rw [← hfields, List.findSome?_map]
    rfl
  show (match (app.getAllFields state).zipIdx.findSome?
      (fun field ↦ s.indexes.violation json app key state field.1) with
    | some message => Except.error message
    | none => Except.ok ()) = _
  rw [hfirst]
  rfl

/-- A call that meets nothing is the one that has the engine to itself. -/
theorem tryApplyEvent_free (s : Scc2Engine S) (key : String) (event : E) (persist : Bool)
    (now : ℕ) :
    s.tryApplyEvent json app config key event persist now .free =
      match s.applyEvent json app
        { config with autoPersistWrites := config.autoPersistWrites && persist } key event now with
      | .ok next => (.ok (), next)
      | .error message => (.error message, s) := by
  unfold tryApplyEvent applyEvent
  rw [tryCheckUniqueness_free]
  cases s.checkUniqueness json app event key with
  | error message => rfl
  | ok _ =>
    unfold tryChange trySend sentTexts
    rw [Bool.and_comm]
    cases hsent : config.autoPersistWrites && persist with
    | true => simp [Circumstances.free, Indexes.tryReindex_free]
    | false => simp [Circumstances.free, Indexes.tryReindex_free]

/-! ### What an exit leaves behind -/

/-- An error leaves the states and the indexes as they were. -/
def ErrorChangesNothing (s : Scc2Engine S) (exit : Except String Unit × Scc2Engine S) : Prop :=
  ∀ message, exit.1 = .error message →
    exit.2.stateMap = s.stateMap ∧ exit.2.indexes = s.indexes

/-- What has changed is sent to the writer. -/
def ChangeIsSent (s : Scc2Engine S) (text : String) (exit : Except String Unit × Scc2Engine S) :
    Prop :=
  exit.2.stateMap ≠ s.stateMap ∨ exit.2.indexes ≠ s.indexes →
    exit.2.writer.channel = s.writer.channel ++ [.event text]

/-- An error changes nothing and, where an event was to be persisted, what has changed is sent. -/
structure ExitsCleanly (s : Scc2Engine S) (text : String) (asked : Bool)
    (exit : Except String Unit × Scc2Engine S) : Prop where
  error : s.ErrorChangesNothing exit
  sent : asked = true → s.ChangeIsSent text exit

/-- The event is refused, or the entry of the key is locked. -/
def Stopped (s : Scc2Engine S) (key : String) (event : E) (met : Circumstances) : Prop :=
  s.tryCheckUniqueness json app event key met ≠ .ok () ∨ met.entryLocked = true

end Scc2Engine

/-- A state that is touched has another version, or has not been there. -/
theorem StateMap.touch_ne {S E : Type*} (app : Application S E) (map : StateMap S) (key : String)
    (now : ℕ) (f : S → S) : map.touch app key now f ≠ map := by
  intro hsame
  have hlookup := congrArg (Finmap.lookup key) hsame
  unfold StateMap.touch at hlookup
  cases hentry : map.lookup key with
  | none =>
    rw [hentry] at hlookup
    dsimp only at hlookup
    rw [Finmap.lookup_insert] at hlookup
    exact absurd hlookup nofun
  | some entry =>
    rw [hentry] at hlookup
    dsimp only at hlookup
    rw [Finmap.lookup_insert] at hlookup
    have hversion := congrArg VersionedEntry.version (Option.some.inj hlookup)
    exact absurd hversion (Nat.succ_ne_self entry.version)

namespace Scc2Engine

variable {S E : Type*} {json : JsonText} {app : Application S E} {config : Scc2EngineConfig}
  {s : Scc2Engine S} {key : String} {event : E} {persist : Bool} {now : ℕ} {met : Circumstances}

variable (config persist now) in
/-- A call that is stopped returns an error, and the engine is as it was. -/
theorem tryApplyEvent_of_stopped (h : s.Stopped json app key event met) :
    ∃ message, s.tryApplyEvent json app config key event persist now met = (.error message, s) := by
  unfold tryApplyEvent
  cases hcheck : s.tryCheckUniqueness json app event key met with
  | error message => exact ⟨message, rfl⟩
  | ok _ =>
    have hlocked : met.entryLocked = true := h.resolve_left fun hne ↦ hne hcheck
    rw [hlocked]
    exact ⟨_, rfl⟩

/-- A call that is not stopped changes the state under the key. -/
theorem tryApplyEvent_of_not_stopped (h : ¬ s.Stopped json app key event met) :
    s.tryApplyEvent json app config key event persist now met =
      (s.tryChange json app key event now met).trySend app config event persist now met := by
  obtain ⟨hcheck, hlocked⟩ := not_or.mp h
  unfold tryApplyEvent
  rw [not_not.mp hcheck, Bool.eq_false_iff.mpr hlocked]
  rfl

theorem tryChange_stateMap_ne : (s.tryChange json app key event now met).stateMap ≠ s.stateMap :=
  StateMap.touch_ne app s.stateMap key now (app.apply event)

variable (json app config s key event persist now met)

theorem errorChangesNothing_iff :
    s.ErrorChangesNothing (s.tryApplyEvent json app config key event persist now met) ↔
      s.Stopped json app key event met ∨ (persist && config.autoPersistWrites) = false ∨
        met.closed = false := by
  by_cases hstopped : s.Stopped json app key event met
  · obtain ⟨message, hexit⟩ := tryApplyEvent_of_stopped config persist now hstopped
    rw [hexit]
    exact iff_of_true (fun _ _ ↦ ⟨rfl, rfl⟩) (.inl hstopped)
  · rw [tryApplyEvent_of_not_stopped hstopped, or_iff_right hstopped, trySend]
    cases hasked : persist && config.autoPersistWrites with
    | false => exact iff_of_true (fun _ h ↦ absurd h nofun) (.inl rfl)
    | true =>
      cases hclosed : met.closed with
      | false => exact iff_of_true (fun _ h ↦ absurd h nofun) (.inr rfl)
      | true =>
        refine iff_of_false (fun h ↦ ?_) (not_or.mpr ⟨nofun, nofun⟩)
        exact tryChange_stateMap_ne (h _ rfl).1

theorem changeIsSent_iff :
    s.ChangeIsSent (app.toJson now event)
        (s.tryApplyEvent json app config key event persist now met) ↔
      s.Stopped json app key event met ∨
        (persist && config.autoPersistWrites) = true ∧ met.closed = false := by
  by_cases hstopped : s.Stopped json app key event met
  · obtain ⟨message, hexit⟩ := tryApplyEvent_of_stopped config persist now hstopped
    rw [hexit]
    refine iff_of_true (fun h ↦ ?_) (.inl hstopped)
    exact absurd h (not_or.mpr ⟨fun h ↦ h rfl, fun h ↦ h rfl⟩)
  · have hunsent (hsame : s.writer.channel =
        s.writer.channel ++ [.event (app.toJson now event)]) : False :=
      absurd (List.self_eq_append_right.mp hsame) nofun
    rw [tryApplyEvent_of_not_stopped hstopped, or_iff_right hstopped, trySend]
    cases hasked : persist && config.autoPersistWrites with
    | false =>
      exact iff_of_false (fun h ↦ hunsent (h (.inl tryChange_stateMap_ne)))
        fun h ↦ absurd h.1 nofun
    | true =>
      cases hclosed : met.closed with
      | false => exact iff_of_true (fun _ ↦ rfl) ⟨rfl, rfl⟩
      | true =>
        exact iff_of_false (fun h ↦ hunsent (h (.inl tryChange_stateMap_ne)))
          fun h ↦ absurd h.2 nofun

/-- Which calls exit cleanly, when it is the call that asks for its event to be persisted, and when
the call and the configuration do. -/
theorem exits_iff :
    (s.ExitsCleanly (app.toJson now event) persist
        (s.tryApplyEvent json app config key event persist now met) ↔
      s.Stopped json app key event met ∨ persist = false ∨
        (config.autoPersistWrites = true ∧ met.closed = false)) ∧
    (s.ExitsCleanly (app.toJson now event) (persist && config.autoPersistWrites)
        (s.tryApplyEvent json app config key event persist now met) ↔
      s.Stopped json app key event met ∨ (persist && config.autoPersistWrites) = false ∨
        met.closed = false) := by
  have herror := errorChangesNothing_iff json app config s key event persist now met
  have hsent := changeIsSent_iff json app config s key event persist now met
  constructor
  · constructor
    · rintro ⟨-, hasked⟩
      cases persist with
      | false => exact .inr (.inl rfl)
      | true => exact (hsent.mp (hasked rfl)).imp_right .inr
    · intro h
      refine ⟨herror.mpr (h.imp_right ?_), fun hasked ↦ hsent.mpr (h.imp_right ?_)⟩
      · rintro (rfl | ⟨-, hopen⟩)
        · exact .inl rfl
        · exact .inr hopen
      · rintro (hunasked | ⟨hconfig, hopen⟩)
        · exact absurd (hasked.symm.trans hunasked) nofun
        · exact ⟨by rw [hasked, hconfig]; rfl, hopen⟩
  · constructor
    · exact fun h ↦ herror.mp h.error
    · intro h
      refine ⟨herror.mpr h, fun hasked ↦ hsent.mpr (h.imp_right ?_)⟩
      rintro (hunasked | hopen)
      · exact absurd (hasked.symm.trans hunasked) nofun
      · exact ⟨hasked, hopen⟩

/-- Nothing is locked, and the writer is gone. -/
def gone : Circumstances := { Circumstances.free with closed := true }

/-- The first address is there after the call that could not send it has failed. -/
theorem not_exits_closed :
    let engine : Scc2Engine String := new FileStorage.empty
    let json : JsonText := ⟨fun _ ↦ none, fun _ ↦ ""⟩
    ¬ engine.ExitsCleanly "x" true
      (engine.tryApplyEvent json mailbox ⟨true, true⟩ "a" "x" true 0 gone) := by
  intro engine json h
  have hpasses : engine.tryCheckUniqueness json mailbox "x" "a" gone = .ok () := rfl
  rcases (errorChangesNothing_iff ..).mp h.error with hstopped | hunasked | hopen
  · exact hstopped.elim (fun hne ↦ hne hpasses) nofun
  · exact absurd hunasked nofun
  · exact absurd hopen nofun

end Scc2Engine

end Lithair.Engine
