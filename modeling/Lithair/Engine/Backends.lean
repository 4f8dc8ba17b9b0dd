import Lithair.Engine.Restart

/-!
# The two backends of the engine

`StateStorage` of `engine/mod.rs`: with `LT_USE_SCC2=0` an engine holds a single state behind a
lock, else the states by key of `Scc2Engine`. Both are driven by the same calls here, with restarts
over the same directory. The single state has no keys, is in no file, and is the default state in
every new engine.

`disagree_and_agreeOnStates_iff`: in no state of any run do the two return the same for every key,
since a key without an event reads as the default state in one and as nothing in the other; and on
the keys that have a state, they agree throughout a run exactly when each event does to the single
state what it does to the state of its key, and nothing under another key, and a restart brings back
only default states. Under a single key they agree until the restart (`agreesOn_oneKey`).
-/

namespace Lithair.Engine

open Lithair.Lib.Run

namespace RwLockStorage

variable {S E : Type*} (app : Application S E)

def new : S := app.default

/-- The state is read whatever the key is. -/
def readState (state : S) (_aggregateId : String) : Option S := some state

/-- The event is applied whatever the key is; nothing is sent to the event store. -/
def applyEvent (state : S) (_key : String) (event : E) : S := app.apply event state

end RwLockStorage

/-- Two engines that are given the same calls. -/
structure Backends (S : Type*) where
  rwLock : S
  scc2 : Running S

/-- A call, a restart, or a step of the writer; or the state under a key is read. -/
inductive BackendAction (E : Type*)
  | readState (aggregateId : String)
  | call (a : EngineAction E)

namespace Backends

variable {S E : Type*} (setup : EngineSetup S E)

/-- Two new engines in empty directories. -/
def start : Backends S where
  rwLock := RwLockStorage.new setup.app
  scc2 := Running.start

/-- What becomes of the single state. -/
def rwLockStep (state : S) : EngineAction E → S
  | .applyEvent key event _ => RwLockStorage.applyEvent setup.app state key event
  | .restart _ => RwLockStorage.new setup.app
  | .flush _ | .receive | .timeout => state

def step (s : Backends S) : BackendAction E → Option (Backends S)
  | .readState _ => some s
  | .call a => (Running.step setup s.scc2 a).map fun scc2 ↦ ⟨rwLockStep setup s.rwLock a, scc2⟩

/-- The data under each key in the engine that has keys. -/
def data (s : Backends S) : String → Option S := dataOf s.scc2.engine.stateMap

/-- Both return the same for the key. -/
def AgreesOn (s : Backends S) (key : String) : Prop :=
  RwLockStorage.readState s.rwLock key = s.scc2.engine.read key

def Agree (s : Backends S) : Prop := ∀ key, s.AgreesOn key

/-- Both return the same for the keys that have a state of their own. -/
def AgreeOnStates (s : Backends S) : Prop := ∀ key, (s.data key).isSome → s.AgreesOn key

/-- The event is applied and does to the state of its key what it does to the single state, which no
other key tells apart from before; or it is refused, and no key tells. A restart brings back default
states only. -/
def SameUnderKeys (s : Backends S) : BackendAction E → Prop
  | .readState _ => True
  | .call (.applyEvent key event _) =>
    (s.scc2.engine.checkUniqueness setup.json setup.app event key = .ok () →
        setup.app.apply event ((s.data key).getD setup.app.default) =
          setup.app.apply event s.rwLock) ∧
      ((∃ other, (s.data other).isSome ∧ (other ≠ key ∨
          s.scc2.engine.checkUniqueness setup.json setup.app event key ≠ .ok ())) →
        setup.app.apply event s.rwLock = s.rwLock)
  | .call (.restart _) => ∀ events,
    (s.scc2.engine.writer.store.readAllEvents setup.crc32).map
        (List.filterMap (Scc2Engine.keyedEvent setup.json setup.app)) = some events →
      ∀ key state, events.foldl (Scc2Engine.effect setup.app) (fun _ ↦ none) key = some state →
        state = setup.app.default
  | .call _ => True

section Steps

variable {setup} {s next : Backends S}

theorem agreesOn_iff {key : String} : s.AgreesOn key ↔ s.data key = some s.rwLock := eq_comm

theorem agreeOnStates_iff :
    s.AgreeOnStates ↔ ∀ key state, s.data key = some state → state = s.rwLock := by
  unfold AgreeOnStates
  constructor
  · intro h key state hstate
    have hagrees := agreesOn_iff.mp (h key (by rw [hstate]; rfl))
    exact Option.some.inj (hstate.symm.trans hagrees)
  · intro h key hsome
    obtain ⟨state, hstate⟩ := Option.isSome_iff_exists.mp hsome
    rw [agreesOn_iff, hstate, h key state hstate]

/-- There are more keys than an engine has states. -/
theorem not_agree (s : Backends S) : ¬ s.Agree := by
  intro h
  obtain ⟨key, hkey⟩ := Infinite.exists_notMem_finset s.scc2.engine.stateMap.keys
  have hnone : s.data key = none := by
    have hlookup := Finmap.lookup_eq_none.mpr fun hmem ↦ hkey (Finmap.mem_keys.mpr hmem)
    rw [data, dataOf, hlookup]
    rfl
  exact absurd ((agreesOn_iff.mp (h key)).symm.trans hnone) (by simp)

/-- What happens to the states when an event is applied, or refused. -/
theorem step_applyEvent {key : String} {event : E} {now : ℕ}
    (hnext : step setup s (.call (.applyEvent key event now)) = some next) :
    next.rwLock = setup.app.apply event s.rwLock ∧
      next.data =
        if s.scc2.engine.checkUniqueness setup.json setup.app event key = .ok () then
          Scc2Engine.effect setup.app s.data (key, event)
        else s.data := by
  obtain ⟨scc2, hscc2, rfl⟩ := Option.map_eq_some_iff.mp hnext
  refine ⟨rfl, ?_⟩
  obtain ⟨-, ⟨engine, happly, hunique, rfl⟩ | ⟨hrefused, rfl⟩⟩ := Running.step_applyEvent hscc2
  · rw [if_pos hunique]
    exact (Scc2Engine.applyEvent_spec _ _ _ happly).1
  · rw [if_neg hrefused]
    rfl

theorem step_restart {now : ℕ} (hnext : step setup s (.call (.restart now)) = some next) :
    next.rwLock = setup.app.default ∧ ∃ events,
      (s.scc2.engine.writer.store.readAllEvents setup.crc32).map
          (List.filterMap (Scc2Engine.keyedEvent setup.json setup.app)) = some events ∧
        next.data = events.foldl (Scc2Engine.effect setup.app) (fun _ ↦ none) := by
  obtain ⟨scc2, hscc2, rfl⟩ := Option.map_eq_some_iff.mp hnext
  obtain ⟨-, engine, hstart, rfl⟩ := Running.step_restart hscc2
  obtain ⟨events, hevents, hdata⟩ := Running.start_data_iff.mp ⟨engine, hstart, rfl⟩
  exact ⟨rfl, events, hevents, hdata.symm⟩

/-- The other steps leave all states as they are. -/
theorem step_other {a : BackendAction E}
    (happly : ∀ key event now, a ≠ .call (.applyEvent key event now))
    (hrestart : ∀ now, a ≠ .call (.restart now)) (hnext : step setup s a = some next) :
    next.rwLock = s.rwLock ∧ next.data = s.data := by
  cases a with
  | readState => exact Option.some.inj hnext ▸ ⟨rfl, rfl⟩
  | call a =>
    obtain ⟨scc2, hscc2, rfl⟩ := Option.map_eq_some_iff.mp hnext
    cases a with
    | applyEvent key event now => exact absurd rfl (happly key event now)
    | restart now => exact absurd rfl (hrestart now)
    | flush ack =>
      simp only [Running.step] at hscc2
      split_ifs at hscc2
      obtain rfl := Option.some.inj hscc2
      exact ⟨rfl, rfl⟩
    | receive =>
      obtain ⟨w', -, rfl⟩ := Option.map_eq_some_iff.mp hscc2
      exact ⟨rfl, rfl⟩
    | timeout =>
      obtain ⟨w', -, rfl⟩ := Option.map_eq_some_iff.mp hscc2
      exact ⟨rfl, rfl⟩

theorem agreeOnStates_applyEvent_iff {key : String} {event : E} {now : ℕ}
    (hagree : s.AgreeOnStates)
    (hnext : step setup s (.call (.applyEvent key event now)) = some next) :
    next.AgreeOnStates ↔ SameUnderKeys setup s (.call (.applyEvent key event now)) := by
  obtain ⟨hrwLock, hdata⟩ := step_applyEvent hnext
  have hold := agreeOnStates_iff.mp hagree
  rw [agreeOnStates_iff, hrwLock, hdata]
  constructor
  · intro h
    refine ⟨fun hunique ↦ ?_, ?_⟩
    · have hkey := h key
      rw [if_pos hunique] at hkey
      exact hkey _ (Function.update_self ..)
    · rintro ⟨other, hsome, hother⟩
      obtain ⟨state, hstate⟩ := Option.isSome_iff_exists.mp hsome
      have hsame := h other state
      split_ifs at hsame with hunique
      · have hne : other ≠ key := hother.resolve_right (not_not.mpr hunique)
        rw [Scc2Engine.effect, Function.update_of_ne hne] at hsame
        exact (hsame hstate).symm.trans (hold other state hstate)
      · exact (hsame hstate).symm.trans (hold other state hstate)
  · rintro ⟨hkey, hothers⟩ other state hstate
    split_ifs at hstate with hunique
    · by_cases hother : other = key
      · subst hother
        rw [Scc2Engine.effect, Function.update_self] at hstate
        exact (Option.some.inj hstate).symm.trans (hkey hunique)
      · rw [Scc2Engine.effect, Function.update_of_ne hother] at hstate
        rw [hothers ⟨other, by rw [hstate]; rfl, Or.inl hother⟩]
        exact hold other state hstate
    · rw [hothers ⟨other, by rw [hstate]; rfl, Or.inr hunique⟩]
      exact hold other state hstate

theorem agreeOnStates_step {a : BackendAction E} (hagree : s.AgreeOnStates)
    (hnext : step setup s a = some next) : next.AgreeOnStates ↔ SameUnderKeys setup s a := by
  have hsame : (next.rwLock = s.rwLock ∧ next.data = s.data) → next.AgreeOnStates := by
    rintro ⟨hrwLock, hdata⟩
    rw [agreeOnStates_iff, hrwLock, hdata]
    exact agreeOnStates_iff.mp hagree
  cases a with
  | readState => exact iff_of_true (hsame (step_other (by simp) (by simp) hnext)) trivial
  | call a =>
    cases a with
    | applyEvent key event now => exact agreeOnStates_applyEvent_iff hagree hnext
    | restart now =>
      obtain ⟨hrwLock, events, hevents, hdata⟩ := step_restart hnext
      rw [agreeOnStates_iff, hrwLock, hdata]
      constructor
      · intro h events' hevents'
        obtain rfl := Option.some.inj (hevents.symm.trans hevents')
        exact h
      · intro h
        exact h events hevents
    | flush | receive | timeout =>
      exact iff_of_true (hsame (step_other (by simp) (by simp) hnext)) trivial

/-- Calls that apply their events under one key. -/
def UnderKey (setup : EngineSetup S E) (key : String) (s : Backends S) : BackendAction E → Prop
  | .call (.applyEvent key' event _) =>
    key' = key ∧ s.scc2.engine.checkUniqueness setup.json setup.app event key = .ok ()
  | .call (.restart _) => False
  | _ => True

/-- As long as every event is applied under the one key, both hold the same under it, where no state
counts as the default one. -/
theorem agreesOn_oneKey (key : String) (actions : List (BackendAction E))
    (h : EachStep (step setup) (UnderKey setup key) (start setup) actions) :
    Always (step setup) (fun s ↦ (s.data key).getD setup.app.default = s.rwLock) (start setup)
      actions := by
  refine EachStep.always ?_ rfl h
  intro s a next hsame hunder hnext
  have hother : (next.rwLock = s.rwLock ∧ next.data = s.data) →
      (next.data key).getD setup.app.default = next.rwLock := by
    rintro ⟨hrwLock, hdata⟩
    rw [hrwLock, hdata]
    exact hsame
  cases a with
  | readState => exact hother (step_other (by simp) (by simp) hnext)
  | call a =>
    cases a with
    | applyEvent key' event now =>
      obtain ⟨rfl, hunique⟩ := hunder
      obtain ⟨hrwLock, hdata⟩ := step_applyEvent hnext
      rw [if_pos hunique] at hdata
      rw [hrwLock, hdata, Scc2Engine.effect, Function.update_self, Option.getD_some, hsame]
    | restart now => exact hunder.elim
    | flush | receive | timeout => exact hother (step_other (by simp) (by simp) hnext)

/-- A counter that is incremented under its key, and read. -/
theorem agreesOn_oneKey_counter :
    Always (step (counterSetup fun _ ↦ 0)) (fun s ↦ (s.data "a").getD 0 = s.rwLock)
      (start (counterSetup fun _ ↦ 0)) [.call (.applyEvent "a" .increment 0), .readState "a"] :=
  agreesOn_oneKey "a" _ fun _ _ ↦ ⟨⟨rfl, rfl⟩, fun _ _ ↦ ⟨trivial, trivial⟩⟩

end Steps

end Backends

open Backends in
/-- In every run, the two backends nowhere return the same for all keys; and on the keys that have a
state they agree throughout exactly when each step does the same to both. -/
theorem disagree_and_agreeOnStates_iff {S E : Type*} (setup : EngineSetup S E)
    (actions : List (BackendAction E)) :
    Always (step setup) (fun s ↦ ¬ s.Agree) (start setup) actions ∧
      (Always (step setup) AgreeOnStates (start setup) actions ↔
        EachStep (step setup) (SameUnderKeys setup) (start setup) actions) := by
  have hkept : Kept (step setup) fun _ ↦ True := fun _ _ _ _ _ ↦ trivial
  have hstart : (start setup).AgreeOnStates := by
    rw [agreeOnStates_iff]
    intro key state hstate
    have hnone : (start setup).data key = none := rfl
    exact absurd (hnone.symm.trans hstate) (by simp)
  constructor
  · exact always_iff_forall_prefix.mpr fun _ s _ _ ↦ not_agree s
  · exact always_iff_eachStep hkept (fun _ _ _ _ hagree hnext ↦ agreeOnStates_step hagree hnext)
      trivial hstart actions

open Backends in
/-- The counter under the key `a` is incremented: the counter under the key `b` is 1 in one engine,
and not there in the other. -/
theorem counter_under_other_key : ¬ ∃ crc32, ∀ actions,
    Always (step (counterSetup crc32)) Agree (start (counterSetup crc32)) actions := by
  rintro ⟨crc32, h⟩
  have hrun := h [.call (.applyEvent "a" .increment 0), .readState "b"]
  have hagree := (hrun.2 _ rfl).1 "b"
  have hb : (none : Option ℕ) = some 1 := agreesOn_iff.mp hagree
  exact absurd hb (by simp)

end Lithair.Engine
