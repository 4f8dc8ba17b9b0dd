import Lithair.Session.Middleware

/-!
# Setting a session

`set` of `session/persistent_store.rs` creates a session whose id is new and updates one that is
there. `SessionUpdated::apply` of `session/events.rs` takes the data of its event and passes over
the user, the role and the expiry, although the event has them.

`stores_iff_sameButData`: a session is found as it was set exactly when there was none under its id,
or one that differs from it in its data alone.
-/

namespace Lithair.Sessions

open Lithair.Lib Lithair.Lib.Run

namespace Store

/-- The steps of a set that returns without an error: it looks up the id, applies the event, and
appends it to the log. -/
def setSteps (c : ℕ) (session : Session) (now : ℤ) : List StoreAction :=
  [.set c session, .apply c now, .persist c]

/-- A session is found with its id, its data and its expiry, and is kept with its user and role. -/
structure Stores (s : Store) (session : Session) : Prop where
  found : ∃ result, PersistentSessionStore.get s.state session.id = some result ∧
    result.id = session.id ∧ result.data = session.data ∧ result.expiresAt = session.expiresAt
  kept : ∃ stored, s.state.lookup session.id = some stored ∧
    stored.userId = (SessionData.ofSession session).userId ∧
    stored.role = (SessionData.ofSession session).role

/-- The session under the id, if there is one, differs from the new one in its data alone. -/
def SameButData (s : Store) (session : Session) : Prop :=
  ∀ old ∈ s.state.lookup session.id,
    { old with data := session.data } = SessionData.ofSession session

variable {s : Store} {session : Session} {now : ℤ} {c : ℕ}

theorem stores_iff_lookup :
    s.Stores session ↔ s.state.lookup session.id = some (.ofSession session) := by
  constructor
  · rintro ⟨⟨result, hget, hid, hdata, hexpires⟩, stored, hstored, huser, hrole⟩
    have hresult : result = stored.toSession := by
      rw [PersistentSessionStore.get, hstored] at hget
      exact (Option.some.inj hget).symm
    subst hresult
    obtain ⟨id, userId, role, expiresAt, data⟩ := stored
    obtain ⟨rfl, rfl, rfl⟩ : id = session.id ∧ data = session.data ∧
        expiresAt = session.expiresAt := ⟨hid, hdata, hexpires⟩
    obtain ⟨rfl, rfl⟩ : userId = (SessionData.ofSession session).userId ∧
        role = (SessionData.ofSession session).role := ⟨huser, hrole⟩
    exact hstored
  · intro hlookup
    refine ⟨⟨session, ?_, rfl, rfl, rfl⟩, .ofSession session, hlookup, rfl, rfl⟩
    rw [PersistentSessionStore.get, hlookup]
    rfl

/-- The event of a set makes a session of what is under the id. -/
theorem lookup_apply_setEvent (state : SessionState) :
    ((setEvent session (decide (session.id ∈ state))).apply now state).lookup session.id =
      match state.lookup session.id with
      | some old => some { old with data := session.data }
      | none => some (.ofSession session) := by
  cases hlookup : state.lookup session.id with
  | none =>
    have hnew : session.id ∉ state := Finmap.lookup_eq_none.mp hlookup
    rw [decide_eq_false hnew]
    exact Finmap.lookup_insert state
  | some old =>
    have hold : session.id ∈ state := Finmap.mem_of_lookup_eq_some hlookup
    have happly : (setEvent session true).apply now state =
        match state.lookup session.id with
        | some old => state.insert session.id (old.update (setEvent session true).record)
        | none => state := rfl
    rw [decide_eq_true hold, happly, hlookup]
    exact Finmap.lookup_insert state

/-- What a set does. -/
theorem exec_setSteps (hfree : s.calls c = none) (session : Session) (now : ℤ) :
    ∃ t, exec step s (setSteps c session now) = some t ∧
      t.state = (setEvent session (decide (session.id ∈ s.state))).apply now s.state := by
  have hset : step s (.set c session) =
      some (s.setCall c (some (.setting session (decide (session.id ∈ s.state))))) := by
    rw [step, hfree]
    rfl
  rw [setSteps, exec_cons, hset, Option.bind_some]
  simp only [exec_cons, step, setCall, Function.update_self, Option.bind_some, exec_nil]
  exact ⟨_, rfl, rfl⟩

/-- Whatever a store holds, a session is found as it was set exactly when there was none under its
id, or one that differs from it in its data alone. -/
theorem stores_iff_sameButData (s : Store) (session : Session) (now : ℤ) {c : ℕ}
    (hfree : s.calls c = none) :
    ∃ t, exec step s (setSteps c session now) = some t ∧
      (t.Stores session ↔ s.SameButData session) := by
  obtain ⟨t, hexec, hstate⟩ := exec_setSteps hfree session now
  refine ⟨t, hexec, ?_⟩
  rw [stores_iff_lookup, hstate, lookup_apply_setEvent]
  unfold SameButData
  cases s.state.lookup session.id with
  | none => exact iff_of_true rfl fun old hold ↦ absurd hold (by simp)
  | some old => simp only [Option.some.injEq, Option.mem_some_iff, forall_eq']

/-- A new session is stored. -/
theorem stores_iff_sameButData_alice :
    (start (fun _ ↦ 0) []).calls 0 = none ∧
      ∃ t, exec step (start (fun _ ↦ 0) []) (setSteps 0 alice 0) = some t ∧
        (t.Stores alice ↔ (start (fun _ ↦ 0) []).SameButData alice) :=
  ⟨rfl, stores_iff_sameButData _ alice 0 rfl⟩

/-- A session of Alice that is set again with a later expiry still expires when it did. -/
theorem update_keeps_expiry : ¬ ∀ (s : Store) (session : Session) (now : ℤ) (c : ℕ) (t : Store),
    s.calls c = none → exec step s (setSteps c session now) = some t → t.Stores session := by
  intro h
  let opened := start (fun _ ↦ 0) [(setEvent alice false).record]
  obtain ⟨t, hexec, hstate⟩ :=
    exec_setSteps (s := opened) (c := 0) rfl { alice with expiresAt := 200 } 0
  have hstores := stores_iff_lookup.mp (h _ _ 0 0 t rfl hexec)
  rw [hstate, lookup_apply_setEvent] at hstores
  have hexpires := congrArg (Option.map SessionData.expiresAt) hstores
  revert hexpires
  decide

end Store

end Lithair.Sessions
