import Lithair.Session.Middleware

/-!
# Logging out beside other requests

`extract_session` of the session middleware reads a session, touches it, and writes it back, and
between these a deletion of the session can come. The store in memory puts in whatever it is given,
and the persistent store decides between an update and a creation when it looks, which it does under
another lock than the one under which it applies the event.

A `SessionStoreKind` is what the two have in common. `final_of_undisturbed`: in a run where no
deletion is applied while an extraction is going to write a session with the same id, a deleted id
is not in the store again until a session with it is created.
-/

namespace Lithair.Sessions

open Lithair.Lib.Run

/-! ### The two stores -/

/-- Sessions that stand under their ids. -/
def Keyed {D : Type} (read : D → Session) (sessions : Finmap fun _ : String ↦ D) : Prop :=
  ∀ id d, sessions.lookup id = some d → (read d).id = id

/-- A store of sessions: how a session is read from what is kept, whether a set looks first if the
session is present, and what it makes of the sessions then. A set puts in the session's id at most,
and not even that when it has found the session present. -/
structure SessionStoreKind (D : Type) where
  read : D → Session
  looks : Bool
  set : Session → Bool → (Finmap fun _ : String ↦ D) → Finmap fun _ : String ↦ D
  mem_set : ∀ {session present sessions id}, id ∈ set session present sessions →
    id = session.id ∨ id ∈ sessions
  mem_of_present : looks = true → ∀ {session sessions id}, id ∈ set session true sessions →
    id ∈ sessions
  keyed_set : ∀ {session present sessions}, Keyed read sessions →
    Keyed read (set session present sessions)

theorem keyed_insert {D : Type} {read : D → Session} {sessions : Finmap fun _ : String ↦ D}
    (h : Keyed read sessions) {id : String} {d : D} (hd : (read d).id = id) :
    Keyed read (sessions.insert id d) := by
  intro other e he
  by_cases hother : other = id
  · rw [hother, Finmap.lookup_insert, Option.some.injEq] at he
    rw [← he, hd, hother]
  · rw [Finmap.lookup_insert_of_ne _ hother] at he
    exact h other e he

/-- `MemorySessionStore`: a set is one insertion. -/
def memorySessionStore : SessionStoreKind Session where
  read := id
  looks := false
  set := fun session _ sessions ↦ sessions.insert session.id session
  mem_set := fun h ↦ Finmap.mem_insert.mp h
  mem_of_present := fun h ↦ absurd h Bool.false_ne_true
  keyed_set := fun h ↦ keyed_insert h rfl

/-- `PersistentSessionStore`: a set applies one of two events. Both are dated, so that the time does
not matter. -/
def persistentSessionStore : SessionStoreKind SessionData where
  read := SessionData.toSession
  looks := true
  set := fun session present state ↦ (setEvent session present).apply 0 state
  mem_set := by
    intro session present state id h
    cases present with
    | false => exact Finmap.mem_insert.mp h
    | true =>
      unfold setEvent SessionEvent.apply at h
      simp only [if_true] at h
      split at h
      · exact Finmap.mem_insert.mp h
      · exact Or.inr h
  mem_of_present := by
    intro _ session state id h
    unfold setEvent SessionEvent.apply at h
    simp only [if_true] at h
    split at h
    · next found hfound =>
      rcases Finmap.mem_insert.mp h with rfl | h
      · exact Finmap.mem_of_lookup_eq_some hfound
      · exact h
    · exact h
  keyed_set := by
    intro session present state h
    cases present with
    | false => exact keyed_insert h rfl
    | true =>
      unfold setEvent SessionEvent.apply
      simp only [if_true]
      split
      · next found hfound => exact keyed_insert h (h session.id found hfound)
      · exact h

/-! ### The calls -/

/-- Where a call is: an extraction before it has read the session; a set, of an extraction or of a
login that creates the session; a set of a store that has looked; or a deletion. -/
inductive Access
  | extracting (id : String)
  | setting (session : Session) (created : Bool)
  | looked (session : Session) (present created : Bool)
  | deleting (id : String)

/-- Only a store that looks has looked, and an extraction is not going to put in a deleted
session. -/
def Access.Allowed {D : Type} (kind : SessionStoreKind D) (deleted : Finset String) :
    Access → Prop
  | .setting session created => created = false → session.id ∉ deleted
  | .looked session present created =>
    kind.looks = true ∧ (present = false → created = false → session.id ∉ deleted)
  | _ => True

theorem Access.Allowed.mono {D : Type} {kind : SessionStoreKind D} {deleted fewer : Finset String}
    {access : Access} (h : access.Allowed kind deleted) (hsub : fewer ⊆ deleted) :
    access.Allowed kind fewer := by
  cases access with
  | setting session created => exact fun hcreated hmem ↦ h hcreated (hsub hmem)
  | looked session present created =>
    exact ⟨h.1, fun hpresent hcreated hmem ↦ h.2 hpresent hcreated (hsub hmem)⟩
  | _ => trivial

/-- The sessions, the calls, and the ids that were deleted and not created since. -/
structure SharedSessions (D : Type) where
  sessions : Finmap fun _ : String ↦ D
  calls : ℕ → Option Access
  deleted : Finset String

inductive AccessAction
  | extract (c : ℕ) (id : String)
  | create (c : ℕ) (session : Session)
  | delete (c : ℕ) (id : String)
  | read (c : ℕ) (now : ℤ)
  | look (c : ℕ)
  | apply (c : ℕ)

namespace SharedSessions

variable {D : Type} (kind : SessionStoreKind D)

def start (sessions : {sessions : Finmap fun _ : String ↦ D // Keyed kind.read sessions}) :
    SharedSessions D where
  sessions := sessions.val
  calls := fun _ ↦ none
  deleted := ∅

def setCall (s : SharedSessions D) (c : ℕ) (call : Option Access) : SharedSessions D :=
  { s with calls := Function.update s.calls c call }

/-- Write a session. When it is created, and is there then, its id is not deleted any more. -/
def write (s : SharedSessions D) (session : Session) (present created : Bool) : SharedSessions D :=
  let sessions := kind.set session present s.sessions
  { s with
    sessions
    deleted := if created ∧ session.id ∈ sessions then s.deleted.erase session.id else s.deleted }

def step (s : SharedSessions D) : AccessAction → Option (SharedSessions D)
  | .extract c id =>
    if (s.calls c).isNone then some (s.setCall c (some (.extracting id))) else none
  | .create c session =>
    if (s.calls c).isNone then some (s.setCall c (some (.setting session true))) else none
  | .delete c id => if (s.calls c).isNone then some (s.setCall c (some (.deleting id))) else none
  | .read c now =>
    match s.calls c with
    | some (.extracting id) =>
      match Found.ofGet now id ((s.sessions.lookup id).map kind.read) with
      | .nothing => some (s.setCall c none)
      | .expired id => some (s.setCall c (some (.deleting id)))
      | .live session => some (s.setCall c (some (.setting session false)))
    | _ => none
  | .look c =>
    match s.calls c with
    | some (.setting session created) =>
      if kind.looks then
        some (s.setCall c (some (.looked session (decide (session.id ∈ s.sessions)) created)))
      else none
    | _ => none
  | .apply c =>
    match s.calls c with
    | some (.setting session created) =>
      if kind.looks then none else some ((s.write kind session false created).setCall c none)
    | some (.looked session present created) =>
      some ((s.write kind session present created).setCall c none)
    | some (.deleting id) =>
      some ({ s with
        sessions := s.sessions.erase id
        deleted := insert id s.deleted }.setCall c none)
    | _ => none

/-! ### What is meant to hold -/

/-- A deleted session is not in the store until it is created again. -/
def Final (s : SharedSessions D) : Prop := ∀ id ∈ s.deleted, id ∉ s.sessions

/-- An extraction has read a session, which is going to be put in. -/
def Holds (s : SharedSessions D) (id : String) : Prop :=
  ∃ c session, session.id = id ∧
    (s.calls c = some (.setting session false) ∨ s.calls c = some (.looked session false false))

/-- No session is deleted while an extraction is going to put it in. -/
def Undisturbed (s : SharedSessions D) : AccessAction → Prop
  | .apply c => ∀ id, s.calls c = some (.deleting id) → ¬ s.Holds id
  | _ => True

/-! ### What an undisturbed run keeps -/

/-- Nothing is going to put in a deleted session, and only a store that looks has looked. -/
structure Inv (s : SharedSessions D) : Prop where
  keyed : Keyed kind.read s.sessions
  final : s.Final
  calls : ∀ c access, s.calls c = some access → access.Allowed kind s.deleted

variable {kind} {s next : SharedSessions D}

theorem inv_start (sessions : {sessions : Finmap fun _ : String ↦ D // Keyed kind.read sessions}) :
    Inv kind (start kind sessions) where
  keyed := sessions.property
  final := fun _ hid ↦ absurd hid (Finset.notMem_empty _)
  calls := fun _ _ h ↦ absurd h.symm (Option.some_ne_none _)

theorem Inv.setCall (h : Inv kind s) {c : ℕ} {call : Option Access}
    (hcall : ∀ access, call = some access → access.Allowed kind s.deleted) :
    Inv kind (s.setCall c call) where
  keyed := h.keyed
  final := h.final
  calls := by
    intro d access hd
    rcases update_eq_some_iff.mp hd with ⟨-, hnew⟩ | ⟨-, hold⟩
    · exact hcall access hnew
    · exact h.calls d access hold

theorem Inv.write (h : Inv kind s) {session : Session} {present created : Bool}
    (hpresent : present = true → kind.looks = true)
    (hfree : present = false → created = false → session.id ∉ s.deleted) :
    Inv kind (s.write kind session present created) := by
  have hsub : (s.write kind session present created).deleted ⊆ s.deleted := by
    unfold SharedSessions.write
    simp only
    split_ifs
    · exact Finset.erase_subset _ _
    · exact Finset.Subset.rfl
  refine ⟨kind.keyed_set h.keyed, fun id hid hmem ↦ ?_, fun c access hc ↦
    (h.calls c access hc).mono hsub⟩
  have hold : id ∉ s.sessions := h.final id (hsub hid)
  obtain rfl : id = session.id := (kind.mem_set hmem).resolve_right hold
  cases created with
  | true =>
    have herase : (s.write kind session present true).deleted = s.deleted.erase session.id :=
      if_pos ⟨rfl, hmem⟩
    rw [herase] at hid
    exact Finset.notMem_erase _ _ hid
  | false =>
    cases present with
    | true => exact hold (kind.mem_of_present (hpresent rfl) hmem)
    | false => exact hfree rfl rfl (hsub hid)

/-- A deletion that no extraction is in the way of. -/
theorem Inv.erase (h : Inv kind s) {id : String} (hholds : ¬ s.Holds id) :
    Inv kind { s with sessions := s.sessions.erase id, deleted := insert id s.deleted } := by
  refine ⟨fun other d hd ↦ ?_, fun other hother hmem ↦ ?_, fun c access hc ↦ ?_⟩
  · by_cases hsame : other = id
    · rw [hsame] at hd
      exact absurd ((Finmap.lookup_erase id s.sessions).symm.trans hd) (Option.some_ne_none d).symm
    · exact h.keyed other d ((Finmap.lookup_erase_ne hsame).symm.trans hd)
  · obtain ⟨hne, hmem⟩ := Finmap.mem_erase.mp hmem
    exact h.final other ((Finset.mem_insert.mp hother).resolve_left hne) hmem
  · have hallowed := h.calls c access hc
    cases access with
    | setting session created =>
      intro hcreated hmem
      rcases Finset.mem_insert.mp hmem with hid | hmem
      · exact hholds ⟨c, session, hid, Or.inl (hcreated ▸ hc)⟩
      · exact hallowed hcreated hmem
    | looked session present created =>
      refine ⟨hallowed.1, fun hpresent hcreated hmem ↦ ?_⟩
      rcases Finset.mem_insert.mp hmem with hid | hmem
      · rw [hpresent, hcreated] at hc
        exact hholds ⟨c, session, hid, Or.inr hc⟩
      · exact hallowed.2 hpresent hcreated hmem
    | _ => trivial

/-- What a call reads of the sessions is not deleted. -/
theorem Inv.allowed_of_live (h : Inv kind s) {id : String} {now : ℤ} {session : Session}
    (hlive : Found.ofGet now id ((s.sessions.lookup id).map kind.read) = .live session) :
    (Access.setting session false).Allowed kind s.deleted := by
  obtain ⟨hfound, -⟩ := Found.live_of_ofGet hlive
  obtain ⟨d, hlookup, rfl⟩ := Option.map_eq_some_iff.mp hfound
  intro _ hmem
  rw [h.keyed id d hlookup] at hmem
  exact h.final id hmem (Finmap.mem_of_lookup_eq_some hlookup)

/-- A call that begins. -/
theorem Inv.begin (h : Inv kind s) {c : ℕ} {access : Access}
    (hallowed : access.Allowed kind s.deleted)
    (hstep : (if (s.calls c).isNone then some (s.setCall c (some access)) else none) = some next) :
    Inv kind next := by
  obtain ⟨-, hnext⟩ := Option.ite_none_right_eq_some.mp hstep
  obtain rfl := Option.some.inj hnext
  exact h.setCall fun other hother ↦ Option.some.inj hother ▸ hallowed

theorem Inv.read (h : Inv kind s) {c : ℕ} {now : ℤ}
    (hstep : SharedSessions.step kind s (.read c now) = some next) : Inv kind next := by
  unfold SharedSessions.step at hstep
  simp only at hstep
  split at hstep
  on_goal 2 => exact absurd hstep.symm (Option.some_ne_none _)
  next id hcall =>
  split at hstep
  · obtain rfl := Option.some.inj hstep
    exact h.setCall fun access haccess ↦ absurd haccess.symm (Option.some_ne_none _)
  · obtain rfl := Option.some.inj hstep
    exact h.setCall fun access haccess ↦ Option.some.inj haccess ▸ trivial
  · next session hlive =>
    obtain rfl := Option.some.inj hstep
    exact h.setCall fun access haccess ↦ Option.some.inj haccess ▸ h.allowed_of_live hlive

theorem Inv.look (h : Inv kind s) {c : ℕ}
    (hstep : SharedSessions.step kind s (.look c) = some next) : Inv kind next := by
  unfold SharedSessions.step at hstep
  simp only at hstep
  split at hstep
  on_goal 2 => exact absurd hstep.symm (Option.some_ne_none _)
  next session created hcall =>
  obtain ⟨hlooks, hnext⟩ := Option.ite_none_right_eq_some.mp hstep
  obtain rfl := Option.some.inj hnext
  refine h.setCall fun access haccess ↦ ?_
  obtain rfl := Option.some.inj haccess
  exact ⟨hlooks, fun _ hcreated ↦ h.calls c _ hcall hcreated⟩

theorem Inv.apply (h : Inv kind s) {c : ℕ} (hundisturbed : Undisturbed s (.apply c))
    (hstep : SharedSessions.step kind s (.apply c) = some next) : Inv kind next := by
  have hends : ∀ access : Access, none = some access → access.Allowed kind next.deleted :=
    fun access haccess ↦ absurd haccess.symm (Option.some_ne_none _)
  unfold SharedSessions.step at hstep
  simp only at hstep
  split at hstep
  · next session created hcall =>
    split_ifs at hstep
    obtain rfl := Option.some.inj hstep
    refine (h.write (fun hpresent ↦ absurd hpresent Bool.false_ne_true) fun _ hcreated ↦ ?_).setCall
      hends
    exact h.calls c _ hcall hcreated
  · next session present created hcall =>
    obtain rfl := Option.some.inj hstep
    have hallowed := h.calls c _ hcall
    exact (h.write (fun _ ↦ hallowed.1) hallowed.2).setCall hends
  · next id hcall =>
    obtain rfl := Option.some.inj hstep
    exact (h.erase (hundisturbed id hcall)).setCall hends
  · exact absurd hstep.symm (Option.some_ne_none _)

theorem Inv.step {action : AccessAction} (h : Inv kind s) (hundisturbed : Undisturbed s action)
    (hstep : SharedSessions.step kind s action = some next) : Inv kind next := by
  cases action with
  | extract c id =>
    have hallowed : (Access.extracting id).Allowed kind s.deleted := trivial
    exact h.begin hallowed hstep
  | create c session =>
    have hallowed : (Access.setting session true).Allowed kind s.deleted :=
      fun hfalse ↦ absurd hfalse.symm Bool.false_ne_true
    exact h.begin hallowed hstep
  | delete c id =>
    have hallowed : (Access.deleting id).Allowed kind s.deleted := trivial
    exact h.begin hallowed hstep
  | read c now => exact h.read hstep
  | look c => exact h.look hstep
  | apply c => exact h.apply hundisturbed hstep

variable (kind) in
/-- In an undisturbed run a deleted session stays away until it is created again. -/
theorem final_of_undisturbed
    (sessions : {sessions : Finmap fun _ : String ↦ D // Keyed kind.read sessions})
    {actions : List AccessAction}
    (h : EachStep (SharedSessions.step kind) Undisturbed (start kind sessions) actions) :
    Always (SharedSessions.step kind) Final (start kind sessions) actions := by
  refine (EachStep.always (fun s action next ↦ ?_) (inv_start sessions) h).mono fun s hs ↦ hs.final
  exact fun hinv hundisturbed hstep ↦ hinv.step hundisturbed hstep

/-! ### A deletion between the read and the write -/

section Logout

def sampleSession : Session where
  id := "a1b2"
  data := ∅
  expiresAt := 100

/-- No sessions. -/
def noSessions (kind : SessionStoreKind D) :
    {sessions : Finmap fun _ : String ↦ D // Keyed kind.read sessions} :=
  ⟨∅, fun id d h ↦ absurd ((Finmap.lookup_empty id).symm.trans h) (Option.some_ne_none d).symm⟩

/-- A login, a request, and the logout after it. -/
def logoutAfter : List AccessAction :=
  [.create 0 sampleSession, .apply 0, .extract 1 "a1b2", .read 1 10, .apply 1,
    .delete 2 "a1b2", .apply 2]

/-- The logout comes when the request has read the session. -/
def logoutBetween : List AccessAction :=
  [.create 0 sampleSession, .apply 0, .extract 1 "a1b2", .read 1 10, .delete 2 "a1b2", .apply 2,
    .apply 1]

/-- The same with the persistent store, which looks when the session is deleted. -/
def logoutBetweenLooking : List AccessAction :=
  [.create 0 sampleSession, .look 0, .apply 0, .extract 1 "a1b2", .read 1 10, .delete 2 "a1b2",
    .apply 2, .look 1, .apply 1]

/-- The session is there again, in both stores. -/
theorem deleted_session_returns :
    (¬ ∀ sessions actions, Always (SharedSessions.step memorySessionStore) Final
      (start memorySessionStore sessions) actions) ∧
    ¬ ∀ sessions actions, Always (SharedSessions.step persistentSessionStore) Final
      (start persistentSessionStore sessions) actions := by
  constructor
  · intro h
    have hfinal := (h (noSessions _) logoutBetween).exec rfl
    exact hfinal "a1b2" (by decide) (by decide)
  · intro h
    have hfinal := (h (noSessions _) logoutBetweenLooking).exec rfl
    exact hfinal "a1b2" (by decide) (by decide)

/-- A logout with nothing beside it. -/
theorem final_of_undisturbed_logoutAfter :
    Always (SharedSessions.step memorySessionStore) Final
      (start memorySessionStore (noSessions _)) logoutAfter := by
  refine final_of_undisturbed memorySessionStore (noSessions _) ?_
  refine EachStep.cons rfl trivial (EachStep.cons rfl ?_ ?_)
  · intro id hcall
    exact absurd (Option.some.inj hcall) Access.noConfusion
  refine EachStep.cons rfl trivial (EachStep.cons rfl trivial ?_)
  refine EachStep.cons rfl ?_ (EachStep.cons rfl trivial ?_)
  · intro id hcall
    exact absurd (Option.some.inj hcall) Access.noConfusion
  refine EachStep.cons rfl ?_ trivial
  rintro id - ⟨c, session, -, hc⟩
  simp only [setCall, write, start, Function.update_apply] at hc
  split_ifs at hc <;> simp at hc

end Logout

end SharedSessions

end Lithair.Sessions
