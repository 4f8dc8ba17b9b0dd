import Lithair.Lib.Json
import Lithair.Lib.Run
import Mathlib.Data.Finmap

/-!
# The persistent session store

`PersistentSessionStore` of `session/persistent_store.rs` with the events of `session/events.rs`,
for any number of calls at once. A call applies an event to the sessions under one lock and appends
it to the log under another; a set looks up under a third which of two events it is to write.
Opening a store replays the log.

The three event types are structs with the same fields, and the kind of an event is told from
nothing else: `new` tries to read each line as a creation first, which always succeeds, so a
deletion is replayed as the creation of an empty session. `reopens_iff_persistsWhatIsHeld` says
which runs reopen as what they were. A line of the log is the JSON text of a record, which reads
back as the record, so the log is a list of records.
-/

namespace Lithair.Sessions

open Lithair.Lib Lithair.Lib.Run

/-! ### Sessions and their events -/

/-- The flexible part of a session. -/
abbrev DataMap := Finmap fun _ : String ↦ Json

/-- What the store is given of a session. -/
structure Session where
  id : String
  data : DataMap
  expiresAt : ℤ

/-- The text under a key, if there is one. -/
def Session.getText (session : Session) (key : String) : Option String :=
  (session.data.lookup key).bind Json.asStr

/-- What the store keeps of a session. -/
structure SessionData where
  id : String
  userId : String
  role : String
  expiresAt : ℤ
  data : DataMap
  deriving DecidableEq

def SessionData.ofSession (session : Session) : SessionData where
  id := session.id
  userId := (session.getText "user_id").getD ""
  role := (session.getText "role").getD ""
  expiresAt := session.expiresAt
  data := session.data

/-- The sessions by id. -/
abbrev SessionState := Finmap fun _ : String ↦ SessionData

inductive EventKind
  | created
  | updated
  | deleted
  deriving DecidableEq

/-- The fields that all three events have. -/
structure SessionRecord where
  eventType : String
  sessionId : String
  userId : Option String
  role : Option String
  expiresAt : Option ℤ
  data : Option DataMap

structure SessionEvent where
  kind : EventKind
  record : SessionRecord

/-- The session that a record describes; what it leaves open is filled in, with the time of the
reading as its expiry. -/
def SessionRecord.session (record : SessionRecord) (now : ℤ) : SessionData where
  id := record.sessionId
  userId := record.userId.getD ""
  role := record.role.getD ""
  expiresAt := record.expiresAt.getD now
  data := record.data.getD ∅

/-- An update changes the data of a session and nothing else. -/
def SessionData.update (session : SessionData) (record : SessionRecord) : SessionData :=
  match record.data with
  | some data => { session with data }
  | none => session

def SessionEvent.apply (event : SessionEvent) (now : ℤ) (state : SessionState) : SessionState :=
  let record := event.record
  match event.kind with
  | .created => state.insert record.sessionId (record.session now)
  | .updated =>
    match state.lookup record.sessionId with
    | some session => state.insert record.sessionId (session.update record)
    | none => state
  | .deleted => state.erase record.sessionId

/-! ### Opening a store -/

/-- A line is read as an event of the given kind. The kinds have the same fields, all of which a
line has. -/
def parse (kind : EventKind) (line : SessionRecord) : Option SessionEvent := some ⟨kind, line⟩

def replayLine (now : ℤ) (line : SessionRecord) (state : SessionState) : SessionState :=
  match parse .created line with
  | some event => event.apply now state
  | none =>
    match parse .updated line with
    | some event => event.apply now state
    | none =>
      match parse .deleted line with
      | some event => event.apply now state
      | none => state

/-- Replay the log, with the time at which each line is read. -/
def replay (clock : ℕ → ℤ) : List SessionRecord → SessionState → SessionState
  | [], state => state
  | line :: rest, state =>
    replay (fun n ↦ clock (n + 1)) rest (replayLine (clock 0) line state)

/-- The sessions of a store that is opened on a log. -/
def reopen (clock : ℕ → ℤ) (log : List SessionRecord) : SessionState := replay clock log ∅

/-! ### The store -/

/-- Where a call is: a set that has looked whether the session is there; a deletion of the sessions
with these ids, one after the other; or an event that is applied and not in the log yet, with the
ids that are to be deleted after it. -/
inductive Call
  | setting (session : Session) (present : Bool)
  | deleting (ids : List String)
  | persisting (event : SessionEvent) (rest : List String)

/-- A store, its log, and the calls in progress. -/
structure Store where
  state : SessionState
  log : List SessionRecord
  calls : ℕ → Option Call

inductive StoreAction
  | set (c : ℕ) (session : Session)
  | delete (c : ℕ) (id : String)
  | cleanupExpired (c : ℕ) (now : ℤ) (order : List String)
  | apply (c : ℕ) (now : ℤ)
  | persist (c : ℕ)

/-- The event of a set. -/
def setEvent (session : Session) (present : Bool) : SessionEvent :=
  let data := SessionData.ofSession session
  let record := fun eventType ↦
    { eventType, sessionId := session.id, userId := some data.userId, role := some data.role
      expiresAt := some session.expiresAt, data := some session.data : SessionRecord }
  if present then ⟨.updated, record "SessionUpdated.v1"⟩
  else ⟨.created, record "SessionCreated.v1"⟩

def deleteEvent (id : String) : SessionEvent where
  kind := .deleted
  record :=
    { eventType := "SessionDeleted.v1", sessionId := id, userId := none, role := none
      expiresAt := none, data := none }

/-- The order lists the ids of the sessions, each once. -/
def ListsIds (state : SessionState) (order : List String) : Prop :=
  order.Nodup ∧ order.toFinset = state.keys

instance (state : SessionState) (order : List String) : Decidable (ListsIds state order) :=
  inferInstanceAs (Decidable (_ ∧ _))

/-- The ids of the expired sessions, in the order in which the map goes through them. -/
def expiredIds (state : SessionState) (now : ℤ) (order : List String) : List String :=
  order.filter fun id ↦
    match state.lookup id with
    | some session => session.expiresAt ≤ now
    | none => false

namespace Store

/-- A store that was opened on a log. -/
def start (clock : ℕ → ℤ) (log : List SessionRecord) : Store where
  state := reopen clock log
  log := log
  calls := fun _ ↦ none

/-- The call goes on, or ends. -/
def setCall (s : Store) (c : ℕ) (call : Option Call) : Store :=
  { s with calls := Function.update s.calls c call }

/-- A call that deletes sessions ends with the last of them. -/
def deletingCall (ids : List String) : Option Call :=
  if ids.isEmpty then none else some (.deleting ids)

def step (s : Store) : StoreAction → Option Store
  | .set c session =>
    if (s.calls c).isNone then
      some (s.setCall c (some (.setting session (decide (session.id ∈ s.state)))))
    else none
  | .delete c id =>
    if (s.calls c).isNone then some (s.setCall c (deletingCall [id])) else none
  | .cleanupExpired c now order =>
    if (s.calls c).isNone ∧ ListsIds s.state order then
      some (s.setCall c (deletingCall (expiredIds s.state now order)))
    else none
  | .apply c now =>
    match s.calls c with
    | some (.setting session present) =>
      let event := setEvent session present
      some ({ s with state := event.apply now s.state }.setCall c (some (.persisting event [])))
    | some (.deleting (id :: rest)) =>
      let event := deleteEvent id
      some ({ s with state := event.apply now s.state }.setCall c (some (.persisting event rest)))
    | _ => none
  | .persist c =>
    match s.calls c with
    | some (.persisting event rest) =>
      some ({ s with log := s.log ++ [event.record] }.setCall c (deletingCall rest))
    | _ => none

/-! ### What is meant to hold -/

/-- An event of the session is applied and not in the log yet. -/
def Waiting (s : Store) (id : String) : Prop :=
  ∃ c event rest, s.calls c = some (.persisting event rest) ∧ event.record.sessionId = id

/-- Opened on the log as it is, a store has the sessions of this one, whenever that is done. A
session whose event is on its way to the log is left out. -/
def Reopens (s : Store) : Prop :=
  ∀ clock id, ¬ s.Waiting id → (reopen clock s.log).lookup id = s.state.lookup id

/-- When no call is in progress, the whole store is reopened. -/
theorem Reopens.eq_of_idle {s : Store} (h : s.Reopens) (hidle : ∀ c, s.calls c = none)
    (clock : ℕ → ℤ) : reopen clock s.log = s.state := by
  refine Finmap.ext_lookup fun id ↦ h clock id ?_
  rintro ⟨c, event, rest, hcall, -⟩
  exact absurd ((hidle c).symm.trans hcall) (by simp)

/-- The last line of each session in the log says when the session expires; that of a deletion does
not. -/
def LastDated (log : List SessionRecord) : Prop :=
  ∀ front line back, log = front ++ line :: back →
    (∀ other ∈ back, other.sessionId ≠ line.sessionId) → line.expiresAt.isSome

/-- An event is persisted, with no other event of its session on the way, only if it is no deletion
and the store holds the session as the event has it. -/
def PersistsWhatIsHeld (s : Store) : StoreAction → Prop
  | .persist c =>
    ∀ event rest, s.calls c = some (.persisting event rest) →
      (∀ other otherEvent otherRest, other ≠ c →
        s.calls other = some (.persisting otherEvent otherRest) →
          otherEvent.record.sessionId ≠ event.record.sessionId) →
      event.kind ≠ .deleted ∧
        ∀ now, s.state.lookup event.record.sessionId = some (event.record.session now)
  | _ => True

/-! ### What replay makes of a log -/

theorem lookup_replayLine (now : ℤ) (line : SessionRecord) (state : SessionState) (id : String) :
    (replayLine now line state).lookup id =
      if line.sessionId = id then some (line.session now) else state.lookup id := by
  show (state.insert line.sessionId (line.session now)).lookup id = _
  split_ifs with hid
  · rw [← hid, Finmap.lookup_insert]
  · rw [Finmap.lookup_insert_of_ne _ (Ne.symm hid)]

theorem replay_append (clock : ℕ → ℤ) (log : List SessionRecord) (line : SessionRecord)
    (state : SessionState) :
    replay clock (log ++ [line]) state =
      replayLine (clock log.length) line (replay clock log state) := by
  induction log generalizing clock state with
  | nil => rfl
  | cons first rest ih =>
    rw [List.cons_append, replay, replay, ih, List.length_cons]

/-- The last line of a session decides. -/
theorem lookup_reopen_append (clock : ℕ → ℤ) (log : List SessionRecord) (line : SessionRecord)
    (id : String) :
    (reopen clock (log ++ [line])).lookup id =
      if line.sessionId = id then some (line.session (clock log.length))
      else (reopen clock log).lookup id := by
  unfold reopen
  rw [replay_append, lookup_replayLine]

theorem lookup_reopen_of_last (clock : ℕ → ℤ) (front back : List SessionRecord)
    (line : SessionRecord) (hback : ∀ other ∈ back, other.sessionId ≠ line.sessionId) :
    (reopen clock (front ++ line :: back)).lookup line.sessionId =
      some (line.session (clock front.length)) := by
  induction back using List.reverseRecOn with
  | nil => rw [lookup_reopen_append, if_pos rfl]
  | append_singleton back last ih =>
    have hlast := hback last (List.mem_append.mpr (Or.inr List.mem_cons_self))
    rw [← List.cons_append, ← List.append_assoc, lookup_reopen_append, if_neg hlast]
    exact ih fun other hother ↦ hback other (List.mem_append.mpr (Or.inl hother))

theorem session_eq_of_isSome {record : SessionRecord} (h : record.expiresAt.isSome)
    (now later : ℤ) : record.session now = record.session later := by
  obtain ⟨expiresAt, hexpires⟩ := Option.isSome_iff_exists.mp h
  simp [SessionRecord.session, hexpires]

/-- The time of the replay does not show exactly when the last lines are dated. -/
theorem lastDated_iff (clock : ℕ → ℤ) (log : List SessionRecord) :
    LastDated log ↔
      ∀ clock' id, (reopen clock' log).lookup id = (reopen clock log).lookup id := by
  constructor
  · intro hdated clock' id
    have hfor : ∀ front line back, log = front ++ line :: back → line.sessionId = id →
        (∀ other ∈ back, other.sessionId ≠ id) → line.expiresAt.isSome := by
      rintro front line back hlog rfl hback
      exact hdated front line back hlog hback
    clear hdated
    induction log using List.reverseRecOn with
    | nil => rfl
    | append_singleton log line ih =>
      rw [lookup_reopen_append, lookup_reopen_append]
      split_ifs with hid
      · have hsome := hfor log line [] rfl hid fun _ h ↦ absurd h List.not_mem_nil
        rw [session_eq_of_isSome hsome]
      · refine ih fun front other back hlog hother hback ↦
          hfor front other (back ++ [line]) ?_ hother ?_
        · rw [hlog, List.append_assoc]
          rfl
        · intro l hl
          rcases List.mem_append.mp hl with hl | hl
          · exact hback l hl
          · rw [List.mem_singleton.mp hl]
            exact hid
  · rintro h front line back rfl hback
    have hshift := h (fun n ↦ clock n + 1) line.sessionId
    rw [lookup_reopen_of_last _ _ _ _ hback, lookup_reopen_of_last _ _ _ _ hback] at hshift
    have hexpires := congrArg SessionData.expiresAt (Option.some.inj hshift)
    cases hline : line.expiresAt with
    | some expiresAt => rfl
    | none =>
      simp only [SessionRecord.session, hline, Option.getD_none] at hexpires
      omega

/-! ### What every step does -/

section Steps

variable {s next : Store}

theorem step_apply {c : ℕ} {now : ℤ} (h : step s (.apply c now) = some next) :
    (∃ session present, s.calls c = some (.setting session present) ∧
      next = { s with state := (setEvent session present).apply now s.state }.setCall c
        (some (.persisting (setEvent session present) []))) ∨
    ∃ id rest, s.calls c = some (.deleting (id :: rest)) ∧
      next = { s with state := (deleteEvent id).apply now s.state }.setCall c
        (some (.persisting (deleteEvent id) rest)) := by
  unfold step at h
  simp only at h
  split at h
  · next session present hcall =>
    exact Or.inl ⟨session, present, hcall, (Option.some.inj h).symm⟩
  · next id rest hcall => exact Or.inr ⟨id, rest, hcall, (Option.some.inj h).symm⟩
  · exact absurd h (by simp)

theorem step_persist {c : ℕ} (h : step s (.persist c) = some next) :
    ∃ event rest, s.calls c = some (.persisting event rest) ∧
      next = { s with log := s.log ++ [event.record] }.setCall c (deletingCall rest) := by
  unfold step at h
  simp only at h
  split at h
  · next event rest hcall => exact ⟨event, rest, hcall, (Option.some.inj h).symm⟩
  · exact absurd h (by simp)

theorem kind_setEvent (session : Session) (present : Bool) :
    (setEvent session present).kind ≠ .deleted := by
  cases present with
  | true => exact fun h ↦ EventKind.noConfusion h
  | false => exact fun h ↦ EventKind.noConfusion h

/-- An event leaves the other sessions alone. -/
theorem lookup_apply_of_ne (event : SessionEvent) (now : ℤ) (state : SessionState) {id : String}
    (h : event.record.sessionId ≠ id) : (event.apply now state).lookup id = state.lookup id := by
  unfold SessionEvent.apply
  cases event.kind with
  | created => exact Finmap.lookup_insert_of_ne _ (Ne.symm h)
  | updated =>
    cases hsession : state.lookup event.record.sessionId with
    | none => simp only [hsession]
    | some session =>
      simp only [hsession]
      exact Finmap.lookup_insert_of_ne _ (Ne.symm h)
  | deleted => exact Finmap.lookup_erase_ne (Ne.symm h)

/-- A deletion on its way to the log is not dated. -/
def DeletionsUndated (s : Store) : Prop :=
  ∀ c event rest, s.calls c = some (.persisting event rest) → event.kind = .deleted →
    event.record.expiresAt = none

theorem calls_setCall_iff {c other : ℕ} {new : Option Call} {call : Call} :
    (s.setCall c new).calls other = some call ↔
      (other = c ∧ new = some call) ∨ (other ≠ c ∧ s.calls other = some call) :=
  update_eq_some_iff

theorem deletingCall_ne_persisting (ids : List String) (event : SessionEvent)
    (rest : List String) : deletingCall ids ≠ some (.persisting event rest) := by
  unfold deletingCall
  split_ifs
  · simp
  · simp

theorem kept_deletionsUndated : Kept step DeletionsUndated := by
  intro s a next h hnext
  have hset : ∀ {t : Store} {c : ℕ} {new : Option Call}, t.calls = s.calls →
      (∀ event rest, new = some (.persisting event rest) → event.kind = .deleted →
        event.record.expiresAt = none) → DeletionsUndated (t.setCall c new) := by
    intro t c new hcalls hnew other event rest hother hkind
    rcases calls_setCall_iff.mp hother with ⟨-, heq⟩ | ⟨-, hold⟩
    · exact hnew event rest heq hkind
    · rw [hcalls] at hold
      exact h other event rest hold hkind
  cases a with
  | set c session =>
    unfold step at hnext
    simp only at hnext
    split_ifs at hnext
    obtain rfl := Option.some.inj hnext
    exact hset rfl (by simp)
  | delete c id =>
    unfold step at hnext
    simp only at hnext
    split_ifs at hnext
    obtain rfl := Option.some.inj hnext
    exact hset rfl fun event rest heq ↦ absurd heq (deletingCall_ne_persisting _ event rest)
  | cleanupExpired c now order =>
    unfold step at hnext
    simp only at hnext
    split_ifs at hnext
    obtain rfl := Option.some.inj hnext
    exact hset rfl fun event rest heq ↦ absurd heq (deletingCall_ne_persisting _ event rest)
  | apply c now =>
    rcases step_apply hnext with ⟨session, present, -, rfl⟩ | ⟨id, ids, -, rfl⟩
    · refine hset rfl fun event rest heq hkind ↦ ?_
      rw [Option.some.injEq, Call.persisting.injEq] at heq
      rw [← heq.1] at hkind
      exact absurd hkind (kind_setEvent session present)
    · refine hset rfl fun event rest heq _ ↦ ?_
      rw [Option.some.injEq, Call.persisting.injEq] at heq
      rw [← heq.1]
      rfl
  | persist c =>
    obtain ⟨event, rest, -, rfl⟩ := step_persist hnext
    exact hset rfl fun event rest heq ↦ absurd heq (deletingCall_ne_persisting _ event rest)

/-- What is on its way stays so when another call goes on. -/
theorem Waiting.setCall {t : Store} {id : String} (h : s.Waiting id) {c : ℕ} {new : Option Call}
    (hcalls : t.calls = s.calls) (hc : ∀ event rest, s.calls c ≠ some (.persisting event rest)) :
    (t.setCall c new).Waiting id := by
  obtain ⟨other, event, rest, hother, hid⟩ := h
  refine ⟨other, event, rest, calls_setCall_iff.mpr (Or.inr ⟨?_, ?_⟩), hid⟩
  · rintro rfl
    exact hc event rest hother
  · rw [hcalls]
    exact hother

/-- A step that neither changes the sessions nor the log. -/
theorem Reopens.setCall (h : s.Reopens) {c : ℕ} (hfree : (s.calls c).isNone) (new : Option Call) :
    (s.setCall c new).Reopens := by
  have hnone : s.calls c = none := Option.isNone_iff_eq_none.mp hfree
  intro clock id hwaiting
  refine h clock id fun hold ↦ hwaiting (hold.setCall rfl fun event rest hcall ↦ ?_)
  exact absurd (hnone.symm.trans hcall) (by simp)

/-- A step that changes a session whose event is on its way from then on. -/
theorem Reopens.apply (h : s.Reopens) {c : ℕ}
    (hc : ∀ event rest, s.calls c ≠ some (.persisting event rest)) (event : SessionEvent)
    (rest : List String) (now : ℤ) :
    ({ s with state := event.apply now s.state }.setCall c
      (some (.persisting event rest))).Reopens := by
  intro clock id hwaiting
  have hne : event.record.sessionId ≠ id := fun hid ↦
    hwaiting ⟨c, event, rest, calls_setCall_iff.mpr (Or.inl ⟨rfl, rfl⟩), hid⟩
  show _ = (event.apply now s.state).lookup id
  rw [lookup_apply_of_ne event now s.state hne]
  exact h clock id fun hold ↦ hwaiting (hold.setCall rfl hc)

/-- Persisting an event keeps the promise exactly when the store holds what the event says. -/
theorem reopens_persist_iff (hundated : s.DeletionsUndated) (h : s.Reopens) {c : ℕ}
    (hnext : step s (.persist c) = some next) :
    next.Reopens ↔ PersistsWhatIsHeld s (.persist c) := by
  obtain ⟨event, rest, hcall, rfl⟩ := step_persist hnext
  have hwaiting : ∀ id, ({ s with log := s.log ++ [event.record] }.setCall c
      (deletingCall rest)).Waiting id ↔ ∃ other otherEvent otherRest, other ≠ c ∧
        s.calls other = some (.persisting otherEvent otherRest) ∧
          otherEvent.record.sessionId = id := by
    intro id
    constructor
    · rintro ⟨other, otherEvent, otherRest, hother, hid⟩
      rcases calls_setCall_iff.mp hother with ⟨-, heq⟩ | ⟨hne, hold⟩
      · exact absurd heq (deletingCall_ne_persisting _ _ _)
      · exact ⟨other, otherEvent, otherRest, hne, hold, hid⟩
    · rintro ⟨other, otherEvent, otherRest, hne, hold, hid⟩
      exact ⟨other, otherEvent, otherRest, calls_setCall_iff.mpr (Or.inr ⟨hne, hold⟩), hid⟩
  constructor
  · intro hreopens event' rest' hcall' halone
    obtain ⟨rfl, rfl⟩ := Call.persisting.inj (Option.some.inj (hcall.symm.trans hcall'))
    have hlookup : ∀ now, s.state.lookup event.record.sessionId =
        some (event.record.session now) := by
      intro now
      have hlast := hreopens (fun _ ↦ now) event.record.sessionId fun hw ↦ by
        obtain ⟨other, otherEvent, otherRest, hne, hold, hid⟩ := (hwaiting _).mp hw
        exact halone other otherEvent otherRest hne hold hid
      change (reopen _ (s.log ++ [event.record])).lookup _ = s.state.lookup _ at hlast
      rw [lookup_reopen_append, if_pos rfl] at hlast
      exact hlast.symm
    refine ⟨fun hkind ↦ ?_, hlookup⟩
    have hnone := hundated c event rest hcall hkind
    have hsame := Option.some.inj ((hlookup 0).symm.trans (hlookup 1))
    have hexpires := congrArg SessionData.expiresAt hsame
    simp [SessionRecord.session, hnone] at hexpires
  · intro hheld clock id hnot
    show (reopen clock (s.log ++ [event.record])).lookup id = s.state.lookup id
    rw [hwaiting] at hnot
    rw [lookup_reopen_append]
    split_ifs with hid
    · subst hid
      refine ((hheld event rest hcall fun other otherEvent otherRest hne hold hsame ↦ ?_).2
        _).symm
      exact hnot ⟨other, otherEvent, otherRest, hne, hold, hsame⟩
    · refine h clock id ?_
      rintro ⟨other, otherEvent, otherRest, hold, hsame⟩
      by_cases hne : other = c
      · subst hne
        obtain ⟨rfl, -⟩ := Call.persisting.inj (Option.some.inj (hcall.symm.trans hold))
        exact hid hsame
      · exact hnot ⟨other, otherEvent, otherRest, hne, hold, hsame⟩

theorem reopens_step_iff (s : Store) (a : StoreAction) (next : Store) (hundated : s.DeletionsUndated)
    (h : s.Reopens) (hnext : step s a = some next) :
    next.Reopens ↔ PersistsWhatIsHeld s a := by
  cases a with
  | set c session =>
    unfold step at hnext
    simp only at hnext
    split_ifs at hnext with hfree
    obtain rfl := Option.some.inj hnext
    exact iff_of_true (h.setCall hfree _) trivial
  | delete c id =>
    unfold step at hnext
    simp only at hnext
    split_ifs at hnext with hfree
    obtain rfl := Option.some.inj hnext
    exact iff_of_true (h.setCall hfree _) trivial
  | cleanupExpired c now order =>
    unfold step at hnext
    simp only at hnext
    split_ifs at hnext with hfree
    obtain rfl := Option.some.inj hnext
    exact iff_of_true (h.setCall hfree.1 _) trivial
  | apply c now =>
    rcases step_apply hnext with ⟨session, present, hcall, rfl⟩ | ⟨id, rest, hcall, rfl⟩
    · exact iff_of_true (h.apply (by simp [hcall]) _ _ _) trivial
    · exact iff_of_true (h.apply (by simp [hcall]) _ _ _) trivial
  | persist c => exact reopens_persist_iff hundated h hnext

end Steps

theorem deletionsUndated_start (clock : ℕ → ℤ) (log : List SessionRecord) :
    (start clock log).DeletionsUndated :=
  fun _ _ _ h ↦ absurd h (by simp [start])

theorem reopens_start_iff (clock : ℕ → ℤ) (log : List SessionRecord) :
    (start clock log).Reopens ↔ LastDated log := by
  rw [lastDated_iff clock]
  constructor
  · intro h clock' id
    refine h clock' id ?_
    rintro ⟨c, event, rest, hcall, -⟩
    exact absurd hcall (by simp [start])
  · exact fun h clock' id _ ↦ h clock' id

/-- A run of calls on a store that was opened on a log reopens in every state to what the store
holds exactly when the last lines of the log are dated, and each event that is persisted with no
other of its session on the way is what the store holds. -/
theorem reopens_iff_persistsWhatIsHeld (clock : ℕ → ℤ) (log : List SessionRecord)
    (actions : List StoreAction) :
    Always step Reopens (start clock log) actions ↔
      LastDated log ∧ EachStep step PersistsWhatIsHeld (start clock log) actions := by
  have hrun : (start clock log).Reopens → (Always step Reopens (start clock log) actions ↔
      EachStep step PersistsWhatIsHeld (start clock log) actions) := fun hstart ↦
    always_iff_eachStep kept_deletionsUndated reopens_step_iff (deletionsUndated_start clock log)
      hstart actions
  constructor
  · intro h
    exact ⟨(reopens_start_iff clock log).mp h.head, (hrun h.head).mp h⟩
  · rintro ⟨hdated, hsteps⟩
    exact (hrun ((reopens_start_iff clock log).mpr hdated)).mpr hsteps

/-! ### A session that is deleted -/

section DeletedSession

/-- A session of Alice. -/
def alice : Session where
  id := "s1"
  data := (∅ : DataMap).insert "user_id" (.string "alice")
  expiresAt := 100

/-- The session is set in the store of a new directory. -/
def setAlice : List StoreAction := [.set 0 alice, .apply 0 0, .persist 0]

/-- A session that was set is there after reopening. -/
theorem reopens_set : Always step Reopens (start (fun _ ↦ 0) []) setAlice := by
  refine (reopens_iff_persistsWhatIsHeld (fun _ ↦ 0) [] setAlice).mpr ⟨?_, ?_⟩
  · intro front line back hlog
    exact absurd hlog.symm (List.append_ne_nil_of_right_ne_nil front (List.cons_ne_nil line back))
  · intro s₁ hset
    obtain rfl := Option.some.inj hset
    refine ⟨trivial, fun s₂ happly ↦ ?_⟩
    obtain rfl := Option.some.inj happly
    refine ⟨trivial, fun s₃ _ ↦ ⟨fun event rest hcall _ ↦ ?_, trivial⟩⟩
    obtain ⟨rfl, -⟩ := Call.persisting.inj (Option.some.inj hcall)
    exact ⟨kind_setEvent _ _, fun now ↦ rfl⟩

/-- The store of a directory with the session, which is then deleted. -/
def deleteAlice : List StoreAction := [.delete 0 "s1", .apply 0 1, .persist 0]

/-- A session that was deleted is there again after reopening. -/
theorem deleted_session_reopens :
    ¬ ∀ actions : List StoreAction,
      Always step Reopens (start (fun _ ↦ 0) [(setEvent alice false).record]) actions := by
  intro h
  have hfinal : Reopens _ := (((h deleteAlice).2 _ rfl).2 _ rfl).2 _ rfl
  have hreopened := hfinal (fun _ ↦ 0) "s1" fun hwaiting ↦ by
    obtain ⟨c, event, rest, hcall, -⟩ := hwaiting
    rcases calls_setCall_iff.mp hcall with ⟨-, hlast⟩ | ⟨hne, hcall⟩
    · exact deletingCall_ne_persisting _ event rest hlast
    rcases calls_setCall_iff.mp hcall with ⟨hsame, -⟩ | ⟨-, hcall⟩
    · exact hne hsame
    rcases calls_setCall_iff.mp hcall with ⟨hsame, -⟩ | ⟨-, hcall⟩
    · exact hne hsame
    · exact absurd hcall (by simp [start])
  have hgone : (reopen (fun _ ↦ 0) [(setEvent alice false).record,
      (deleteEvent "s1").record]).lookup "s1" = none := hreopened
  exact absurd hgone (by simp [reopen, replay, lookup_replayLine, deleteEvent])

end DeletedSession

end Store

end Lithair.Sessions
