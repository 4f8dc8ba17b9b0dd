import Lithair.Http.Replay
import Lithair.Lib.OrderedList

/-!
# The order of a key's events

The requests that change a model's storage in `http/declarative.rs`, for any number of them at once:
create, update and delete of a client, and `submit_admin_edit`. Each takes the write lock of the
storage, lets go of it, and then takes the lock of the event store to append its event, so that
another request can change the same key and append its event in between.

`logsInOrder_iff_appendsInOrder` says which runs log the events of each key in the order of the
changes: those in which an event is appended before the events of later changes of its key, and no
event is lost.
-/

namespace Lithair.Http

open Lithair.Engine Lithair.Lib Lithair.Lib.OrderedList Lithair.Lib.Run

namespace Declarative

variable {T : Type*} (M : HttpExposable T) (sha256 : List UInt8 → String) (config : HandlerConfig)

/-! ### Edits of an administrator -/

/-- The value of the item with the changed fields. -/
def mergeChanges (itemJson changes : Json) : Json :=
  match itemJson.asObject, changes.asObject with
  | some fields, some delta =>
    .object (delta.foldl (fun merged field ↦ Json.insertField field.1 field.2 merged) fields)
  | _, _ => itemJson

/-- The item that an edit stores. -/
def editedItem (item : T) (changes : Json) : Except String T :=
  match M.toValue item with
  | none => .error "Failed to serialize item"
  | some itemJson =>
    match M.fromValue (mergeChanges itemJson changes) with
    | .error message => .error ("Failed to apply changes: " ++ message)
    | .ok item =>
      match M.validate item with
      | .error message => .error ("Validation failed: " ++ message)
      | .ok () =>
        match M.applyLifecycle item with
        | .error message => .error ("Lifecycle error: " ++ message)
        | .ok item => .ok item

/-- The envelope of an edit, with the time in seconds and in milliseconds. -/
def adminEditEnvelope (id payload : String) (now nowMillis : ℕ) : EventEnvelope where
  eventType := M.typeName ++ "AdminEdit"
  eventId := M.typeName ++ ":AdminEdit:" ++ id ++ ":" ++ toString nowMillis
  timestamp := now
  payload := payload
  aggregateId := some id
  eventHash := none
  previousHash := none

/-! ### Requests in two steps -/

/-- What a request is going to do to the storage. -/
inductive Change (T : Type*)
  | create (item : T)
  | update (id : String) (item : T)
  | delete (id : String)
  | adminEdit (id : String) (item : T)

inductive Operation
  | created
  | updated
  | deleted
  | adminEdit
  deriving DecidableEq

def Operation.name : Operation → String
  | created => "Created"
  | updated => "Updated"
  | deleted => "Deleted"
  | adminEdit => "AdminEdit"

/-- A change of the storage: the key that was changed, how, and the item of the event. -/
structure KeyChange (T : Type*) where
  key : String
  operation : Operation
  item : T

/-- What the key holds after the change. -/
def KeyChange.value (change : KeyChange T) : Option T :=
  match change.operation with
  | .deleted => none
  | _ => some change.item

/-- The envelope of the event. -/
def KeyChange.envelope (change : KeyChange T) (payload : String) (now nowMillis : ℕ) :
    EventEnvelope :=
  match change.operation with
  | .adminEdit => adminEditEnvelope M change.key payload now nowMillis
  | operation => Declarative.envelope M operation.name payload change.item now

/-- Change the storage under its lock. An update and a delete may find nothing to change. -/
def Change.apply (storage : Storage T) : Change T → Option (Storage T × KeyChange T)
  | .create item =>
    let key := createKey M config item
    some (storage.insert key item, ⟨key, .created, item⟩)
  | .update id item =>
    if id ∈ storage then some (storage.insert id item, ⟨id, .updated, item⟩) else none
  | .delete id => (storage.lookup id).map fun item ↦ (storage.erase id, ⟨id, .deleted, item⟩)
  | .adminEdit id item => some (storage.insert id item, ⟨id, .adminEdit, item⟩)

/-- Where a request is: about to change the storage, or with its event still to be appended. The
changes are numbered. -/
inductive Request (T : Type*)
  | changing (change : Change T)
  | logging (n : ℕ) (change : KeyChange T)

/-- An event in the log, with the change that it is about. -/
structure LoggedEvent (T : Type*) where
  n : ℕ
  change : KeyChange T
  envelope : EventEnvelope

/-- The handler with the requests in progress, all changes of the storage so far, and the events
that were appended. -/
structure Requests (T : Type*) where
  handler : HandlerState T
  requests : ℕ → Option (Request T)
  changes : List (KeyChange T)
  logged : List (LoggedEvent T)

/-- What happens: a request comes in, changes the storage, appends its event, or is dropped. -/
inductive RequestAction
  | create (c : ℕ) (req : WriteRequest) (env : Environment)
  | update (c : ℕ) (id : String) (req : WriteRequest) (env : Environment)
  | delete (c : ℕ) (id : String) (req : WriteRequest) (env : Environment)
  | adminEdit (c : ℕ) (id : String) (changes : Json)
  | change (c : ℕ)
  | append (c : ℕ) (outcome : AppendOutcome) (now nowMillis : ℕ)
  | drop (c : ℕ)

/-- What a request to create or to update is going to do, unless it is refused. -/
def preparedChange (req : WriteRequest) (env : Environment) (change : T → Change T) :
    Option (Change T) :=
  match prepare M config req with
  | .error _ => none
  | .ok item =>
    match propose (T := T) config env with
    | .error _ => none
    | .ok () => some (change item)

/-- A delete is checked against the item that is there when it comes in. -/
def deleteChange (storage : Storage T) (id : String) (req : WriteRequest) (env : Environment) :
    Option (Change T) :=
  match authorizeDelete M config storage id req with
  | .error _ => none
  | .ok () =>
    match propose (T := T) config env with
    | .error _ => none
    | .ok () => some (.delete id)

/-- An edit starts from the item that is there when it comes in. -/
def adminEditChange (storage : Storage T) (id : String) (changes : Json) : Option (Change T) :=
  match storage.lookup id with
  | none => none
  | some item =>
    match editedItem M item changes with
    | .error _ => none
    | .ok item => some (.adminEdit id item)

namespace Requests

/-- A handler without requests. -/
def start (handler : HandlerState T) : Requests T where
  handler := handler
  requests := fun _ ↦ none
  changes := []
  logged := []

/-- The request goes on, or is done. -/
def setRequest (s : Requests T) (c : ℕ) (request : Option (Request T)) : Requests T :=
  { s with requests := Function.update s.requests c request }

/-- A request comes in, unless it is refused at once. -/
def begin (s : Requests T) (c : ℕ) (change : Option (Change T)) : Option (Requests T) :=
  if (s.requests c).isNone then some (s.setRequest c (change.map .changing)) else none

def step (s : Requests T) : RequestAction → Option (Requests T)
  | .create c req env => s.begin c (preparedChange M config req env .create)
  | .update c id req env => s.begin c (preparedChange M config req env (.update id))
  | .delete c id req env => s.begin c (deleteChange M config s.handler.storage id req env)
  | .adminEdit c id changes => s.begin c (adminEditChange M s.handler.storage id changes)
  | .change c =>
    match s.requests c with
    | some (.changing change) =>
      match change.apply M config s.handler.storage with
      | some (storage, keyChange) =>
        some ({ s with
          handler := { s.handler with storage }
          changes := s.changes ++ [keyChange] }.setRequest c
            (some (.logging s.changes.length keyChange)))
      | none => some (s.setRequest c none)
    | _ => none
  | .append c outcome now nowMillis =>
    match s.requests c with
    | some (.logging n change) =>
      match M.toText change.item, outcome with
      | none, _ | _, .lost => some (s.setRequest c none)
      | some payload, _ =>
        let envelope := change.envelope M payload now nowMillis
        let event : LoggedEvent T := ⟨n, change, s.handler.store.chained sha256 envelope⟩
        let store := (s.handler.store.appendEnvelope sha256 envelope outcome).1
        some ({ s with
          handler := { s.handler with store }
          logged := s.logged ++ [event] }.setRequest c none)
    | _ => none
  | .drop c => if (s.requests c).isSome then some (s.setRequest c none) else none

/-! ### What is meant to hold -/

/-- The changes of a key, and its events. -/
def changesOf (s : Requests T) (key : String) : List (KeyChange T) :=
  s.changes.filter fun change ↦ change.key = key

def eventsOf (s : Requests T) (key : String) : List (LoggedEvent T) :=
  s.logged.filter fun event ↦ event.change.key = key

/-- A request has changed the key and has not appended its event. -/
def InFlight (s : Requests T) (key : String) : Prop :=
  ∃ c n change, s.requests c = some (.logging n change) ∧ change.key = key

/-- The event says what the key holds. -/
def Describes (event : LoggedEvent T) (value : Option T) : Prop :=
  match event.change.operation with
  | .deleted => value = none
  | _ => ∃ item, value = some item ∧ M.toText item = some event.envelope.payload

/-- The events of each key are in the order of the changes they are about; each change has its event
or is about to append it; and the last event of a key describes the value that the storage holds,
unless another is about to be appended. -/
structure LogsInOrder (initial : HandlerState T) (s : Requests T) : Prop where
  log : s.handler.store.events = initial.store.events ++ s.logged.map LoggedEvent.envelope
  inOrder : ∀ key, StrictSortedBy LoggedEvent.n (s.eventsOf key)
  complete : ∀ n change, s.changes[n]? = some change →
    (∃ event ∈ s.logged, event.n = n) ∨ ∃ c, s.requests c = some (.logging n change)
  last : ∀ key, ¬ s.InFlight key →
    match (s.eventsOf key).getLast? with
    | none => s.handler.storage.lookup key = initial.storage.lookup key
    | some event => Describes M event (s.handler.storage.lookup key)

/-- An event is written to the log, before the events of later changes of its key; and a request is
not dropped between its change and its event. -/
def AppendsInOrder (s : Requests T) : RequestAction → Prop
  | .append c outcome _ _ =>
    ∀ n change, s.requests c = some (.logging n change) →
      outcome ≠ .lost ∧ (M.toText change.item).isSome ∧
        ∀ event ∈ s.logged, event.change.key = change.key → event.n < n
  | .drop c => ∀ n change, s.requests c ≠ some (.logging n change)
  | _ => True

/-! ### What every run keeps -/

/-- What the changes so far make of a key. -/
def valueOf (initial : HandlerState T) (s : Requests T) (key : String) : Option T :=
  match (s.changesOf key).getLast? with
  | none => initial.storage.lookup key
  | some change => change.value

structure Inv (initial : HandlerState T) (s : Requests T) : Prop where
  log : s.handler.store.events = initial.store.events ++ s.logged.map LoggedEvent.envelope
  storage : ∀ key, s.handler.storage.lookup key = valueOf initial s key
  inFlight : ∀ c n change, s.requests c = some (.logging n change) →
    s.changes[n]? = some change ∧ ∀ event ∈ s.logged, event.n ≠ n
  apart : ∀ c c' n change change', c ≠ c' → s.requests c = some (.logging n change) →
    s.requests c' ≠ some (.logging n change')
  event : ∀ event ∈ s.logged, s.changes[event.n]? = some event.change ∧
    M.toText event.change.item = some event.envelope.payload

section Steps

variable {M sha256 config} {s next : Requests T}

theorem requests_setRequest_iff {c other : ℕ} {new : Option (Request T)} {request : Request T} :
    (s.setRequest c new).requests other = some request ↔
      (other = c ∧ new = some request) ∨ (other ≠ c ∧ s.requests other = some request) :=
  update_eq_some_iff

theorem begin_eq_some {c : ℕ} {change : Option (Change T)} (h : s.begin c change = some next) :
    s.requests c = none ∧ next = s.setRequest c (change.map .changing) := by
  unfold begin at h
  split_ifs at h with hfree
  exact ⟨Option.isNone_iff_eq_none.mp hfree, (Option.some.inj h).symm⟩

/-- A request changes the storage, or finds nothing to change and is done. -/
theorem step_change {c : ℕ} (h : step M sha256 config s (.change c) = some next) :
    ∃ change, s.requests c = some (.changing change) ∧
      ((∃ storage keyChange, change.apply M config s.handler.storage = some (storage, keyChange) ∧
        next = { s with
          handler := { s.handler with storage }
          changes := s.changes ++ [keyChange] }.setRequest c
            (some (.logging s.changes.length keyChange))) ∨
        next = s.setRequest c none) := by
  unfold step at h
  simp only at h
  split at h
  · next change hrequest =>
    refine ⟨change, hrequest, ?_⟩
    split at h
    · next storage keyChange happly =>
      exact Or.inl ⟨storage, keyChange, happly, (Option.some.inj h).symm⟩
    · exact Or.inr (Option.some.inj h).symm
  · exact absurd h (by simp)

/-- A request appends its event, or loses it. -/
theorem step_append {c : ℕ} {outcome : AppendOutcome} {now nowMillis : ℕ}
    (h : step M sha256 config s (.append c outcome now nowMillis) = some next) :
    ∃ n change, s.requests c = some (.logging n change) ∧
      ((¬ (outcome ≠ .lost ∧ (M.toText change.item).isSome) ∧ next = s.setRequest c none) ∨
        ∃ payload envelope, outcome ≠ .lost ∧ M.toText change.item = some payload ∧
          envelope.payload = payload ∧
          next = { s with
            handler := { s.handler with
              store := (s.handler.store.appendEnvelope sha256 envelope outcome).1 }
            logged := s.logged ++ [LoggedEvent.mk n change
              (s.handler.store.chained sha256 envelope)] }.setRequest c none) := by
  unfold step at h
  simp only at h
  split at h
  · next n change hrequest =>
    refine ⟨n, change, hrequest, ?_⟩
    split at h
    · next htext =>
      refine Or.inl ⟨?_, (Option.some.inj h).symm⟩
      rintro ⟨-, hsome⟩
      rw [htext] at hsome
      exact Bool.noConfusion hsome
    · exact Or.inl ⟨fun hsaved ↦ hsaved.1 rfl, (Option.some.inj h).symm⟩
    · next payload htext hnotlost =>
      refine Or.inr ⟨payload, change.envelope M payload now nowMillis, hnotlost, htext, ?_,
        (Option.some.inj h).symm⟩
      unfold KeyChange.envelope
      cases change.operation with
      | created => rfl
      | updated => rfl
      | deleted => rfl
      | adminEdit => rfl
  · exact absurd h (by simp)

theorem step_drop {c : ℕ} (h : step M sha256 config s (.drop c) = some next) :
    next = s.setRequest c none := by
  unfold step at h
  simp only at h
  split_ifs at h
  exact (Option.some.inj h).symm

/-- A change is one of its key. -/
theorem lookup_apply {change : Change T} {storage storage' : Storage T} {keyChange : KeyChange T}
    (h : change.apply M config storage = some (storage', keyChange)) (key : String) :
    storage'.lookup key = if keyChange.key = key then keyChange.value else storage.lookup key := by
  have hinsert : ∀ (id : String) (item : T), (storage.insert id item).lookup key =
      if id = key then some item else storage.lookup key := by
    intro id item
    split_ifs with hid
    · rw [← hid, Finmap.lookup_insert]
    · exact Finmap.lookup_insert_of_ne _ (Ne.symm hid)
  cases change with
  | create item =>
    obtain ⟨rfl, rfl⟩ := Prod.mk.inj (Option.some.inj h)
    exact hinsert _ _
  | update id item =>
    simp only [Change.apply] at h
    split_ifs at h
    obtain ⟨rfl, rfl⟩ := Prod.mk.inj (Option.some.inj h)
    exact hinsert _ _
  | delete id =>
    obtain ⟨item, -, heq⟩ := Option.map_eq_some_iff.mp h
    obtain ⟨rfl, rfl⟩ := Prod.mk.inj heq
    show (storage.erase id).lookup key = if id = key then none else _
    split_ifs with hid
    · rw [← hid, Finmap.lookup_erase]
    · exact Finmap.lookup_erase_ne (Ne.symm hid)
  | adminEdit id item =>
    obtain ⟨rfl, rfl⟩ := Prod.mk.inj (Option.some.inj h)
    exact hinsert _ _

theorem events_appendEnvelope {store : EventStore} {envelope : EventEnvelope}
    {outcome : AppendOutcome} (h : outcome ≠ .lost) :
    (store.appendEnvelope sha256 envelope outcome).1.events =
      store.events ++ [store.chained sha256 envelope] := by
  cases outcome with
  | lost => exact absurd rfl h
  | written => rfl
  | writtenThenFailed => rfl

end Steps

section Invariant

variable {M sha256 config} {initial : HandlerState T} {s next : Requests T}

theorem inv_start (handler : HandlerState T) : Inv M handler (start handler) where
  log := (List.append_nil _).symm
  storage := fun _ ↦ rfl
  inFlight := fun _ _ _ h ↦ absurd h (by simp [start])
  apart := fun _ _ _ _ _ _ h ↦ absurd h (by simp [start])
  event := fun _ h ↦ absurd h List.not_mem_nil

/-- A request ends, or has not changed anything yet. -/
theorem Inv.setRequest (h : Inv M initial s) {c : ℕ} {new : Option (Request T)}
    (hnew : ∀ n change, new ≠ some (.logging n change)) : Inv M initial (s.setRequest c new) where
  log := h.log
  storage := h.storage
  inFlight := by
    intro c' n change hc'
    rcases requests_setRequest_iff.mp hc' with ⟨-, heq⟩ | ⟨-, hold⟩
    · exact absurd heq (hnew n change)
    · exact h.inFlight c' n change hold
  apart := by
    intro c₁ c₂ n change change' hne hc₁ hc₂
    rcases requests_setRequest_iff.mp hc₁ with ⟨-, heq⟩ | ⟨-, hold⟩
    · exact hnew n change heq
    rcases requests_setRequest_iff.mp hc₂ with ⟨-, heq⟩ | ⟨-, hold'⟩
    · exact hnew n change' heq
    · exact h.apart c₁ c₂ n change change' hne hold hold'
  event := h.event

theorem valueOf_append (keyChange : KeyChange T) (key : String) (handler : HandlerState T)
    (requests : ℕ → Option (Request T)) :
    valueOf initial { s with handler, requests, changes := s.changes ++ [keyChange] } key =
      if keyChange.key = key then keyChange.value else valueOf initial s key := by
  unfold valueOf changesOf
  simp only [List.filter_append]
  split_ifs with hkey
  · rw [List.filter_cons_of_pos (by simpa using hkey), List.filter_nil, List.getLast?_concat]
  · rw [List.filter_cons_of_neg (by simpa using hkey), List.filter_nil, List.append_nil]

theorem Inv.change (h : Inv M initial s) {c : ℕ} {storage : Storage T} {keyChange : KeyChange T}
    (hlookup : ∀ key, storage.lookup key =
      if keyChange.key = key then keyChange.value else s.handler.storage.lookup key) :
    Inv M initial ({ s with
      handler := { s.handler with storage }
      changes := s.changes ++ [keyChange] }.setRequest c
        (some (.logging s.changes.length keyChange))) where
  log := h.log
  storage := by
    intro key
    show storage.lookup key = valueOf initial { s with
      handler := { s.handler with storage }
      requests := _
      changes := s.changes ++ [keyChange] } key
    rw [hlookup, valueOf_append, h.storage]
  inFlight := by
    intro c' n change hc'
    rcases requests_setRequest_iff.mp hc' with ⟨-, heq⟩ | ⟨-, hold⟩
    · obtain ⟨rfl, rfl⟩ := Request.logging.inj (Option.some.inj heq)
      refine ⟨List.getElem?_concat_length, fun event hevent hn ↦ ?_⟩
      have hlt := (List.getElem?_eq_some_iff.mp (h.event event hevent).1).1
      exact absurd hn hlt.ne
    · obtain ⟨hchange, hnot⟩ := h.inFlight c' n change hold
      have hlt := (List.getElem?_eq_some_iff.mp hchange).1
      exact ⟨(List.getElem?_append_left hlt).trans hchange, hnot⟩
  apart := by
    have hlow : ∀ c' n change, s.requests c' = some (.logging n change) →
        n < s.changes.length :=
      fun c' n change hold ↦ (List.getElem?_eq_some_iff.mp (h.inFlight c' n change hold).1).1
    intro c₁ c₂ n change change' hne hc₁ hc₂
    rcases requests_setRequest_iff.mp hc₁ with ⟨hsame₁, heq₁⟩ | ⟨-, hold₁⟩
    · obtain ⟨rfl, -⟩ := Request.logging.inj (Option.some.inj heq₁)
      rcases requests_setRequest_iff.mp hc₂ with ⟨hsame₂, -⟩ | ⟨-, hold₂⟩
      · exact hne (hsame₁.trans hsame₂.symm)
      · exact absurd (hlow c₂ _ change' hold₂) (lt_irrefl _)
    · rcases requests_setRequest_iff.mp hc₂ with ⟨-, heq₂⟩ | ⟨-, hold₂⟩
      · obtain ⟨rfl, -⟩ := Request.logging.inj (Option.some.inj heq₂)
        exact absurd (hlow c₁ _ change hold₁) (lt_irrefl _)
      · exact h.apart c₁ c₂ n change change' hne hold₁ hold₂
  event := by
    intro event hevent
    obtain ⟨hchange, htext⟩ := h.event event hevent
    have hlt := (List.getElem?_eq_some_iff.mp hchange).1
    exact ⟨(List.getElem?_append_left hlt).trans hchange, htext⟩

variable (sha256) in
theorem Inv.append (h : Inv M initial s) {c n : ℕ} {change : KeyChange T}
    (hc : s.requests c = some (.logging n change)) {outcome : AppendOutcome}
    (houtcome : outcome ≠ .lost) {envelope : EventEnvelope}
    (htext : M.toText change.item = some envelope.payload) :
    Inv M initial ({ s with
      handler := { s.handler with
        store := (s.handler.store.appendEnvelope sha256 envelope outcome).1 }
      logged := s.logged ++ [LoggedEvent.mk n change
        (s.handler.store.chained sha256 envelope)] }.setRequest c none) where
  log := by
    show (s.handler.store.appendEnvelope sha256 envelope outcome).1.events =
      _ ++ List.map _ (_ ++ _)
    rw [events_appendEnvelope houtcome, h.log, List.map_append, List.append_assoc]
    rfl
  storage := h.storage
  inFlight := by
    intro c' m change' hc'
    rcases requests_setRequest_iff.mp hc' with ⟨-, heq⟩ | ⟨hne, hold⟩
    · exact absurd heq (by simp)
    · obtain ⟨hchange, hnot⟩ := h.inFlight c' m change' hold
      refine ⟨hchange, fun event hevent ↦ ?_⟩
      rcases List.mem_append.mp hevent with hevent | hevent
      · exact hnot event hevent
      · rw [List.mem_singleton.mp hevent]
        rintro rfl
        exact h.apart c c' _ change change' (Ne.symm hne) hc hold
  apart := by
    intro c₁ c₂ m change₁ change₂ hne hc₁ hc₂
    rcases requests_setRequest_iff.mp hc₁ with ⟨-, heq⟩ | ⟨-, hold₁⟩
    · exact absurd heq (by simp)
    rcases requests_setRequest_iff.mp hc₂ with ⟨-, heq⟩ | ⟨-, hold₂⟩
    · exact absurd heq (by simp)
    · exact h.apart c₁ c₂ m change₁ change₂ hne hold₁ hold₂
  event := by
    intro event hevent
    rcases List.mem_append.mp hevent with hevent | hevent
    · exact h.event event hevent
    · rw [List.mem_singleton.mp hevent]
      refine ⟨(h.inFlight c n change hc).1, ?_⟩
      rw [EventStore.payload_chained]
      exact htext

theorem kept_inv : Kept (step M sha256 config) (Inv M initial) := by
  intro s a next h hnext
  have hbegin : ∀ {c : ℕ} {change : Option (Change T)}, s.begin c change = some next →
      Inv M initial next := by
    intro c change hbegin
    obtain ⟨-, rfl⟩ := begin_eq_some hbegin
    refine h.setRequest fun n keyChange heq ↦ ?_
    obtain ⟨_, -, heq⟩ := Option.map_eq_some_iff.mp heq
    exact absurd heq (by simp)
  cases a with
  | create c req env => exact hbegin hnext
  | update c id req env => exact hbegin hnext
  | delete c id req env => exact hbegin hnext
  | adminEdit c id changes => exact hbegin hnext
  | change c =>
    obtain ⟨change, -, ⟨storage, keyChange, happly, rfl⟩ | rfl⟩ := step_change hnext
    · exact h.change (lookup_apply happly)
    · exact h.setRequest (by simp)
  | append c outcome now nowMillis =>
    obtain ⟨n, change, hc, ⟨-, rfl⟩ | ⟨payload, envelope, houtcome, htext, rfl, rfl⟩⟩ :=
      step_append hnext
    · exact h.setRequest (by simp)
    · exact h.append sha256 hc houtcome htext
  | drop c =>
    obtain rfl := step_drop hnext
    exact h.setRequest (by simp)

/-! ### What a step does to the order -/

/-- A step that is no change and no event leaves the order as it is, if no event is at stake. -/
theorem LogsInOrder.setRequest (h : LogsInOrder M initial s) {c : ℕ} {new : Option (Request T)}
    (hold : ∀ n change, s.requests c ≠ some (.logging n change))
    (hnew : ∀ n change, new ≠ some (.logging n change)) :
    LogsInOrder M initial (s.setRequest c new) := by
  have hrequests : ∀ c' n change, (s.setRequest c new).requests c' = some (.logging n change) ↔
      s.requests c' = some (.logging n change) := by
    intro c' n change
    rw [requests_setRequest_iff]
    constructor
    · rintro (⟨-, heq⟩ | ⟨-, heq⟩)
      · exact absurd heq (hnew n change)
      · exact heq
    · intro heq
      refine Or.inr ⟨?_, heq⟩
      rintro rfl
      exact hold n change heq
  refine ⟨h.log, h.inOrder, fun n change hn ↦ ?_, fun key hkey ↦ h.last key ?_⟩
  · rcases h.complete n change hn with hlogged | ⟨c', hc'⟩
    · exact Or.inl hlogged
    · exact Or.inr ⟨c', (hrequests c' n change).mpr hc'⟩
  · rintro ⟨c', n, change, hc', hchange⟩
    exact hkey ⟨c', n, change, (hrequests c' n change).mpr hc', hchange⟩

/-- A change leaves the order as it is: the event of the key is about to be appended. -/
theorem LogsInOrder.change (h : LogsInOrder M initial s) {c : ℕ} {change : Change T}
    (hc : s.requests c = some (.changing change)) {storage : Storage T} {keyChange : KeyChange T}
    (happly : change.apply M config s.handler.storage = some (storage, keyChange)) :
    LogsInOrder M initial ({ s with
      handler := { s.handler with storage }
      changes := s.changes ++ [keyChange] }.setRequest c
        (some (.logging s.changes.length keyChange))) := by
  have hkept : ∀ c' n change, s.requests c' = some (.logging n change) →
      ∀ changes handler, ({ s with handler, changes }.setRequest c
        (some (.logging s.changes.length keyChange))).requests c' =
          some (.logging n change) := by
    intro c' n change' hc' changes handler
    refine requests_setRequest_iff.mpr (Or.inr ⟨?_, hc'⟩)
    rintro rfl
    rw [hc] at hc'
    exact absurd hc' (by simp)
  refine ⟨h.log, h.inOrder, fun n change' hn ↦ ?_, fun key hkey ↦ ?_⟩
  · by_cases hlt : n < s.changes.length
    · rcases h.complete n change' ((List.getElem?_append_left hlt).symm.trans hn) with
        hlogged | ⟨c', hc'⟩
      · exact Or.inl hlogged
      · exact Or.inr ⟨c', hkept c' n change' hc' _ _⟩
    · have hle : n < (s.changes ++ [keyChange]).length := (List.getElem?_eq_some_iff.mp hn).1
      rw [List.length_append, List.length_singleton] at hle
      obtain rfl : n = s.changes.length := by omega
      obtain rfl := Option.some.inj (List.getElem?_concat_length.symm.trans hn)
      exact Or.inr ⟨c, requests_setRequest_iff.mpr (Or.inl ⟨rfl, rfl⟩)⟩
  · have hne : keyChange.key ≠ key := fun heq ↦
      hkey ⟨c, _, keyChange, requests_setRequest_iff.mpr (Or.inl ⟨rfl, rfl⟩), heq⟩
    have hkey' : ¬ s.InFlight key := by
      rintro ⟨c', n, change', hc', hchange⟩
      exact hkey ⟨c', n, change', hkept c' n change' hc' _ _, hchange⟩
    have hlast := h.last key hkey'
    rw [show s.handler.storage.lookup key = storage.lookup key by
      rw [lookup_apply happly, if_neg hne]] at hlast
    exact hlast

/-- A change whose event is not appended by the request that has to is without one. -/
theorem not_logsInOrder_end (h : Inv M initial s) {c n : ℕ} {change : KeyChange T}
    (hc : s.requests c = some (.logging n change)) :
    ¬ LogsInOrder M initial (s.setRequest c none) := by
  intro hnext
  obtain ⟨hchange, hnot⟩ := h.inFlight c n change hc
  rcases hnext.complete n change hchange with ⟨event, hevent, hn⟩ | ⟨c', hc'⟩
  · exact hnot event hevent hn
  · rcases requests_setRequest_iff.mp hc' with ⟨-, heq⟩ | ⟨hne, hold⟩
    · exact absurd heq (by simp)
    · exact h.apart c c' n change change (Ne.symm hne) hc hold

/-- An event describes the key when its change was the last of the key. -/
theorem describes_of_last {event : LoggedEvent T} {value : Option T}
    (hvalue : value = event.change.value)
    (htext : M.toText event.change.item = some event.envelope.payload) :
    Describes M event value := by
  subst hvalue
  unfold Describes KeyChange.value
  cases event.change.operation with
  | deleted => rfl
  | created => exact ⟨_, rfl, htext⟩
  | updated => exact ⟨_, rfl, htext⟩
  | adminEdit => exact ⟨_, rfl, htext⟩

theorem eventsOf_append (event : LoggedEvent T) (key : String) (handler : HandlerState T) (c : ℕ)
    (request : Option (Request T)) :
    ({ s with handler, logged := s.logged ++ [event] }.setRequest c request).eventsOf key =
      if event.change.key = key then s.eventsOf key ++ [event] else s.eventsOf key := by
  show List.filter _ (_ ++ _) = _
  rw [List.filter_append]
  split_ifs with hkey
  · rw [List.filter_cons_of_pos (by simpa using hkey)]
    rfl
  · rw [List.filter_cons_of_neg (by simpa using hkey), List.filter_nil, List.append_nil]
    rfl

/-- When all later changes of the key have no event yet and no other request has changed it, the
storage holds what this change made of the key. -/
theorem lookup_of_last (hinv : Inv M initial s) (h : LogsInOrder M initial s) {c n : ℕ}
    {change : KeyChange T} (hc : s.requests c = some (.logging n change))
    (hlater : ∀ event ∈ s.logged, event.change.key = change.key → event.n < n)
    (hothers : ∀ c' m change', c' ≠ c → s.requests c' = some (.logging m change') →
      change'.key ≠ change.key) : s.handler.storage.lookup change.key = change.value := by
  rw [hinv.storage, valueOf, changesOf,
    getLast?_filter_eq_some (hinv.inFlight c n change hc).1 (decide_eq_true rfl) ?_]
  intro m change' hm hkey
  have hkey := of_decide_eq_true hkey
  rcases h.complete m change' hm with ⟨event, hevent, hn⟩ | ⟨c', hc'⟩
  · have hchange := (hinv.event event hevent).1
    rw [hn, hm] at hchange
    obtain rfl := Option.some.inj hchange
    exact (hn ▸ hlater event hevent hkey).le
  · by_cases hne : c' = c
    · subst hne
      obtain ⟨rfl, -⟩ := Request.logging.inj (Option.some.inj (hc.symm.trans hc'))
      exact le_rfl
    · exact absurd hkey (hothers c' m change' hne hc')

/-- An event keeps the order exactly when no event of a later change of its key is in the log. -/
theorem LogsInOrder.append_iff (hinv : Inv M initial s) (h : LogsInOrder M initial s) {c n : ℕ}
    {change : KeyChange T} (hc : s.requests c = some (.logging n change))
    {outcome : AppendOutcome} (houtcome : outcome ≠ .lost) {envelope : EventEnvelope}
    (htext : M.toText change.item = some envelope.payload) :
    LogsInOrder M initial ({ s with
      handler := { s.handler with
        store := (s.handler.store.appendEnvelope sha256 envelope outcome).1 }
      logged := s.logged ++ [LoggedEvent.mk n change
        (s.handler.store.chained sha256 envelope)] }.setRequest c none) ↔
      ∀ event ∈ s.logged, event.change.key = change.key → event.n < n := by
  have hinv' := hinv.append sha256 hc houtcome htext
  have hevents := fun key ↦ eventsOf_append (s := s)
    ⟨n, change, s.handler.store.chained sha256 envelope⟩ key
    { s.handler with store := (s.handler.store.appendEnvelope sha256 envelope outcome).1 } c none
  have hkept : ∀ c' m change', c' ≠ c → s.requests c' = some (.logging m change') →
      ∀ handler logged, ({ s with handler, logged }.setRequest c none).requests c' =
        some (.logging m change') :=
    fun c' m change' hne hc' _ _ ↦ requests_setRequest_iff.mpr (Or.inr ⟨hne, hc'⟩)
  constructor
  · intro hnext event hevent hkey
    have horder := hnext.inOrder change.key
    rw [hevents, if_pos rfl] at horder
    exact (List.pairwise_append.mp horder).2.2 event
      (List.mem_filter.mpr ⟨hevent, by simpa using hkey⟩) _ List.mem_cons_self
  intro hlater
  refine ⟨hinv'.log, fun key ↦ ?_, fun m change' hm ↦ ?_, fun key hkey ↦ ?_⟩
  · rw [hevents]
    split_ifs with heq
    · refine List.pairwise_append.mpr ⟨h.inOrder key, List.pairwise_singleton _ _, ?_⟩
      intro event hevent last hlast
      obtain ⟨hevent, hkey⟩ := List.mem_filter.mp hevent
      rw [List.mem_singleton.mp hlast]
      exact hlater event hevent ((of_decide_eq_true hkey).trans heq.symm)
    · exact h.inOrder key
  · rcases h.complete m change' hm with ⟨event, hevent, hn⟩ | ⟨c', hc'⟩
    · exact Or.inl ⟨event, List.mem_append_left _ hevent, hn⟩
    · by_cases hne : c' = c
      · subst hne
        obtain ⟨rfl, -⟩ := Request.logging.inj (Option.some.inj (hc.symm.trans hc'))
        exact Or.inl ⟨_, List.mem_append_right _ List.mem_cons_self, rfl⟩
      · exact Or.inr ⟨c', hkept c' m change' hne hc' _ _⟩
  · have hflying : ∀ c' m change', c' ≠ c → s.requests c' = some (.logging m change') →
        change'.key ≠ key :=
      fun c' m change' hne hc' heq ↦ hkey ⟨c', m, change', hkept c' m change' hne hc' _ _, heq⟩
    rw [hevents]
    by_cases heq : change.key = key
    · rw [if_pos heq, List.getLast?_concat]
      subst heq
      refine describes_of_last (lookup_of_last hinv h hc hlater hflying) ?_
      rw [EventStore.payload_chained]
      exact htext
    · rw [if_neg heq]
      refine h.last key ?_
      rintro ⟨c', m, change', hc', hkey'⟩
      by_cases hne : c' = c
      · subst hne
        obtain ⟨-, rfl⟩ := Request.logging.inj (Option.some.inj (hc.symm.trans hc'))
        exact heq hkey'
      · exact hflying c' m change' hne hc' hkey'

/-- One step keeps the order exactly when it meets the condition. -/
theorem logsInOrder_step {a : RequestAction} (hinv : Inv M initial s)
    (h : LogsInOrder M initial s) (hnext : step M sha256 config s a = some next) :
    LogsInOrder M initial next ↔ AppendsInOrder M s a := by
  have hbegin : ∀ {c : ℕ} {change : Option (Change T)}, s.begin c change = some next →
      (LogsInOrder M initial next ↔ True) := by
    intro c change hbegin
    obtain ⟨hfree, rfl⟩ := begin_eq_some hbegin
    refine iff_true_intro (h.setRequest (fun n keyChange heq ↦ ?_) fun n keyChange heq ↦ ?_)
    · rw [hfree] at heq
      exact absurd heq (by simp)
    · obtain ⟨_, -, heq⟩ := Option.map_eq_some_iff.mp heq
      exact absurd heq (by simp)
  cases a with
  | create c req env => exact hbegin hnext
  | update c id req env => exact hbegin hnext
  | delete c id req env => exact hbegin hnext
  | adminEdit c id changes => exact hbegin hnext
  | change c =>
    refine iff_true_intro ?_
    obtain ⟨change, hc, ⟨storage, keyChange, happly, rfl⟩ | rfl⟩ := step_change hnext
    · exact h.change hc happly
    · exact h.setRequest (by simp [hc]) (by simp)
  | append c outcome now nowMillis =>
    obtain ⟨n, change, hc, ⟨hlost, rfl⟩ | ⟨payload, envelope, houtcome, htext, rfl, rfl⟩⟩ :=
      step_append hnext
    · refine iff_of_false (not_logsInOrder_end hinv hc) fun hmeets ↦ ?_
      obtain ⟨houtcome, hsome, -⟩ := hmeets n change hc
      exact hlost ⟨houtcome, hsome⟩
    · rw [LogsInOrder.append_iff hinv h hc houtcome htext]
      constructor
      · intro hlater m change' hc'
        rw [hc] at hc'
        obtain ⟨rfl, rfl⟩ := Request.logging.inj (Option.some.inj hc')
        exact ⟨houtcome, by rw [htext]; rfl, hlater⟩
      · intro hmeets
        exact (hmeets n change hc).2.2
  | drop c =>
    obtain rfl := step_drop hnext
    show _ ↔ ∀ n change, s.requests c ≠ some (.logging n change)
    by_cases hc : ∃ n change, s.requests c = some (.logging n change)
    · obtain ⟨n, change, hc⟩ := hc
      exact iff_of_false (not_logsInOrder_end hinv hc) fun hnot ↦ hnot n change hc
    · have hnot : ∀ n change, s.requests c ≠ some (.logging n change) :=
        fun n change hc' ↦ hc ⟨n, change, hc'⟩
      exact iff_of_true (h.setRequest hnot (by simp)) hnot

theorem logsInOrder_start (handler : HandlerState T) : LogsInOrder M handler (start handler) where
  log := (List.append_nil _).symm
  inOrder := fun _ ↦ List.Pairwise.nil
  complete := fun _ _ h ↦ absurd h (by simp [start])
  last := fun _ _ ↦ rfl

end Invariant

end Requests

end Declarative

section Main

open Declarative Declarative.Requests

variable {T : Type*} (M : HttpExposable T) (sha256 : List UInt8 → String) (config : HandlerConfig)

/-- In every run, the events of each key are logged in the order of the key's changes, with none
missing, exactly when each event is appended before those of later changes of its key and reaches
the log. -/
theorem logsInOrder_iff_appendsInOrder (handler : HandlerState T) (actions : List RequestAction) :
    Always (Requests.step M sha256 config) (LogsInOrder M handler) (start handler) actions ↔
      EachStep (Requests.step M sha256 config) (AppendsInOrder M) (start handler) actions :=
  always_iff_eachStep kept_inv (fun _ _ _ hinv h hnext ↦ logsInOrder_step hinv h hnext)
    (inv_start handler) (logsInOrder_start handler) actions

/-- One request creates the shelf `a`, a second deletes it and is the first to append its event. -/
theorem created_after_deleted :
    ¬ ∀ sha256 actions, Always (Requests.step Shelf.exposed sha256 openConfig)
      (LogsInOrder Shelf.exposed (emptyHandler true)) (start (emptyHandler true)) actions := by
  intro h
  have hrun := h (fun _ ↦ "") [.create 0 createShelf quietEnvironment, .change 0,
    .delete 1 "a" deleteShelf quietEnvironment, .change 1, .append 1 .written 0 0,
    .append 0 .written 0 0]
  have hlast : LogsInOrder Shelf.exposed (emptyHandler true) _ :=
    ((((((hrun.2 _ rfl).2 _ rfl).2 _ rfl).2 _ rfl).2 _ rfl).2 _ rfl)
  have horder : [1, 0].Pairwise fun first second ↦ first < second :=
    List.pairwise_map.mpr (hlast.inOrder "a")
  exact absurd horder (by decide)

end Main

end Lithair.Http
