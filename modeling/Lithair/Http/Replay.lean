import Lithair.Http.Declarative
import Lithair.Lib.Run

/-!
# Recovery from the event log

A handler that has gone through any sequence of successful operations, compared with a fresh one
that replays its event log. `replay_events` inserts the item of every event under its primary key
and looks neither at the kind of the event nor at the key the operation used, so a log with a
deletion brings the deleted item back, and an item stored under another key than its own comes back
under its own.

`recovered_iff_recoverable` says exactly which sequences recover: no deletion of an item, no key but
the primary key, and no replicated write that went unrecorded.
-/

namespace Lithair.Http

open Lithair.Engine Lithair.Lib Lithair.Lib.KeyedMap Lithair.Lib.Run

/-- The six operations that change a model's storage, with what the environment decides in each. -/
inductive HandlerOperation (T : Type*)
  | create (req : WriteRequest) (env : Environment)
  | update (id : String) (req : WriteRequest) (env : Environment)
  | delete (id : String) (req : WriteRequest) (env : Environment)
  | replicatedCreate (item : T) (env : Environment)
  | replicatedUpdate (id : String) (item : T) (env : Environment)
  | replicatedDelete (id : String) (env : Environment)

namespace Declarative

variable {T : Type*} (M : HttpExposable T) (sha256 : List UInt8 → String) (config : HandlerConfig)

/-- The state after a client's operation that was answered with success. -/
def onSuccess (result : HandlerState T × Response T) : Option (HandlerState T) :=
  if result.2.isSuccess then some result.1 else none

/-- A successful operation. A replicated one always succeeds. -/
def step (s : HandlerState T) : HandlerOperation T → Option (HandlerState T)
  | .create req env => onSuccess (handleCreate M sha256 config s req env)
  | .update id req env => onSuccess (handleUpdate M sha256 config s id req env)
  | .delete id req env => onSuccess (handleDelete M sha256 config s id req env)
  | .replicatedCreate item env => some (applyReplicatedItem M sha256 s item env)
  | .replicatedUpdate id item env => some (applyReplicatedUpdate M sha256 s id item env)
  | .replicatedDelete id env => some (applyReplicatedDelete M sha256 s id env).1

/-- Replaying the log into an empty storage gives the live storage. -/
def Recovered (s : HandlerState T) : Prop := replayEvents M s.store.events ∅ = s.storage

/-- The operation on the item leaves an event in the log. -/
def Logged (item : T) (env : Environment) : Prop :=
  (M.toText item).isSome ∧ env.append ≠ .lost

instance (item : T) (env : Environment) : Decidable (Logged M item env) :=
  inferInstanceAs (Decidable (_ ∧ _))

/-- A replicated write of the item under the key: recorded, and under the item's own key; or not
recorded, and without effect. -/
def RecoverableWrite (s : HandlerState T) (key : String) (item : T) (env : Environment) : Prop :=
  if Logged M item env then key = M.getPrimaryKey item else s.storage.lookup key = some item

/-- What an operation must meet for the log to keep up with the storage. -/
def Recoverable (s : HandlerState T) : HandlerOperation T → Prop
  | .create req _ => ∀ item, prepare M config req = .ok item →
      createKey M config item = M.getPrimaryKey item
  | .update id req _ => ∀ item, prepare M config req = .ok item → id = M.getPrimaryKey item
  | .delete _ _ _ => False
  | .replicatedCreate item env => RecoverableWrite M s (M.actualKey item) item env
  | .replicatedUpdate id item env =>
    RecoverableWrite M s (if id ∈ s.storage then id else M.actualKey item) item env
  | .replicatedDelete id _ => id ∉ s.storage

theorem recovered_emptyHandler (enableHashChain : Bool) :
    Recovered M (emptyHandler enableHashChain) := rfl

/-! ### Replay as insertion of items -/

/-- The items of the events that parse, in order. -/
def itemsOf (events : List EventEnvelope) : List T :=
  events.filterMap fun event ↦ M.fromText event.payload

/-- Replay inserts the items of the log, each under its primary key. -/
theorem replayEvents_eq_insertAll (events : List EventEnvelope) (storage : Storage T) :
    replayEvents M events storage = insertAll M.getPrimaryKey (itemsOf M events) storage := by
  induction events generalizing storage with
  | nil => rfl
  | cons event rest ih =>
    change replayEvents M rest (replayEvent M storage event) = _
    rw [ih]
    unfold replayEvent itemsOf
    rw [List.filterMap_cons]
    cases M.fromText event.payload with
    | none => rfl
    | some item => rfl

/-- A recovered storage holds every item under its primary key. -/
theorem Recovered.keyed {s : HandlerState T} (h : Recovered M s) :
    Keyed M.getPrimaryKey s.storage := by
  unfold Recovered at h
  rw [← h, replayEvents_eq_insertAll]
  exact keyed_empty.insertAll _

/-! ### What persisting does to the replay -/

/-- A logged operation appends an event whose payload reads back as the item. -/
theorem exists_event_of_logged {store : EventStore} {operation : String} {item : T}
    {env : Environment} (h : Logged M item env) :
    ∃ event, M.fromText event.payload = some item ∧
      (persistToEventStore M sha256 store operation item env).1.events =
        store.events ++ [event] := by
  obtain ⟨hsome, hkept⟩ := h
  obtain ⟨payload, hpayload⟩ := Option.isSome_iff_exists.mp hsome
  refine ⟨store.chained sha256 (envelope M operation payload item env.now), ?_, ?_⟩
  · rw [EventStore.payload_chained]
    exact M.fromText_toText hpayload
  · unfold persistToEventStore
    rw [hpayload]
    cases happend : env.append with
    | lost => exact absurd happend hkept
    | written | writtenThenFailed => simp [EventStore.appendEnvelope]

theorem persist_of_not_logged {store : EventStore} {operation : String} {item : T}
    {env : Environment} (h : ¬ Logged M item env) :
    persistToEventStore M sha256 store operation item env = (store, false) := by
  unfold persistToEventStore
  cases hpayload : M.toText item with
  | none => rfl
  | some payload =>
    have hlost : env.append = .lost := by
      by_contra hkept
      exact h ⟨Option.isSome_iff_exists.mpr ⟨payload, hpayload⟩, hkept⟩
    simp [EventStore.appendEnvelope, hlost]

/-- An operation that is logged replays as an insertion of its item under its primary key, and one
that is not replays as nothing. -/
theorem replayEvents_persist (store : EventStore) (operation : String) (item : T)
    (env : Environment) :
    replayEvents M (persistToEventStore M sha256 store operation item env).1.events ∅ =
      if Logged M item env then
        (replayEvents M store.events ∅).insert (M.getPrimaryKey item) item
      else replayEvents M store.events ∅ := by
  split_ifs with h
  · obtain ⟨event, hitem, hevents⟩ :
        ∃ event, M.fromText event.payload = some item ∧
          (persistToEventStore M sha256 store operation item env).1.events =
            store.events ++ [event] := exists_event_of_logged M sha256 h
    rw [hevents]
    unfold replayEvents
    rw [List.foldl_append, List.foldl_cons, List.foldl_nil]
    unfold replayEvent
    rw [hitem]
  · rw [persist_of_not_logged M sha256 h]

/-! ### What a successful operation does -/

section Success

variable {M sha256 config} {s next : HandlerState T}

/-- A client's operation that succeeds has its event in the log. -/
theorem persistAndAnswer_success {operation : String} {item : T} {env : Environment}
    {response : Response T}
    (h : onSuccess (persistAndAnswer M sha256 s operation item env response) = some next) :
    Logged M item env ∧
      next = { s with store := (persistToEventStore M sha256 s.store operation item env).1 } := by
  unfold onSuccess persistAndAnswer at h
  by_cases hlogged : Logged M item env
  · refine ⟨hlogged, ?_⟩
    split_ifs at h
    exact (Option.some.inj h).symm
  · rw [persist_of_not_logged M sha256 hlogged] at h
    simp [Response.isSuccess] at h

theorem authorize_error {req : WriteRequest} {item : T} {operation : String}
    {response : Response T} (h : authorize M config req item operation = .error response) :
    response.isSuccess = false := by
  unfold authorize at h
  split_ifs at h
  · obtain rfl := Except.error.inj h
    rfl
  · split at h
    · exact absurd h (by simp)
    · obtain rfl := Except.error.inj h
      rfl
    · split_ifs at h
      obtain rfl := Except.error.inj h
      rfl

theorem parseBody_error {req : WriteRequest} {response : Response T}
    (h : parseBody M config req = .error response) : response.isSuccess = false := by
  unfold parseBody at h
  split_ifs at h
  · obtain rfl := Except.error.inj h
    rfl
  · obtain rfl := Except.error.inj h
    rfl
  · split at h
    · obtain rfl := Except.error.inj h
      rfl
    · split_ifs at h
      · obtain rfl := Except.error.inj h
        rfl
      · split at h
        · obtain rfl := Except.error.inj h
          rfl
        · exact absurd h (by simp)

/-- A request that is turned away is not answered with success. -/
theorem prepare_error {req : WriteRequest} {response : Response T}
    (h : prepare M config req = .error response) : response.isSuccess = false := by
  unfold prepare at h
  split at h
  · next hparse =>
    obtain rfl := Except.error.inj h
    exact parseBody_error hparse
  · split at h
    · next hauthorize =>
      obtain rfl := Except.error.inj h
      exact authorize_error hauthorize
    · split at h
      · obtain rfl := Except.error.inj h
        rfl
      · split at h
        · obtain rfl := Except.error.inj h
          rfl
        · exact absurd h (by simp)

theorem authorizeDelete_error {storage : Storage T} {id : String} {req : WriteRequest}
    {response : Response T} (h : authorizeDelete M config storage id req = .error response) :
    response.isSuccess = false := by
  unfold authorizeDelete at h
  split at h
  · exact authorize_error h
  · exact absurd h (by simp)

theorem propose_error {env : Environment} {response : Response T}
    (h : propose config env = .error response) : response.isSuccess = false := by
  unfold propose at h
  split_ifs at h
  split at h
  · exact absurd h (by simp)
  · obtain rfl := Except.error.inj h
    rfl

theorem onSuccess_error {response : Response T} (h : response.isSuccess = false) :
    onSuccess (s, response) = none := by
  simp [onSuccess, h]

/-- A create that succeeds stores the prepared item and logs it. -/
theorem handleCreate_success {req : WriteRequest} {env : Environment}
    (h : onSuccess (handleCreate M sha256 config s req env) = some next) :
    ∃ item, prepare M config req = .ok item ∧ Logged M item env ∧
      next = {
        storage := s.storage.insert (createKey M config item) item
        store := (persistToEventStore M sha256 s.store "Created" item env).1 } := by
  unfold handleCreate at h
  split at h
  · next hprepare => exact absurd h (by simp [onSuccess_error (prepare_error hprepare)])
  · next item hprepare =>
    split at h
    · next hpropose => exact absurd h (by simp [onSuccess_error (propose_error hpropose)])
    · obtain ⟨hlogged, rfl⟩ := persistAndAnswer_success h
      exact ⟨item, hprepare, hlogged, rfl⟩

/-- An update that succeeds stores the prepared item under the path's id and logs it. -/
theorem handleUpdate_success {id : String} {req : WriteRequest} {env : Environment}
    (h : onSuccess (handleUpdate M sha256 config s id req env) = some next) :
    ∃ item, prepare M config req = .ok item ∧ Logged M item env ∧
      next = {
        storage := s.storage.insert id item
        store := (persistToEventStore M sha256 s.store "Updated" item env).1 } := by
  unfold handleUpdate at h
  split at h
  · next hprepare => exact absurd h (by simp [onSuccess_error (prepare_error hprepare)])
  · next item hprepare =>
    split at h
    · next hpropose => exact absurd h (by simp [onSuccess_error (propose_error hpropose)])
    · split_ifs at h
      · obtain ⟨hlogged, rfl⟩ := persistAndAnswer_success h
        exact ⟨item, hprepare, hlogged, rfl⟩
      · exact absurd h (by simp [onSuccess, Response.isSuccess])

/-- A delete that succeeds removes an item and logs it. -/
theorem handleDelete_success {id : String} {req : WriteRequest} {env : Environment}
    (h : onSuccess (handleDelete M sha256 config s id req env) = some next) :
    ∃ item, s.storage.lookup id = some item ∧ Logged M item env ∧
      next = {
        storage := s.storage.erase id
        store := (persistToEventStore M sha256 s.store "Deleted" item env).1 } := by
  unfold handleDelete at h
  split at h
  · next hauthorized =>
    exact absurd h (by simp [onSuccess_error (authorizeDelete_error hauthorized)])
  · split at h
    · next hpropose => exact absurd h (by simp [onSuccess_error (propose_error hpropose)])
    · split at h
      · next item hitem =>
        obtain ⟨hlogged, rfl⟩ := persistAndAnswer_success h
        exact ⟨item, hitem, hlogged, rfl⟩
      · exact absurd h (by simp [onSuccess, Response.isSuccess])

end Success

/-! ### One operation -/

section Recovery

variable {M sha256} {s : HandlerState T}

/-- Writing an item and persisting it recovers exactly when the write is recoverable. -/
theorem recovered_write_iff (h : Recovered M s) (key operation : String) (item : T)
    (env : Environment) :
    Recovered M {
        storage := s.storage.insert key item
        store := (persistToEventStore M sha256 s.store operation item env).1 } ↔
      RecoverableWrite M s key item env := by
  unfold Recovered at h
  unfold Recovered RecoverableWrite
  change replayEvents M (persistToEventStore M sha256 s.store operation item env).1.events ∅ =
    s.storage.insert key item ↔ _
  rw [replayEvents_persist, h]
  split_ifs
  · exact (Recovered.keyed M h).insert_eq_insert_iff
  · exact eq_insert_iff

/-- After removing an item the replay still has it, logged or not. -/
theorem not_recovered_erase (h : Recovered M s) {id : String} {item : T}
    (hitem : s.storage.lookup id = some item) (operation : String) (env : Environment) :
    ¬ Recovered M {
        storage := s.storage.erase id
        store := (persistToEventStore M sha256 s.store operation item env).1 } := by
  have hkeyed := Recovered.keyed M h
  unfold Recovered at h
  intro hnext
  change replayEvents M (persistToEventStore M sha256 s.store operation item env).1.events ∅ =
    s.storage.erase id at hnext
  rw [replayEvents_persist, h, hkeyed id item hitem] at hnext
  split_ifs at hnext
  · rw [← eq_insert_iff.mpr hitem] at hnext
    exact ne_erase hitem hnext
  · exact ne_erase hitem hnext

theorem recovered_step (config : HandlerConfig) (s : HandlerState T) (a : HandlerOperation T)
    (next : HandlerState T) (_ : True) (h : Recovered M s)
    (hnext : step M sha256 config s a = some next) :
    Recovered M next ↔ Recoverable M config s a := by
  cases a with
  | create req env =>
    obtain ⟨item, hprepare, hlogged, rfl⟩ := handleCreate_success hnext
    rw [recovered_write_iff h, RecoverableWrite, if_pos hlogged]
    simp [Recoverable, hprepare]
  | update id req env =>
    obtain ⟨item, hprepare, hlogged, rfl⟩ := handleUpdate_success hnext
    rw [recovered_write_iff h, RecoverableWrite, if_pos hlogged]
    simp [Recoverable, hprepare]
  | delete id req env =>
    obtain ⟨item, hitem, -, rfl⟩ := handleDelete_success hnext
    exact iff_of_false (not_recovered_erase h hitem _ _) not_false
  | replicatedCreate item env =>
    obtain rfl := Option.some.inj hnext
    exact recovered_write_iff h _ _ _ _
  | replicatedUpdate id item env =>
    obtain rfl := Option.some.inj hnext
    by_cases hid : id ∈ s.storage
    · simp only [applyReplicatedUpdate, Recoverable, if_pos hid]
      exact recovered_write_iff h _ _ _ _
    · simp only [applyReplicatedUpdate, Recoverable, if_neg hid]
      exact recovered_write_iff h _ _ _ _
  | replicatedDelete id env =>
    obtain rfl := Option.some.inj hnext
    unfold applyReplicatedDelete Recoverable
    cases hitem : s.storage.lookup id with
    | none => exact iff_of_true h (Finmap.lookup_eq_none.mp hitem)
    | some item =>
      refine iff_of_false (not_recovered_erase h hitem _ _) (not_not.mpr ?_)
      exact Finmap.lookup_isSome.mp (Option.isSome_iff_exists.mpr ⟨item, hitem⟩)

end Recovery

end Declarative

/-! ### Every sequence of operations -/

/-- A sequence of successful operations leaves a log that replays to the live storage, after each of
its operations, exactly when each operation is recoverable. -/
theorem recovered_iff_recoverable {T : Type*} (M : HttpExposable T) (sha256 : List UInt8 → String)
    (config : HandlerConfig) (enableHashChain : Bool) (operations : List (HandlerOperation T)) :
    Always (Declarative.step M sha256 config) (Declarative.Recovered M)
        (Declarative.emptyHandler enableHashChain) operations ↔
      EachStep (Declarative.step M sha256 config) (Declarative.Recoverable M config)
        (Declarative.emptyHandler enableHashChain) operations :=
  always_iff_eachStep (fun _ _ _ _ _ ↦ trivial) (Declarative.recovered_step config) trivial
    (Declarative.recovered_emptyHandler M enableHashChain) operations

/-! ### A deleted item comes back -/

section DeletedItem

/-- A handler on a single node, open to everyone. -/
def openConfig : HandlerConfig where
  consensus := false
  permissionExtractor := false
  permissionChecker := none
  maxBodyBytesSingle := 1048576

/-- The request to create the shelf `a`. -/
def createShelf : WriteRequest :=
  ⟨true, some 10, some (asBytes Shelf.a.text), [], none⟩

/-- The request to delete a shelf. -/
def deleteShelf : WriteRequest := ⟨false, none, some [], [], none⟩

/-- The shelf `a` is created and deleted; the replay of the log has it. -/
theorem deleted_item_comes_back :
    ¬ ∃ sha256 : List UInt8 → String,
      Always (Declarative.step Shelf.exposed sha256 openConfig)
        (Declarative.Recovered Shelf.exposed) (Declarative.emptyHandler true)
        [.create createShelf quietEnvironment, .delete "a" deleteShelf quietEnvironment] := by
  rintro ⟨sha256, h⟩
  have hcreate := h.2 _ rfl
  have hrecovered : Declarative.Recovered Shelf.exposed _ := hcreate.2 _ rfl
  have hstored : ((∅ : Storage Shelf).insert "a" .a).lookup "a" = some .a :=
    Finmap.lookup_insert _
  exact Declarative.not_recovered_erase hcreate.1 hstored "Deleted" quietEnvironment hrecovered

end DeletedItem

end Lithair.Http
