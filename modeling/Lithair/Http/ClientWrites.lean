import Lithair.Http.Acceptance

/-!
# What the writes of a client change

The four write requests of `http/declarative.rs` as one (`handleWrite`), with whatever the
environment does. For each request, when it leaves the storage and the event log as they are
(`handleCreate_eq_self_iff`, `handleUpdate_eq_self_iff`, `handleDelete_eq_self_iff`,
`handleBulkCreate_eq_self_iff`) and when it is answered with success (`handleCreate_isSuccess_iff`
and the like).
-/

namespace Lithair.Http

open Lithair.Engine Lithair.Lib Lithair.Lib.KeyedMap

/-- A write request, by its handler. -/
inductive WriteCall
  | create (req : WriteRequest)
  | bulkCreate (req : WriteRequest)
  | update (id : String) (req : WriteRequest)
  | delete (id : String) (req : WriteRequest)

inductive WriteAnswer (T : Type*)
  | single (response : Response T)
  | bulk (answer : Except (Response T) (List T))
  deriving DecidableEq

/-- The answers with a status between 200 and 299. -/
def WriteAnswer.isSuccess {T : Type*} : WriteAnswer T → Bool
  | .single response => response.isSuccess
  | .bulk (.ok _) => true
  | .bulk (.error _) => false

theorem WriteAnswer.isSuccess_bulk_iff {T : Type*} {answer : Except (Response T) (List T)} :
    (WriteAnswer.bulk answer).isSuccess = true ↔ ∃ created, answer = .ok created := by
  cases answer <;> simp [WriteAnswer.isSuccess]

namespace Declarative

variable {T : Type*} (M : HttpExposable T) (sha256 : List UInt8 → String)

/-- Handle a write request. A create in bulk takes an environment for each of its items, and the
others take the first. -/
def handleWrite (config : BulkConfig T) (s : HandlerState T) (call : WriteCall)
    (env : ℕ → Environment) : HandlerState T × WriteAnswer T :=
  match call with
  | .create req =>
    let (next, response) := handleCreate M sha256 config.toHandlerConfig s req (env 0)
    (next, .single response)
  | .bulkCreate req =>
    let (next, answer) := handleBulkCreate M sha256 config s req env
    (next, .bulk answer)
  | .update id req =>
    let (next, response) := handleUpdate M sha256 config.toHandlerConfig s id req (env 0)
    (next, .single response)
  | .delete id req =>
    let (next, response) := handleDelete M sha256 config.toHandlerConfig s id req (env 0)
    (next, .single response)

/-! ### Single writes -/

section Single

variable (config : HandlerConfig)

/-- The consensus, if there is one, accepts the proposal. -/
def Proposed (env : Environment) : Prop :=
  config.consensus = true → env.proposal = .ok ()

/-- A create or an update gets as far as storing the item. -/
def Accepted (req : WriteRequest) (env : Environment) (item : T) : Prop :=
  prepare M config req = .ok item ∧ Proposed config env

/-- The item goes to the log, and the handler is told so. -/
def Persisted (item : T) (env : Environment) : Prop :=
  (M.toText item).isSome ∧ env.append = .written

/-- Storing the item under the key and logging it is without effect. -/
def AlreadyThere (s : HandlerState T) (key : String) (item : T) (env : Environment) : Prop :=
  s.storage.lookup key = some item ∧ ¬ Logged M item env

variable {M sha256 config} {s : HandlerState T} {req : WriteRequest} {env : Environment}
  {id key operation : String} {item : T} {response : Response T}

theorem propose_of_proposed (h : Proposed config env) :
    propose config env = (.ok () : Except (Response T) Unit) := by
  unfold propose
  split_ifs with hconsensus
  · rw [h hconsensus]
  · rfl

theorem exists_propose_error (h : ¬ Proposed config env) :
    ∃ response : Response T, propose config env = .error response := by
  obtain ⟨hconsensus, hproposal⟩ := Classical.not_imp.mp h
  unfold propose
  rw [if_pos hconsensus]
  cases hcase : env.proposal with
  | ok => exact absurd hcase hproposal
  | error message => exact ⟨_, rfl⟩

theorem persist_snd_iff {store : EventStore} :
    (persistToEventStore M sha256 store operation item env).2 = true ↔ Persisted M item env := by
  unfold persistToEventStore Persisted
  cases M.toText item with
  | none => simp
  | some payload => cases env.append <;> simp [EventStore.appendEnvelope]

theorem Persisted.logged (h : Persisted M item env) : Logged M item env :=
  ⟨h.1, by rw [h.2]; decide⟩

theorem events_persist {store : EventStore} (h : Logged M item env) :
    ∃ event, (persistToEventStore M sha256 store operation item env).1.events =
      store.events ++ [event] := by
  obtain ⟨event, -, hevents⟩ := exists_event_of_logged M sha256 h
  exact ⟨event, hevents⟩

/-- A log stays as it is exactly when the operation is not logged. -/
theorem persist_fst_eq_self_iff {store : EventStore} :
    (persistToEventStore M sha256 store operation item env).1 = store ↔ ¬ Logged M item env := by
  constructor
  · intro heq hlogged
    obtain ⟨event, hevents⟩ : ∃ event,
        (persistToEventStore M sha256 store operation item env).1.events =
          store.events ++ [event] := events_persist hlogged
    rw [heq] at hevents
    exact List.cons_ne_nil event [] (List.self_eq_append_right.mp hevents)
  · intro hlogged
    rw [persist_of_not_logged M sha256 hlogged]

theorem persistAndAnswer_isSuccess_iff (hresponse : response.isSuccess = true) :
    (persistAndAnswer M sha256 s operation item env response).2.isSuccess = true ↔
      Persisted M item env := by
  have hpersist : (persistToEventStore M sha256 s.store operation item env).2 = true ↔
      Persisted M item env := persist_snd_iff
  rw [← hpersist]
  unfold persistAndAnswer
  dsimp only
  split_ifs with hok
  · exact iff_of_true hresponse hok
  · exact iff_of_false Bool.false_ne_true hok

theorem store_persistAndAnswer {storage : Storage T} :
    (persistAndAnswer M sha256 { s with storage } operation item env response).1 =
      ⟨storage, (persistToEventStore M sha256 s.store operation item env).1⟩ := rfl

theorem persistAndAnswer_insert_eq_self_iff :
    (persistAndAnswer M sha256 { s with storage := s.storage.insert key item } operation item env
      response).1 = s ↔ AlreadyThere M s key item env := by
  rw [store_persistAndAnswer, HandlerState.mk.injEq, persist_fst_eq_self_iff]
  exact and_congr (eq_comm.trans eq_insert_iff) Iff.rfl

/-! #### Create -/

theorem handleCreate_of_accepted (h : Accepted M config req env item) :
    handleCreate M sha256 config s req env =
      persistAndAnswer M sha256
        { s with storage := s.storage.insert (createKey M config item) item } "Created" item env
        (.created item) := by
  simp only [handleCreate, h.1, propose_of_proposed h.2]

/-- A request that is not accepted leaves the handler as it is. -/
theorem handleCreate_of_not_accepted (h : ∀ item, ¬ Accepted M config req env item) :
    (handleCreate M sha256 config s req env).1 = s ∧
      (handleCreate M sha256 config s req env).2.isSuccess = false := by
  unfold handleCreate
  cases hprepare : prepare M config req with
  | error response => exact ⟨rfl, prepare_error hprepare⟩
  | ok item =>
    obtain ⟨response, hresponse⟩ :=
      exists_propose_error (T := T) fun hproposed ↦ h item ⟨hprepare, hproposed⟩
    simp only [hresponse]
    exact ⟨trivial, propose_error hresponse⟩

theorem Accepted.unique {other : T} (h : Accepted M config req env item)
    (hother : Accepted M config req env other) : other = item :=
  Except.ok.inj (hother.1.symm.trans h.1)

theorem handleCreate_eq_self_iff :
    (handleCreate M sha256 config s req env).1 = s ↔
      ∀ item, Accepted M config req env item →
        AlreadyThere M s (createKey M config item) item env := by
  by_cases h : ∃ item, Accepted M config req env item
  · obtain ⟨item, hitem⟩ := h
    rw [handleCreate_of_accepted hitem, persistAndAnswer_insert_eq_self_iff]
    exact ⟨fun hthere other hother ↦ hitem.unique hother ▸ hthere, fun hall ↦ hall item hitem⟩
  · push Not at h
    exact iff_of_true (handleCreate_of_not_accepted h).1 fun item hitem ↦ absurd hitem (h item)

theorem handleCreate_isSuccess_iff :
    (handleCreate M sha256 config s req env).2.isSuccess = true ↔
      ∃ item, Accepted M config req env item ∧ Persisted M item env := by
  by_cases h : ∃ item, Accepted M config req env item
  · obtain ⟨item, hitem⟩ := h
    rw [handleCreate_of_accepted hitem, persistAndAnswer_isSuccess_iff rfl]
    refine ⟨fun hpersisted ↦ ⟨item, hitem, hpersisted⟩, ?_⟩
    rintro ⟨other, hother, hpersisted⟩
    exact hitem.unique hother ▸ hpersisted
  · push Not at h
    refine iff_of_false ?_ fun ⟨item, hitem, _⟩ ↦ h item hitem
    rw [(handleCreate_of_not_accepted h).2]
    exact Bool.false_ne_true

/-! #### Update -/

theorem handleUpdate_of_accepted (h : Accepted M config req env item) (hid : id ∈ s.storage) :
    handleUpdate M sha256 config s id req env =
      persistAndAnswer M sha256 { s with storage := s.storage.insert id item } "Updated" item env
        (.updated item) := by
  simp only [handleUpdate, h.1, propose_of_proposed h.2, if_pos hid]

/-- An update that is not accepted, or of an item that is not there, leaves the handler as it is. -/
theorem handleUpdate_of_not_accepted
    (h : ∀ item, Accepted M config req env item → id ∉ s.storage) :
    (handleUpdate M sha256 config s id req env).1 = s ∧
      (handleUpdate M sha256 config s id req env).2.isSuccess = false := by
  unfold handleUpdate
  cases hprepare : prepare M config req with
  | error response => exact ⟨rfl, prepare_error hprepare⟩
  | ok item =>
    by_cases hproposed : Proposed config env
    · simp only [propose_of_proposed hproposed, if_neg (h item ⟨hprepare, hproposed⟩)]
      exact ⟨trivial, rfl⟩
    · obtain ⟨response, hresponse⟩ := exists_propose_error (T := T) hproposed
      simp only [hresponse]
      exact ⟨trivial, propose_error hresponse⟩

theorem handleUpdate_eq_self_iff :
    (handleUpdate M sha256 config s id req env).1 = s ↔
      ∀ item, Accepted M config req env item → id ∈ s.storage → AlreadyThere M s id item env := by
  by_cases h : ∃ item, Accepted M config req env item ∧ id ∈ s.storage
  · obtain ⟨item, hitem, hid⟩ := h
    rw [handleUpdate_of_accepted hitem hid, persistAndAnswer_insert_eq_self_iff]
    exact ⟨fun hthere other hother _ ↦ hitem.unique hother ▸ hthere, fun hall ↦ hall item hitem hid⟩
  · push Not at h
    exact iff_of_true (handleUpdate_of_not_accepted h).1
      fun item hitem hid ↦ absurd hid (h item hitem)

theorem handleUpdate_isSuccess_iff :
    (handleUpdate M sha256 config s id req env).2.isSuccess = true ↔
      ∃ item, Accepted M config req env item ∧ id ∈ s.storage ∧ Persisted M item env := by
  by_cases h : ∃ item, Accepted M config req env item ∧ id ∈ s.storage
  · obtain ⟨item, hitem, hid⟩ := h
    rw [handleUpdate_of_accepted hitem hid, persistAndAnswer_isSuccess_iff rfl]
    refine ⟨fun hpersisted ↦ ⟨item, hitem, hid, hpersisted⟩, ?_⟩
    rintro ⟨other, hother, -, hpersisted⟩
    exact hitem.unique hother ▸ hpersisted
  · push Not at h
    refine iff_of_false ?_ fun ⟨item, hitem, hid, _⟩ ↦ h item hitem hid
    rw [(handleUpdate_of_not_accepted h).2]
    exact Bool.false_ne_true

/-! #### Delete -/

/-- A delete gets as far as taking the item out of the storage. -/
def Removes (M : HttpExposable T) (config : HandlerConfig) (s : HandlerState T) (id : String)
    (req : WriteRequest) (env : Environment) (item : T) : Prop :=
  s.storage.lookup id = some item ∧ authorize M config req item "Delete" = .ok () ∧
    Proposed config env

theorem handleDelete_of_removes (h : Removes M config s id req env item) :
    handleDelete M sha256 config s id req env =
      persistAndAnswer M sha256 { s with storage := s.storage.erase id } "Deleted" item env
        .noContent := by
  obtain ⟨hitem, hauthorize, hproposed⟩ := h
  simp only [handleDelete, authorizeDelete, hitem, hauthorize, propose_of_proposed hproposed]

/-- A delete that removes nothing leaves the handler as it is. -/
theorem handleDelete_of_not_removes (h : ∀ item, ¬ Removes M config s id req env item) :
    (handleDelete M sha256 config s id req env).1 = s ∧
      (handleDelete M sha256 config s id req env).2.isSuccess = false := by
  unfold handleDelete
  cases hauthorize : authorizeDelete M config s.storage id req with
  | error response => exact ⟨rfl, authorizeDelete_error hauthorize⟩
  | ok =>
    by_cases hproposed : Proposed config env
    · cases hitem : s.storage.lookup id with
      | none =>
        simp only [propose_of_proposed hproposed]
        exact ⟨trivial, rfl⟩
      | some item =>
        rw [authorizeDelete, hitem] at hauthorize
        exact absurd ⟨hitem, hauthorize, hproposed⟩ (h item)
    · obtain ⟨response, hresponse⟩ := exists_propose_error (T := T) hproposed
      simp only [hresponse]
      exact ⟨trivial, propose_error hresponse⟩

theorem handleDelete_eq_self_iff :
    (handleDelete M sha256 config s id req env).1 = s ↔
      ∀ item, ¬ Removes M config s id req env item := by
  refine ⟨fun heq item hremoves ↦ ?_, fun h ↦ (handleDelete_of_not_removes h).1⟩
  rw [handleDelete_of_removes hremoves, store_persistAndAnswer] at heq
  exact ne_erase hremoves.1 (congrArg HandlerState.storage heq).symm

theorem handleDelete_isSuccess_iff :
    (handleDelete M sha256 config s id req env).2.isSuccess = true ↔
      ∃ item, Removes M config s id req env item ∧ Persisted M item env := by
  by_cases h : ∃ item, Removes M config s id req env item
  · obtain ⟨item, hitem⟩ := h
    rw [handleDelete_of_removes hitem, persistAndAnswer_isSuccess_iff rfl]
    refine ⟨fun hpersisted ↦ ⟨item, hitem, hpersisted⟩, ?_⟩
    rintro ⟨other, hother, hpersisted⟩
    exact Option.some.inj (hother.1.symm.trans hitem.1) ▸ hpersisted
  · push Not at h
    refine iff_of_false ?_ fun ⟨item, hitem, _⟩ ↦ h item hitem
    rw [(handleDelete_of_not_removes h).2]
    exact Bool.false_ne_true

end Single

/-! ### Writes in bulk -/

section Bulk

variable {M sha256} {config : BulkConfig T} {s : HandlerState T} {req : WriteRequest} {item : T}

/-- An item of a list gets as far as being stored. -/
def ItemAccepted (M : HttpExposable T) (config : BulkConfig T) (item : T) (env : Environment)
    (stored : T) : Prop :=
  admitItem M item = .ok stored ∧ Proposed (itemConfig config) env

theorem ItemAccepted.unique {env : Environment} {stored other : T}
    (h : ItemAccepted M config item env stored) (hother : ItemAccepted M config item env other) :
    other = stored :=
  Except.ok.inj (hother.1.symm.trans h.1)

theorem createItem_of_accepted {env : Environment} {stored : T}
    (h : ItemAccepted M config item env stored) :
    createItem M sha256 config s item env =
      ({ storage := s.storage.insert (createKey M (itemConfig config) stored) stored
         store := (persistToEventStore M sha256 s.store "Created" stored env).1 },
        if (persistToEventStore M sha256 s.store "Created" stored env).2 then .ok stored
        else .error .internalError) := by
  simp only [createItem, h.1, propose_of_proposed h.2]

theorem createItem_of_not_accepted (sha256 : List UInt8 → String) (s : HandlerState T)
    {env : Environment} (h : ∀ stored, ¬ ItemAccepted M config item env stored) :
    ∃ response, createItem M sha256 config s item env = (s, .error response) := by
  unfold createItem
  cases hvalid : admitItem M item with
  | error response => exact ⟨response, rfl⟩
  | ok stored =>
    obtain ⟨response, hresponse⟩ :=
      exists_propose_error (T := T) fun hproposed ↦ h stored ⟨hvalid, hproposed⟩
    exact ⟨response, by simp only [hresponse]⟩

/-- An item is created when it is accepted and goes to the log. -/
theorem createItem_ok_iff {env : Environment} {stored : T} :
    (createItem M sha256 config s item env).2 = .ok stored ↔
      ItemAccepted M config item env stored ∧ Persisted M stored env := by
  by_cases h : ∃ stored, ItemAccepted M config item env stored
  · obtain ⟨admitted, hadmitted⟩ := h
    rw [createItem_of_accepted hadmitted]
    have hpersisted : (persistToEventStore M sha256 s.store "Created" admitted env).2 = true ↔
        Persisted M admitted env := persist_snd_iff
    dsimp only
    split_ifs with hok
    · constructor
      · rintro hstored
        obtain rfl := Except.ok.inj hstored
        exact ⟨hadmitted, hpersisted.mp hok⟩
      · rintro ⟨hstored, -⟩
        rw [hadmitted.unique hstored]
    · refine iff_of_false (by simp) ?_
      rintro ⟨hstored, hlogged⟩
      obtain rfl := hadmitted.unique hstored
      exact hok (hpersisted.mpr hlogged)
  · push Not at h
    obtain ⟨response, hresponse⟩ := createItem_of_not_accepted sha256 s h
    rw [hresponse]
    exact iff_of_false (by simp) fun ⟨hstored, _⟩ ↦ h stored hstored

/-- The events of the log stay, whatever is created. -/
theorem events_prefix_createItem {env : Environment} :
    s.store.events <+: (createItem M sha256 config s item env).1.store.events := by
  by_cases h : ∃ stored, ItemAccepted M config item env stored
  · obtain ⟨stored, hstored⟩ := h
    rw [createItem_of_accepted hstored]
    by_cases hlogged : Logged M stored env
    · obtain ⟨event, hevents⟩ : ∃ event,
          (persistToEventStore M sha256 s.store "Created" stored env).1.events =
            s.store.events ++ [event] := events_persist hlogged
      dsimp only
      rw [hevents]
      exact List.prefix_append _ _
    · rw [persist_of_not_logged M sha256 hlogged]
  · push Not at h
    obtain ⟨response, hresponse⟩ := createItem_of_not_accepted sha256 s h
    rw [hresponse]

theorem createItem_eq_self_iff {env : Environment} :
    (createItem M sha256 config s item env).1 = s ↔
      ∀ stored, ItemAccepted M config item env stored →
        AlreadyThere M s (createKey M (itemConfig config) stored) stored env := by
  by_cases h : ∃ stored, ItemAccepted M config item env stored
  · obtain ⟨stored, hstored⟩ := h
    rw [createItem_of_accepted hstored, HandlerState.mk.injEq, persist_fst_eq_self_iff,
      eq_comm, eq_insert_iff]
    exact ⟨fun hthere other hother ↦ hstored.unique hother ▸ hthere, fun hall ↦ hall stored hstored⟩
  · push Not at h
    obtain ⟨response, hresponse⟩ := createItem_of_not_accepted sha256 s h
    rw [hresponse]
    exact iff_of_true rfl fun stored hstored ↦ absurd hstored (h stored)

/-- An item that fails is the last one. -/
theorem createEach_cons_of_error {env : ℕ → Environment} {rest : List T} {response : Response T}
    (h : (createItem M sha256 config s item (env 0)).2 = .error response) :
    createEach M sha256 config s (item :: rest) env =
      ((createItem M sha256 config s item (env 0)).1, .error response) := by
  rw [createEach]
  generalize createItem M sha256 config s item (env 0) = result at h ⊢
  obtain ⟨next, outcome⟩ := result
  subst h
  rfl

/-- Behind an item that is created the others follow. -/
theorem createEach_cons_of_ok {env : ℕ → Environment} {rest : List T} {stored : T}
    (h : (createItem M sha256 config s item (env 0)).2 = .ok stored) :
    createEach M sha256 config s (item :: rest) env =
      let result := createEach M sha256 config (createItem M sha256 config s item (env 0)).1 rest
        fun n ↦ env (n + 1)
      (result.1, result.2.map fun created ↦ stored :: created) := by
  rw [createEach]
  generalize createItem M sha256 config s item (env 0) = result at h ⊢
  obtain ⟨next, outcome⟩ := result
  subst h
  dsimp only
  obtain ⟨last, outcome⟩ := createEach M sha256 config next rest fun n ↦ env (n + 1)
  cases outcome <;> rfl

theorem events_prefix_createEach {items : List T} {env : ℕ → Environment} :
    s.store.events <+: (createEach M sha256 config s items env).1.store.events := by
  induction items generalizing s env with
  | nil => exact List.prefix_rfl
  | cons item rest ih =>
    cases hitem : (createItem M sha256 config s item (env 0)).2 with
    | error response =>
      rw [createEach_cons_of_error hitem]
      exact events_prefix_createItem
    | ok stored =>
      rw [createEach_cons_of_ok hitem]
      exact events_prefix_createItem.trans ih

/-- A list changes nothing exactly when its first item does not, since an item that is created has
an event in the log. -/
theorem createEach_eq_self_iff {items : List T} {env : ℕ → Environment} :
    (createEach M sha256 config s items env).1 = s ↔
      ∀ first ∈ items.head?, ∀ stored, ItemAccepted M config first (env 0) stored →
        AlreadyThere M s (createKey M (itemConfig config) stored) stored (env 0) := by
  cases items with
  | nil => exact iff_of_true rfl fun first hfirst ↦ by simp at hfirst
  | cons item rest =>
    simp only [List.head?_cons, Option.mem_def, Option.some.injEq, forall_eq']
    cases hitem : (createItem M sha256 config s item (env 0)).2 with
    | error response =>
      rw [createEach_cons_of_error hitem, createItem_eq_self_iff]
    | ok stored =>
      obtain ⟨haccepted, hpersisted⟩ := createItem_ok_iff.mp hitem
      refine iff_of_false (fun heq ↦ ?_) fun hall ↦ (hall stored haccepted).2 hpersisted.logged
      obtain ⟨event, hevents⟩ : ∃ event,
          (persistToEventStore M sha256 s.store "Created" stored (env 0)).1.events =
            s.store.events ++ [event] := events_persist hpersisted.logged
      have hbegins : (createItem M sha256 config s item (env 0)).1.store.events <+:
          (createEach M sha256 config s (item :: rest) env).1.store.events := by
        rw [createEach_cons_of_ok hitem]
        exact events_prefix_createEach
      rw [heq, createItem_of_accepted haccepted] at hbegins
      dsimp only at hbegins
      rw [hevents] at hbegins
      have hlength := hbegins.length_le
      simp at hlength

/-- All items of a list are created when each of them is. -/
theorem createEach_ok_iff {items : List T} {env : ℕ → Environment} :
    (∃ created, (createEach M sha256 config s items env).2 = .ok created) ↔
      ∀ k item, items[k]? = some item →
        ∃ stored, ItemAccepted M config item (env k) stored ∧ Persisted M stored (env k) := by
  induction items generalizing s env with
  | nil => exact iff_of_true ⟨[], rfl⟩ fun k item hitem ↦ by simp at hitem
  | cons item rest ih =>
    cases hitem : (createItem M sha256 config s item (env 0)).2 with
    | error response =>
      rw [createEach_cons_of_error hitem]
      refine iff_of_false (by simp) fun hall ↦ ?_
      obtain ⟨stored, hstored⟩ := hall 0 item rfl
      rw [createItem_ok_iff.mpr hstored] at hitem
      exact absurd hitem (by simp)
    | ok stored =>
      rw [createEach_cons_of_ok hitem]
      have hrest : (∃ created, (createEach M sha256 config
          (createItem M sha256 config s item (env 0)).1 rest fun n ↦ env (n + 1)).2 = .ok created) ↔
          _ := ih
      constructor
      · rintro ⟨created, hcreated⟩ k other hother
        cases k with
        | zero =>
          obtain rfl := Option.some.inj hother
          exact ⟨stored, createItem_ok_iff.mp hitem⟩
        | succ k =>
          refine hrest.mp ?_ k other hother
          dsimp only at hcreated
          cases hresult : (createEach M sha256 config
              (createItem M sha256 config s item (env 0)).1 rest fun n ↦ env (n + 1)).2 with
          | error response => rw [hresult] at hcreated; exact absurd hcreated (by simp [Except.map])
          | ok created => exact ⟨created, rfl⟩
      · intro hall
        obtain ⟨created, hcreated⟩ := hrest.mpr fun k other hother ↦ hall (k + 1) other hother
        refine ⟨stored :: created, ?_⟩
        dsimp only
        rw [hcreated]
        rfl

theorem handleBulkCreate_eq_self_iff {env : ℕ → Environment} :
    (handleBulkCreate M sha256 config s req env).1 = s ↔
      ∀ items, parseItems config req = .ok items → ∀ first ∈ items.head?, ∀ stored,
        ItemAccepted M config first (env 0) stored →
          AlreadyThere M s (createKey M (itemConfig config) stored) stored (env 0) := by
  unfold handleBulkCreate
  cases parseItems config req with
  | error response => exact iff_of_true rfl fun items hitems ↦ absurd hitems (by simp)
  | ok items =>
    simp only [Except.ok.injEq, forall_eq']
    exact createEach_eq_self_iff

theorem handleBulkCreate_ok_iff {env : ℕ → Environment} :
    (∃ created, (handleBulkCreate M sha256 config s req env).2 = .ok created) ↔
      ∃ items, parseItems config req = .ok items ∧ ∀ k item, items[k]? = some item →
        ∃ stored, ItemAccepted M config item (env k) stored ∧ Persisted M stored (env k) := by
  unfold handleBulkCreate
  cases parseItems config req with
  | error response => simp
  | ok items =>
    simp only [Except.ok.injEq, exists_eq_left']
    exact createEach_ok_iff

end Bulk

end Declarative

end Lithair.Http
