import Lithair.Http.Replay

/-!
# The writes that a handler accepts

`handle_bulk_create` of `http/declarative.rs`, beside the create, update and delete of
`Http.Declarative`, and for each of the four the requests that are answered with success when the
consensus and the event log give no trouble (`handleCreate_accepts_iff`, `handleUpdate_accepts_iff`,
`handleDelete_accepts_iff`, `handleBulkCreate_accepts_iff`).
-/

namespace Lithair.Http

open Lithair.Engine Lithair.Lib

/-- What a handler has for creates in bulk: the limit on the body, the switch that leaves out the
consensus, and the reader of a list of items. -/
structure BulkConfig (T : Type*) extends HandlerConfig where
  maxBodyBytesBulk : ℕ
  disableConsensus : Bool
  listFromSlice : List UInt8 → Option (List T)

namespace Declarative

variable {T : Type*} (M : HttpExposable T) (sha256 : List UInt8 → String)

/-! ### Creating in bulk -/

section Bulk

variable (config : BulkConfig T)

/-- The items in the body of a request. -/
def parseItems (req : WriteRequest) : Except (Response T) (List T) :=
  if req.jsonContentType = false then .error .unsupportedMediaType
  else if config.maxBodyBytesBulk < req.contentLength.getD 0 then
    .error (.entityTooLarge config.maxBodyBytesBulk)
  else
    match req.body with
    | none => .error (.badRequest "Invalid body")
    | some bytes =>
      if config.maxBodyBytesBulk < bytes.length then
        .error (.entityTooLarge config.maxBodyBytesBulk)
      else
        match config.listFromSlice bytes with
        | none => .error (.badRequest "Invalid JSON array")
        | some items => .ok items

/-- An item validated, and with the lifecycle rules applied. -/
def admitItem (item : T) : Except (Response T) T :=
  match M.validate item with
  | .error message => .error (.badRequest message)
  | .ok () =>
    match M.applyLifecycle item with
    | .error message => .error (.badRequest message)
    | .ok item => .ok item

/-- The set-up for the items of a list, which go through the consensus unless that is disabled. -/
def itemConfig : HandlerConfig :=
  { config.toHandlerConfig with consensus := config.consensus && !config.disableConsensus }

/-- Create one item of a list. -/
def createItem (s : HandlerState T) (item : T) (env : Environment) :
    HandlerState T × Except (Response T) T :=
  match admitItem M item with
  | .error response => (s, .error response)
  | .ok item =>
    match propose (itemConfig config) env with
    | .error response => (s, .error response)
    | .ok () =>
      let (store, ok) := persistToEventStore M sha256 s.store "Created" item env
      ({ storage := s.storage.insert (createKey M (itemConfig config) item) item, store },
        if ok then .ok item else .error .internalError)

/-- Create the items of a list, each in the environment of its position, up to the first that
fails. -/
def createEach (s : HandlerState T) : List T → (ℕ → Environment) →
    HandlerState T × Except (Response T) (List T)
  | [], _ => (s, .ok [])
  | item :: rest, env =>
    match createItem M sha256 config s item (env 0) with
    | (s, .error response) => (s, .error response)
    | (s, .ok item) =>
      match createEach s rest fun n ↦ env (n + 1) with
      | (s, .error response) => (s, .error response)
      | (s, .ok created) => (s, .ok (item :: created))

/-- The answer is the list of the created items, or that of the item it stops at. -/
def handleBulkCreate (s : HandlerState T) (req : WriteRequest) (env : ℕ → Environment) :
    HandlerState T × Except (Response T) (List T) :=
  match parseItems config req with
  | .error response => (s, .error response)
  | .ok items => createEach M sha256 config s items env

end Bulk

/-! ### Success -/

/-- The item is valid, and the lifecycle rules make of it one that can be written down. -/
def Admissible (item : T) : Prop :=
  M.validate item = .ok () ∧
    ∃ stored, M.applyLifecycle item = .ok stored ∧ (M.toText stored).isSome

/-- The body of the request is an item that the caller may write and that is admissible. -/
def AcceptsItem (config : HandlerConfig) (req : WriteRequest) : Prop :=
  ∃ item, parseBody M config req = .ok item ∧ authorize M config req item "Write" = .ok () ∧
    Admissible M item

section Accepts

variable {M sha256} {config : HandlerConfig} {s : HandlerState T}

theorem admissible_iff {item : T} :
    Admissible M item ↔ ∃ stored, admitItem M item = .ok stored ∧ (M.toText stored).isSome := by
  unfold Admissible admitItem
  cases M.validate item with
  | error message => simp
  | ok =>
    cases M.applyLifecycle item with
    | error message => simp
    | ok stored => simp

/-- The preparation of an item ends with its admission. -/
theorem acceptsItem_iff {req : WriteRequest} :
    AcceptsItem M config req ↔
      ∃ stored, prepare M config req = .ok stored ∧ (M.toText stored).isSome := by
  unfold AcceptsItem prepare
  cases parseBody M config req with
  | error response => simp
  | ok item =>
    cases hauthorize : authorize M config req item "Write" with
    | error response => simp [hauthorize]
    | ok =>
      simp only [Except.ok.injEq, exists_eq_left', hauthorize, true_and]
      exact admissible_iff

theorem propose_quiet : propose config quietEnvironment = (.ok () : Except (Response T) Unit) := by
  unfold propose
  split_ifs
  · rfl
  · rfl

theorem persist_quiet (store : EventStore) (operation : String) (item : T) :
    (persistToEventStore M sha256 store operation item quietEnvironment).2 =
      (M.toText item).isSome := by
  unfold persistToEventStore
  cases M.toText item with
  | none => rfl
  | some payload => rfl

theorem persistAndAnswer_quiet {operation : String} {item : T} {response : Response T}
    (hresponse : response.isSuccess = true) :
    (persistAndAnswer M sha256 s operation item quietEnvironment response).2.isSuccess = true ↔
      (M.toText item).isSome := by
  have hpersist : (persistToEventStore M sha256 s.store operation item quietEnvironment).2 =
      (M.toText item).isSome := persist_quiet s.store operation item
  unfold persistAndAnswer
  dsimp only
  rw [hpersist]
  split_ifs with htext
  · exact iff_of_true hresponse htext
  · exact iff_of_false Bool.false_ne_true htext

theorem handleCreate_accepts_iff {req : WriteRequest} :
    (handleCreate M sha256 config s req quietEnvironment).2.isSuccess = true ↔
      AcceptsItem M config req := by
  rw [acceptsItem_iff]
  unfold handleCreate
  cases hprepare : prepare M config req with
  | error response => simp [prepare_error hprepare]
  | ok item =>
    simp only [propose_quiet, Except.ok.injEq, exists_eq_left']
    exact persistAndAnswer_quiet rfl

theorem handleUpdate_accepts_iff {id : String} {req : WriteRequest} :
    (handleUpdate M sha256 config s id req quietEnvironment).2.isSuccess = true ↔
      AcceptsItem M config req ∧ id ∈ s.storage := by
  rw [acceptsItem_iff]
  unfold handleUpdate
  cases hprepare : prepare M config req with
  | error response => simp [prepare_error hprepare]
  | ok item =>
    simp only [propose_quiet, Except.ok.injEq, exists_eq_left']
    by_cases hid : id ∈ s.storage
    · rw [if_pos hid, persistAndAnswer_quiet rfl]
      exact (and_iff_left hid).symm
    · rw [if_neg hid]
      exact iff_of_false Bool.false_ne_true fun h ↦ hid h.2

theorem handleDelete_accepts_iff {id : String} {req : WriteRequest} :
    (handleDelete M sha256 config s id req quietEnvironment).2.isSuccess = true ↔
      ∃ item, s.storage.lookup id = some item ∧ authorize M config req item "Delete" = .ok () ∧
        (M.toText item).isSome := by
  unfold handleDelete authorizeDelete
  cases hitem : s.storage.lookup id with
  | none => simp [propose_quiet, Response.isSuccess]
  | some item =>
    simp only [Option.some.injEq, exists_eq_left']
    cases hauthorize : authorize M config req item "Delete" with
    | error response => simp [authorize_error hauthorize]
    | ok =>
      simp only [propose_quiet, true_and]
      exact persistAndAnswer_quiet rfl

end Accepts

section AcceptsBulk

variable {M sha256} {config : BulkConfig T}

theorem createItem_accepts_iff {s : HandlerState T} {item : T} :
    (∃ stored, (createItem M sha256 config s item quietEnvironment).2 = .ok stored) ↔
      Admissible M item := by
  rw [admissible_iff]
  unfold createItem
  cases admitItem M item with
  | error response => simp
  | ok stored =>
    simp only [propose_quiet, persist_quiet, Except.ok.injEq, exists_eq_left']
    by_cases htext : (M.toText stored).isSome = true
    · simp [htext]
    · simp [htext]

theorem createEach_accepts_iff {s : HandlerState T} {items : List T} :
    (∃ created, (createEach M sha256 config s items fun _ ↦ quietEnvironment).2 = .ok created) ↔
      ∀ item ∈ items, Admissible M item := by
  induction items generalizing s with
  | nil => simp [createEach]
  | cons item rest ih =>
    have hitem : (∃ stored,
        (createItem M sha256 config s item quietEnvironment).2 = .ok stored) ↔
        Admissible M item := createItem_accepts_iff
    rw [List.forall_mem_cons, ← hitem]
    unfold createEach
    obtain ⟨next, outcome⟩ := createItem M sha256 config s item quietEnvironment
    cases outcome with
    | error response => simp
    | ok stored =>
      simp only [Except.ok.injEq, exists_eq', true_and]
      have hrest : (∃ created,
          (createEach M sha256 config next rest fun _ ↦ quietEnvironment).2 = .ok created) ↔
          ∀ item ∈ rest, Admissible M item := ih
      rw [← hrest]
      obtain ⟨last, outcome⟩ := createEach M sha256 config next rest fun _ ↦ quietEnvironment
      cases outcome with
      | error response => simp
      | ok created => simp

theorem handleBulkCreate_accepts_iff {s : HandlerState T} {req : WriteRequest} :
    (∃ created,
      (handleBulkCreate M sha256 config s req fun _ ↦ quietEnvironment).2 = .ok created) ↔
      ∃ items, parseItems config req = .ok items ∧ ∀ item ∈ items, Admissible M item := by
  unfold handleBulkCreate
  cases parseItems config req with
  | error response => simp
  | ok items =>
    simp only [Except.ok.injEq, exists_eq_left']
    exact createEach_accepts_iff

end AcceptsBulk

end Declarative

end Lithair.Http
