import Lithair.App.ModelHandler

/-!
# The endpoints for replicated writes

The four endpoints under `/internal/` of `app/mod.rs`, to which a leader may send writes outside the
consensus log. Each reads a message, picks a model, and hands it one write; what differs is where
the parts of the write stand in the message. `storages_applyReplicatedWrite_iff` says when such a
write leaves the storages as they are.
-/

namespace Lithair.App

open Lithair.Http Lithair.Lib Lithair.Lib.KeyedMap

/-- A write that a model is handed. -/
inductive ReplicatedWrite
  | item (itemJson : Json)
  | items (itemsJson : List Json)
  | update (id : String) (itemJson : Json)
  | delete (id : String)
  deriving DecidableEq

/-- What a message asks for, or the status with which it is refused. -/
abbrev ReplicatedMessage (models : List ModelRegistration) :=
  Except ℕ (Fin models.length × ReplicatedWrite)

variable {models : List ModelRegistration}

/-! ### Reading a message -/

/-- The string under a field of a message. -/
def stringField (message : Json) (field : String) : Option String :=
  (message.get field).bind Json.asStr

/-- The model with this base path, with or without `/api/` in front. -/
def modelByBasePath (models : List ModelRegistration) (path : String) :
    Option (Fin models.length) :=
  models.findFinIdx? fun model ↦ model.basePath == path || model.basePath == "/api/" ++ path

def firstModel (models : List ModelRegistration) : Option (Fin models.length) :=
  models.findFinIdx? fun _ ↦ true

/-- The model of a message: by its base path, else the first one. -/
def modelOfMessage (models : List ModelRegistration) (message : Json) :
    Option (Fin models.length) :=
  match stringField message "base_path" with
  | some path => modelByBasePath models path
  | none => firstModel models

/-- The model that is named so, or whose base path has the name in it. -/
def modelByType (name : Fin models.length → String) (modelType : String) :
    Option (Fin models.length) :=
  (List.finRange models.length).find? fun i ↦
    name i == modelType || decide (modelType.toList <:+: (models.get i).basePath.toList)

/-- The write in the field `operation`, in the shape of an enumeration. -/
def operationWrite (operation : Json) : Option ReplicatedWrite :=
  match operation.get "Create" with
  | some create => some (.item ((create.get "item").getD .null))
  | none =>
    match operation.get "Update" with
    | some update =>
      some (.update ((stringField update "primary_key").getD "") ((update.get "item").getD .null))
    | none =>
      match operation.get "Delete" with
      | some delete => some (.delete ((stringField delete "primary_key").getD ""))
      | none => none

/-- `/internal/replicate`: the write under `operation`, else the item under `data`. -/
def internalReplicate (name : Fin models.length → String) (message : Json) :
    ReplicatedMessage models :=
  let model := match stringField message "base_path" with
    | some path => modelByBasePath models path
    | none =>
      match stringField message "model_type" with
      | some modelType => modelByType name modelType
      | none => firstModel models
  match model with
  | none => .error 404
  | some i =>
    match (message.get "operation").bind operationWrite with
    | some write => .ok (i, write)
    | none =>
      match message.get "data" with
      | none => .error 400
      | some data => .ok (i, .item data)

/-- `/internal/replicate_bulk`: the list under `items`. -/
def internalReplicateBulk (message : Json) : ReplicatedMessage models :=
  match message.get "items" with
  | some (.array items) =>
    match modelOfMessage models message with
    | none => .error 404
    | some i => .ok (i, .items items)
  | _ => .error 400

/-- `/internal/replicate_update`: the item under `data` for the id under `id`. -/
def internalReplicateUpdate (message : Json) : ReplicatedMessage models :=
  match stringField message "id", message.get "data" with
  | some id, some data =>
    match modelOfMessage models message with
    | none => .error 404
    | some i => .ok (i, .update id data)
  | _, _ => .error 400

/-- `/internal/replicate_delete`: the id under `id`. -/
def internalReplicateDelete (message : Json) : ReplicatedMessage models :=
  match stringField message "id" with
  | none => .error 400
  | some id =>
    match modelOfMessage models message with
    | none => .error 404
    | some i => .ok (i, .delete id)

/-! ### The write -/

section Write

variable (sha256 : List UInt8 → String)

/-- Hand a write to the handler of a model. -/
def ReplicatedWrite.apply {T : Type} (M : HttpExposable T) (s : HandlerState T)
    (env : ℕ → Environment) : ReplicatedWrite → Except String (HandlerState T)
  | .item itemJson => ModelHandler.applyReplicatedItemJson M sha256 s itemJson (env 0)
  | .items itemsJson => ModelHandler.applyReplicatedItemsJson M sha256 s itemsJson env
  | .update id itemJson => ModelHandler.applyReplicatedUpdateJson M sha256 s id itemJson (env 0)
  | .delete id => ModelHandler.applyReplicatedDeleteJson M sha256 s id (env 0)

/-- The models after a message, and the status of the answer. -/
def applyReplicatedMessage (states : ModelStates models) (message : ReplicatedMessage models)
    (env : ℕ → Environment) : ModelStates models × ℕ :=
  match message with
  | .error status => (states, status)
  | .ok (i, write) =>
    match write.apply sha256 (models.get i).model (states i) env with
    | .error _ => (states, 500)
    | .ok state => (Function.update states i state, 200)

end Write

/-- The storage has already what the write would put there. -/
def ReplicatedWrite.IsIdle {T : Type} (M : HttpExposable T) (storage : Storage T) :
    ReplicatedWrite → Prop
  | .item itemJson =>
    ∀ item, M.fromValue itemJson = .ok item → storage.lookup (M.actualKey item) = some item
  | .items itemsJson =>
    ∀ items, ModelHandler.fromValues M itemsJson = .ok items → Holds M.actualKey items storage
  | .update id itemJson =>
    ∀ item, M.fromValue itemJson = .ok item →
      storage.lookup (if id ∈ storage then id else M.actualKey item) = some item
  | .delete id => id ∉ storage

/-- No model's storage differs. -/
def SameStorages (states next : ModelStates models) : Prop :=
  ∀ i, (next i).storage = (states i).storage

theorem sameStorages_refl (states : ModelStates models) : SameStorages states states :=
  fun _ ↦ rfl

/-- One model taking its next state changes no storage exactly when it does not change its own. -/
theorem sameStorages_update_iff {states : ModelStates models} {i : Fin models.length}
    {state : HandlerState (models.get i).Item} :
    SameStorages states (Function.update states i state) ↔
      state.storage = (states i).storage := by
  constructor
  · intro h
    have hi : (Function.update states i state i).storage = (states i).storage := h i
    rw [Function.update_self] at hi
    exact hi
  · intro h j
    by_cases hij : j = i
    · subst hij
      rw [Function.update_self, h]
    · rw [Function.update_of_ne hij]

section Idle

variable {sha256 : List UInt8 → String} {T : Type} {M : HttpExposable T} {s : HandlerState T}

theorem erase_eq_self_iff {storage : Storage T} {id : String} :
    storage.erase id = storage ↔ id ∉ storage := by
  constructor
  · intro h hid
    obtain ⟨item, hitem⟩ := Option.isSome_iff_exists.mp (Finmap.lookup_isSome.mpr hid)
    exact ne_erase hitem h.symm
  · intro hid
    refine Finmap.ext_lookup fun key ↦ ?_
    by_cases hkey : key = id
    · rw [hkey, Finmap.lookup_erase, Finmap.lookup_eq_none.mpr hid]
    · rw [Finmap.lookup_erase_ne hkey]

/-- A write changes the storage unless the model refuses it or the storage has it already. -/
theorem storage_apply_iff {write : ReplicatedWrite} {env : ℕ → Environment} :
    (∀ state, write.apply sha256 M s env = .ok state → state.storage = s.storage) ↔
      write.IsIdle M s.storage := by
  cases write with
  | item itemJson =>
    unfold ReplicatedWrite.apply ReplicatedWrite.IsIdle ModelHandler.applyReplicatedItemJson
    cases hitem : M.fromValue itemJson with
    | error message => simp [hitem]
    | ok item =>
      simp only [hitem, Except.ok.injEq, forall_eq']
      exact eq_comm.trans eq_insert_iff
  | items itemsJson =>
    unfold ReplicatedWrite.apply ReplicatedWrite.IsIdle ModelHandler.applyReplicatedItemsJson
    cases hitems : ModelHandler.fromValues M itemsJson with
    | error message => simp [hitems]
    | ok items =>
      simp only [hitems, Except.ok.injEq, forall_eq', Declarative.storage_applyReplicatedItems]
      exact insertAll_eq_self_iff
  | update id itemJson =>
    unfold ReplicatedWrite.apply ReplicatedWrite.IsIdle ModelHandler.applyReplicatedUpdateJson
    cases hitem : M.fromValue itemJson with
    | error message => simp [hitem]
    | ok item =>
      simp only [hitem, Except.ok.injEq, forall_eq', storage_applyReplicatedUpdate]
      exact eq_comm.trans eq_insert_iff
  | delete id =>
    unfold ReplicatedWrite.apply ReplicatedWrite.IsIdle ModelHandler.applyReplicatedDeleteJson
    simp only [Except.ok.injEq, forall_eq', storage_applyReplicatedDelete]
    exact erase_eq_self_iff

end Idle

/-- A message changes no storage exactly when it asks for no write, or for one that is idle. -/
theorem storages_applyReplicatedMessage_iff {sha256 : List UInt8 → String}
    {states : ModelStates models} {message : ReplicatedMessage models} {env : ℕ → Environment} :
    SameStorages states (applyReplicatedMessage sha256 states message env).1 ↔
      ∀ i write, message = .ok (i, write) →
        write.IsIdle (models.get i).model (states i).storage := by
  cases message with
  | error status => exact iff_of_true (sameStorages_refl states) fun _ _ h ↦ absurd h (by simp)
  | ok target =>
    obtain ⟨i, write⟩ := target
    have hidle : (∀ j other, (Except.ok (i, write) : ReplicatedMessage models) = .ok (j, other) →
        other.IsIdle (models.get j).model (states j).storage) ↔
        write.IsIdle (models.get i).model (states i).storage := by
      constructor
      · exact fun h ↦ h i write rfl
      · intro h j other hother
        obtain ⟨rfl, rfl⟩ := Prod.mk.inj (Except.ok.inj hother)
        exact h
    have hstorage : (∀ state, write.apply sha256 (models.get i).model (states i) env = .ok state →
        state.storage = (states i).storage) ↔ _ := storage_apply_iff
    rw [hidle, ← hstorage]
    unfold applyReplicatedMessage
    dsimp only
    cases write.apply sha256 (models.get i).model (states i) env with
    | error message => exact iff_of_true (sameStorages_refl states) fun _ h ↦ absurd h (by simp)
    | ok state =>
      simp only [Except.ok.injEq, forall_eq']
      exact sameStorages_update_iff

end Lithair.App
