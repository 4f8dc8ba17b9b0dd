import Lithair.Cluster.CrudOperation
import Lithair.Http.Declarative

/-!
# Models and their handlers

The type-erased face that `app/model_handler.rs` gives a model, in which items come and go as JSON
values, and `apply_crud_operation` of `app/mod.rs`, which sends an operation of the consensus log to
the first registered model whose base path begins the path of the operation. All nodes of a cluster
register the same models, so a node is a state for each of them (`ModelStates`).

The steps of a migration go to the migration manager and do not touch a model's storage; they have
no result here. `storage_applyCrudOperation` says what an operation that is applied makes of the
storages: its effect on the one of its model (`storageEffect`), and nothing else.
-/

namespace Lithair.App

open Lithair.Cluster Lithair.Http Lithair.Lib

/-- A registered model. -/
structure ModelRegistration where
  basePath : String
  Item : Type
  model : HttpExposable Item

/-- The registration of the shelves as the only model. -/
def shelves : List ModelRegistration := [⟨"/api/shelves", Shelf, Shelf.exposed⟩]

/-! ### The handler of one model -/

namespace ModelHandler

variable {T : Type} (M : HttpExposable T) (sha256 : List UInt8 → String)

/-- The value of an item with the given primary key, in the order of the map's keys. -/
def getItemJson (s : HandlerState T) (order : List String) (id : String) : Option Json :=
  ((Declarative.getAllItems s order).find? fun item ↦ M.getPrimaryKey item = id).bind M.toValue

/-- All items as values, or nothing when one of them has no value. -/
def getAllDataJson (s : HandlerState T) (order : List String) : List Json :=
  ((Declarative.getAllItems s order).mapM M.toValue).getD []

def applyReplicatedItemJson (s : HandlerState T) (itemJson : Json) (env : Environment) :
    Except String (HandlerState T) :=
  match M.fromValue itemJson with
  | .error message => .error ("Failed to deserialize replicated item: " ++ message)
  | .ok item => .ok (Declarative.applyReplicatedItem M sha256 s item env)

/-- Deserialise the items of a list, or fail at the first that is not one. -/
def fromValues : List Json → Except String (List T)
  | [] => .ok []
  | itemJson :: rest =>
    match M.fromValue itemJson with
    | .error message => .error message
    | .ok item => (fromValues rest).map fun items ↦ item :: items

/-- Apply a list of items; none is applied unless all of them deserialise. -/
def applyReplicatedItemsJson (s : HandlerState T) (itemsJson : List Json)
    (env : ℕ → Environment) : Except String (HandlerState T) :=
  match fromValues M itemsJson with
  | .error message => .error ("Failed to deserialize replicated items: " ++ message)
  | .ok items => .ok (Declarative.applyReplicatedItems M sha256 s items env)

def applyReplicatedUpdateJson (s : HandlerState T) (id : String) (itemJson : Json)
    (env : Environment) : Except String (HandlerState T) :=
  match M.fromValue itemJson with
  | .error message => .error ("Failed to deserialize replicated update: " ++ message)
  | .ok item => .ok (Declarative.applyReplicatedUpdate M sha256 s id item env)

/-- A delete succeeds whether or not there is such an item. -/
def applyReplicatedDeleteJson (s : HandlerState T) (id : String) (env : Environment) :
    Except String (HandlerState T) :=
  .ok (Declarative.applyReplicatedDelete M sha256 s id env).1

end ModelHandler

/-! ### The models of a node -/

/-- The path begins with the given text. -/
def startsWith (path start : String) : Bool := start.toList.isPrefixOf path.toList

/-- The first model whose base path begins the path. -/
def resolve (models : List ModelRegistration) (path : String) : Option (Fin models.length) :=
  models.findFinIdx? fun model ↦ startsWith path model.basePath

/-- The states of the models on a node. -/
abbrev ModelStates (models : List ModelRegistration) :=
  (i : Fin models.length) → HandlerState (models.get i).Item

/-- No shelf on any node. -/
def noShelves : ModelStates shelves := fun _ ↦ Declarative.emptyHandler true

variable {models : List ModelRegistration} (sha256 : List UInt8 → String)

/-- Let the model that a path belongs to take its next state. -/
def onModel (states : ModelStates models) (modelPath : String)
    (apply : (i : Fin models.length) → Except String (HandlerState (models.get i).Item)) :
    Except String (ModelStates models) :=
  match resolve models modelPath with
  | none => .error ("Model not found for path: " ++ modelPath)
  | some i => (apply i).map fun state ↦ Function.update states i state

/-- Apply an operation of the consensus log. -/
def applyCrudOperation (states : ModelStates models) (operation : CrudOperation)
    (env : Environment) : Option (Except String (ModelStates models)) :=
  match operation with
  | .create modelPath data =>
    some (onModel states modelPath fun i ↦
      ModelHandler.applyReplicatedItemJson (models.get i).model sha256 (states i) data env)
  | .update modelPath id data =>
    some (onModel states modelPath fun i ↦
      ModelHandler.applyReplicatedUpdateJson (models.get i).model sha256 (states i) id data env)
  | .delete modelPath id =>
    some (onModel states modelPath fun i ↦
      ModelHandler.applyReplicatedDeleteJson (models.get i).model sha256 (states i) id env)
  | .migrationBegin .. | .migrationStep .. | .migrationCommit .. | .migrationRollback .. => none

/-! ### Which model an operation goes to -/

theorem startsWith_iff {path start : String} :
    startsWith path start = true ↔ start.toList <+: path.toList :=
  List.isPrefixOf_iff_prefix

theorem resolve_eq_some_iff {path : String} {i : Fin models.length} :
    resolve models path = some i ↔
      startsWith path (models.get i).basePath = true ∧
        ∀ j < i, startsWith path (models.get j).basePath = false := by
  unfold resolve
  rw [List.findFinIdx?_eq_some_iff]
  simp

/-- The base path of the model that a path belongs to belongs to that model. -/
theorem resolve_basePath {path : String} {i : Fin models.length}
    (h : resolve models path = some i) :
    resolve models (models.get i).basePath = some i := by
  rw [resolve_eq_some_iff] at h ⊢
  obtain ⟨hstarts, hfirst⟩ := h
  refine ⟨startsWith_iff.mpr List.prefix_rfl, fun j hj ↦ ?_⟩
  rw [Bool.eq_false_iff]
  intro hbase
  have hpath : startsWith path (models.get j).basePath = true :=
    startsWith_iff.mpr ((startsWith_iff.mp hbase).trans (startsWith_iff.mp hstarts))
  rw [hfirst j hj] at hpath
  exact Bool.noConfusion hpath

/-! ### What an operation does to the storages -/

/-- The model that an operation changes. -/
def targetModel (models : List ModelRegistration) : CrudOperation → Option (Fin models.length)
  | .create modelPath _ | .update modelPath _ _ | .delete modelPath _ => resolve models modelPath
  | .migrationBegin .. | .migrationStep .. | .migrationCommit .. | .migrationRollback .. => none

/-- What an operation makes of the storage of its model. -/
def storageEffect {T : Type} (M : HttpExposable T) (storage : Storage T) :
    CrudOperation → Storage T
  | .create _ data =>
    match M.fromValue data with
    | .ok item => storage.insert (M.actualKey item) item
    | .error _ => storage
  | .update _ id data =>
    match M.fromValue data with
    | .ok item => storage.insert (if id ∈ storage then id else M.actualKey item) item
    | .error _ => storage
  | .delete _ id => storage.erase id
  | .migrationBegin .. | .migrationStep .. | .migrationCommit .. | .migrationRollback .. => storage

/-- What the operations of log entries, in this order, make of the storage of a model. -/
def effects (i : Fin models.length) (entries : List (LogEntry CrudOperation))
    (storage : Storage (models.get i).Item) : Storage (models.get i).Item :=
  (entries.filter fun e ↦ targetModel models e.operation = some i).foldl
    (fun storage e ↦ storageEffect (models.get i).model storage e.operation) storage

theorem effects_append (i : Fin models.length) (first second : List (LogEntry CrudOperation))
    (storage : Storage (models.get i).Item) :
    effects i (first ++ second) storage = effects i second (effects i first storage) := by
  unfold effects
  rw [List.filter_append, List.foldl_append]

theorem effects_singleton (i : Fin models.length) (entry : LogEntry CrudOperation)
    (storage : Storage (models.get i).Item) :
    effects i [entry] storage =
      if targetModel models entry.operation = some i then
        storageEffect (models.get i).model storage entry.operation
      else storage := by
  unfold effects
  split_ifs with h
  · rw [List.filter_cons_of_pos (by simpa using h)]
    rfl
  · rw [List.filter_cons_of_neg (by simpa using h)]
    rfl

/-- Deleting is erasing, also when there is nothing to erase. -/
theorem storage_applyReplicatedDelete {T : Type} (M : HttpExposable T) (s : HandlerState T)
    (id : String) (env : Environment) :
    (Declarative.applyReplicatedDelete M sha256 s id env).1.storage = s.storage.erase id := by
  unfold Declarative.applyReplicatedDelete
  cases hitem : s.storage.lookup id with
  | some item => rfl
  | none =>
    refine Finmap.ext_lookup fun key ↦ ?_
    by_cases hkey : key = id
    · rw [hkey, Finmap.lookup_erase]
      exact hitem
    · rw [Finmap.lookup_erase_ne hkey]

theorem storage_applyReplicatedUpdate {T : Type} (M : HttpExposable T) (s : HandlerState T)
    (id : String) (item : T) (env : Environment) :
    (Declarative.applyReplicatedUpdate M sha256 s id item env).storage =
      s.storage.insert (if id ∈ s.storage then id else M.actualKey item) item := by
  unfold Declarative.applyReplicatedUpdate
  split_ifs
  · rfl
  · rfl

variable {sha256}

theorem storage_applyReplicatedItemJson {T : Type} {M : HttpExposable T} {s state : HandlerState T}
    {data : Json} {env : Environment}
    (h : ModelHandler.applyReplicatedItemJson M sha256 s data env = .ok state)
    (modelPath : String) :
    state.storage = storageEffect M s.storage (.create modelPath data) := by
  cases hitem : M.fromValue data with
  | error message => simp [ModelHandler.applyReplicatedItemJson, hitem] at h
  | ok item =>
    simp only [ModelHandler.applyReplicatedItemJson, hitem, Except.ok.injEq] at h
    simp only [storageEffect, hitem, ← h]
    rfl

theorem storage_applyReplicatedUpdateJson {T : Type} {M : HttpExposable T}
    {s state : HandlerState T} {id : String} {data : Json} {env : Environment}
    (h : ModelHandler.applyReplicatedUpdateJson M sha256 s id data env = .ok state)
    (modelPath : String) :
    state.storage = storageEffect M s.storage (.update modelPath id data) := by
  cases hitem : M.fromValue data with
  | error message => simp [ModelHandler.applyReplicatedUpdateJson, hitem] at h
  | ok item =>
    simp only [ModelHandler.applyReplicatedUpdateJson, hitem, Except.ok.injEq] at h
    simp only [storageEffect, hitem, ← h]
    exact storage_applyReplicatedUpdate sha256 M s id item env

theorem onModel_eq_ok {states next : ModelStates models} {modelPath : String}
    {apply : (i : Fin models.length) → Except String (HandlerState (models.get i).Item)}
    (h : onModel states modelPath apply = .ok next) :
    ∃ i state, resolve models modelPath = some i ∧ apply i = .ok state ∧
      next = Function.update states i state := by
  unfold onModel at h
  cases hi : resolve models modelPath with
  | none => simp [hi] at h
  | some i =>
    simp only [hi] at h
    cases hstate : apply i with
    | error message => simp [hstate, Except.map] at h
    | ok state =>
      simp only [hstate, Except.map, Except.ok.injEq] at h
      exact ⟨i, state, rfl, hstate, h.symm⟩

/-- An operation that is applied has its effect on the storage of its model and on no other. -/
theorem storage_applyCrudOperation {states next : ModelStates models} {operation : CrudOperation}
    {env : Environment} (h : applyCrudOperation sha256 states operation env = some (.ok next))
    (j : Fin models.length) :
    (next j).storage =
      if targetModel models operation = some j then
        storageEffect (models.get j).model (states j).storage operation
      else (states j).storage := by
  have hupdate : ∀ {i : Fin models.length} {state : HandlerState (models.get i).Item},
      targetModel models operation = some i →
      state.storage = storageEffect (models.get i).model (states i).storage operation →
      next = Function.update states i state →
      (next j).storage = if targetModel models operation = some j then
        storageEffect (models.get j).model (states j).storage operation
      else (states j).storage := by
    rintro i state htarget hstate rfl
    by_cases hij : i = j
    · subst hij
      rw [Function.update_self, if_pos htarget, hstate]
    · rw [Function.update_of_ne (Ne.symm hij), if_neg]
      rw [htarget, Option.some.injEq]
      exact hij
  cases operation with
  | create modelPath data =>
    obtain ⟨i, state, hi, hstate, hnext⟩ := onModel_eq_ok (Option.some.inj h)
    exact hupdate hi (storage_applyReplicatedItemJson hstate modelPath) hnext
  | update modelPath id data =>
    obtain ⟨i, state, hi, hstate, hnext⟩ := onModel_eq_ok (Option.some.inj h)
    exact hupdate hi (storage_applyReplicatedUpdateJson hstate modelPath) hnext
  | delete modelPath id =>
    obtain ⟨i, state, hi, hstate, hnext⟩ := onModel_eq_ok (Option.some.inj h)
    refine hupdate hi ?_ hnext
    rw [← Except.ok.inj hstate]
    exact storage_applyReplicatedDelete sha256 _ _ _ _
  | migrationBegin | migrationStep | migrationCommit | migrationRollback =>
    simp [applyCrudOperation] at h

end Lithair.App
