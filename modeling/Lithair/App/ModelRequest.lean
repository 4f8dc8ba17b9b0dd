import Lithair.App.ModelHandler

/-!
# Building the operation of a write

`handle_model_request` of `app/mod.rs` on the leader, from the request of a client to the operation
that is appended to the consensus log. The body is completed by index assignments, which panic on a
value that is neither an object nor `null`, and nothing looks at the item type before the operation
is in the log, where it stays: every node has to deserialise it when it is applied.

`safe_iff_acceptable` says for which requests this ends well on every node: the value to assign to
is an object or `null`, and the model accepts it once it is completed.
-/

namespace Lithair.App

open Lithair.Cluster Lithair.Http Lithair.Lib

/-! ### Requests -/

inductive Method
  | get | post | put | patch | delete | other (name : String)
  deriving DecidableEq

/-- A request as the leader reads it. The body is `none` when it is not JSON. -/
structure ModelRequest where
  method : Method
  path : String
  body : Option Json

/-- What the leader adds to a request: the time, a new identifier, and the order in which the map of
the model goes through its keys. -/
structure RequestEnvironment where
  now : String
  freshId : String
  order : List String

/-- The writes that go through the consensus log. -/
inductive WriteKind
  | create
  | bulkCreate
  | update (id : String)
  | delete (id : String)
  deriving DecidableEq

/-- The segments of the path behind the base path. -/
def segments (basePath path : String) : List String :=
  let rest := if startsWith path basePath then path.toList.drop basePath.toList.length else []
  (((rest.dropWhile (· == '/')).splitOn '/').filter (· ≠ [])).map String.ofList

def writeKind (method : Method) (segments : List String) : Option WriteKind :=
  match method, segments with
  | .post, [] => some .create
  | .post, first :: _ => if first = "_bulk" then some .bulkCreate else none
  | .put, id :: _ => some (.update id)
  | .patch, id :: _ => some (.update id)
  | .delete, id :: _ => some (.delete id)
  | _, _ => none

/-! ### The operation -/

/-- Assign a field that counts as missing. Without a result, the assignment panics. -/
def setMissing (missing : Option Json → Bool) (key : String) (v value : Json) : Option Json :=
  if missing (value.get key) then Json.setIndex key v value else some value

/-- An identifier is missing also when it is `null`. -/
def idMissing (id : Option Json) : Bool := id.isNone || id == some .null

/-- The data of a create, and of a bulk create, which is handled as one. -/
def createData (env : RequestEnvironment) (body : Json) : Option Json :=
  ((setMissing idMissing "id" (.string env.freshId) body).bind
    (setMissing Option.isNone "created_at" (.string env.now))).bind
      (setMissing Option.isNone "updated_at" (.string env.now))

/-- The fields of the second object over those of the first. -/
def overlay (fields delta : List (String × Json)) : List (String × Json) :=
  delta.foldl (fun merged field ↦ Json.insertField field.1 field.2 merged) fields

/-- The body merged into the item that is there. -/
def mergedBody (existing : Option Json) (body : Json) : Json :=
  match existing with
  | none => body
  | some existingJson =>
    match existingJson.asObject, body.asObject with
    | some fields, some delta => .object (overlay fields delta)
    | _, _ => existingJson

/-- The data of an update. -/
def updateData (env : RequestEnvironment) (existing : Option Json) (body : Json) : Option Json :=
  Json.setIndex "updated_at" (.string env.now) (mergedBody existing body)

/-- The operation of a write, unless building it panics. -/
def buildOperation (registration : ModelRegistration) (state : HandlerState registration.Item)
    (env : RequestEnvironment) (kind : WriteKind) (body : Json) : Option CrudOperation :=
  match kind with
  | .create | .bulkCreate => (createData env body).map (.create registration.basePath)
  | .update id =>
    (updateData env (ModelHandler.getItemJson registration.model state env.order id) body).map
      (.update registration.basePath id)
  | .delete id => some (.delete registration.basePath id)

/-- What becomes of a request: it is sent to the leader; it is none of the writes that are
replicated; the handler panics; or the operation is appended. -/
inductive Submission
  | redirected
  | notReplicated
  | panicked
  | appended (operation : CrudOperation)
  deriving DecidableEq

variable {models : List ModelRegistration}

/-- The leadership is `none` on a node without a leadership state, which takes itself for the
leader. -/
def handleModelRequest (states : ModelStates models) (leadership : Option Bool)
    (env : RequestEnvironment) (request : ModelRequest) : Submission :=
  match resolve models request.path with
  | none => .notReplicated
  | some i =>
    match writeKind request.method (segments (models.get i).basePath request.path) with
    | none => .notReplicated
    | some kind =>
      if leadership = some false then .redirected
      else
        match buildOperation (models.get i) (states i) env kind (request.body.getD .null) with
        | none => .panicked
        | some operation => .appended operation

/-- The request does not make the handler panic, and the operation it appends, if any, can be
applied on the node. -/
def Safe (sha256 : List UInt8 → String) (leader node : ModelStates models)
    (leadership : Option Bool) (env : RequestEnvironment) (request : ModelRequest)
    (applyEnv : Environment) : Prop :=
  match handleModelRequest leader leadership env request with
  | .redirected | .notReplicated => True
  | .panicked => False
  | .appended operation => ∃ states, applyCrudOperation sha256 node operation applyEnv =
      some (.ok states)

/-! ### The requests that end well -/

/-- The model accepts the value as an item. -/
def Accepts (registration : ModelRegistration) (value : Json) : Prop :=
  ∃ item, registration.model.fromValue value = .ok item

/-- The fields of an object; `null` stands for an object without fields. -/
def fieldsOf (value : Json) : List (String × Json) := value.asObject.getD []

/-- A field where it is missing. -/
def withDefault (missing : Option Json → Bool) (key : String) (v : Json)
    (fields : List (String × Json)) : List (String × Json) :=
  if missing (fields.lookup key) then Json.insertField key v fields else fields

/-- The fields of a body with an identifier and the two times where it has none. -/
def completed (env : RequestEnvironment) (fields : List (String × Json)) : List (String × Json) :=
  withDefault Option.isNone "updated_at" (.string env.now)
    (withDefault Option.isNone "created_at" (.string env.now)
      (withDefault idMissing "id" (.string env.freshId) fields))

/-- The value that a write is assigned to is an object or `null`, and the model accepts it with the
fields completed; a delete asks nothing. -/
def AcceptableWrite (registration : ModelRegistration)
    (state : HandlerState registration.Item) (env : RequestEnvironment) (body : Json) :
    WriteKind → Prop
  | .create | .bulkCreate =>
    body.Indexable ∧ Accepts registration (.object (completed env (fieldsOf body)))
  | .update id =>
    let merged := mergedBody (ModelHandler.getItemJson registration.model state env.order id) body
    merged.Indexable ∧
      Accepts registration (.object (Json.insertField "updated_at" (.string env.now)
        (fieldsOf merged)))
  | .delete _ => True

/-- The requests that are no write of a model, or one that a follower passes on, or an acceptable
one. -/
def Acceptable (leader : ModelStates models) (leadership : Option Bool)
    (env : RequestEnvironment) (request : ModelRequest) : Prop :=
  ∀ i, resolve models request.path = some i →
    ∀ kind, writeKind request.method (segments (models.get i).basePath request.path) = some kind →
      leadership ≠ some false →
        AcceptableWrite (models.get i) (leader i) env (request.body.getD .null) kind

/-! ### Completing a body -/

theorem setMissing_object (missing : Option Json → Bool) (key : String) (v : Json)
    (fields : List (String × Json)) :
    setMissing missing key v (.object fields) =
      some (.object (withDefault missing key v fields)) := by
  unfold setMissing withDefault
  rw [Json.get]
  split_ifs
  · rfl
  · rfl

/-- Completing a body is defined on objects and on `null`. -/
theorem createData_eq (env : RequestEnvironment) (body : Json) :
    createData env body =
      if body.Indexable then some (.object (completed env (fieldsOf body))) else none := by
  unfold createData
  cases body with
  | object fields =>
    rw [setMissing_object, Option.bind_some, setMissing_object, Option.bind_some,
      setMissing_object, if_pos (Json.indexable_object fields)]
    rfl
  | null =>
    have hid : setMissing idMissing "id" (.string env.freshId) .null =
        some (.object (withDefault idMissing "id" (.string env.freshId) [])) := rfl
    rw [hid, Option.bind_some, setMissing_object, Option.bind_some, setMissing_object,
      if_pos Json.indexable_null]
    rfl
  | bool b => rfl
  | number n => rfl
  | string s => rfl
  | array items => rfl

/-- So is setting the time of an update. -/
theorem updateData_eq (env : RequestEnvironment) (existing : Option Json) (body : Json) :
    updateData env existing body =
      if (mergedBody existing body).Indexable then
        some (.object (Json.insertField "updated_at" (.string env.now)
          (fieldsOf (mergedBody existing body))))
      else none := by
  unfold updateData
  cases mergedBody existing body with
  | object fields => rfl
  | null => rfl
  | bool b => rfl
  | number n => rfl
  | string s => rfl
  | array items => rfl

/-! ### Applying the operation -/

section Apply

variable {sha256 : List UInt8 → String} {node : ModelStates models} {applyEnv : Environment}
  {modelPath : String} {i : Fin models.length}

theorem onModel_isOk_iff (hi : resolve models modelPath = some i)
    (apply : (i : Fin models.length) → Except String (HandlerState (models.get i).Item)) :
    (∃ states, some (onModel node modelPath apply) = some (.ok states)) ↔
      ∃ state, apply i = .ok state := by
  unfold onModel
  rw [hi]
  change (∃ states, some ((apply i).map fun state ↦ Function.update node i state) =
    some (.ok states)) ↔ _
  cases apply i with
  | error message => simp [Except.map]
  | ok state => simp [Except.map]

theorem apply_create_iff (hi : resolve models modelPath = some i) (data : Json) :
    (∃ states, applyCrudOperation sha256 node (.create modelPath data) applyEnv =
      some (.ok states)) ↔ Accepts (models.get i) data := by
  unfold applyCrudOperation
  rw [onModel_isOk_iff hi]
  unfold ModelHandler.applyReplicatedItemJson Accepts
  cases (models.get i).model.fromValue data with
  | error message => simp
  | ok item => simp

theorem apply_update_iff (hi : resolve models modelPath = some i) (id : String)
    (data : Json) :
    (∃ states, applyCrudOperation sha256 node (.update modelPath id data) applyEnv =
      some (.ok states)) ↔ Accepts (models.get i) data := by
  unfold applyCrudOperation
  rw [onModel_isOk_iff hi]
  unfold ModelHandler.applyReplicatedUpdateJson Accepts
  cases (models.get i).model.fromValue data with
  | error message => simp
  | ok item => simp

theorem apply_delete (hi : resolve models modelPath = some i) (id : String) :
    ∃ states, applyCrudOperation sha256 node (.delete modelPath id) applyEnv =
      some (.ok states) := by
  unfold applyCrudOperation
  rw [onModel_isOk_iff hi]
  exact ⟨_, rfl⟩

end Apply

/-- A write of the leader ends well on a node exactly when it is acceptable. -/
theorem write_iff (sha256 : List UInt8 → String) (leader node : ModelStates models)
    (env : RequestEnvironment) (body : Json) (applyEnv : Environment) {i : Fin models.length}
    (hi : resolve models (models.get i).basePath = some i) (kind : WriteKind) :
    (∃ operation, buildOperation (models.get i) (leader i) env kind body = some operation ∧
      ∃ states, applyCrudOperation sha256 node operation applyEnv = some (.ok states)) ↔
      AcceptableWrite (models.get i) (leader i) env body kind := by
  have hcreate : (∃ operation,
      (createData env body).map (.create (models.get i).basePath) = some operation ∧
        ∃ states, applyCrudOperation sha256 node operation applyEnv = some (.ok states)) ↔
      body.Indexable ∧ Accepts (models.get i) (.object (completed env (fieldsOf body))) := by
    rw [createData_eq]
    split_ifs with hindexable
    · simp only [Option.map_some, Option.some.injEq, exists_eq_left', hindexable, true_and]
      exact apply_create_iff hi _
    · simp [hindexable]
  cases kind with
  | create => exact hcreate
  | bulkCreate => exact hcreate
  | update id =>
    unfold buildOperation AcceptableWrite
    simp only [updateData_eq]
    split_ifs with hindexable
    · simp only [Option.map_some, Option.some.injEq, exists_eq_left', hindexable, true_and]
      exact apply_update_iff hi id _
    · simp only [Option.map_none, reduceCtorEq, false_and, exists_false, hindexable]
  | delete id =>
    unfold buildOperation AcceptableWrite
    simp only [Option.some.injEq, exists_eq_left', iff_true]
    exact apply_delete hi id

/-- For every request and all states of the leader and of the node that applies the operation, the
request ends well exactly when it is acceptable, which does not depend on the node. -/
theorem safe_iff_acceptable (sha256 : List UInt8 → String) (leader node : ModelStates models)
    (leadership : Option Bool) (env : RequestEnvironment) (request : ModelRequest)
    (applyEnv : Environment) :
    Safe sha256 leader node leadership env request applyEnv ↔
      Acceptable leader leadership env request := by
  unfold Safe handleModelRequest Acceptable
  cases hi : resolve models request.path with
  | none => simp only [reduceCtorEq, false_implies, implies_true]
  | some i =>
    simp only [Option.some.injEq, forall_eq']
    cases hkind : writeKind request.method (segments (models.get i).basePath request.path) with
    | none => simp only [reduceCtorEq, false_implies, implies_true]
    | some kind =>
      simp only [Option.some.injEq, forall_eq']
      by_cases hleader : leadership = some false
      · simp only [hleader, if_true, ne_eq, not_true_eq_false, false_implies]
      · rw [if_neg hleader, forall_prop_of_true hleader,
          ← write_iff sha256 leader node env _ applyEnv (resolve_basePath hi) kind]
        cases buildOperation (models.get i) (leader i) env kind (request.body.getD .null) with
        | none => simp only [reduceCtorEq, false_and, exists_false]
        | some operation => simp only [Option.some.injEq, exists_eq_left']

/-! ### A list to create in bulk -/

section BulkCreate

/-- A list with one shelf, to be created in bulk. -/
def bulkRequest : ModelRequest where
  method := .post
  path := "/api/shelves/_bulk"
  body := some (.array [.object [("id", .string "a")]])

def noonEnvironment : RequestEnvironment := ⟨"2025-01-01T12:00:00+00:00", "fresh", []⟩

/-- The handler panics on the list that its path asks for. -/
theorem bulk_create_panics :
    ¬ ∃ sha256 : List UInt8 → String,
      Safe sha256 noShelves noShelves (some true) noonEnvironment bulkRequest
        quietEnvironment := by
  rintro ⟨sha256, h⟩
  have hpanic : handleModelRequest noShelves (some true) noonEnvironment bulkRequest =
      .panicked := rfl
  rw [Safe, hpanic] at h
  exact h

end BulkCreate

end Lithair.App
