import Lithair.App.ModelRequest
import Lithair.Http.Acceptance

/-!
# Writes through the consensus log and writes of a single node

The two branches of `handle_model_request` in `app/mod.rs` on the same request. A single node hands
the request to the model's handler, whose `handle_request` routes it and asks for permissions, the
model's validation and its lifecycle rules, and the item that is to be changed. In a cluster the
leader appends the operation without any of it.

`gated_iff_passes` says for which requests the leader lets nothing through that the single node
would turn away: those whose write it cannot apply, and those that pass the checks of the handler
by themselves.
-/

namespace Lithair.App

open Lithair.Cluster Lithair.Engine Lithair.Http Lithair.Lib

/-! ### The request to a handler -/

/-- What a handler answers to a request. -/
inductive RouteResponse (T : Type)
  | read
  | single (response : Response T)
  | bulk (outcome : Except (Response T) (List T))
  | methodNotAllowed (allow : String)

/-- The answers that report that a write succeeded. -/
def RouteResponse.isWritten {T : Type} : RouteResponse T → Bool
  | .single response => response.isSuccess
  | .bulk (.ok _) => true
  | _ => false

/-- The answer to a method that the path does not know. -/
def refusal {T : Type} : List String → RouteResponse T
  | [] => .methodNotAllowed "GET, POST"
  | [segment] =>
    if segment ∈ ["count", "random-id", "stream"] then .methodNotAllowed "GET"
    else if segment = "_bulk" then .methodNotAllowed "POST"
    else .methodNotAllowed "GET, PUT, DELETE"
  | _ => .single .notFound

/-- The handler of a model on a request with the given segments, with the environment of every
single write in it. -/
def handleRequest {T : Type} (M : HttpExposable T) (sha256 : List UInt8 → String)
    (config : BulkConfig T) (s : HandlerState T) (method : Method) (segments : List String)
    (req : WriteRequest) (env : ℕ → Environment) : HandlerState T × RouteResponse T :=
  match method, segments with
  | .get, [] | .get, [_] => (s, .read)
  | .post, [] =>
    Prod.map id .single (Declarative.handleCreate M sha256 config.toHandlerConfig s req (env 0))
  | .post, [segment] =>
    if segment = "_bulk" then
      Prod.map id .bulk (Declarative.handleBulkCreate M sha256 config s req env)
    else (s, refusal [segment])
  | .put, [key] =>
    Prod.map id .single (Declarative.handleUpdate M sha256 config.toHandlerConfig s key req (env 0))
  | .delete, [key] =>
    Prod.map id .single (Declarative.handleDelete M sha256 config.toHandlerConfig s key req (env 0))
  | _, segments => (s, refusal segments)

/-! ### One request on both branches -/

/-- A request of a client to the models of a node. -/
structure ClientRequest extends WriteRequest where
  method : Method
  path : String

variable {models : List ModelRegistration}

/-- How the handlers of the models are set up. -/
abbrev HandlerConfigs (models : List ModelRegistration) :=
  (i : Fin models.length) → BulkConfig (models.get i).Item

/-- What becomes of an operation once it is in the log of the leader: whether it is committed, and
the states of the models and the environment it is then applied in. -/
structure Outcome (models : List ModelRegistration) where
  committed : Bool
  states : ModelStates models
  env : Environment

/-- The request as the leader reads it, unless reading its body fails. -/
def ClientRequest.onLeader (parse : List UInt8 → Option Json) (request : ClientRequest) :
    Option ModelRequest :=
  request.body.map fun bytes ↦ ⟨request.method, request.path, parse bytes⟩

/-- In the cluster the request appends an operation, which is committed and applied. -/
def TakesEffect (sha256 : List UInt8 → String) (parse : List UInt8 → Option Json)
    (leader : ModelStates models) (leadership : Option Bool) (env : RequestEnvironment)
    (request : ClientRequest) (outcome : Outcome models) : Prop :=
  ∃ read operation, request.onLeader parse = some read ∧
    handleModelRequest leader leadership env read = .appended operation ∧
    outcome.committed = true ∧
    ∃ states, applyCrudOperation sha256 outcome.states operation outcome.env = some (.ok states)

/-- A single node with the same storages writes what the request asks for, if neither the consensus
of the handler nor the event log fails. -/
def Accepted (sha256 : List UInt8 → String) (configs : HandlerConfigs models)
    (states : ModelStates models) (request : ClientRequest) : Prop :=
  ∃ i, resolve models request.path = some i ∧
    (handleRequest (models.get i).model sha256 (configs i) (states i) request.method
      (segments (models.get i).basePath request.path) request.toWriteRequest
      fun _ ↦ quietEnvironment).2.isWritten = true

/-- The request takes effect only if a single node would have accepted it. -/
def Gated (sha256 : List UInt8 → String) (parse : List UInt8 → Option Json)
    (configs : HandlerConfigs models) (leader : ModelStates models) (leadership : Option Bool)
    (env : RequestEnvironment) (request : ClientRequest) (outcome : Outcome models) : Prop :=
  TakesEffect sha256 parse leader leadership env request outcome →
    Accepted sha256 configs leader request

/-! ### The checks -/

/-- The checks that the handler of a model makes of a write: the permission, the validation and the
lifecycle of each item, an item to change, and a route for the method and the path. -/
def PassesChecks {T : Type} (M : HttpExposable T) (config : BulkConfig T) (storage : Storage T)
    (method : Method) (segments : List String) (req : WriteRequest) : WriteKind → Prop
  | .create => Declarative.AcceptsItem M config.toHandlerConfig req
  | .bulkCreate =>
    segments = ["_bulk"] ∧ ∃ items, Declarative.parseItems config req = .ok items ∧
      ∀ item ∈ items, Declarative.Admissible M item
  | .update id =>
    method = .put ∧ segments = [id] ∧
      Declarative.AcceptsItem M config.toHandlerConfig req ∧ id ∈ storage
  | .delete id =>
    segments = [id] ∧ ∃ item, storage.lookup id = some item ∧
      Declarative.authorize M config.toHandlerConfig req item "Delete" = .ok () ∧
      (M.toText item).isSome

/-- The write of a request that the leader reads, that is committed and that can be applied passes
the checks. -/
def Passes (parse : List UInt8 → Option Json) (configs : HandlerConfigs models)
    (leader : ModelStates models) (leadership : Option Bool) (env : RequestEnvironment)
    (request : ClientRequest) (outcome : Outcome models) : Prop :=
  ∀ i bytes kind, resolve models request.path = some i → request.body = some bytes →
    writeKind request.method (segments (models.get i).basePath request.path) = some kind →
    leadership ≠ some false → outcome.committed = true →
    AcceptableWrite (models.get i) (leader i) env ((parse bytes).getD .null) kind →
      PassesChecks (models.get i).model (configs i) (leader i).storage request.method
        (segments (models.get i).basePath request.path) request.toWriteRequest kind

/-! ### What the single node accepts -/

section SingleNode

variable {T : Type} {M : HttpExposable T} {sha256 : List UInt8 → String} {config : BulkConfig T}
  {s : HandlerState T} {req : WriteRequest}

theorem refusal_isWritten (segments : List String) :
    (refusal segments : RouteResponse T).isWritten = false := by
  unfold refusal
  split
  · rfl
  · split_ifs
    · rfl
    · rfl
    · rfl
  · rfl

/-- A path of several segments is no resource. -/
theorem not_written_of_nested (method : Method) (first second : String) (rest : List String)
    (env : ℕ → Environment) :
    (handleRequest M sha256 config s method (first :: second :: rest) req env).2.isWritten =
      false := by
  cases method <;> rfl

theorem bulk_isWritten_iff {outcome : Except (Response T) (List T)} :
    (RouteResponse.bulk outcome).isWritten = true ↔ ∃ created, outcome = .ok created := by
  cases outcome with
  | error response => simp [RouteResponse.isWritten]
  | ok created => simp [RouteResponse.isWritten]

/-- Only a path without segments is created under. -/
theorem ne_create_of_segment {method : Method} {first : String} {rest : List String} :
    writeKind method (first :: rest) ≠ some .create := by
  unfold writeKind
  cases method with
  | post =>
    dsimp only
    split_ifs
    · simp
    · simp
  | get | put | patch | delete | other => simp

/-- A write is accepted exactly when it passes the checks. -/
theorem isWritten_iff_passesChecks {method : Method} {segments : List String} {kind : WriteKind}
    (hkind : writeKind method segments = some kind) :
    (handleRequest M sha256 config s method segments req fun _ ↦ quietEnvironment).2.isWritten =
        true ↔
      PassesChecks M config s.storage method segments req kind := by
  cases segments with
  | nil =>
    cases method with
    | post =>
      obtain rfl := Option.some.inj hkind
      exact Declarative.handleCreate_accepts_iff
    | get | put | patch | delete | other => exact absurd hkind (by simp [writeKind])
  | cons first rest =>
    cases rest with
    | cons second rest =>
      rw [not_written_of_nested]
      refine iff_of_false Bool.false_ne_true fun hpasses ↦ ?_
      cases kind with
      | create => exact ne_create_of_segment hkind
      | bulkCreate => exact absurd hpasses.1 (by simp)
      | update id => exact absurd hpasses.2.1 (by simp)
      | delete id => exact absurd hpasses.1 (by simp)
    | nil =>
      cases method with
      | post =>
        unfold writeKind at hkind
        dsimp only at hkind
        split_ifs at hkind with hfirst
        obtain rfl := Option.some.inj hkind
        subst hfirst
        unfold PassesChecks
        rw [eq_self, true_and]
        exact bulk_isWritten_iff.trans Declarative.handleBulkCreate_accepts_iff
      | put =>
        obtain rfl := Option.some.inj hkind
        refine Declarative.handleUpdate_accepts_iff.trans ?_
        unfold PassesChecks
        simp only [true_and]
      | patch =>
        obtain rfl := Option.some.inj hkind
        have hpatch : Method.patch ≠ Method.put := by decide
        refine iff_of_false ?_ fun hpasses ↦ hpatch hpasses.1
        rw [Bool.not_eq_true]
        exact refusal_isWritten [first]
      | delete =>
        obtain rfl := Option.some.inj hkind
        refine Declarative.handleDelete_accepts_iff.trans ?_
        unfold PassesChecks
        simp only [true_and]
      | get | other => exact absurd hkind (by simp [writeKind])

end SingleNode

/-! ### The leader and the single node -/

/-- An operation takes effect exactly when it is committed and its write is acceptable. -/
theorem takesEffect_iff (sha256 : List UInt8 → String) (parse : List UInt8 → Option Json)
    (leader : ModelStates models) (leadership : Option Bool) (env : RequestEnvironment)
    (request : ClientRequest) (outcome : Outcome models) :
    TakesEffect sha256 parse leader leadership env request outcome ↔
      ∃ i bytes kind, resolve models request.path = some i ∧ request.body = some bytes ∧
        writeKind request.method (segments (models.get i).basePath request.path) = some kind ∧
        leadership ≠ some false ∧ outcome.committed = true ∧
        AcceptableWrite (models.get i) (leader i) env ((parse bytes).getD .null) kind := by
  unfold TakesEffect ClientRequest.onLeader
  constructor
  · rintro ⟨read, operation, hread, hoperation, hcommitted, happlied⟩
    rw [Option.map_eq_some_iff] at hread
    obtain ⟨bytes, hbytes, rfl⟩ := hread
    unfold handleModelRequest at hoperation
    split at hoperation
    · exact absurd hoperation (by simp)
    · next i hi =>
      split at hoperation
      · exact absurd hoperation (by simp)
      · next kind hkind =>
        split_ifs at hoperation with hleader
        split at hoperation
        · exact absurd hoperation (by simp)
        · next built hbuilt =>
          obtain rfl := Submission.appended.inj hoperation
          refine ⟨i, bytes, kind, hi, hbytes, hkind, hleader, hcommitted, ?_⟩
          exact (write_iff sha256 leader outcome.states env _ outcome.env (resolve_basePath hi)
            kind).mp ⟨built, hbuilt, happlied⟩
  · rintro ⟨i, bytes, kind, hi, hbytes, hkind, hleader, hcommitted, hacceptable⟩
    obtain ⟨operation, hbuilt, happlied⟩ := (write_iff sha256 leader outcome.states env _
      outcome.env (resolve_basePath hi) kind).mpr hacceptable
    refine ⟨⟨request.method, request.path, parse bytes⟩, operation, ?_, ?_, hcommitted, happlied⟩
    · rw [hbytes, Option.map_some]
    · unfold handleModelRequest
      simp only [hi, hkind, if_neg hleader, hbuilt]

/-- For all models, set-ups of their handlers, states, requests and callers: the leader lets nothing
through that the single node would turn away exactly when the write, if it can be applied at all,
passes the checks. -/
theorem gated_iff_passes (sha256 : List UInt8 → String) (parse : List UInt8 → Option Json)
    (configs : HandlerConfigs models) (leader : ModelStates models) (leadership : Option Bool)
    (env : RequestEnvironment) (request : ClientRequest) (outcome : Outcome models) :
    Gated sha256 parse configs leader leadership env request outcome ↔
      Passes parse configs leader leadership env request outcome := by
  unfold Gated Passes
  rw [takesEffect_iff]
  constructor
  · intro hgated i bytes kind hi hbytes hkind hleader hcommitted hacceptable
    obtain ⟨j, hj, hwritten⟩ :=
      hgated ⟨i, bytes, kind, hi, hbytes, hkind, hleader, hcommitted, hacceptable⟩
    rw [hi, Option.some.injEq] at hj
    subst hj
    exact (isWritten_iff_passesChecks hkind).mp hwritten
  · rintro hpasses ⟨i, bytes, kind, hi, hbytes, hkind, hleader, hcommitted, hacceptable⟩
    refine ⟨i, hi, (isWritten_iff_passesChecks hkind).mpr ?_⟩
    exact hpasses i bytes kind hi hbytes hkind hleader hcommitted hacceptable

/-! ### A create without a session -/

section WithoutSession

/-- Shelves that only the role of an administrator may write. -/
def guardedShelves : HandlerConfigs shelves := fun i ↦
  match i with
  | ⟨0, _⟩ => {
      consensus := false
      permissionExtractor := false
      permissionChecker := some fun role _ ↦ role = "Admin"
      maxBodyBytesSingle := 2097152
      maxBodyBytesBulk := 12582912
      disableConsensus := false
      listFromSlice := fun _ ↦ none }

/-- The shelf `a`, sent without a session. -/
def anonymousCreate : ClientRequest where
  toWriteRequest := createShelf
  method := .post
  path := "/api/shelves"

/-- The one text that is sent, as JSON. -/
def parseShelf (bytes : List UInt8) : Option Json :=
  if bytes = asBytes Shelf.a.text then some (.object [("id", .string "a")]) else none

/-- The single node asks for a session; the leader creates the shelf. -/
theorem anonymous_create_takes_effect :
    ¬ ∃ sha256 : List UInt8 → String,
      Gated sha256 parseShelf guardedShelves noShelves (some true) noonEnvironment anonymousCreate
        ⟨true, noShelves, quietEnvironment⟩ := by
  rintro ⟨sha256, hgated⟩
  have hresolve : resolve shelves anonymousCreate.path = some ⟨0, Nat.one_pos⟩ := rfl
  have hkind : writeKind .post (segments "/api/shelves" "/api/shelves") = some .create := rfl
  have hacceptable : AcceptableWrite (shelves.get ⟨0, Nat.one_pos⟩) (noShelves _) noonEnvironment
      ((parseShelf (asBytes Shelf.a.text)).getD .null) .create :=
    ⟨Json.indexable_object _, .a, rfl⟩
  obtain ⟨i, hi, hwritten⟩ := hgated <| (takesEffect_iff ..).mpr
    ⟨⟨0, Nat.one_pos⟩, asBytes Shelf.a.text, .create, hresolve, rfl, hkind, by simp, rfl,
      hacceptable⟩
  rw [hresolve, Option.some.injEq] at hi
  subst hi
  obtain ⟨item, hparse, hauthorize, -⟩ := (isWritten_iff_passesChecks hkind).mp hwritten
  exact absurd hauthorize (by simp [Declarative.authorize, guardedShelves, anonymousCreate,
    createShelf])

end WithoutSession

end Lithair.App
