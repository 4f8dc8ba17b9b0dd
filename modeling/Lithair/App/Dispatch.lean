import Lithair.App.InternalEndpoints
import Lithair.App.RouteGuard

/-!
# Guards and the dispatcher

`handle_request` of `app/mod.rs` as a whole: which handler a request ends up with. The endpoints of
the cluster and those for the administration of schemas come first, then the guards that match the
request, one after the other, and then all other routes.

`guarded_iff_covered` says for which requests the guards are complete: no handler that changes or
reveals what the application holds runs unless each guard that matches the request allowed it.
-/

namespace Lithair.App

open Lithair.Sessions

/-! ### The endpoints for schemas -/

inductive SchemaEndpoint
  | list | pending | approve | reject | sync | diff | history | revalidate | rollback
  | lockStatus | lock | unlock
  deriving DecidableEq

/-- The endpoints that have a path of their own. -/
def schemaRoutes : List ((String × Method) × SchemaEndpoint) := [
  (("/_admin/schema", .get), .list),
  (("/_admin/schema/pending", .get), .pending),
  (("/_admin/schema/sync", .post), .sync),
  (("/_admin/schema/diff", .get), .diff),
  (("/_admin/schema/history", .get), .history),
  (("/_admin/schema/revalidate", .post), .revalidate),
  (("/_admin/schema/lock/status", .get), .lockStatus),
  (("/_admin/schema/lock", .post), .lock),
  (("/_admin/schema/unlock", .post), .unlock)]

/-- The endpoints whose path goes on with the id of a change or the name of a model. -/
def schemaEndpoint (method : Method) (path : String) : Option SchemaEndpoint :=
  if startsWith path "/_admin/schema/approve/" ∧ method = .post then some .approve
  else if startsWith path "/_admin/schema/reject/" ∧ method = .post then some .reject
  else if startsWith path "/_admin/schema/rollback/" ∧ method = .post then some .rollback
  else schemaRoutes.lookup (path, method)

/-! ### The server -/

/-- The files of a frontend, under a path. -/
structure Frontend where
  pathPrefix : String
  hasAsset : String → Bool

/-- What the dispatcher reads of a server. The frontends are in the order in which they are tried,
those with the longest paths first; the page of the data administration has a path only if it is
compiled in. -/
structure Dispatcher (models : List ModelRegistration) (Spec B H : Type) where
  raft : RaftConfig
  node : InternalNode models Spec
  routeGuards : List (RouteGuardMatcher B)
  sessionManager : Option AnySessionStore
  openapiEnabled : Bool
  metricsEnabled : Bool
  metricsPath : String
  dataAdminEnabled : Bool
  dataAdminUiPath : Option String
  customRoutes : List (CustomRoute H)
  frontends : List Frontend
  notFoundHandler : Option H

/-- What a request ends up with. -/
inductive Served (models : List ModelRegistration) (H : Type)
  | invalidRaftToken
  | redirectedToLeader
  | endpoint (e : Endpoint)
  | schema (e : SchemaEndpoint)
  | denied (response : DenyResponse)
  | guardFailed
  | status
  | openapi
  | docs
  | metrics
  | dataAdmin
  | dataAdminUi
  | custom (handler : H)
  | model (i : Fin models.length)
  | frontend (pathPrefix : String)
  | notFoundHandler (handler : H)
  | notFound

/-- Handlers that change or reveal what the application holds. The others answer with a refusal, a
redirection, a page or a file. -/
def Served.TouchesState {models : List ModelRegistration} {H : Type} : Served models H → Prop
  | .endpoint _ | .schema _ | .status | .openapi | .metrics | .dataAdmin | .custom _ | .model _
  | .notFoundHandler _ => True
  | .invalidRaftToken | .redirectedToLeader | .denied _ | .guardFailed | .docs | .dataAdminUi
  | .frontend _ | .notFound => False

namespace Dispatcher

variable {models : List ModelRegistration} {Spec B H : Type}
  (hmac : List UInt8 → List UInt8 → List UInt8) (raftToken : B → Option String)
  (server : Dispatcher models Spec B H) (req : GuardedRequest B)

/-- A follower sends writes of clients to the leader; `PATCH` does not count as one. -/
def redirectsToLeader : Bool :=
  server.node.raftState.any (fun state ↦ !state.isLeader) &&
    decide (req.method ∈ [Method.post, .put, .delete]) &&
    !(startsWith req.path "/internal/" || startsWith req.path "/_raft/")

/-- What takes a request in front of the guards. The two endpoints that ask for the token of the
cluster come first, and all other endpoints of the cluster have paths that are not redirected. -/
def beforeGuards : Option (Served models H) :=
  match endpoint server.raft server.node req.method req.path with
  | some e =>
    if (e = .heartbeat ∨ e = .leader) ∧
        server.raft.validateToken hmac (raftToken req.rest) = false then some .invalidRaftToken
    else some (.endpoint e)
  | none =>
    if server.redirectsToLeader req then some .redirectedToLeader
    else (schemaEndpoint req.method req.path).map .schema

/-- Evaluate the guards that match, up to the first that does not allow the request. -/
def evaluateGuards (sessionStore : Option AnySessionStore) :
    List (RouteGuardMatcher B) → Option (Served models H)
  | [] => none
  | matcher :: rest =>
    if matcher.matchesRequest req then
      match matcher.guard.check req sessionStore with
      | .ok .allow => evaluateGuards sessionStore rest
      | .ok (.deny response) => some (.denied response)
      | .error _ => some .guardFailed
    else evaluateGuards sessionStore rest

/-- The frontend that a request goes to. Under `/_astro/` it is any that has the file. -/
def findFrontend : Option Frontend :=
  if startsWith req.path "/_astro/" then
    server.frontends.find? fun frontend ↦ frontend.hasAsset req.path
  else server.frontends.find? fun frontend ↦ startsWith req.path frontend.pathPrefix

/-- The routes behind the guards. -/
def route : Served models H :=
  if req.path = "/status" ∧ req.method = .get then .status
  else if server.openapiEnabled ∧ req.path = "/openapi.json" ∧ req.method = .get then .openapi
  else if server.openapiEnabled ∧ req.path = "/docs" ∧ req.method = .get then .docs
  else if server.metricsEnabled ∧ req.path = server.metricsPath then .metrics
  else if server.dataAdminEnabled ∧ startsWith req.path "/_admin/data/" then .dataAdmin
  else if server.dataAdminUiPath.any fun uiPath ↦ req.path == uiPath || req.path == uiPath ++ "/"
    then .dataAdminUi
  else
    match findRoute server.customRoutes req.method req.path with
    | some handler => .custom handler
    | none =>
      match resolve models req.path with
      | some i => .model i
      | none =>
        match if req.method = .get then server.findFrontend req else none with
        | some frontend => .frontend frontend.pathPrefix
        | none =>
          match server.notFoundHandler with
          | some handler => .notFoundHandler handler
          | none => .notFound

def handleRequest : Served models H :=
  match server.beforeGuards hmac raftToken req with
  | some served => served
  | none =>
    (evaluateGuards req server.sessionManager server.routeGuards).getD (server.route req)

/-! ### What is meant to hold -/

/-- All guards that match the request allow it. -/
def AllAllow : Prop :=
  ∀ matcher ∈ server.routeGuards, matcher.matchesRequest req = true →
    matcher.guard.Allows req server.sessionManager

/-- No handler that changes or reveals what the application holds runs unless each guard that
matches the request allows it. -/
def GuardsComplete : Prop :=
  ∀ matcher ∈ server.routeGuards, matcher.matchesRequest req = true →
    (server.handleRequest hmac raftToken req).TouchesState →
      matcher.guard.Allows req server.sessionManager

/-- All guards that match allow the request, or it is answered in front of them without such a
handler, or it gets to them and one that is no custom guard does not allow it, or no such handler
is behind them. -/
def Covered : Prop :=
  server.AllAllow req ∨
    match server.beforeGuards hmac raftToken req with
    | some served => ¬ served.TouchesState
    | none =>
      (∃ matcher ∈ server.routeGuards, matcher.matchesRequest req = true ∧
        ¬ matcher.guard.IsCustom ∧ ¬ matcher.guard.Allows req server.sessionManager) ∨
      ¬ (server.route req).TouchesState

/-! ### The evaluation of the guards -/

variable {hmac raftToken server req}

/-- The guards have no answer when each of them that matches allows the request, as far as it is
checked. -/
theorem evaluateGuards_eq_none_iff {sessionStore : Option AnySessionStore}
    {guards : List (RouteGuardMatcher B)} :
    (evaluateGuards req sessionStore guards : Option (Served models H)) = none ↔
      ∀ matcher ∈ guards, matcher.matchesRequest req = true →
        matcher.guard.check req sessionStore = .ok .allow := by
  induction guards with
  | nil => exact iff_of_true rfl fun matcher hmatcher ↦ absurd hmatcher List.not_mem_nil
  | cons matcher rest ih =>
    rw [List.forall_mem_cons, evaluateGuards]
    split_ifs with hmatches
    · cases hcheck : matcher.guard.check req sessionStore with
      | error message =>
        refine iff_of_false (Option.some_ne_none _) fun h ↦ ?_
        have herror : Except.error message = Except.ok GuardResult.allow := h.1 hmatches
        nomatch herror
      | ok result =>
        cases result with
        | allow => exact ih.trans (and_iff_right fun _ ↦ rfl).symm
        | deny response =>
          refine iff_of_false (Option.some_ne_none _) fun h ↦ ?_
          nomatch Except.ok.inj (h.1 hmatches)
    · exact ih.trans (and_iff_right fun h ↦ absurd h hmatches).symm

/-- An answer of the guards is no handler. -/
theorem not_touchesState_of_evaluateGuards {sessionStore : Option AnySessionStore}
    {guards : List (RouteGuardMatcher B)} {served : Served models H}
    (h : evaluateGuards req sessionStore guards = some served) : ¬ served.TouchesState := by
  induction guards with
  | nil => exact absurd h.symm (Option.some_ne_none served)
  | cons matcher rest ih =>
    rw [evaluateGuards] at h
    split_ifs at h
    · split at h
      · exact ih h
      · rw [← Option.some.inj h]
        exact id
      · rw [← Option.some.inj h]
        exact id
    · exact ih h

theorem guardsComplete_iff :
    server.GuardsComplete hmac raftToken req ↔
      ((server.handleRequest hmac raftToken req).TouchesState → server.AllAllow req) :=
  ⟨fun h htouches matcher hmem hmatches ↦ h matcher hmem hmatches htouches,
    fun h matcher hmem hmatches htouches ↦ h htouches matcher hmem hmatches⟩

variable (hmac raftToken server req)

/-- For which requests the guards are complete. -/
theorem guarded_iff_covered :
    server.GuardsComplete hmac raftToken req ↔ server.Covered hmac raftToken req := by
  rw [guardsComplete_iff]
  unfold Covered handleRequest
  cases hbefore : server.beforeGuards hmac raftToken req with
  | some served => exact imp_iff_or_not
  | none =>
    cases heval : (evaluateGuards req server.sessionManager server.routeGuards :
      Option (Served models H)) with
    | some served =>
      have hquiet : ¬ served.TouchesState := not_touchesState_of_evaluateGuards heval
      refine iff_of_true (fun htouches ↦ absurd htouches hquiet) (Or.inr (Or.inl ?_))
      -- a guard that is checked and does not allow the request is no custom one
      have hrefuses : ¬ ∀ matcher ∈ server.routeGuards, matcher.matchesRequest req = true →
          matcher.guard.check req server.sessionManager = .ok .allow := by
        rw [← evaluateGuards_eq_none_iff, heval]
        exact Option.some_ne_none served
      push Not at hrefuses
      obtain ⟨matcher, hmem, hmatches, hcheck⟩ := hrefuses
      have hcustom : ¬ matcher.guard.IsCustom := fun h ↦ hcheck (RouteGuard.check_of_isCustom h)
      exact ⟨matcher, hmem, hmatches, hcustom, (RouteGuard.allows_iff_check hcustom).not.mpr hcheck⟩
    | none =>
      have hallow := evaluateGuards_eq_none_iff.mp heval
      have hnone : ¬ ∃ matcher ∈ server.routeGuards, matcher.matchesRequest req = true ∧
          ¬ matcher.guard.IsCustom ∧ ¬ matcher.guard.Allows req server.sessionManager := by
        rintro ⟨matcher, hmem, hmatches, hcustom, hrefuses⟩
        exact hrefuses ((RouteGuard.allows_iff_check hcustom).mpr (hallow matcher hmem hmatches))
      show (server.route req).TouchesState → _ ↔ _ ∨ _ ∨ _
      rw [or_iff_right hnone]
      exact imp_iff_or_not

/-! ### Requests that no guard is asked about -/

section Unguarded

/-- A server without a cluster whose only guard is for authentication, on all paths under
`/_admin/`, with a session store in which there is no session. -/
def sampleServer : Dispatcher [] Unit Unit Unit where
  raft := ⟨"/raft", false, none⟩
  node :=
    { raftState := none, log := none, states := fun i ↦ i.elim0, manager := none
      schemas := ⟨∅, ∅, .default⟩, peers := 0 }
  routeGuards := [⟨"/_admin/*", none, .requireAuth none []⟩]
  sessionManager := some (.persistent ∅)
  openapiEnabled := false
  metricsEnabled := false
  metricsPath := "/metrics"
  dataAdminEnabled := false
  dataAdminUiPath := none
  customRoutes := []
  frontends := []
  notFoundHandler := none

/-- A request without a token for the administration of schemas. -/
def unlockRequest : GuardedRequest Unit where
  method := .post
  path := "/_admin/schema/unlock"
  headers := ⟨none, none⟩
  rest := ()

/-- A custom guard whose checker denies every request. -/
def denyAll : RouteGuardMatcher Unit where
  pattern := "/status"
  methods := none
  guard := .custom fun _ ↦ .ok (.deny ⟨403, none, none, "denied"⟩)

def statusRequest : GuardedRequest Unit where
  method := .get
  path := "/status"
  headers := ⟨none, none⟩
  rest := ()

/-- The schemas are unlocked without the guard being asked, and a custom guard that denies every
request is passed over. -/
theorem guards_passed_over :
    (¬ ∀ (server : Dispatcher [] Unit Unit Unit) (req : GuardedRequest Unit),
      server.GuardsComplete (fun _ bytes ↦ bytes) (fun _ ↦ none) req) ∧
    ¬ { sampleServer with routeGuards := [denyAll] }.GuardsComplete (fun _ bytes ↦ bytes)
      (fun _ ↦ none) statusRequest := by
  constructor
  · intro h
    have hallow := h sampleServer unlockRequest ⟨"/_admin/*", none, .requireAuth none []⟩
      List.mem_cons_self (by decide) trivial
    have hfound := (RouteGuard.checkAuth_eq_allow unlockRequest (by decide) none).mp hallow
    exact Bool.false_ne_true hfound
  · intro h
    have hallow : Except.ok (GuardResult.deny _) = .ok .allow :=
      h denyAll List.mem_cons_self (by decide) trivial
    nomatch Except.ok.inj hallow

end Unguarded

end Dispatcher

end Lithair.App
