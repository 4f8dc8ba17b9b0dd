import Lithair.App.Routes
import Lithair.Session.Middleware

/-!
# Route guards

`http/route_guard.rs`: the guards that `handle_request` evaluates in front of the routes, and which
requests they are for. A guard for roles and one for rates turn every request away, and a custom
guard takes every request without asking its checker. The guard for authentication takes any
session that the store finds.
-/

namespace Lithair.App

open Lithair.Sessions

/-- A request as guards see it; what they do not look at is the rest. -/
structure GuardedRequest (B : Type*) where
  method : Method
  path : String
  headers : TokenHeaders
  rest : B

/-- The answer to a request that is denied. -/
structure DenyResponse where
  status : ℕ
  location : Option String
  contentType : Option String
  body : String
  deriving DecidableEq

inductive GuardResult
  | allow
  | deny (response : DenyResponse)
  deriving DecidableEq

/-- The session store that a server or a handler is given, which can be of any type. -/
inductive AnySessionStore
  | persistent (state : SessionState)
  | other

/-- `downcast` to the persistent store. -/
def AnySessionStore.downcast : AnySessionStore → Option SessionState
  | .persistent state => some state
  | .other => none

inductive RouteGuard (B : Type*)
  | requireAuth (redirectTo : Option String) (exclude : List String)
  | requireRole (roles : List String) (redirectTo : Option String)
  | rateLimit (maxRequests windowSecs : ℕ)
  | custom (checker : GuardedRequest B → Except String GuardResult)

namespace RouteGuard

variable {B : Type*} (req : GuardedRequest B) (sessionStore : Option AnySessionStore)

def Excluded (exclude : List String) (path : String) : Prop :=
  ∃ excluded ∈ exclude, startsWith path excluded = true

instance (exclude : List String) (path : String) : Decidable (Excluded exclude path) :=
  inferInstanceAs (Decidable (∃ excluded ∈ exclude, _))

/-- The answer to a request without a session. -/
def unauthenticated : Option String → DenyResponse
  | some url =>
    { status := 302
      location := some url
      contentType := some "text/html"
      body := "<!DOCTYPE html>\n<html><head><meta http-equiv=\"refresh\" content=\"0;url=" ++ url ++
        "\"></head>\n<body><p>Redirecting to login...</p></body></html>" }
  | none =>
    { status := 401
      location := none
      contentType := some "application/json"
      body := "\x7b\"error\":\"Authentication required\"\x7d" }

def checkAuth (redirectTo : Option String) (exclude : List String) : Except String GuardResult :=
  if Excluded exclude req.path then .ok .allow
  else
    match sessionStore with
    | none => .ok .allow
    | some store =>
      match store.downcast with
      | none => .error "Failed to downcast session store"
      | some state =>
        if (req.headers.guardToken.bind (PersistentSessionStore.get state)).isSome then .ok .allow
        else .ok (.deny (unauthenticated redirectTo))

/-- Behind the exclusions, what is asked is whether there is a session. -/
theorem checkAuth_eq_allow {exclude : List String} (h : ¬ Excluded exclude req.path)
    {state : SessionState} (redirectTo : Option String) :
    checkAuth req (some (.persistent state)) redirectTo exclude = .ok .allow ↔
      (req.headers.guardToken.bind (PersistentSessionStore.get state)).isSome = true := by
  unfold checkAuth
  rw [if_neg h]
  show (if _ then _ else _) = _ ↔ _
  split_ifs with hfound
  · exact iff_of_true rfl hfound
  · exact iff_of_false (by simp) hfound

/-- Roles are not checked yet. -/
def checkRole : Option String → GuardResult
  | some url => .deny ⟨302, some url, none, "Redirecting..."⟩
  | none =>
    .deny ⟨403, none, some "application/json",
      "\x7b\"error\":\"Role-based access control not yet available\"\x7d"⟩

def check : RouteGuard B → Except String GuardResult
  | .requireAuth redirectTo exclude => checkAuth req sessionStore redirectTo exclude
  | .requireRole _ redirectTo => .ok (checkRole redirectTo)
  | .rateLimit _ _ =>
    .ok (.deny ⟨503, none, some "application/json",
      "\x7b\"error\":\"Rate limiting not yet available\"\x7d"⟩)
  | .custom _ => .ok .allow

def IsCustom : RouteGuard B → Prop
  | .custom _ => True
  | _ => False

/-- The guard allows the request: a custom one, when its checker does. -/
def Allows : RouteGuard B → Prop
  | .custom checker => checker req = .ok .allow
  | guard => check req sessionStore guard = .ok .allow

variable {req sessionStore}

/-- The checker of a custom guard is not asked. -/
theorem check_of_isCustom {guard : RouteGuard B} (h : guard.IsCustom) :
    guard.check req sessionStore = .ok .allow := by
  cases guard with
  | custom checker => rfl
  | _ => exact h.elim

theorem allows_iff_check {guard : RouteGuard B} (h : ¬ guard.IsCustom) :
    guard.Allows req sessionStore ↔ guard.check req sessionStore = .ok .allow := by
  cases guard with
  | custom checker => exact absurd trivial h
  | _ => exact Iff.rfl

end RouteGuard

/-- A guard with the requests that it is for; without methods it is for all of them. -/
structure RouteGuardMatcher (B : Type*) where
  pattern : String
  methods : Option (List Method)
  guard : RouteGuard B

namespace RouteGuardMatcher

variable {B : Type*} (matcher : RouteGuardMatcher B)

def matchesPattern (path : String) : Bool :=
  let chars := matcher.pattern.toList
  if ['/', '*'].isSuffixOf chars then (chars.take (chars.length - 2)).isPrefixOf path.toList
  else path == matcher.pattern

def matchesRequest (req : GuardedRequest B) : Bool :=
  (matcher.methods.all fun methods ↦ decide (req.method ∈ methods)) &&
    matcher.matchesPattern req.path

end RouteGuardMatcher

end Lithair.App
