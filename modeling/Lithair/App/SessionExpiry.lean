import Lithair.App.RouteGuard

/-!
# Who accepts an expired session

The four places that turn the token of a request into an identity: the guard for authentication,
`/auth/validate` of `app/builder.rs`, the role that a declarative handler reads
(`extract_role_from_request` of `http/declarative.rs`), and the session middleware. Only the last
one looks at the expiry of the session, and the persistent store finds a session whether it is
expired or not, until it is cleaned up.

`refuses_iff` says which of them refuse an expired session.
-/

namespace Lithair.App

open Lithair.Lib Lithair.Sessions

/-- `/auth/validate`: the body of the answer. -/
def handleAuthValidate (sessionStore : AnySessionStore) (headers : TokenHeaders) :
    Except String String :=
  match sessionStore.downcast with
  | none => .error "Failed to downcast session store"
  | some state =>
    .ok (if (headers.validateToken.bind (PersistentSessionStore.get state)).isSome then
        "\x7b\"valid\":true\x7d"
      else "\x7b\"valid\":false\x7d")

def extractRoleFromRequest (sessionStore : Option AnySessionStore) (headers : TokenHeaders) :
    Option String :=
  ((sessionStore.bind AnySessionStore.downcast).bind fun state ↦
    headers.roleToken.bind (PersistentSessionStore.get state)).bind fun session ↦
      session.getText "role"

/-- What reads sessions. -/
inductive Consumer
  | requireAuth (redirectTo : Option String) (exclude : List String)
  | authValidate
  | roleExtraction
  | sessionMiddleware (config : SessionConfig)

namespace Consumer

/-- The token that the consumer reads off a request. -/
def token (headers : TokenHeaders) : Consumer → Option String
  | requireAuth _ _ => headers.guardToken
  | authValidate => headers.validateToken
  | roleExtraction => headers.roleToken
  | sessionMiddleware config => config.extractSessionId headers

variable {B : Type*} (state : SessionState) (now : ℤ) (req : GuardedRequest B)

/-- The consumer takes the request for one of a user: the guard lets it through, though its path is
not excluded, the token is called valid, a role is found, or the handler is given a session. -/
def Authenticates : Consumer → Prop
  | requireAuth redirectTo exclude =>
    ¬ RouteGuard.Excluded exclude req.path ∧
      (RouteGuard.requireAuth redirectTo exclude).check req (some (.persistent state)) = .ok .allow
  | authValidate =>
    handleAuthValidate (.persistent state) req.headers = .ok "\x7b\"valid\":true\x7d"
  | roleExtraction => (extractRoleFromRequest (some (.persistent state)) req.headers).isSome
  | sessionMiddleware config =>
    ∃ stored session, extractSession config (PersistentSessionStore.get state) now stored
      req.headers = .ok (some session)

/-- An expired session is not accepted: the consumer checks the expiry, the path is excluded from
the guard, or the session has no role to be found. -/
def Refuses (session : Session) : Consumer → Prop
  | requireAuth _ exclude => RouteGuard.Excluded exclude req.path
  | authValidate => False
  | roleExtraction => session.getText "role" = none
  | sessionMiddleware _ => True

variable {state now req}

/-- A consumer refuses an expired session exactly when it is the middleware, a guard that the path
is excluded from, or the reader of the role of a session that has none. -/
theorem refuses_iff {consumer : Consumer} {id : String} {session : Session}
    (htoken : consumer.token req.headers = some id)
    (hget : PersistentSessionStore.get state id = some session)
    (hexpired : session.expiresAt ≤ now) :
    ¬ consumer.Authenticates state now req ↔ consumer.Refuses req session := by
  cases consumer with
  | requireAuth redirectTo exclude =>
    have htoken : req.headers.guardToken = some id := htoken
    by_cases hexcluded : RouteGuard.Excluded exclude req.path
    · exact iff_of_true (fun h ↦ h.1 hexcluded) hexcluded
    · refine iff_of_false (fun h ↦ h ⟨hexcluded, ?_⟩) hexcluded
      refine (RouteGuard.checkAuth_eq_allow req hexcluded redirectTo).mpr ?_
      rw [htoken, Option.bind_some, hget]
      rfl
  | authValidate =>
    have htoken : req.headers.validateToken = some id := htoken
    refine iff_of_false (fun h ↦ h ?_) fun h ↦ h
    show Except.ok (if _ then _ else _) = _
    rw [htoken, Option.bind_some, hget]
    rfl
  | roleExtraction =>
    have htoken : req.headers.roleToken = some id := htoken
    have hrole : extractRoleFromRequest (some (.persistent state)) req.headers =
        session.getText "role" := by
      show (req.headers.roleToken.bind (PersistentSessionStore.get state)).bind _ = _
      rw [htoken, Option.bind_some, hget]
      rfl
    show ¬ (extractRoleFromRequest _ _).isSome = true ↔ session.getText "role" = none
    rw [hrole, Option.not_isSome_iff_eq_none]
  | sessionMiddleware config =>
    refine iff_of_true ?_ trivial
    rintro ⟨stored, other, hextract⟩
    obtain ⟨id', hid, hfind, hlive⟩ := live_of_extractSession hextract
    have htoken : config.extractSessionId req.headers = some id := htoken
    rw [htoken] at hid
    obtain rfl := Option.some.inj hid
    rw [hget] at hfind
    obtain rfl := Option.some.inj hfind
    exact absurd hexpired (not_le.mpr hlive)

/-! ### A session that has expired -/

section Expired

/-- Alice's session, which expires at 100. -/
def sampleSession : SessionData where
  id := "a1b2"
  userId := "alice"
  role := "admin"
  expiresAt := 100
  data := (∅ : DataMap).insert "role" (.string "admin")

def sampleSessions : SessionState := (∅ : SessionState).insert "a1b2" sampleSession

/-- A request with the token of that session. -/
def sampleRequest : GuardedRequest Unit where
  method := .get
  path := "/admin/users"
  headers := ⟨some "Bearer a1b2", none⟩
  rest := ()

theorem get_sampleSessions :
    PersistentSessionStore.get sampleSessions "a1b2" = some sampleSession.toSession := by
  unfold PersistentSessionStore.get sampleSessions
  rw [Finmap.lookup_insert]
  rfl

theorem guardToken_sampleRequest : sampleRequest.headers.guardToken = some "a1b2" := by decide

/-- The guard lets a request with the token of an expired session through. -/
theorem expired_session_accepted :
    ¬ ∀ (consumer : Consumer) (state : SessionState) (now : ℤ) (req : GuardedRequest Unit)
      (id : String) (session : Session), consumer.token req.headers = some id →
        PersistentSessionStore.get state id = some session → session.expiresAt ≤ now →
          ¬ consumer.Authenticates state now req := by
  intro h
  refine h (.requireAuth none []) sampleSessions 200 sampleRequest "a1b2" sampleSession.toSession
    guardToken_sampleRequest get_sampleSessions (by decide) ⟨by decide, ?_⟩
  refine (RouteGuard.checkAuth_eq_allow sampleRequest (by decide) none).mpr ?_
  rw [guardToken_sampleRequest, Option.bind_some, get_sampleSessions]
  rfl

/-- The guard and its exclusions at that request. -/
theorem refuses_iff_sampleRequest :
    ¬ (requireAuth none ["/admin/login"]).Authenticates sampleSessions 200 sampleRequest ↔
      (requireAuth none ["/admin/login"]).Refuses sampleRequest sampleSession.toSession :=
  refuses_iff guardToken_sampleRequest get_sampleSessions (by decide)

end Expired

end Consumer

end Lithair.App
