import Lithair.Lib.Text
import Lithair.Session.PersistentStore

/-!
# Tokens and the session middleware

How a request presents the id of a session: in the header `Authorization` behind `Bearer `, or in a
cookie. `route_guard.rs`, `builder.rs`, `declarative.rs` and `session/middleware.rs` read it in four
ways, which differ in the order of the two, in the name of the cookie, and in the white space that
they take away.

Behind these is `extract_session` of the middleware, which looks up the session, deletes it when it
is expired, and otherwise touches it and writes it back. The store finds an expired session as any
other.
-/

namespace Lithair.Sessions

open Lithair.Lib.Text

/-! ### Tokens -/

/-- The headers that a token is read from, where they are there and their value is text. -/
structure TokenHeaders where
  authorization : Option String
  cookie : Option String

namespace TokenHeaders

variable (headers : TokenHeaders)

/-- What is behind `Bearer ` in the header `Authorization`. -/
def bearer : Option (List Char) :=
  headers.authorization.bind fun text ↦ stripPrefix "Bearer ".toList text.toList

/-- The first cookie with the name `session_token`, with the white space around it. -/
def sessionTokenCookie : Option (List Char) :=
  headers.cookie.bind fun cookies ↦ (cookies.toList.splitOn ';').find? fun cookie ↦
    "session_token=".toList.isPrefixOf (trim cookie)

/-- The token of a route guard. -/
def guardToken : Option String :=
  (headers.bearer <|> headers.sessionTokenCookie.bind fun cookie ↦
    stripPrefix "session_token=".toList (trim cookie)).map String.ofList

/-- The token of `/auth/validate`, which goes up to the next equals sign in a cookie. -/
def validateToken : Option String :=
  (headers.bearer <|> headers.sessionTokenCookie.bind fun cookie ↦ (cookie.splitOn '=')[1]?).map
    String.ofList

/-- The token of a declarative handler, which reads no cookie. -/
def roleToken : Option String := (headers.bearer.map trim).map String.ofList

end TokenHeaders

/-! ### Sessions and their expiry -/

/-- A session that is read from the persistent store. -/
def SessionData.toSession (data : SessionData) : Session where
  id := data.id
  data := data.data
  expiresAt := data.expiresAt

/-- `PersistentSessionStore::get`. -/
def PersistentSessionStore.get (state : SessionState) (id : String) : Option Session :=
  (state.lookup id).map SessionData.toSession

def Session.isExpired (session : Session) (now : ℤ) : Bool := decide (session.expiresAt ≤ now)

/-! ### The middleware -/

structure SessionConfig where
  cookieEnabled : Bool
  bearerEnabled : Bool
  cookieName : String

/-- The value of the first cookie with the configured name. -/
def SessionConfig.extractFromHeader (config : SessionConfig) (header : String) :
    Option (List Char) :=
  (header.toList.splitOn ';').findSome? fun cookie ↦
    stripPrefix (config.cookieName ++ "=").toList (trim cookie)

/-- The token of the middleware: the cookie goes first. -/
def SessionConfig.extractSessionId (config : SessionConfig) (headers : TokenHeaders) :
    Option String :=
  ((if config.cookieEnabled then headers.cookie.bind config.extractFromHeader else none) <|>
    (if config.bearerEnabled then headers.bearer.map trim else none)).map String.ofList

/-- What the middleware makes of the session that the store finds: there is nothing to do, it
deletes the session, or it writes it back and gives it to the handler. -/
inductive Found
  | nothing
  | expired (id : String)
  | live (session : Session)

def Found.ofGet (now : ℤ) (id : String) : Option Session → Found
  | none => .nothing
  | some session => if session.isExpired now then .expired id else .live session

/-- `extract_session` over a store that finds sessions with `find`; `stored` says whether the store
takes what is written. -/
def extractSession (config : SessionConfig) (find : String → Option Session) (now : ℤ)
    (stored : Bool) (headers : TokenHeaders) : Except String (Option Session) :=
  match config.extractSessionId headers with
  | none => .ok none
  | some id =>
    match Found.ofGet now id (find id) with
    | .nothing => .ok none
    | .expired _ => if stored then .ok none else .error "store"
    | .live session => if stored then .ok (some session) else .error "store"

theorem Found.live_of_ofGet {now : ℤ} {id : String} {found : Option Session} {session : Session}
    (h : Found.ofGet now id found = .live session) :
    found = some session ∧ now < session.expiresAt := by
  cases found with
  | none => exact absurd h Found.noConfusion
  | some other =>
    unfold Found.ofGet Session.isExpired at h
    simp only [decide_eq_true_eq] at h
    split_ifs at h with hexpired
    obtain rfl := Found.live.inj h
    exact ⟨rfl, not_le.mp hexpired⟩

/-- A session that the middleware gives to a handler is there and not expired. -/
theorem live_of_extractSession {config : SessionConfig} {find : String → Option Session} {now : ℤ}
    {stored : Bool} {headers : TokenHeaders} {session : Session}
    (h : extractSession config find now stored headers = .ok (some session)) :
    ∃ id, config.extractSessionId headers = some id ∧ find id = some session ∧
      now < session.expiresAt := by
  unfold extractSession at h
  split at h
  · exact absurd (Except.ok.inj h) (Option.some_ne_none session).symm
  · next id hid =>
    split at h
    · exact absurd (Except.ok.inj h) (Option.some_ne_none session).symm
    · split_ifs at h
      exact absurd (Except.ok.inj h) (Option.some_ne_none session).symm
    · next found hfound =>
      split_ifs at h
      obtain rfl := Option.some.inj (Except.ok.inj h)
      exact ⟨id, hid, Found.live_of_ofGet hfound⟩

end Lithair.Sessions
