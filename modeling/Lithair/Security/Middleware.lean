import Lithair.Http.Connection
import Lithair.Security.Core

/-!
# Sessions and tokens

A login checks a password, opens a session for the user and hands out a signed token that names the
user and the session. A request that brings a token is checked against the two tables of the state:
the session must be there and not have expired, and the user must be there. What the state is after
any sequence of security events, logins and logouts is said in terms of that sequence
(`session_run_iff`, `isActive_run_iff`), and with it which of the accepted tokens are the ones they
should be (`tokenSound_run_iff`): nothing compares the user of the token with the user of the
session, and nothing asks whether the user has been deleted.
-/

namespace Lithair.Security.Middleware

open Security.Core Lib.History Lib.Text Lib.Utf8 Http
open Http.Server (bind_eq_ok)

/-- What is used of base64url, of HMAC-SHA256 and of Argon2. -/
structure Crypto where
  encode : List UInt8 → List Char
  decode : List Char → Option (List UInt8)
  mac : List UInt8 → List UInt8 → List UInt8
  /-- The password is the one of the hash; a hash that is not one is refused. -/
  verifyPassword : String → String → Bool
  decode_encode : ∀ bytes, decode (encode bytes) = some bytes
  dot_notMem_encode : ∀ bytes, '.' ∉ encode bytes
  exists_hash : ∀ password, ∃ hash, verifyPassword password hash = true

theorem toNat_ofNat_byte (b : UInt8) : (Char.ofNat (256 + b.toNat)).toNat = 256 + b.toNat := by
  have hvalid : (256 + b.toNat).isValidChar := Or.inl (by have := b.toNat_lt; omega)
  rw [Char.ofNat, dif_pos hvalid]
  rfl

/-- The laws can be met: bytes as characters above them, and passwords that are their own hash. -/
instance : Inhabited Crypto where
  default :=
    { encode := fun bytes ↦ bytes.map fun b ↦ Char.ofNat (256 + b.toNat)
      decode := fun text ↦ some (text.map fun c ↦ UInt8.ofNat (c.toNat - 256))
      mac := fun _ message ↦ message
      verifyPassword := fun password hash ↦ password == hash
      decode_encode := by
        intro bytes
        simp [Function.comp_def, toNat_ofNat_byte]
      dot_notMem_encode := by
        intro bytes hmem
        obtain ⟨b, -, hb⟩ := List.mem_map.mp hmem
        have hdot := congrArg Char.toNat hb
        rw [toNat_ofNat_byte] at hdot
        exact absurd hdot (Nat.ne_of_gt (Nat.lt_of_lt_of_le (by decide) (Nat.le_add_right 256 _)))
      exists_hash := fun password ↦ ⟨password, beq_self_eq_true password⟩ }

structure JwtClaims where
  user_id : UserId
  session_id : SessionId
  exp : ℕ
  iat : ℕ

structure RBACMiddleware where
  jwt_secret : String
  session_timeout : ℕ

/-- A middleware with the timeout of one day. -/
def RBACMiddleware.new (jwt_secret : String) : RBACMiddleware := ⟨jwt_secret, 24 * 60 * 60⟩

/-! ### Claims -/

/-- What is behind the first `"key":` of a text, followed by `mark`. -/
def behindKey (json : List Char) (key mark : String) : Option (List Char) :=
  let pattern := '"' :: key.toList ++ '"' :: ':' :: mark.toList
  (fromFirst pattern json).map (·.drop pattern.length)

/-- A number ends at a comma or, where there is none, at a brace. -/
def extractJsonNumber (json : List Char) (key : String) : Option ℕ :=
  (behindKey json key "").bind fun rest ↦
    parseU64 (trim (if ',' ∈ rest then rest.takeWhile (· ≠ ',') else rest.takeWhile (· ≠ '\x7d')))

/-- A text ends at a quotation mark; where there is none it is empty. -/
def extractJsonString (json : List Char) (key : String) : Option (List Char) :=
  (behindKey json key "\"").map fun rest ↦ if '"' ∈ rest then rest.takeWhile (· ≠ '"') else []

def parseJwtClaims (payload : List Char) : Except SecurityError JwtClaims :=
  match extractJsonNumber payload "user_id", extractJsonString payload "session_id",
    extractJsonNumber payload "exp", extractJsonNumber payload "iat" with
  | some user_id, some session_id, some exp, some iat =>
    -- The number is cut to 32 bits.
    .ok ⟨user_id.toUInt32, String.ofList session_id, exp, iat⟩
  | _, _, _, _ => .error .invalidToken

def decimal (n : ℕ) : List Char := Nat.toDigits 10 n

def jwtHeader : List Char := "\x7b\"alg\":\"HS256\",\"typ\":\"JWT\"\x7d".toList

def jwtPayload (claims : JwtClaims) : List Char :=
  "\x7b\"user_id\":".toList ++ decimal claims.user_id.toNat ++ ",\"session_id\":\"".toList ++
    claims.session_id.toList ++ "\",\"exp\":".toList ++ decimal claims.exp ++ ",\"iat\":".toList ++
    decimal claims.iat ++ "\x7d".toList

theorem isDigit_of_mem_decimal {n : ℕ} {c : Char} (h : c ∈ decimal n) : c.isDigit = true :=
  Nat.isDigit_of_mem_toDigits (by decide) (by decide) h

theorem notMem_decimal {n : ℕ} {c : Char} (hc : c.isDigit = false) : c ∉ decimal n := by
  intro h
  rw [isDigit_of_mem_decimal h] at hc
  exact absurd hc (by decide)

theorem isWhitespace_of_isDigit {c : Char} (h : c.isDigit = true) : isWhitespace c = false := by
  simp only [Char.isDigit, Bool.and_eq_true, decide_eq_true_eq, ge_iff_le] at h
  have hlow : '0'.toNat ≤ c.toNat := UInt32.le_iff_toNat_le.mp h.1
  have hhigh : c.toNat ≤ '9'.toNat := UInt32.le_iff_toNat_le.mp h.2
  have hzero : '0'.toNat = 48 := by decide
  have hnine : '9'.toNat = 57 := by decide
  simp [isWhitespace]
  omega

/-- A number is read back from its digits. -/
theorem parseU64_decimal {n : ℕ} (hn : n < 2 ^ 64) : parseU64 (trim (decimal n)) = some n := by
  have htrim : trim ([] ++ (decimal n ++ [])) = decimal n :=
    trim_padded (by simp) (by simp)
      (fun c hc ↦ isWhitespace_of_isDigit (isDigit_of_mem_decimal (List.mem_of_head? hc)))
      (fun c hc ↦ isWhitespace_of_isDigit (isDigit_of_mem_decimal (List.mem_of_getLast? hc)))
  have hsign : withoutSign (decimal n) = decimal n := by
    have hplus : '+' ∉ decimal n := notMem_decimal (by decide)
    unfold withoutSign
    split
    · next digits heq => exact absurd (heq ▸ List.mem_cons_self) hplus
    · rfl
  have hall : (decimal n).all Char.isDigit = true :=
    List.all_eq_true.mpr fun c hc ↦ isDigit_of_mem_decimal hc
  have hnil : decimal n ≠ [] := Nat.toDigits_ne_nil
  have hread : Nat.ofDigitChars 10 (decimal n) 0 = n := Nat.ofDigitChars_ten_toDigits
  rw [List.nil_append, List.append_nil] at htrim
  rw [htrim, parseU64, hsign, hall, hread, if_neg (by simp [hnil]), Option.filter_some_pos]
  exact decide_eq_true hn

theorem behindKey_skip {before json : List Char} {key mark : String} (h : '"' ∉ before) :
    behindKey (before ++ json) key mark = behindKey json key mark := by
  simp only [behindKey, List.cons_append, fromFirst_append h]

theorem behindKey_found (key mark : String) (rest : List Char) :
    behindKey ('"' :: (key.toList ++ '"' :: ':' :: (mark.toList ++ rest))) key mark =
      some rest := by
  have hsplit : '"' :: (key.toList ++ '"' :: ':' :: (mark.toList ++ rest)) =
      ('"' :: key.toList ++ '"' :: ':' :: mark.toList) ++ rest := by simp
  have hfirst : ('"' :: key.toList ++ '"' :: ':' :: mark.toList).isPrefixOf
      ('"' :: (key.toList ++ '"' :: ':' :: (mark.toList ++ rest))) = true := by
    rw [hsplit]
    exact List.isPrefixOf_iff_prefix.mpr (List.prefix_append _ _)
  rw [behindKey, fromFirst, if_pos hfirst, Option.map_some, hsplit, List.drop_left]

/-- Quoted text that is not the key, or that no colon follows, is passed over. -/
theorem behindKey_pass {piece rest : List Char} {key mark : String} (hpiece : '"' ∉ piece)
    (hkey : '"' ∉ key.toList) (h : piece ≠ key.toList ∨ rest.head? ≠ some ':') :
    behindKey ('"' :: (piece ++ '"' :: rest)) key mark = behindKey ('"' :: rest) key mark := by
  have hnot : ¬ ('"' :: key.toList ++ '"' :: ':' :: mark.toList).isPrefixOf
      ('"' :: (piece ++ '"' :: rest)) = true := by
    intro hprefix
    obtain ⟨tail, htail⟩ := List.isPrefixOf_iff_prefix.mp hprefix
    have hsame : key.toList ++ '"' :: (':' :: mark.toList ++ tail) = piece ++ '"' :: rest := by
      simpa using htail
    obtain ⟨hname, hrest⟩ := Lib.Framing.split_firstMark hkey hpiece hsame
    rcases h with h | h
    · exact h hname.symm
    · exact h (by rw [← hrest]; rfl)
  have hstep : fromFirst ('"' :: key.toList ++ '"' :: ':' :: mark.toList)
      ('"' :: (piece ++ '"' :: rest)) =
        fromFirst ('"' :: key.toList ++ '"' :: ':' :: mark.toList) ('"' :: rest) := by
    rw [fromFirst, if_neg hnot, List.cons_append, fromFirst_append hpiece]
  rw [behindKey, hstep, behindKey]

/-- The payload, cut at its quotation marks. -/
theorem jwtPayload_eq (claims : JwtClaims) :
    jwtPayload claims = ['\x7b'] ++ '"' :: ("user_id".toList ++
      '"' :: ((':' :: decimal claims.user_id.toNat ++ [',']) ++ '"' :: ("session_id".toList ++
      '"' :: ([':'] ++ '"' :: (claims.session_id.toList ++
      '"' :: ([','] ++ '"' :: ("exp".toList ++
      '"' :: ((':' :: decimal claims.exp ++ [',']) ++ '"' :: ("iat".toList ++
      '"' :: (':' :: decimal claims.iat ++ ['\x7d'])))))))))) := by
  unfold jwtPayload
  generalize decimal claims.user_id.toNat = user_id
  generalize decimal claims.exp = exp
  generalize decimal claims.iat = iat
  generalize claims.session_id.toList = session_id
  simp

theorem extractJsonNumber_comma {json : List Char} {key : String} {n : ℕ} (hn : n < 2 ^ 64)
    (h : ∃ rest, behindKey json key "" = some (decimal n ++ ',' :: rest)) :
    extractJsonNumber json key = some n := by
  obtain ⟨rest, h⟩ := h
  have hcomma : ∀ c ∈ decimal n, decide (c ≠ ',') = true := fun c hc ↦
    decide_eq_true fun heq ↦ notMem_decimal (by decide) (heq ▸ hc)
  have hmem : ',' ∈ decimal n ++ ',' :: rest := List.mem_append_right _ List.mem_cons_self
  rw [extractJsonNumber, h, Option.bind_some, if_pos hmem, List.takeWhile_append_of_pos hcomma,
    List.takeWhile_cons_of_neg (by decide), List.append_nil, parseU64_decimal hn]

theorem extractJsonNumber_brace {json : List Char} {key : String} {n : ℕ} (hn : n < 2 ^ 64)
    (h : behindKey json key "" = some (decimal n ++ ['\x7d'])) :
    extractJsonNumber json key = some n := by
  have hbrace : ∀ c ∈ decimal n, decide (c ≠ '\x7d') = true := fun c hc ↦
    decide_eq_true fun heq ↦ notMem_decimal (by decide) (heq ▸ hc)
  have hmem : ',' ∉ decimal n ++ ['\x7d'] := by
    rw [List.mem_append, not_or]
    exact ⟨notMem_decimal (by decide), by decide⟩
  rw [extractJsonNumber, h, Option.bind_some, if_neg hmem, List.takeWhile_append_of_pos hbrace,
    List.takeWhile_cons_of_neg (by decide), List.append_nil, parseU64_decimal hn]

theorem extractJsonString_of_behindKey {json text : List Char} {key : String} (htext : '"' ∉ text)
    (h : ∃ rest, behindKey json key "\"" = some (text ++ '"' :: rest)) :
    extractJsonString json key = some text := by
  obtain ⟨rest, h⟩ := h
  have hquote : ∀ c ∈ text, decide (c ≠ '"') = true := fun c hc ↦
    decide_eq_true fun heq ↦ htext (heq ▸ hc)
  have hmem : '"' ∈ text ++ '"' :: rest := List.mem_append_right _ List.mem_cons_self
  rw [extractJsonString, h, Option.map_some, if_pos hmem, List.takeWhile_append_of_pos hquote,
    List.takeWhile_cons_of_neg (by decide), List.append_nil]

/-- A number between two names is passed over. -/
theorem behindKey_pass_number {n : ℕ} {rest : List Char} {key mark : String}
    (hkey : '"' ∉ key.toList) (hcolon : ':' ∉ key.toList) :
    behindKey ('"' :: ((':' :: decimal n ++ [',']) ++ '"' :: rest)) key mark =
      behindKey ('"' :: rest) key mark := by
  refine behindKey_pass ?_ hkey (Or.inl fun heq ↦ hcolon (heq ▸ List.mem_cons_self))
  rw [List.cons_append, List.mem_cons, List.mem_append, not_or, not_or]
  exact ⟨by decide, notMem_decimal (by decide), by decide⟩

/-- The user and the session of a payload are passed over. -/
theorem behindKey_jwtPayload {claims : JwtClaims} (hid : '"' ∉ claims.session_id.toList)
    {key mark : String} (hkey : '"' ∉ key.toList) (hcolon : ':' ∉ key.toList)
    (hcomma : ',' ∉ key.toList) (huser : "user_id".toList ≠ key.toList)
    (hsession : "session_id".toList ≠ key.toList) :
    behindKey (jwtPayload claims) key mark =
      behindKey ('"' :: ("exp".toList ++
        '"' :: ((':' :: decimal claims.exp ++ [',']) ++ '"' :: ("iat".toList ++
        '"' :: (':' :: decimal claims.iat ++ ['\x7d']))))) key mark := by
  have hmark {c : Char} (h : c ∉ key.toList) : [c] ≠ key.toList := fun heq ↦
    h (heq ▸ List.mem_singleton_self c)
  rw [jwtPayload_eq, behindKey_skip (by decide), behindKey_pass (by decide) hkey (Or.inl huser),
    behindKey_pass_number hkey hcolon, behindKey_pass (by decide) hkey (Or.inl hsession),
    behindKey_pass (by decide) hkey (Or.inl (hmark hcolon)),
    behindKey_pass hid hkey (Or.inr (by simp)),
    behindKey_pass (by decide) hkey (Or.inl (hmark hcomma))]

/-- The claims of a payload are read back from it, when no quotation mark ends the session
identifier early. -/
theorem parseJwtClaims_jwtPayload {claims : JwtClaims} (hid : '"' ∉ claims.session_id.toList)
    (hexp : claims.exp < 2 ^ 64) (hiat : claims.iat < 2 ^ 64) :
    parseJwtClaims (jwtPayload claims) = .ok claims := by
  have huser : extractJsonNumber (jwtPayload claims) "user_id" = some claims.user_id.toNat := by
    refine extractJsonNumber_comma (claims.user_id.toNat_lt.trans (by decide)) ?_
    rw [jwtPayload_eq, behindKey_skip (by decide), List.append_assoc, List.cons_append]
    exact ⟨_, behindKey_found "user_id" "" _⟩
  have hsession : extractJsonString (jwtPayload claims) "session_id" =
      some claims.session_id.toList := by
    refine extractJsonString_of_behindKey hid ?_
    rw [jwtPayload_eq, behindKey_skip (by decide),
      behindKey_pass (by decide) (by decide) (Or.inl (by decide)),
      behindKey_pass_number (by decide) (by decide)]
    exact ⟨_, behindKey_found "session_id" "\"" _⟩
  have hexp' : extractJsonNumber (jwtPayload claims) "exp" = some claims.exp := by
    refine extractJsonNumber_comma hexp ?_
    rw [behindKey_jwtPayload hid (by decide) (by decide) (by decide) (by decide) (by decide),
      List.append_assoc, List.cons_append]
    exact ⟨_, behindKey_found "exp" "" _⟩
  have hiat' : extractJsonNumber (jwtPayload claims) "iat" = some claims.iat := by
    refine extractJsonNumber_brace hiat ?_
    rw [behindKey_jwtPayload hid (by decide) (by decide) (by decide) (by decide) (by decide),
      behindKey_pass (by decide) (by decide) (Or.inl (by decide)),
      behindKey_pass_number (by decide) (by decide)]
    exact behindKey_found "iat" "" _
  rw [parseJwtClaims, huser, hsession, hexp', hiat']
  simp

namespace RBACMiddleware

variable (mw : RBACMiddleware) (crypto : Crypto)

/-- The end of a session that starts now; the sum is one of 64 bits. -/
def expiry (now : ℕ) : ℕ := (now + mw.session_timeout) % 2 ^ 64

/-- The signature of a header and a payload. -/
def tag (header payload : List Char) : List UInt8 :=
  crypto.mac (utf8 mw.jwt_secret.toList) (utf8 (header ++ '.' :: payload))

def createJwtToken (user_id : UserId) (session_id : SessionId) (now : ℕ) : String :=
  let header := crypto.encode (utf8 jwtHeader)
  let payload := crypto.encode (utf8 (jwtPayload ⟨user_id, session_id, mw.expiry now, now⟩))
  String.ofList (header ++ '.' :: payload ++ '.' :: crypto.encode (mw.tag crypto header payload))

def verifyJwtSignature (header payload signature : List Char) : Except SecurityError Unit :=
  match crypto.decode signature with
  | some bytes =>
    if bytes = mw.tag crypto header payload then .ok () else .error .invalidToken
  | none => .error .invalidToken

def validateJwt (token : String) (now : ℕ) : Except SecurityError JwtClaims :=
  match token.toList.splitOn '.' with
  | [header, payload, signature] => do
    mw.verifyJwtSignature crypto header payload signature
    match (crypto.decode payload).bind fromUtf8 with
    | none => .error .invalidToken
    | some text => do
      let claims ← parseJwtClaims text
      if claims.exp < now then .error .sessionExpired else .ok claims
  | _ => .error .invalidToken

end RBACMiddleware

section State

variable {P : Type} [DecidableEq P]

def validateSession (state : SecurityState P) (session_id : SessionId) (now : ℕ) :
    Except SecurityError Session :=
  match state.active_sessions session_id with
  | none => .error .sessionExpired
  | some session => if session.expires_at < now then .error .sessionExpired else .ok session

def getUserContext (state : SecurityState P) (user_id : UserId) :
    Except SecurityError (Option UInt32 × Option UInt32) :=
  match state.users user_id with
  | none => .error .userNotFound
  | some user => .ok (user.team_id, user.organization_id)

/-- The clock is read twice. -/
def RBACMiddleware.authenticateToken (mw : RBACMiddleware) (crypto : Crypto)
    (state : SecurityState P) (token : String) (now₁ now₂ : ℕ) :
    Except SecurityError (AuthContext P) := do
  let claims ← mw.validateJwt crypto token now₁
  let _ ← validateSession state claims.session_id now₂
  let permissions := state.getUserPermissions claims.user_id
  let (team_id, organization_id) ← getUserContext state claims.user_id
  .ok ⟨claims.user_id, claims.session_id, permissions, team_id, organization_id⟩

/-- The user that the values of the map, in the order it gives them, have first with this address
among the active ones, when the password is theirs. -/
def checkCredentials (crypto : Crypto) (state : SecurityState P) (order : List UserId)
    (email password : String) : Except SecurityError User :=
  match (order.filterMap state.users).find? fun user ↦ user.email == email && user.is_active with
  | none => .error .invalidCredentials
  | some user =>
    if crypto.verifyPassword password user.password_hash then .ok user
    else .error .invalidCredentials

/-- A login: its credentials, the session identifier that is drawn for it, and the clock. -/
structure Login where
  /-- The order in which the map gives its users. -/
  order : List UserId
  email : String
  password : String
  ip_address : String
  user_agent : String
  uuid : String
  now : ℕ
  /-- The clock when the token is made. -/
  tokenNow : ℕ

/-- The identifier drawn for the session. -/
def Login.sessionId (login : Login) : SessionId := "sess_" ++ login.uuid

/-- The session that a login opens, and its user. -/
def RBACMiddleware.openSession (mw : RBACMiddleware) (crypto : Crypto) (state : SecurityState P)
    (login : Login) : Except SecurityError (User × Session) := do
  let user ← checkCredentials crypto state login.order login.email login.password
  .ok (user, ⟨login.sessionId, user.id, login.now, mw.expiry login.now, login.now,
    login.ip_address, login.user_agent⟩)

/-- The token and the context a login returns, and the state it leaves. -/
def RBACMiddleware.authenticateUser (mw : RBACMiddleware) (crypto : Crypto)
    (state : SecurityState P) (login : Login) :
    Except SecurityError (String × AuthContext P) × SecurityState P :=
  match mw.openSession crypto state login with
  | .error e => (.error e, state)
  | .ok (user, session) =>
    (.ok (mw.createJwtToken crypto user.id session.id login.tokenNow,
      ⟨user.id, session.id, state.getUserPermissions user.id, user.team_id, user.organization_id⟩),
      { state with active_sessions := Function.update state.active_sessions session.id session })

def logoutUser (state : SecurityState P) (session_id : SessionId) :
    Except SecurityError Unit × SecurityState P :=
  match state.active_sessions session_id with
  | some _ => (.ok (),
      { state with active_sessions := Function.update state.active_sessions session_id none })
  | none => (.error .sessionExpired, state)

end State

/-! ### Runs -/

/-- What happens to the security state. -/
inductive Operation (P : Type)
  | event (event : SecurityEvent P)
  /-- The application writes the fields of a user that no event writes. -/
  | setUser (user_id : UserId) (password_hash : String) (team_id organization_id : Option UInt32)
  | authenticateUser (login : Login)
  | logoutUser (session_id : SessionId)

namespace Operation

variable {P : Type}

def Creates (user_id : UserId) : Operation P → Prop
  | .event (.userCreated user _ _ _ _) => user = user_id
  | _ => False

def Deletes (user_id : UserId) : Operation P → Prop
  | .event (.userDeleted user _ _) => user = user_id
  | _ => False

/-- The session ends, if there is one with this identifier. -/
def Closes (session_id : SessionId) : Operation P → Prop
  | .event (.userLoggedOut _ session _) => session = session_id
  | .logoutUser session => session = session_id
  | _ => False

variable [DecidableEq P] (mw : RBACMiddleware) (crypto : Crypto)

def apply (state : SecurityState P) : Operation P → SecurityState P
  | .event e => state.applySecurityEvent e
  | .setUser user_id password_hash team_id organization_id =>
    state.modifyUser user_id fun user ↦
      { user with
        password_hash := password_hash, team_id := team_id, organization_id := organization_id }
  | .authenticateUser login => (mw.authenticateUser crypto state login).2
  | .logoutUser session_id => (Middleware.logoutUser state session_id).2

/-- The state after these operations, from the empty one. -/
def run (operations : List (Operation P)) : SecurityState P :=
  operations.foldl (apply mw crypto) SecurityState.default

/-- The session that the operation opens in a state. -/
def opened (state : SecurityState P) : Operation P → Option Session
  | .authenticateUser login => (mw.openSession crypto state login).toOption.map Prod.snd
  | _ => none

end Operation

section Runs

variable {P : Type} [DecidableEq P] (mw : RBACMiddleware) (crypto : Crypto)

/-- The session was last opened for this user, not closed since, and has not expired. -/
def OpenedFor (session_id : SessionId) (user_id : UserId) (now : ℕ) :
    List (Operation P) → Prop :=
  Latest
    (fun before op ↦ op.Closes session_id ∨
      ∃ session, op.opened mw crypto (Operation.run mw crypto before) = some session ∧
        session.id = session_id)
    fun before op ↦ ∃ session, op.opened mw crypto (Operation.run mw crypto before) = some session ∧
      session.id = session_id ∧ session.user_id = user_id ∧ now ≤ session.expires_at

/-- The user has been created. -/
def UserCreated (user_id : UserId) (operations : List (Operation P)) : Prop :=
  ∃ op ∈ operations, op.Creates user_id

/-- The user has been created and not deleted since. -/
def UserActive (user_id : UserId) : List (Operation P) → Prop :=
  Latest (fun _ op ↦ op.Creates user_id ∨ op.Deletes user_id) fun _ op ↦ op.Creates user_id

/-- What one operation makes of a session. -/
theorem session_apply (state : SecurityState P) (op : Operation P) (session_id : SessionId)
    (Q : Session → Prop) :
    (∃ session, (op.apply mw crypto state).active_sessions session_id = some session ∧
        Q session) ↔
      (∃ session, op.opened mw crypto state = some session ∧ session.id = session_id ∧ Q session) ∨
        (¬ (op.Closes session_id ∨
          ∃ session, op.opened mw crypto state = some session ∧ session.id = session_id) ∧
          ∃ session, state.active_sessions session_id = some session ∧ Q session) := by
  cases op with
  | event event =>
    cases event with
    | userLoggedOut user session _ =>
      by_cases hsession : session = session_id
      · subst hsession
        simp [Operation.apply, SecurityState.applySecurityEvent, Operation.opened,
          Operation.Closes]
      · simp [Operation.apply, SecurityState.applySecurityEvent, Operation.opened,
          Operation.Closes, hsession, Function.update_of_ne (Ne.symm hsession)]
    | _ =>
      simp [Operation.apply, SecurityState.applySecurityEvent, Operation.opened, Operation.Closes,
        SecurityState.modifyUser, SecurityState.setOwner]
  | setUser user _ _ _ =>
    simp [Operation.apply, Operation.opened, Operation.Closes, SecurityState.modifyUser]
  | authenticateUser login =>
    cases hopen : mw.openSession crypto state login with
    | error e =>
      simp [Operation.apply, RBACMiddleware.authenticateUser, Operation.opened, Operation.Closes,
        hopen, Except.toOption]
    | ok found =>
      obtain ⟨user, session⟩ := found
      by_cases hsession : session.id = session_id
      · subst hsession
        simp [Operation.apply, RBACMiddleware.authenticateUser, Operation.opened,
          Operation.Closes, hopen, Except.toOption]
      · simp [Operation.apply, RBACMiddleware.authenticateUser, Operation.opened,
          Operation.Closes, hopen, Except.toOption, hsession,
          Function.update_of_ne (Ne.symm hsession)]
  | logoutUser session =>
    by_cases hsession : session = session_id
    · subst hsession
      cases hactive : state.active_sessions session with
      | none => simp [Operation.apply, logoutUser, Operation.opened, Operation.Closes, hactive]
      | some found =>
        simp [Operation.apply, logoutUser, Operation.opened, Operation.Closes, hactive]
    · cases hactive : state.active_sessions session with
      | none =>
        simp [Operation.apply, logoutUser, Operation.opened, Operation.Closes, hactive, hsession]
      | some found =>
        simp [Operation.apply, logoutUser, Operation.opened, Operation.Closes, hactive, hsession,
          Function.update_of_ne (Ne.symm hsession)]

theorem session_run_iff (operations : List (Operation P)) (session_id : SessionId)
    (user_id : UserId) (now : ℕ) :
    (∃ session, (Operation.run mw crypto operations).active_sessions session_id = some session ∧
        session.user_id = user_id ∧ now ≤ session.expires_at) ↔
      OpenedFor mw crypto session_id user_id now operations := by
  refine foldl_iff_latest
    (P := fun state ↦ ∃ session, SecurityState.active_sessions state session_id = some session ∧
      session.user_id = user_id ∧ now ≤ session.expires_at) ?_ ?_ operations
  · rintro ⟨session, hsession, -⟩
    exact absurd hsession nofun
  · intro earlier op
    rw [session_apply]
    refine or_congr (iff_and_self.mpr ?_) Iff.rfl
    rintro ⟨session, hopened, hid, -⟩
    exact Or.inr ⟨session, hopened, hid⟩

/-- What one operation makes of a user: a new and active one, or what was there with some fields
written, and deactivated when the operation deletes the user. -/
theorem users_apply (state : SecurityState P) (op : Operation P) (user_id : UserId) :
    (op.Creates user_id ∧ ∃ user, (op.apply mw crypto state).users user_id = some user ∧
        user.is_active = true) ∨
      (¬ op.Creates user_id ∧ ∃ f : User → User,
        (op.apply mw crypto state).users user_id = (state.users user_id).map f ∧
          ∀ user, (f user).is_active = true ↔ ¬ op.Deletes user_id ∧ user.is_active = true) := by
  have hkept (hcreates : ¬ op.Creates user_id) (hdeletes : ¬ op.Deletes user_id)
      (hsame : (op.apply mw crypto state).users user_id = state.users user_id) :
      ¬ op.Creates user_id ∧ ∃ f : User → User,
        (op.apply mw crypto state).users user_id = (state.users user_id).map f ∧
          ∀ user, (f user).is_active = true ↔ ¬ op.Deletes user_id ∧ user.is_active = true :=
    ⟨hcreates, id, by rw [hsame, Option.map_id, id], fun user ↦ (and_iff_right hdeletes).symm⟩
  cases op with
  | event e =>
    cases e with
    | userCreated user _ _ _ _ =>
      by_cases huser : user = user_id
      · subst huser
        exact Or.inl ⟨rfl, _, Function.update_self .., rfl⟩
      · exact Or.inr (hkept huser nofun (Function.update_of_ne (Ne.symm huser) ..))
    | userDeleted user _ _ =>
      refine Or.inr ⟨nofun, _, state.users_modifyUser user user_id _, fun other ↦ ?_⟩
      by_cases huser : user = user_id
      · simp [Operation.Deletes, huser]
      · simp [Operation.Deletes, huser]
    | userUpdated user _ _ _ _ | userAuthenticated user _ _ _ _ =>
      refine Or.inr ⟨nofun, _, state.users_modifyUser user user_id _, fun other ↦ ?_⟩
      by_cases huser : user = user_id
      · simp [Operation.Deletes, huser]
      · simp [Operation.Deletes, huser]
    | _ => exact Or.inr (hkept nofun nofun rfl)
  | setUser user _ _ _ =>
    refine Or.inr ⟨nofun, _, state.users_modifyUser user user_id _, fun other ↦ ?_⟩
    by_cases huser : user = user_id
    · simp [Operation.Deletes, huser]
    · simp [Operation.Deletes, huser]
  | authenticateUser login =>
    refine Or.inr (hkept nofun nofun ?_)
    cases hopen : mw.openSession crypto state login with
    | error e => simp [Operation.apply, RBACMiddleware.authenticateUser, hopen]
    | ok found => simp [Operation.apply, RBACMiddleware.authenticateUser, hopen]
  | logoutUser session =>
    refine Or.inr (hkept nofun nofun ?_)
    cases hactive : state.active_sessions session with
    | none => simp [Operation.apply, logoutUser, hactive]
    | some found => simp [Operation.apply, logoutUser, hactive]

/-- No security event opens a session. -/
theorem not_openedFor_of_events (events : List (SecurityEvent P)) (session_id : SessionId)
    (user_id : UserId) (now : ℕ) :
    ¬ OpenedFor mw crypto session_id user_id now (events.map Operation.event) := by
  rintro ⟨before, op, after, hevents, -, ⟨session, hopened, -⟩, -⟩
  have hmem : op ∈ events.map Operation.event := by
    rw [hevents]
    exact List.mem_append_right before List.mem_cons_self
  obtain ⟨e, -, rfl⟩ := List.mem_map.mp hmem
  exact absurd hopened nofun

/-- What one operation makes of there being a user. -/
theorem isSome_users_apply (state : SecurityState P) (op : Operation P) (user_id : UserId) :
    ((op.apply mw crypto state).users user_id).isSome ↔
      op.Creates user_id ∨ (state.users user_id).isSome := by
  rcases users_apply mw crypto state op user_id with
    ⟨hcreates, user, huser, -⟩ | ⟨hcreates, f, hmap, -⟩
  · simp [hcreates, huser]
  · simp [hcreates, hmap]

/-- What one operation makes of there being an active user. -/
theorem isActive_apply (state : SecurityState P) (op : Operation P) (user_id : UserId) :
    (∃ user, (op.apply mw crypto state).users user_id = some user ∧ user.is_active = true) ↔
      ((op.Creates user_id ∨ op.Deletes user_id) ∧ op.Creates user_id) ∨
        (¬ (op.Creates user_id ∨ op.Deletes user_id) ∧
          ∃ user, state.users user_id = some user ∧ user.is_active = true) := by
  rcases users_apply mw crypto state op user_id with
    ⟨hcreates, user, huser, hactive⟩ | ⟨hcreates, f, hmap, hf⟩
  · exact iff_of_true ⟨user, huser, hactive⟩ (Or.inl ⟨Or.inl hcreates, hcreates⟩)
  · rw [hmap]
    cases huser : state.users user_id with
    | none => simp [hcreates]
    | some user => simp [hcreates, hf]

theorem isSome_users_run_iff (operations : List (Operation P)) (user_id : UserId) :
    ((Operation.run mw crypto operations).users user_id).isSome ↔
      UserCreated user_id operations := by
  induction operations using List.reverseRecOn with
  | nil => simp [Operation.run, SecurityState.default, UserCreated]
  | append_singleton operations op ih =>
    have hlast : Operation.run mw crypto (operations ++ [op]) =
        op.apply mw crypto (Operation.run mw crypto operations) := by
      unfold Operation.run
      rw [List.foldl_append, List.foldl_cons, List.foldl_nil]
    rw [hlast, isSome_users_apply, ih]
    simp [UserCreated, or_and_right, exists_or, or_comm]

theorem isActive_run_iff (operations : List (Operation P)) (user_id : UserId) :
    (∃ user, (Operation.run mw crypto operations).users user_id = some user ∧
        user.is_active = true) ↔ UserActive user_id operations := by
  refine foldl_iff_latest
    (P := fun state ↦ ∃ user, SecurityState.users state user_id = some user ∧
      user.is_active = true) ?_ ?_ operations
  · rintro ⟨user, huser, -⟩
    exact absurd huser nofun
  · exact fun earlier op ↦ isActive_apply mw crypto (Operation.run mw crypto earlier) op user_id

end Runs

/-! ### Accepted tokens -/

/-- The token is signed with the secret, carries these claims, and has not expired. -/
def Vouches (mw : RBACMiddleware) (crypto : Crypto) (token : String) (now : ℕ)
    (claims : JwtClaims) : Prop :=
  ∃ header payload signature text,
    token.toList.splitOn '.' = [header, payload, signature] ∧
      crypto.decode signature = some (mw.tag crypto header payload) ∧
      (crypto.decode payload).bind fromUtf8 = some text ∧
      parseJwtClaims text = .ok claims ∧ now ≤ claims.exp

theorem verifyJwtSignature_eq_ok_iff {mw : RBACMiddleware} {crypto : Crypto}
    {header payload signature : List Char} :
    mw.verifyJwtSignature crypto header payload signature = .ok () ↔
      crypto.decode signature = some (mw.tag crypto header payload) := by
  unfold RBACMiddleware.verifyJwtSignature
  cases crypto.decode signature with
  | none => simp
  | some bytes => simp

theorem validateJwt_eq_ok_iff {mw : RBACMiddleware} {crypto : Crypto} {token : String} {now : ℕ}
    {claims : JwtClaims} :
    mw.validateJwt crypto token now = .ok claims ↔ Vouches mw crypto token now claims := by
  unfold RBACMiddleware.validateJwt Vouches
  split
  · next header payload signature hparts =>
    constructor
    · intro h
      obtain ⟨_, hsignature, h⟩ := bind_eq_ok.mp h
      cases htext : (crypto.decode payload).bind fromUtf8 with
      | none => exact absurd (htext ▸ h) nofun
      | some text =>
        rw [htext] at h
        obtain ⟨found, hparse, h⟩ := bind_eq_ok.mp h
        split_ifs at h with hexp
        obtain rfl := Except.ok.inj h
        exact ⟨header, payload, signature, text, hparts, verifyJwtSignature_eq_ok_iff.mp hsignature,
          htext, hparse, Nat.le_of_not_lt hexp⟩
    · rintro ⟨header', payload', signature', text, hsame, hsignature, htext, hparse, hexp⟩
      obtain ⟨rfl, rfl, rfl⟩ : header = header' ∧ payload = payload' ∧ signature = signature' := by
        simpa using hparts.symm.trans hsame
      refine bind_eq_ok.mpr ⟨(), verifyJwtSignature_eq_ok_iff.mpr hsignature, ?_⟩
      rw [htext]
      exact bind_eq_ok.mpr ⟨claims, hparse, if_neg (Nat.not_lt_of_le hexp)⟩
  · next hparts =>
    constructor
    · nofun
    · rintro ⟨header, payload, signature, -, hsplit, -⟩
      exact absurd hsplit (hparts header payload signature)

section Tokens

variable {P : Type}

theorem validateSession_eq_ok_iff {state : SecurityState P} {session_id : SessionId} {now : ℕ}
    {session : Session} :
    validateSession state session_id now = .ok session ↔
      state.active_sessions session_id = some session ∧ now ≤ session.expires_at := by
  unfold validateSession
  cases state.active_sessions session_id with
  | none => simp
  | some found =>
    by_cases hexpires : found.expires_at < now
    · simp only [hexpires, if_true, reduceCtorEq, Option.some.injEq, false_iff]
      rintro ⟨rfl, hle⟩
      exact absurd hexpires (Nat.not_lt_of_le hle)
    · simp only [hexpires, if_false, Except.ok.injEq, Option.some.injEq, iff_self_and]
      rintro rfl
      exact Nat.le_of_not_lt hexpires

theorem getUserContext_eq_ok_iff {state : SecurityState P} {user_id : UserId}
    {team_id organization_id : Option UInt32} :
    getUserContext state user_id = .ok (team_id, organization_id) ↔
      ∃ user, state.users user_id = some user ∧ user.team_id = team_id ∧
        user.organization_id = organization_id := by
  unfold getUserContext
  cases state.users user_id with
  | none => simp
  | some user => simp

variable [DecidableEq P]

/-- What a token is accepted for: the session and the user of its claims are there. -/
theorem authenticateToken_eq_ok_iff {mw : RBACMiddleware} {crypto : Crypto}
    {state : SecurityState P} {token : String} {now₁ now₂ : ℕ} {context : AuthContext P} :
    mw.authenticateToken crypto state token now₁ now₂ = .ok context ↔
      ∃ claims session user, Vouches mw crypto token now₁ claims ∧
        state.active_sessions claims.session_id = some session ∧ now₂ ≤ session.expires_at ∧
        state.users claims.user_id = some user ∧
        context = ⟨claims.user_id, claims.session_id, state.getUserPermissions claims.user_id,
          user.team_id, user.organization_id⟩ := by
  unfold RBACMiddleware.authenticateToken
  constructor
  · intro h
    obtain ⟨claims, hclaims, h⟩ := bind_eq_ok.mp h
    obtain ⟨session, hsession, h⟩ := bind_eq_ok.mp h
    obtain ⟨⟨team_id, organization_id⟩, huser, h⟩ := bind_eq_ok.mp h
    obtain ⟨hactive, hexpires⟩ := validateSession_eq_ok_iff.mp hsession
    obtain ⟨user, hfound, rfl, rfl⟩ := getUserContext_eq_ok_iff.mp huser
    exact ⟨claims, session, user, validateJwt_eq_ok_iff.mp hclaims, hactive, hexpires, hfound,
      (Except.ok.inj h).symm⟩
  · rintro ⟨claims, session, user, hclaims, hactive, hexpires, hfound, rfl⟩
    refine bind_eq_ok.mpr ⟨claims, validateJwt_eq_ok_iff.mpr hclaims, ?_⟩
    refine bind_eq_ok.mpr ⟨session, validateSession_eq_ok_iff.mpr ⟨hactive, hexpires⟩, ?_⟩
    exact bind_eq_ok.mpr ⟨(user.team_id, user.organization_id),
      getUserContext_eq_ok_iff.mpr ⟨user, hfound, rfl, rfl⟩, rfl⟩

/-- A token is accepted only when it is signed and has not expired, its session is active, has not
expired and is that of the user it names, and that user is active; the context is that user's. -/
def TokenSound (mw : RBACMiddleware) (crypto : Crypto) (state : SecurityState P) (token : String)
    (now₁ now₂ : ℕ) : Prop :=
  ∀ context, mw.authenticateToken crypto state token now₁ now₂ = .ok context →
    ∃ claims session user, Vouches mw crypto token now₁ claims ∧
      state.active_sessions claims.session_id = some session ∧ now₂ ≤ session.expires_at ∧
      session.user_id = claims.user_id ∧
      state.users claims.user_id = some user ∧ user.is_active = true ∧
      context = ⟨claims.user_id, claims.session_id, state.getUserPermissions claims.user_id,
        user.team_id, user.organization_id⟩

theorem splitOn_token {header payload signature : List Char} (hheader : '.' ∉ header)
    (hpayload : '.' ∉ payload) (hsignature : '.' ∉ signature) :
    (header ++ '.' :: payload ++ '.' :: signature).splitOn '.' = [header, payload, signature] := by
  have hparts : ∀ part ∈ [header, payload, signature], '.' ∉ part := by
    simp [hheader, hpayload, hsignature]
  have hsplit := List.splitOn_intercalate '.' hparts (List.cons_ne_nil _ _)
  simpa [List.intercalate] using hsplit

/-- A token is accepted for the claims it was made of. -/
theorem vouches_createJwtToken (mw : RBACMiddleware) (crypto : Crypto) {user_id : UserId}
    {session_id : SessionId} {made now : ℕ} (hid : '"' ∉ session_id.toList) (hmade : made < 2 ^ 64)
    (hnow : now ≤ mw.expiry made) :
    Vouches mw crypto (mw.createJwtToken crypto user_id session_id made) now
      ⟨user_id, session_id, mw.expiry made, made⟩ := by
  have hexp : mw.expiry made < 2 ^ 64 := Nat.mod_lt _ (by decide)
  refine ⟨crypto.encode (utf8 jwtHeader),
    crypto.encode (utf8 (jwtPayload ⟨user_id, session_id, mw.expiry made, made⟩)), _,
    jwtPayload ⟨user_id, session_id, mw.expiry made, made⟩, ?_, crypto.decode_encode _, ?_,
    parseJwtClaims_jwtPayload hid hexp hmade, hnow⟩
  · rw [RBACMiddleware.createJwtToken, String.toList_ofList]
    exact splitOn_token (crypto.dot_notMem_encode _) (crypto.dot_notMem_encode _)
      (crypto.dot_notMem_encode _)
  · rw [crypto.decode_encode, Option.bind_some, fromUtf8_utf8]

theorem vouches_unique {mw : RBACMiddleware} {crypto : Crypto} {token : String} {now : ℕ}
    {first second : JwtClaims} (hfirst : Vouches mw crypto token now first)
    (hsecond : Vouches mw crypto token now second) : first = second := by
  have h := (validateJwt_eq_ok_iff.mpr hfirst).symm.trans (validateJwt_eq_ok_iff.mpr hsecond)
  exact Except.ok.inj h

/-- A session identifier that is read from a payload ends before the first quotation mark. -/
theorem notMem_of_parseJwtClaims {text : List Char} {claims : JwtClaims}
    (h : parseJwtClaims text = .ok claims) : '"' ∉ claims.session_id.toList := by
  unfold parseJwtClaims at h
  split at h
  · next user_id session_id exp iat _ hsession _ _ =>
    obtain rfl := Except.ok.inj h
    unfold extractJsonString at hsession
    obtain ⟨rest, -, rfl⟩ := Option.map_eq_some_iff.mp hsession
    rw [String.toList_ofList]
    split_ifs
    · exact fun hmem ↦ absurd (List.mem_takeWhile_imp hmem) (by simp)
    · exact List.not_mem_nil
  · exact absurd h nofun

/-- The user, the session and the expiry a token was made of are read back from it before it
expires exactly when the session identifier has no quotation mark. -/
theorem validateJwt_createJwtToken_iff (mw : RBACMiddleware) (crypto : Crypto) (user_id : UserId)
    (session_id : SessionId) {made now : ℕ} (hmade : made < 2 ^ 64) (hnow : now ≤ mw.expiry made) :
    (∃ claims, mw.validateJwt crypto (mw.createJwtToken crypto user_id session_id made) now =
        .ok claims ∧
      claims.user_id = user_id ∧ claims.session_id = session_id ∧ claims.exp = mw.expiry made) ↔
        '"' ∉ session_id.toList := by
  constructor
  · rintro ⟨claims, hclaims, -, rfl, -⟩
    obtain ⟨-, -, -, text, -, -, -, hparse, -⟩ := validateJwt_eq_ok_iff.mp hclaims
    exact notMem_of_parseJwtClaims hparse
  · intro hid
    exact ⟨⟨user_id, session_id, mw.expiry made, made⟩,
      validateJwt_eq_ok_iff.mpr (vouches_createJwtToken mw crypto hid hmade hnow), rfl, rfl, rfl⟩

theorem validateJwt_createJwtToken_hour :
    (∃ claims, (RBACMiddleware.new "key").validateJwt default
        ((RBACMiddleware.new "key").createJwtToken default 7 "sess_a" 0) 3600 = .ok claims ∧
      claims.user_id = 7 ∧ claims.session_id = "sess_a" ∧
        claims.exp = (RBACMiddleware.new "key").expiry 0) ↔ '"' ∉ "sess_a".toList :=
  validateJwt_createJwtToken_iff (RBACMiddleware.new "key") default 7 "sess_a" (by decide)
    (by decide)

/-- A quotation mark in the session identifier cuts it. -/
theorem not_validateJwt_createJwtToken_quoted :
    ¬ ∃ crypto : Crypto, ∀ (mw : RBACMiddleware) (user_id : UserId) (session_id : SessionId)
      (made now : ℕ), made < 2 ^ 64 → now ≤ mw.expiry made →
        ∃ claims, mw.validateJwt crypto (mw.createJwtToken crypto user_id session_id made) now =
            .ok claims ∧
          claims.user_id = user_id ∧ claims.session_id = session_id ∧
            claims.exp = mw.expiry made := by
  rintro ⟨crypto, h⟩
  obtain ⟨claims, hclaims, -, hsession, -⟩ :=
    h (RBACMiddleware.new "key") 7 "a\"b" 0 0 (by decide) (Nat.zero_le _)
  obtain ⟨-, -, -, text, -, -, -, hparse, -⟩ := validateJwt_eq_ok_iff.mp hclaims
  have hquote := notMem_of_parseJwtClaims hparse
  rw [hsession] at hquote
  exact hquote (by decide)

/-- After a run, a token is accepted for the right user exactly when the session it names, if it
was last opened for somebody and is still open, was opened for the user it names, and this user, if
there ever was one, has not been deleted since the creation. -/
theorem tokenSound_run_iff (mw : RBACMiddleware) (crypto : Crypto)
    (operations : List (Operation P)) (token : String) (now₁ now₂ : ℕ) :
    TokenSound mw crypto (Operation.run mw crypto operations) token now₁ now₂ ↔
      ∀ claims, Vouches mw crypto token now₁ claims →
        ∀ owner, OpenedFor mw crypto claims.session_id owner now₂ operations →
          UserCreated claims.user_id operations →
            owner = claims.user_id ∧ UserActive claims.user_id operations := by
  constructor
  · intro hsound claims hclaims owner hopened hcreated
    obtain ⟨session, hsession, rfl, hexpires⟩ := (session_run_iff mw crypto ..).mpr hopened
    obtain ⟨user, huser⟩ :=
      Option.isSome_iff_exists.mp ((isSome_users_run_iff mw crypto ..).mpr hcreated)
    obtain ⟨claims', session', user', hclaims', hsession', -, howner, huser', hactive, -⟩ :=
      hsound _ (authenticateToken_eq_ok_iff.mpr
        ⟨claims, session, user, hclaims, hsession, hexpires, huser, rfl⟩)
    obtain rfl := vouches_unique hclaims hclaims'
    rw [hsession, Option.some.injEq] at hsession'
    subst hsession'
    exact ⟨howner, (isActive_run_iff mw crypto ..).mp ⟨user', huser', hactive⟩⟩
  · intro h context hcontext
    obtain ⟨claims, session, user, hclaims, hsession, hexpires, huser, rfl⟩ :=
      authenticateToken_eq_ok_iff.mp hcontext
    have hopened := (session_run_iff mw crypto operations claims.session_id session.user_id
      now₂).mp ⟨session, hsession, rfl, hexpires⟩
    have hcreated := (isSome_users_run_iff mw crypto operations claims.user_id).mp
      (Option.isSome_of_eq_some huser)
    obtain ⟨howner, hactive⟩ := h claims hclaims session.user_id hopened hcreated
    obtain ⟨user', huser', hactive'⟩ := (isActive_run_iff mw crypto ..).mpr hactive
    rw [huser, Option.some.injEq] at huser'
    subst huser'
    exact ⟨claims, session, user, hclaims, hsession, hexpires, howner, huser, hactive', rfl⟩

/-- The token of a user who has been deleted is accepted as long as the session lasts. -/
theorem not_tokenSound_userDeleted :
    ¬ ∃ crypto : Crypto, ∀ (mw : RBACMiddleware) (operations : List (Operation Unit))
      (token : String) (now₁ now₂ : ℕ),
        TokenSound mw crypto (Operation.run mw crypto operations) token now₁ now₂ := by
  rintro ⟨crypto, hsound⟩
  obtain ⟨hash, hhash⟩ := crypto.exists_hash "secret"
  let login : Login := ⟨[1], "a@b.c", "secret", "::1", "", "u", 0, 0⟩
  let operations : List (Operation Unit) := [.event (.userCreated 1 "a@b.c" "A" 0 0),
    .setUser 1 hash none none, .authenticateUser login, .event (.userDeleted 1 0 0)]
  let mw := RBACMiddleware.new "key"
  have hlogin (state : SecurityState Unit)
      (huser : state.users 1 = some ⟨1, "a@b.c", "A", hash, none, none, 0, none, true⟩) :
      mw.openSession crypto state login =
        .ok (⟨1, "a@b.c", "A", hash, none, none, 0, none, true⟩,
          ⟨"sess_u", 1, 0, mw.expiry 0, 0, "::1", ""⟩) := by
    simp [RBACMiddleware.openSession, checkCredentials, login, huser, hhash, Login.sessionId,
      bind, Except.bind]
  have hsession : (Operation.run mw crypto operations).active_sessions "sess_u" =
      some ⟨"sess_u", 1, 0, mw.expiry 0, 0, "::1", ""⟩ := by
    simp [operations, Operation.run, Operation.apply, SecurityState.applySecurityEvent,
      SecurityState.modifyUser, RBACMiddleware.authenticateUser, hlogin]
  have huser : (Operation.run mw crypto operations).users 1 =
      some ⟨1, "a@b.c", "A", hash, none, none, 0, none, false⟩ := by
    simp [operations, Operation.run, Operation.apply, SecurityState.applySecurityEvent,
      SecurityState.modifyUser, RBACMiddleware.authenticateUser, hlogin]
  have hvouches : Vouches mw crypto (mw.createJwtToken crypto 1 "sess_u" 0) 0
      ⟨1, "sess_u", mw.expiry 0, 0⟩ :=
    vouches_createJwtToken mw crypto (by decide) (by decide) (Nat.zero_le _)
  obtain ⟨claims, session, user, hclaims, -, -, -, hfound, hactive, -⟩ :=
    hsound mw operations (mw.createJwtToken crypto 1 "sess_u" 0) 0 0 _
      (authenticateToken_eq_ok_iff.mpr ⟨_, _, _, hvouches, hsession, Nat.zero_le _, huser, rfl⟩)
  obtain rfl := vouches_unique hvouches hclaims
  rw [huser, Option.some.injEq] at hfound
  rw [← hfound] at hactive
  exact absurd hactive Bool.false_ne_true

end Tokens
end Lithair.Security.Middleware
