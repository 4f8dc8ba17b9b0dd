import Lithair.App.Routes
import Lithair.Mfa.Handlers
import Lithair.Session.PersistentStore

/-!
# The login

`with_rbac_config` and `with_mfa_totp` of `app/builder.rs`, which register routes one call after the
other, and `handle_rbac_login` of `rbac/auth_handlers.rs`, which looks for the user, checks the
password, and asks for a TOTP code when MFA is enabled in the storage it was given. That storage is
the one the builder had when the login route was registered.

`login_sound_iff`: when MFA is set up before RBAC, the logins create a session only with the user's
password and, if MFA is enabled, with a code for the secret, exactly as long as there is a secret.
-/

namespace Lithair.Mfa

open Lithair.App Lithair.Lib Lithair.Lib.Run Lithair.Sessions

/-! ### The builder -/

structure RbacUser where
  username : String
  passwordHash : String
  role : String
  active : Bool
  deriving DecidableEq

/-- What the login needs of a configuration: the users and the duration of a session in seconds. -/
structure ServerRbacConfig where
  users : List RbacUser
  sessionDuration : ℕ
  deriving DecidableEq

/-- The handlers of the routes that the builder registers, with the MFA storage they were given, and
those of the user. -/
inductive AuthHandler
  | login (users : List RbacUser) (duration : ℕ) (mfaStorage : Option ℕ)
  | logout
  | validate
  | mfa (storage : ℕ)
  | custom (n : ℕ)

/-- The builder with the number of MFA storages that were made. -/
structure LithairServer where
  mfaStorage : Option ℕ
  mfaStorages : ℕ
  customRoutes : List (CustomRoute AuthHandler)

namespace LithairServer

def new : LithairServer where
  mfaStorage := none
  mfaStorages := 0
  customRoutes := []

def withRoute (b : LithairServer) (method : Method) (path : String) (handler : AuthHandler) :
    LithairServer :=
  { b with customRoutes := b.customRoutes ++ [⟨method, path, handler⟩] }

def withRbacConfig (b : LithairServer) (config : ServerRbacConfig) : LithairServer :=
  ((b.withRoute .post "/auth/login"
    (.login config.users config.sessionDuration b.mfaStorage)).withRoute .post "/auth/logout"
    .logout).withRoute .get "/auth/validate" .validate

/-- A new storage, and the routes to it. -/
def withMfaTotp (b : LithairServer) : LithairServer :=
  let storage := b.mfaStorages
  let b :=
    { b with
      mfaStorage := some storage
      mfaStorages := storage + 1 }
  ((((b.withRoute .get "/auth/mfa/status" (.mfa storage)).withRoute .post "/auth/mfa/setup"
    (.mfa storage)).withRoute .post "/auth/mfa/enable" (.mfa storage)).withRoute .post
    "/auth/mfa/disable" (.mfa storage)).withRoute .post "/auth/mfa/verify" (.mfa storage)

end LithairServer

inductive BuilderCall
  | withRbacConfig (config : ServerRbacConfig)
  | withMfaTotp
  | withRoute (method : Method) (path : String) (n : ℕ)

def LithairServer.call (b : LithairServer) : BuilderCall → LithairServer
  | .withRbacConfig config => b.withRbacConfig config
  | .withMfaTotp => b.withMfaTotp
  | .withRoute method path n => b.withRoute method path (.custom n)

/-- The server that a sequence of calls builds. -/
def build (calls : List BuilderCall) : LithairServer := calls.foldl LithairServer.call .new

/-! ### The login handler -/

structure LoginRequest where
  username : String
  password : String
  totpCode : Option String

inductive LoginAnswer
  | badRequest (error : String)
  | unauthorized (error : String) (mfaRequired : Bool)
  | failed (error : String)
  | created (session : Session)

/-- Put a text into the data of a session. -/
def setText (session : Session) (key value : String) : Session :=
  { session with data := session.data.insert key (.string value) }

/-- The session of a user who has logged in. -/
def loginSession (user : RbacUser) (sessionId : String) (now duration : ℕ) : Session :=
  setText (setText (setText ⟨sessionId, ∅, now + duration⟩ "user_id" user.username) "username"
    user.username) "role" user.role

section Login

variable (validate : TotpValidator) (verifyPassword : String → String → Bool)

/-- The check of the code, when there is a storage with data of the user and MFA is enabled in it;
no result is that the login goes on. -/
def checkMfa (mfaStorage : Option MfaState) (user : RbacUser) (totpCode : Option String)
    (now : ℕ) : Option LoginAnswer :=
  match mfaStorage.bind fun state ↦ state.get user.username with
  | none => none
  | some data =>
    if data.status.enabled then
      match totpCode with
      | none => some (.unauthorized "MFA required" true)
      | some code =>
        match validate data.secret code now with
        | none => some (.failed "Validation error")
        | some false => some (.unauthorized "Invalid TOTP code" false)
        | some true => none
    else none

/-- The first user with the name and the password. -/
def findUser (users : List RbacUser) (request : LoginRequest) : Option RbacUser :=
  users.find? fun user ↦
    decide (user.username = request.username) && verifyPassword request.password user.passwordHash

/-- The body is read as a request unless it is not JSON. -/
def handleRbacLogin (users : List RbacUser) (duration : ℕ) (mfaStorage : Option MfaState)
    (request : Option LoginRequest) (now : ℕ) (sessionId : String) : LoginAnswer :=
  match request with
  | none => .badRequest "Invalid JSON"
  | some request =>
    match findUser verifyPassword users request with
    | none => .unauthorized "Invalid credentials" false
    | some user =>
      if user.active then
        (checkMfa validate mfaStorage user request.totpCode now).getD
          (.created (loginSession user sessionId now duration))
      else .unauthorized "Invalid credentials" false

end Login

/-! ### The running server -/

/-- A server with its MFA storages. -/
structure AuthServer (validate : TotpValidator) where
  server : LithairServer
  storages : ℕ → MfaStorage validate

/-- An MFA request goes on at one of the storages, or somebody logs in. -/
inductive AuthAction
  | mfa (storage : ℕ) (action : MfaAction)
  | login (path : String) (request : Option LoginRequest) (now : ℕ) (sessionId : String)

namespace AuthServer

variable {validate : TotpValidator}

/-- A server that was built by calls, over the MFA logs. -/
def start (validate : TotpValidator) (calls : List BuilderCall) (logs : ℕ → List MfaEvent) :
    AuthServer validate where
  server := build calls
  storages := fun n ↦ MfaStorage.start validate (logs n)

/-- The answer of the login handler that a path leads to, with the users it knows. -/
def answer (verifyPassword : String → String → Bool) (s : AuthServer validate) (path : String)
    (request : Option LoginRequest) (now : ℕ) (sessionId : String) :
    Option (List RbacUser × LoginAnswer) :=
  match findRoute s.server.customRoutes .post path with
  | some (.login users duration mfaStorage) =>
    some (users, handleRbacLogin validate verifyPassword users duration
      (mfaStorage.map fun n ↦ (s.storages n).state) request now sessionId)
  | _ => none

/-- A login leaves the MFA storages alone. -/
def step (s : AuthServer validate) : AuthAction → Option (AuthServer validate)
  | .mfa n action =>
    ((s.storages n).step action).map fun storage ↦
      { s with storages := Function.update s.storages n storage }
  | .login _ _ _ _ => some s

/-- Whether MFA is enabled for a user in the server's storage. -/
def MfaEnabled (s : AuthServer validate) (username : String) : Prop :=
  ∃ n, s.server.mfaStorage = some n ∧ (s.storages n).state.isEnabled username

/-- The code is valid for the user's secret in the server's storage. -/
def ValidCode (s : AuthServer validate) (username code : String) (now : ℕ) : Prop :=
  ∃ n secret, s.server.mfaStorage = some n ∧ (s.storages n).state.secret username = some secret ∧
    validate secret code now = some true

/-- A session is created only for a user whose password was given, and when MFA is enabled for the
user, with a code that is valid for the secret. -/
def Sound (verifyPassword : String → String → Bool) (s : AuthServer validate) : AuthAction → Prop
  | .mfa _ _ => True
  | .login path request now sessionId =>
    ∀ users session, s.answer verifyPassword path request now sessionId =
        some (users, .created session) →
      ∃ login user, request = some login ∧ user ∈ users ∧
        session.getText "user_id" = some user.username ∧
        verifyPassword login.password user.passwordHash ∧
        (s.MfaEnabled user.username →
          ∃ code, login.totpCode = some code ∧ s.ValidCode user.username code now)

/-- An active user with MFA enabled who logs in with name and password has a secret. -/
def HasSecret (verifyPassword : String → String → Bool) (s : AuthServer validate) :
    AuthAction → Prop
  | .login path (some login) _ _ => ∀ users duration mfaStorage user,
      findRoute s.server.customRoutes .post path = some (.login users duration mfaStorage) →
      findUser verifyPassword users login = some user → user.active →
      ∀ n, s.server.mfaStorage = some n → (s.storages n).state.isEnabled user.username →
        (s.storages n).state.secret user.username ≠ none
  | _ => True

end AuthServer

/-- No MFA storage is made after RBAC was set up. -/
def MfaFirst (calls : List BuilderCall) : Prop :=
  ∀ front config back, calls = front ++ .withRbacConfig config :: back →
    BuilderCall.withMfaTotp ∉ back

/-! ### Which storage the login asks -/

theorem build_append (calls : List BuilderCall) (c : BuilderCall) :
    build (calls ++ [c]) = (build calls).call c := by
  rw [build, List.foldl_append]
  rfl

/-- The login routes that a call adds have the storage that the builder had. -/
theorem mem_call {b : LithairServer} {c : BuilderCall} {route : CustomRoute AuthHandler}
    (h : route ∈ (b.call c).customRoutes) {users : List RbacUser} {duration : ℕ}
    {mfaStorage : Option ℕ} (hlogin : route.handler = .login users duration mfaStorage) :
    route ∈ b.customRoutes ∨
      (∃ config, c = .withRbacConfig config) ∧ mfaStorage = b.mfaStorage := by
  cases c with
  | withRbacConfig config =>
    simp only [LithairServer.call, LithairServer.withRbacConfig, LithairServer.withRoute,
      List.mem_append, List.mem_singleton] at h
    rcases h with ((h | rfl) | rfl) | rfl
    · exact Or.inl h
    · exact Or.inr ⟨⟨config, rfl⟩, (AuthHandler.login.inj hlogin).2.2.symm⟩
    · exact absurd hlogin (by simp)
    · exact absurd hlogin (by simp)
  | withMfaTotp =>
    simp only [LithairServer.call, LithairServer.withMfaTotp, LithairServer.withRoute,
      List.mem_append, List.mem_singleton] at h
    rcases h with ((((h | rfl) | rfl) | rfl) | rfl) | rfl
    · exact Or.inl h
    all_goals exact absurd hlogin (by simp)
  | withRoute method path n =>
    simp only [LithairServer.call, LithairServer.withRoute, List.mem_append,
      List.mem_singleton] at h
    rcases h with h | rfl
    · exact Or.inl h
    · exact absurd hlogin (by simp)

theorem MfaFirst.front {calls : List BuilderCall} {c : BuilderCall} (h : MfaFirst (calls ++ [c])) :
    MfaFirst calls := by
  rintro front config back rfl hmem
  exact h front config (back ++ [c]) (by simp) (List.mem_append_left _ hmem)

/-- Without a call of `with_rbac_config` there is no login route. -/
theorem withRbacConfig_mem_of_login {calls : List BuilderCall} {route : CustomRoute AuthHandler}
    (h : route ∈ (build calls).customRoutes) {users : List RbacUser} {duration : ℕ}
    {mfaStorage : Option ℕ} (hlogin : route.handler = .login users duration mfaStorage) :
    ∃ config, BuilderCall.withRbacConfig config ∈ calls := by
  induction calls using List.reverseRecOn with
  | nil => exact absurd h List.not_mem_nil
  | append_singleton calls c ih =>
    rw [build_append] at h
    rcases mem_call h hlogin with h | ⟨⟨config, rfl⟩, -⟩
    · obtain ⟨config, hmem⟩ := ih h
      exact ⟨config, List.mem_append_left _ hmem⟩
    · exact ⟨config, List.mem_append_right _ List.mem_cons_self⟩

/-- When MFA is set up first, every login route has the server's storage. -/
theorem MfaFirst.mfaStorage_eq {calls : List BuilderCall} (hfirst : MfaFirst calls)
    {route : CustomRoute AuthHandler} (h : route ∈ (build calls).customRoutes)
    {users : List RbacUser} {duration : ℕ} {mfaStorage : Option ℕ}
    (hlogin : route.handler = .login users duration mfaStorage) :
    mfaStorage = (build calls).mfaStorage := by
  induction calls using List.reverseRecOn with
  | nil => exact absurd h List.not_mem_nil
  | append_singleton calls c ih =>
    rw [build_append] at h ⊢
    have hkept : (∃ config, BuilderCall.withRbacConfig config ∈ calls ++ [c]) →
        ((build calls).call c).mfaStorage = (build calls).mfaStorage := by
      rintro ⟨config, hmem⟩
      cases c with
      | withRbacConfig config => rfl
      | withRoute method path n => rfl
      | withMfaTotp =>
        obtain ⟨front, back, hsplit⟩ := List.append_of_mem hmem
        have hlast : BuilderCall.withMfaTotp ∈ back := by
          rcases List.eq_nil_or_concat back with rfl | ⟨rest, last, rfl⟩
          · have hends := congrArg List.getLast? hsplit
            rw [List.getLast?_concat, List.getLast?_concat] at hends
            exact absurd (Option.some.inj hends) (by simp)
          · have hends := congrArg List.getLast? hsplit
            rw [List.getLast?_concat, List.concat_eq_append, ← List.cons_append,
              ← List.append_assoc, List.getLast?_concat] at hends
            obtain rfl := Option.some.inj hends
            simp
        exact absurd hlast (hfirst front config back hsplit)
    rcases mem_call h hlogin with hmem | ⟨⟨config, rfl⟩, rfl⟩
    · obtain ⟨config, hconfig⟩ := withRbacConfig_mem_of_login hmem hlogin
      rw [hkept ⟨config, List.mem_append_left _ hconfig⟩]
      exact ih hfirst.front hmem
    · rfl

/-! ### When the login is sound -/

namespace AuthServer

variable {validate : TotpValidator} {verifyPassword : String → String → Bool}
  {s next : AuthServer validate}

theorem getText_loginSession (user : RbacUser) (sessionId : String) (now duration : ℕ) :
    (loginSession user sessionId now duration).getText "user_id" = some user.username := by
  unfold Session.getText loginSession setText
  rw [Finmap.lookup_insert_of_ne _ (by decide), Finmap.lookup_insert_of_ne _ (by decide),
    Finmap.lookup_insert]
  rfl

theorem checkMfa_ne_created (mfaStorage : Option MfaState) (user : RbacUser)
    (totpCode : Option String) (now : ℕ) (session : Session) :
    checkMfa validate mfaStorage user totpCode now ≠ some (.created session) := by
  unfold checkMfa
  repeat' split
  all_goals simp

/-- The handler creates a session exactly for an active user with name and password whose code is
not asked for or passes. -/
theorem handleRbacLogin_created_iff {users : List RbacUser} {duration : ℕ}
    {mfaStorage : Option MfaState} {request : Option LoginRequest} {now : ℕ} {sessionId : String}
    {session : Session} :
    handleRbacLogin validate verifyPassword users duration mfaStorage request now sessionId =
        .created session ↔
      ∃ login user, request = some login ∧ findUser verifyPassword users login = some user ∧
        user.active ∧ session = loginSession user sessionId now duration ∧
        checkMfa validate mfaStorage user login.totpCode now = none := by
  constructor
  · intro h
    unfold handleRbacLogin at h
    split at h
    · exact absurd h (by simp)
    · next login =>
      split at h
      · exact absurd h (by simp)
      · next user hfind =>
        split_ifs at h with hactive
        cases hcheck : checkMfa validate mfaStorage user login.totpCode now with
        | none =>
          rw [hcheck] at h
          exact ⟨login, user, rfl, hfind, hactive, (LoginAnswer.created.inj h).symm, hcheck⟩
        | some answer =>
          rw [hcheck, Option.getD_some] at h
          exact absurd (hcheck.trans (congrArg some h)) (checkMfa_ne_created _ _ _ _ _)
  · rintro ⟨login, user, rfl, hfind, hactive, rfl, hcheck⟩
    simp only [handleRbacLogin, hfind, hcheck, hactive]
    rfl

theorem findUser_spec {users : List RbacUser} {login : LoginRequest} {user : RbacUser}
    (h : findUser verifyPassword users login = some user) :
    user ∈ users ∧ verifyPassword login.password user.passwordHash = true := by
  have hfound := List.find?_some h
  simp only [Bool.and_eq_true, decide_eq_true_eq] at hfound
  exact ⟨List.mem_of_find?_eq_some h, hfound.2⟩

/-- Without a secret no code is asked for. -/
theorem checkMfa_of_secret {state : MfaState} {user : RbacUser}
    (h : state.secret user.username = none) (totpCode : Option String) (now : ℕ) :
    checkMfa validate (some state) user totpCode now = none := by
  have hget : state.get user.username = none := by
    unfold MfaState.secret at h
    unfold MfaState.get
    cases hstate : state.users user.username with
    | none => rfl
    | some entry =>
      rw [hstate, Option.bind_some] at h
      rw [Option.bind_some, h]
      rfl
  unfold checkMfa
  rw [Option.bind_some, hget]

/-- The check lets a user with MFA enabled and a secret pass only with a valid code. -/
theorem valid_of_checkMfa {state : MfaState} {user : RbacUser} {totpCode : Option String} {now : ℕ}
    (h : checkMfa validate (some state) user totpCode now = none)
    (henabled : state.isEnabled user.username) (hsecret : state.secret user.username ≠ none) :
    ∃ code secret, totpCode = some code ∧ state.secret user.username = some secret ∧
      validate secret code now = some true := by
  obtain ⟨secret, hsome⟩ := Option.ne_none_iff_exists'.mp hsecret
  obtain ⟨data, hdata, hsame⟩ := Option.bind_eq_some_iff.mp hsome
  rw [MfaState.isEnabled, hdata] at henabled
  have hget : state.get user.username = some ⟨secret, data.status, data.backupCodes⟩ := by
    rw [MfaState.get, hdata, Option.bind_some, hsame]
    rfl
  unfold checkMfa at h
  rw [Option.bind_some, hget] at h
  simp only at h
  rw [if_pos (show data.status.enabled = true from henabled)] at h
  split at h
  · exact absurd h (by simp)
  · next code =>
    split at h
    · exact absurd h (by simp)
    · exact absurd h (by simp)
    · next hvalid => exact ⟨code, secret, rfl, hsome, hvalid⟩

theorem server_step {a : AuthAction} (h : s.step a = some next) : next.server = s.server := by
  cases a with
  | mfa n action =>
    obtain ⟨storage, -, rfl⟩ := Option.map_eq_some_iff.mp h
    rfl
  | login path request now sessionId => rw [← Option.some.inj h]

/-- A login at a server whose login routes have its storage is sound exactly when the user has a
secret. -/
theorem sound_iff_hasSecret {calls : List BuilderCall} (hfirst : MfaFirst calls)
    (hserver : s.server = build calls) (a : AuthAction) :
    s.Sound verifyPassword a ↔ s.HasSecret verifyPassword a := by
  cases a with
  | mfa n action => exact Iff.rfl
  | login path request now sessionId =>
    have hstorage : ∀ users duration mfaStorage,
        findRoute s.server.customRoutes .post path = some (.login users duration mfaStorage) →
        mfaStorage = s.server.mfaStorage := by
      intro users duration mfaStorage hroute
      obtain ⟨route, hroutes, hlogin⟩ := mem_of_findRoute hroute
      rw [hserver] at hroutes ⊢
      exact hfirst.mfaStorage_eq hroutes hlogin
    constructor
    · intro hsound
      cases request with
      | none => trivial
      | some login =>
        intro users duration mfaStorage user hroute hfind hactive n hn henabled hnone
        have hcreated : handleRbacLogin validate verifyPassword users duration
            (mfaStorage.map fun n ↦ (s.storages n).state) (some login) now sessionId =
              .created (loginSession user sessionId now duration) := by
          refine handleRbacLogin_created_iff.mpr ⟨login, user, rfl, hfind, hactive, rfl, ?_⟩
          rw [hstorage users duration mfaStorage hroute, hn, Option.map_some]
          exact checkMfa_of_secret hnone login.totpCode now
        have hanswer : s.answer verifyPassword path (some login) now sessionId =
            some (users, .created (loginSession user sessionId now duration)) := by
          simp only [answer, hroute, hcreated]
        obtain ⟨login', user', hlogin, -, htext, -, hmfa⟩ := hsound users _ hanswer
        rw [getText_loginSession, Option.some.injEq] at htext
        rw [← htext] at hmfa
        obtain ⟨code, -, n', secret, hn', hsecret, -⟩ := hmfa ⟨n, hn, henabled⟩
        obtain rfl := Option.some.inj (hn.symm.trans hn')
        exact absurd (hnone.symm.trans hsecret) (by simp)
    · intro hsecret users session hanswer
      unfold answer at hanswer
      split at hanswer
      · next users' duration mfaStorage hroute =>
        obtain ⟨rfl, hcreated⟩ := Prod.mk.inj (Option.some.inj hanswer)
        obtain ⟨login, user, rfl, hfind, hactive, rfl, hcheck⟩ :=
          handleRbacLogin_created_iff.mp hcreated
        obtain ⟨hmem, hpassword⟩ := findUser_spec hfind
        refine ⟨login, user, rfl, hmem, getText_loginSession _ _ _ _, hpassword, ?_⟩
        rintro ⟨n, hn, henabled⟩
        rw [hstorage users' duration mfaStorage hroute, hn, Option.map_some] at hcheck
        have hhas := hsecret users' duration mfaStorage user hroute hfind hactive n hn henabled
        obtain ⟨code, secret, hcode, hsome, hvalid⟩ := valid_of_checkMfa hcheck henabled hhas
        exact ⟨code, hcode, n, secret, hn, hsome, hvalid⟩
      · exact absurd hanswer (by simp)

/-- At a server on which MFA was set up before RBAC, every login of a run is sound exactly when
every active user with MFA enabled who logs in with name and password has a secret. -/
theorem login_sound_iff (verifyPassword : String → String → Bool) {calls : List BuilderCall}
    (hfirst : MfaFirst calls) (logs : ℕ → List MfaEvent) (actions : List AuthAction) :
    EachStep step (Sound verifyPassword) (start validate calls logs) actions ↔
      EachStep step (HasSecret verifyPassword) (start validate calls logs) actions := by
  have hkept : ∀ D : AuthServer validate → AuthAction → Prop, ∀ (s : AuthServer validate) a next,
      s.server = build calls → D s a → s.step a = some next → next.server = build calls :=
    fun _ _ _ _ hserver _ hstep ↦ (server_step hstep).trans hserver
  constructor
  · exact EachStep.imp (hkept _)
      (fun s a next hserver hsound _ ↦ (sound_iff_hasSecret hfirst hserver a).mp hsound) rfl
  · exact EachStep.imp (hkept _)
      (fun s a next hserver hsecret _ ↦ (sound_iff_hasSecret hfirst hserver a).mpr hsecret) rfl

/-! ### Logins without a code -/

section Bypass

def alice : RbacUser := ⟨"alice", "$argon2id$wonderland", "Admin", true⟩

def sampleConfig : ServerRbacConfig := ⟨[alice], 28800⟩

def sampleVerify (password hash : String) : Bool := decide ("$argon2id$" ++ password = hash)

/-- The request of alice with a code, or without one. -/
def aliceLogin (totpCode : Option String) : AuthAction :=
  .login "/auth/login" (some ⟨"alice", "wonderland", totpCode⟩) 0 "session"

/-- The order of the calls in the documentation of both. -/
def documentedCalls : List BuilderCall := [.withRbacConfig sampleConfig, .withMfaTotp]

def mfaFirstCalls : List BuilderCall := [.withMfaTotp, .withRbacConfig sampleConfig]

/-- A secret was saved for alice and MFA is not enabled yet. -/
def aliceSetUp : List MfaEvent := MfaStorage.aliceEnabled.take 1

/-- An enable and a disable of alice overlap: the enable ends last. -/
def overlapping : List AuthAction := [
  .mfa 0 (.request 0 (.enable (some ("alice", "123456"))) 0 none),
  .mfa 0 (.request 1 (.disable (some ("alice", "123456"))) 0 none),
  .mfa 0 (.append 0 "2026-01-02T00:00:00Z" true), .mfa 0 (.append 1 "2026-01-02T00:00:00Z" true),
  .mfa 0 (.append 1 "2026-01-02T00:00:01Z" true), .mfa 0 (.append 0 "2026-01-02T00:00:01Z" true)]

/-- A login without a code is not sound when it creates a session for a user with MFA enabled. -/
theorem not_sound {s : AuthServer validate} {request : LoginRequest} {path sessionId : String}
    {now : ℕ} {users : List RbacUser} {session : Session}
    (hanswer : s.answer verifyPassword path (some request) now sessionId =
      some (users, .created session)) (hcode : request.totpCode = none)
    (henabled : ∀ username, session.getText "user_id" = some username → s.MfaEnabled username) :
    ¬ s.Sound verifyPassword (.login path (some request) now sessionId) := by
  intro hsound
  obtain ⟨login, user, hlogin, -, htext, -, hmfa⟩ := hsound users session hanswer
  obtain ⟨code, hsome, -⟩ := hmfa (henabled _ htext)
  obtain rfl := Option.some.inj hlogin
  exact absurd (hcode.symm.trans hsome) (by simp)

/-- In the documented order of the calls, a user with MFA enabled logs in without a code. -/
theorem login_without_code :
    ¬ ∀ calls actions, EachStep step (Sound sampleVerify)
      (start MfaStorage.sampleValidate calls fun _ ↦ MfaStorage.aliceEnabled) actions := by
  intro h
  obtain ⟨hsound, -⟩ := h documentedCalls [aliceLogin none] _ rfl
  refine not_sound rfl rfl (fun username htext ↦ ⟨0, rfl, ?_⟩) hsound
  rw [getText_loginSession, Option.some.injEq] at htext
  subst htext
  rfl

/-- With the calls in the right order, she still does so after the overlapping requests. -/
theorem login_without_code_after_overlap :
    ¬ EachStep step (Sound sampleVerify)
      (start MfaStorage.sampleValidate mfaFirstCalls fun _ ↦ aliceSetUp)
      (overlapping ++ [aliceLogin none]) := by
  intro h
  obtain ⟨-, h⟩ := h _ rfl
  obtain ⟨-, h⟩ := h _ rfl
  obtain ⟨-, h⟩ := h _ rfl
  obtain ⟨-, h⟩ := h _ rfl
  obtain ⟨-, h⟩ := h _ rfl
  obtain ⟨-, h⟩ := h _ rfl
  obtain ⟨hsound, -⟩ := h _ rfl
  refine not_sound rfl rfl (fun username htext ↦ ⟨0, rfl, ?_⟩) hsound
  rw [getText_loginSession, Option.some.injEq] at htext
  subst htext
  rfl

theorem mfaFirst_mfaFirstCalls : MfaFirst mfaFirstCalls := by
  intro front config back hsplit hmem
  cases front with
  | nil => exact absurd (List.cons.inj hsplit).1 (by simp)
  | cons first front =>
    have hrest := (List.cons.inj hsplit).2
    cases front with
    | nil =>
      rw [← (List.cons.inj hrest).2] at hmem
      exact absurd hmem List.not_mem_nil
    | cons second front => exact absurd (List.cons.inj hrest).2 (by simp)

/-- With her code, the login of alice is sound. -/
theorem login_sound_iff_alice :
    EachStep step (Sound sampleVerify)
      (start MfaStorage.sampleValidate mfaFirstCalls fun _ ↦ MfaStorage.aliceEnabled)
      [aliceLogin (some "123456")] := by
  refine (login_sound_iff sampleVerify mfaFirst_mfaFirstCalls _ _).mpr fun next _ ↦ ⟨?_, trivial⟩
  intro users duration mfaStorage user _ hfind _ n hn _
  have hname : user.username = "alice" := by
    have hfound := List.find?_some hfind
    simp only [Bool.and_eq_true, decide_eq_true_eq] at hfound
    exact hfound.1
  rw [hname]
  exact Option.some_ne_none (MfaStorage.sampleSecret "123456")

end Bypass

end AuthServer

end Lithair.Mfa
