import Lithair.Lib.Utf8

/-!
# Authorisation in front of a model

What a server with an authentication provider lets through to the handler of its model. The router
copies the two headers it knows into a request of its own, asks the provider about it, and refuses
writes of a caller who is not authenticated and deletions that ask for another role than the
administrator's. `enforced_iff` says which requests are treated as they should be: the role of a
deletion is read off the header and not from what the provider answered, so that a caller who leaves
the header out deletes in the default role of the provider.
-/

namespace Lithair.Rbac

open Lib.Utf8

structure AuthContext where
  user_id : Option String
  roles : List String
  groups : List String
  authenticated : Bool
  provider : String
  mfa_verified : Bool
  metadata : List (String × String)

def AuthContext.unauthenticated : AuthContext :=
  { user_id := none, roles := ["Public"], groups := [], authenticated := false, provider := "none",
    mfa_verified := false, metadata := [] }

inductive Method
  | get
  | post
  | put
  | delete
  | other (name : String)
  deriving DecidableEq

/-! ### Headers -/

abbrev HeaderValue := List UInt8

/-- The bytes 32 to 126, and the tabulator. -/
def isVisibleAscii (b : UInt8) : Bool := (32 ≤ b.toNat && b.toNat < 127) || b.toNat == 9

/-- The text of a value; a value with other bytes than those of visible characters has none. -/
def HeaderValue.toStr (value : HeaderValue) : Option String :=
  if value.all isVisibleAscii then some (String.ofList (value.map fun b ↦ Char.ofNat b.toNat))
  else none

/-- A request, with the names of its headers in lower case. -/
structure Request where
  method : Method
  path : List Char
  headers : List (String × HeaderValue)

/-- The text of the first header of this name. -/
def Request.header (req : Request) (name : String) : Option String :=
  (req.headers.lookup name).bind HeaderValue.toStr

/-! ### Providers -/

/-- The providers that a server can be given. -/
inductive AuthProvider
  | password (password default_role : String)
  | google (client_id client_secret redirect_uri default_role : String)

inductive ProviderConfig
  | none
  | password (password default_role : String)
  | google (client_id client_secret redirect_uri default_role : String)
  | oauth (provider client_id client_secret : String)
  | ldap (server base_dn : String)

/-- There is no provider for the kinds to come. -/
def ProviderConfig.createProvider : ProviderConfig → Option AuthProvider
  | .none => Option.none
  | .password pwd default_role => some (.password pwd default_role)
  | .google client_id client_secret redirect_uri default_role =>
    some (.google client_id client_secret redirect_uri default_role)
  | .oauth _ _ _ | .ldap _ _ => Option.none

section Providers

variable (mac : List UInt8 → List UInt8 → List UInt8)

/-- Two texts are compared by their codes under the second. -/
def constantTimeEq (a b : String) : Bool :=
  mac (utf8 b.toList) (utf8 a.toList) == mac (utf8 b.toList) (utf8 b.toList)

def PasswordProvider.authenticate (password default_role : String) (req : Request) :
    Except String AuthContext :=
  match req.header "x-auth-password" with
  | some pwd =>
    if constantTimeEq mac pwd password then
      .ok { user_id := some "authenticated_user"
            roles := [(req.header "x-auth-role").getD default_role]
            groups := []
            authenticated := true
            provider := "password"
            mfa_verified := false
            metadata := [] }
    else .error "Invalid password"
  | none => .ok .unauthenticated

def AuthProvider.authenticate : AuthProvider → Request → Except String AuthContext
  | .password pwd default_role, req => PasswordProvider.authenticate mac pwd default_role req
  | .google _ _ _ _, _ =>
    .error ("Google OAuth2 requires async authentication. " ++
      "Use GoogleProvider::exchange_code() and get_user_info() directly.")

end Providers

/-! ### The server and its router -/

structure RbacConfig where
  enabled : Bool
  roles : List String
  default_role : String
  provider : ProviderConfig

structure DeclarativeServer where
  rbac_config : Option RbacConfig
  rbac_middleware : Option AuthProvider

/-- A configuration without a provider leaves the middleware as it is. -/
def DeclarativeServer.withRbac (server : DeclarativeServer) (config : RbacConfig) :
    DeclarativeServer :=
  { rbac_config := some config
    rbac_middleware := config.provider.createProvider.or server.rbac_middleware }

/-- What becomes of a request. -/
inductive Outcome
  /-- Another endpoint, or a check in front of the model's, answers. -/
  | elsewhere
  | refused (status : ℕ) (body : String)
  | handler (path_segments : List (List Char))

/-- The request the provider is asked about. -/
def authRequest (req : Request) : Request :=
  { method := req.method
    path := req.path
    headers :=
      ((req.header "x-auth-password").map fun pwd ↦ ("x-auth-password", utf8 pwd.toList)).toList ++
        ((req.header "x-auth-role").map fun role ↦ ("x-auth-role", utf8 role.toList)).toList }

def Method.requiresAuth : Method → Bool
  | .post | .put | .delete => true
  | _ => false

section Router

variable (mac : List UInt8 → List UInt8 → List UInt8)

def isAuthenticated (provider : AuthProvider) (req : Request) : Bool :=
  match provider.authenticate mac (authRequest req) with
  | .ok ctx => ctx.authenticated
  | .error _ => false

/-- The answer of a router that refuses a request, with this provider. -/
def authorize (provider : AuthProvider) (req : Request) : Option (ℕ × String) :=
  if req.method.requiresAuth && !isAuthenticated mac provider req then
    some (401, "\x7b\"error\":\"Authentication required\"\x7d")
  else if req.method = .delete ∧ isAuthenticated mac provider req = true then
    -- Only an administrator can delete, when there is a role to look at.
    match req.header "x-auth-role" with
    | some role =>
      if role ≠ "Administrator" then
        some (403, "\x7b\"error\":\"Insufficient permissions for DELETE operation\"\x7d")
      else none
    | none => none
  else none

/-- The router of the model that a server has under this base path; `answered` tells which requests
get their answer before it comes to the model. -/
def router (answered : Request → Bool) (base_path : List Char) (server : DeclarativeServer)
    (req : Request) : Outcome :=
  let api_base_path := "/api/".toList ++ base_path
  if answered req then .elsewhere
  else if api_base_path.isPrefixOf req.path then
    match server.rbac_middleware.bind fun provider ↦ authorize mac provider req with
    | some (status, body) => .refused status body
    | none => .handler (((req.path.drop api_base_path.length).dropWhile (· = '/')).splitOn '/'
        |>.filter (· ≠ []))
  else .elsewhere

/-- The request is one for the model. -/
def ForModel (answered : Request → Bool) (base_path : List Char) (req : Request) : Prop :=
  answered req = false ∧ "/api/".toList ++ base_path <+: req.path

/-- The request comes to the handler of the model. -/
def Reaches (answered : Request → Bool) (base_path : List Char) (server : DeclarativeServer)
    (req : Request) : Prop :=
  ∃ path_segments, router mac answered base_path server req = .handler path_segments

/-- A write comes to the handler only when the provider has authenticated the caller, a deletion
only for an administrator, and a request without the headers is not authenticated and writes
nothing. -/
def Enforced (answered : Request → Bool) (base_path : List Char) (server : DeclarativeServer)
    (req : Request) : Prop :=
  (Reaches mac answered base_path server req → req.method.requiresAuth = true →
    ∃ provider ctx, server.rbac_middleware = some provider ∧
      provider.authenticate mac (authRequest req) = .ok ctx ∧ ctx.authenticated = true ∧
      (req.method = .delete → "Administrator" ∈ ctx.roles)) ∧
  (req.headers.lookup "x-auth-password" = none → req.headers.lookup "x-auth-role" = none →
    (∀ provider ctx, server.rbac_middleware = some provider →
      provider.authenticate mac (authRequest req) = .ok ctx → ctx.authenticated = false) ∧
    (req.method.requiresAuth = true → ¬ Reaches mac answered base_path server req))

end Router

/-! ### What reaches the handler -/

theorem utf8EncodeChar_ofNat :
    ∀ n < 128, String.utf8EncodeChar (Char.ofNat n) = [UInt8.ofNat n] := by
  decide

theorem utf8EncodeChar_visible {b : UInt8} (hb : isVisibleAscii b = true) :
    String.utf8EncodeChar (Char.ofNat b.toNat) = [b] := by
  have hlow : b.toNat < 128 := by
    simp only [isVisibleAscii, Bool.or_eq_true, Bool.and_eq_true, decide_eq_true_eq,
      beq_iff_eq] at hb
    omega
  rw [utf8EncodeChar_ofNat b.toNat hlow, UInt8.ofNat_toNat]

/-- A text that was read off a value is written as the same value. -/
theorem utf8_toStr {value : HeaderValue} {text : String} (h : value.toStr = some text) :
    utf8 text.toList = value := by
  unfold HeaderValue.toStr at h
  split_ifs at h with hvisible
  obtain rfl := Option.some.inj h
  clear h
  rw [String.toList_ofList]
  rw [List.all_eq_true] at hvisible
  unfold utf8
  induction value with
  | nil => rfl
  | cons b value ih =>
    rw [List.map_cons, List.flatMap_cons, utf8EncodeChar_visible (hvisible b List.mem_cons_self),
      ih fun c hc ↦ hvisible c (List.mem_cons_of_mem b hc)]
    rfl

/-- The text of a header is written as a value with the same text. -/
theorem toStr_utf8_header {req : Request} {name text : String} (h : req.header name = some text) :
    HeaderValue.toStr (utf8 text.toList) = some text := by
  obtain ⟨value, -, htext⟩ := Option.bind_eq_some_iff.mp h
  rw [utf8_toStr htext, htext]

/-- The request the provider sees has the two headers of the request. -/
theorem header_authRequest (req : Request) :
    (authRequest req).header "x-auth-password" = req.header "x-auth-password" ∧
      (authRequest req).header "x-auth-role" = req.header "x-auth-role" := by
  have hlookup (name : String) : (authRequest req).header name =
      ((authRequest req).headers.lookup name).bind HeaderValue.toStr := rfl
  have hne : ("x-auth-role" == "x-auth-password") = false := by decide
  have hne' : ("x-auth-password" == "x-auth-role") = false := by decide
  rw [hlookup, hlookup, authRequest]
  cases hpwd : req.header "x-auth-password" with
  | none =>
    cases hrole : req.header "x-auth-role" with
    | none => simp
    | some role => simp [hne', toStr_utf8_header hrole, List.lookup_cons]
  | some pwd =>
    cases hrole : req.header "x-auth-role" with
    | none => simp [hne, toStr_utf8_header hpwd, List.lookup_cons]
    | some role =>
      simp [hne, toStr_utf8_header hpwd, toStr_utf8_header hrole, List.lookup_cons]

section Enforcement

variable (mac : List UInt8 → List UInt8 → List UInt8)

/-- The caller gave the password of the provider. -/
def GivesPassword (password : String) (req : Request) : Prop :=
  ∃ pwd, req.header "x-auth-password" = some pwd ∧ constantTimeEq mac pwd password = true

/-- Who gives the password is authenticated, in the role asked for or in the default role. -/
theorem authenticate_password_eq_ok_iff {password default_role : String} {req : Request}
    {ctx : AuthContext} :
    (AuthProvider.password password default_role).authenticate mac (authRequest req) = .ok ctx ∧
        ctx.authenticated = true ↔
      GivesPassword mac password req ∧
        ctx = { user_id := some "authenticated_user"
                roles := [(req.header "x-auth-role").getD default_role]
                groups := []
                authenticated := true
                provider := "password"
                mfa_verified := false
                metadata := [] } := by
  obtain ⟨hpwd, hrole⟩ := header_authRequest req
  unfold AuthProvider.authenticate PasswordProvider.authenticate GivesPassword
  simp only [hpwd, hrole]
  cases req.header "x-auth-password" with
  | none =>
    refine iff_of_false ?_ (by simp)
    rintro ⟨hctx, hauthenticated⟩
    rw [← Except.ok.inj hctx] at hauthenticated
    exact absurd hauthenticated Bool.false_ne_true
  | some pwd =>
    by_cases hsame : constantTimeEq mac pwd password = true
    · simp only [hsame, if_true, Except.ok.injEq, Option.some.injEq, exists_eq_left', true_and]
      constructor
      · exact fun h ↦ h.1.symm
      · rintro rfl
        exact ⟨rfl, rfl⟩
    · simp [hsame]

theorem isAuthenticated_iff {provider : AuthProvider} {req : Request} :
    isAuthenticated mac provider req = true ↔
      ∃ ctx, provider.authenticate mac (authRequest req) = .ok ctx ∧ ctx.authenticated = true := by
  unfold isAuthenticated
  cases provider.authenticate mac (authRequest req) with
  | error e => simp
  | ok ctx => simp

theorem authorize_eq_none_iff {provider : AuthProvider} {req : Request} :
    authorize mac provider req = none ↔
      (req.method.requiresAuth = true → isAuthenticated mac provider req = true) ∧
        (req.method = .delete → ∀ role, req.header "x-auth-role" = some role →
          role = "Administrator") := by
  unfold authorize
  cases hrequires : req.method.requiresAuth with
  | false =>
    have hdelete : req.method ≠ .delete := by
      rintro hdelete
      rw [hdelete] at hrequires
      exact absurd hrequires nofun
    simp [hdelete]
  | true =>
    cases hauthenticated : isAuthenticated mac provider req with
    | false => simp
    | true =>
      by_cases hdelete : req.method = .delete
      · cases hrole : req.header "x-auth-role" with
        | none => simp [hdelete]
        | some role => simp [hdelete]
      · simp [hdelete]

theorem reaches_iff {answered : Request → Bool} {base_path : List Char}
    {server : DeclarativeServer} {req : Request} :
    Reaches mac answered base_path server req ↔ ForModel answered base_path req ∧
      ∀ provider, server.rbac_middleware = some provider → authorize mac provider req = none := by
  unfold Reaches router ForModel
  generalize "/api/".toList ++ base_path = api_base_path
  cases hanswered : answered req with
  | true => simp
  | false =>
    by_cases hpath : api_base_path <+: req.path
    · cases hprovider : server.rbac_middleware with
      | none => simp [hpath]
      | some provider =>
        cases hauthorize : authorize mac provider req with
        | none => simp [hpath, hauthorize]
        | some answer => simp [hpath, hauthorize]
    · simp [hpath]

/-- The deletion of a caller who gives the password and asks for no role, while the default role is
not the administrator's. -/
def DeletesByDefault (req : Request) : AuthProvider → Prop
  | .password password default_role =>
    req.method = .delete ∧ GivesPassword mac password req ∧ req.header "x-auth-role" = none ∧
      default_role ≠ "Administrator"
  | .google _ _ _ _ => False

/-- What is authenticated gave the password. -/
theorem not_authenticated_of_no_headers {provider : AuthProvider} {req : Request}
    {ctx : AuthContext} (hpwd : req.headers.lookup "x-auth-password" = none)
    (hctx : provider.authenticate mac (authRequest req) = .ok ctx) : ctx.authenticated = false := by
  cases provider with
  | google _ _ _ _ => exact absurd hctx nofun
  | password password default_role =>
    by_contra hauthenticated
    rw [Bool.not_eq_false] at hauthenticated
    obtain ⟨⟨pwd, hgiven, -⟩, -⟩ :=
      (authenticate_password_eq_ok_iff mac).mp ⟨hctx, hauthenticated⟩
    rw [Request.header, hpwd] at hgiven
    exact absurd hgiven nofun

/-- The role of an administrator who deletes is the one asked for, or the default role. -/
theorem administrator_mem_roles {provider : AuthProvider} {req : Request} {ctx : AuthContext}
    (hdelete : req.method = .delete) (hnot : ¬ DeletesByDefault mac req provider)
    (hauthorize : authorize mac provider req = none)
    (hctx : provider.authenticate mac (authRequest req) = .ok ctx)
    (hauthenticated : ctx.authenticated = true) : "Administrator" ∈ ctx.roles := by
  cases provider with
  | google _ _ _ _ => exact absurd hctx nofun
  | password password default_role =>
    obtain ⟨hgives, rfl⟩ := (authenticate_password_eq_ok_iff mac).mp ⟨hctx, hauthenticated⟩
    cases hrole : req.header "x-auth-role" with
    | some role =>
      have hadministrator := ((authorize_eq_none_iff mac).mp hauthorize).2 hdelete role hrole
      exact List.mem_singleton.mpr hadministrator.symm
    | none =>
      have hdefault : default_role = "Administrator" := by
        by_contra hne
        exact hnot ⟨hdelete, hgives, hrole, hne⟩
      exact List.mem_singleton.mpr hdefault.symm

/-- A deletion in the default role comes to the handler, whatever this role is. -/
theorem authorize_of_deletesByDefault {provider : AuthProvider} {req : Request}
    (h : DeletesByDefault mac req provider) :
    authorize mac provider req = none ∧ ∀ ctx,
      provider.authenticate mac (authRequest req) = .ok ctx → ctx.authenticated = true →
        "Administrator" ∉ ctx.roles := by
  cases provider with
  | google _ _ _ _ => exact absurd h id
  | password password default_role =>
    obtain ⟨hdelete, hgives, hrole, hdefault⟩ := h
    constructor
    · refine (authorize_eq_none_iff mac).mpr ⟨fun _ ↦ ?_, fun _ role hsome ↦ ?_⟩
      · exact (isAuthenticated_iff mac).mpr
          ⟨_, (authenticate_password_eq_ok_iff mac).mpr ⟨hgives, rfl⟩⟩
      · exact absurd (hrole.symm.trans hsome) nofun
    · intro ctx hctx hauthenticated hmem
      obtain ⟨-, rfl⟩ := (authenticate_password_eq_ok_iff mac).mp ⟨hctx, hauthenticated⟩
      rw [hrole] at hmem
      exact hdefault (List.mem_singleton.mp hmem).symm

/-- A write for the model is treated as it should be exactly when the server has a provider and the
write is not a deletion in the default role. -/
theorem enforced_iff (answered : Request → Bool) (base_path : List Char)
    (server : DeclarativeServer) (req : Request) :
    Enforced mac answered base_path server req ↔
      (req.method.requiresAuth = true → ForModel answered base_path req →
        ∃ provider, server.rbac_middleware = some provider ∧
          ¬ DeletesByDefault mac req provider) := by
  constructor
  · rintro ⟨hwrites, -⟩ hrequires hmodel
    cases hprovider : server.rbac_middleware with
    | none =>
      have hreaches := (reaches_iff mac).mpr ⟨hmodel, fun provider hsome ↦
        absurd (hprovider.symm.trans hsome) nofun⟩
      obtain ⟨provider, -, hsome, -⟩ := hwrites hreaches hrequires
      exact absurd (hprovider.symm.trans hsome) nofun
    | some provider =>
      refine ⟨provider, rfl, fun hdefault ↦ ?_⟩
      obtain ⟨hauthorize, hroles⟩ := authorize_of_deletesByDefault mac hdefault
      have hdelete : req.method = .delete := by
        cases provider with
        | google _ _ _ _ => exact absurd hdefault id
        | password _ _ => exact hdefault.1
      have hreaches := (reaches_iff mac).mpr ⟨hmodel, fun other hsome ↦ by
        rw [hprovider, Option.some.injEq] at hsome
        exact hsome ▸ hauthorize⟩
      obtain ⟨other, ctx, hsome, hctx, hauthenticated, hadministrator⟩ := hwrites hreaches hrequires
      rw [hprovider, Option.some.injEq] at hsome
      subst hsome
      exact hroles ctx hctx hauthenticated (hadministrator hdelete)
  · intro h
    have hauthenticated (hreaches : Reaches mac answered base_path server req)
        (hrequires : req.method.requiresAuth = true) :
        ∃ provider ctx, server.rbac_middleware = some provider ∧
          authorize mac provider req = none ∧ ¬ DeletesByDefault mac req provider ∧
          provider.authenticate mac (authRequest req) = .ok ctx ∧ ctx.authenticated = true := by
      obtain ⟨hmodel, hauthorize⟩ := (reaches_iff mac).mp hreaches
      obtain ⟨provider, hprovider, hnot⟩ := h hrequires hmodel
      obtain ⟨ctx, hctx⟩ := (isAuthenticated_iff mac).mp
        (((authorize_eq_none_iff mac).mp (hauthorize provider hprovider)).1 hrequires)
      exact ⟨provider, ctx, hprovider, hauthorize provider hprovider, hnot, hctx⟩
    constructor
    · intro hreaches hrequires
      obtain ⟨provider, ctx, hprovider, hauthorize, hnot, hctx, hok⟩ :=
        hauthenticated hreaches hrequires
      exact ⟨provider, ctx, hprovider, hctx, hok, fun hdelete ↦
        administrator_mem_roles mac hdelete hnot hauthorize hctx hok⟩
    · intro hpwd _
      refine ⟨fun provider ctx _ hctx ↦ not_authenticated_of_no_headers mac hpwd hctx, ?_⟩
      intro hrequires hreaches
      obtain ⟨provider, ctx, -, -, -, hctx, hok⟩ := hauthenticated hreaches hrequires
      rw [not_authenticated_of_no_headers mac hpwd hctx] at hok
      exact absurd hok Bool.false_ne_true

/-- Whoever gives the password deletes in the default role of a user. -/
theorem not_enforced_deletion :
    ¬ ∃ mac : List UInt8 → List UInt8 → List UInt8, ∀ (answered : Request → Bool)
      (base_path : List Char) (config : RbacConfig) (req : Request), config.enabled = true →
        Enforced mac answered base_path (DeclarativeServer.withRbac ⟨none, none⟩ config) req := by
  rintro ⟨mac, h⟩
  let provider : AuthProvider := .password "secret" "User"
  let config : RbacConfig := ⟨true, ["Public"], "Public", .password "secret" "User"⟩
  let server := DeclarativeServer.withRbac ⟨none, none⟩ config
  let req : Request := ⟨.delete, "/api/products/1".toList,
    [("x-auth-password", utf8 "secret".toList)]⟩
  have hdefault : DeletesByDefault mac req provider :=
    ⟨rfl, ⟨"secret", by decide, beq_self_eq_true _⟩, rfl, by decide⟩
  have hprovider : server.rbac_middleware = some provider := rfl
  obtain ⟨hauthorize, hroles⟩ := authorize_of_deletesByDefault mac hdefault
  have hreaches : Reaches mac (fun _ ↦ false) "products".toList server req := by
    refine (reaches_iff mac).mpr ⟨⟨rfl, by decide⟩, fun other hsome ↦ ?_⟩
    rw [hprovider, Option.some.injEq] at hsome
    exact hsome ▸ hauthorize
  obtain ⟨other, ctx, hsome, hctx, hauthenticated, hadministrator⟩ :=
    (h (fun _ ↦ false) "products".toList config req rfl).1 hreaches rfl
  obtain rfl : provider = other := Option.some.inj (hprovider.symm.trans hsome)
  exact hroles ctx hctx hauthenticated (hadministrator rfl)

end Enforcement
end Lithair.Rbac
