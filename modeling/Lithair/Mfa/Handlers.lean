import Lithair.Lib.Run
import Lithair.Mfa.Events

/-!
# The MFA requests

The handlers of `mfa/handlers.rs` over `MfaStorage` of `mfa/storage.rs`, for any number of requests
at once. A handler reads the record of its user once, checks the code that the request carries
against the secret it has read, and then appends its events one after the other; between two of
these, other requests go on. The TOTP library is a parameter, which answers whether a code is valid
for a secret at a time.

`keepsMfa_iff_undisturbed`: in a run, an enabled user's secret stays, and MFA stays enabled, except
through a code for that secret, exactly when no secret is saved for an enabled user and the secret
of a user who is disabled is still one that the code is valid for.
-/

namespace Lithair.Mfa

open Lithair.Lib.Run

/-- Whether a code is valid for a secret at a time, if that can be said. -/
abbrev TotpValidator := TotpSecret → String → ℕ → Option Bool

/-- A code that was found to be valid for a secret, at a time. -/
structure CheckedCode (validate : TotpValidator) where
  secret : TotpSecret
  code : String
  now : ℕ
  valid : validate secret code now = some true

structure UserMfaData where
  secret : TotpSecret
  status : MfaStatus
  backupCodes : List String

/-- The data of a user who has a secret. -/
def MfaState.get (state : MfaState) (username : String) : Option UserMfaData :=
  (state.users username).bind fun user ↦
    user.secret.map fun secret ↦ ⟨secret, user.status, user.backupCodes⟩

/-- The requests, with what is read of the query or the body, if it can be read. -/
inductive MfaRequest
  | status (username : Option String)
  | setup (username : Option String)
  | enable (body : Option (String × String))
  | disable (body : Option (String × String))
  | verify (body : Option (String × String))

inductive MfaResponse
  | status (enabled required : Bool)
  | setup (secret : TotpSecret)
  | success (message : String)
  | unauthorized (message : String)
  | badRequest (error : String)
  | failed (message : String)
  deriving DecidableEq

/-- What follows on a code that is recorded as valid. -/
inductive AfterSuccess
  | enable
  | disable
  | answer (message : String)

/-- Where a request is: what it is to append next, or its answer. -/
inductive MfaCall (validate : TotpValidator)
  | saving (username : String) (secret : TotpSecret)
  | recordingFailure (username : String) (response : MfaResponse)
  | recordingSuccess (username : String) (checked : CheckedCode validate) (next : AfterSuccess)
  | enabling (username : String) (checked : CheckedCode validate)
  | disabling (username : String) (checked : CheckedCode validate)
  | answered (response : MfaResponse)

namespace MfaCall

variable {validate : TotpValidator}

/-- The event that is appended next. -/
def event (timestamp : String) : MfaCall validate → Option MfaEvent
  | .saving username secret => some (.mfaSetupInitiated username secret timestamp)
  | .recordingFailure username _ =>
    some (.mfaCodeVerificationFailed username "invalid_code" timestamp)
  | .recordingSuccess username _ _ => some (.mfaCodeVerified username timestamp)
  | .enabling username _ => some (.mfaEnabled username timestamp)
  | .disabling username _ => some (.mfaDisabled username (some "user_request") timestamp)
  | .answered _ => none

/-- Where the request is when the event was appended. -/
def next : MfaCall validate → MfaCall validate
  | .saving _ secret => .answered (.setup secret)
  | .recordingFailure _ response => .answered response
  | .recordingSuccess username checked .enable => .enabling username checked
  | .recordingSuccess username checked .disable => .disabling username checked
  | .recordingSuccess _ _ (.answer message) => .answered (.success message)
  | .enabling _ _ => .answered (.success "MFA enabled successfully")
  | .disabling _ _ => .answered (.success "MFA disabled successfully")
  | .answered response => .answered response

/-- The code that the request carries, which was found to be valid for some secret. -/
def checked : MfaCall validate → Option (CheckedCode validate)
  | .recordingSuccess _ checked _ => some checked
  | .enabling _ checked => some checked
  | .disabling _ checked => some checked
  | _ => none

end MfaCall

section Handlers

variable (validate : TotpValidator)

/-- Check a code, and record what comes out of it. -/
def check (username : String) (secret : TotpSecret) (code : String) (now : ℕ) (next : AfterSuccess)
    (rejection : MfaResponse) : MfaCall validate :=
  match hvalid : validate secret code now with
  | none => .answered (.failed "Validation error")
  | some false => .recordingFailure username rejection
  | some true => .recordingSuccess username ⟨secret, code, now, hvalid⟩ next

def handleMfaStatus (state : MfaState) : Option String → MfaCall validate
  | none => .answered (.failed "Missing username parameter")
  | some username => .answered (.status (state.isEnabled username) false)

/-- The secret is generated with its QR code and its URI, unless that fails. -/
def handleMfaSetup (generated : Option TotpSecret) : Option String → MfaCall validate
  | none => .answered (.failed "Invalid body")
  | some username =>
    match generated with
    | none => .answered (.failed "Failed to generate the secret")
    | some secret => .saving username secret

def handleMfaEnable (state : MfaState) (now : ℕ) : Option (String × String) → MfaCall validate
  | none => .answered (.failed "Invalid body")
  | some (username, code) =>
    match state.get username with
    | none => .answered (.failed "MFA not set up. Call /auth/mfa/setup first")
    | some data => check validate username data.secret code now .enable (.badRequest "Invalid code")

def handleMfaDisable (state : MfaState) (now : ℕ) : Option (String × String) → MfaCall validate
  | none => .answered (.failed "Invalid body")
  | some (username, code) =>
    match state.get username with
    | none => .answered (.failed "MFA not enabled")
    | some data =>
      check validate username data.secret code now .disable (.badRequest "Invalid code")

def handleMfaVerify (state : MfaState) (now : ℕ) : Option (String × String) → MfaCall validate
  | none => .answered (.failed "Invalid body")
  | some (username, code) =>
    match state.get username with
    | none => .answered (.failed "MFA not enabled for this user")
    | some data =>
      if data.status.enabled then
        check validate username data.secret code now (.answer "Valid code")
          (.unauthorized "Invalid code")
      else .answered (.badRequest "MFA not enabled")

/-- What a handler does up to the first event that it appends. -/
def handleRequest (state : MfaState) (now : ℕ) (generated : Option TotpSecret) :
    MfaRequest → MfaCall validate
  | .status username => handleMfaStatus validate state username
  | .setup username => handleMfaSetup validate generated username
  | .enable body => handleMfaEnable validate state now body
  | .disable body => handleMfaDisable validate state now body
  | .verify body => handleMfaVerify validate state now body

end Handlers

/-! ### The storage and its requests -/

/-- The state in memory, and the requests by number. -/
structure MfaStorage (validate : TotpValidator) where
  state : MfaState
  calls : ℕ → Option (MfaCall validate)

/-- A request comes in, with the secret generated for it; or one of them appends its event, which
can fail. -/
inductive MfaAction
  | request (c : ℕ) (request : MfaRequest) (now : ℕ) (generated : Option TotpSecret)
  | append (c : ℕ) (timestamp : String) (written : Bool)

namespace MfaStorage

variable {validate : TotpValidator}

/-- A storage over a log, without requests. -/
def start (validate : TotpValidator) (events : List MfaEvent) : MfaStorage validate where
  state := MfaState.replay events
  calls := fun _ ↦ none

def setCall (s : MfaStorage validate) (c : ℕ) (call : MfaCall validate) : MfaStorage validate :=
  { s with calls := Function.update s.calls c (some call) }

def step (s : MfaStorage validate) : MfaAction → Option (MfaStorage validate)
  | .request c request now generated =>
    match s.calls c with
    | none => some (s.setCall c (handleRequest validate s.state now generated request))
    | some _ => none
  | .append c timestamp written =>
    match s.calls c with
    | none => none
    | some call =>
      match call.event timestamp with
      | none => none
      | some event =>
        if written then some ({ s with state := s.state.apply event }.setCall c call.next)
        else some (s.setCall c (.answered (.failed "Failed to write event")))

/-! ### What is meant to hold -/

/-- The code that the request which moves carries. -/
def checkedCode (s : MfaStorage validate) : MfaAction → Option (CheckedCode validate)
  | .request _ _ _ _ => none
  | .append c _ _ => (s.calls c).bind MfaCall.checked

/-- Where MFA is enabled, the secret stays and MFA stays enabled, unless the request that moves
carries a code that is valid for the secret before the step. -/
def KeepsMfa (s : MfaStorage validate) (a : MfaAction) : Prop :=
  ∀ next, s.step a = some next → ∀ username, s.state.isEnabled username →
    next.state.secret username = s.state.secret username ∧ next.state.isEnabled username ∨
      ∃ checked secret, s.checkedCode a = some checked ∧ s.state.secret username = some secret ∧
        validate secret checked.code checked.now = some true

/-- No other secret is saved for a user with MFA enabled, and when such a user is disabled, the
secret is the one that the code was checked against, or another one that it is valid for. -/
def Undisturbed (s : MfaStorage validate) : MfaAction → Prop
  | .append c _ true =>
    match s.calls c with
    | some (.saving username secret) =>
      s.state.isEnabled username → s.state.secret username = some secret
    | some (.disabling username checked) =>
      s.state.isEnabled username → ∃ secret, s.state.secret username = some secret ∧
        (secret = checked.secret ∨ validate secret checked.code checked.now = some true)
    | _ => True
  | _ => True

/-! ### When it holds -/

variable {s next : MfaStorage validate}

/-- What a step does to the state: nothing, or it applies the event of a request. -/
theorem step_cases {a : MfaAction} (h : s.step a = some next) :
    (∀ c timestamp, a ≠ .append c timestamp true) ∧ next.state = s.state ∨
      ∃ c timestamp call event, a = .append c timestamp true ∧ s.calls c = some call ∧
        call.event timestamp = some event ∧ next.state = s.state.apply event := by
  cases a with
  | request c request now generated =>
    simp only [step] at h
    split at h
    · obtain rfl := Option.some.inj h
      exact Or.inl ⟨fun _ _ ↦ MfaAction.noConfusion, rfl⟩
    · exact absurd h (by simp)
  | append c timestamp written =>
    simp only [step] at h
    split at h
    · exact absurd h (by simp)
    · next call hcall =>
      split at h
      · exact absurd h (by simp)
      · next event hevent =>
        split_ifs at h with hwritten
        · obtain rfl := Option.some.inj h
          subst hwritten
          exact Or.inr ⟨c, timestamp, call, event, rfl, hcall, hevent, rfl⟩
        · obtain rfl := Option.some.inj h
          refine Or.inl ⟨fun _ _ happend ↦ hwritten ?_, rfl⟩
          obtain ⟨-, -, rfl⟩ := MfaAction.append.inj happend
          rfl

/-- The state goes on without harm to an enabled user exactly when the next event is neither a
setup with another secret nor a deactivation. -/
theorem harmless_iff (state : MfaState) (call : MfaCall validate) {timestamp : String}
    {event : MfaEvent} (hevent : call.event timestamp = some event) (username : String)
    (henabled : state.isEnabled username) :
    ((state.apply event).secret username = state.secret username ∧
        (state.apply event).isEnabled username) ↔
      (∀ secret, call = .saving username secret → state.secret username = some secret) ∧
        ∀ checked, call ≠ .disabling username checked := by
  have hentry : (state.users username).isSome := by
    cases hstate : state.users username with
    | some user => rfl
    | none =>
      rw [MfaState.isEnabled, hstate] at henabled
      exact absurd henabled (by simp)
  rw [MfaState.secret_apply, MfaState.isEnabled_apply]
  cases call with
  | saving other secret =>
    obtain rfl := Option.some.inj hevent
    simp only [henabled, and_true, MfaCall.saving.injEq]
    by_cases hsame : username = other
    · subst hsame
      simp [eq_comm]
    · simp [hsame, Ne.symm hsame]
  | recordingFailure other response =>
    obtain rfl := Option.some.inj hevent
    simp [henabled]
  | recordingSuccess other checked after =>
    obtain rfl := Option.some.inj hevent
    simp [henabled]
  | enabling other checked =>
    obtain rfl := Option.some.inj hevent
    simp [henabled, hentry]
  | disabling other checked =>
    obtain rfl := Option.some.inj hevent
    by_cases hsame : username = other
    · subst hsame
      simp
    · simp [hsame, Ne.symm hsame, henabled]
  | answered response => exact absurd hevent (by simp [MfaCall.event])

theorem keepsMfa_iff {a : MfaAction} (h : s.step a = some next) :
    s.KeepsMfa a ↔ s.Undisturbed a := by
  rcases step_cases h with
    ⟨hquiet, hstate⟩ | ⟨c, timestamp, call, event, rfl, hcall, hevent, hstate⟩
  · refine iff_of_true (fun other hother username henabled ↦ Or.inl ?_) ?_
    · obtain rfl := Option.some.inj (h.symm.trans hother)
      rw [hstate]
      exact ⟨rfl, henabled⟩
    · unfold Undisturbed
      split
      · next c timestamp => exact absurd rfl (hquiet c timestamp)
      · trivial
  have hkeeps : s.KeepsMfa (.append c timestamp true) ↔ ∀ username, s.state.isEnabled username →
      ((∀ secret, call = .saving username secret → s.state.secret username = some secret) ∧
        ∀ checked, call ≠ .disabling username checked) ∨
      ∃ checked secret, call.checked = some checked ∧ s.state.secret username = some secret ∧
        validate secret checked.code checked.now = some true := by
    unfold KeepsMfa checkedCode
    simp only [h, Option.some.injEq, forall_eq', hstate, hcall, Option.bind_some]
    exact forall₂_congr fun username henabled ↦
      or_congr (harmless_iff s.state call hevent username henabled) Iff.rfl
  rw [hkeeps]
  simp only [Undisturbed, hcall]
  cases call with
  | saving username secret =>
    constructor
    · intro hall henabled
      rcases hall username henabled with ⟨hsaving, -⟩ | ⟨checked, -, hchecked, -⟩
      · exact hsaving secret rfl
      · exact absurd hchecked (by simp [MfaCall.checked])
    · intro hsame other henabled
      refine Or.inl ⟨fun saved heq ↦ ?_, fun checked hdisabling ↦ absurd hdisabling (by simp)⟩
      obtain ⟨rfl, rfl⟩ := MfaCall.saving.inj heq
      exact hsame henabled
  | disabling username checked =>
    constructor
    · intro hall henabled
      rcases hall username henabled with ⟨-, hnone⟩ | ⟨checked', secret, hchecked, hsecret, hvalid⟩
      · exact absurd rfl (hnone checked)
      · obtain rfl := Option.some.inj hchecked
        exact ⟨secret, hsecret, Or.inr hvalid⟩
    · intro hcode other henabled
      by_cases hsame : username = other
      · subst hsame
        obtain ⟨secret, hsecret, hvalid⟩ := hcode henabled
        refine Or.inr ⟨checked, secret, rfl, hsecret, ?_⟩
        rcases hvalid with rfl | hvalid
        · exact checked.valid
        · exact hvalid
      · refine Or.inl ⟨fun secret heq ↦ absurd heq (by simp), fun checked' heq ↦ ?_⟩
        exact hsame (MfaCall.disabling.inj heq).1
  | recordingFailure username response => simp
  | recordingSuccess username checked after => simp
  | enabling username checked => simp
  | answered response => simp

/-- In a run, MFA keeps what it protects exactly when no other secret is saved for a user with MFA
enabled, and a user is disabled while the code is valid for the secret. -/
theorem keepsMfa_iff_undisturbed (s : MfaStorage validate) (actions : List MfaAction) :
    EachStep step KeepsMfa s actions ↔ EachStep step Undisturbed s actions :=
  eachStep_congr fun _ _ _ hstep ↦ keepsMfa_iff hstep

/-! ### A setup for somebody else -/

section Takeover

/-- A secret whose code is always the same. -/
def sampleSecret (code : String) : TotpSecret := ⟨code, .sha256, 6, 30, some "Lithair", none⟩

def sampleValidate : TotpValidator := fun secret code _ ↦ some (decide (secret.secret = code))

/-- MFA is enabled for alice. -/
def aliceEnabled : List MfaEvent :=
  [.mfaSetupInitiated "alice" (sampleSecret "123456") "2026-01-01T00:00:00Z",
    .mfaEnabled "alice" "2026-01-01T00:00:00Z"]

/-- Anybody asks for a setup in her name. -/
def setupAgain : List MfaAction :=
  [.request 0 (.setup (some "alice")) 0 (some (sampleSecret "654321")),
    .append 0 "2026-01-02T00:00:00Z" true]

/-- The secret of a user with MFA enabled is replaced without a code. -/
theorem secret_replaced :
    ¬ ∀ actions, EachStep step KeepsMfa (start sampleValidate aliceEnabled) actions := by
  intro h
  obtain ⟨-, hrest⟩ := h setupAgain _ rfl
  obtain ⟨hkeeps, -⟩ := hrest _ rfl
  rcases hkeeps _ rfl "alice" rfl with ⟨hsecret, -⟩ | ⟨checked, -, hchecked, -⟩
  · exact absurd hsecret (by decide)
  · exact absurd hchecked (by simp [checkedCode, setCall, handleRequest, handleMfaSetup,
      MfaCall.checked])

end Takeover

end MfaStorage

end Lithair.Mfa
