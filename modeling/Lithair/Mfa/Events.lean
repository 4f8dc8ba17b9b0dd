import Mathlib.Data.String.Basic

/-!
# Events of multi-factor authentication

The events of `mfa/events.rs` and the state that they lead to: for each user the TOTP secret, if
there is one, and whether MFA is enabled. A time is the text that `chrono` writes for it.

`secret_apply` and `isEnabled_apply` say what an event does to the two parts of a user's state that
authentication looks at.
-/

namespace Lithair.Mfa

inductive TotpAlgorithm
  | sha1
  | sha256
  | sha512
  deriving DecidableEq

/-- A secret without the instance of the TOTP library that is made from it. -/
structure TotpSecret where
  secret : String
  algorithm : TotpAlgorithm
  digits : ℕ
  step : ℕ
  issuer : Option String
  accountName : Option String
  deriving DecidableEq

inductive MfaEvent
  | mfaSetupInitiated (username : String) (secret : TotpSecret) (timestamp : String)
  | mfaEnabled (username timestamp : String)
  | mfaDisabled (username : String) (reason : Option String) (timestamp : String)
  | mfaCodeVerified (username timestamp : String)
  | mfaCodeVerificationFailed (username reason timestamp : String)
  | backupCodesGenerated (username : String) (codesCount : ℕ) (timestamp : String)
  | backupCodeUsed (username timestamp : String)
  deriving DecidableEq

def MfaEvent.username : MfaEvent → String
  | .mfaSetupInitiated username _ _ => username
  | .mfaEnabled username _ => username
  | .mfaDisabled username _ _ => username
  | .mfaCodeVerified username _ => username
  | .mfaCodeVerificationFailed username _ _ => username
  | .backupCodesGenerated username _ _ => username
  | .backupCodeUsed username _ => username

structure MfaStatus where
  enabled : Bool
  required : Bool
  enabledAt : Option String
  deriving DecidableEq

structure UserMfaState where
  secret : Option TotpSecret
  status : MfaStatus
  backupCodes : List String
  lastVerification : Option String
  failedAttempts : ℕ
  deriving DecidableEq

/-- A user of whom nothing is known yet. -/
def UserMfaState.empty : UserMfaState where
  secret := none
  status := ⟨false, false, none⟩
  backupCodes := []
  lastVerification := none
  failedAttempts := 0

/-- The users by name. -/
@[ext] structure MfaState where
  users : String → Option UserMfaState

namespace MfaState

def empty : MfaState := ⟨fun _ ↦ none⟩

/-- Change the entry of a user, which is made when there is none. -/
def upsert (state : MfaState) (username : String) (f : UserMfaState → UserMfaState) : MfaState :=
  ⟨Function.update state.users username
    (some (f ((state.users username).getD UserMfaState.empty)))⟩

/-- Change the entry of a user who has one. -/
def modify (state : MfaState) (username : String) (f : UserMfaState → UserMfaState) : MfaState :=
  ⟨Function.update state.users username ((state.users username).map f)⟩

def apply (state : MfaState) : MfaEvent → MfaState
  | .mfaSetupInitiated username secret _ =>
    state.upsert username fun user ↦ { user with secret := some secret }
  | .mfaEnabled username timestamp =>
    state.modify username fun user ↦
      { user with
        status :=
          { user.status with
            enabled := true
            enabledAt := some timestamp } }
  | .mfaDisabled username _ _ =>
    state.modify username fun user ↦
      { user with
        status :=
          { user.status with
            enabled := false
            enabledAt := none }
        secret := none
        backupCodes := [] }
  | .mfaCodeVerified username timestamp =>
    state.modify username fun user ↦
      { user with
        lastVerification := some timestamp
        failedAttempts := 0 }
  | .mfaCodeVerificationFailed username _ _ =>
    state.upsert username fun user ↦ { user with failedAttempts := user.failedAttempts + 1 }
  | .backupCodesGenerated _ _ _ => state
  | .backupCodeUsed _ _ => state

def replay (events : List MfaEvent) : MfaState := events.foldl apply empty

/-! ### What an event does -/

/-- The secret of a user. -/
def secret (state : MfaState) (username : String) : Option TotpSecret :=
  (state.users username).bind UserMfaState.secret

/-- Whether MFA is enabled for a user. -/
def isEnabled (state : MfaState) (username : String) : Bool :=
  ((state.users username).map fun user ↦ user.status.enabled).getD false

theorem replay_append (first second : List MfaEvent) :
    replay (first ++ second) = second.foldl apply (replay first) := List.foldl_append

variable (state : MfaState)

theorem secret_upsert (username : String) (f : UserMfaState → UserMfaState) (other : String) :
    (state.upsert username f).secret other =
      if other = username then (f ((state.users username).getD UserMfaState.empty)).secret
      else state.secret other := by
  simp only [secret, upsert, Function.update_apply]
  split_ifs <;> rfl

theorem secret_modify (username : String) (f : UserMfaState → UserMfaState) (other : String) :
    (state.modify username f).secret other =
      if other = username then (state.users username).bind fun user ↦ (f user).secret
      else state.secret other := by
  simp only [secret, modify, Function.update_apply]
  split_ifs
  · cases state.users username <;> rfl
  · rfl

theorem isEnabled_upsert (username : String) (f : UserMfaState → UserMfaState) (other : String) :
    (state.upsert username f).isEnabled other =
      if other = username then (f ((state.users username).getD UserMfaState.empty)).status.enabled
      else state.isEnabled other := by
  simp only [isEnabled, upsert, Function.update_apply]
  split_ifs <;> rfl

theorem isEnabled_modify (username : String) (f : UserMfaState → UserMfaState) (other : String) :
    (state.modify username f).isEnabled other =
      if other = username then
        ((state.users username).map fun user ↦ (f user).status.enabled).getD false
      else state.isEnabled other := by
  simp only [isEnabled, modify, Function.update_apply]
  split_ifs
  · cases state.users username <;> rfl
  · rfl

/-- A setup puts a secret in its user's place, disabling takes the secret away, and no other event
touches a secret. -/
theorem secret_apply (event : MfaEvent) (username : String) :
    (state.apply event).secret username =
      match event with
      | .mfaSetupInitiated other secret _ =>
        if username = other then some secret else state.secret username
      | .mfaDisabled other _ _ => if username = other then none else state.secret username
      | _ => state.secret username := by
  cases event with
  | mfaSetupInitiated other secret timestamp => rw [apply, secret_upsert]
  | mfaEnabled other timestamp =>
    rw [apply, secret_modify]
    split_ifs with hsame
    · rw [hsame]
      rfl
    · rfl
  | mfaDisabled other reason timestamp =>
    rw [apply, secret_modify]
    simp only
    split_ifs
    · cases state.users other <;> rfl
    · rfl
  | mfaCodeVerified other timestamp =>
    rw [apply, secret_modify]
    split_ifs with hsame
    · rw [hsame]
      rfl
    · rfl
  | mfaCodeVerificationFailed other reason timestamp =>
    rw [apply, secret_upsert]
    split_ifs with hsame
    · rw [hsame, secret]
      cases state.users other <;> rfl
    · rfl
  | backupCodesGenerated other codesCount timestamp => rfl
  | backupCodeUsed other timestamp => rfl

/-- Of a user who has an entry, `MfaEnabled` enables MFA and `MfaDisabled` disables it. -/
theorem isEnabled_apply (event : MfaEvent) (username : String) :
    (state.apply event).isEnabled username =
      match event with
      | .mfaEnabled other _ =>
        if username = other then (state.users username).isSome else state.isEnabled username
      | .mfaDisabled other _ _ => if username = other then false else state.isEnabled username
      | _ => state.isEnabled username := by
  cases event with
  | mfaSetupInitiated other secret timestamp =>
    rw [apply, isEnabled_upsert]
    split_ifs with hsame
    · rw [hsame, isEnabled]
      cases state.users other <;> rfl
    · rfl
  | mfaEnabled other timestamp =>
    rw [apply, isEnabled_modify]
    simp only
    split_ifs with hsame
    · rw [hsame]
      cases state.users other <;> rfl
    · rfl
  | mfaDisabled other reason timestamp =>
    rw [apply, isEnabled_modify]
    simp only
    split_ifs
    · cases state.users other <;> rfl
    · rfl
  | mfaCodeVerified other timestamp =>
    rw [apply, isEnabled_modify]
    split_ifs with hsame
    · rw [hsame]
      rfl
    · rfl
  | mfaCodeVerificationFailed other reason timestamp =>
    rw [apply, isEnabled_upsert]
    split_ifs with hsame
    · rw [hsame, isEnabled]
      cases state.users other <;> rfl
    · rfl
  | backupCodesGenerated other codesCount timestamp => rfl
  | backupCodeUsed other timestamp => rfl

end MfaState

end Lithair.Mfa
