import Lithair.Lib.JsonText
import Lithair.Mfa.Events

/-!
# The JSON text of an MFA event

What the serializer that `serde` derives for `MfaEvent` of `mfa/events.rs` writes: an object whose
first field is the name of the kind of the event, and whose other fields are those of the kind. Of
the secret the instance of the TOTP library is left out.

`eventFormat` writes such a text and reads it back. It does not look at what is behind the object,
and an object has no control character.
-/

namespace Lithair.Mfa

open Lithair.Lib.JsonText

/-! ### Names -/

def TotpAlgorithm.name : TotpAlgorithm → String
  | .sha1 => "SHA1"
  | .sha256 => "SHA256"
  | .sha512 => "SHA512"

def TotpAlgorithm.ofName (name : String) : Option TotpAlgorithm :=
  [TotpAlgorithm.sha1, .sha256, .sha512].find? fun algorithm ↦ algorithm.name == name

theorem TotpAlgorithm.ofName_name : ∀ algorithm : TotpAlgorithm,
    ofName algorithm.name = some algorithm := by
  rintro (_ | _ | _) <;> decide

inductive MfaEventType
  | mfaSetupInitiated
  | mfaEnabled
  | mfaDisabled
  | mfaCodeVerified
  | mfaCodeVerificationFailed
  | backupCodesGenerated
  | backupCodeUsed
  deriving DecidableEq

namespace MfaEventType

def name : MfaEventType → String
  | mfaSetupInitiated => "MfaSetupInitiated"
  | mfaEnabled => "MfaEnabled"
  | mfaDisabled => "MfaDisabled"
  | mfaCodeVerified => "MfaCodeVerified"
  | mfaCodeVerificationFailed => "MfaCodeVerificationFailed"
  | backupCodesGenerated => "BackupCodesGenerated"
  | backupCodeUsed => "BackupCodeUsed"

def ofName (name : String) : Option MfaEventType :=
  [mfaSetupInitiated, mfaEnabled, mfaDisabled, mfaCodeVerified, mfaCodeVerificationFailed,
    backupCodesGenerated, backupCodeUsed].find? fun eventType ↦ eventType.name == name

theorem ofName_name : ∀ eventType : MfaEventType, ofName eventType.name = some eventType := by
  rintro (_ | _ | _ | _ | _ | _ | _) <;> decide

end MfaEventType

def MfaEvent.type : MfaEvent → MfaEventType
  | .mfaSetupInitiated _ _ _ => .mfaSetupInitiated
  | .mfaEnabled _ _ => .mfaEnabled
  | .mfaDisabled _ _ _ => .mfaDisabled
  | .mfaCodeVerified _ _ => .mfaCodeVerified
  | .mfaCodeVerificationFailed _ _ _ => .mfaCodeVerificationFailed
  | .backupCodesGenerated _ _ _ => .backupCodesGenerated
  | .backupCodeUsed _ _ => .backupCodeUsed

/-! ### The fields -/

def usernameFormat : Format String := .behind ",\"username\":".toList .text

/-- The last field, and the end of the object. -/
def timestampFormat : Format (String × Unit) :=
  (Format.behind "\"timestamp\":".toList .text).andThen (.mark ['}'])

def secretFormat : Format TotpSecret :=
  ((Format.behind "\x7b\"secret\":".toList .text).andThen <|
    (Format.behind ",\"algorithm\":".toList
      (Format.text.only TotpAlgorithm.ofName _ TotpAlgorithm.ofName_name)).andThen <|
    (Format.behind ",\"digits\":".toList .numeral).andThen <|
    (Format.behind "\"step\":".toList .numeral).andThen <|
    (Format.behind "\"issuer\":".toList .nullable).andThen <|
    (Format.behind ",\"account_name\":".toList .nullable).andThen (.mark ['}'])).map
    (fun (secret, algorithm, digits, step, issuer, accountName, _) ↦
      ⟨secret, algorithm, digits, step, issuer, accountName⟩)
    (fun s ↦ (s.secret, s.algorithm, s.digits, s.step, s.issuer, s.accountName, ()))
    fun _ ↦ rfl

/-- The fields of an event behind its kind. -/
def fieldsFormat : (eventType : MfaEventType) → Format {e : MfaEvent // e.type = eventType}
  | .mfaSetupInitiated =>
    (usernameFormat.andThen <|
      (Format.behind ",\"secret\":".toList secretFormat).andThen <|
      .behind [','] timestampFormat).map
      (fun (username, secret, timestamp, _) ↦ ⟨.mfaSetupInitiated username secret timestamp, rfl⟩)
      (fun ⟨.mfaSetupInitiated username secret timestamp, _⟩ ↦ (username, secret, timestamp, ()))
      fun ⟨.mfaSetupInitiated _ _ _, _⟩ ↦ rfl
  | .mfaEnabled =>
    (usernameFormat.andThen (.behind [','] timestampFormat)).map
      (fun (username, timestamp, _) ↦ ⟨.mfaEnabled username timestamp, rfl⟩)
      (fun ⟨.mfaEnabled username timestamp, _⟩ ↦ (username, timestamp, ()))
      fun ⟨.mfaEnabled _ _, _⟩ ↦ rfl
  | .mfaDisabled =>
    (usernameFormat.andThen <|
      (Format.behind ",\"reason\":".toList .nullable).andThen <|
      .behind [','] timestampFormat).map
      (fun (username, reason, timestamp, _) ↦ ⟨.mfaDisabled username reason timestamp, rfl⟩)
      (fun ⟨.mfaDisabled username reason timestamp, _⟩ ↦ (username, reason, timestamp, ()))
      fun ⟨.mfaDisabled _ _ _, _⟩ ↦ rfl
  | .mfaCodeVerified =>
    (usernameFormat.andThen (.behind [','] timestampFormat)).map
      (fun (username, timestamp, _) ↦ ⟨.mfaCodeVerified username timestamp, rfl⟩)
      (fun ⟨.mfaCodeVerified username timestamp, _⟩ ↦ (username, timestamp, ()))
      fun ⟨.mfaCodeVerified _ _, _⟩ ↦ rfl
  | .mfaCodeVerificationFailed =>
    (usernameFormat.andThen <|
      (Format.behind ",\"reason\":".toList .text).andThen <|
      .behind [','] timestampFormat).map
      (fun (username, reason, timestamp, _) ↦
        ⟨.mfaCodeVerificationFailed username reason timestamp, rfl⟩)
      (fun ⟨.mfaCodeVerificationFailed username reason timestamp, _⟩ ↦
        (username, reason, timestamp, ()))
      fun ⟨.mfaCodeVerificationFailed _ _ _, _⟩ ↦ rfl
  | .backupCodesGenerated =>
    (usernameFormat.andThen <|
      (Format.behind ",\"codes_count\":".toList .numeral).andThen timestampFormat).map
      (fun (username, codesCount, timestamp, _) ↦
        ⟨.backupCodesGenerated username codesCount timestamp, rfl⟩)
      (fun ⟨.backupCodesGenerated username codesCount timestamp, _⟩ ↦
        (username, codesCount, timestamp, ()))
      fun ⟨.backupCodesGenerated _ _ _, _⟩ ↦ rfl
  | .backupCodeUsed =>
    (usernameFormat.andThen (.behind [','] timestampFormat)).map
      (fun (username, timestamp, _) ↦ ⟨.backupCodeUsed username timestamp, rfl⟩)
      (fun ⟨.backupCodeUsed username timestamp, _⟩ ↦ (username, timestamp, ()))
      fun ⟨.backupCodeUsed _ _, _⟩ ↦ rfl

/-- The object of an event. -/
def eventFormat : Format MfaEvent :=
  (Format.behind "\x7b\"type\":".toList
    (Format.text.only MfaEventType.ofName _ MfaEventType.ofName_name)).depends
    MfaEvent.type fieldsFormat

/-! ### What an object looks like -/

theorem stable_timestampFormat : timestampFormat.Stable :=
  (Format.stable_text.behind _).andThen (Format.stable_mark _)

theorem stable_secretFormat : secretFormat.Stable :=
  ((Format.stable_text.behind _).andThen <|
    ((Format.stable_text.only _).behind _).andThen <|
    (Format.stable_numeral.behind _).andThen <|
    (Format.stable_numeral.behind _).andThen <|
    (Format.stable_nullable.behind _).andThen <|
    (Format.stable_nullable.behind _).andThen (Format.stable_mark _)).map _

theorem stable_fieldsFormat (eventType : MfaEventType) : (fieldsFormat eventType).Stable := by
  have husername : usernameFormat.Stable := Format.stable_text.behind _
  have hend : (Format.behind [','] timestampFormat).Stable := stable_timestampFormat.behind _
  cases eventType <;> unfold fieldsFormat
  case mfaSetupInitiated =>
    exact (husername.andThen ((stable_secretFormat.behind _).andThen hend)).map _
  case mfaEnabled => exact (husername.andThen hend).map _
  case mfaDisabled =>
    exact (husername.andThen ((Format.stable_nullable.behind _).andThen hend)).map _
  case mfaCodeVerified => exact (husername.andThen hend).map _
  case mfaCodeVerificationFailed =>
    exact (husername.andThen ((Format.stable_text.behind _).andThen hend)).map _
  case backupCodesGenerated =>
    exact (husername.andThen
      ((Format.stable_numeral.behind _).andThen stable_timestampFormat)).map _
  case backupCodeUsed => exact (husername.andThen hend).map _

theorem stable_eventFormat : eventFormat.Stable :=
  ((Format.stable_text.only _).behind _).depends stable_fieldsFormat

section Control

variable {c : Char} (hc : c.toNat < 32)

include hc

/-- A mark of visible characters in front of a format without control characters. -/
theorem avoids_behind {α : Type*} {format : Format α} (h : format.Avoids c) {text : List Char}
    (htext : visible text = true) : (Format.behind text format).Avoids c :=
  h.behind (control_notMem_of_visible hc htext)

theorem avoids_end : (Format.mark ['}']).Avoids c :=
  Format.avoids_mark (control_notMem_of_visible hc rfl)

theorem avoids_timestampFormat : timestampFormat.Avoids c :=
  (avoids_behind hc (Format.avoids_text hc) rfl).andThen (avoids_end hc)

theorem avoids_secretFormat : secretFormat.Avoids c :=
  ((avoids_behind hc (Format.avoids_text hc) rfl).andThen <|
    (avoids_behind hc ((Format.avoids_text hc).only _) rfl).andThen <|
    (avoids_behind hc (Format.avoids_numeral hc) rfl).andThen <|
    (avoids_behind hc (Format.avoids_numeral hc) rfl).andThen <|
    (avoids_behind hc (Format.avoids_nullable hc) rfl).andThen <|
    (avoids_behind hc (Format.avoids_nullable hc) rfl).andThen (avoids_end hc)).map _

theorem avoids_fieldsFormat (eventType : MfaEventType) : (fieldsFormat eventType).Avoids c := by
  have husername : usernameFormat.Avoids c :=
    avoids_behind hc (Format.avoids_text hc) rfl
  have htimestamp := avoids_timestampFormat hc
  have hend : (Format.behind [','] timestampFormat).Avoids c :=
    avoids_behind hc htimestamp rfl
  cases eventType <;> unfold fieldsFormat
  case mfaSetupInitiated =>
    exact (husername.andThen
      ((avoids_behind hc (avoids_secretFormat hc) rfl).andThen hend)).map _
  case mfaEnabled => exact (husername.andThen hend).map _
  case mfaDisabled =>
    exact (husername.andThen
      ((avoids_behind hc (Format.avoids_nullable hc) rfl).andThen hend)).map _
  case mfaCodeVerified => exact (husername.andThen hend).map _
  case mfaCodeVerificationFailed =>
    exact (husername.andThen
      ((avoids_behind hc (Format.avoids_text hc) rfl).andThen hend)).map _
  case backupCodesGenerated =>
    exact (husername.andThen
      ((avoids_behind hc (Format.avoids_numeral hc) rfl).andThen htimestamp)).map _
  case backupCodeUsed => exact (husername.andThen hend).map _

theorem avoids_eventFormat : eventFormat.Avoids c :=
  (avoids_behind hc ((Format.avoids_text hc).only _) rfl).depends (avoids_fieldsFormat hc)

end Control

theorem eventFormat_object (event : MfaEvent) :
    ∃ rest, eventFormat.write event = '{' :: '"' :: rest := ⟨_, rfl⟩

end Lithair.Mfa
