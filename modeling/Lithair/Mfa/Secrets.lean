import Lithair.Mfa.Handlers

/-!
# Users with MFA enabled and their secrets

The storage of MFA with everything that appends an event to it: the handlers, any number of them at
once, and the calls of `MfaStorage` itself. Enabling a user does not look at the secret again that
the code was checked against, so that the secret may be gone by then; of such a user the storage
reports no MFA data. Every user with MFA enabled has a secret, in every state of a run from the
empty state, exactly when no user is enabled whose entry has none (`always_haveSecrets_iff`).
-/

namespace Lithair.Mfa.Secrets

open Lithair.Lib.Run

/-- The calls of the storage that append an event. -/
inductive StorageCall
  | save (username : String) (data : UserMfaData)
  | enable (username : String)
  | delete (username : String)
  | recordVerificationSuccess (username : String)
  | recordVerificationFailure (username reason : String)

/-- Of the data that is saved only the secret is kept. -/
def StorageCall.event (timestamp : String) : StorageCall → MfaEvent
  | .save username data => .mfaSetupInitiated username data.secret timestamp
  | .enable username => .mfaEnabled username timestamp
  | .delete username => .mfaDisabled username (some "user_request") timestamp
  | .recordVerificationSuccess username => .mfaCodeVerified username timestamp
  | .recordVerificationFailure username reason =>
    .mfaCodeVerificationFailed username reason timestamp

/-- A handler goes on, or the storage is called; the event may not get written. -/
inductive Action
  | handler (action : MfaAction)
  | storage (call : StorageCall) (timestamp : String) (written : Bool)

variable {validate : TotpValidator}

def step (s : MfaStorage validate) : Action → Option (MfaStorage validate)
  | .handler action => s.step action
  | .storage call timestamp written =>
    some (if written then { s with state := s.state.apply (call.event timestamp) } else s)

/-- The event that a step appends. -/
def emitted (s : MfaStorage validate) : Action → Option MfaEvent
  | .handler (.append c timestamp true) => (s.calls c).bind fun call ↦ call.event timestamp
  | .storage call timestamp true => some (call.event timestamp)
  | _ => none

/-- Every user with MFA enabled has a secret. -/
def HaveSecrets (s : MfaStorage validate) : Prop :=
  ∀ username, s.state.isEnabled username = true → (s.state.secret username).isSome = true

/-- A user who is enabled has a secret, or no entry at all. -/
def EnablesWithSecret (s : MfaStorage validate) (a : Action) : Prop :=
  ∀ username timestamp, emitted s a = some (.mfaEnabled username timestamp) →
    (s.state.users username).isSome = true → (s.state.secret username).isSome = true

theorem state_step {s next : MfaStorage validate} {a : Action} (h : step s a = some next) :
    next.state = match emitted s a with
      | some event => s.state.apply event
      | none => s.state := by
  cases a with
  | handler action =>
    rcases MfaStorage.step_cases h with
      ⟨hquiet, hstate⟩ | ⟨c, timestamp, call, event, rfl, hcall, hevent, hstate⟩
    · have hnone : emitted s (.handler action) = none := by
        unfold emitted
        split
        · next hsame => exact absurd (Action.handler.inj hsame) (hquiet _ _)
        · next hsame => exact absurd hsame Action.noConfusion
        · rfl
      rw [hnone, hstate]
    · rw [emitted, hcall, Option.bind_some, hevent, hstate]
  | storage call timestamp written =>
    obtain rfl := Option.some.inj h
    cases written <;> rfl

/-- Only enabling a user without a secret breaks the rule. -/
theorem haveSecrets_apply_iff {state : MfaState}
    (h : ∀ username, state.isEnabled username = true → (state.secret username).isSome = true)
    (event : MfaEvent) :
    (∀ username, (state.apply event).isEnabled username = true →
        ((state.apply event).secret username).isSome = true) ↔
      ∀ username timestamp, event = .mfaEnabled username timestamp →
        (state.users username).isSome = true → (state.secret username).isSome = true := by
  have happly (username : String) := MfaState.secret_apply state event username
  have henabled (username : String) := MfaState.isEnabled_apply state event username
  cases event with
  | mfaEnabled other timestamp =>
    simp only [happly, henabled]
    constructor
    · intro hnext username _ hevent hentry
      obtain ⟨rfl, -⟩ := MfaEvent.mfaEnabled.inj hevent
      exact hnext other (by simpa using hentry)
    · intro hsecret username hon
      by_cases hsame : username = other
      · subst hsame
        exact hsecret username timestamp rfl (by simpa using hon)
      · exact h username (by simpa [hsame] using hon)
  | mfaSetupInitiated other secret timestamp =>
    simp only [happly, henabled]
    refine iff_of_true (fun username hon ↦ ?_) nofun
    split_ifs
    · rfl
    · exact h username hon
  | mfaDisabled other reason timestamp =>
    simp only [happly, henabled]
    refine iff_of_true (fun username hon ↦ ?_) nofun
    by_cases hsame : username = other
    · exact absurd hon (by simp [hsame])
    · rw [if_neg hsame] at hon ⊢
      exact h username hon
  | mfaCodeVerified | mfaCodeVerificationFailed | backupCodesGenerated | backupCodeUsed =>
    simp only [happly, henabled]
    exact iff_of_true h nofun

theorem haveSecrets_step_iff {s next : MfaStorage validate} {a : Action} (h : HaveSecrets s)
    (hstep : step s a = some next) : HaveSecrets next ↔ EnablesWithSecret s a := by
  have hstate := state_step hstep
  unfold HaveSecrets EnablesWithSecret
  cases hevent : emitted s a with
  | none =>
    rw [hevent] at hstate
    rw [hstate]
    exact iff_of_true h nofun
  | some event =>
    rw [hevent] at hstate
    rw [hstate, haveSecrets_apply_iff h event]
    simp only [Option.some.injEq]

/-- Every user with MFA enabled has a secret throughout a run from the empty state, exactly when
every user that it enables has one then. -/
theorem always_haveSecrets_iff (validate : TotpValidator) (actions : List Action) :
    Always step HaveSecrets (MfaStorage.start validate []) actions ↔
      EachStep step EnablesWithSecret (MfaStorage.start validate []) actions := by
  have hempty : HaveSecrets (MfaStorage.start validate []) := fun _ henabled ↦
    absurd henabled Bool.false_ne_true
  have hrun : Always step HaveSecrets (MfaStorage.start validate []) actions ↔ _ ∧ _ :=
    always_iff_and_eachStep (fun s a next h ↦ haveSecrets_step_iff h) actions
  rw [hrun, and_iff_right hempty]

/-- After a setup, the secret is checked for an enable, taken away by a disable, and then the user
is enabled. -/
def overlapping : List Action :=
  [.storage (.save "alice" ⟨MfaStorage.sampleSecret "123456", ⟨false, false, none⟩, []⟩)
      "2026-01-01T00:00:00Z" true,
    .handler (.request 0 (.enable (some ("alice", "123456"))) 0 none),
    .handler (.request 1 (.disable (some ("alice", "123456"))) 0 none),
    .handler (.append 0 "2026-01-02T00:00:00Z" true),
    .handler (.append 1 "2026-01-02T00:00:00Z" true),
    .handler (.append 1 "2026-01-02T00:00:01Z" true),
    .handler (.append 0 "2026-01-02T00:00:01Z" true)]

/-- A user with MFA enabled may have no secret. -/
theorem not_always_haveSecrets : ¬ ∀ (validate : TotpValidator) (actions : List Action),
    Always step HaveSecrets (MfaStorage.start validate []) actions := by
  intro h
  have hlast := (h MfaStorage.sampleValidate overlapping).exec rfl
  exact absurd (hlast "alice" rfl) (by decide)

end Lithair.Mfa.Secrets
