import Mathlib.Data.List.DropRight
import Lithair.Mfa.EventLog
import Lithair.Mfa.Handlers

/-!
# Migration of MFA data from JSON files

`migrate_json_to_events` of `mfa/migration.rs`: for each user in the JSON files of a directory it
appends a setup to the event log, then that MFA is enabled, if it is, and the number of backup
codes, if there are any. The requirement of MFA, the codes themselves and the time of enabling of a
user who is not enabled are in none of these events, and no event disables a user whom the log
already has as enabled. `get_migrated_iff` says of which users the log then has the data of the
file.

What `serde_json` makes of a file, the clock and the results of writing are parameters.
-/

namespace Lithair.Mfa.Migration

open Lithair.Lib.Run Lithair.Lib.Text Lithair.Lib.Utf8

/-! ### The files -/

/-- What `serde_json` reads of a text: a storage of several users, in the order of its hash map, or
the data of one user. -/
structure LegacyJson where
  storage : String → Option (List (String × UserMfaData))
  user : String → Except String UserMfaData

/-- An entry of the directory, with its path as `{:?}` writes it. The content is missing when it
cannot be read as text. -/
structure JsonFile where
  path : String
  isFile : Bool
  extension : Option String
  stem : Option String
  content : Option String

inductive JsonDir
  | missing
  | failed (error : String)
  | entries (entries : List JsonFile)

def findJsonFiles : JsonDir → Except String (List JsonFile)
  | .missing => .ok []
  | .failed error => .error error
  | .entries entries =>
    .ok (entries.filter fun entry ↦ entry.isFile && entry.extension == some "json")

variable (legacy : LegacyJson)

/-- The users of a file. -/
def JsonFile.users (file : JsonFile) : List (String × UserMfaData) :=
  match file.content with
  | none => []
  | some text =>
    match legacy.storage text with
    | some users => users
    | none =>
      match legacy.user text with
      | .ok data => [(file.stem.getD "unknown", data)]
      | .error _ => []

/-- The users of all files. -/
def legacyUsers (dir : JsonDir) : List (String × UserMfaData) :=
  match findJsonFiles dir with
  | .ok files => files.flatMap (JsonFile.users legacy)
  | .error _ => []

/-! ### Appending -/

/-- How an append ends. -/
inductive AppendOutcome
  | written
  | notOpened (error : String)
  | textFailed (wrote : ℕ) (error : String)
  | newlineFailed (error : String)

def AppendOutcome.error : AppendOutcome → Option String
  | .written => none
  | .notOpened error => some ("Failed to open event log: " ++ error)
  | .textFailed _ error => some ("Failed to write event: " ++ error)
  | .newlineFailed error => some ("Failed to write event: " ++ error)

/-- What an append that is alone does to the log. -/
def AppendOutcome.actions (c : ℕ) (event : MfaEvent) : AppendOutcome → List LogAction
  | .written =>
    [.begin c event, .writeText c .written, .writeNewline c true, .apply c, .finish c]
  | .notOpened _ => [.begin c event]
  | .textFailed wrote _ => [.begin c event, .writeText c (.failed wrote)]
  | .newlineFailed _ => [.begin c event, .writeText c .written, .writeNewline c false]

variable (json : MfaEventJson)

def append (log : MfaEventLog) (c : ℕ) (event : MfaEvent) (outcome : AppendOutcome) :
    MfaEventLog :=
  (exec (MfaEventLog.step json) log (outcome.actions c event)).getD log

/-! ### The migration -/

structure MigrationStats where
  usersMigrated : ℕ
  eventsGenerated : ℕ
  errors : List String

def MigrationStats.success (stats : MigrationStats) : Bool := stats.errors.isEmpty

/-- What the clock says each time it is read, and how the appends end. -/
structure Host where
  now : ℕ → String
  outcome : ℕ → AppendOutcome

/-- The log, which a dry run has none of, the numbers of appends and of readings of the clock so
far, and the statistics. -/
structure Progress where
  log : Option MfaEventLog
  appends : ℕ
  readings : ℕ
  stats : MigrationStats

variable (host : Host)

/-- The events of a user, in the order in which they are appended. -/
def userEvents (now username : String) (data : UserMfaData) : List MfaEvent :=
  .mfaSetupInitiated username data.secret (data.status.enabledAt.getD now) ::
    (if data.status.enabled then [.mfaEnabled username (data.status.enabledAt.getD now)] else []) ++
    if data.backupCodes.isEmpty then []
    else [.backupCodesGenerated username data.backupCodes.length now]

/-- One more event. -/
def Progress.count (m : Progress) : Progress :=
  { m with stats := { m.stats with eventsGenerated := m.stats.eventsGenerated + 1 } }

/-- Append an event, or return the error. -/
def emit (m : Progress) (event : MfaEvent) : Progress × Option String :=
  match m.log with
  | none => (m.count, none)
  | some log =>
    let next : Progress :=
      { m with
        log := some (append json log m.appends event (host.outcome m.appends))
        appends := m.appends + 1 }
    match (host.outcome m.appends).error with
    | none => (next.count, none)
    | some error => (next, some error)

def emitAll (m : Progress) : List MfaEvent → Progress × Option String
  | [] => (m, none)
  | event :: rest =>
    match emit json host m event with
    | (next, none) => emitAll next rest
    | (next, some error) => (next, some error)

def migrateUser (m : Progress) (username : String) (data : UserMfaData) :
    Progress × Option String :=
  let started : Progress := { m with readings := m.readings + 1 }
  match emitAll json host started (userEvents (host.now m.readings) username data) with
  | (next, none) =>
    ({ next with stats := { next.stats with usersMigrated := next.stats.usersMigrated + 1 } }, none)
  | (next, some error) => (next, some error)

def migrateUsers (m : Progress) : List (String × UserMfaData) → Progress × Option String
  | [] => (m, none)
  | (username, data) :: rest =>
    match migrateUser json host m username data with
    | (next, none) => migrateUsers next rest
    | (next, some error) => (next, some error)

def migrateFile (m : Progress) (file : JsonFile) : Progress × Option String :=
  match file.content with
  | none => (m, some ("Failed to read JSON file: " ++ file.path))
  | some text =>
    match legacy.storage text with
    | some users => migrateUsers json host m users
    | none =>
      match legacy.user text with
      | .ok data => migrateUser json host m (file.stem.getD "unknown") data
      | .error error =>
        (m, some ("Failed to parse JSON as multi-user or single-user format: " ++ error))

/-- A file that cannot be migrated is one of the errors, and the next one follows. -/
def migrateNext (m : Progress) (file : JsonFile) : Progress :=
  match migrateFile legacy json host m file with
  | (next, none) => next
  | (next, some error) =>
    { next with
      stats :=
        { next.stats with
          errors := next.stats.errors ++ ["Failed to migrate " ++ file.path ++ ": " ++ error] } }

/-- The statistics, and the bytes of the log afterwards. -/
def migrateJsonToEvents (dir : JsonDir) (file : List UInt8) (dryRun : Bool) :
    Except String (MigrationStats × List UInt8) :=
  match findJsonFiles dir with
  | .error error => .error error
  | .ok files =>
    if files.isEmpty then .ok (⟨0, 0, []⟩, file)
    else if !dryRun && !(MfaEventLog.reopen json file).opened then
      .error "stream did not contain valid UTF-8"
    else
      let log := if dryRun then none else some (MfaEventLog.reopen json file)
      let last := files.foldl (migrateNext legacy json host) ⟨log, 0, 0, ⟨0, 0, []⟩⟩
      .ok (last.stats, last.log.elim file MfaEventLog.file)

/-! ### What a migration without errors appends -/

/-- The events of users, one user after the other. -/
def usersEvents (now : ℕ → String) : ℕ → List (String × UserMfaData) → List MfaEvent
  | _, [] => []
  | i, user :: rest => userEvents (now i) user.1 user.2 ++ usersEvents now (i + 1) rest

theorem usersEvents_append (now : ℕ → String) (i : ℕ) (first second : List (String × UserMfaData)) :
    usersEvents now i (first ++ second) =
      usersEvents now i first ++ usersEvents now (i + first.length) second := by
  induction first generalizing i with
  | nil => rfl
  | cons user rest ih =>
    rw [List.cons_append, usersEvents, usersEvents, ih, List.append_assoc, List.length_cons,
      Nat.add_right_comm, Nat.add_assoc]

/-- The log is open with this file, and no append to come has begun. -/
def Open (m : Progress) (file : List UInt8) : Prop :=
  ∃ log, m.log = some log ∧ log.opened = true ∧ log.file = file ∧
    ∀ c, m.appends ≤ c → log.calls c = none

/-- The lines of the events are added to the file, and the clock was read so many times. -/
def Wrote (m next : Progress) (events : List MfaEvent) (readings : ℕ) : Prop :=
  next.readings = m.readings + readings ∧
    ∀ file, Open m file → Open next (file ++ utf8 (linesOf json events))

variable {legacy json host}

theorem Wrote.refl (m : Progress) : Wrote json m m [] 0 :=
  ⟨rfl, fun file hopen ↦ (List.append_nil file).symm ▸ hopen⟩

theorem Wrote.trans {m next last : Progress} {first second : List MfaEvent} {i j : ℕ}
    (hfirst : Wrote json m next first i) (hsecond : Wrote json next last second j) :
    Wrote json m last (first ++ second) (i + j) := by
  refine ⟨by rw [hsecond.1, hfirst.1, Nat.add_assoc], fun file hopen ↦ ?_⟩
  have hlast := hsecond.2 _ (hfirst.2 file hopen)
  rwa [List.append_assoc, ← utf8_append, ← linesOf_append] at hlast

variable (json) in
/-- An append that ends well adds its line. -/
theorem append_written {log : MfaEventLog} {c : ℕ} (hopened : log.opened = true)
    (hcall : log.calls c = none) (event : MfaEvent) :
    (append json log c event .written).opened = true ∧
      (append json log c event .written).file = log.file ++ utf8 (linesOf json [event]) ∧
      ∀ other, other ≠ c → (append json log c event .written).calls other = log.calls other := by
  have hline : utf8 (linesOf json [event]) = MfaEventLog.textBytes json event ++ [10] := by
    rw [linesOf_singleton, utf8_append, MfaEventLog.utf8_lineFeed]
    rfl
  unfold append AppendOutcome.actions
  rw [exec_cons, MfaEventLog.step_begin hopened hcall, Option.bind_some, exec_cons,
    MfaEventLog.step_writeText ((MfaEventLog.calls_setCall c c (.begun event)).trans (if_pos rfl)),
    Option.bind_some]
  simp only [exec_cons, MfaEventLog.step, MfaEventLog.calls_setCall, if_true, Option.bind_some,
    exec_nil, Option.getD_some]
  refine ⟨hopened, ?_, fun other hne ↦ ?_⟩
  · rw [hline, ← List.append_assoc]
    rfl
  · simp only [if_neg hne]

variable (json host) in
theorem errors_emit (m : Progress) (event : MfaEvent) :
    (emit json host m event).1.stats.errors = m.stats.errors := by
  unfold emit
  split
  · rfl
  · split <;> rfl

theorem wrote_emit {m : Progress} {event : MfaEvent} (h : (emit json host m event).2 = none) :
    Wrote json m (emit json host m event).1 [event] 0 := by
  unfold emit at h ⊢
  split at h
  · next hlog =>
    refine ⟨rfl, fun file hopen ↦ ?_⟩
    obtain ⟨log, hsome, -⟩ := hopen
    rw [hlog] at hsome
    exact absurd hsome nofun
  · next log hlog =>
    have hwritten : host.outcome m.appends = .written := by
      cases houtcome : host.outcome m.appends with
      | written => rfl
      | notOpened error | textFailed wrote error | newlineFailed error =>
        rw [houtcome] at h
        exact absurd h nofun
    rw [hwritten]
    refine ⟨rfl, fun file hopen ↦ ?_⟩
    obtain ⟨opened, hsome, hopened, hfile, hfree⟩ := hopen
    obtain rfl : log = opened := Option.some.inj (hlog.symm.trans hsome)
    obtain ⟨hopen, hlines, hcalls⟩ :=
      append_written json hopened (hfree m.appends (le_refl _)) event
    refine ⟨_, rfl, hopen, hfile ▸ hlines, fun c hc ↦ ?_⟩
    have hc : m.appends + 1 ≤ c := hc
    rw [hcalls c (by omega)]
    exact hfree c (by omega)

theorem emitAll_cons (m : Progress) (event : MfaEvent) (rest : List MfaEvent) :
    emitAll json host m (event :: rest) =
      match emit json host m event with
      | (next, none) => emitAll json host next rest
      | (next, some error) => (next, some error) := rfl

variable (json host) in
theorem errors_emitAll (m : Progress) (events : List MfaEvent) :
    (emitAll json host m events).1.stats.errors = m.stats.errors := by
  induction events generalizing m with
  | nil => rfl
  | cons event rest ih =>
    have hemit := errors_emit json host m event
    rw [emitAll_cons]
    split
    · next next hnext =>
      rw [hnext] at hemit
      rw [ih, hemit]
    · next next error hnext =>
      rw [hnext] at hemit
      exact hemit

theorem wrote_emitAll {m : Progress} {events : List MfaEvent}
    (h : (emitAll json host m events).2 = none) :
    Wrote json m (emitAll json host m events).1 events 0 := by
  induction events generalizing m with
  | nil => exact Wrote.refl m
  | cons event rest ih =>
    rw [emitAll_cons] at h ⊢
    split at h
    · next next hnext =>
      have hemit := wrote_emit (congrArg Prod.snd hnext)
      rw [hnext] at hemit
      exact hemit.trans (ih h)
    · exact absurd h nofun

variable (json host) in
theorem errors_migrateUser (m : Progress) (username : String) (data : UserMfaData) :
    (migrateUser json host m username data).1.stats.errors = m.stats.errors := by
  have hall := errors_emitAll json host
    { m with readings := m.readings + 1 } (userEvents (host.now m.readings) username data)
  unfold migrateUser
  simp only
  split
  · next next hnext =>
    rw [hnext] at hall
    exact hall
  · next next error hnext =>
    rw [hnext] at hall
    exact hall

theorem wrote_migrateUser {m : Progress} {username : String} {data : UserMfaData}
    (h : (migrateUser json host m username data).2 = none) :
    Wrote json m (migrateUser json host m username data).1
      (userEvents (host.now m.readings) username data) 1 := by
  unfold migrateUser at h ⊢
  simp only at h ⊢
  split at h
  · next next hnext =>
    have hall := wrote_emitAll (congrArg Prod.snd hnext)
    rw [hnext] at hall
    exact ⟨hall.1, hall.2⟩
  · exact absurd h nofun

theorem migrateUsers_cons (m : Progress) (user : String × UserMfaData)
    (rest : List (String × UserMfaData)) :
    migrateUsers json host m (user :: rest) =
      match migrateUser json host m user.1 user.2 with
      | (next, none) => migrateUsers json host next rest
      | (next, some error) => (next, some error) := rfl

variable (json host) in
theorem errors_migrateUsers (m : Progress) (users : List (String × UserMfaData)) :
    (migrateUsers json host m users).1.stats.errors = m.stats.errors := by
  induction users generalizing m with
  | nil => rfl
  | cons user rest ih =>
    have huser := errors_migrateUser json host m user.1 user.2
    rw [migrateUsers_cons]
    split
    · next next hnext =>
      rw [hnext] at huser
      rw [ih, huser]
    · next next error hnext =>
      rw [hnext] at huser
      exact huser

theorem wrote_migrateUsers {m : Progress} {users : List (String × UserMfaData)}
    (h : (migrateUsers json host m users).2 = none) :
    Wrote json m (migrateUsers json host m users).1 (usersEvents host.now m.readings users)
      users.length := by
  induction users generalizing m with
  | nil => exact Wrote.refl m
  | cons user rest ih =>
    rw [migrateUsers_cons] at h ⊢
    split at h
    · next next hnext =>
      have huser := wrote_migrateUser (congrArg Prod.snd hnext)
      rw [hnext] at huser
      have hrest := ih h
      rw [huser.1] at hrest
      have hboth := huser.trans hrest
      rwa [Nat.add_comm 1 rest.length] at hboth
    · exact absurd h nofun

/-- A file that is migrated has its users in the log. -/
theorem wrote_migrateFile {m : Progress} {file : JsonFile}
    (h : (migrateFile legacy json host m file).2 = none) :
    Wrote json m (migrateFile legacy json host m file).1
      (usersEvents host.now m.readings (file.users legacy)) (file.users legacy).length := by
  unfold migrateFile at h ⊢
  unfold JsonFile.users
  split at h
  · exact absurd h nofun
  · split at h
    · next users hstorage => exact wrote_migrateUsers h
    · split at h
      · next data hdata =>
        have huser := wrote_migrateUser h
        simp only [usersEvents, List.append_nil, List.length_singleton]
        exact huser
      · exact absurd h nofun

variable (legacy json host) in
theorem errors_migrateFile (m : Progress) (file : JsonFile) :
    (migrateFile legacy json host m file).1.stats.errors = m.stats.errors := by
  unfold migrateFile
  split
  · rfl
  · split
    · exact errors_migrateUsers json host m _
    · split
      · exact errors_migrateUser json host m _ _
      · rfl

/-- Without an error at the end, no file has one. -/
theorem migrateNext_spec {m : Progress} {file : JsonFile}
    (h : (migrateNext legacy json host m file).stats.errors = []) :
    m.stats.errors = [] ∧ Wrote json m (migrateNext legacy json host m file)
      (usersEvents host.now m.readings (file.users legacy)) (file.users legacy).length := by
  have herrors := errors_migrateFile legacy json host m file
  unfold migrateNext at h ⊢
  split at h
  · next next hnext =>
    have hfile := wrote_migrateFile (congrArg Prod.snd hnext)
    rw [hnext] at herrors hfile
    exact ⟨herrors ▸ h, hfile⟩
  · exact absurd (List.append_eq_nil_iff.mp h).2 (List.cons_ne_nil _ _)

theorem migrateFiles_spec {m : Progress} {files : List JsonFile}
    (h : (files.foldl (migrateNext legacy json host) m).stats.errors = []) :
    m.stats.errors = [] ∧ Wrote json m (files.foldl (migrateNext legacy json host) m)
      (usersEvents host.now m.readings (files.flatMap (JsonFile.users legacy)))
      (files.flatMap (JsonFile.users legacy)).length := by
  induction files generalizing m with
  | nil => exact ⟨h, Wrote.refl m⟩
  | cons file rest ih =>
    obtain ⟨hnone, hrest⟩ := ih h
    obtain ⟨hstart, hfile⟩ := migrateNext_spec hnone
    refine ⟨hstart, ?_⟩
    rw [hfile.1] at hrest
    have hboth := hfile.trans hrest
    rwa [← usersEvents_append, ← List.length_append] at hboth

/-- A migration that succeeds has opened the log, if there are users, and adds the lines of all
their events to it. -/
theorem migrateJsonToEvents_spec {dir : JsonDir} {file after : List UInt8} {stats : MigrationStats}
    (hrun : migrateJsonToEvents legacy json host dir file false = .ok (stats, after))
    (hsuccess : stats.success = true) (hne : legacyUsers legacy dir ≠ []) :
    (MfaEventLog.reopen json file).opened = true ∧
      after = file ++ utf8 (linesOf json (usersEvents host.now 0 (legacyUsers legacy dir))) := by
  unfold migrateJsonToEvents at hrun
  unfold legacyUsers at hne ⊢
  cases hfiles : findJsonFiles dir with
  | error error =>
    rw [hfiles] at hne
    exact absurd rfl hne
  | ok files =>
    rw [hfiles] at hrun hne
    simp only at hrun hne ⊢
    have hsome : files.isEmpty = false := by
      cases files with
      | nil => exact absurd rfl hne
      | cons => rfl
    rw [hsome, if_neg Bool.false_ne_true] at hrun
    cases hopened : (MfaEventLog.reopen json file).opened with
    | false =>
      rw [hopened] at hrun
      exact absurd hrun nofun
    | true =>
      rw [hopened] at hrun
      obtain ⟨rfl, rfl⟩ := Prod.mk.inj (Except.ok.inj hrun)
      obtain ⟨-, -, hwrote⟩ := migrateFiles_spec (List.isEmpty_iff.mp hsuccess)
      obtain ⟨log, hlog, -, hlines, -⟩ := hwrote file ⟨_, rfl, hopened, rfl, fun _ _ ↦ rfl⟩
      exact ⟨rfl, (congrArg (fun log ↦ Option.elim log file MfaEventLog.file) hlog).trans hlines⟩

/-! ### The log behind a line that has no end -/

/-- The lines of a text that have their ends. -/
def endedLines (text : List Char) : List Char := text.rdropWhile (· != '\n')

/-- What stands behind them. -/
def unendedLine (text : List Char) : List Char := text.rtakeWhile (· != '\n')

theorem endedLines_append (text : List Char) : endedLines text ++ unendedLine text = text :=
  List.rdropWhile_append_rtakeWhile

theorem ended_endedLines (text : List Char) : Ended (endedLines text) := by
  by_cases hnil : endedLines text = []
  · exact Or.inl hnil
  · have hlast := List.rdropWhile_last_not (· != '\n') text hnil
    right
    rw [List.getLast?_eq_some_getLast hnil]
    exact congrArg some (bne_eq_false_iff_eq.mp (Bool.eq_false_of_not_eq_true hlast))

theorem lineFeed_notMem_unendedLine (text : List Char) : '\n' ∉ unendedLine text := fun hmem ↦
  absurd (List.mem_rtakeWhile_imp hmem) (by decide)

variable (json) in
/-- The text of an event behind a line that has no end. -/
def behind (text : List Char) (event : MfaEvent) : String :=
  String.ofList (unendedLine text ++ (json.render event).toList)

/-- The first of the events that are appended gets into the line that has no end. -/
theorem readLog_append_linesOf (text : List Char) (event : MfaEvent) (rest : List MfaEvent) :
    readLog json (text ++ linesOf json (event :: rest)) =
      readLog json (endedLines text) ++ (json.parse (behind json text event)).toList ++ rest := by
  obtain ⟨object, hobject⟩ := json.object event
  have hvisible : (unendedLine text ++ (json.render event).toList).all isWhitespace = false := by
    rw [List.all_append, visible, Bool.and_false]
  have hfeed : '\n' ∉ unendedLine text ++ (json.render event).toList := fun hmem ↦
    (List.mem_append.mp hmem).elim (lineFeed_notMem_unendedLine text) (json.oneLine event).1
  have hstrip : stripCarriageReturn (unendedLine text ++ (json.render event).toList) =
      unendedLine text ++ (json.render event).toList := by
    refine if_neg fun hlast ↦ ?_
    have hne : (json.render event).toList ≠ [] := by
      rw [hobject]
      exact List.cons_ne_nil _ _
    rw [List.getLast?_append_of_ne_nil _ hne] at hlast
    exact (json.oneLine event).2 (List.mem_of_getLast? hlast)
  have hline : readLog json (unendedLine text ++ (json.render event).toList ++ ['\n']) =
      (json.parse (behind json text event)).toList := by
    unfold readLog lines behind
    rw [linesFrom_line hfeed, List.nil_append, hstrip,
      List.filter_cons_of_pos (by rw [hvisible]; rfl), List.filter_nil]
    cases hparse : json.parse (String.ofList (unendedLine text ++ (json.render event).toList)) with
    | none => exact List.filterMap_cons_none hparse
    | some other => exact List.filterMap_cons_some hparse
  calc readLog json (text ++ linesOf json (event :: rest))
      = readLog json (endedLines text ++
          ((unendedLine text ++ (json.render event).toList ++ ['\n']) ++ linesOf json rest)) := by
        nth_rewrite 1 [← endedLines_append text]
        simp only [linesOf, List.flatMap_cons, List.append_assoc]
    _ = readLog json (endedLines text) ++
          (readLog json (unendedLine text ++ (json.render event).toList ++ ['\n']) ++
            readLog json (linesOf json rest)) := by
        rw [readLog_append (ended_endedLines text), readLog_append (ended_concat _)]
    _ = readLog json (endedLines text) ++ (json.parse (behind json text event)).toList ++ rest := by
        rw [hline, readLog_linesOf, List.append_assoc]

/-! ### Replaying the events -/

/-- What no event changes in an entry, and what they keep together. -/
def Plain (state : MfaState) : Prop := ∀ username user, state.users username = some user →
  user.status.required = false ∧ user.backupCodes = [] ∧
    (user.status.enabled = false → user.status.enabledAt = none)

theorem plain_empty : Plain MfaState.empty := fun _ _ h ↦ absurd h nofun

theorem Plain.upsert {state : MfaState} (h : Plain state) (username : String)
    {f : UserMfaState → UserMfaState}
    (hf : ∀ user, (f user).status = user.status ∧ (f user).backupCodes = user.backupCodes) :
    Plain (state.upsert username f) := by
  intro other user huser
  simp only [MfaState.upsert, Function.update_apply] at huser
  split_ifs at huser
  · obtain rfl := Option.some.inj huser
    rw [(hf _).1, (hf _).2]
    cases hold : state.users username with
    | none => exact ⟨rfl, rfl, fun _ ↦ rfl⟩
    | some old => exact h username old hold
  · exact h other user huser

theorem Plain.modify {state : MfaState} (h : Plain state) (username : String)
    {f : UserMfaState → UserMfaState}
    (hf : ∀ user, (f user).status.required = user.status.required ∧
      (user.backupCodes = [] → (f user).backupCodes = []) ∧
      ((user.status.enabled = false → user.status.enabledAt = none) →
        (f user).status.enabled = false → (f user).status.enabledAt = none)) :
    Plain (state.modify username f) := by
  intro other user huser
  simp only [MfaState.modify, Function.update_apply] at huser
  split_ifs at huser
  · obtain ⟨old, hold, rfl⟩ := Option.map_eq_some_iff.mp huser
    obtain ⟨hrequired, hcodes, henabled⟩ := h username old hold
    exact ⟨(hf old).1.trans hrequired, (hf old).2.1 hcodes, (hf old).2.2 henabled⟩
  · exact h other user huser

theorem Plain.apply {state : MfaState} (h : Plain state) (event : MfaEvent) :
    Plain (state.apply event) := by
  cases event with
  | mfaSetupInitiated username secret timestamp =>
    rw [MfaState.apply]
    exact h.upsert username fun _ ↦ ⟨rfl, rfl⟩
  | mfaEnabled username timestamp =>
    exact h.modify username fun _ ↦ ⟨rfl, id, fun _ hon ↦ absurd hon Bool.true_eq_false_eq_False⟩
  | mfaDisabled username reason timestamp =>
    exact h.modify username fun _ ↦ ⟨rfl, fun _ ↦ rfl, fun _ _ ↦ rfl⟩
  | mfaCodeVerified username timestamp => exact h.modify username fun _ ↦ ⟨rfl, id, id⟩
  | mfaCodeVerificationFailed username reason timestamp =>
    rw [MfaState.apply]
    exact h.upsert username fun _ ↦ ⟨rfl, rfl⟩
  | backupCodesGenerated username codesCount timestamp => exact h
  | backupCodeUsed username timestamp => exact h

theorem Plain.foldl {state : MfaState} (h : Plain state) (events : List MfaEvent) :
    Plain (events.foldl MfaState.apply state) := by
  induction events generalizing state with
  | nil => exact h
  | cons event rest ih => exact ih (h.apply event)

theorem plain_replay (events : List MfaEvent) : Plain (MfaState.replay events) :=
  plain_empty.foldl events

/-- An event changes no other user. -/
theorem users_apply_of_ne {event : MfaEvent} {username : String} (h : username ≠ event.username)
    (state : MfaState) : (state.apply event).users username = state.users username := by
  cases event with
  | backupCodesGenerated | backupCodeUsed => rfl
  | _ => exact Function.update_of_ne h _ _

theorem users_foldl_of_ne {events : List MfaEvent} {username : String}
    (h : ∀ event ∈ events, username ≠ event.username) (state : MfaState) :
    (events.foldl MfaState.apply state).users username = state.users username := by
  induction events generalizing state with
  | nil => rfl
  | cons event rest ih =>
    rw [List.foldl_cons, ih fun other hother ↦ h other (List.mem_cons_of_mem event hother)]
    exact users_apply_of_ne (h event List.mem_cons_self) state

/-- The events of a user behind the setup. -/
def afterSetup (now username : String) (data : UserMfaData) : List MfaEvent :=
  (if data.status.enabled then [.mfaEnabled username (data.status.enabledAt.getD now)] else []) ++
    if data.backupCodes.isEmpty then []
    else [.backupCodesGenerated username data.backupCodes.length now]

/-- The first event of a user. -/
def setup (now username : String) (data : UserMfaData) : MfaEvent :=
  .mfaSetupInitiated username data.secret (data.status.enabledAt.getD now)

theorem userEvents_eq (now username : String) (data : UserMfaData) :
    userEvents now username data = setup now username data :: afterSetup now username data := by
  unfold userEvents afterSetup setup
  rw [List.cons_append]

theorem username_of_mem_userEvents {now username : String} {data : UserMfaData} {event : MfaEvent}
    (h : event ∈ userEvents now username data) : event.username = username := by
  rw [userEvents_eq, afterSetup, List.mem_cons, List.mem_append] at h
  rcases h with rfl | h | h
  · rfl
  · split_ifs at h
    · rw [List.mem_singleton.mp h]
      rfl
    · exact absurd h List.not_mem_nil
  · split_ifs at h
    · exact absurd h List.not_mem_nil
    · rw [List.mem_singleton.mp h]
      rfl

theorem username_of_mem_usersEvents {now : ℕ → String} {i : ℕ} {event : MfaEvent}
    {users : List (String × UserMfaData)} (h : event ∈ usersEvents now i users) :
    event.username ∈ users.map Prod.fst := by
  induction users generalizing i with
  | nil => exact absurd h List.not_mem_nil
  | cons user rest ih =>
    rcases List.mem_append.mp h with h | h
    · rw [username_of_mem_userEvents h]
      exact List.mem_cons_self
    · exact List.mem_cons_of_mem _ (ih h)

/-- What the events say of the data of a user whom the log has as enabled or not. -/
def Carried (data : UserMfaData) (enabled : Bool) : Prop :=
  data.status.required = false ∧ data.backupCodes = [] ∧
    if data.status.enabled then data.status.enabledAt.isSome = true
    else data.status.enabledAt = none ∧ enabled = false

/-- The entry of a user behind the events that follow on the setup. -/
theorem users_afterSetup (state : MfaState) (now username : String) (data : UserMfaData) :
    ((afterSetup now username data).foldl MfaState.apply state).users username =
      (state.users username).map fun user ↦
        if data.status.enabled then
          { user with
            status :=
              { user.status with
                enabled := true
                enabledAt := some (data.status.enabledAt.getD now) } }
        else user := by
  have hcodes (state : MfaState) : ((if data.backupCodes.isEmpty then []
      else [.backupCodesGenerated username data.backupCodes.length now]).foldl
        MfaState.apply state) = state := by
    split_ifs <;> rfl
  rw [afterSetup, List.foldl_append, hcodes]
  split_ifs
  · exact Function.update_self ..
  · exact Option.map_id'.symm

/-- The data of the file is what the storage returns if the events carry it and the secret is
there. -/
theorem get_afterSetup_iff {state : MfaState} (h : Plain state) (now username : String)
    (data : UserMfaData) :
    ((afterSetup now username data).foldl MfaState.apply state).get username = some data ↔
      Carried data (state.isEnabled username) ∧ state.secret username = some data.secret := by
  obtain ⟨secret, ⟨enabled, required, enabledAt⟩, codes⟩ := data
  unfold MfaState.get Carried MfaState.secret MfaState.isEnabled
  rw [users_afterSetup]
  cases huser : state.users username with
  | none => simp
  | some user =>
    obtain ⟨hrequired, hcodes, hdisabled⟩ := h username user huser
    obtain ⟨old, ⟨on, need, since⟩, backup, last, failed⟩ := user
    simp only at hrequired hcodes hdisabled
    subst hrequired hcodes
    cases old with
    | none =>
      refine iff_of_false (fun hget ↦ ?_) fun hboth ↦ absurd hboth.2 nofun
      cases enabled <;> exact absurd hget nofun
    | some old =>
      cases enabled with
      | true =>
        have hsince : some (enabledAt.getD now) = enabledAt ↔ enabledAt.isSome = true := by
          cases enabledAt <;> simp
        simp only [if_true, Option.map_some, Option.bind_some, Option.some.injEq,
          UserMfaData.mk.injEq, MfaStatus.mk.injEq, Bool.false_eq, true_and, List.nil_eq, hsince]
        constructor
        · rintro ⟨hsecret, ⟨hrequired, hsome⟩, hcodes⟩
          exact ⟨⟨hrequired, hcodes, hsome⟩, hsecret⟩
        · rintro ⟨⟨hrequired, hcodes, hsome⟩, hsecret⟩
          exact ⟨hsecret, ⟨hrequired, hsome⟩, hcodes⟩
      | false =>
        simp only [if_neg Bool.false_ne_true]
        simp only [Option.map_some, Option.bind_some, Option.some.injEq, UserMfaData.mk.injEq,
          MfaStatus.mk.injEq, Bool.false_eq, List.nil_eq, Option.getD_some]
        constructor
        · rintro ⟨hsecret, ⟨hon, hrequired, hsince⟩, hcodes⟩
          exact ⟨⟨hrequired, hcodes, hsince ▸ hdisabled hon, hon⟩, hsecret⟩
        · rintro ⟨⟨hrequired, hcodes, hnone, hon⟩, hsecret⟩
          exact ⟨hsecret, ⟨hon, hrequired, (hdisabled hon).trans hnone.symm⟩, hcodes⟩

theorem setup_apply (state : MfaState) (now username : String) (data : UserMfaData) :
    (state.apply (setup now username data)).secret username = some data.secret ∧
      (state.apply (setup now username data)).isEnabled username = state.isEnabled username := by
  rw [MfaState.secret_apply, MfaState.isEnabled_apply]
  exact ⟨if_pos rfl, rfl⟩

theorem get_userEvents_iff {state : MfaState} (h : Plain state) (now username : String)
    (data : UserMfaData) :
    ((userEvents now username data).foldl MfaState.apply state).get username = some data ↔
      Carried data (state.isEnabled username) := by
  obtain ⟨hsecret, henabled⟩ := setup_apply state now username data
  rw [userEvents_eq, List.foldl_cons, get_afterSetup_iff (h.apply _), henabled]
  exact and_iff_left hsecret

/-! ### What the migration carries over -/

variable (json) in
/-- The state that the log had, as far as its lines have their ends. -/
def before (text : List Char) : MfaState := MfaState.replay (readLog json (endedLines text))

variable (json) in
/-- The events carry the data of the user, and the setup that is first is read where it is written,
or the user has the secret already. -/
def Migrates (legacy : LegacyJson) (now : ℕ → String) (dir : JsonDir) (text : List Char)
    (user : String × UserMfaData) : Prop :=
  Carried user.2 ((before json text).isEnabled user.1) ∧
    ((legacyUsers legacy dir).head? = some user →
      json.parse (behind json text (setup (now 0) user.1 user.2)) =
          some (setup (now 0) user.1 user.2) ∨
        (before json text).secret user.1 = some user.2.secret)

theorem get_of_users_eq {first second : MfaState} {username : String}
    (h : first.users username = second.users username) :
    first.get username = second.get username ∧ first.secret username = second.secret username ∧
      first.isEnabled username = second.isEnabled username := by
  unfold MfaState.get MfaState.secret MfaState.isEnabled
  rw [h]
  exact ⟨rfl, rfl, rfl⟩

/-- The state behind a migration, for the first user. -/
theorem get_first_iff {text : List Char} {now : ℕ → String} {user : String × UserMfaData}
    {rest : List (String × UserMfaData)}
    (hread : ∀ other, json.parse (behind json text (setup (now 0) user.1 user.2)) = some other →
      other = setup (now 0) user.1 user.2)
    (hnew : user.1 ∉ rest.map Prod.fst) :
    (MfaState.replay (readLog json (text ++ linesOf json (usersEvents now 0 (user :: rest))))).get
        user.1 = some user.2 ↔
      Carried user.2 ((before json text).isEnabled user.1) ∧
        (json.parse (behind json text (setup (now 0) user.1 user.2)) =
            some (setup (now 0) user.1 user.2) ∨
          (before json text).secret user.1 = some user.2.secret) := by
  have hothers : ∀ event ∈ usersEvents now 1 rest, user.1 ≠ event.username :=
    fun event hevent hsame ↦ hnew (hsame ▸ username_of_mem_usersEvents hevent)
  have hplain : Plain (before json text) := plain_replay _
  have hevents : usersEvents now 0 (user :: rest) = setup (now 0) user.1 user.2 ::
      (afterSetup (now 0) user.1 user.2 ++ usersEvents now 1 rest) := by
    rw [usersEvents, userEvents_eq, List.cons_append]
  rw [hevents, readLog_append_linesOf, MfaState.replay_append, List.foldl_append,
    (get_of_users_eq (users_foldl_of_ne hothers _)).1, MfaState.replay_append]
  obtain ⟨hsecret, henabled⟩ := setup_apply (before json text) (now 0) user.1 user.2
  cases hparse : json.parse (behind json text (setup (now 0) user.1 user.2)) with
  | none =>
    have hlost : none = some (setup (now 0) user.1 user.2) ∨
        (before json text).secret user.1 = some user.2.secret ↔
          (before json text).secret user.1 = some user.2.secret := or_iff_right nofun
    rw [hlost]
    exact get_afterSetup_iff hplain (now 0) user.1 user.2
  | some other =>
    obtain rfl := hread other hparse
    rw [and_iff_left (Or.inl rfl)]
    have hset := hplain.apply (setup (now 0) user.1 user.2)
    have hiff := get_afterSetup_iff hset (now 0) user.1 user.2
    rw [henabled, and_iff_left hsecret] at hiff
    exact hiff

/-- The state behind a migration, for a user who is not the first. -/
theorem get_later_iff {text : List Char} {now : ℕ → String} {first user : String × UserMfaData}
    {front rest : List (String × UserMfaData)}
    (hread : ∀ other, json.parse (behind json text (setup (now 0) first.1 first.2)) = some other →
      other = setup (now 0) first.1 first.2)
    (hnew : user.1 ∉ (first :: front).map Prod.fst ∧ user.1 ∉ rest.map Prod.fst) :
    (MfaState.replay (readLog json
        (text ++ linesOf json (usersEvents now 0 (first :: front ++ user :: rest))))).get
          user.1 = some user.2 ↔ Carried user.2 ((before json text).isEnabled user.1) := by
  have hothers : ∀ event ∈ usersEvents now (0 + (first :: front).length + 1) rest,
      user.1 ≠ event.username := fun event hevent hsame ↦
    hnew.2 (hsame ▸ username_of_mem_usersEvents hevent)
  have hevents : usersEvents now 0 (first :: front ++ user :: rest) =
      setup (now 0) first.1 first.2 ::
        (afterSetup (now 0) first.1 first.2 ++ usersEvents now 1 front ++
          userEvents (now (0 + (first :: front).length)) user.1 user.2 ++
          usersEvents now (0 + (first :: front).length + 1) rest) := by
    rw [usersEvents_append, usersEvents, usersEvents, userEvents_eq]
    simp only [List.cons_append, List.append_assoc]
  have hfront : ∀ event ∈ (json.parse (behind json text (setup (now 0) first.1 first.2))).toList ++
      (afterSetup (now 0) first.1 first.2 ++ usersEvents now 1 front), user.1 ≠ event.username := by
    intro event hevent hsame
    refine hnew.1 (hsame ▸ ?_)
    rcases List.mem_append.mp hevent with hevent | hevent
    · rw [hread event (Option.mem_toList.mp hevent)]
      exact List.mem_cons_self
    · have hmem : event ∈ usersEvents now 0 (first :: front) := by
        rw [usersEvents, userEvents_eq, List.cons_append]
        exact List.mem_cons_of_mem _ hevent
      exact username_of_mem_usersEvents hmem
  rw [hevents, readLog_append_linesOf, MfaState.replay_append, MfaState.replay_append,
    List.foldl_append, (get_of_users_eq (users_foldl_of_ne hothers _)).1, List.foldl_append,
    ← List.foldl_append (l := Option.toList _), get_userEvents_iff ((plain_replay _).foldl _),
    (get_of_users_eq (users_foldl_of_ne hfront _)).2.2]
  exact Iff.rfl

/-- After a migration that succeeds, the storage returns the data of the file for a user of the
files exactly when the events carry it. -/
theorem get_migrated_iff {legacy : LegacyJson} {host : Host} {dir : JsonDir} {text : List Char}
    {stats : MigrationStats} {after : List UInt8}
    (hrun : migrateJsonToEvents legacy json host dir (utf8 text) false = .ok (stats, after))
    (hsuccess : stats.success = true)
    (hdistinct : ((legacyUsers legacy dir).map Prod.fst).Nodup)
    (hread : ∀ event other, json.parse (behind json text event) = some other → other = event)
    {user : String × UserMfaData} (huser : user ∈ legacyUsers legacy dir) :
    (MfaEventLog.reopen json after).state.get user.1 = some user.2 ↔
      Migrates json legacy host.now dir text user := by
  obtain ⟨-, hafter⟩ := migrateJsonToEvents_spec hrun hsuccess (List.ne_nil_of_mem huser)
  rw [hafter, ← utf8_append, MfaEventLog.reopen_utf8]
  unfold Migrates
  cases hall : legacyUsers legacy dir with
  | nil =>
    rw [hall] at huser
    exact absurd huser List.not_mem_nil
  | cons first rest =>
    rw [hall] at huser hdistinct
    obtain ⟨hfirst, hrest⟩ := List.nodup_cons.mp hdistinct
    rw [List.head?_cons, Option.some.injEq]
    rcases List.mem_cons.mp huser with rfl | huser
    · rw [forall_prop_of_true rfl]
      exact get_first_iff (hread _) hfirst
    · obtain ⟨front, behind, rfl⟩ := List.append_of_mem huser
      have hne : first ≠ user := by
        rintro rfl
        exact hfirst (List.mem_map_of_mem huser)
      have hnew : user.1 ∉ (first :: front).map Prod.fst ∧ user.1 ∉ behind.map Prod.fst := by
        rw [List.map_append, List.map_cons] at hrest
        obtain ⟨-, hback, happart⟩ := List.nodup_append.mp hrest
        refine ⟨fun hmem ↦ ?_, (List.nodup_cons.mp hback).1⟩
        rcases List.mem_cons.mp hmem with hsame | hmem
        · exact hfirst (hsame ▸ List.mem_map_of_mem huser)
        · exact happart _ hmem _ List.mem_cons_self rfl
      rw [forall_prop_of_false hne, and_true]
      exact get_later_iff (hread _) hnew

/-- A user with MFA enabled. -/
def sampleData (backupCodes : List String) : UserMfaData where
  secret := ⟨"JBSWY3DPEHPK3PXP", .sha256, 6, 30, none, none⟩
  status := ⟨true, false, some "2026-01-01T00:00:00Z"⟩
  backupCodes := backupCodes

/-- The text of such a user. -/
def sampleUser (backupCodes : String) : String :=
  "\x7b\"secret\":\x7b\"secret\":\"JBSWY3DPEHPK3PXP\",\"algorithm\":\"SHA256\",\"digits\":6,"
    ++ "\"step\":30,\"issuer\":null,\"account_name\":null\x7d,\"status\":\x7b\"enabled\":true,"
    ++ "\"required\":false,\"enabled_at\":\"2026-01-01T00:00:00Z\"\x7d,\"backup_codes\":["
    ++ backupCodes ++ "]\x7d"

/-- The text of two users, one of whom has a backup code. -/
def sampleText : String :=
  "\x7b\"users\":\x7b\"alice\":" ++ sampleUser "\"ABC123\"" ++ ",\"bob\":" ++ sampleUser ""
    ++ "\x7d\x7d"

def sampleLegacy : LegacyJson where
  storage text :=
    if text = sampleText then some [("alice", sampleData ["ABC123"]), ("bob", sampleData [])]
    else none
  user _ := .error "missing field"

def sampleFile : JsonFile :=
  ⟨"\"old_mfa/mfa_data.json\"", true, some "json", some "mfa_data", some sampleText⟩

/-- A host on which all appends are written. -/
def sampleHost : Host := ⟨fun _ ↦ "2026-02-01T00:00:00Z", fun _ ↦ .written⟩

theorem storage_sampleText : sampleLegacy.storage sampleText =
    some [("alice", sampleData ["ABC123"]), ("bob", sampleData [])] := by
  simp only [sampleLegacy, if_true]

theorem findJsonFiles_sampleFile : findJsonFiles (.entries [sampleFile]) = .ok [sampleFile] := rfl

theorem users_sampleFile : legacyUsers sampleLegacy (.entries [sampleFile]) =
    [("alice", sampleData ["ABC123"]), ("bob", sampleData [])] := by
  unfold legacyUsers
  rw [findJsonFiles_sampleFile]
  simp only [List.flatMap_singleton, JsonFile.users, sampleFile, storage_sampleText]

/-- Both users are migrated into an empty log. -/
theorem migrate_sampleFile : ∃ after, migrateJsonToEvents sampleLegacy .ofFormat sampleHost
    (.entries [sampleFile]) (utf8 []) false = .ok (⟨2, 5, []⟩, after) := by
  have hopened : (MfaEventLog.reopen .ofFormat (utf8 [])).opened = true := by
    rw [MfaEventLog.reopen_utf8]
  have hfile (m : Progress) : migrateFile sampleLegacy .ofFormat sampleHost m sampleFile =
      migrateUsers .ofFormat sampleHost m
        [("alice", sampleData ["ABC123"]), ("bob", sampleData [])] := by
    simp only [migrateFile, sampleFile, storage_sampleText]
  unfold migrateJsonToEvents
  rw [findJsonFiles_sampleFile]
  simp only [hopened, List.foldl_cons, List.foldl_nil, migrateNext, hfile]
  exact ⟨_, rfl⟩

/-- The storage has the data of the user without backup codes. -/
theorem get_migrated_bob : ∃ stats after, migrateJsonToEvents sampleLegacy .ofFormat sampleHost
    (.entries [sampleFile]) (utf8 []) false = .ok (stats, after) ∧
      (MfaEventLog.reopen .ofFormat after).state.get "bob" = some (sampleData []) := by
  obtain ⟨after, hrun⟩ := migrate_sampleFile
  have hread : ∀ event other, MfaEventJson.ofFormat.parse (behind .ofFormat [] event) = some other →
      other = event := by
    intro event other hparse
    have hnone : unendedLine [] = [] := rfl
    rw [behind, hnone, List.nil_append, String.ofList_toList, MfaEventJson.parse_render] at hparse
    exact (Option.some.inj hparse).symm
  have hdistinct : ((legacyUsers sampleLegacy (.entries [sampleFile])).map Prod.fst).Nodup := by
    rw [users_sampleFile]
    decide
  have hmem : ("bob", sampleData []) ∈ legacyUsers sampleLegacy (.entries [sampleFile]) := by
    rw [users_sampleFile]
    exact List.mem_cons_of_mem _ List.mem_cons_self
  refine ⟨_, after, hrun, (get_migrated_iff hrun rfl hdistinct hread hmem).mpr ?_⟩
  refine ⟨⟨rfl, rfl, rfl⟩, fun hfirst ↦ ?_⟩
  rw [users_sampleFile] at hfirst
  have hname := congrArg Prod.fst (Option.some.inj hfirst)
  exact absurd hname (by decide)

/-- No migration gives a user backup codes. -/
theorem backupCodes_of_get {state : MfaState} (h : Plain state) {username : String}
    {data : UserMfaData} (hget : state.get username = some data) : data.backupCodes = [] := by
  obtain ⟨user, huser, hdata⟩ := Option.bind_eq_some_iff.mp hget
  obtain ⟨secret, -, rfl⟩ := Option.map_eq_some_iff.mp hdata
  exact (h username user huser).2.1

/-- A migration that succeeds may leave out a part of the data. -/
theorem not_get_migrated : ¬ ∀ (legacy : LegacyJson) (json : MfaEventJson) (host : Host)
    (dir : JsonDir) (file : List UInt8) (stats : MigrationStats) (after : List UInt8),
    migrateJsonToEvents legacy json host dir file false = .ok (stats, after) →
      stats.success = true → ((legacyUsers legacy dir).map Prod.fst).Nodup →
        ∀ user ∈ legacyUsers legacy dir,
          (MfaEventLog.reopen json after).state.get user.1 = some user.2 := by
  intro h
  obtain ⟨after, hrun⟩ := migrate_sampleFile
  have hall := h sampleLegacy .ofFormat sampleHost _ _ _ _ hrun rfl
  rw [users_sampleFile] at hall
  have hget := hall (by decide) ("alice", sampleData ["ABC123"]) List.mem_cons_self
  exact absurd (backupCodes_of_get (plain_replay _) hget) (List.cons_ne_nil _ _)

end Lithair.Mfa.Migration
