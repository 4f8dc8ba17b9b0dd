import Lithair.Engine.Restart

/-!
# Compaction of the log

`save_state_snapshot` and `compact_after_snapshot` of `engine/mod.rs`: the states are written to the
snapshot file, and then the log is emptied. A new engine replays the log (`Scc2Engine.start`); no
engine reads the snapshot.

`restores_iff_losesNothing` says which runs, with compactions wherever a snapshot has been saved,
can be restarted at any point with the data that the engine held: those in which each event replays
as it was applied, and whenever the log is emptied, the events that are not yet in it make all the
data. After a flush that is so only for an engine without states (`losesNothing_of_drained`).
-/

namespace Lithair.Engine

open Lithair.Lib Lithair.Lib.Run Lithair.Lib.Text

namespace Scc2Engine

variable {S : Type*} (config : Scc2EngineConfig) (stateJson : StateMap S → Except String String)

/-- Save the states, as the text of the whole map. -/
def snapshot (s : Scc2Engine S) : Except String (Scc2Engine S) :=
  if config.enableSnapshots then
    match stateJson s.stateMap with
    | .error message => .error message
    | .ok json =>
      .ok { s with writer := { s.writer with store := s.writer.store.saveSnapshot json } }
  else .error "Snapshots disabled"

def truncateLog (s : Scc2Engine S) : Scc2Engine S :=
  { s with writer := { s.writer with store := s.writer.store.truncateEvents } }

end Scc2Engine

/-- What happens: what happens without compaction, or a snapshot is saved, or the log is emptied. -/
inductive CompactionAction (E : Type*)
  | call (a : EngineAction E)
  | saveStateSnapshot
  | compactAfterSnapshot

namespace Compaction

open Running

variable {S E : Type*} (setup : EngineSetup S E) (stateJson : StateMap S → Except String String)

/-- The log is emptied only when there is a snapshot. -/
def step (s : Running S) : CompactionAction E → Option (Running S)
  | .call a => Running.step setup s a
  | .saveStateSnapshot =>
    if s.Idle then
      match s.engine.snapshot setup.config stateJson with
      | .ok engine => some { s with engine }
      | .error _ => some s
    else none
  | .compactAfterSnapshot =>
    if s.Idle ∧ s.engine.writer.store.loadSnapshot.isSome then
      some { s with engine := s.engine.truncateLog }
    else none

/-- The texts of events that are not in the log yet. -/
def inMemory (w : AsyncWriter) : List String :=
  w.store.eventBatch ++ w.pending setup.envelopeJson

/-- The events that are not in the log yet are enough to make the data. -/
def MemoryMakesData (s : Running S) : Prop :=
  ∃ events, (readEvents setup.crc32 (FileStorage.eventLines setup.crc32
      s.engine.writer.store.enableChecksums (inMemory setup s.engine.writer))).map
        (List.filterMap (Scc2Engine.keyedEvent setup.json setup.app)) = some events ∧
    events.foldl (Scc2Engine.effect setup.app) (fun _ ↦ none) = dataOf s.engine.stateMap

/-- An event replays as it was applied, and the log is emptied only of what is not needed. -/
def LosesNothing (s : Running S) : CompactionAction E → Prop
  | .call a => ReplaysAsApplied setup s a
  | .saveStateSnapshot => True
  | .compactAfterSnapshot => MemoryMakesData setup s

/-- The invariant of the runs without compaction, and there is no rotated segment. -/
structure Inv (s : Running S) : Prop where
  base : Running.Inv setup s
  rotated : s.engine.writer.store.rotated = []

section Steps

variable {setup stateJson} {s next : Running S}

theorem rotated_step {a : EngineAction E} (h : Running.Inv setup s)
    (hnext : Running.step setup s a = some next) :
    next.engine.writer.store.rotated = s.engine.writer.store.rotated := by
  cases a with
  | applyEvent key event now =>
    obtain ⟨hidle, ⟨engine, happly, -, rfl⟩ | ⟨-, rfl⟩⟩ := step_applyEvent hnext
    · exact congrArg FileStorage.rotated (apply_keeps h hidle happly).2.1
    · rfl
  | flush ack => exact (flush_keeps h hnext).2.2.2.files.rotated
  | receive =>
    obtain ⟨w', hreceive, rfl⟩ := Option.map_eq_some_iff.mp hnext
    exact (receive_keeps h hreceive).2.1.files.rotated
  | timeout =>
    obtain ⟨w', htimeout, rfl⟩ := Option.map_eq_some_iff.mp hnext
    exact (timeout_keeps h htimeout).2.1.files.rotated
  | restart now =>
    obtain ⟨-, engine, hstart, rfl⟩ := step_restart hnext
    obtain ⟨events, -, rfl⟩ := Option.map_eq_some_iff.mp hstart
    show ((Scc2Engine.new _).replayEvents _ _ events now).writer.store.rotated = _
    rw [Scc2Engine.writer_replayEvents]
    rfl

/-- A snapshot changes nothing but the snapshot. -/
theorem step_saveStateSnapshot (hnext : step setup stateJson s .saveStateSnapshot = some next) :
    ∃ snapshot, next = { s with engine := { s.engine with writer := { s.engine.writer with
      store := { s.engine.writer.store with snapshot } } } } := by
  simp only [step] at hnext
  split_ifs at hnext with hidle
  split at hnext
  · next engine hsnapshot =>
    obtain rfl := Option.some.inj hnext
    unfold Scc2Engine.snapshot at hsnapshot
    split_ifs at hsnapshot
    split at hsnapshot
    · exact absurd hsnapshot (by simp)
    · next json _ =>
      obtain rfl := Except.ok.inj hsnapshot
      exact ⟨some json, rfl⟩
  · exact ⟨s.engine.writer.store.snapshot, (Option.some.inj hnext).symm⟩

theorem step_compactAfterSnapshot
    (hnext : step setup stateJson s .compactAfterSnapshot = some next) :
    next = { s with engine := s.engine.truncateLog } := by
  simp only [step] at hnext
  split_ifs at hnext
  exact (Option.some.inj hnext).symm

/-- What is promised when the log is emptied: the events that are not in it. -/
theorem promised_truncateLog (s : Running S) :
    s.engine.truncateLog.writer.promised setup.crc32 setup.envelopeJson =
      FileStorage.eventLines setup.crc32 s.engine.writer.store.enableChecksums
        (inMemory setup s.engine.writer) := by
  rw [inMemory, FileStorage.eventLines_append]
  rfl

theorem inv_of_promised {engine : Scc2Engine S} (h : Inv setup s)
    (hstore : engine.writer.store.maxLogFileSize = s.engine.writer.store.maxLogFileSize ∧
      engine.writer.store.rotated = s.engine.writer.store.rotated)
    (hflushes : engine.writer.flushes = s.engine.writer.flushes)
    (hacks : engine.writer.acknowledged = s.engine.writer.acknowledged)
    (hchannel : engine.writer.channel = s.engine.writer.channel)
    (hended : Ended (engine.writer.promised setup.crc32 setup.envelopeJson)) :
    Inv setup { s with engine } := by
  refine ⟨⟨hstore.1.trans h.base.rotate, hflushes.trans h.base.flushes, hended, ?_⟩,
    hstore.2.trans h.rotated⟩
  show ∃ before : List WriteEvent, _ ∧ (((∀ ack ∈ s.flushing, ack ∈ engine.writer.acknowledged) ∧
    engine.writer.channel = before) ∨ ∃ ack, _ ∧ ack ∉ engine.writer.acknowledged ∧
      engine.writer.channel = _)
  rw [hacks, hchannel]
  exact h.base.channel

theorem kept_inv : Kept (step setup stateJson) (Inv (S := S) setup) := by
  intro s a next h hnext
  cases a with
  | call a => exact ⟨Running.kept_inv s a next h.base hnext,
      (rotated_step h.base hnext).trans h.rotated⟩
  | saveStateSnapshot =>
    obtain ⟨snapshot, rfl⟩ := step_saveStateSnapshot hnext
    exact inv_of_promised h ⟨rfl, rfl⟩ rfl rfl rfl h.base.ended
  | compactAfterSnapshot =>
    obtain rfl := step_compactAfterSnapshot hnext
    refine inv_of_promised h ⟨rfl, rfl⟩ rfl rfl rfl ?_
    rw [promised_truncateLog]
    exact FileStorage.ended_eventLines _ _ _

/-- Emptying the log leaves data that a restart gives back exactly when what is not in the log makes
it. -/
theorem restores_truncateLog (h : Inv setup { s with engine := s.engine.truncateLog }) :
    Restores setup { s with engine := s.engine.truncateLog } ↔ MemoryMakesData setup s := by
  rw [restores_iff h.base, history, promised_truncateLog, h.rotated]
  exact Iff.rfl

theorem restores_step {a : CompactionAction E} (h : Inv setup s) (hrestores : Restores setup s)
    (hnext : step setup stateJson s a = some next) :
    Restores setup next ↔ LosesNothing setup s a := by
  have hinv := kept_inv s a next h hnext
  cases a with
  | call a => exact Running.restores_step h.base hrestores hnext
  | saveStateSnapshot =>
    obtain ⟨snapshot, rfl⟩ := step_saveStateSnapshot hnext
    refine iff_of_true ?_ trivial
    rw [restores_iff hinv.base]
    exact (restores_iff h.base).mp hrestores
  | compactAfterSnapshot =>
    obtain rfl := step_compactAfterSnapshot hnext
    exact restores_truncateLog hinv

/-- A step after which a restart gives the data back meets the condition. -/
theorem losesNothing_of_always {a : CompactionAction E} (hinv : Inv setup s)
    (h : Always (step setup stateJson) (Restores setup) s [a])
    (hnext : step setup stateJson s a = some next) : LosesNothing setup s a :=
  (restores_step hinv h.1 hnext).mp (h.2 next hnext).head

theorem inv_start : Inv setup (start : Running S) := ⟨Running.inv_start, rfl⟩

/-- When nothing is left in memory, the log can be emptied only of an engine without states. -/
theorem losesNothing_of_drained (h : s.engine.writer.Drained) :
    LosesNothing setup s .compactAfterSnapshot ↔ dataOf s.engine.stateMap = fun _ ↦ none := by
  have hnone : inMemory setup s.engine.writer = [] := by
    rw [inMemory, AsyncWriter.pending, h.1, h.2.1, h.2.2]
    rfl
  show MemoryMakesData setup s ↔ _
  rw [MemoryMakesData, hnone]
  constructor
  · rintro ⟨events, hevents, hdata⟩
    obtain rfl := Option.some.inj hevents
    exact hdata.symm
  · intro hdata
    exact ⟨[], rfl, hdata.symm⟩

/-- As long as nothing has been written, the log can be emptied. -/
theorem losesNothing_of_events (h : Inv setup s) (hrestores : Restores setup s)
    (hevents : s.engine.writer.store.events = []) : LosesNothing setup s .compactAfterSnapshot := by
  have hsame : { s with engine := s.engine.truncateLog } = s := by
    show Running.mk (Scc2Engine.mk _ _ { s.engine.writer with
      store := { s.engine.writer.store with events := [] } }) _ = s
    rw [← hevents]
  have hiff := restores_truncateLog (s := s) (by rwa [hsame])
  rw [hsame] at hiff
  exact hiff.mp hrestores

end Steps

end Compaction

open Compaction in
/-- In every run, the engine can be restarted at any point with the data that it holds exactly when
each event replays as it was applied and the log is emptied only of what is not needed. -/
theorem restores_iff_losesNothing {S E : Type*} (setup : EngineSetup S E)
    (stateJson : StateMap S → Except String String) (actions : List (CompactionAction E)) :
    Always (step setup stateJson) (Running.Restores setup) Running.start actions ↔
      EachStep (step setup stateJson) (LosesNothing setup) Running.start actions :=
  always_iff_eachStep kept_inv (fun _ _ _ h hrestores hnext ↦ restores_step h hrestores hnext)
    inv_start Running.restores_start actions

section Counter

open Compaction

/-- The text of the map with a single counter that was incremented once. -/
def counterJson (_ : StateMap ℕ) : Except String String :=
  .ok "\x7b\"global\":\x7b\"version\":1,\"last_updated\":0,\"data\":1\x7d\x7d"

/-- The counter under the key `global` is incremented and written, a snapshot is saved and the log
emptied; a new engine has no counter. -/
theorem snapshot_not_read : ¬ ∃ crc32, ∀ actions,
    Always (step (counterSetup crc32) counterJson) (Running.Restores (counterSetup crc32))
      Running.start actions := by
  rintro ⟨crc32, h⟩
  have hkept : Kept (step (counterSetup crc32) counterJson) (Inv (counterSetup crc32)) := kept_inv
  let actions : List (CompactionAction CounterEvent) :=
    [.call (.applyEvent "global" .increment 0), .call (.flush 0), .call .receive, .call .receive,
      .saveStateSnapshot, .compactAfterSnapshot]
  have hrestores := (((((h actions).2 _ rfl).2 _ rfl).2 _ rfl).2 _ rfl).2 _ rfl
  have hinv := (((((hkept.always inv_start actions).2 _ rfl).2 _ rfl).2 _ rfl).2 _ rfl).2 _ rfl
  have hloses := losesNothing_of_always hinv.1 hrestores rfl
  have hnone := (losesNothing_of_drained ⟨rfl, rfl, rfl⟩).mp hloses
  have hglobal : (some 1 : Option ℕ) = none := congrFun hnone "global"
  exact absurd hglobal (by simp)

end Counter

end Lithair.Engine
