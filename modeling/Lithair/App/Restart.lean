import Lithair.Cluster.Wal
import Lithair.Lib.Run

/-!
# Restarting a node

A node appends entries to its consensus log and writes them to its write-ahead log, each at once or
through the buffer of the group commit; a crash leaves the file and nothing else. `build` opens the
file and makes a new consensus log, and the start of the cluster in `serve` sets the leadership, the
batcher and the flush task, and touches neither. So a restarted node has an empty log that counts
from one again, whatever the file holds.

`restartKeeps_iff_nothing_written`: over every run of acknowledged writes and restarts, a restart
brings back what recovery would read from the file exactly as long as nothing was written to it.
-/

namespace Lithair.App

open Lithair.Cluster Lithair.Lib.Run

/-- A node: its consensus log, its write-ahead log, and the entries whose handlers have not handed
them to the file yet. -/
structure Node where
  log : ConsensusLog CrudOperation
  wal : WriteAheadLog
  inFlight : List (LogEntry CrudOperation)

/-- What a node does, and how each write to the file ends. -/
inductive NodeAction
  | append (operation : CrudOperation) (timestampMs : ℕ)
  | write (entry : LogEntry CrudOperation) (outcome : IoOutcome)
  | writeBuffered (entry : LogEntry CrudOperation) (outcome : IoOutcome)
  | flush (outcome : IoOutcome)
  | restart

namespace Node

variable (serde : Serde) (codec : RkyvCodec)

/-- The node that `build` makes and `serve` starts, from the file it finds. -/
def build (file : Option (List UInt8)) : Node where
  log := .new
  wal := .new codec file
  inFlight := []

/-- A crash and a start. -/
def restart (node : Node) : Node := build codec (some node.wal.file)

/-- A write that is acknowledged. -/
def acknowledged (result : WriteAheadLog × Bool) : Option WriteAheadLog :=
  if result.2 then some result.1 else none

/-- One step of a node all of whose writes are acknowledged. -/
def step (node : Node) : NodeAction → Option Node
  | .append operation timestampMs =>
    let (log, entry) := node.log.append operation timestampMs
    some { node with log, inFlight := node.inFlight ++ [entry] }
  | .write entry outcome =>
    if entry ∈ node.inFlight then
      (acknowledged (node.wal.append serde codec entry outcome)).map fun wal ↦
        { node with wal, inFlight := node.inFlight.erase entry }
    else none
  | .writeBuffered entry outcome =>
    if entry ∈ node.inFlight then
      (acknowledged (node.wal.appendBuffered serde codec entry outcome)).map fun wal ↦
        { node with wal, inFlight := node.inFlight.erase entry }
    else none
  | .flush outcome =>
    (acknowledged (node.wal.flush serde codec outcome)).map fun wal ↦ { node with wal }
  | .restart => some (node.restart codec)

/-- The entries that a log creates when operations are appended to it one after the other. -/
def assigned (log : ConsensusLog CrudOperation) :
    List (CrudOperation × ℕ) → List (LogEntry CrudOperation)
  | [] => []
  | (operation, timestampMs) :: rest =>
    let (log, entry) := log.append operation timestampMs
    entry :: assigned log rest

/-- After a crash the restarted node has every entry that recovery reads from the file, and gives
out only greater indices. -/
def RestartKeeps (node : Node) : Prop :=
  ∃ entries, WriteAheadLog.readAll serde codec node.wal.file = .ok entries ∧
    (∀ entry ∈ entries, entry ∈ (node.restart codec).log.entries) ∧
    ∀ operations, ∀ later ∈ assigned (node.restart codec).log operations,
      ∀ entry ∈ entries, entry.index < later.index

/-- The entries that an action writes to the file. -/
def writtenBy (node : Node) : NodeAction → List (LogEntry CrudOperation)
  | .write entry _ => [entry]
  | .writeBuffered entry _ => if node.wal.groupCommit then [] else [entry]
  | .flush _ => node.wal.pendingBuffer
  | .append _ _ | .restart => []

variable {serde codec}

theorem acknowledged_eq_some {result : WriteAheadLog × Bool} {wal : WriteAheadLog} :
    acknowledged result = some wal ↔ result = (wal, true) := by
  obtain ⟨stored, ok⟩ := result
  cases ok with
  | false => simp [acknowledged]
  | true => simp [acknowledged]

variable {node next : Node} {written : List (LogEntry CrudOperation)}

/-- What one step adds to the file. -/
theorem stores_step (h : node.wal.Stores serde codec written) {action : NodeAction}
    (hnext : step serde codec node action = some next) :
    next.wal.Stores serde codec (written ++ node.writtenBy action) := by
  cases action with
  | append operation timestampMs =>
    obtain rfl := Option.some.inj hnext
    rwa [writtenBy, List.append_nil]
  | write entry outcome =>
    simp only [step, Option.ite_none_right_eq_some, Option.map_eq_some_iff] at hnext
    obtain ⟨-, wal, hack, rfl⟩ := hnext
    exact h.append (acknowledged_eq_some.mp hack)
  | writeBuffered entry outcome =>
    simp only [step, Option.ite_none_right_eq_some, Option.map_eq_some_iff] at hnext
    obtain ⟨-, wal, hack, rfl⟩ := hnext
    rw [acknowledged_eq_some, WriteAheadLog.appendBuffered] at hack
    rw [writtenBy]
    split_ifs at hack ⊢
    · obtain ⟨rfl, -⟩ := Prod.mk.inj hack
      rw [List.append_nil]
      exact ⟨h.serialises, h.file, h.position, h.last⟩
    · exact h.append hack
  | flush outcome =>
    simp only [step, Option.map_eq_some_iff] at hnext
    obtain ⟨wal, hack, rfl⟩ := hnext
    exact h.flush (acknowledged_eq_some.mp hack)
  | restart =>
    obtain rfl := Option.some.inj hnext
    rw [writtenBy, List.append_nil]
    exact WriteAheadLog.withConfig_of_stores h true

theorem kept_stores :
    Kept (step serde codec) fun node ↦ ∃ written, node.wal.Stores serde codec written :=
  fun _ _ _ ⟨_, h⟩ hnext ↦ ⟨_, stores_step h hnext⟩

/-- A restart brings back what the file holds only when it holds nothing. -/
theorem restartKeeps_iff (h : node.wal.Stores serde codec written) :
    RestartKeeps serde codec node ↔ written = [] := by
  have hread := WriteAheadLog.readAll_of_stores h
  constructor
  · rintro ⟨entries, hentries, hcontained, -⟩
    obtain rfl := Except.ok.inj (hread.symm.trans hentries)
    rw [← List.map_eq_nil_iff (f := WalEntry.reread serde), List.eq_nil_iff_forall_not_mem]
    intro entry hentry
    exact List.not_mem_nil (hcontained entry hentry)
  · rintro rfl
    refine ⟨[], hread, ?_, ?_⟩
    · intro entry hentry
      exact absurd hentry List.not_mem_nil
    · intro operations later hlater entry hentry
      exact absurd hentry List.not_mem_nil

/-- In every run of acknowledged writes and restarts, a restart brings the log back exactly as long
as no entry was written to the file. -/
theorem restartKeeps_iff_nothing_written (serde : Serde) (codec : RkyvCodec)
    (actions : List NodeAction) :
    Always (step serde codec) (RestartKeeps serde codec) (build codec none) actions ↔
      EachStep (step serde codec) (fun node action ↦ node.writtenBy action = [])
        (build codec none) actions := by
  refine always_iff_eachStep kept_stores ?_ ⟨[], WriteAheadLog.stores_new⟩
    ((restartKeeps_iff WriteAheadLog.stores_new).mpr rfl) actions
  rintro node action next ⟨written, h⟩ hkeeps hnext
  rw [restartKeeps_iff h] at hkeeps
  rw [restartKeeps_iff (stores_step h hnext), hkeeps, List.nil_append]

/-! ### One write and a restart -/

section OneWrite

/-- Serialisation with texts that nothing is read back from. -/
def blankSerde : Serde where
  jsonText := fun _ ↦ ""
  parseJson := fun _ ↦ none
  versionValue := fun _ ↦ .null
  versionOfValue := fun _ ↦ none
  changeValue := fun _ ↦ .null
  changeOfValue := fun _ ↦ none
  uuidText := fun _ ↦ ""
  parseUuid := fun _ ↦ none

/-- The deletion of a product, as the first entry of a log. -/
def firstEntry : LogEntry CrudOperation := ⟨⟨1, 1⟩, .delete "/api/products" "a", 0⟩

/-- A codec for the record of `firstEntry` alone. -/
def firstEntryCodec : RkyvCodec where
  toBytes := fun entry ↦
    if entry = .fromLogEntry blankSerde firstEntry then some [1, 2, 3] else none
  fromBytes := fun bytes ↦
    if bytes = [1, 2, 3] then some (.fromLogEntry blankSerde firstEntry) else none
  fromBytes_toBytes := by
    intro entry bytes h
    rw [Option.ite_none_right_eq_some, Option.some.injEq] at h
    obtain ⟨rfl, rfl⟩ := h
    rfl
  length_toBytes := by
    intro entry bytes h
    rw [Option.ite_none_right_eq_some, Option.some.injEq] at h
    obtain ⟨-, rfl⟩ := h
    decide

/-- One entry goes through the group commit to the file, and a restart does not bring it back. -/
theorem restart_forgets_first_entry :
    ¬ Always (step blankSerde firstEntryCodec) (RestartKeeps blankSerde firstEntryCodec)
        (build firstEntryCodec none)
        [.append firstEntry.operation 0, .writeBuffered firstEntry .synced, .flush .synced] := by
  intro h
  have hkeeps : RestartKeeps blankSerde firstEntryCodec _ := ((h.2 _ rfl).2 _ rfl).2 _ rfl
  have hstart : (build firstEntryCodec none).wal.Stores blankSerde firstEntryCodec [] :=
    WriteAheadLog.stores_new
  have happended := stores_step hstart
    (rfl : step _ _ _ (.append firstEntry.operation 0) = some _)
  have hbuffered := stores_step happended (rfl : step _ _ _ (.writeBuffered firstEntry .synced) = _)
  have hflushed := stores_step hbuffered (rfl : step _ _ _ (.flush .synced) = _)
  exact List.cons_ne_nil firstEntry [] ((restartKeeps_iff hflushed).mp hkeeps)

end OneWrite

end Node

end Lithair.App
