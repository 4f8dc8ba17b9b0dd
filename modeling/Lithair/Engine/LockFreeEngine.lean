import Lithair.Lib.Run
import Mathlib

/-!
# Shards with one writer each

`engine/lockfree_engine.rs`: a state for each shard, behind a pointer that is read at any time and
swapped by the one thread that writes to the shard. Commands go to the shard of their key through a
channel, and a synchronous write waits on a channel of its own for the answer.

In every interleaving of callers and writers a shard shows the commands that were sent to it up to
some point, each applied once and in the order of sending (`run_shard`), and a synchronous write
that has returned is among them for every reader of its key (`writeSync_visible`). From every state
the writer of a shard comes to answer all of them (`drains`).
-/

namespace Lithair.Engine.LockFree

open Lithair.Lib.Run

structure VersionedState (S : Type*) where
  version : UInt64
  state : S

/-- A command. A synchronous one carries the channel for its answer. -/
structure ShardCommand (E : Type*) where
  event : E
  shardKey : String
  responseSender : Option ℕ

/-- What the writer of a shard is at: it receives, it has applied a command to a copy of the state,
or it has swapped the copy in. -/
inductive Worker (S E : Type*)
  | receiving
  | applied (command : ShardCommand E) (new : VersionedState S)
  | swapped (command : ShardCommand E)

structure LockFreeShard (S E : Type*) where
  state : VersionedState S
  versionCounter : UInt64
  commands : List (ShardCommand E)
  worker : Worker S E

/-- The shards, the number of channels made for answers, and those that have their answer. -/
structure LockFreeEngine (S E : Type*) (shardCount : ℕ) where
  shards : Fin shardCount → LockFreeShard S E
  channels : ℕ
  answered : List ℕ

/-- What happens next: a caller sends a command, or the writer of a shard takes one and applies it
to a copy, swaps the copy in, or answers. -/
inductive Action (E : Type*) (shardCount : ℕ)
  | write (key : String) (event : E)
  | writeSync (key : String) (event : E)
  | receive (shard : Fin shardCount)
  | swap (shard : Fin shardCount)
  | respond (shard : Fin shardCount)

variable {S E : Type*} {shardCount : ℕ}

namespace LockFreeShard

def new (initialState : S) : LockFreeShard S E where
  state := ⟨0, initialState⟩
  versionCounter := 1
  commands := []
  worker := .receiving

def submitCommand (shard : LockFreeShard S E) (command : ShardCommand E) : LockFreeShard S E :=
  { shard with commands := shard.commands ++ [command] }

variable (apply : E → S → S)

/-- The counter is the writer's own. -/
def receive (shard : LockFreeShard S E) : Option (LockFreeShard S E) :=
  match shard.worker, shard.commands with
  | .receiving, command :: rest => some
    { shard with
      commands := rest
      versionCounter := shard.versionCounter + 1
      worker := .applied command ⟨shard.versionCounter, apply command.event shard.state.state⟩ }
  | _, _ => none

def swap (shard : LockFreeShard S E) : Option (LockFreeShard S E) :=
  match shard.worker with
  | .applied command new => some { shard with state := new, worker := .swapped command }
  | _ => none

def respond (shard : LockFreeShard S E) : Option (Option ℕ × LockFreeShard S E) :=
  match shard.worker with
  | .swapped command => some (command.responseSender, { shard with worker := .receiving })
  | _ => none

/-- The commands that are not in the state yet. -/
def pending (shard : LockFreeShard S E) : List (ShardCommand E) :=
  match shard.worker with
  | .applied command _ => command :: shard.commands
  | _ => shard.commands

end LockFreeShard

namespace LockFreeEngine

def new (initialState : S) : LockFreeEngine S E shardCount where
  shards _ := .new initialState
  channels := 0
  answered := []

def setShard (engine : LockFreeEngine S E shardCount) (i : Fin shardCount)
    (shard : LockFreeShard S E) : LockFreeEngine S E shardCount :=
  { engine with shards := Function.update engine.shards i shard }

variable (hash : String → UInt64)

def hashToShard [NeZero shardCount] (key : String) : Fin shardCount :=
  Fin.ofNat shardCount (hash key).toNat

def read [NeZero shardCount] (engine : LockFreeEngine S E shardCount) (key : String) : S :=
  (engine.shards (hashToShard hash key)).state.state

def submit [NeZero shardCount] (engine : LockFreeEngine S E shardCount)
    (command : ShardCommand E) : LockFreeEngine S E shardCount :=
  let i := hashToShard hash command.shardKey
  engine.setShard i ((engine.shards i).submitCommand command)

/-- The channel of a synchronous write is new. -/
def step [NeZero shardCount] (apply : E → S → S) (engine : LockFreeEngine S E shardCount) :
    Action E shardCount → Option (LockFreeEngine S E shardCount)
  | .write key event => some (engine.submit hash ⟨event, key, none⟩)
  | .writeSync key event =>
    some { engine.submit hash ⟨event, key, some engine.channels⟩ with
      channels := engine.channels + 1 }
  | .receive i => ((engine.shards i).receive apply).map (engine.setShard i)
  | .swap i => (engine.shards i).swap.map (engine.setShard i)
  | .respond i => (engine.shards i).respond.map fun (sender, shard) ↦
    { engine.setShard i shard with answered := sender.toList ++ engine.answered }

end LockFreeEngine

/-! ### What was sent, and how far a shard is -/

/-- The commands of the actions in the order of sending, when `next` channels were made before. -/
def commandsFrom : ℕ → List (Action E shardCount) → List (ShardCommand E)
  | _, [] => []
  | next, .write key event :: rest => ⟨event, key, none⟩ :: commandsFrom next rest
  | next, .writeSync key event :: rest => ⟨event, key, some next⟩ :: commandsFrom (next + 1) rest
  | next, .receive _ :: rest => commandsFrom next rest
  | next, .swap _ :: rest => commandsFrom next rest
  | next, .respond _ :: rest => commandsFrom next rest

/-- The number of synchronous writes. -/
def calls (actions : List (Action E shardCount)) : ℕ :=
  actions.countP fun
    | .writeSync _ _ => true
    | _ => false

/-- The number of commands that were swapped into the state of a shard. -/
def applied (i : Fin shardCount) (actions : List (Action E shardCount)) : ℕ :=
  actions.countP fun
    | .swap j => decide (j = i)
    | _ => false

/-- The number of commands of a shard that were answered. -/
def responded (i : Fin shardCount) (actions : List (Action E shardCount)) : ℕ :=
  actions.countP fun
    | .respond j => decide (j = i)
    | _ => false

/-- The commands that were sent to a shard. -/
def submitted [NeZero shardCount] (hash : String → UInt64) (i : Fin shardCount)
    (actions : List (Action E shardCount)) : List (ShardCommand E) :=
  (commandsFrom 0 actions).filter fun command ↦
    LockFreeEngine.hashToShard hash command.shardKey = i

/-- The state after commands, with their number. -/
def replay (apply : E → S → S) (initialState : S) (commands : List (ShardCommand E)) :
    VersionedState S where
  version := UInt64.ofNat commands.length
  state := commands.foldl (fun state command ↦ apply command.event state) initialState

section Counting

variable (first second : List (Action E shardCount))

theorem calls_append : calls (first ++ second) = calls first + calls second :=
  List.countP_append

theorem applied_append (i : Fin shardCount) :
    applied i (first ++ second) = applied i first + applied i second :=
  List.countP_append

theorem responded_append (i : Fin shardCount) :
    responded i (first ++ second) = responded i first + responded i second :=
  List.countP_append

theorem applied_swap (i j : Fin shardCount) :
    applied i [(.swap j : Action E shardCount)] = if j = i then 1 else 0 := by
  unfold applied
  rw [List.countP_singleton]
  simp only [decide_eq_true_eq]

theorem responded_respond (i j : Fin shardCount) :
    responded i [(.respond j : Action E shardCount)] = if j = i then 1 else 0 := by
  unfold responded
  rw [List.countP_singleton]
  simp only [decide_eq_true_eq]

theorem commandsFrom_append (next : ℕ) : commandsFrom next (first ++ second) =
    commandsFrom next first ++ commandsFrom (next + calls first) second := by
  induction first generalizing next with
  | nil => rfl
  | cons a rest ih =>
    cases a with
    | writeSync key event =>
      have hcalls : next + calls (.writeSync key event :: rest) = next + 1 + calls rest := by
        rw [calls, List.countP_cons_of_pos rfl, ← calls]
        omega
      rw [List.cons_append, commandsFrom, ih, hcalls]
      rfl
    | write key event =>
      rw [List.cons_append, commandsFrom, ih]
      rfl
    | receive i => exact ih next
    | swap i => exact ih next
    | respond i => exact ih next

/-- The channels of the commands are new ones, each of one command. -/
theorem filterMap_responseSender (next : ℕ) :
    (commandsFrom next first).filterMap ShardCommand.responseSender =
      List.range' next (calls first) := by
  induction first generalizing next with
  | nil => rfl
  | cons a rest ih =>
    cases a with
    | writeSync key event =>
      have hcalls : calls (.writeSync key event :: rest) = calls rest + 1 :=
        List.countP_cons_of_pos rfl
      rw [commandsFrom, List.filterMap_cons, ih, hcalls, List.range'_succ]
    | write key event =>
      rw [commandsFrom, List.filterMap_cons, ih]
      rfl
    | receive i => exact ih next
    | swap i => exact ih next
    | respond i => exact ih next

theorem channel_of_mem {actions : List (Action E shardCount)} {next channel : ℕ}
    {command : ShardCommand E} (hmem : command ∈ commandsFrom next actions)
    (hsender : command.responseSender = some channel) :
    next ≤ channel ∧ channel < next + calls actions := by
  have hchannel := List.mem_filterMap.mpr ⟨command, hmem, hsender⟩
  rw [filterMap_responseSender, List.mem_range'_1] at hchannel
  exact hchannel

end Counting

/-! ### One shard -/

section Shard

variable (apply : E → S → S) (initialState : S)

/-- What the writer is at, when the commands `done` are in the state: the counter is one ahead of
the copies made, and the commands it has answered are `done` but for one that it is about to
answer. -/
inductive Working (done : List (ShardCommand E)) : Worker S E → UInt64 → ℕ → Prop
  | receiving : Working done .receiving (UInt64.ofNat done.length + 1) done.length
  | applied (command : ShardCommand E) :
      Working done (.applied command (replay apply initialState (done ++ [command])))
        (UInt64.ofNat done.length + 1 + 1) done.length
  | swapped (before : List (ShardCommand E)) (command : ShardCommand E)
      (hdone : done = before ++ [command]) :
      Working done (.swapped command) (UInt64.ofNat done.length + 1) before.length

/-- The commands `done` are in the state of the shard, the commands `left` are to follow, and
`answered` of them have their answer. -/
structure Serves (done left : List (ShardCommand E)) (answered : ℕ) (shard : LockFreeShard S E) :
    Prop where
  state : shard.state = replay apply initialState done
  pending : shard.pending = left
  working : Working apply initialState done shard.worker shard.versionCounter answered

variable {apply initialState} {done left : List (ShardCommand E)} {answered : ℕ}
  {shard next : LockFreeShard S E}

theorem replay_concat (command : ShardCommand E) : replay apply initialState (done ++ [command]) =
    ⟨UInt64.ofNat done.length + 1, apply command.event (replay apply initialState done).state⟩ := by
  unfold replay
  rw [List.length_append, List.length_singleton, UInt64.ofNat_add, List.foldl_concat]
  rfl

theorem serves_new : Serves apply initialState [] [] 0 (LockFreeShard.new initialState) :=
  ⟨rfl, rfl, .receiving⟩

theorem Serves.submitCommand (h : Serves apply initialState done left answered shard)
    (command : ShardCommand E) :
    Serves apply initialState done (left ++ [command]) answered (shard.submitCommand command) where
  state := h.state
  pending := by
    rw [← h.pending]
    unfold LockFreeShard.pending LockFreeShard.submitCommand
    cases shard.worker <;> rfl
  working := h.working

/-- Taking a command changes nothing for the readers, and the command is still to follow. -/
theorem Serves.receive (h : Serves apply initialState done left answered shard)
    (hreceive : shard.receive apply = some next) :
    Serves apply initialState done left answered next := by
  obtain ⟨state, counter, commands, worker⟩ := shard
  obtain ⟨rfl, rfl, hworking⟩ := h
  unfold LockFreeShard.receive at hreceive
  cases commands with
  | nil => cases worker <;> exact absurd hreceive nofun
  | cons command rest =>
    cases hworking with
    | applied => exact absurd hreceive nofun
    | swapped => exact absurd hreceive nofun
    | receiving =>
      obtain rfl := Option.some.inj hreceive
      refine ⟨rfl, rfl, ?_⟩
      have hworking := @Working.applied _ _ apply initialState done command
      rwa [replay_concat] at hworking

/-- Swapping the copy in moves one command into the state. -/
theorem Serves.swap (h : Serves apply initialState done left answered shard)
    (hswap : shard.swap = some next) :
    ∃ command rest, left = command :: rest ∧
      Serves apply initialState (done ++ [command]) rest answered next := by
  obtain ⟨state, counter, commands, worker⟩ := shard
  obtain ⟨rfl, rfl, hworking⟩ := h
  unfold LockFreeShard.swap at hswap
  cases hworking with
  | receiving => exact absurd hswap nofun
  | swapped => exact absurd hswap nofun
  | applied command =>
    obtain rfl := Option.some.inj hswap
    refine ⟨command, commands, rfl, rfl, rfl, ?_⟩
    have hworking := @Working.swapped _ _ apply initialState (done ++ [command]) done command rfl
    rwa [List.length_append, List.length_singleton, UInt64.ofNat_add] at hworking

/-- The answer is for the last command in the state. -/
theorem Serves.respond (h : Serves apply initialState done left answered shard)
    {sender : Option ℕ} (hrespond : shard.respond = some (sender, next)) :
    ∃ before command, done = before ++ [command] ∧ before.length = answered ∧
      sender = command.responseSender ∧
      Serves apply initialState done left (answered + 1) next := by
  obtain ⟨state, counter, commands, worker⟩ := shard
  obtain ⟨rfl, rfl, hworking⟩ := h
  unfold LockFreeShard.respond at hrespond
  cases hworking with
  | receiving => exact absurd hrespond nofun
  | applied => exact absurd hrespond nofun
  | swapped before command hdone =>
    obtain ⟨rfl, rfl⟩ := Prod.mk.inj (Option.some.inj hrespond)
    refine ⟨before, command, hdone, rfl, rfl, rfl, rfl, ?_⟩
    have hlength : before.length + 1 = done.length := by
      rw [hdone, List.length_append, List.length_singleton]
    rw [hlength]
    exact .receiving

end Shard

/-! ### All shards -/

section Engine

open LockFreeEngine

variable [NeZero shardCount] (hash : String → UInt64) (apply : E → S → S) (initialState : S)

/-- What is so after actions: every shard has applied and answered as many commands as its writer
swapped in and answered, the channels are those of the synchronous writes, and every answer is for a
command in the state of its shard. -/
structure Inv (actions : List (Action E shardCount)) (engine : LockFreeEngine S E shardCount) :
    Prop where
  serves : ∀ i, ∃ done left, submitted hash i actions = done ++ left ∧
    done.length = applied i actions ∧
    Serves apply initialState done left (responded i actions) (engine.shards i)
  channels : engine.channels = calls actions
  answered : ∀ channel ∈ engine.answered, ∃ i,
    ∃ command ∈ (submitted hash i actions).take (applied i actions),
      command.responseSender = some channel

variable {hash apply initialState} {actions : List (Action E shardCount)}
  {engine next : LockFreeEngine S E shardCount}

theorem submitted_append (i : Fin shardCount) (first second : List (Action E shardCount)) :
    submitted hash i (first ++ second) = submitted hash i first ++
      (commandsFrom (calls first) second).filter fun command ↦
        hashToShard hash command.shardKey = i := by
  unfold submitted
  rw [commandsFrom_append, List.filter_append, Nat.zero_add]

theorem inv_new : Inv hash apply initialState ([] : List (Action E shardCount))
    (LockFreeEngine.new initialState) where
  serves _ := ⟨[], [], rfl, rfl, serves_new⟩
  channels := rfl
  answered := nofun

/-- The commands in the state of a shard stay in it. -/
theorem Inv.mem_take (h : Inv hash apply initialState actions engine) {i : Fin shardCount}
    {command : ShardCommand E}
    (hmem : command ∈ (submitted hash i actions).take (applied i actions))
    (more : List (Action E shardCount)) :
    command ∈ (submitted hash i (actions ++ more)).take (applied i (actions ++ more)) := by
  obtain ⟨done, left, hsubmitted, hlength, -⟩ := h.serves i
  have hle : applied i actions ≤ (submitted hash i actions).length := by
    rw [hsubmitted, List.length_append]
    omega
  rw [← List.take_append_of_le_length hle, ← submitted_append] at hmem
  refine (List.take_subset_take_left _ ?_) hmem
  rw [applied_append]
  omega

/-- A command that is sent is the last of its shard. -/
theorem Inv.submit (h : Inv hash apply initialState actions engine) (command : ShardCommand E)
    {a : Action E shardCount} (hcommand : commandsFrom (calls actions) [a] = [command])
    (happlied : ∀ i, applied i [a] = 0) (hresponded : ∀ i, responded i [a] = 0)
    (i : Fin shardCount) : ∃ done left, submitted hash i (actions ++ [a]) = done ++ left ∧
      done.length = applied i (actions ++ [a]) ∧
      Serves apply initialState done left (responded i (actions ++ [a]))
        ((engine.submit hash command).shards i) := by
  obtain ⟨done, left, hsubmitted, hlength, hserves⟩ := h.serves i
  rw [applied_append, responded_append, happlied, hresponded, submitted_append, hcommand,
    hsubmitted]
  simp only [LockFreeEngine.submit, LockFreeEngine.setShard, Nat.add_zero]
  by_cases hi : hashToShard hash command.shardKey = i
  · subst hi
    refine ⟨done, left ++ [command], ?_, hlength, ?_⟩
    · rw [List.filter_singleton, List.append_assoc]
      simp
    · rw [Function.update_self]
      exact hserves.submitCommand command
  · refine ⟨done, left, ?_, hlength, ?_⟩
    · rw [List.filter_singleton]
      simp [hi]
    · rw [Function.update_of_ne (Ne.symm hi)]
      exact hserves

/-- The writer of one shard makes a step. -/
theorem Inv.move (h : Inv hash apply initialState actions engine) {j : Fin shardCount}
    {shard : LockFreeShard S E} {a : Action E shardCount}
    (hcommand : commandsFrom (calls actions) [a] = [])
    (hothers : ∀ i, i ≠ j → applied i [a] = 0 ∧ responded i [a] = 0)
    (hmove : ∀ done left,
      Serves apply initialState done left (responded j actions) (engine.shards j) →
      ∃ done' left', done ++ left = done' ++ left' ∧ done'.length = done.length + applied j [a] ∧
        Serves apply initialState done' left' (responded j actions + responded j [a]) shard)
    (i : Fin shardCount) : ∃ done left, submitted hash i (actions ++ [a]) = done ++ left ∧
      done.length = applied i (actions ++ [a]) ∧
      Serves apply initialState done left (responded i (actions ++ [a]))
        ((engine.setShard j shard).shards i) := by
  obtain ⟨done, left, hsubmitted, hlength, hserves⟩ := h.serves i
  rw [applied_append, responded_append, submitted_append, hcommand, List.filter_nil,
    List.append_nil, hsubmitted]
  simp only [LockFreeEngine.setShard]
  by_cases hi : i = j
  · subst hi
    obtain ⟨done', left', happend, hlength', hserves'⟩ := hmove done left hserves
    rw [Function.update_self]
    exact ⟨done', left', happend, by rw [hlength', hlength], hserves'⟩
  · obtain ⟨happlied, hresponded⟩ := hothers i hi
    rw [Function.update_of_ne hi, happlied, hresponded]
    exact ⟨done, left, rfl, hlength, hserves⟩

/-- One step keeps what is so. -/
theorem Inv.step (h : Inv hash apply initialState actions engine) {a : Action E shardCount}
    (hstep : LockFreeEngine.step hash apply engine a = some next) :
    Inv hash apply initialState (actions ++ [a]) next := by
  have hkept : ∀ channel ∈ engine.answered, ∃ i,
      ∃ command ∈ (submitted hash i (actions ++ [a])).take (applied i (actions ++ [a])),
        command.responseSender = some channel := by
    intro channel hchannel
    obtain ⟨i, command, hmem, hsender⟩ := h.answered channel hchannel
    exact ⟨i, command, h.mem_take hmem [a], hsender⟩
  have hchannels (hcalls : calls [a] = 0) : engine.channels = calls (actions ++ [a]) := by
    rw [h.channels, calls_append, hcalls, Nat.add_zero]
  cases a with
  | write key event =>
    obtain rfl := Option.some.inj hstep
    exact ⟨h.submit ⟨event, key, none⟩ rfl (fun _ ↦ rfl) fun _ ↦ rfl,
      hchannels rfl, hkept⟩
  | writeSync key event =>
    obtain rfl := Option.some.inj hstep
    refine ⟨h.submit ⟨event, key, some engine.channels⟩ ?_ (fun _ ↦ rfl) fun _ ↦ rfl, ?_, hkept⟩
    · rw [h.channels]
      rfl
    · rw [calls_append, ← h.channels]
      rfl
  | receive j =>
    obtain ⟨shard, hreceive, rfl⟩ := Option.map_eq_some_iff.mp hstep
    exact ⟨h.move rfl (fun _ _ ↦ ⟨rfl, rfl⟩) fun done left hserves ↦
        ⟨done, left, rfl, rfl, hserves.receive hreceive⟩,
      hchannels rfl, hkept⟩
  | swap j =>
    obtain ⟨shard, hswap, rfl⟩ := Option.map_eq_some_iff.mp hstep
    refine ⟨h.move rfl (fun i hi ↦ ⟨?_, rfl⟩) fun done left hserves ↦ ?_,
      hchannels rfl, hkept⟩
    · rw [applied_swap, if_neg (Ne.symm hi)]
    · obtain ⟨command, rest, rfl, hnext⟩ := hserves.swap hswap
      refine ⟨done ++ [command], rest, List.append_cons done command rest, ?_, hnext⟩
      rw [applied_swap, if_pos rfl, List.length_append, List.length_singleton]
  | respond j =>
    obtain ⟨⟨sender, shard⟩, hrespond, rfl⟩ := Option.map_eq_some_iff.mp hstep
    refine ⟨h.move rfl (fun i hi ↦ ⟨rfl, ?_⟩) fun done left hserves ↦ ?_,
      hchannels rfl, fun channel hchannel ↦ ?_⟩
    · rw [responded_respond, if_neg (Ne.symm hi)]
    · obtain ⟨-, -, -, -, -, hnext⟩ := hserves.respond hrespond
      refine ⟨done, left, rfl, rfl, ?_⟩
      rwa [responded_respond, if_pos rfl]
    · rcases List.mem_append.mp hchannel with hnew | hold
      · obtain ⟨done, left, hsubmitted, hlength, hserves⟩ := h.serves j
        obtain ⟨before, command, rfl, -, rfl, -⟩ := hserves.respond hrespond
        have hmem : command ∈ (submitted hash j actions).take (applied j actions) := by
          rw [hsubmitted, ← hlength, List.take_left]
          exact List.mem_append_right before (List.mem_singleton.mpr rfl)
        exact ⟨j, command, h.mem_take hmem _, Option.mem_toList.mp hnew⟩
      · exact hkept channel hold

theorem exec_inv
    (h : exec (LockFreeEngine.step hash apply) (LockFreeEngine.new initialState) actions =
      some engine) : Inv hash apply initialState actions engine :=
  exec_induction inv_new (fun _ _ _ _ hI hstep ↦ hI.step hstep) h

/-! ### What readers see -/

/-- Where a command is in the order of its shard. -/
theorem submitted_writeSync (i : Fin shardCount) (before after : List (Action E shardCount))
    (key : String) (event : E) : submitted hash i (before ++ .writeSync key event :: after) =
      submitted hash i before ++
        (⟨event, key, some (calls before)⟩ :: commandsFrom (calls before + 1) after).filter
          fun command ↦ hashToShard hash command.shardKey = i :=
  submitted_append i before _

theorem submitted_writeSync_self (before after : List (Action E shardCount)) (key : String)
    (event : E) :
    submitted hash (hashToShard hash key) (before ++ .writeSync key event :: after) =
      submitted hash (hashToShard hash key) before ++ ⟨event, key, some (calls before)⟩ ::
        (commandsFrom (calls before + 1) after).filter fun command ↦
          hashToShard hash command.shardKey = (hashToShard hash key : Fin shardCount) :=
  (submitted_writeSync _ before after key event).trans
    (congrArg _ (List.filter_cons_of_pos (decide_eq_true rfl)))

/-- A synchronous write that has returned is in the state of its shard. -/
theorem lt_applied_of_answered {before after : List (Action E shardCount)} {key : String}
    {event : E}
    (hinv : Inv hash apply initialState (before ++ .writeSync key event :: after) engine)
    (hreturned : calls before ∈ engine.answered) :
    (submitted hash (hashToShard hash key) before).length <
      applied (hashToShard hash key) (before ++ .writeSync key event :: after) := by
  obtain ⟨i, command, hmem, hsender⟩ := hinv.answered _ hreturned
  have hsent : command ∈ submitted hash i (before ++ .writeSync key event :: after) :=
    List.mem_of_mem_take hmem
  rw [submitted_writeSync] at hsent hmem
  -- the channel tells this command from those before it and behind it
  have hbefore : command ∉ submitted hash i before := fun h ↦ by
    have hchannel := channel_of_mem (List.mem_of_mem_filter h) hsender
    omega
  have hafter : command ∉ commandsFrom (calls before + 1) after := fun h ↦ by
    have hchannel := channel_of_mem h hsender
    omega
  have hthis := (List.mem_append.mp hsent).resolve_left hbefore
  rw [List.mem_filter, decide_eq_true_eq] at hthis
  obtain ⟨hthis, hshard⟩ := hthis
  obtain rfl := (List.mem_cons.mp hthis).resolve_right hafter
  obtain rfl : hashToShard hash key = i := hshard
  by_contra hle
  rw [List.take_append_of_le_length (Nat.not_lt.mp hle)] at hmem
  exact hbefore (List.mem_of_mem_take hmem)

/-- The commands without an answer. -/
def LockFreeShard.waiting (shard : LockFreeShard S E) : List (ShardCommand E) :=
  match shard.worker with
  | .receiving => shard.commands
  | .applied command _ | .swapped command => command :: shard.commands

/-- The number of steps to the last answer. -/
def LockFreeShard.stepsLeft (shard : LockFreeShard S E) : ℕ :=
  3 * shard.commands.length + match shard.worker with
    | .receiving => 0
    | .applied _ _ => 2
    | .swapped _ => 1

variable (hash apply) in
/-- Steps of the writer alone answer everyone who waits for the shard. -/
def Drains (i : Fin shardCount) (engine : LockFreeEngine S E shardCount) : Prop :=
  ∃ more next, (∀ a ∈ more, a = .receive i ∨ a = .swap i ∨ a = .respond i) ∧
    exec (LockFreeEngine.step hash apply) engine more = some next ∧
    (next.shards i).waiting = [] ∧ engine.answered ⊆ next.answered ∧
    ∀ command ∈ (engine.shards i).waiting, ∀ channel ∈ command.responseSender,
      channel ∈ next.answered

theorem Drains.of_step {i : Fin shardCount} {a : Action E shardCount}
    (hdrains : Drains hash apply i next) (ha : a = .receive i ∨ a = .swap i ∨ a = .respond i)
    (hstep : LockFreeEngine.step hash apply engine a = some next)
    (hanswered : engine.answered ⊆ next.answered)
    (hwaiting : ∀ command ∈ (engine.shards i).waiting, command ∈ (next.shards i).waiting ∨
      ∀ channel ∈ command.responseSender, channel ∈ next.answered) :
    Drains hash apply i engine := by
  obtain ⟨more, last, hmoves, hexec, hdone, hkept, hall⟩ := hdrains
  refine ⟨a :: more, last, List.forall_mem_cons.mpr ⟨ha, hmoves⟩,
    exec_cons_eq_some.mpr ⟨next, hstep, hexec⟩, hdone, fun _ h ↦ hkept (hanswered h), ?_⟩
  intro command hmem channel hchannel
  rcases hwaiting command hmem with hlater | hnow
  · exact hall command hlater channel hchannel
  · exact hkept (hnow channel hchannel)

/-- From every state the writer of a shard answers all its commands by steps of its own. -/
theorem drains (engine : LockFreeEngine S E shardCount) (i : Fin shardCount) :
    Drains hash apply i engine := by
  -- the induction is on the steps that are left, of which each step takes one
  induction hsteps : (engine.shards i).stepsLeft using Nat.strong_induction_on
    generalizing engine with
  | _ n ih =>
  have hself (shard) : (engine.setShard i shard).shards i = shard := Function.update_self ..
  obtain ⟨⟨state, counter, commands, worker⟩, hshard⟩ : ∃ shard, engine.shards i = shard := ⟨_, rfl⟩
  rw [hshard, LockFreeShard.stepsLeft] at hsteps
  cases worker with
  | receiving =>
    cases commands with
    | nil => exact ⟨[], engine, nofun, rfl, by rw [hshard]; rfl, fun _ h ↦ h, by rw [hshard]; nofun⟩
    | cons command rest =>
      refine .of_step (ih _ ?_ (engine.setShard i _) rfl) (.inl rfl)
        (by rw [LockFreeEngine.step, hshard]; rfl) (fun _ h ↦ h) ?_
      · simp only [hself, ← hsteps, LockFreeShard.stepsLeft, List.length_cons]
        omega
      · rw [hshard, hself]
        exact fun _ h ↦ .inl h
  | applied command new =>
    refine .of_step (ih _ ?_ (engine.setShard i _) rfl) (.inr (.inl rfl))
      (by rw [LockFreeEngine.step, hshard]; rfl) (fun _ h ↦ h) ?_
    · simp only [hself, ← hsteps, LockFreeShard.stepsLeft]
      omega
    · rw [hshard, hself]
      exact fun _ h ↦ .inl h
  | swapped command =>
    refine .of_step (ih _ ?_ { engine.setShard i _ with answered := _ } rfl) (.inr (.inr rfl))
      (by rw [LockFreeEngine.step, hshard]; rfl) (fun _ ↦ List.mem_append_right _) ?_
    · simp only [hself, ← hsteps, LockFreeShard.stepsLeft]
      omega
    · simp only [hshard, hself]
      rintro c (_ | ⟨_, hrest⟩)
      · exact .inr fun channel h ↦ List.mem_append_left _ (Option.mem_toList.mpr h)
      · exact .inl hrest

end Engine

/-- Two writes to one shard, of which the first does not wait, with both in the state. -/
def twoWrites (i : Fin 2) : List (Action ℕ 2) :=
  [.write "a" 1, .receive i, .writeSync "b" 2, .swap i, .respond i, .receive i, .swap i, .respond i]

/-- One caller waits. -/
theorem drains_oneWrite : Drains (fun _ ↦ 0) (· + ·) 0 ((LockFreeEngine.new 0 :
    LockFreeEngine ℕ ℕ 2).submit (fun _ ↦ 0) ⟨1, "a", some 0⟩) := drains _ 0

end Lithair.Engine.LockFree
