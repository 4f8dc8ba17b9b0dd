import Lithair.Lib.Rfc3339
import Lithair.Lib.Run
import Mathlib.Data.List.Sort
import Mathlib.Data.List.TakeWhile

/-!
# Rotation of log files

`RotatingWriter` of `logging/rotation.rs` with any number of threads that write. A write first
looks whether the file is to be rotated, and then closes it, renames it, removes old files, resets
the size and the time of the last rotation and opens the file again, each under a lock of its own
or under none; other writes move between these steps. The line is written last, if there is a writer
then.

The files are numbered in the order in which they were made, and a file is a list of chunks. A chunk
has the number of the line that it is, or is a piece that no line owns.

`always_keeps_iff`: a run keeps the lines and the files exactly when no write finds the writer
taken, no buffered line is lost by a flush that fails, no rotation meets a rotated file under the
name that it needs, and no file of others is removed.
-/

namespace Lithair.Logging

open Lib.Rfc3339 Lib.Run

/-! ### Names -/

inductive FileRotation
  | size (max : ℕ)
  | daily
  | hourly
  | weekly
  | none

/-- The name of the file, in the directory that the path leads to. The directory can be listed
unless the path is the name alone. -/
structure RotationConfig where
  file_name : List Char
  listable : Bool
  rotation : FileRotation
  max_files : Option ℕ

/-- The parts in front of the last point and behind it. -/
def splitAtDot (name : List Char) : List Char × Option (List Char) :=
  let behind := (name.reverse.takeWhile (· ≠ '.')).reverse
  let before := name.take (name.length - (behind.length + 1))
  if '.' ∈ name ∧ before ≠ [] then (before, some behind) else (name, none)

def RotationConfig.stem (config : RotationConfig) : List Char := (splitAtDot config.file_name).1

def RotationConfig.extension (config : RotationConfig) : List Char :=
  (splitAtDot config.file_name).2.getD "log".toList

/-- The day of the week, Monday first. -/
def weekday (t : Civil) : ℕ := (t.days + 5) % 7

/-- The year and the number of the week, which are those of its Thursday. -/
def isoWeek (t : Civil) : ℤ × ℕ :=
  let year : ℤ := t.year
  let thursday : ℤ := (daysBeforeMonth t.year t.month + (t.day - 1) : ℕ) - weekday t + 3
  let length : ℤ := daysBeforeMonth t.year 13
  if thursday < 0 then
    (year - 1, (thursday + if isLeap (t.year - 1) then 366 else 365).toNat / 7 + 1)
  else if length ≤ thursday then (year + 1, (thursday - length).toNat / 7 + 1)
  else (year, thursday.toNat / 7 + 1)

def dateDigits (t : Civil) : List Char :=
  decimals 4 t.year ++ decimals 2 t.month ++ decimals 2 t.day

/-- The time in the name of a rotated file; a file that is never rotated has no such name. -/
def FileRotation.timestamp (rotation : FileRotation) (now : Civil) : List Char :=
  match rotation with
  | .size _ =>
    dateDigits now ++
      '_' :: (decimals 2 now.hour ++ decimals 2 now.minute ++ decimals 2 now.second)
  | .daily => dateDigits now
  | .hourly => dateDigits now ++ '_' :: decimals 2 now.hour
  | .weekly => decimals 4 now.year ++ "_week".toList ++ decimals 2 (isoWeek now).2
  | .none => []

def RotationConfig.rotatedName (config : RotationConfig) (now : Civil) : List Char :=
  config.stem ++ '_' :: (config.rotation.timestamp now ++ '.' :: config.extension)

/-- What the clean-up takes for a rotated file. -/
def RotationConfig.looksRotated (config : RotationConfig) (name : List Char) : Bool :=
  (config.stem ++ ['_']).isPrefixOf name && ('.' :: config.extension).isSuffixOf name

/-! ### Files -/

structure Chunk where
  owner : Option ℕ
  bytes : List UInt8

structure LogFile where
  created : ℕ
  chunks : List Chunk

def LogFile.length (file : LogFile) : ℕ := (file.chunks.map fun c ↦ c.bytes.length).sum

/-- A writer of a file, with what it has not yet handed on. -/
structure FileWriter where
  file : ℕ
  buffer : List Chunk

/-- The directory with the writer; beside them the lines whose writes returned `Ok`, the files that
were rotated, those of them that another one took the name of, and those that were removed. -/
structure LogDirectory where
  files : ℕ → LogFile
  made : ℕ
  dir : List Char → Option ℕ
  writer : Option FileWriter
  returned : List ℕ
  rotated : List ℕ
  overwritten : List ℕ
  removed : List ℕ

namespace LogDirectory

variable (d : LogDirectory)

def append (f : ℕ) (chunks : List Chunk) : LogDirectory :=
  { d with
    files := Function.update d.files f
      { d.files f with chunks := (d.files f).chunks ++ chunks } }

/-- The writer hands on some of its chunks, and has the others afterwards. -/
def handOn (w : FileWriter) (n : ℕ) : LogDirectory :=
  { d.append w.file (w.buffer.take n) with writer := some { w with buffer := w.buffer.drop n } }

/-- The writer takes another chunk. -/
def put (w : FileWriter) (c : Chunk) (n : ℕ) : LogDirectory :=
  { d with writer := some { w with buffer := w.buffer ++ [c] } }.handOn
    { w with buffer := w.buffer ++ [c] } n

/-- The write of a line returns `Ok`. -/
def returnOk (line : ℕ) : LogDirectory := { d with returned := line :: d.returned }

/-- The writer is dropped with what it did not hand on. -/
def close (w : FileWriter) (n : ℕ) : LogDirectory :=
  { d.append w.file (w.buffer.take n) with writer := none }

def rename (current target : List Char) (f : ℕ) : LogDirectory :=
  { d with
    dir := Function.update (Function.update d.dir target (some f)) current none
    rotated := f :: d.rotated
    overwritten := ((d.dir target).filter (· ∈ d.rotated)).toList ++ d.overwritten }

def remove (name : List Char) : LogDirectory :=
  { d with
    dir := Function.update d.dir name none
    removed := (d.dir name).toList ++ d.removed }

/-- A writer at the end of the file, which is made if it is not there. -/
def openCurrent (current : List Char) (created : ℕ) : LogDirectory :=
  match d.dir current with
  | some f => { d with writer := some ⟨f, []⟩ }
  | none =>
    { d with
      files := Function.update d.files d.made ⟨created, []⟩
      made := d.made + 1
      dir := Function.update d.dir current (some d.made)
      writer := some ⟨d.made, []⟩ }

/-- What a file has, with what its writer has for it. -/
def contents (f : ℕ) : List Chunk :=
  (d.files f).chunks ++ (d.writer.elim [] fun w ↦ if w.file = f then w.buffer else [])

def owners (f : ℕ) : List ℕ := (d.contents f).filterMap Chunk.owner

end LogDirectory

/-! ### Writes -/

/-- What a write does next. -/
inductive Stage
  | closing
  | naming
  | moving (target : List Char)
  | listing
  | removing (names : List (List Char))
  | resettingSize
  | resettingTime
  | opening
  | writing

structure Call where
  line : ℕ
  data : List UInt8
  stage : Stage

structure RotatingWriter where
  disk : LogDirectory
  current_size : ℕ
  last_rotation : Civil
  calls : ℕ → Option Call
  issued : ℕ

/-- What the clock and the file system answer to a step, which looks at what it asks for: the time,
whether the operation succeeds, how many chunks are handed on and how many bytes are taken if not,
whether the length of a file can be read, and the files of the directory whose creation times can be
read, in some order. -/
structure Answer where
  now : Civil
  created : ℕ
  ok : Bool
  chunks : ℕ
  bytes : ℕ
  metadata : Bool
  listed : List (List Char)

inductive LogAction
  /-- a thread calls `write` -/
  | write (thread : ℕ) (data : List UInt8) (now : Civil)
  /-- the call of the thread takes its next step -/
  | move (thread : ℕ) (answer : Answer)
  | flush (answer : Answer)

/-- The number of chunks that leave the buffer in a flush. -/
def FileWriter.leaving (w : FileWriter) (answer : Answer) : ℕ :=
  if answer.ok then w.buffer.length else answer.chunks

namespace RotatingWriter

variable (config : RotationConfig) (s : RotatingWriter)

/-- `check_rotation`, up to the rotation. -/
def shouldRotate (incoming : ℕ) (now : Civil) : Bool :=
  match config.rotation with
  | .size max => s.current_size + incoming > max
  | .daily => s.last_rotation.days < now.days
  | .hourly =>
    dateDigits now ++ decimals 2 now.hour ≠
      dateDigits s.last_rotation ++ decimals 2 s.last_rotation.hour
  | .weekly => isoWeek now ≠ isoWeek s.last_rotation
  | .none => false

/-- The oldest of the files that look rotated, beyond the limit. -/
def filesToRemove (max_files : ℕ) (listed : List (List Char)) : List (List Char) :=
  let created (name : List Char) : ℕ := (s.disk.dir name).elim 0 fun f ↦ (s.disk.files f).created
  let found := (listed.filter config.looksRotated).mergeSort fun a b ↦ created a ≤ created b
  found.take (found.length - max_files)

def goto (thread : ℕ) (call : Call) (stage : Stage) : RotatingWriter :=
  { s with calls := Function.update s.calls thread (some { call with stage }) }

/-- The call of the thread is over. -/
def finish (thread : ℕ) : RotatingWriter :=
  { s with calls := Function.update s.calls thread none }

/-- The next step of a call: those of `rotate`, and then the end of `write`. -/
def move (thread : ℕ) (call : Call) (answer : Answer) : RotatingWriter :=
  match call.stage with
  | .closing =>
    match s.disk.writer with
    | none => s.goto thread call .naming
    | some w =>
      let closed := { s with disk := s.disk.close w (w.leaving answer) }
      if answer.ok then closed.goto thread call .naming else closed.finish thread
  | .naming =>
    if (s.disk.dir config.file_name).isSome then
      s.goto thread call (.moving (config.rotatedName answer.now))
    else s.goto thread call .listing
  | .moving target =>
    match s.disk.dir config.file_name with
    | none => s.finish thread
    | some f =>
      if answer.ok then
        { s with disk := s.disk.rename config.file_name target f }.goto thread call .listing
      else s.finish thread
  | .listing =>
    match config.max_files with
    | none => s.goto thread call .resettingSize
    | some max_files =>
      s.goto thread call (.removing
        (if config.listable then s.filesToRemove config max_files answer.listed else []))
  | .removing [] => s.goto thread call .resettingSize
  | .removing (name :: names) =>
    -- what cannot be removed stays, and nobody is told
    if answer.ok then { s with disk := s.disk.remove name }.goto thread call (.removing names)
    else s.goto thread call (.removing names)
  | .resettingSize => { s with current_size := 0 }.goto thread call .resettingTime
  | .resettingTime => { s with last_rotation := answer.now }.goto thread call .opening
  | .opening =>
    match s.disk.writer with
    | some _ => s.goto thread call .writing
    | none =>
      if answer.ok then
        let disk := s.disk.openCurrent config.file_name answer.created
        let length := disk.writer.elim 0 fun w ↦ (disk.files w.file).length
        { s with
          disk
          current_size := if answer.metadata then length else s.current_size }.goto thread call
            .writing
      else s.finish thread
  | .writing =>
    match s.disk.writer with
    | none => { s with disk := s.disk.returnOk call.line }.finish thread
    | some w =>
      if answer.ok then
        let line : Chunk := ⟨some call.line, call.data ++ [10]⟩
        { s with
          disk := (s.disk.returnOk call.line).put w line answer.chunks
          current_size := s.current_size + (call.data.length + 1) }.finish thread
      else
        { s with
          disk := s.disk.put w ⟨none, call.data.take answer.bytes⟩ answer.chunks }.finish thread

def step : LogAction → Option RotatingWriter
  | .write thread data now =>
    if (s.calls thread).isNone then
      let stage := if s.shouldRotate config data.length now then .closing else .writing
      some { s with
        calls := Function.update s.calls thread (some ⟨s.issued, data, stage⟩)
        issued := s.issued + 1 }
    else none
  | .move thread answer =>
    -- the files that are listed are in the directory
    if answer.listed.Nodup ∧ ∀ name ∈ answer.listed, (s.disk.dir name).isSome then
      (s.calls thread).map fun call ↦ s.move config thread call answer
    else none
  | .flush answer =>
    match s.disk.writer with
    | none => some s
    | some w => some { s with disk := s.disk.handOn w (w.leaving answer) }

end RotatingWriter

/-- The directory that a writer is made for, with the files that it rotated before. -/
structure GivenDirectory where
  files : ℕ → LogFile
  made : ℕ
  dir : List Char → Option ℕ
  rotated : List ℕ
  dir_inj : ∀ n m f, dir n = some f → dir m = some f → n = m
  dir_lt : ∀ n f, dir n = some f → f < made
  unmade : ∀ f, made ≤ f → (files f).chunks = []
  foreign : ∀ f, ∀ c ∈ (files f).chunks, c.owner = none

def GivenDirectory.unopened (given : GivenDirectory) : LogDirectory where
  files := given.files
  made := given.made
  dir := given.dir
  writer := none
  returned := []
  rotated := given.rotated
  overwritten := []
  removed := []

/-- A writer that was made. -/
def RotatingWriter.new (config : RotationConfig) (given : GivenDirectory) (created : ℕ)
    (now : Civil) : RotatingWriter :=
  let disk := given.unopened.openCurrent config.file_name created
  { disk
    current_size := disk.writer.elim 0 fun w ↦ (disk.files w.file).length
    last_rotation := now
    calls := fun _ ↦ none
    issued := 0 }

namespace LogDirectory

/-- Each line whose write returned `Ok` is in one file, which is the current one, a rotated one or
one that was removed; no rotated file lost its name to another one, and what was removed was
rotated. -/
structure Keeps (current : List Char) (d : LogDirectory) : Prop where
  lines : ∀ line ∈ d.returned, ∃ f, line ∈ d.owners f ∧ (∀ g, line ∈ d.owners g → g = f) ∧
    (d.dir current = some f ∨ (f ∈ d.rotated ∧ ∃ name, d.dir name = some f) ∨ f ∈ d.removed)
  names : d.overwritten = []
  cleanup : ∀ f ∈ d.removed, f ∈ d.rotated

/-- The places of a file that was written to, in any run. -/
def Placed (current : List Char) (d : LogDirectory) (f : ℕ) : Prop :=
  d.dir current = some f ∨
    f ∈ d.rotated ∧ ((∃ name, d.dir name = some f) ∨ f ∈ d.removed ∨ f ∈ d.overwritten)

/-- What holds in any run. -/
structure Tidy (current : List Char) (d : LogDirectory) : Prop where
  dir_inj : ∀ n m f, d.dir n = some f → d.dir m = some f → n = m
  dir_lt : ∀ n f, d.dir n = some f → f < d.made
  unmade : ∀ f, d.made ≤ f → (d.files f).chunks = []
  writer_placed : ∀ w ∈ d.writer, w.file < d.made ∧ d.Placed current w.file
  placed : ∀ f line, line ∈ d.owners f → d.Placed current f
  nodup : ∀ f, (d.owners f).Nodup
  unique : ∀ f g line, line ∈ d.owners f → line ∈ d.owners g → g = f
  returned : ∀ f line, line ∈ d.owners f → line ∈ d.returned

/-! ### What the operations do to the contents -/

variable {d : LogDirectory} {w : FileWriter} {current : List Char}

theorem chunks_append (f g : ℕ) (chunks : List Chunk) :
    ((d.append f chunks).files g).chunks = (d.files g).chunks ++ if f = g then chunks else [] := by
  unfold append
  by_cases hfg : f = g
  · subst hfg
    simp
  · simp [hfg, Function.update_of_ne (Ne.symm hfg)]

/-- What a writer has not handed on is in its file all the same. -/
theorem contents_eq (hw : d.writer = some w) (f : ℕ) :
    d.contents f = (d.files f).chunks ++ if w.file = f then w.buffer else [] := by
  rw [contents, hw, Option.elim_some]

theorem contents_close (hw : d.writer = some w) (n f : ℕ) :
    d.contents f = (d.close w n).contents f ++ if w.file = f then w.buffer.drop n else [] := by
  have hclosed : (d.close w n).contents f = ((d.append w.file (w.buffer.take n)).files f).chunks :=
    List.append_nil _
  rw [contents_eq hw, hclosed, chunks_append, List.append_assoc]
  split_ifs <;> simp

theorem contents_handOn (hw : d.writer = some w) (n f : ℕ) :
    (d.handOn w n).contents f = d.contents f := by
  rw [contents_close hw n f]
  exact congrArg (· ++ _) (List.append_nil _).symm

theorem contents_put (hw : d.writer = some w) (c : Chunk) (n f : ℕ) :
    (d.put w c n).contents f = d.contents f ++ if w.file = f then [c] else [] := by
  rw [put, contents_handOn rfl, contents_eq rfl, contents_eq hw, List.append_assoc]
  by_cases hf : w.file = f <;> simp [hf]

theorem owners_close (hw : d.writer = some w) (n f : ℕ) :
    d.owners f = (d.close w n).owners f ++
      if w.file = f then (w.buffer.drop n).filterMap Chunk.owner else [] := by
  rw [owners, contents_close hw n f, List.filterMap_append, owners]
  split_ifs <;> rfl

theorem owners_put (hw : d.writer = some w) (c : Chunk) (n f : ℕ) :
    (d.put w c n).owners f = d.owners f ++ if w.file = f then c.owner.toList else [] := by
  rw [owners, contents_put hw, List.filterMap_append, owners]
  split_ifs
  · cases h : c.owner <;> simp [h]
  · rfl

theorem owners_openCurrent (h : d.Tidy current) (hw : d.writer = none) (created f : ℕ) :
    (d.openCurrent current created).owners f = d.owners f := by
  unfold openCurrent
  split
  · simp [owners, contents, hw]
  · by_cases hf : f = d.made
    · subst hf
      simp [owners, contents, hw, h.unmade d.made le_rfl]
    · simp [owners, contents, hw, Function.update_of_ne hf]

/-! ### What they keep -/

theorem unmade_append (h : ∀ f, d.made ≤ f → (d.files f).chunks = []) {file : ℕ}
    (hfile : file < d.made) (chunks : List Chunk) :
    ∀ f, d.made ≤ f → ((d.append file chunks).files f).chunks = [] := by
  intro f hf
  rw [chunks_append, h f hf, if_neg (Nat.ne_of_lt (Nat.lt_of_lt_of_le hfile hf)), List.append_nil]

theorem Tidy.close (h : d.Tidy current) (hw : d.writer = some w) (n : ℕ) :
    (d.close w n).Tidy current := by
  have hsub (f : ℕ) : ((d.close w n).owners f).Sublist (d.owners f) := by
    rw [owners_close hw n f]
    exact List.sublist_append_left _ _
  exact
    { dir_inj := h.dir_inj
      dir_lt := h.dir_lt
      unmade := unmade_append h.unmade (h.writer_placed w hw).1 _
      writer_placed := nofun
      placed := fun f line hline ↦ h.placed f line ((hsub f).subset hline)
      nodup := fun f ↦ (h.nodup f).sublist (hsub f)
      unique := fun f g line hf hg ↦ h.unique f g line ((hsub f).subset hf) ((hsub g).subset hg)
      returned := fun f line hline ↦ h.returned f line ((hsub f).subset hline) }

theorem owners_handOn (hw : d.writer = some w) (n f : ℕ) :
    (d.handOn w n).owners f = d.owners f := congrArg _ (contents_handOn hw n f)

theorem Tidy.handOn (h : d.Tidy current) (hw : d.writer = some w) (n : ℕ) :
    (d.handOn w n).Tidy current where
  dir_inj := h.dir_inj
  dir_lt := h.dir_lt
  unmade := unmade_append h.unmade (h.writer_placed w hw).1 _
  writer_placed := fun _ hwriter ↦ Option.some.inj hwriter ▸ h.writer_placed w hw
  placed := fun f line hline ↦ h.placed f line (owners_handOn hw n f ▸ hline)
  nodup := fun f ↦ (owners_handOn hw n f).symm ▸ h.nodup f
  unique := fun f g line hf hg ↦
    h.unique f g line (owners_handOn hw n f ▸ hf) (owners_handOn hw n g ▸ hg)
  returned := fun f line hline ↦ h.returned f line (owners_handOn hw n f ▸ hline)

theorem Tidy.returnOk (h : d.Tidy current) (line : ℕ) : (d.returnOk line).Tidy current :=
  { h with returned := fun f found hfound ↦ List.mem_cons_of_mem _ (h.returned f found hfound) }

theorem mem_owners_put (hw : d.writer = some w) {c : Chunk} {n f line : ℕ} :
    line ∈ (d.put w c n).owners f ↔ line ∈ d.owners f ∨ w.file = f ∧ c.owner = some line := by
  rw [owners_put hw, List.mem_append]
  by_cases hf : w.file = f <;> simp [hf]

/-- A chunk of a line that no file has yet, or of no line. -/
theorem Tidy.put (h : d.Tidy current) (hw : d.writer = some w) {c : Chunk} (n : ℕ)
    (hc : ∀ line ∈ c.owner, line ∈ d.returned ∧ ∀ f, line ∉ d.owners f) :
    (d.put w c n).Tidy current where
  dir_inj := h.dir_inj
  dir_lt := h.dir_lt
  unmade := unmade_append h.unmade (h.writer_placed w hw).1 _
  writer_placed := fun _ hwriter ↦ Option.some.inj hwriter ▸ h.writer_placed w hw
  placed := by
    intro f line hline
    rcases (mem_owners_put hw).mp hline with hold | ⟨rfl, -⟩
    · exact h.placed f line hold
    · exact (h.writer_placed w hw).2
  nodup := by
    intro f
    rw [owners_put hw]
    split_ifs with hf
    · refine (h.nodup f).append (by cases c.owner <;> simp) ?_
      exact fun line hline hmem ↦ (hc line (Option.mem_toList.mp hmem)).2 f hline
    · rw [List.append_nil]
      exact h.nodup f
  unique := by
    intro f g line hf hg
    rcases (mem_owners_put hw).mp hf with hold | ⟨rfl, hline⟩ <;>
      rcases (mem_owners_put hw).mp hg with hold' | ⟨rfl, hline'⟩
    · exact h.unique f g line hold hold'
    · exact absurd hold ((hc line hline').2 f)
    · exact absurd hold' ((hc line hline).2 g)
    · rfl
  returned := by
    intro f line hline
    rcases (mem_owners_put hw).mp hline with hold | ⟨-, hnew⟩
    · exact h.returned f line hold
    · exact (hc line hnew).1

theorem dir_remove_eq_some {name n : List Char} {f : ℕ} :
    (d.remove name).dir n = some f ↔ n ≠ name ∧ d.dir n = some f := by
  rw [remove, update_eq_some_iff]
  simp

theorem Placed.remove {f : ℕ} (h : d.Placed current f) {name : List Char} (hname : name ≠ current) :
    (d.remove name).Placed current f := by
  rcases h with hcurrent | ⟨hrotated, ⟨n, hn⟩ | hremoved | hoverwritten⟩
  · exact .inl (dir_remove_eq_some.mpr ⟨Ne.symm hname, hcurrent⟩)
  · by_cases hsame : n = name
    · subst hsame
      exact .inr ⟨hrotated, .inr (.inl (List.mem_append_left _ (Option.mem_toList.mpr hn)))⟩
    · exact .inr ⟨hrotated, .inl ⟨n, dir_remove_eq_some.mpr ⟨hsame, hn⟩⟩⟩
  · exact .inr ⟨hrotated, .inr (.inl (List.mem_append_right _ hremoved))⟩
  · exact .inr ⟨hrotated, .inr (.inr hoverwritten)⟩

theorem Tidy.remove (h : d.Tidy current) {name : List Char} (hname : name ≠ current) :
    (d.remove name).Tidy current where
  dir_inj := fun n m f hn hm ↦
    h.dir_inj n m f (dir_remove_eq_some.mp hn).2 (dir_remove_eq_some.mp hm).2
  dir_lt := fun n f hn ↦ h.dir_lt n f (dir_remove_eq_some.mp hn).2
  unmade := h.unmade
  writer_placed := fun w hw ↦ ⟨(h.writer_placed w hw).1, (h.writer_placed w hw).2.remove hname⟩
  placed := fun f line hline ↦ (h.placed f line hline).remove hname
  nodup := h.nodup
  unique := h.unique
  returned := h.returned

theorem dir_rename_eq_some {target name : List Char} {f g : ℕ} :
    (d.rename current target f).dir name = some g ↔
      name ≠ current ∧ (name = target ∧ f = g ∨ name ≠ target ∧ d.dir name = some g) := by
  rw [rename, update_eq_some_iff, update_eq_some_iff]
  simp

theorem Placed.rename {f g : ℕ} (h : d.Placed current g) {target : List Char}
    (htarget : target ≠ current) (hf : d.dir current = some f) :
    (d.rename current target f).Placed current g := by
  have hmoved : (d.rename current target f).Placed current f :=
    .inr ⟨List.mem_cons_self, .inl ⟨target, dir_rename_eq_some.mpr ⟨htarget, .inl ⟨rfl, rfl⟩⟩⟩⟩
  rcases h with hcurrent | ⟨hrotated, hplace⟩
  · obtain rfl := Option.some.inj (hf.symm.trans hcurrent)
    exact hmoved
  have hrotated' : g ∈ f :: d.rotated := List.mem_cons_of_mem _ hrotated
  rcases hplace with ⟨n, hn⟩ | hremoved | hoverwritten
  · by_cases hnc : n = current
    · subst hnc
      obtain rfl := Option.some.inj (hf.symm.trans hn)
      exact hmoved
    · by_cases hnt : n = target
      · subst hnt
        refine .inr ⟨hrotated', .inr (.inr (List.mem_append_left _ ?_))⟩
        rw [hn, Option.mem_toList, Option.filter_eq_some_iff]
        exact ⟨rfl, decide_eq_true hrotated⟩
      · exact .inr ⟨hrotated', .inl ⟨n, dir_rename_eq_some.mpr ⟨hnc, .inr ⟨hnt, hn⟩⟩⟩⟩
  · exact .inr ⟨hrotated', .inr (.inl hremoved)⟩
  · exact .inr ⟨hrotated', .inr (.inr (List.mem_append_right _ hoverwritten))⟩

theorem Tidy.rename (h : d.Tidy current) {target : List Char} {f : ℕ} (htarget : target ≠ current)
    (hf : d.dir current = some f) : (d.rename current target f).Tidy current where
  dir_inj := by
    intro n m g hn hm
    obtain ⟨hnc, ⟨rfl, rfl⟩ | ⟨-, hnold⟩⟩ := dir_rename_eq_some.mp hn
    · obtain ⟨hmc, ⟨rfl, -⟩ | ⟨-, hmold⟩⟩ := dir_rename_eq_some.mp hm
      · rfl
      · exact absurd (h.dir_inj _ _ _ hmold hf) hmc
    · obtain ⟨hmc, ⟨rfl, rfl⟩ | ⟨-, hmold⟩⟩ := dir_rename_eq_some.mp hm
      · exact absurd (h.dir_inj _ _ _ hnold hf) hnc
      · exact h.dir_inj n m g hnold hmold
  dir_lt := by
    intro n g hn
    obtain ⟨-, ⟨-, rfl⟩ | ⟨-, hold⟩⟩ := dir_rename_eq_some.mp hn
    · exact h.dir_lt current f hf
    · exact h.dir_lt n g hold
  unmade := h.unmade
  writer_placed := fun w hw ↦
    ⟨(h.writer_placed w hw).1, (h.writer_placed w hw).2.rename htarget hf⟩
  placed := fun g line hline ↦ (h.placed g line hline).rename htarget hf
  nodup := h.nodup
  unique := h.unique
  returned := h.returned

/-- Where the entries of the directory and the writer are after the file was opened. -/
theorem openCurrent_cases (d : LogDirectory) (current : List Char) (created : ℕ) :
    (∃ f, d.dir current = some f ∧
        d.openCurrent current created = { d with writer := some ⟨f, []⟩ }) ∨
      d.dir current = none ∧ d.openCurrent current created =
        { d with
          files := Function.update d.files d.made ⟨created, []⟩
          made := d.made + 1
          dir := Function.update d.dir current (some d.made)
          writer := some ⟨d.made, []⟩ } := by
  unfold openCurrent
  cases hdir : d.dir current with
  | some f => exact .inl ⟨f, rfl, rfl⟩
  | none => exact .inr ⟨rfl, rfl⟩

theorem Tidy.openCurrent (h : d.Tidy current) (hw : d.writer = none) (created : ℕ) :
    (d.openCurrent current created).Tidy current := by
  have howners (f : ℕ) := owners_openCurrent h hw created f
  have hnodup (f : ℕ) : ((d.openCurrent current created).owners f).Nodup :=
    (howners f).symm ▸ h.nodup f
  have hunique (f g line : ℕ) (hf : line ∈ (d.openCurrent current created).owners f)
      (hg : line ∈ (d.openCurrent current created).owners g) : g = f :=
    h.unique f g line (howners f ▸ hf) (howners g ▸ hg)
  rcases d.openCurrent_cases current created with ⟨f, hf, hopen⟩ | ⟨hnone, hopen⟩ <;>
    rw [hopen] at hnodup hunique howners ⊢
  · exact
      { dir_inj := h.dir_inj
        dir_lt := h.dir_lt
        unmade := h.unmade
        writer_placed := fun w hwriter ↦ Option.some.inj hwriter ▸ ⟨h.dir_lt current f hf, .inl hf⟩
        placed := fun g line hline ↦ h.placed g line (howners g ▸ hline)
        nodup := hnodup
        unique := hunique
        returned := fun g line hline ↦ h.returned g line (howners g ▸ hline) }
  · have hdir {n : List Char} {g : ℕ}
        (hn : Function.update d.dir current (some d.made) n = some g) :
        n = current ∧ d.made = g ∨ n ≠ current ∧ d.dir n = some g := by
      rcases update_eq_some_iff.mp hn with ⟨hn, hg⟩ | hn
      · exact .inl ⟨hn, Option.some.inj hg⟩
      · exact .inr hn
    refine
      { dir_inj := ?_
        dir_lt := ?_
        unmade := ?_
        writer_placed := ?_
        placed := ?_
        nodup := hnodup
        unique := hunique
        returned := fun g line hline ↦ h.returned g line (howners g ▸ hline) }
    · intro n m g hn hm
      rcases hdir hn with ⟨rfl, rfl⟩ | ⟨-, hnold⟩ <;> rcases hdir hm with ⟨rfl, hg⟩ | ⟨-, hmold⟩
      · rfl
      · exact absurd (h.dir_lt m _ hmold) (Nat.lt_irrefl _)
      · exact absurd (hg ▸ h.dir_lt n g hnold) (Nat.lt_irrefl _)
      · exact h.dir_inj n m g hnold hmold
    · intro n g hn
      rcases hdir hn with ⟨-, rfl⟩ | ⟨-, hold⟩
      · exact Nat.lt_succ_self _
      · exact Nat.lt_succ_of_lt (h.dir_lt n g hold)
    · intro g hg
      have hold := Function.update_of_ne (Nat.ne_of_gt hg) (⟨created, []⟩ : LogFile) d.files
      exact (congrArg LogFile.chunks hold).trans (h.unmade g (Nat.le_of_lt hg))
    · rintro w hwriter
      obtain rfl := Option.some.inj hwriter
      exact ⟨Nat.lt_succ_self _, .inl (Function.update_self ..)⟩
    · intro g line hline
      rcases h.placed g line (howners g ▸ hline) with hcurrent | ⟨hrotated, ⟨n, hn⟩ | hgone⟩
      · exact absurd (hnone.symm.trans hcurrent) nofun
      · have hnc : n ≠ current := by
          rintro rfl
          exact absurd (hnone.symm.trans hn) nofun
        exact .inr ⟨hrotated, .inl ⟨n, update_eq_some_iff.mpr (.inr ⟨hnc, hn⟩)⟩⟩
      · exact .inr ⟨hrotated, .inr hgone⟩

/-! ### When the lines are kept -/

/-- No line is lost as long as it is in a file. -/
theorem Tidy.keeps_iff (h : d.Tidy current) :
    d.Keeps current ↔ (∀ line ∈ d.returned, ∃ f, line ∈ d.owners f) ∧
      d.overwritten = [] ∧ ∀ f ∈ d.removed, f ∈ d.rotated := by
  constructor
  · intro hkeeps
    refine ⟨fun line hline ↦ ?_, hkeeps.names, hkeeps.cleanup⟩
    obtain ⟨f, hf, -⟩ := hkeeps.lines line hline
    exact ⟨f, hf⟩
  · rintro ⟨hlines, hnames, hcleanup⟩
    refine ⟨fun line hline ↦ ?_, hnames, hcleanup⟩
    obtain ⟨f, hf⟩ := hlines line hline
    refine ⟨f, hf, fun g hg ↦ h.unique f g line hf hg, ?_⟩
    rcases h.placed f line hf with hcurrent | ⟨hrotated, hname | hremoved | hoverwritten⟩
    · exact .inl hcurrent
    · exact .inr (.inl ⟨hrotated, hname⟩)
    · exact .inr (.inr hremoved)
    · exact absurd (hnames ▸ hoverwritten) List.not_mem_nil

theorem Keeps.exists_owner (h : d.Keeps current) {line : ℕ} (hline : line ∈ d.returned) :
    ∃ f, line ∈ d.owners f :=
  (h.lines line hline).imp fun _ hf ↦ hf.1

/-- A writer that is dropped loses the lines that it has not handed on. -/
theorem Tidy.keeps_close_iff (h : d.Tidy current) (hw : d.writer = some w) (n : ℕ)
    (hkeeps : d.Keeps current) :
    (d.close w n).Keeps current ↔ ∀ c ∈ w.buffer.drop n, c.owner = none := by
  rw [(h.close hw n).keeps_iff]
  constructor
  · rintro ⟨hlines, -⟩ c hc
    by_contra howner
    obtain ⟨line, hline⟩ := Option.ne_none_iff_exists'.mp howner
    have hdropped : line ∈ (w.buffer.drop n).filterMap Chunk.owner :=
      List.mem_filterMap.mpr ⟨c, hc, hline⟩
    have hown := owners_close hw n w.file
    rw [if_pos rfl] at hown
    have hmem : line ∈ d.owners w.file := hown ▸ List.mem_append_right _ hdropped
    obtain ⟨f, hf⟩ := hlines line (h.returned _ _ hmem)
    have hold : line ∈ d.owners f := owners_close hw n f ▸ List.mem_append_left _ hf
    obtain rfl := h.unique _ _ _ hmem hold
    have hnodup := h.nodup w.file
    rw [hown, List.nodup_append] at hnodup
    exact hnodup.2.2 line hf line hdropped rfl
  · intro hnone
    have hsame (f : ℕ) : (d.close w n).owners f = d.owners f := by
      rw [owners_close hw n f, List.filterMap_eq_nil_iff.mpr hnone, ite_self, List.append_nil]
    refine ⟨fun line hline ↦ ?_, hkeeps.names, hkeeps.cleanup⟩
    obtain ⟨f, hf⟩ := hkeeps.exists_owner hline
    exact ⟨f, hsame f ▸ hf⟩

theorem Tidy.keeps_handOn (h : d.Tidy current) (hw : d.writer = some w) (n : ℕ)
    (hkeeps : d.Keeps current) : (d.handOn w n).Keeps current := by
  refine (h.handOn hw n).keeps_iff.mpr ⟨fun line hline ↦ ?_, hkeeps.names, hkeeps.cleanup⟩
  obtain ⟨f, hf⟩ := hkeeps.exists_owner hline
  exact ⟨f, (owners_handOn hw n f).symm ▸ hf⟩

/-- Without a writer the line is nowhere. -/
theorem not_keeps_returnOk {line : ℕ} (hline : ∀ f, line ∉ d.owners f) :
    ¬ (d.returnOk line).Keeps current := by
  intro hkeeps
  obtain ⟨f, hf⟩ := hkeeps.exists_owner List.mem_cons_self
  exact hline f hf

/-- The writer takes a piece of no line. -/
theorem Tidy.keeps_put (h : d.Tidy current) (hw : d.writer = some w) {c : Chunk} (n : ℕ)
    (hkeeps : d.Keeps current) (hc : c.owner = none) : (d.put w c n).Keeps current := by
  have htidy : (d.put w c n).Tidy current := h.put hw n (by simp [hc])
  refine htidy.keeps_iff.mpr ⟨fun line hline ↦ ?_, hkeeps.names, hkeeps.cleanup⟩
  obtain ⟨f, hf⟩ := hkeeps.exists_owner hline
  exact ⟨f, (mem_owners_put hw).mpr (.inl hf)⟩

/-- The writer takes a line. -/
theorem Tidy.keeps_putLine (h : d.Tidy current) (hw : d.writer = some w) {line : ℕ}
    (hline : ∀ f, line ∉ d.owners f) (bytes : List UInt8) (n : ℕ) (hkeeps : d.Keeps current) :
    ((d.returnOk line).put w ⟨some line, bytes⟩ n).Tidy current ∧
      ((d.returnOk line).put w ⟨some line, bytes⟩ n).Keeps current := by
  have htidy : ((d.returnOk line).put w ⟨some line, bytes⟩ n).Tidy current := by
    refine (h.returnOk line).put hw n fun found hfound ↦ ?_
    obtain rfl := Option.some.inj hfound
    exact ⟨List.mem_cons_self, hline⟩
  refine ⟨htidy, htidy.keeps_iff.mpr ⟨fun found hfound ↦ ?_, hkeeps.names, hkeeps.cleanup⟩⟩
  rcases List.mem_cons.mp hfound with rfl | hold
  · exact ⟨w.file, (mem_owners_put (d := d.returnOk found) hw).mpr (.inr ⟨rfl, rfl⟩)⟩
  · obtain ⟨f, hf⟩ := hkeeps.exists_owner hold
    exact ⟨f, (mem_owners_put (d := d.returnOk line) hw).mpr (.inl hf)⟩

theorem Tidy.keeps_remove_iff (h : d.Tidy current) {name : List Char} (hname : name ≠ current)
    (hkeeps : d.Keeps current) :
    (d.remove name).Keeps current ↔ ∀ f, d.dir name = some f → f ∈ d.rotated := by
  rw [(h.remove hname).keeps_iff]
  constructor
  · rintro ⟨-, -, hcleanup⟩ f hf
    exact hcleanup f (List.mem_append_left _ (Option.mem_toList.mpr hf))
  · intro hrotated
    refine ⟨fun line hline ↦ hkeeps.exists_owner hline, hkeeps.names, fun f hf ↦ ?_⟩
    rcases List.mem_append.mp hf with hnew | hold
    · exact hrotated f (Option.mem_toList.mp hnew)
    · exact hkeeps.cleanup f hold

theorem Tidy.keeps_rename_iff (h : d.Tidy current) {target : List Char} {f : ℕ}
    (htarget : target ≠ current) (hf : d.dir current = some f) (hkeeps : d.Keeps current) :
    (d.rename current target f).Keeps current ↔ ∀ g, d.dir target = some g → g ∉ d.rotated := by
  rw [(h.rename htarget hf).keeps_iff]
  have hover : (d.rename current target f).overwritten = [] ↔
      ∀ g, d.dir target = some g → g ∉ d.rotated := by
    rw [LogDirectory.rename, List.append_eq_nil_iff, and_iff_left hkeeps.names]
    cases hg : d.dir target with
    | none => simp
    | some g => by_cases hmem : g ∈ d.rotated <;> simp [hmem]
  rw [hover]
  constructor
  · exact fun h ↦ h.2.1
  · exact fun hnames ↦ ⟨fun line hline ↦ hkeeps.exists_owner hline, hnames,
      fun g hg ↦ List.mem_cons_of_mem _ (hkeeps.cleanup g hg)⟩

theorem Tidy.keeps_openCurrent (h : d.Tidy current) (hw : d.writer = none) (created : ℕ)
    (hkeeps : d.Keeps current) : (d.openCurrent current created).Keeps current := by
  have hghosts : (d.openCurrent current created).returned = d.returned ∧
      (d.openCurrent current created).overwritten = d.overwritten ∧
      (d.openCurrent current created).removed = d.removed ∧
      (d.openCurrent current created).rotated = d.rotated := by
    rcases d.openCurrent_cases current created with ⟨f, -, hopen⟩ | ⟨-, hopen⟩ <;> simp [hopen]
  obtain ⟨hreturned, hover, hremoved, hrotated⟩ := hghosts
  rw [(h.openCurrent hw created).keeps_iff, hreturned, hover, hremoved, hrotated]
  refine ⟨fun line hline ↦ ?_, hkeeps.names, hkeeps.cleanup⟩
  obtain ⟨f, hf⟩ := hkeeps.exists_owner hline
  exact ⟨f, (owners_openCurrent h hw created f).symm ▸ hf⟩

end LogDirectory

/-! ### Names of rotated files -/

theorem stem_cases (config : RotationConfig) :
    config.stem = config.file_name ∨
      ∃ rest, config.file_name = config.stem ++ '.' :: rest := by
  unfold RotationConfig.stem splitAtDot
  generalize config.file_name = name
  dsimp only
  split_ifs with hname
  · right
    have hsplit := List.takeWhile_append_dropWhile (p := (· ≠ '.')) (l := name.reverse)
    cases hdrop : name.reverse.dropWhile (· ≠ '.') with
    | nil =>
      have hnone := List.dropWhile_eq_nil_iff.mp hdrop '.' (List.mem_reverse.mpr hname.1)
      exact absurd hnone (by decide)
    | cons c more =>
      have hpoint : c = '.' := by
        have hhead := List.head?_dropWhile_not (· ≠ '.') name.reverse
        rw [hdrop] at hhead
        simpa using hhead
      subst hpoint
      rw [hdrop] at hsplit
      generalize name.reverse.takeWhile (· ≠ '.') = behind at hsplit
      have hparts : name = more.reverse ++ '.' :: behind.reverse := by
        rw [← List.reverse_reverse name, ← hsplit]
        simp
      refine ⟨behind.reverse, ?_⟩
      rw [hparts]
      simp
  · exact .inl rfl

/-- No name that begins like a rotated one is that of the file. -/
theorem ne_file_name {config : RotationConfig} {name : List Char}
    (h : config.stem ++ ['_'] <+: name) : name ≠ config.file_name := by
  rintro rfl
  rcases stem_cases config with hstem | ⟨rest, hname⟩
  · have hlength := h.length_le
    rw [hstem, List.length_append, List.length_singleton] at hlength
    omega
  · rw [hname, List.prefix_append_right_inj, List.cons_prefix_cons] at h
    exact absurd h.1 (by decide)

theorem rotatedName_ne (config : RotationConfig) (now : Civil) :
    config.rotatedName now ≠ config.file_name := by
  refine ne_file_name ((List.prefix_append_right_inj _).mpr ?_)
  exact List.cons_prefix_cons.mpr ⟨rfl, List.nil_prefix⟩

theorem ne_of_looksRotated {config : RotationConfig} {name : List Char}
    (h : config.looksRotated name = true) : name ≠ config.file_name :=
  ne_file_name (List.isPrefixOf_iff_prefix.mp (Bool.and_eq_true_iff.mp h).1)

/-! ### Steps -/

/-- The names that a stage has to deal with are not that of the file. -/
def Stage.Fits (config : RotationConfig) : Stage → Prop
  | .moving target => target ≠ config.file_name
  | .removing names => ∀ name ∈ names, name ≠ config.file_name
  | _ => True

/-- What goes well in a step of a call: nothing is in the buffer that the writer cannot hand on when
it is closed, the name for the file is not that of a rotated one, what is removed was rotated, and
there is a writer for the line. -/
def StepSafe (config : RotationConfig) (d : LogDirectory) (call : Call) (answer : Answer) : Prop :=
  match call.stage with
  | .closing => ∀ w ∈ d.writer, ∀ c ∈ w.buffer.drop (w.leaving answer), c.owner = none
  | .moving target => answer.ok = true → (d.dir config.file_name).isSome = true →
      ∀ f, d.dir target = some f → f ∉ d.rotated
  | .removing (name :: _) => answer.ok = true → ∀ f, d.dir name = some f → f ∈ d.rotated
  | .writing => d.writer.isSome = true
  | _ => True

/-- What a step of a call does to the directory, and the stage it leads to if the call goes on. -/
inductive Effect (config : RotationConfig) (d : LogDirectory) (call : Call) (answer : Answer) :
    LogDirectory → Option Stage → Prop
  | quiet {next : Option Stage} (hnext : ∀ stage ∈ next, stage.Fits config)
      (hsafe : StepSafe config d call answer) : Effect config d call answer d next
  | close {w : FileWriter} {next : Option Stage} (hstage : call.stage = .closing)
      (hw : d.writer = some w) (hnext : ∀ stage ∈ next, stage.Fits config) :
      Effect config d call answer (d.close w (w.leaving answer)) next
  | rename {target : List Char} {f : ℕ} (hstage : call.stage = .moving target)
      (hok : answer.ok = true) (hf : d.dir config.file_name = some f) :
      Effect config d call answer (d.rename config.file_name target f) (some .listing)
  | remove {name : List Char} {names : List (List Char)}
      (hstage : call.stage = .removing (name :: names)) (hok : answer.ok = true) :
      Effect config d call answer (d.remove name) (some (.removing names))
  | openCurrent (hstage : call.stage = .opening) (hw : d.writer = none) :
      Effect config d call answer (d.openCurrent config.file_name answer.created) (some .writing)
  | nowhere (hstage : call.stage = .writing) (hw : d.writer = none) :
      Effect config d call answer (d.returnOk call.line) none
  | putLine {w : FileWriter} (hstage : call.stage = .writing) (hw : d.writer = some w) :
      Effect config d call answer
        ((d.returnOk call.line).put w ⟨some call.line, call.data ++ [10]⟩ answer.chunks) none
  | putPart {w : FileWriter} (hstage : call.stage = .writing) (hw : d.writer = some w) :
      Effect config d call answer (d.put w ⟨none, call.data.take answer.bytes⟩ answer.chunks) none

namespace RotatingWriter

variable {config : RotationConfig} {s : RotatingWriter} {thread : ℕ} {call : Call} {answer : Answer}

theorem fits_filesToRemove (max_files : ℕ) (listed : List (List Char)) :
    (Stage.removing (s.filesToRemove config max_files listed)).Fits config := by
  intro name hname
  have hfound := List.mem_mergeSort.mp (List.mem_of_mem_take hname)
  exact ne_of_looksRotated (List.mem_filter.mp hfound).2

/-- The stage of a call after a step of it. -/
theorem move_effect (hfits : call.stage.Fits config) :
    ∃ disk next, Effect config s.disk call answer disk next ∧
      (s.move config thread call answer).disk = disk ∧
      (s.move config thread call answer).calls =
        Function.update s.calls thread (next.map fun stage ↦ { call with stage }) ∧
      (s.move config thread call answer).issued = s.issued := by
  obtain ⟨line, data, stage⟩ := call
  have hquiet {next : Option Stage} (hnext : ∀ stage ∈ next, stage.Fits config)
      (hsafe : StepSafe config s.disk ⟨line, data, stage⟩ answer) :
      Effect config s.disk ⟨line, data, stage⟩ answer s.disk next := .quiet hnext hsafe
  have hone (stage : Stage) (h : stage.Fits config) : ∀ found ∈ some stage, found.Fits config :=
    fun _ hfound ↦ Option.some.inj hfound ▸ h
  cases stage with
  | closing =>
    cases hw : s.disk.writer with
    | none =>
      refine ⟨_, _, hquiet (hone .naming trivial) ?_, ?_⟩
      · simp [StepSafe, hw]
      · simp [move, hw, goto]
    | some w =>
      cases hok : answer.ok with
      | true =>
        exact ⟨_, some .naming, .close rfl hw (hone .naming trivial),
          by simp [move, hw, hok, goto]⟩
      | false => exact ⟨_, none, .close rfl hw nofun, by simp [move, hw, hok, finish]⟩
  | naming =>
    cases hf : (s.disk.dir config.file_name).isSome with
    | true =>
      have hname : (Stage.moving (config.rotatedName answer.now)).Fits config :=
        rotatedName_ne config answer.now
      exact ⟨_, _, hquiet (hone _ hname) trivial, by simp [move, hf, goto]⟩
    | false =>
      exact ⟨_, _, hquiet (hone .listing trivial) trivial, by simp [move, hf, goto]⟩
  | moving target =>
    cases hf : s.disk.dir config.file_name with
    | none => exact ⟨_, none, hquiet nofun (by simp [StepSafe, hf]), by simp [move, hf, finish]⟩
    | some f =>
      cases hok : answer.ok with
      | true => exact ⟨_, _, .rename rfl hok hf, by simp [move, hf, hok, goto]⟩
      | false =>
        exact ⟨_, none, hquiet nofun (by simp [StepSafe, hok]), by simp [move, hf, hok, finish]⟩
  | listing =>
    cases hmax : config.max_files with
    | none =>
      exact ⟨_, _, hquiet (hone .resettingSize trivial) trivial,
        by simp [move, hmax, goto]⟩
    | some max_files =>
      refine ⟨_, some (.removing (if config.listable then
        s.filesToRemove config max_files answer.listed else [])), hquiet (hone _ ?_) trivial,
        by simp [move, hmax, goto]⟩
      split_ifs
      · exact fits_filesToRemove max_files answer.listed
      · exact nofun
  | removing names =>
    cases names with
    | nil =>
      exact ⟨_, _, hquiet (hone .resettingSize trivial) trivial, by simp [move, goto]⟩
    | cons name names =>
      cases hok : answer.ok with
      | true => exact ⟨_, _, .remove rfl hok, by simp [move, hok, goto]⟩
      | false =>
        have hrest : (Stage.removing names).Fits config :=
          fun other hother ↦ hfits other (List.mem_cons_of_mem _ hother)
        exact ⟨_, _, hquiet (hone _ hrest) (by simp [StepSafe, hok]), by simp [move, hok, goto]⟩
  | resettingSize =>
    exact ⟨_, _, hquiet (hone .resettingTime trivial) trivial, by simp [move, goto]⟩
  | resettingTime =>
    exact ⟨_, _, hquiet (hone .opening trivial) trivial, by simp [move, goto]⟩
  | opening =>
    cases hw : s.disk.writer with
    | some w =>
      exact ⟨_, _, hquiet (hone .writing trivial) trivial, by simp [move, hw, goto]⟩
    | none =>
      cases hok : answer.ok with
      | true => exact ⟨_, _, .openCurrent rfl hw, by simp [move, hw, hok, goto]⟩
      | false => exact ⟨_, none, hquiet nofun trivial, by simp [move, hw, hok, finish]⟩
  | writing =>
    cases hw : s.disk.writer with
    | none => exact ⟨_, _, .nowhere rfl hw, by simp [move, hw, finish]⟩
    | some w =>
      cases hok : answer.ok with
      | true => exact ⟨_, _, .putLine rfl hw, by simp [move, hw, hok, finish]⟩
      | false => exact ⟨_, _, .putPart rfl hw, by simp [move, hw, hok, finish]⟩

/-! ### Runs -/

/-- What holds in any run: the directory is tidy, the calls have lines of their own that no write
returned for, and stages that fit. -/
structure Inv (config : RotationConfig) (s : RotatingWriter) : Prop where
  tidy : s.disk.Tidy config.file_name
  old : ∀ line ∈ s.disk.returned, line < s.issued
  issued : ∀ t call, s.calls t = some call → call.line < s.issued
  fresh : ∀ t call, s.calls t = some call → call.line ∉ s.disk.returned
  distinct : ∀ t t' call call', s.calls t = some call → s.calls t' = some call' →
    call.line = call'.line → t = t'
  fits : ∀ t call, s.calls t = some call → call.stage.Fits config

theorem Inv.not_owned (h : Inv config s) (hcall : s.calls thread = some call) (f : ℕ) :
    call.line ∉ s.disk.owners f :=
  fun hline ↦ h.fresh thread call hcall (h.tidy.returned f _ hline)

/-- A call goes on or is over, and the directory changes without another line returned. -/
theorem Inv.move (h : Inv config s) (hcall : s.calls thread = some call) {next : RotatingWriter}
    {stage : Option Stage} (hstage : ∀ found ∈ stage, found.Fits config)
    (hcalls : next.calls =
      Function.update s.calls thread (stage.map fun stage ↦ { call with stage }))
    (hissued : next.issued = s.issued) (htidy : next.disk.Tidy config.file_name)
    (hreturned : next.disk.returned = s.disk.returned ∨
      next.disk.returned = call.line :: s.disk.returned ∧ stage = none) : Inv config next := by
  -- The lines of the calls are those that were, and a line that returned has no call any more.
  have hold (t : ℕ) (found : Call) (hfound : next.calls t = some found) :
      ∃ before, s.calls t = some before ∧ before.line = found.line ∧ found.stage.Fits config ∧
        (stage = none → t ≠ thread) := by
    rw [hcalls, update_eq_some_iff] at hfound
    rcases hfound with ⟨rfl, hmap⟩ | ⟨ht, hfound⟩
    · obtain ⟨st, hst, rfl⟩ := Option.map_eq_some_iff.mp hmap
      exact ⟨call, hcall, rfl, hstage st hst, fun hnone ↦ absurd (hst.symm.trans hnone) nofun⟩
    · exact ⟨found, hfound, rfl, h.fits t found hfound, fun _ ↦ ht⟩
  refine
    { tidy := htidy
      old := ?_
      issued := ?_
      fresh := ?_
      distinct := ?_
      fits := fun t found hfound ↦ (hold t found hfound).choose_spec.2.2.1 }
  · intro line hline
    rw [hissued]
    rcases hreturned with heq | ⟨heq, -⟩ <;> rw [heq] at hline
    · exact h.old line hline
    · rcases List.mem_cons.mp hline with rfl | hline
      · exact h.issued thread call hcall
      · exact h.old line hline
  · intro t found hfound
    obtain ⟨before, hbefore, hline, -⟩ := hold t found hfound
    rw [hissued, ← hline]
    exact h.issued t before hbefore
  · intro t found hfound
    obtain ⟨before, hbefore, hline, -, hother⟩ := hold t found hfound
    rw [← hline]
    rcases hreturned with heq | ⟨heq, hnone⟩ <;> rw [heq]
    · exact h.fresh t before hbefore
    · rw [List.mem_cons, not_or]
      refine ⟨fun hsame ↦ ?_, h.fresh t before hbefore⟩
      exact hother hnone (h.distinct t thread before call hbefore hcall hsame)
  · intro t t' found found' hfound hfound' hsame
    obtain ⟨before, hbefore, hline, -⟩ := hold t found hfound
    obtain ⟨before', hbefore', hline', -⟩ := hold t' found' hfound'
    exact h.distinct t t' before before' hbefore hbefore' (hline.trans (hsame.trans hline'.symm))

/-- What one step of a call does to the directory keeps it tidy. -/
theorem Inv.effect (h : Inv config s) (hcall : s.calls thread = some call) {disk : LogDirectory}
    {next : Option Stage} (heffect : Effect config s.disk call answer disk next) :
    disk.Tidy config.file_name ∧ (disk.returned = s.disk.returned ∨
      disk.returned = call.line :: s.disk.returned ∧ next = none) ∧
      ∀ stage ∈ next, stage.Fits config := by
  have hfits := h.fits thread call hcall
  cases heffect with
  | quiet hnext => exact ⟨h.tidy, .inl rfl, hnext⟩
  | close _ hw hnext => exact ⟨h.tidy.close hw _, .inl rfl, hnext⟩
  | rename hstage _ hf =>
    rw [hstage] at hfits
    exact ⟨h.tidy.rename hfits hf, .inl rfl, fun _ hfound ↦ Option.some.inj hfound ▸ trivial⟩
  | remove hstage =>
    rw [hstage] at hfits
    obtain ⟨hname, hnames⟩ := List.forall_mem_cons.mp hfits
    exact ⟨h.tidy.remove hname, .inl rfl, fun _ hfound ↦ Option.some.inj hfound ▸ hnames⟩
  | openCurrent _ hw =>
    refine ⟨h.tidy.openCurrent hw _, .inl ?_, fun _ hfound ↦ Option.some.inj hfound ▸ trivial⟩
    rcases s.disk.openCurrent_cases config.file_name answer.created with ⟨f, -, hopen⟩ | ⟨-, hopen⟩
    all_goals rw [hopen]
  | nowhere => exact ⟨h.tidy.returnOk _, .inr ⟨rfl, rfl⟩, nofun⟩
  | putLine _ hw =>
    refine ⟨(h.tidy.returnOk _).put hw _ fun found hfound ↦ ?_, .inr ⟨rfl, rfl⟩, nofun⟩
    obtain rfl := Option.some.inj hfound
    exact ⟨List.mem_cons_self, h.not_owned hcall⟩
  | putPart _ hw => exact ⟨h.tidy.put hw _ nofun, .inl rfl, nofun⟩

/-- What one step of a call does keeps the lines exactly when the step is safe. -/
theorem Inv.keeps_effect_iff (h : Inv config s) (hcall : s.calls thread = some call)
    {disk : LogDirectory} {next : Option Stage}
    (heffect : Effect config s.disk call answer disk next)
    (hkeeps : s.disk.Keeps config.file_name) :
    disk.Keeps config.file_name ↔ StepSafe config s.disk call answer := by
  have hfits := h.fits thread call hcall
  unfold StepSafe
  cases heffect with
  | quiet _ hsafe => exact iff_of_true hkeeps hsafe
  | close hstage hw =>
    rw [hstage, h.tidy.keeps_close_iff hw _ hkeeps, hw]
    exact ⟨fun hdropped _ hfound ↦ Option.some.inj hfound ▸ hdropped, fun hall ↦ hall _ rfl⟩
  | rename hstage hok hf =>
    rw [hstage] at hfits ⊢
    rw [h.tidy.keeps_rename_iff hfits hf hkeeps]
    exact ⟨fun hnew _ _ ↦ hnew, fun hall ↦ hall hok (Option.isSome_of_eq_some hf)⟩
  | remove hstage hok =>
    rw [hstage] at hfits ⊢
    rw [h.tidy.keeps_remove_iff (List.forall_mem_cons.mp hfits).1 hkeeps]
    exact ⟨fun hown _ ↦ hown, fun hall ↦ hall hok⟩
  | openCurrent hstage hw =>
    rw [hstage]
    exact iff_of_true (h.tidy.keeps_openCurrent hw _ hkeeps) trivial
  | nowhere hstage hw =>
    rw [hstage, hw]
    exact iff_of_false (LogDirectory.not_keeps_returnOk (h.not_owned hcall)) nofun
  | putLine hstage hw =>
    rw [hstage, hw]
    exact iff_of_true (h.tidy.keeps_putLine hw (h.not_owned hcall) _ _ hkeeps).2 rfl
  | putPart hstage hw =>
    rw [hstage, hw]
    exact iff_of_true (h.tidy.keeps_put hw _ hkeeps rfl) rfl

/-- The condition on the steps of a run. -/
def Safe (config : RotationConfig) (s : RotatingWriter) : LogAction → Prop
  | .move thread answer => ∀ call ∈ s.calls thread, StepSafe config s.disk call answer
  | _ => True

theorem step_move_eq_some {next : RotatingWriter}
    (h : s.step config (.move thread answer) = some next) :
    ∃ call, s.calls thread = some call ∧ s.move config thread call answer = next := by
  rw [step] at h
  split_ifs at h
  exact Option.map_eq_some_iff.mp h

theorem step_write_eq_some {data : List UInt8} {now : Civil} {next : RotatingWriter}
    (h : s.step config (.write thread data now) = some next) :
    s.calls thread = none ∧ ∃ stage : Stage, stage.Fits config ∧ next =
      { s with
        calls := Function.update s.calls thread (some ⟨s.issued, data, stage⟩)
        issued := s.issued + 1 } := by
  rw [step] at h
  by_cases hnone : (s.calls thread).isNone = true
  · rw [if_pos hnone] at h
    refine ⟨Option.isNone_iff_eq_none.mp hnone, _, ?_, (Option.some.inj h).symm⟩
    split_ifs <;> trivial
  · rw [if_neg hnone] at h
    exact absurd h nofun

theorem step_flush_eq_some {next : RotatingWriter} (h : s.step config (.flush answer) = some next) :
    next = s ∨ ∃ w, s.disk.writer = some w ∧
      next = { s with disk := s.disk.handOn w (w.leaving answer) } := by
  rw [step] at h
  cases hw : s.disk.writer with
  | none =>
    rw [hw] at h
    exact .inl (Option.some.inj h).symm
  | some w =>
    rw [hw] at h
    exact .inr ⟨w, rfl, (Option.some.inj h).symm⟩

theorem kept_inv : Lib.Run.Kept (RotatingWriter.step config) (Inv config) := by
  intro s a next h hnext
  cases a with
  | write thread data now =>
    obtain ⟨hnone, stage, hstage, rfl⟩ := step_write_eq_some hnext
    have hcases {t : ℕ} {found : Call} (hfound :
        Function.update s.calls thread (some ⟨s.issued, data, stage⟩) t = some found) :
        (t = thread ∧ found = ⟨s.issued, data, stage⟩) ∨ (t ≠ thread ∧ s.calls t = some found) := by
      rcases update_eq_some_iff.mp hfound with ⟨ht, hsame⟩ | hother
      · exact .inl ⟨ht, (Option.some.inj hsame).symm⟩
      · exact .inr hother
    refine
      { tidy := h.tidy
        old := fun line hline ↦ Nat.lt_succ_of_lt (h.old line hline)
        issued := ?_
        fresh := ?_
        distinct := ?_
        fits := ?_ }
    · intro t found hfound
      rcases hcases hfound with ⟨-, rfl⟩ | ⟨-, hold⟩
      · exact Nat.lt_succ_self _
      · exact Nat.lt_succ_of_lt (h.issued t found hold)
    · intro t found hfound
      rcases hcases hfound with ⟨-, rfl⟩ | ⟨-, hold⟩
      · exact fun hline ↦ Nat.lt_irrefl _ (h.old _ hline)
      · exact h.fresh t found hold
    · intro t t' found found' hfound hfound' hsame
      rcases hcases hfound with ⟨rfl, rfl⟩ | ⟨-, hold⟩ <;>
        rcases hcases hfound' with ⟨rfl, rfl⟩ | ⟨-, hold'⟩
      · rfl
      · exact absurd (h.issued t' found' hold') (hsame ▸ Nat.lt_irrefl _)
      · exact absurd (h.issued t found hold) (hsame ▸ Nat.lt_irrefl _)
      · exact h.distinct t t' found found' hold hold' hsame
    · intro t found hfound
      rcases hcases hfound with ⟨-, rfl⟩ | ⟨-, hold⟩
      · exact hstage
      · exact h.fits t found hold
  | move thread answer =>
    obtain ⟨call, hcall, rfl⟩ := step_move_eq_some hnext
    obtain ⟨disk, stage, heffect, hdisk, hcalls, hissued⟩ := move_effect (h.fits thread call hcall)
    obtain ⟨htidy, hreturned, hfits⟩ := h.effect hcall heffect
    rw [← hdisk] at htidy hreturned
    exact h.move hcall hfits hcalls hissued htidy hreturned
  | flush answer =>
    rcases step_flush_eq_some hnext with rfl | ⟨w, hw, rfl⟩
    · exact h
    · exact { h with tidy := h.tidy.handOn hw _ }

/-- A step keeps the lines and the files exactly when it is safe. -/
theorem step_keeps_iff {a : LogAction} {next : RotatingWriter} (h : Inv config s)
    (hkeeps : s.disk.Keeps config.file_name) (hnext : s.step config a = some next) :
    next.disk.Keeps config.file_name ↔ s.Safe config a := by
  cases a with
  | write thread data now =>
    obtain ⟨-, stage, -, rfl⟩ := step_write_eq_some hnext
    exact iff_of_true hkeeps trivial
  | move thread answer =>
    obtain ⟨call, hcall, rfl⟩ := step_move_eq_some hnext
    obtain ⟨disk, stage, heffect, hdisk, -⟩ := move_effect (h.fits thread call hcall)
    rw [hdisk, h.keeps_effect_iff hcall heffect hkeeps, Safe, hcall]
    exact ⟨fun hsafe _ hfound ↦ Option.some.inj hfound ▸ hsafe, fun hall ↦ hall call rfl⟩
  | flush answer =>
    rcases step_flush_eq_some hnext with rfl | ⟨w, hw, rfl⟩
    · exact iff_of_true hkeeps trivial
    · exact iff_of_true (h.tidy.keeps_handOn hw _ hkeeps) trivial

/-- A writer that was made is tidy and has lost nothing. -/
theorem inv_new (config : RotationConfig) (given : GivenDirectory) (created : ℕ) (now : Civil) :
    Inv config (.new config given created now) ∧
      (RotatingWriter.new config given created now).disk.Keeps config.file_name := by
  have howners (f : ℕ) : given.unopened.owners f = [] := by
    refine List.filterMap_eq_nil_iff.mpr fun c hc ↦ ?_
    rw [LogDirectory.contents] at hc
    exact given.foreign f c (by simpa [GivenDirectory.unopened] using hc)
  have htidy : given.unopened.Tidy config.file_name :=
    { dir_inj := given.dir_inj
      dir_lt := given.dir_lt
      unmade := given.unmade
      writer_placed := nofun
      placed := fun f line hline ↦ absurd (howners f ▸ hline) List.not_mem_nil
      nodup := fun f ↦ (howners f).symm ▸ List.nodup_nil
      unique := fun f _ line hline ↦ absurd (howners f ▸ hline) List.not_mem_nil
      returned := fun f line hline ↦ absurd (howners f ▸ hline) List.not_mem_nil }
  have hkeeps : given.unopened.Keeps config.file_name :=
    { lines := nofun
      names := rfl
      cleanup := nofun }
  have hreturned : (given.unopened.openCurrent config.file_name created).returned = [] := by
    rcases given.unopened.openCurrent_cases config.file_name created with ⟨f, -, hopen⟩ | ⟨-, hopen⟩
    all_goals rw [hopen]; rfl
  refine ⟨?_, htidy.keeps_openCurrent rfl created hkeeps⟩
  exact
    { tidy := htidy.openCurrent rfl created
      old := fun line hline ↦ absurd (hreturned ▸ hline) List.not_mem_nil
      issued := nofun
      fresh := nofun
      distinct := nofun
      fits := nofun }

end RotatingWriter

/-- In every run of any number of threads, each line whose write returned `Ok` is in exactly one
file, which is in its place or was removed by the clean-up, no rotated file is overwritten and only
rotated files are removed, in each state that is reached, exactly when every step is safe. -/
theorem always_keeps_iff (config : RotationConfig) (given : GivenDirectory) (created : ℕ)
    (now : Civil) (actions : List LogAction) :
    Always (RotatingWriter.step config) (fun s ↦ s.disk.Keeps config.file_name)
        (.new config given created now) actions ↔
      EachStep (RotatingWriter.step config) (RotatingWriter.Safe config)
        (.new config given created now) actions := by
  obtain ⟨hinv, hkeeps⟩ := RotatingWriter.inv_new config given created now
  exact always_iff_eachStep RotatingWriter.kept_inv
    (fun _ _ _ h hk hnext ↦ RotatingWriter.step_keeps_iff h hk hnext) hinv hkeeps actions

/-! ### A line that finds no writer -/

def emptyDirectory : GivenDirectory where
  files := fun _ ↦ ⟨0, []⟩
  made := 0
  dir := fun _ ↦ none
  rotated := []
  dir_inj := nofun
  dir_lt := nofun
  unmade := fun _ _ ↦ rfl
  foreign := nofun

/-- A file of at most four bytes. -/
def fourBytes : RotationConfig where
  file_name := "app.log".toList
  listable := true
  rotation := .size 4
  max_files := none

/-- Noon, when every operation succeeds. -/
def atNoon : Answer where
  now := (Civil.ofFields 2024 5 1 12 0 0).get (by decide)
  created := 1
  ok := true
  chunks := 0
  bytes := 0
  metadata := true
  listed := []

/-- A line that is written while another thread has closed the file. -/
theorem not_always_keeps :
    ¬ ∀ (config : RotationConfig) (given : GivenDirectory) (created : ℕ) (now : Civil)
        (actions : List LogAction),
      Always (RotatingWriter.step config) (fun s ↦ s.disk.Keeps config.file_name)
        (.new config given created now) actions := by
  intro h
  have hrun := h fourBytes emptyDirectory 0 atNoon.now
  have hbefore := (hrun [.write 1 [1, 2, 3, 4, 5] atNoon.now, .move 1 atNoon,
    .write 2 [6] atNoon.now]).exec rfl
  have hafter := (hrun [.write 1 [1, 2, 3, 4, 5] atNoon.now, .move 1 atNoon,
    .write 2 [6] atNoon.now, .move 2 atNoon]).exec rfl
  have hinv := (RotatingWriter.kept_inv.always
    (RotatingWriter.inv_new fourBytes emptyDirectory 0 atNoon.now).1
    [.write 1 [1, 2, 3, 4, 5] atNoon.now, .move 1 atNoon, .write 2 [6] atNoon.now]).exec rfl
  have hsafe := (RotatingWriter.step_keeps_iff hinv hbefore (a := .move 2 atNoon) rfl).mp hafter
  exact absurd (hsafe _ rfl) nofun

end Lithair.Logging
