import Lithair.Lib.Path
import Mathlib.Data.Finmap

/-!
# Files in directories

A file system as the entries at the places that there are. A path is followed from a directory as
long as what it leads through are directories (`resolve`), and a file is written, read and removed
where it leads to. `accepts` says which names the file system takes.

A plain name leads to the entry of the directory with that name (`resolve_of_plain`), and making a
directory changes nothing but that it and its parents are there (`lookup_createDirAll`).
-/

namespace Lithair.Lib.FileSystem

open Lithair.Lib.Path

inductive Entry
  | directory
  | file (text : String)
  deriving DecidableEq

def Entry.isFile : Entry → Bool
  | .directory => false
  | .file _ => true

abbrev Files := Finmap fun _ : Dir ↦ Entry

variable (accepts : String → Bool) (fs : Files) (start : Dir) (path : String)

/-- The place that a path leads to. -/
def resolve : Option Dir :=
  if (∀ name ∈ names path, accepts name = true) ∧
      ∀ dir ∈ (way (origin start path) (names path)).dropLast, fs.lookup dir = some .directory then
    some (join start path)
  else none

/-- What is at the place that a path leads to. -/
def entry : Option Entry := (resolve accepts fs start path).bind fs.lookup

/-- Write a file, in the place of another one if there is one. -/
def write (text : String) : Option Files :=
  match resolve accepts fs start path with
  | none => none
  | some place =>
    if fs.lookup place = some .directory then none else some (fs.insert place (.file text))

def removeFile : Option Files :=
  match resolve accepts fs start path with
  | none => none
  | some place => if (fs.lookup place).any Entry.isFile then some (fs.erase place) else none

/-- Make a directory and those that it is in, unless a file is in the way. -/
def createDirAll (dir : Dir) : Option Files :=
  if (∀ name ∈ dir, accepts name = true) ∧
      ∀ parent ∈ dir.inits, (fs.lookup parent).any Entry.isFile = false then
    some (dir.inits.foldl (fun fs parent ↦ fs.insert parent .directory) fs)
  else none

/-- The names of the entries of a directory, in some order. -/
def IsListing (dir : Dir) (order : List String) : Prop :=
  order.Nodup ∧ ∀ name, name ∈ order ↔ dir ++ [name] ∈ fs

variable {accepts fs start} {name text : String} {next : Files} {place dir : Dir}

theorem resolve_of_plain (h : Plain name) :
    resolve accepts fs start name =
      if accepts name = true ∧ fs.lookup start = some .directory then some (start ++ [name])
      else none := by
  unfold resolve
  rw [h.names, h.origin, join_of_plain h]
  simp [way, List.scanl]

theorem lookup_foldl_directory (dirs : List Dir) :
    (dirs.foldl (fun fs parent ↦ fs.insert parent Entry.directory) fs).lookup place =
      if place ∈ dirs then some .directory else fs.lookup place := by
  induction dirs generalizing fs with
  | nil => rw [if_neg List.not_mem_nil, List.foldl_nil]
  | cons parent rest ih =>
    rw [List.foldl_cons, ih]
    by_cases hrest : place ∈ rest
    · rw [if_pos hrest, if_pos (List.mem_cons_of_mem parent hrest)]
    · rw [if_neg hrest]
      by_cases hparent : place = parent
      · rw [hparent, Finmap.lookup_insert, if_pos List.mem_cons_self]
      · rw [Finmap.lookup_insert_of_ne _ hparent, if_neg]
        rintro (_ | ⟨_, hmem⟩)
        · exact hparent rfl
        · exact hrest hmem

theorem lookup_createDirAll (h : createDirAll accepts fs dir = some next) (place : Dir) :
    next.lookup place = if place <+: dir then some .directory else fs.lookup place := by
  unfold createDirAll at h
  split_ifs at h with hmade
  obtain rfl := Option.some.inj h
  rw [lookup_foldl_directory]
  simp only [List.mem_inits]

/-- Writing under a plain name. -/
theorem write_of_plain (h : Plain name) (hwrite : write accepts fs start name text = some next) :
    accepts name = true ∧ fs.lookup start = some .directory ∧
      next = fs.insert (start ++ [name]) (.file text) := by
  unfold write at hwrite
  rw [resolve_of_plain h] at hwrite
  by_cases hresolve : accepts name = true ∧ fs.lookup start = some .directory
  · rw [if_pos hresolve] at hwrite
    dsimp only at hwrite
    split_ifs at hwrite with hdirectory
    exact ⟨hresolve.1, hresolve.2, (Option.some.inj hwrite).symm⟩
  · rw [if_neg hresolve] at hwrite
    exact absurd hwrite (Option.some_ne_none _).symm

/-- What is found under a plain name. -/
theorem entry_of_plain (h : Plain name) :
    entry accepts fs start name =
      if accepts name = true ∧ fs.lookup start = some .directory then fs.lookup (start ++ [name])
      else none := by
  unfold entry
  rw [resolve_of_plain h]
  split_ifs
  · rfl
  · rfl

theorem removeFile_of_plain (h : Plain name) (haccepts : accepts name = true)
    (hstart : fs.lookup start = some .directory)
    (hfile : fs.lookup (start ++ [name]) = some (.file text)) :
    removeFile accepts fs start name = some (fs.erase (start ++ [name])) := by
  unfold removeFile
  rw [resolve_of_plain h, if_pos ⟨haccepts, hstart⟩]
  dsimp only
  rw [hfile]
  rfl

end Lithair.Lib.FileSystem
