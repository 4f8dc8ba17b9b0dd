import Mathlib.Data.List.Induction
import Mathlib.Data.String.Basic

/-!
# Directories and paths

A directory is the list of names on the way to it from the root. A path is read name by name from a
directory (`join`): an empty name and `.` lead nowhere, `..` leads back, and a path that begins with
a slash is read from the root. `way` lists the directories that are passed.

A plain name leads from any directory to the one of that name in it (`join_of_plain`).
-/

namespace Lithair.Lib.Path

/-- The names on the way from the root. -/
abbrev Dir := List String

/-- The text between slashes. -/
def splitNames : List Char → List (List Char)
  | [] => [[]]
  | c :: rest =>
    if c = '/' then [] :: splitNames rest
    else
      match splitNames rest with
      | [] => [[c]]
      | name :: names => (c :: name) :: names

/-- The names of a path. -/
def names (path : String) : List String :=
  ((splitNames path.toList).map String.ofList).filter fun name ↦ name ≠ "" ∧ name ≠ "."

def enter (dir : Dir) (name : String) : Dir := if name = ".." then dir.dropLast else dir ++ [name]

/-- The directories that names lead through, from the first to the last. -/
def way (dir : Dir) (names : List String) : List Dir := names.scanl enter dir

/-- Where names lead. -/
def walk (dir : Dir) (names : List String) : Dir := names.foldl enter dir

def isAbsolute (path : String) : Bool := path.toList.head? == some '/'

/-- Where a path is read from. -/
def origin (base : Dir) (path : String) : Dir := if isAbsolute path then [] else base

def join (base : Dir) (path : String) : Dir := walk (origin base path) (names path)

/-- A name that is the name of an entry. -/
structure Plain (name : String) : Prop where
  nonempty : name ≠ ""
  notDot : name ≠ "."
  notDots : name ≠ ".."
  noSlash : '/' ∉ name.toList

variable {name : String}

/-- What names lead to is a front of the directory and names that were entered. -/
theorem walk_eq_take_append (dir : Dir) (names : List String) :
    ∃ k entered, walk dir names = dir.take k ++ entered ∧ ∀ n ∈ entered, n ∈ names ∧ n ≠ ".." := by
  induction names using List.reverseRecOn with
  | nil =>
    refine ⟨dir.length, [], ?_, fun n hn ↦ absurd hn List.not_mem_nil⟩
    rw [List.take_length, List.append_nil]
    rfl
  | append_singleton names name ih =>
    obtain ⟨k, entered, hwalk, hentered⟩ := ih
    have hlast : walk dir (names ++ [name]) = enter (dir.take k ++ entered) name := by
      rw [← hwalk]
      exact List.foldl_append
    rw [hlast, enter]
    split_ifs with hdots
    · cases entered using List.reverseRecOn with
      | nil =>
        refine ⟨min ((dir.take k).length - 1) k, [], ?_, fun n hn ↦ absurd hn List.not_mem_nil⟩
        rw [List.append_nil, List.append_nil, List.dropLast_eq_take, List.take_take]
      | append_singleton entered last =>
        refine ⟨k, entered, ?_, fun n hn ↦ ?_⟩
        · rw [← List.append_assoc, List.dropLast_concat]
        · obtain ⟨hmem, hne⟩ := hentered n (List.mem_append_left _ hn)
          exact ⟨List.mem_append_left _ hmem, hne⟩
    · refine ⟨k, entered ++ [name], List.append_assoc _ _ _, fun n hn ↦ ?_⟩
      rcases List.mem_append.mp hn with hn | hn
      · obtain ⟨hmem, hne⟩ := hentered n hn
        exact ⟨List.mem_append_left _ hmem, hne⟩
      · rw [List.mem_singleton.mp hn]
        exact ⟨List.mem_append_right _ List.mem_cons_self, hdots⟩

theorem splitNames_of_noSlash {text : List Char} (h : '/' ∉ text) : splitNames text = [text] := by
  induction text with
  | nil => rfl
  | cons c rest ih =>
    have hc : c ≠ '/' := fun heq ↦ h (heq ▸ List.mem_cons_self)
    rw [splitNames, if_neg hc, ih fun hmem ↦ h (List.mem_cons_of_mem c hmem)]

theorem noSlash_of_mem_splitNames {text part : List Char} (h : part ∈ splitNames text) :
    '/' ∉ part := by
  induction text generalizing part with
  | nil =>
    rw [List.mem_singleton.mp h]
    exact List.not_mem_nil
  | cons c rest ih =>
    rw [splitNames] at h
    split_ifs at h with hc
    · rcases List.mem_cons.mp h with rfl | h
      · exact List.not_mem_nil
      · exact ih h
    · split at h
      · rw [List.mem_singleton.mp h]
        exact fun hmem ↦ hc (List.mem_singleton.mp hmem).symm
      · next first parts hsplit =>
        rcases List.mem_cons.mp h with rfl | h
        · intro hmem
          rcases List.mem_cons.mp hmem with hmem | hmem
          · exact hc hmem.symm
          · exact ih (hsplit ▸ List.mem_cons_self) hmem
        · exact ih (hsplit ▸ List.mem_cons_of_mem _ h)

/-- The names of a path that are entered are plain. -/
theorem plain_of_mem_names {path : String} (h : name ∈ names path) (hdots : name ≠ "..") :
    Plain name := by
  obtain ⟨hmem, hkept⟩ := List.mem_filter.mp h
  obtain ⟨part, hpart, rfl⟩ := List.mem_map.mp hmem
  obtain ⟨hne, hdot⟩ := of_decide_eq_true hkept
  exact ⟨hne, hdot, hdots, by
    rw [String.toList_ofList]
    exact noSlash_of_mem_splitNames hpart⟩

/-- An entry of the directory that a path leads to has a plain name. -/
theorem plain_of_walk_eq {path : String} {base : Dir}
    (h : walk base (names path) = base ++ [name]) : Plain name := by
  obtain ⟨k, entered, hwalk, hentered⟩ := walk_eq_take_append base (names path)
  rw [hwalk] at h
  have hlast : name ∈ entered := by
    cases entered using List.reverseRecOn with
    | nil =>
      have hlength := congrArg List.length h
      rw [List.append_nil, List.length_take, List.length_append, List.length_singleton] at hlength
      omega
    | append_singleton entered last =>
      rw [← List.append_assoc] at h
      have hsame := List.append_inj_right' h rfl
      rw [← List.singleton_inj.mp hsame]
      exact List.mem_append_right _ List.mem_cons_self
  exact plain_of_mem_names (hentered name hlast).1 (hentered name hlast).2

theorem Plain.names (h : Plain name) : names name = [name] := by
  rw [Path.names, splitNames_of_noSlash h.noSlash, List.map_singleton, String.ofList_toList]
  exact List.filter_cons_of_pos (by simpa using ⟨h.nonempty, h.notDot⟩)

theorem Plain.walk (h : Plain name) (base : Dir) :
    walk base (Path.names name) = base ++ [name] := by
  rw [h.names]
  exact if_neg h.notDots

/-- A plain name is read from the directory it is in. -/
theorem Plain.origin (h : Plain name) (base : Dir) : origin base name = base := by
  have hrelative : isAbsolute name = false := by
    rw [isAbsolute, beq_eq_false_iff_ne]
    exact fun hhead ↦ h.noSlash (List.mem_of_mem_head? hhead)
  rw [Path.origin, hrelative]
  rfl

theorem join_of_plain (h : Plain name) (base : Dir) : join base name = base ++ [name] := by
  rw [join, h.origin, h.walk]

end Lithair.Lib.Path
