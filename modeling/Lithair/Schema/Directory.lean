import Lithair.Lib.FileSystem
import Lithair.Lib.Run
import Lithair.Schema.SyncState

/-!
# The directory of schemas

The functions of `schema/mod.rs` that keep specifications, the history of changes and the status of
the lock as files of one directory, `.schema` in the base directory. A file of a specification has
the name of its model. The file system takes the names that it accepts and does what it is asked;
what `serde_json` writes and reads is a parameter.

`storesIndependent_of_ordinary` says when these behave as stores of their own: when the names of the
models are names of files and not those of the history and the lock, and the directory is listed
while there is no history and no lock in it.
-/

namespace Lithair.Schema

open Lithair.Lib Lithair.Lib.FileSystem Lithair.Lib.Path Lithair.Lib.Run

/-! ### The files -/

structure SchemaHistoryData where
  changes : List AppliedSchemaChange
  lockStatus : SchemaLockStatus
  deriving DecidableEq

def SchemaHistoryData.default : SchemaHistoryData := ⟨[], .default⟩

/-- What is used of `serde_json`. -/
structure SchemaJson where
  renderSpec : ModelSpec → String
  parseSpec : String → Option ModelSpec
  renderHistory : SchemaHistoryData → String
  parseHistory : String → Option SchemaHistoryData
  renderLock : SchemaLockStatus → String
  parseLock : String → Option SchemaLockStatus

/-- The same specification, with its fields in whatever order. -/
structure ModelSpec.SameAs (first second : ModelSpec) : Prop where
  modelName : first.modelName = second.modelName
  version : first.version = second.version
  fields : ∀ name, first.fields.lookup name = second.fields.lookup name
  indexes : first.indexes = second.indexes
  foreignKeys : first.foreignKeys = second.foreignKeys

inductive LoadError
  | io
  | invalidData
  deriving DecidableEq

def historyFile : String := "schema_history.json"

def lockFile : String := "schema_lock.json"

def specFile (modelName : String) : String := modelName ++ ".json"

/-- The stem of a file name with the extension `json`. -/
def jsonStem (fileName : String) : Option String :=
  if ".json".toList <:+ fileName.toList ∧ fileName ≠ ".json" then
    some (String.ofList (fileName.toList.take (fileName.toList.length - 5)))
  else none

section Functions

variable (accepts : String → Bool) (base : Dir) (json : SchemaJson) (fs : Files)

def schemaDir : Dir := base ++ [".schema"]

/-- Write a file of the directory, which is made first. The second component says whether that
succeeded. -/
def saveFile (fileName text : String) : Files × Bool :=
  match createDirAll accepts fs (schemaDir base) with
  | none => (fs, false)
  | some made =>
    match write accepts made (schemaDir base) fileName text with
    | none => (made, false)
    | some written => (written, true)

/-- Read a file of the directory if there is one. -/
def loadFile {α : Type*} (parse : String → Option α) (fileName : String) :
    Except LoadError (Option α) :=
  match entry accepts fs (schemaDir base) fileName with
  | none => .ok none
  | some .directory => .error .io
  | some (.file text) =>
    match parse text with
    | some value => .ok (some value)
    | none => .error .invalidData

def saveSchemaSpec (spec : ModelSpec) : Files × Bool :=
  saveFile accepts base fs (specFile spec.modelName) (json.renderSpec spec)

def loadSchemaSpec (modelName : String) : Except LoadError (Option ModelSpec) :=
  loadFile accepts base fs json.parseSpec (specFile modelName)

/-- The names of the stored schemas, in the order in which the directory is read. -/
def listStoredSchemas (order : List String) : Except LoadError (List String) :=
  match fs.lookup (schemaDir base) with
  | none => .ok []
  | some (.file _) => .error .io
  | some .directory => .ok (order.filterMap jsonStem)

def deleteSchemaSpec (modelName : String) : Files × Bool :=
  match entry accepts fs (schemaDir base) (specFile modelName) with
  | none => (fs, true)
  | some _ =>
    match removeFile accepts fs (schemaDir base) (specFile modelName) with
    | none => (fs, false)
    | some removed => (removed, true)

def saveSchemaHistory (history : SchemaHistoryData) : Files × Bool :=
  saveFile accepts base fs historyFile (json.renderHistory history)

def loadSchemaHistory : Except LoadError SchemaHistoryData :=
  (loadFile accepts base fs json.parseHistory historyFile).map fun found ↦ found.getD .default

def appendSchemaHistory (change : AppliedSchemaChange) : Files × Bool :=
  match loadSchemaHistory accepts base json fs with
  | .error _ => (fs, false)
  | .ok history =>
    saveSchemaHistory accepts base json fs { history with changes := history.changes ++ [change] }

def saveLockStatus (lock : SchemaLockStatus) : Files × Bool :=
  saveFile accepts base fs lockFile (json.renderLock lock)

def loadLockStatus : Except LoadError SchemaLockStatus :=
  (loadFile accepts base fs json.parseLock lockFile).map fun found ↦ found.getD .default

end Functions

/-! ### Calls -/

inductive DirectoryCall
  | saveSpec (spec : ModelSpec)
  | loadSpec (modelName : String)
  | listSchemas (order : List String)
  | deleteSpec (modelName : String)
  | saveHistory (history : SchemaHistoryData)
  | appendHistory (change : AppliedSchemaChange)
  | loadHistory
  | saveLock (lock : SchemaLockStatus)
  | loadLock

inductive DirectoryAnswer
  | done (ok : Bool)
  | spec (found : Except LoadError (Option ModelSpec))
  | names (found : Except LoadError (List String))
  | history (found : Except LoadError SchemaHistoryData)
  | lock (found : Except LoadError SchemaLockStatus)

/-- The stores that the directory is for. -/
structure SchemaStores where
  specs : String → Option ModelSpec
  history : SchemaHistoryData
  lock : SchemaLockStatus

namespace SchemaStores

def empty : SchemaStores := ⟨fun _ ↦ none, .default, .default⟩

/-- What a call that succeeds does to the stores. -/
def next (stores : SchemaStores) (call : DirectoryCall) : SchemaStores :=
  match call with
  | .saveSpec spec =>
    { stores with specs := Function.update stores.specs spec.modelName (some spec) }
  | .deleteSpec modelName => { stores with specs := Function.update stores.specs modelName none }
  | .saveHistory history => { stores with history }
  | .appendHistory change =>
    { stores with history := { stores.history with changes := stores.history.changes ++ [change] } }
  | .saveLock lock => { stores with lock }
  | .loadSpec _ | .listSchemas _ | .loadHistory | .loadLock => stores

/-- The answer is that of the stores. -/
def Answers (stores : SchemaStores) : DirectoryCall → DirectoryAnswer → Prop
  | .loadSpec modelName, answer => ∃ found, answer = .spec (.ok found) ∧
      Option.Rel ModelSpec.SameAs found (stores.specs modelName)
  | .listSchemas _, answer => ∃ names, answer = .names (.ok names) ∧ names.Nodup ∧
      ∀ name, name ∈ names ↔ (stores.specs name).isSome = true
  | .loadHistory, answer => answer = .history (.ok stores.history)
  | .loadLock, answer => answer = .lock (.ok stores.lock)
  | .saveSpec _, _ | .deleteSpec _, _ | .saveHistory _, _ | .appendHistory _, _ | .saveLock _, _ =>
    True

end SchemaStores

/-- The directory beside the stores that it is for. -/
structure DirectoryState where
  files : Files
  stores : SchemaStores

section Runs

variable (accepts : String → Bool) (base : Dir) (json : SchemaJson)

def directoryCall (fs : Files) : DirectoryCall → Files × DirectoryAnswer
  | .saveSpec spec =>
    let (fs, ok) := saveSchemaSpec accepts base json fs spec
    (fs, .done ok)
  | .loadSpec modelName => (fs, .spec (loadSchemaSpec accepts base json fs modelName))
  | .listSchemas order => (fs, .names (listStoredSchemas base fs order))
  | .deleteSpec modelName =>
    let (fs, ok) := deleteSchemaSpec accepts base fs modelName
    (fs, .done ok)
  | .saveHistory history =>
    let (fs, ok) := saveSchemaHistory accepts base json fs history
    (fs, .done ok)
  | .appendHistory change =>
    let (fs, ok) := appendSchemaHistory accepts base json fs change
    (fs, .done ok)
  | .loadHistory => (fs, .history (loadSchemaHistory accepts base json fs))
  | .saveLock lock =>
    let (fs, ok) := saveLockStatus accepts base json fs lock
    (fs, .done ok)
  | .loadLock => (fs, .lock (loadLockStatus accepts base json fs))

/-- A call that fails does nothing to the stores. -/
def DirectoryState.step (s : DirectoryState) (call : DirectoryCall) : Option DirectoryState :=
  match directoryCall accepts base json s.files call with
  | (files, .done false) => some { s with files }
  | (files, _) => some ⟨files, s.stores.next call⟩

/-! ### What is meant to hold -/

/-- The call is answered as the stores have it. The order in which the directory is read is one of
what is in it. -/
def AnsweredRight (s : DirectoryState) (call : DirectoryCall) : Prop :=
  (∀ order, call = .listSchemas order → IsListing s.files (schemaDir base) order) →
    s.stores.Answers call (directoryCall accepts base json s.files call).2

/-- Nothing has changed but in the directory of schemas, which was made if it was not there. -/
def StaysWithin (start : Files) (s : DirectoryState) : Prop :=
  ∀ place, ¬ schemaDir base <+: place → ¬ place <+: schemaDir base →
    s.files.lookup place = start.lookup place

/-- A name of a model for a file of its own. -/
structure OrdinaryName (modelName : String) : Prop where
  nonempty : modelName ≠ ""
  noSlash : '/' ∉ modelName.toList
  notHistory : modelName ≠ "schema_history"
  notLock : modelName ≠ "schema_lock"

/-- The names of models are ordinary ones, or lead to nothing. The directory is read while the
history and the lock are not in it. -/
def Ordinary (s : DirectoryState) : DirectoryCall → Prop
  | .saveSpec spec => OrdinaryName spec.modelName ∨
      ∀ made, createDirAll accepts s.files (schemaDir base) = some made →
        write accepts made (schemaDir base) (specFile spec.modelName) (json.renderSpec spec) = none
  | .loadSpec modelName | .deleteSpec modelName => OrdinaryName modelName ∨
      entry accepts s.files (schemaDir base) (specFile modelName) = none
  | .listSchemas _ => schemaDir base ++ [historyFile] ∉ s.files ∧
      schemaDir base ++ [lockFile] ∉ s.files
  | .saveHistory _ | .appendHistory _ | .loadHistory | .saveLock _ | .loadLock => True

/-- What a call writes is read back as it was. -/
def ReadsBack (s : DirectoryState) : DirectoryCall → Prop
  | .saveSpec spec => ∃ back, json.parseSpec (json.renderSpec spec) = some back ∧ back.SameAs spec
  | .saveHistory history => json.parseHistory (json.renderHistory history) = some history
  | .appendHistory change =>
    json.parseHistory (json.renderHistory
        { s.stores.history with changes := s.stores.history.changes ++ [change] }) =
      some { s.stores.history with changes := s.stores.history.changes ++ [change] }
  | .saveLock lock => json.parseLock (json.renderLock lock) = some lock
  | .loadSpec _ | .listSchemas _ | .deleteSpec _ | .loadHistory | .loadLock => True

/-! ### One file -/

variable {accepts base json} {fs next : Files} {fileName text modelName : String}

theorem toList_specFile (modelName : String) :
    (specFile modelName).toList = modelName.toList ++ ".json".toList :=
  String.toList_append

theorem specFile_injective : Function.Injective specFile := by
  intro first second h
  have hlists := congrArg String.toList h
  rw [toList_specFile, toList_specFile] at hlists
  exact String.toList_inj.mp (List.append_cancel_right hlists)

theorem OrdinaryName.plain (h : OrdinaryName modelName) : Plain (specFile modelName) := by
  have hlength : 5 ≤ (specFile modelName).toList.length := by
    rw [toList_specFile, List.length_append]
    exact Nat.le_add_left 5 _
  refine ⟨?_, ?_, ?_, ?_⟩
  · rintro heq
    rw [heq] at hlength
    exact absurd hlength (by decide)
  · rintro heq
    rw [heq] at hlength
    exact absurd hlength (by decide)
  · rintro heq
    rw [heq] at hlength
    exact absurd hlength (by decide)
  · rw [toList_specFile, List.mem_append]
    rintro (hmem | hmem)
    · exact h.noSlash hmem
    · exact absurd hmem (by decide)

theorem plain_historyFile : Plain historyFile :=
  ⟨by decide, by decide, by decide, by decide⟩

theorem plain_lockFile : Plain lockFile := ⟨by decide, by decide, by decide, by decide⟩

theorem OrdinaryName.ne_historyFile (h : OrdinaryName modelName) :
    specFile modelName ≠ historyFile :=
  fun heq ↦ h.notHistory (specFile_injective heq)

theorem OrdinaryName.ne_lockFile (h : OrdinaryName modelName) : specFile modelName ≠ lockFile :=
  fun heq ↦ h.notLock (specFile_injective heq)

/-- The stems are the names of models of the files that are named after one. -/
theorem jsonStem_eq_some_iff :
    jsonStem fileName = some modelName ↔ modelName ≠ "" ∧ fileName = specFile modelName := by
  unfold jsonStem
  constructor
  · intro h
    split_ifs at h with hjson
    obtain ⟨⟨front, hfront⟩, hne⟩ := hjson
    have htake : fileName.toList.take (fileName.toList.length - 5) = front := by
      rw [← hfront, List.length_append]
      exact List.take_left' (by simp)
    rw [htake, Option.some.injEq] at h
    have hname : fileName = specFile modelName := by
      apply String.toList_inj.mp
      rw [toList_specFile, ← h, String.toList_ofList, hfront]
    refine ⟨fun hempty ↦ hne ?_, hname⟩
    rw [hname, hempty]
    rfl
  · rintro ⟨hne, rfl⟩
    have htake : (specFile modelName).toList.take ((specFile modelName).toList.length - 5) =
        modelName.toList := by
      rw [toList_specFile, List.length_append]
      exact List.take_left' (by simp)
    rw [if_pos, htake, String.ofList_toList]
    refine ⟨⟨modelName.toList, (toList_specFile modelName).symm⟩, fun heq ↦ hne ?_⟩
    exact specFile_injective heq

/-- A file of the directory is written, and nothing else changes in it. -/
structure Saved (accepts : String → Bool) (base : Dir) (fs next : Files) (fileName text : String) :
    Prop where
  accepted : accepts fileName = true
  target : next.lookup (schemaDir base ++ [fileName]) = some (.file text)
  others : ∀ name, name ≠ fileName →
    next.lookup (schemaDir base ++ [name]) = fs.lookup (schemaDir base ++ [name])
  directory : next.lookup (schemaDir base) = some .directory
  within : ∀ place, ¬ schemaDir base <+: place → ¬ place <+: schemaDir base →
    next.lookup place = fs.lookup place

/-- Nothing changes, but that the directory may be made. -/
structure Untouched (base : Dir) (fs next : Files) : Prop where
  others : ∀ name, next.lookup (schemaDir base ++ [name]) = fs.lookup (schemaDir base ++ [name])
  directory : next.lookup (schemaDir base) = fs.lookup (schemaDir base) ∨
    next.lookup (schemaDir base) = some .directory
  within : ∀ place, ¬ schemaDir base <+: place → ¬ place <+: schemaDir base →
    next.lookup place = fs.lookup place

theorem Untouched.refl (base : Dir) (fs : Files) : Untouched base fs fs where
  others := fun _ ↦ rfl
  directory := Or.inl rfl
  within := fun _ _ _ ↦ rfl

theorem append_not_within (dir : Dir) (name : String) : ¬ dir ++ [name] <+: dir := by
  intro h
  have hlength := h.length_le
  rw [List.length_append, List.length_singleton] at hlength
  omega

theorem untouched_createDirAll (h : createDirAll accepts fs (schemaDir base) = some next) :
    Untouched base fs next where
  others := fun name ↦ by rw [lookup_createDirAll h, if_neg (append_not_within _ name)]
  directory := Or.inr (by rw [lookup_createDirAll h, if_pos List.prefix_rfl])
  within := fun place _ hplace ↦ by rw [lookup_createDirAll h, if_neg hplace]

theorem ne_append (dir : Dir) (name : String) : dir ≠ dir ++ [name] := by
  intro h
  have hlength := congrArg List.length h
  rw [List.length_append, List.length_singleton] at hlength
  omega

/-- A file is written under a plain name, or nothing is. -/
theorem saveFile_cases (hplain : Plain fileName) :
    ((saveFile accepts base fs fileName text).2 = true ∧
        Saved accepts base fs (saveFile accepts base fs fileName text).1 fileName text) ∨
      ((saveFile accepts base fs fileName text).2 = false ∧
        Untouched base fs (saveFile accepts base fs fileName text).1) := by
  unfold saveFile
  cases hmade : createDirAll accepts fs (schemaDir base) with
  | none => exact Or.inr ⟨rfl, Untouched.refl base fs⟩
  | some made =>
    have huntouched : Untouched base fs made := untouched_createDirAll hmade
    cases hwrite : write accepts made (schemaDir base) fileName text with
    | none =>
      simp only [hwrite]
      exact Or.inr ⟨trivial, huntouched⟩
    | some written =>
      simp only [hwrite]
      obtain ⟨haccepts, hdirectory, rfl⟩ := write_of_plain hplain hwrite
      refine Or.inl ⟨trivial, haccepts, Finmap.lookup_insert _, fun name hname ↦ ?_, ?_, ?_⟩
      · rw [Finmap.lookup_insert_of_ne, huntouched.others]
        exact fun heq ↦ hname (List.singleton_inj.mp (List.append_cancel_left heq))
      · rw [Finmap.lookup_insert_of_ne _ (ne_append _ _), hdirectory]
      · intro place hbelow habove
        rw [Finmap.lookup_insert_of_ne, huntouched.within place hbelow habove]
        exact fun heq ↦ hbelow (heq ▸ List.prefix_append _ _)

/-- Nothing is written when the name leads nowhere. -/
theorem saveFile_of_refused
    (h : ∀ made, createDirAll accepts fs (schemaDir base) = some made →
      write accepts made (schemaDir base) fileName text = none) :
    (saveFile accepts base fs fileName text).2 = false ∧
      Untouched base fs (saveFile accepts base fs fileName text).1 := by
  unfold saveFile
  cases hmade : createDirAll accepts fs (schemaDir base) with
  | none => exact ⟨rfl, Untouched.refl base fs⟩
  | some made =>
    simp only [h made hmade]
    exact ⟨trivial, untouched_createDirAll hmade⟩

section Load

variable {α : Type*} {parse : String → Option α} {value : α}

theorem loadFile_of_stored (hplain : Plain fileName) (haccepts : accepts fileName = true)
    (hdirectory : fs.lookup (schemaDir base) = some .directory)
    (hfile : fs.lookup (schemaDir base ++ [fileName]) = some (.file text))
    (hparse : parse text = some value) :
    loadFile accepts base fs parse fileName = .ok (some value) := by
  unfold loadFile
  rw [entry_of_plain hplain, if_pos ⟨haccepts, hdirectory⟩, hfile]
  dsimp only
  rw [hparse]

theorem loadFile_of_absent (hplain : Plain fileName)
    (hfile : fs.lookup (schemaDir base ++ [fileName]) = none) :
    loadFile accepts base fs parse fileName = .ok none := by
  unfold loadFile
  rw [entry_of_plain hplain, hfile, ite_self]

end Load

/-! ### One call -/

/-- The value is in the file and is read back from it, or it is the default and there is no file. -/
def StoredAs {α : Type*} (accepts : String → Bool) (base : Dir) (render : α → String)
    (parse : String → Option α) (default : α) (fs : Files) (fileName : String) (value : α) : Prop :=
  (fs.lookup (schemaDir base ++ [fileName]) = none ∧ value = default) ∨
    (fs.lookup (schemaDir base ++ [fileName]) = some (.file (render value)) ∧
      accepts fileName = true ∧ parse (render value) = some value)

/-- The files of the directory are those of what is stored, and are read back. -/
structure Holds (accepts : String → Bool) (base : Dir) (json : SchemaJson) (s : DirectoryState) :
    Prop where
  specs : ∀ n, OrdinaryName n → s.files.lookup (schemaDir base ++ [specFile n]) =
    (s.stores.specs n).map fun spec ↦ .file (json.renderSpec spec)
  readable : ∀ n spec, s.stores.specs n = some spec → OrdinaryName n ∧
    accepts (specFile n) = true ∧
      ∃ back, json.parseSpec (json.renderSpec spec) = some back ∧ back.SameAs spec
  history : StoredAs accepts base json.renderHistory json.parseHistory .default s.files historyFile
    s.stores.history
  lock : StoredAs accepts base json.renderLock json.parseLock .default s.files lockFile
    s.stores.lock
  entries : ∀ name, schemaDir base ++ [name] ∈ s.files →
    (∃ n, OrdinaryName n ∧ name = specFile n) ∨ name = historyFile ∨ name = lockFile
  directory : ∀ name, schemaDir base ++ [name] ∈ s.files →
    s.files.lookup (schemaDir base) = some .directory
  noFile : s.files.lookup (schemaDir base) = none ∨
    s.files.lookup (schemaDir base) = some .directory

variable {s : DirectoryState}

theorem StoredAs.of_lookup_eq {α : Type*} {render : α → String} {parse : String → Option α}
    {default value : α}
    (h : StoredAs accepts base render parse default fs fileName value)
    (hsame : next.lookup (schemaDir base ++ [fileName]) =
      fs.lookup (schemaDir base ++ [fileName])) :
    StoredAs accepts base render parse default next fileName value := by
  unfold StoredAs
  rw [hsame]
  exact h

theorem StoredAs.load {α : Type*} {render : α → String} {parse : String → Option α}
    {default value : α} (h : StoredAs accepts base render parse default fs fileName value)
    (hplain : Plain fileName)
    (hdirectory : ∀ name, schemaDir base ++ [name] ∈ fs →
      fs.lookup (schemaDir base) = some .directory) :
    (loadFile accepts base fs parse fileName).map (fun found ↦ found.getD default) = .ok value := by
  rcases h with ⟨hnone, rfl⟩ | ⟨hfile, haccepts, hparse⟩
  · rw [loadFile_of_absent hplain hnone]
    rfl
  · have hmem : schemaDir base ++ [fileName] ∈ fs := Finmap.mem_of_lookup_eq_some hfile
    rw [loadFile_of_stored hplain haccepts (hdirectory fileName hmem) hfile hparse]
    rfl

/-- A call that changes nothing in the directory leaves what is stored. -/
theorem Holds.untouched (h : Holds accepts base json s) {files : Files}
    (huntouched : Untouched base s.files files) : Holds accepts base json { s with files } where
  specs := fun n hn ↦ by rw [huntouched.others]; exact h.specs n hn
  readable := h.readable
  history := h.history.of_lookup_eq (huntouched.others historyFile)
  lock := h.lock.of_lookup_eq (huntouched.others lockFile)
  entries := fun name hname ↦ by
    rw [← Finmap.lookup_isSome, huntouched.others, Finmap.lookup_isSome] at hname
    exact h.entries name hname
  directory := fun name hname ↦ by
    rw [← Finmap.lookup_isSome, huntouched.others, Finmap.lookup_isSome] at hname
    rcases huntouched.directory with hsame | hmade
    · rw [hsame]
      exact h.directory name hname
    · exact hmade
  noFile := by
    rcases huntouched.directory with hsame | hmade
    · rw [hsame]
      exact h.noFile
    · exact Or.inr hmade

/-- The entries of the directory after a file of it is written. -/
theorem Saved.mem (hsaved : Saved accepts base fs next fileName text) {name : String}
    (hname : schemaDir base ++ [name] ∈ next) :
    name = fileName ∨ schemaDir base ++ [name] ∈ fs := by
  by_cases heq : name = fileName
  · exact Or.inl heq
  · rw [← Finmap.lookup_isSome, hsaved.others name heq, Finmap.lookup_isSome] at hname
    exact Or.inr hname

theorem Holds.savedSpec (h : Holds accepts base json s) {files : Files} {spec : ModelSpec}
    (hname : OrdinaryName spec.modelName)
    (hsaved : Saved accepts base s.files files (specFile spec.modelName) (json.renderSpec spec))
    (hback : ∃ back, json.parseSpec (json.renderSpec spec) = some back ∧ back.SameAs spec) :
    Holds accepts base json ⟨files, s.stores.next (.saveSpec spec)⟩ where
  specs := fun n hn ↦ by
    by_cases heq : n = spec.modelName
    · rw [heq, hsaved.target]
      simp [SchemaStores.next]
    · rw [hsaved.others _ fun hfile ↦ heq (specFile_injective hfile), h.specs n hn]
      simp [SchemaStores.next, Function.update_of_ne heq]
  readable := fun n stored hstored ↦ by
    by_cases heq : n = spec.modelName
    · subst heq
      simp only [SchemaStores.next, Function.update_self, Option.some.injEq] at hstored
      subst hstored
      exact ⟨hname, hsaved.accepted, hback⟩
    · simp only [SchemaStores.next, Function.update_of_ne heq] at hstored
      exact h.readable n stored hstored
  history := h.history.of_lookup_eq (hsaved.others historyFile hname.ne_historyFile.symm)
  lock := h.lock.of_lookup_eq (hsaved.others lockFile hname.ne_lockFile.symm)
  entries := fun name hmem ↦ by
    rcases hsaved.mem hmem with rfl | hmem
    · exact Or.inl ⟨spec.modelName, hname, rfl⟩
    · exact h.entries name hmem
  directory := fun _ _ ↦ hsaved.directory
  noFile := Or.inr hsaved.directory

theorem Holds.savedHistory (h : Holds accepts base json s) {files : Files}
    {history : SchemaHistoryData}
    (hsaved : Saved accepts base s.files files historyFile (json.renderHistory history))
    (hback : json.parseHistory (json.renderHistory history) = some history) :
    Holds accepts base json ⟨files, { s.stores with history }⟩ where
  specs := fun n hn ↦ by
    rw [hsaved.others _ hn.ne_historyFile]
    exact h.specs n hn
  readable := h.readable
  history := Or.inr ⟨hsaved.target, hsaved.accepted, hback⟩
  lock := h.lock.of_lookup_eq (hsaved.others lockFile (by decide))
  entries := fun name hmem ↦ by
    rcases hsaved.mem hmem with rfl | hmem
    · exact Or.inr (Or.inl rfl)
    · exact h.entries name hmem
  directory := fun _ _ ↦ hsaved.directory
  noFile := Or.inr hsaved.directory

theorem Holds.savedLock (h : Holds accepts base json s) {files : Files} {lock : SchemaLockStatus}
    (hsaved : Saved accepts base s.files files lockFile (json.renderLock lock))
    (hback : json.parseLock (json.renderLock lock) = some lock) :
    Holds accepts base json ⟨files, { s.stores with lock }⟩ where
  specs := fun n hn ↦ by
    rw [hsaved.others _ hn.ne_lockFile]
    exact h.specs n hn
  readable := h.readable
  history := h.history.of_lookup_eq (hsaved.others historyFile (by decide))
  lock := Or.inr ⟨hsaved.target, hsaved.accepted, hback⟩
  entries := fun name hmem ↦ by
    rcases hsaved.mem hmem with rfl | hmem
    · exact Or.inr (Or.inr rfl)
    · exact h.entries name hmem
  directory := fun _ _ ↦ hsaved.directory
  noFile := Or.inr hsaved.directory

/-- What is stored for a model is found. -/
theorem Holds.entry_of_spec (h : Holds accepts base json s) {spec : ModelSpec}
    (hspec : s.stores.specs modelName = some spec) :
    entry accepts s.files (schemaDir base) (specFile modelName) =
      some (.file (json.renderSpec spec)) := by
  obtain ⟨hordinary, haccepts, -⟩ := h.readable modelName spec hspec
  have hfile := h.specs modelName hordinary
  rw [hspec, Option.map_some] at hfile
  rw [entry_of_plain hordinary.plain, if_pos, hfile]
  exact ⟨haccepts, h.directory _ (Finmap.mem_of_lookup_eq_some hfile)⟩

theorem Holds.deleted (h : Holds accepts base json s)
    (hname : OrdinaryName modelName ∨
      entry accepts s.files (schemaDir base) (specFile modelName) = none) :
    (deleteSchemaSpec accepts base s.files modelName).2 = true ∧
      Holds accepts base json ⟨(deleteSchemaSpec accepts base s.files modelName).1,
        s.stores.next (.deleteSpec modelName)⟩ ∧
      ∀ place, ¬ schemaDir base <+: place →
        (deleteSchemaSpec accepts base s.files modelName).1.lookup place =
          s.files.lookup place := by
  unfold deleteSchemaSpec
  cases hentry : entry accepts s.files (schemaDir base) (specFile modelName) with
  | none =>
    have hnone : s.stores.specs modelName = none := by
      by_contra hsome
      obtain ⟨spec, hspec⟩ := Option.ne_none_iff_exists'.mp hsome
      exact absurd (hentry.symm.trans (h.entry_of_spec hspec)) (Option.some_ne_none _).symm
    have hupdate : Function.update s.stores.specs modelName none = s.stores.specs := by
      rw [← hnone, Function.update_eq_self]
    have hsame : s.stores.next (.deleteSpec modelName) = s.stores := by
      simp only [SchemaStores.next, hupdate]
    rw [hsame]
    exact ⟨rfl, h, fun _ _ ↦ rfl⟩
  | some found =>
    have hordinary : OrdinaryName modelName :=
      hname.resolve_right (hentry ▸ Option.some_ne_none found)
    rw [entry_of_plain hordinary.plain] at hentry
    split_ifs at hentry with hreached
    have hspec := h.specs modelName hordinary
    rw [hentry] at hspec
    obtain ⟨spec, -, rfl⟩ := Option.map_eq_some_iff.mp hspec.symm
    rw [removeFile_of_plain hordinary.plain hreached.1 hreached.2 hentry]
    have hothers : ∀ name, name ≠ specFile modelName →
        (s.files.erase (schemaDir base ++ [specFile modelName])).lookup
          (schemaDir base ++ [name]) = s.files.lookup (schemaDir base ++ [name]) :=
      fun name hne ↦ Finmap.lookup_erase_ne fun heq ↦
        hne (List.singleton_inj.mp (List.append_cancel_left heq))
    have hdirectory : (s.files.erase (schemaDir base ++ [specFile modelName])).lookup
        (schemaDir base) = some .directory := by
      rw [Finmap.lookup_erase_ne (ne_append _ _), hreached.2]
    have hmem : ∀ name, schemaDir base ++ [name] ∈
        s.files.erase (schemaDir base ++ [specFile modelName]) →
          schemaDir base ++ [name] ∈ s.files := fun name hname ↦ (Finmap.mem_erase.mp hname).2
    refine ⟨rfl, ⟨?_, ?_, ?_, ?_, ?_, fun _ _ ↦ hdirectory, Or.inr hdirectory⟩, ?_⟩
    · intro n hn
      by_cases heq : n = modelName
      · subst heq
        simp [SchemaStores.next, Finmap.lookup_erase]
      · rw [hothers _ fun hfile ↦ heq (specFile_injective hfile), h.specs n hn]
        simp [SchemaStores.next, Function.update_of_ne heq]
    · intro n stored hstored
      by_cases heq : n = modelName
      · subst heq
        simp [SchemaStores.next] at hstored
      · simp only [SchemaStores.next, Function.update_of_ne heq] at hstored
        exact h.readable n stored hstored
    · exact h.history.of_lookup_eq (hothers historyFile hordinary.ne_historyFile.symm)
    · exact h.lock.of_lookup_eq (hothers lockFile hordinary.ne_lockFile.symm)
    · exact fun name hname ↦ h.entries name (hmem name hname)
    · intro place hplace
      exact Finmap.lookup_erase_ne fun heq ↦ hplace (heq ▸ List.prefix_append _ _)

/-- A call that is done or fails. -/
theorem DirectoryState.step_of_done {call : DirectoryCall} {files : Files} {ok : Bool}
    (h : directoryCall accepts base json s.files call = (files, .done ok)) :
    s.step accepts base json call =
      some (if ok then ⟨files, s.stores.next call⟩ else { s with files }) := by
  unfold DirectoryState.step
  rw [h]
  cases ok with
  | true => rfl
  | false => rfl

theorem Holds.loadHistory (h : Holds accepts base json s) :
    loadSchemaHistory accepts base json s.files = .ok s.stores.history :=
  h.history.load plain_historyFile h.directory

/-- What a call keeps. -/
structure StepKeeps (accepts : String → Bool) (base : Dir) (json : SchemaJson)
    (s next : DirectoryState) : Prop where
  holds : Holds accepts base json next
  within : ∀ place, ¬ schemaDir base <+: place → ¬ place <+: schemaDir base →
    next.files.lookup place = s.files.lookup place

/-- A write of a file that is read back. -/
theorem stepKeeps_of_saveFile (call : DirectoryCall) {next : DirectoryState}
    (h : Holds accepts base json s)
    (hcall : directoryCall accepts base json s.files call =
      ((saveFile accepts base s.files fileName text).1,
        .done (saveFile accepts base s.files fileName text).2))
    (hplain : Plain fileName)
    (hsaved : ∀ files, Saved accepts base s.files files fileName text →
      Holds accepts base json ⟨files, s.stores.next call⟩)
    (hstep : s.step accepts base json call = some next) :
    StepKeeps accepts base json s next := by
  rw [DirectoryState.step_of_done hcall] at hstep
  obtain rfl := Option.some.inj hstep
  rcases saveFile_cases hplain with ⟨hok, hwritten⟩ | ⟨hok, huntouched⟩
  · rw [hok]
    exact ⟨hsaved _ hwritten, hwritten.within⟩
  · rw [hok]
    exact ⟨h.untouched huntouched, huntouched.within⟩

theorem stepKeeps {call : DirectoryCall} {next : DirectoryState} (h : Holds accepts base json s)
    (hordinary : Ordinary accepts base json s call) (hback : ReadsBack json s call)
    (hstep : s.step accepts base json call = some next) :
    StepKeeps accepts base json s next := by
  cases call with
  | saveSpec spec =>
    rcases hordinary with hname | hrefused
    · exact stepKeeps_of_saveFile (.saveSpec spec) h rfl hname.plain
        (fun files hsaved ↦ h.savedSpec hname hsaved hback) hstep
    · obtain ⟨hok, huntouched⟩ := saveFile_of_refused hrefused
      have hcall : directoryCall accepts base json s.files (.saveSpec spec) =
          ((saveSchemaSpec accepts base json s.files spec).1,
            .done (saveSchemaSpec accepts base json s.files spec).2) := rfl
      rw [DirectoryState.step_of_done hcall, saveSchemaSpec, hok] at hstep
      obtain rfl := Option.some.inj hstep
      exact ⟨h.untouched huntouched, huntouched.within⟩
  | saveHistory history =>
    exact stepKeeps_of_saveFile (.saveHistory history) h rfl plain_historyFile
      (fun files hsaved ↦ h.savedHistory hsaved hback) hstep
  | appendHistory change =>
    refine stepKeeps_of_saveFile (.appendHistory change) h ?_ plain_historyFile
      (fun files hsaved ↦ h.savedHistory hsaved hback) hstep
    simp only [directoryCall, appendSchemaHistory, h.loadHistory]
    rfl
  | saveLock lock =>
    exact stepKeeps_of_saveFile (.saveLock lock) h rfl plain_lockFile
      (fun files hsaved ↦ h.savedLock hsaved hback) hstep
  | deleteSpec modelName =>
    obtain ⟨hok, hdeleted, hwithin⟩ := h.deleted hordinary
    have hcall : directoryCall accepts base json s.files (.deleteSpec modelName) =
        ((deleteSchemaSpec accepts base s.files modelName).1,
          .done (deleteSchemaSpec accepts base s.files modelName).2) := rfl
    rw [DirectoryState.step_of_done hcall, hok] at hstep
    obtain rfl := Option.some.inj hstep
    exact ⟨hdeleted, fun place hplace _ ↦ hwithin place hplace⟩
  | loadSpec modelName | listSchemas order | loadHistory | loadLock =>
    obtain rfl := Option.some.inj hstep
    exact ⟨h, fun _ _ _ ↦ rfl⟩

/-- The stems of the files of the directory are the names of what is stored. -/
theorem Holds.list (h : Holds accepts base json s) {order : List String}
    (horder : IsListing s.files (schemaDir base) order)
    (hhistory : schemaDir base ++ [historyFile] ∉ s.files)
    (hlock : schemaDir base ++ [lockFile] ∉ s.files) :
    ∃ names, listStoredSchemas base s.files order = .ok names ∧ names.Nodup ∧
      ∀ name, name ∈ names ↔ (s.stores.specs name).isSome = true := by
  have hspec : ∀ n, (s.stores.specs n).isSome = true ↔
      OrdinaryName n ∧ schemaDir base ++ [specFile n] ∈ s.files := by
    intro n
    constructor
    · intro hsome
      obtain ⟨spec, hspec⟩ := Option.isSome_iff_exists.mp hsome
      obtain ⟨hordinary, -, -⟩ := h.readable n spec hspec
      refine ⟨hordinary, Finmap.lookup_isSome.mp ?_⟩
      rw [h.specs n hordinary, Option.isSome_map]
      exact hsome
    · rintro ⟨hordinary, hmem⟩
      rw [← Finmap.lookup_isSome, h.specs n hordinary, Option.isSome_map] at hmem
      exact hmem
  unfold listStoredSchemas
  rcases h.noFile with hnone | hdirectory
  · rw [hnone]
    refine ⟨[], rfl, List.nodup_nil, fun n ↦ ?_⟩
    rw [hspec]
    refine iff_of_false List.not_mem_nil fun hmem ↦ ?_
    exact absurd (hnone.symm.trans (h.directory _ hmem.2)) (Option.some_ne_none _).symm
  · rw [hdirectory]
    refine ⟨_, rfl, horder.1.filterMap ?_, fun n ↦ ?_⟩
    · intro first second stem hfirst hsecond
      rw [(jsonStem_eq_some_iff.mp hfirst).2, (jsonStem_eq_some_iff.mp hsecond).2]
    · rw [List.mem_filterMap, hspec]
      constructor
      · rintro ⟨fileName, hmem, hstem⟩
        obtain ⟨-, rfl⟩ := jsonStem_eq_some_iff.mp hstem
        have hentry := (horder.2 _).mp hmem
        rcases h.entries _ hentry with ⟨other, hordinary, hsame⟩ | hfile | hfile
        · exact ⟨specFile_injective hsame ▸ hordinary, hentry⟩
        · exact absurd (hfile ▸ hentry) hhistory
        · exact absurd (hfile ▸ hentry) hlock
      · rintro ⟨hordinary, hmem⟩
        exact ⟨specFile n, (horder.2 _).mpr hmem,
          jsonStem_eq_some_iff.mpr ⟨hordinary.nonempty, rfl⟩⟩

/-- Calls with ordinary names are answered as the stores have it. -/
theorem answeredRight {call : DirectoryCall} (h : Holds accepts base json s)
    (hordinary : Ordinary accepts base json s call) : AnsweredRight accepts base json s call := by
  intro horder
  cases call with
  | loadSpec modelName =>
    change ∃ found, DirectoryAnswer.spec _ = .spec (.ok found) ∧ _
    cases hspec : s.stores.specs modelName with
    | some spec =>
      obtain ⟨-, -, back, hparse, hsame⟩ := h.readable modelName spec hspec
      refine ⟨some back, ?_, Option.Rel.some hsame⟩
      rw [loadSchemaSpec, loadFile, h.entry_of_spec hspec]
      dsimp only
      rw [hparse]
    | none =>
      have hentry : entry accepts s.files (schemaDir base) (specFile modelName) = none := by
        rcases hordinary with hname | hnone
        · have hfile := h.specs modelName hname
          rw [hspec, Option.map_none] at hfile
          rw [entry_of_plain hname.plain, hfile, ite_self]
        · exact hnone
      refine ⟨none, ?_, Option.Rel.none⟩
      rw [loadSchemaSpec, loadFile, hentry]
  | listSchemas order =>
    obtain ⟨names, hnames, hnodup, hmem⟩ :=
      h.list (horder order rfl) hordinary.1 hordinary.2
    exact ⟨names, congrArg DirectoryAnswer.names hnames, hnodup, hmem⟩
  | loadHistory => exact congrArg DirectoryAnswer.history h.loadHistory
  | loadLock =>
    exact congrArg DirectoryAnswer.lock (h.lock.load plain_lockFile h.directory)
  | saveSpec spec | deleteSpec modelName | saveHistory history | appendHistory change
  | saveLock lock => trivial

/-! ### Runs -/

/-- Before the first call there is no directory. -/
def Fresh (base : Dir) (fs : Files) : Prop := ∀ place, schemaDir base <+: place → place ∉ fs

theorem holds_fresh (h : Fresh base fs) : Holds accepts base json ⟨fs, .empty⟩ := by
  have hnone : ∀ place, schemaDir base <+: place → fs.lookup place = none :=
    fun place hplace ↦ Finmap.lookup_eq_none.mpr (h place hplace)
  have hentry : ∀ name, schemaDir base ++ [name] ∉ fs :=
    fun name ↦ h _ (List.prefix_append _ _)
  refine ⟨?_, ?_, ?_, ?_, ?_, ?_, Or.inl (hnone _ List.prefix_rfl)⟩
  · exact fun n _ ↦ hnone _ (List.prefix_append _ _)
  · exact fun n spec hspec ↦ absurd hspec (Option.some_ne_none spec).symm
  · exact Or.inl ⟨hnone _ (List.prefix_append _ _), rfl⟩
  · exact Or.inl ⟨hnone _ (List.prefix_append _ _), rfl⟩
  · exact fun name hname ↦ absurd hname (hentry name)
  · exact fun name hname ↦ absurd hname (hentry name)

/-- In every run with ordinary names, in which what is written is read back, every call is answered
as the stores have it, and nothing changes outside of the directory. -/
theorem storesIndependent_of_ordinary (hfresh : Fresh base fs) {calls : List DirectoryCall}
    (hordinary : EachStep (DirectoryState.step accepts base json) (Ordinary accepts base json)
      ⟨fs, .empty⟩ calls)
    (hback : EachStep (DirectoryState.step accepts base json) (ReadsBack json) ⟨fs, .empty⟩
      calls) :
    EachStep (DirectoryState.step accepts base json) (AnsweredRight accepts base json)
        ⟨fs, .empty⟩ calls ∧
      Always (DirectoryState.step accepts base json) (StaysWithin base fs) ⟨fs, .empty⟩ calls := by
  have hkept : ∀ s call next, (Holds accepts base json s ∧ StaysWithin base fs s) →
      (Ordinary accepts base json s call ∧ ReadsBack json s call) →
        s.step accepts base json call = some next →
          Holds accepts base json next ∧ StaysWithin base fs next := by
    rintro s call next ⟨hs, hwithin⟩ ⟨hordinary, hback⟩ hstep
    obtain ⟨hholds, hsame⟩ := stepKeeps hs hordinary hback hstep
    exact ⟨hholds, fun place hbelow habove ↦
      (hsame place hbelow habove).trans (hwithin place hbelow habove)⟩
  have hstart : Holds accepts base json ⟨fs, .empty⟩ ∧ StaysWithin base fs ⟨fs, .empty⟩ :=
    ⟨holds_fresh hfresh, fun _ _ _ ↦ rfl⟩
  constructor
  · exact EachStep.imp hkept (fun s call next hs hC _ ↦ answeredRight hs.1 hC.1) hstart
      (hordinary.and hback)
  · exact Always.mono (fun s hs ↦ hs.2) (EachStep.always hkept hstart (hordinary.and hback))

end Runs

section Product

def productSpec : ModelSpec := ⟨"Product", 1, ∅, [], []⟩

def productText : String :=
  "\x7b\n  \"model_name\": \"Product\",\n  \"version\": 1,\n  \"fields\": \x7b\x7d,\n" ++
    "  \"indexes\": [],\n  \"foreign_keys\": []\n\x7d"

def lockText : String :=
  "\x7b\n  \"locked\": false,\n  \"reason\": null,\n  \"unlock_expires_at\": null,\n" ++
    "  \"unlocked_by\": null,\n  \"unlocked_at\": null\n\x7d"

def historyText : String :=
  "\x7b\n  \"changes\": [],\n  \"lock_status\": \x7b\n    \"locked\": false,\n" ++
    "    \"reason\": null,\n    \"unlock_expires_at\": null,\n    \"unlocked_by\": null,\n" ++
    "    \"unlocked_at\": null\n  \x7d\n\x7d"

/-- The texts of the one model, of the lock at first and of an empty history. -/
def productJson : SchemaJson where
  renderSpec _ := productText
  parseSpec text := if text = productText then some productSpec else none
  renderHistory _ := historyText
  parseHistory text := if text = historyText then some .default else none
  renderLock _ := lockText
  parseLock text := if text = lockText then some .default else none

/-- A file system that takes every name. -/
def anyName (_ : String) : Bool := true

theorem productJson_parseSpec (spec : ModelSpec) :
    productJson.parseSpec (productJson.renderSpec spec) = some productSpec := by
  simp only [productJson, if_true]

theorem productJson_parseHistory (history : SchemaHistoryData) :
    productJson.parseHistory (productJson.renderHistory history) = some .default := by
  simp only [productJson, if_true]

theorem productJson_parseLock (lock : SchemaLockStatus) :
    productJson.parseLock (productJson.renderLock lock) = some .default := by
  simp only [productJson, if_true]

theorem ordinaryName_product : OrdinaryName "Product" :=
  ⟨by decide, by decide, by decide, by decide⟩

theorem storesIndependent_of_product :
    EachStep (DirectoryState.step anyName ["data"] productJson)
        (AnsweredRight anyName ["data"] productJson) ⟨∅, .empty⟩
        [.listSchemas [], .saveSpec productSpec, .loadSpec "Product", .saveLock .default,
          .saveHistory .default, .loadHistory, .loadLock, .deleteSpec "Product"] ∧
      Always (DirectoryState.step anyName ["data"] productJson) (StaysWithin ["data"] ∅)
        ⟨∅, .empty⟩
        [.listSchemas [], .saveSpec productSpec, .loadSpec "Product", .saveLock .default,
          .saveHistory .default, .loadHistory, .loadLock, .deleteSpec "Product"] := by
  refine storesIndependent_of_ordinary (fun _ _ ↦ Finmap.notMem_empty) ?_ ?_
  · intro next hnext
    refine ⟨⟨Finmap.notMem_empty, Finmap.notMem_empty⟩, eachStep_of_forall ?_ next⟩
    intro call hcall s
    simp only [List.mem_cons, List.not_mem_nil, or_false] at hcall
    rcases hcall with rfl | rfl | rfl | rfl | rfl | rfl | rfl
    · exact Or.inl ordinaryName_product
    · exact Or.inl ordinaryName_product
    · trivial
    · trivial
    · trivial
    · trivial
    · exact Or.inl ordinaryName_product
  · refine eachStep_of_forall ?_ _
    intro call hcall s
    simp only [List.mem_cons, List.not_mem_nil, or_false] at hcall
    rcases hcall with rfl | rfl | rfl | rfl | rfl | rfl | rfl | rfl
    · trivial
    · exact ⟨productSpec, productJson_parseSpec productSpec, ⟨rfl, rfl, fun _ ↦ rfl, rfl, rfl⟩⟩
    · trivial
    · exact productJson_parseLock .default
    · exact productJson_parseHistory .default
    · trivial
    · trivial
    · trivial

theorem saved_lock :
    Saved anyName ["data"] ∅ (saveFile anyName ["data"] ∅ lockFile lockText).1 lockFile
      lockText := by
  rcases saveFile_cases plain_lockFile with ⟨-, hsaved⟩ | ⟨hfailed, -⟩
  · exact hsaved
  · exact absurd hfailed (by decide)

/-- The file of the lock is listed as one of a model. -/
theorem lock_listed :
    ¬ EachStep (DirectoryState.step anyName ["data"] productJson)
      (AnsweredRight anyName ["data"] productJson) ⟨∅, .empty⟩
      [.saveLock .default, .listSchemas ["schema_lock.json"]] := by
  intro h
  have hok : (saveFile anyName ["data"] ∅ lockFile lockText).2 = true := by decide
  have hcall : directoryCall anyName ["data"] productJson ∅ (.saveLock .default) =
      ((saveFile anyName ["data"] ∅ lockFile lockText).1, .done true) := by
    rw [← hok]
    rfl
  obtain ⟨-, hlist⟩ := h _ (DirectoryState.step_of_done hcall)
  obtain ⟨hanswered, -⟩ := hlist _ rfl
  have hlisting : IsListing (saveFile anyName ["data"] ∅ lockFile lockText).1
      (schemaDir ["data"]) [lockFile] := by
    refine ⟨List.nodup_singleton _, fun name ↦ ?_⟩
    rw [List.mem_singleton]
    constructor
    · rintro rfl
      exact Finmap.mem_of_lookup_eq_some saved_lock.target
    · intro hmem
      exact (saved_lock.mem hmem).resolve_right Finmap.notMem_empty
  obtain ⟨names, hnames, -, hmem⟩ := hanswered fun order horder ↦
    DirectoryCall.listSchemas.inj horder ▸ hlisting
  have hstored : listStoredSchemas ["data"] (saveFile anyName ["data"] ∅ lockFile lockText).1
      [lockFile] = .ok ["schema_lock"] := by
    unfold listStoredSchemas
    rw [saved_lock.directory]
    rfl
  obtain rfl := Except.ok.inj (hstored.symm.trans (DirectoryAnswer.names.inj hnames))
  exact absurd ((hmem "schema_lock").mp (List.mem_singleton.mpr rfl)) (by decide)

end Product

end Lithair.Schema
