import Lithair.App.InstallSnapshot
import Lithair.App.WritePath

/-!
# Snapshots for desynced followers

The leader's write path with the storages it writes to, beside the part of the background task of
`app/mod.rs` that creates snapshots: it loads the commit index, later reads the models one after the
other (`create_snapshot_from_models`), and hands what it has read to the snapshot manager under the
index it loaded. It holds neither the apply mutex nor anything else that keeps the handlers from
committing and applying in between, and a commit comes before the entry is applied.

`exact_of_readsCut`: in every run in which each reading of a model finds exactly the entries up to
the loaded index applied to that model, every snapshot contains exactly the effects of the log
entries up to its index.
-/

namespace Lithair.App

open Lithair.Cluster Lithair.Http Lithair.Lib Lithair.Lib.OrderedList Lithair.Lib.Run

/-! ### Only indices that were given out are committed -/

namespace Leader

section BelowNext

variable {Op : Type*} {peers : ℕ} {s next : Leader Op}

/-- An entry in the log, or one that a handler is about to insert. -/
def Known (s : Leader Op) (e : LogEntry Op) : Prop :=
  e ∈ s.log.entries ∨ ∃ i, s.handlers i = some ⟨e, .allocated⟩

/-- The commit index, and what the replications have returned, is below the next index. -/
structure BelowNext (s : Leader Op) : Prop where
  commit : s.log.commitIndex < s.log.nextIndex
  replicated : ∀ i entry sent wal c,
    s.handlers i = some ⟨entry, .joining ⟨sent, wal, some (.ok c)⟩⟩ → c < s.log.nextIndex

theorem belowNext_start (term : ℕ) : BelowNext (start term : Leader Op) where
  commit := Nat.one_pos
  replicated := fun _ _ _ _ _ h ↦ absurd h (by simp [start])

theorem BelowNext.update (h : BelowNext s) {i : ℕ} {new : Option (WriteHandler Op)}
    (hcommit : next.log.commitIndex = s.log.commitIndex)
    (hnext : s.log.nextIndex ≤ next.log.nextIndex)
    (hhandlers : next.handlers = Function.update s.handlers i new)
    (hnew : ∀ entry sent wal c, new = some ⟨entry, .joining ⟨sent, wal, some (.ok c)⟩⟩ →
      c < s.log.nextIndex) : BelowNext next where
  commit := hcommit ▸ h.commit.trans_le hnext
  replicated := by
    intro j entry sent wal c hj
    rw [hhandlers] at hj
    rcases update_eq_some_iff.mp hj with ⟨-, heq⟩ | ⟨-, hold⟩
    · exact (hnew entry sent wal c heq).trans_le hnext
    · exact (h.replicated j entry sent wal c hold).trans_le hnext

/-- A handler whose replication has returned nothing but indices below the next one. -/
theorem BelowNext.update_joining (h : BelowNext s) {i : ℕ} {entry : LogEntry Op}
    {joining : Joining Op} (hcommit : next.log.commitIndex = s.log.commitIndex)
    (hnext : s.log.nextIndex ≤ next.log.nextIndex)
    (hhandlers : next.handlers = Function.update s.handlers i (some ⟨entry, .joining joining⟩))
    (hnew : ∀ c, joining.replication = some (.ok c) → c < s.log.nextIndex) : BelowNext next := by
  refine h.update hcommit hnext hhandlers ?_
  intro _ _ _ c heq
  simp only [Option.some.injEq, WriteHandler.mk.injEq, WriteStage.joining.injEq] at heq
  exact hnew c (by rw [heq.2])

theorem lastIndexOr_lt {entries : List (LogEntry Op)} {i n : ℕ} (hi : i < n)
    (h : ∀ e ∈ entries, e.index < n) : lastIndexOr entries i < n := by
  unfold lastIndexOr
  cases hlast : entries.getLast? with
  | none => exact hi
  | some e => exact h e (List.mem_of_getLast? hlast)

theorem belowNext_step {a : LeaderAction Op} (hinv : Inv s) (h : BelowNext s)
    (hnext : step peers s a = some next) : BelowNext next := by
  cases a with
  | accept operation timestampMs =>
    obtain rfl := step_accept hnext
    exact h.update rfl (Nat.le_succ _) rfl (by simp)
  | insertEntry i =>
    obtain ⟨entry, -, rfl⟩ := step_insertEntry hnext
    exact h.update rfl le_rfl rfl (by simp)
  | queueEntry i =>
    obtain ⟨entry, -, rfl⟩ := step_queueEntry hnext
    exact h.update rfl le_rfl rfl (by simp)
  | readEntries i =>
    obtain ⟨entry, wal, hi, rfl⟩ := step_readEntries hnext
    refine h.update_joining rfl le_rfl rfl fun c hreplication ↦ ?_
    simp only at hreplication
    split_ifs at hreplication
    obtain rfl := Except.ok.inj (Option.some.inj hreplication)
    exact (hinv.handlers i _ hi).lt_next
  | walDone i ok =>
    obtain ⟨entry, sent, replication, hi, rfl⟩ := step_walDone hnext
    refine h.update_joining rfl le_rfl rfl fun c hreplication ↦ ?_
    obtain rfl : replication = some (.ok c) := hreplication
    exact h.replicated i _ _ _ c hi
  | replicationDone i successCount =>
    obtain ⟨entry, entries, wal, hi, -, rfl⟩ := step_replicationDone hnext
    refine h.update_joining rfl le_rfl rfl fun c hreplication ↦ ?_
    have hlt : i < s.log.nextIndex := (hinv.handlers i _ hi).lt_next
    have hstage : StageOk s entry (.joining ⟨some entries, wal, none⟩) :=
      (hinv.handlers i _ hi).stage
    have hentries : ∀ e ∈ entries, e.index < s.log.nextIndex :=
      fun e he ↦ hinv.lt_next e (hstage.2.2.held entries rfl e he)
    rcases (replicateLogEntriesToFollowers_eq_ok (Option.some.inj hreplication)).2 with rfl | rfl
    · exact hlt
    · exact lastIndexOr_lt hlt hentries
  | join i =>
    rcases step_join hnext with ⟨_, -, -, rfl⟩ | ⟨entry, sent, c, hi, rfl⟩
    · exact h.update rfl le_rfl rfl (by simp)
    · have hc := h.replicated i _ _ _ c hi
      have hstaged : BelowNext (s.setStage i entry .committed) :=
        h.update rfl le_rfl rfl (by simp)
      exact ⟨max_lt h.commit hc, hstaged.replicated⟩
  | commitTimeout i =>
    obtain ⟨entry, -, -, rfl⟩ := step_commitTimeout hnext
    exact h.update rfl le_rfl rfl (by simp)
  | lockApply i =>
    obtain ⟨entry, -, -, rfl⟩ := step_lockApply hnext
    exact h.update rfl le_rfl rfl (by simp)
  | applyOperation i ok =>
    obtain ⟨entry, -, rfl⟩ := step_applyOperation hnext
    split_ifs
    · exact h.update rfl le_rfl rfl (by simp)
    · exact h.update rfl le_rfl rfl (by simp)
  | markApplied i =>
    obtain ⟨entry, -, rfl⟩ := step_markApplied hnext
    exact h.update rfl le_rfl rfl (by simp)
  | drop i =>
    obtain ⟨handler, -, rfl⟩ := step_drop hnext
    exact h.update rfl le_rfl rfl (by simp)

end BelowNext

end Leader

/-! ### The leader with its models and the background task -/

/-- Where the background task is between two ticks: nowhere, with the term and the commit index
loaded, or in the middle of reading the models. -/
inductive ResyncTask
  | idle
  | loaded (term commitIndex : ℕ)
  | collecting (term commitIndex done : ℕ) (data : SnapshotData)

/-- The leader, the states of its models, its snapshot manager, the background task, and all
snapshots that were created. -/
structure ResyncSystem (models : List ModelRegistration) where
  leader : Leader CrudOperation
  states : ModelStates models
  manager : SnapshotManager
  task : ResyncTask
  created : List (SnapshotMeta × SnapshotData)

/-- A step of a write handler, or one of the background task. Whether there are followers to send a
snapshot to is left to the environment, and so is the order in which a map goes through its keys. -/
inductive ResyncAction
  | write (action : LeaderAction CrudOperation) (env : Environment)
  | loadCommit
  | skip
  | beginSnapshot
  | readModel (order : List String)
  | create (now : ℕ) (disk : DiskOutcome)

namespace ResyncSystem

variable {models : List ModelRegistration} (peers : ℕ) (sha256 : List UInt8 → String)
  (codec : SnapshotCodec) (listText : List Json → String)

/-- The order lists the keys of the storage, each once. -/
def ListsKeys {T : Type} (storage : Storage T) (order : List String) : Prop :=
  order.Nodup ∧ order.toFinset = storage.keys

instance {T : Type} (storage : Storage T) (order : List String) :
    Decidable (ListsKeys storage order) :=
  inferInstanceAs (Decidable (_ ∧ _))

/-- The leader before its first write. -/
def start (term : ℕ) (initial : ModelStates models) (manager : SnapshotManager) :
    ResyncSystem models where
  leader := .start term
  states := initial
  manager := manager
  task := .idle
  created := []

/-- What applying an entry makes of the models, provided that it ends as said. -/
def applyEntry (states : ModelStates models) (entry : LogEntry CrudOperation) (ok : Bool)
    (env : Environment) : Option (ModelStates models) :=
  match applyCrudOperation sha256 states entry.operation env with
  | some (.ok next) => if ok then some next else none
  | some (.error _) => if ok then none else some states
  | none => some states

def step (s : ResyncSystem models) : ResyncAction → Option (ResyncSystem models)
  | .write (.applyOperation i ok) env =>
    match Leader.step peers s.leader (.applyOperation i ok), s.leader.handlers i with
    | some leader, some handler =>
      (applyEntry sha256 s.states handler.entry ok env).map fun states ↦ { s with leader, states }
    | _, _ => none
  | .write action _ =>
    (Leader.step peers s.leader action).map fun leader ↦ { s with leader }
  | .loadCommit =>
    match s.task with
    | .idle => some { s with task := .loaded s.leader.log.currentTerm s.leader.log.commitIndex }
    | _ => none
  | .skip =>
    match s.task with
    | .loaded _ _ => some { s with task := .idle }
    | _ => none
  | .beginSnapshot =>
    match s.task with
    | .loaded term commitIndex => some { s with task := .collecting term commitIndex 0 .new }
    | _ => none
  | .readModel order =>
    match s.task with
    | .collecting term commitIndex done data =>
      if h : done < models.length then
        if ListsKeys (s.states ⟨done, h⟩).storage order then
          some { s with
            task := .collecting term commitIndex (done + 1)
              (data.addModel listText (models.get ⟨done, h⟩).basePath
                (ModelHandler.getAllDataJson (models.get ⟨done, h⟩).model (s.states ⟨done, h⟩)
                  order)) }
        else none
      else none
    | _ => none
  | .create now disk =>
    match s.task with
    | .collecting term commitIndex done data =>
      if done = models.length then
        match s.manager.createSnapshot codec term commitIndex data now disk with
        | (manager, .ok info) =>
          some { s with manager, task := .idle, created := s.created ++ [(info, data)] }
        | (manager, .error _) => some { s with manager, task := .idle }
      else none
    | _ => none

/-! ### What a snapshot is to contain -/

/-- The text is that of a list of the values of all items in the storage. -/
def TextOf (i : Fin models.length) (storage : Storage (models.get i).Item) (text : String) :
    Prop :=
  ∃ order values, ListsKeys storage order ∧
    (order.filterMap storage.lookup).map (models.get i).model.toValue = values.map some ∧
      text = listText values

/-- The entries of the log up to an index. -/
def upTo (leader : Leader CrudOperation) (c : ℕ) : List (LogEntry CrudOperation) :=
  leader.log.entries.filter fun e ↦ e.index ≤ c

/-- The snapshot has one text for each model, which lists what the log entries up to the snapshot's
index make of the model's initial storage. -/
def ContainsExactly (initial : ModelStates models) (leader : Leader CrudOperation)
    (snapshot : SnapshotMeta × SnapshotData) : Prop :=
  ∃ texts : Fin models.length → String,
    snapshot.2.models = (List.finRange models.length).map
      (fun i ↦ ((models.get i).basePath, texts i)) ∧
    ∀ i, TextOf listText i
      (effects i (upTo leader snapshot.1.lastIncludedIndex) (initial i).storage) (texts i)

/-- Every snapshot created so far contains exactly the effects of the entries up to its index. -/
def SnapshotsExact (initial : ModelStates models) (s : ResyncSystem models) : Prop :=
  ∀ snapshot ∈ s.created, ContainsExactly listText initial s.leader snapshot

/-- A reading of a model that makes a cut at index `c`: of the entries for this model that are in
the log or about to be inserted, those up to `c` are applied and no others; the model's path is its
own, and all its items have values. -/
structure ReadsCut (s : ResyncSystem models) (c : ℕ) (i : Fin models.length) : Prop where
  cut : ∀ e, s.leader.Known e → targetModel models e.operation = some i →
    (e ∈ s.leader.applied ↔ e.index ≤ c)
  path : ∀ j, (models.get j).basePath = (models.get i).basePath → j = i
  values : ∀ key item, (s.states i).storage.lookup key = some item →
    ((models.get i).model.toValue item).isSome

/-- The condition on a step: a model is read only when that makes a cut at the loaded index. -/
def ReadsAtCut (s : ResyncSystem models) : ResyncAction → Prop
  | .readModel _ =>
    ∀ term c done data, s.task = .collecting term c done data →
      ∀ h : done < models.length, ReadsCut s c ⟨done, h⟩
  | _ => True

/-! ### A cut that stays one -/

/-- The entry changes the model and has an index up to `c`. -/
def changesUpTo (i : Fin models.length) (c : ℕ) (e : LogEntry CrudOperation) : Bool :=
  targetModel models e.operation = some i && e.index ≤ c

/-- The text lists what the entries up to `c` make of the model, and no entry up to `c` that changes
the model is still to come. -/
structure CutText (initial : ModelStates models) (leader : Leader CrudOperation) (c : ℕ)
    (i : Fin models.length) (text : String) : Prop where
  text : TextOf listText i (effects i (upTo leader c) (initial i).storage) text
  given : c < leader.log.nextIndex
  pending : ∀ j e, leader.handlers j = some ⟨e, .allocated⟩ →
    targetModel models e.operation = some i → c < e.index

/-- The data has the texts of the first `done` models, each of them a cut at `c`. -/
def CutModels (initial : ModelStates models) (leader : Leader CrudOperation) (c done : ℕ)
    (data : SnapshotData) : Prop :=
  ∃ texts : Fin models.length → String,
    data.models = ((List.finRange models.length).take done).map
      (fun i ↦ ((models.get i).basePath, texts i)) ∧
    ∀ i : Fin models.length, i.val < done → CutText listText initial leader c i (texts i)

/-- The background task has loaded an index that was given out, and what it has read is a cut. -/
def TaskOk (initial : ModelStates models) (leader : Leader CrudOperation) : ResyncTask → Prop
  | .idle => True
  | .loaded _ c => c < leader.log.nextIndex
  | .collecting _ c done data =>
    c < leader.log.nextIndex ∧ CutModels listText initial leader c done data

/-- What a run keeps that reads models only at a cut. -/
structure CutInv (initial : ModelStates models) (s : ResyncSystem models) : Prop where
  leader : s.leader.Inv
  below : s.leader.BelowNext
  storage : ∀ i, (s.states i).storage = effects i s.leader.applied (initial i).storage
  task : TaskOk listText initial s.leader s.task
  created : ∀ snapshot ∈ s.created, CutModels listText initial s.leader
    snapshot.1.lastIncludedIndex models.length snapshot.2

section Proof

variable {peers sha256 codec listText} {initial : ModelStates models}

theorem effects_upTo (leader : Leader CrudOperation) (c : ℕ) (i : Fin models.length)
    (storage : Storage (models.get i).Item) :
    effects i (upTo leader c) storage =
      (leader.log.entries.filter (changesUpTo i c)).foldl
        (fun storage e ↦ storageEffect (models.get i).model storage e.operation) storage := by
  unfold effects upTo
  rw [List.filter_filter]
  rfl

/-- A text stays a cut while the leader goes on: what it inserts has other indices. -/
theorem CutText.step {leader next : Leader CrudOperation} {a : LeaderAction CrudOperation}
    {c : ℕ} {i : Fin models.length} {text : String}
    (h : CutText listText initial leader c i text)
    (hnext : Leader.step peers leader a = some next) :
    CutText listText initial next c i text := by
  have hgrows := (Leader.stepGrows hnext).log
  have hentries : next.log.entries.filter (changesUpTo i c) =
      leader.log.entries.filter (changesUpTo i c) := by
    rcases hgrows.entries with hsame | ⟨j, e, hj, hinsert⟩
    · rw [hsame]
    · rw [hinsert]
      refine filter_insertByKey_of_not _ ?_ _
      rw [Bool.eq_false_iff]
      intro hchanges
      rw [changesUpTo, Bool.and_eq_true, decide_eq_true_eq, decide_eq_true_eq] at hchanges
      exact absurd (h.pending j e hj hchanges.1) (not_lt.mpr hchanges.2)
  refine ⟨?_, h.given.trans_le hgrows.nextIndex, fun j e hj htarget ↦ ?_⟩
  · rw [effects_upTo, hentries, ← effects_upTo]
    exact h.text
  · rcases hgrows.allocated j e hj with hold | hnew
    · exact h.pending j e hold htarget
    · exact hnew ▸ h.given

theorem CutModels.step {leader next : Leader CrudOperation} {a : LeaderAction CrudOperation}
    {c done : ℕ} {data : SnapshotData} (h : CutModels listText initial leader c done data)
    (hnext : Leader.step peers leader a = some next) :
    CutModels listText initial next c done data := by
  obtain ⟨texts, hmodels, htexts⟩ := h
  exact ⟨texts, hmodels, fun i hi ↦ (htexts i hi).step hnext⟩

theorem TaskOk.step {leader next : Leader CrudOperation} {a : LeaderAction CrudOperation}
    {task : ResyncTask} (h : TaskOk listText initial leader task)
    (hnext : Leader.step peers leader a = some next) : TaskOk listText initial next task := by
  have hgiven := (Leader.stepGrows hnext).log.nextIndex
  cases task with
  | idle => trivial
  | loaded term c => exact lt_of_lt_of_le h hgiven
  | collecting term c done data => exact ⟨h.1.trans_le hgiven, h.2.step hnext⟩

theorem CutModels.containsExactly {leader : Leader CrudOperation}
    {snapshot : SnapshotMeta × SnapshotData}
    (h : CutModels listText initial leader snapshot.1.lastIncludedIndex models.length snapshot.2) :
    ContainsExactly listText initial leader snapshot := by
  obtain ⟨texts, hmodels, htexts⟩ := h
  refine ⟨texts, ?_, fun i ↦ (htexts i i.isLt).text⟩
  rwa [List.take_of_length_le (by rw [List.length_finRange])] at hmodels

/-! ### Reading a model -/

/-- At a cut the model holds what the log entries up to the index make of it. -/
theorem ReadsCut.effects_applied {s : ResyncSystem models} {c : ℕ} {i : Fin models.length}
    (h : ReadsCut s c i) (hinv : s.leader.Inv) (storage : Storage (models.get i).Item) :
    effects i s.leader.applied storage = effects i (upTo s.leader c) storage := by
  obtain ⟨rest, hrest⟩ := hinv.appliedInOrder.isPrefix
  have hdisjoint : s.leader.applied.Disjoint rest := by
    have hnodup : (s.leader.applied ++ rest).Nodup := by
      rw [hrest]
      exact hinv.sorted.imp fun hlt heq ↦ absurd (congrArg LogEntry.logId heq) hlt.ne
    exact (List.nodup_append'.mp hnodup).2.2
  have hcut : ∀ e ∈ s.leader.log.entries, targetModel models e.operation = some i →
      (e ∈ s.leader.applied ↔ e.index ≤ c) := fun e he ↦ h.cut e (Or.inl he)
  have hchanges : s.leader.log.entries.filter (changesUpTo i c) =
      s.leader.applied.filter fun e ↦ targetModel models e.operation = some i := by
    rw [← hrest] at hcut ⊢
    have happlied : s.leader.applied.filter (changesUpTo i c) =
        s.leader.applied.filter fun e ↦ targetModel models e.operation = some i := by
      refine List.filter_congr fun e he ↦ ?_
      by_cases htarget : targetModel models e.operation = some i
      · have hle : e.index ≤ c := (hcut e (List.mem_append_left _ he) htarget).mp he
        simp [changesUpTo, htarget, hle]
      · simp [changesUpTo, htarget]
    have hnone : rest.filter (changesUpTo i c) = [] := by
      refine List.filter_eq_nil_iff.mpr fun e he hchanges ↦ ?_
      rw [changesUpTo, Bool.and_eq_true, decide_eq_true_eq, decide_eq_true_eq] at hchanges
      have happlied := (hcut e (List.mem_append_right _ he) hchanges.1).mpr hchanges.2
      exact hdisjoint happlied he
    rw [List.filter_append, happlied, hnone, List.append_nil]
  rw [effects_upTo, hchanges]
  rfl

theorem exists_mapM_eq {α β : Type*} {f : α → Option β} {l : List α}
    (h : ∀ x ∈ l, (f x).isSome) : ∃ values, l.mapM f = some values ∧ l.map f = values.map some := by
  induction l with
  | nil => exact ⟨[], rfl, rfl⟩
  | cons x l ih =>
    obtain ⟨value, hvalue⟩ := Option.isSome_iff_exists.mp (h x List.mem_cons_self)
    obtain ⟨values, hmapM, hmap⟩ := ih fun y hy ↦ h y (List.mem_cons_of_mem _ hy)
    refine ⟨value :: values, ?_, ?_⟩
    · rw [List.mapM_cons, hvalue, hmapM]
      rfl
    · rw [List.map_cons, hvalue, hmap, List.map_cons]

/-- What is read of a model is the text of its storage when all its items have values. -/
theorem textOf_getAllDataJson (i : Fin models.length) {state : HandlerState (models.get i).Item}
    {order : List String} (horder : ListsKeys state.storage order)
    (hvalues : ∀ key item, state.storage.lookup key = some item →
      ((models.get i).model.toValue item).isSome) :
    TextOf listText i state.storage
      (listText (ModelHandler.getAllDataJson (models.get i).model state order)) := by
  have hitems : ∀ item ∈ Declarative.getAllItems state order,
      ((models.get i).model.toValue item).isSome := by
    intro item hitem
    obtain ⟨key, -, hkey⟩ := List.mem_filterMap.mp hitem
    exact hvalues key item hkey
  obtain ⟨values, hmapM, hmap⟩ := exists_mapM_eq hitems
  refine ⟨order, values, horder, hmap, ?_⟩
  rw [ModelHandler.getAllDataJson, hmapM, Option.getD_some]

/-- A model that is read at a cut adds a cut to the data. -/
theorem CutModels.read {s : ResyncSystem models} {c done : ℕ} {data : SnapshotData}
    {order : List String} (hmodels : CutModels listText initial s.leader c done data)
    (hinv : CutInv listText initial s) (hgiven : c < s.leader.log.nextIndex)
    (hdone : done < models.length) (hcut : ReadsCut s c ⟨done, hdone⟩)
    (horder : ListsKeys (s.states ⟨done, hdone⟩).storage order) :
    CutModels listText initial s.leader c (done + 1)
      (data.addModel listText (models.get ⟨done, hdone⟩).basePath
        (ModelHandler.getAllDataJson (models.get ⟨done, hdone⟩).model (s.states ⟨done, hdone⟩)
          order)) := by
  obtain ⟨texts, hdata, htexts⟩ := hmodels
  let i : Fin models.length := ⟨done, hdone⟩
  let text := listText
    (ModelHandler.getAllDataJson (models.get i).model (s.states i) order)
  have htext : CutText listText initial s.leader c i text := by
    refine ⟨?_, hgiven, fun j e hj htarget ↦ ?_⟩
    · rw [← hcut.effects_applied hinv.leader, ← hinv.storage]
      exact textOf_getAllDataJson i horder hcut.values
    · have hfree : ∀ e' ∈ s.leader.log.entries, e'.index ≠ e.index :=
        ((hinv.leader.handlers j _ hj).stage).1
      have happlied : e ∉ s.leader.applied :=
        fun he ↦ hfree e (hinv.leader.held e he) rfl
      exact not_le.mp ((hcut.cut e (Or.inr ⟨j, hj⟩) htarget).not.mp happlied)
  have hbefore : ∀ j ∈ (List.finRange models.length).take done, j ≠ i := by
    intro j hj heq
    obtain ⟨k, hk, hkj⟩ := List.mem_take_iff_getElem.mp hj
    rw [List.getElem_finRange] at hkj
    have hval : k = done := congrArg Fin.val (hkj.trans heq)
    omega
  refine ⟨Function.update texts i text, ?_, ?_⟩
  · have hkept : data.models.filter (·.1 ≠ (models.get i).basePath) = data.models := by
      rw [List.filter_eq_self, hdata]
      intro entry hentry
      obtain ⟨j, hj, rfl⟩ := List.mem_map.mp hentry
      exact decide_eq_true fun hpath ↦ hbefore j hj (hcut.path j hpath)
    have htake : (List.finRange models.length).take (done + 1) =
        (List.finRange models.length).take done ++ [i] := by
      rw [List.take_succ_eq_append_getElem (by rwa [List.length_finRange]),
        List.getElem_finRange]
      rfl
    have hsame : ((List.finRange models.length).take done).map
          (fun j ↦ ((models.get j).basePath, Function.update texts i text j)) = data.models := by
      rw [hdata]
      refine List.map_congr_left fun j hj ↦ ?_
      rw [Function.update_of_ne (hbefore j hj)]
    rw [htake, List.map_append, hsame, List.map_singleton, Function.update_self]
    change data.models.filter (·.1 ≠ (models.get i).basePath) ++ [(_, text)] = _
    rw [hkept]
  · intro j hj
    by_cases hji : j = i
    · rw [hji, Function.update_self]
      exact htext
    · rw [Function.update_of_ne hji]
      refine htexts j ?_
      have hne : j.val ≠ done := fun hval ↦ hji (Fin.ext hval)
      omega

/-! ### Every step keeps it -/

theorem applyEntry_false {states next : ModelStates models} {entry : LogEntry CrudOperation}
    {env : Environment} (h : applyEntry sha256 states entry false env = some next) :
    next = states := by
  unfold applyEntry at h
  split at h
  · exact absurd h (by simp)
  · exact (Option.some.inj h).symm
  · exact (Option.some.inj h).symm

/-- An entry that is applied has its effect on every model's storage. -/
theorem storage_applyEntry {states next : ModelStates models} {entry : LogEntry CrudOperation}
    {env : Environment} (h : applyEntry sha256 states entry true env = some next)
    (i : Fin models.length) :
    (next i).storage = effects i [entry] (states i).storage := by
  rw [effects_singleton]
  unfold applyEntry at h
  split at h
  · next result happly =>
    obtain rfl := Option.some.inj h
    exact storage_applyCrudOperation happly i
  · exact absurd h (by simp)
  · next hnone =>
    obtain rfl := Option.some.inj h
    have htarget : targetModel models entry.operation = none := by
      cases hoperation : entry.operation with
      | create | update | delete =>
        rw [hoperation] at hnone
        exact absurd hnone (Option.some_ne_none _)
      | migrationBegin | migrationStep | migrationCommit | migrationRollback => rfl
    rw [htarget, if_neg (Option.some_ne_none i).symm]

/-- A step of a write handler is one of the leader, and changes the models when it applies an
entry. -/
theorem step_write {s next : ResyncSystem models} {a : LeaderAction CrudOperation}
    {env : Environment} (h : step peers sha256 codec listText s (.write a env) = some next) :
    ∃ leader states, Leader.step peers s.leader a = some leader ∧
      next = { s with leader, states } ∧
      (∀ i entry, a = .applyOperation i true → s.leader.handlers i = some ⟨entry, .locked⟩ →
        applyEntry sha256 s.states entry true env = some states) ∧
      ((∀ i, a ≠ .applyOperation i true) → states = s.states) := by
  cases a with
  | applyOperation i ok =>
    unfold step at h
    simp only at h
    split at h
    · next leader handler hleader hhandler =>
      obtain ⟨states, hstates, rfl⟩ := Option.map_eq_some_iff.mp h
      refine ⟨leader, states, hleader, rfl, ?_, ?_⟩
      · rintro _ entry ⟨⟩ hi
        obtain rfl := Option.some.inj (hhandler.symm.trans hi)
        exact hstates
      · intro hok
        cases ok with
        | true => exact absurd rfl (hok i)
        | false => exact applyEntry_false hstates
    · exact absurd h (by simp)
  | accept | insertEntry | queueEntry | readEntries | walDone | replicationDone | join
  | commitTimeout | lockApply | markApplied | drop =>
    unfold step at h
    simp only at h
    obtain ⟨leader, hleader, rfl⟩ := Option.map_eq_some_iff.mp h
    exact ⟨leader, s.states, hleader, rfl, by simp, fun _ ↦ rfl⟩

theorem CutInv.write {s next : ResyncSystem models} {a : LeaderAction CrudOperation}
    {env : Environment} (h : CutInv listText initial s)
    (hnext : step peers sha256 codec listText s (.write a env) = some next) :
    CutInv listText initial next := by
  obtain ⟨leader, states, hleader, rfl, happly, hquiet⟩ := step_write hnext
  refine ⟨Leader.kept_inv peers _ _ _ h.leader hleader,
    Leader.belowNext_step h.leader h.below hleader, fun i ↦ ?_, h.task.step hleader,
    fun snapshot hsnapshot ↦ (h.created snapshot hsnapshot).step hleader⟩
  change (states i).storage = effects i leader.applied (initial i).storage
  rcases (Leader.stepGrows hleader).applied with ⟨j, entry, rfl, hj, happlied⟩ | ⟨hno, happlied⟩
  · rw [storage_applyEntry (happly j entry rfl hj), h.storage, happlied, effects_append]
  · rw [hquiet hno, h.storage, happlied]

/-- Creating a snapshot succeeds under the index it is created with, or leaves none. -/
theorem lastIncludedIndex_createSnapshot {manager next : SnapshotManager} {term c now : ℕ}
    {data : SnapshotData} {disk : DiskOutcome} {info : SnapshotMeta}
    (h : manager.createSnapshot codec term c data now disk = (next, .ok info)) :
    info.lastIncludedIndex = c := by
  unfold SnapshotManager.createSnapshot at h
  split at h
  · exact absurd (congrArg Prod.snd h) (by simp)
  · split at h
    · exact absurd (congrArg Prod.snd h) (by simp)
    · rw [← Except.ok.inj (congrArg Prod.snd h)]

/-- A step that meets the condition keeps the invariant. -/
theorem cutInv_step {s next : ResyncSystem models} {a : ResyncAction}
    (h : CutInv listText initial s) (hcut : ReadsAtCut s a)
    (hnext : step peers sha256 codec listText s a = some next) :
    CutInv listText initial next := by
  have htask := h.task
  cases a with
  | write a env => exact h.write hnext
  | loadCommit =>
    unfold step at hnext
    simp only at hnext
    split at hnext
    · obtain rfl := Option.some.inj hnext
      exact { h with task := h.below.commit }
    · exact absurd hnext (by simp)
  | skip =>
    unfold step at hnext
    simp only at hnext
    split at hnext
    · obtain rfl := Option.some.inj hnext
      exact { h with task := trivial }
    · exact absurd hnext (by simp)
  | beginSnapshot =>
    unfold step at hnext
    simp only at hnext
    split at hnext
    · next term c hloaded =>
      obtain rfl := Option.some.inj hnext
      rw [hloaded] at htask
      exact { h with task := ⟨htask, fun _ ↦ listText [], rfl, fun i hi ↦ absurd hi (by omega)⟩ }
    · exact absurd hnext (by simp)
  | readModel order =>
    unfold step at hnext
    simp only at hnext
    split at hnext
    · next term c done data hcollecting =>
      rw [hcollecting] at htask
      obtain ⟨hgiven, hmodels⟩ := htask
      split_ifs at hnext with hdone horder
      obtain rfl := Option.some.inj hnext
      have hreads := hcut term c done data hcollecting hdone
      exact { h with task := ⟨hgiven, hmodels.read h hgiven hdone hreads horder⟩ }
    · exact absurd hnext (by simp)
  | create now disk =>
    unfold step at hnext
    simp only at hnext
    split at hnext
    · next term c done data hcollecting =>
      rw [hcollecting] at htask
      split_ifs at hnext with hdone
      split at hnext
      · next manager info hcreate =>
        obtain rfl := Option.some.inj hnext
        refine { h with task := trivial, created := fun snapshot hsnapshot ↦ ?_ }
        rcases List.mem_append.mp hsnapshot with hold | hnew
        · exact h.created snapshot hold
        · obtain rfl := List.mem_singleton.mp hnew
          rw [lastIncludedIndex_createSnapshot hcreate]
          exact hdone ▸ htask.2
      · obtain rfl := Option.some.inj hnext
        exact { h with task := trivial }
    · exact absurd hnext (by simp)

theorem cutInv_start (term : ℕ) (initial : ModelStates models) (manager : SnapshotManager) :
    CutInv listText initial (start term initial manager) where
  leader := Leader.inv_start term
  below := Leader.belowNext_start term
  storage := fun _ ↦ rfl
  task := trivial
  created := fun _ h ↦ absurd h List.not_mem_nil

end Proof

/-- In every run of writes beside the background task in which each model is read at a cut, every
snapshot contains exactly the effects of the log entries up to its index, in every state. -/
theorem exact_of_readsCut (peers : ℕ) (sha256 : List UInt8 → String) (codec : SnapshotCodec)
    (listText : List Json → String) (term : ℕ) (initial : ModelStates models)
    (manager : SnapshotManager) (actions : List ResyncAction)
    (hcut : EachStep (step peers sha256 codec listText) ReadsAtCut (start term initial manager)
      actions) :
    Always (step peers sha256 codec listText) (SnapshotsExact listText initial)
      (start term initial manager) actions := by
  have hstart : CutInv listText initial (start term initial manager) :=
    cutInv_start term initial manager
  have hinv := EachStep.always (fun s a next hs hC hnext ↦ cutInv_step hs hC hnext) hstart hcut
  exact hinv.mono fun s hs snapshot hsnapshot ↦ (hs.created snapshot hsnapshot).containsExactly

/-! ### A shelf that is committed and not yet applied -/

section CommittedShelf

/-- The texts of the list without shelves and of the one with the shelf `a`. -/
def shelvesText : List Json → String
  | [] => "[]"
  | _ :: _ => shelfListText

/-- A codec for the snapshots of these two lists. -/
def shelvesCodec : SnapshotCodec where
  toBytes := fun data ↦
    if data = shelfSnapshot then .ok [7]
    else if data = ⟨[("/api/shelves", "[]")]⟩ then .ok [8]
    else .error "unknown snapshot"
  fromBytes := fun bytes ↦
    if bytes = [7] then .ok shelfSnapshot
    else if bytes = [8] then .ok ⟨[("/api/shelves", "[]")]⟩
    else .error "invalid bytes"
  fromBytes_toBytes := by
    intro data bytes h
    split_ifs at h with hshelf hempty
    · obtain rfl := Except.ok.inj h
      rw [hshelf]
      rfl
    · obtain rfl := Except.ok.inj h
      rw [hempty]
      rfl

/-- A leader without shelves and without snapshots. -/
def shelvesStart : ResyncSystem shelves := start 1 noShelves ⟨⟨∅, ∅, none⟩, none⟩

/-- The entry of the shelf `a`. -/
def shelfEntry : LogEntry CrudOperation :=
  ⟨⟨1, 1⟩, .create "/api/shelves" (.object [("id", .string "a")]), 0⟩

/-- The shelf `a` is created, replicated to one of two followers and committed. -/
def commitShelf : List ResyncAction :=
  [.accept shelfEntry.operation 0, .insertEntry 1, .queueEntry 1, .readEntries 1, .walDone 1 true,
    .replicationDone 1 1, .join 1].map fun action ↦ .write action quietEnvironment

/-- Its handler takes the mutex and applies it, and the task begins a snapshot. -/
def applyAndBegin : List ResyncAction :=
  [.lockApply 1, .applyOperation 1 true, .markApplied 1].map
    (fun action ↦ .write action quietEnvironment) ++ [.loadCommit, .beginSnapshot]

theorem readsAtCut_after_apply :
    EachStep (step 2 (fun _ ↦ "") shelvesCodec shelvesText) ReadsAtCut shelvesStart
      (commitShelf ++ applyAndBegin ++ [.readModel ["a"], .create 0 .written]) := by
  have hbefore : EachStep (step 2 (fun _ ↦ "") shelvesCodec shelvesText) ReadsAtCut shelvesStart
      (commitShelf ++ applyAndBegin) := by
    refine eachStep_of_forall ?_ _
    simp [commitShelf, applyAndBegin, ReadsAtCut]
  have hrun : (exec (step 2 (fun _ ↦ "") shelvesCodec shelvesText) shelvesStart
      (commitShelf ++ applyAndBegin)).map (fun s ↦ (s.leader.log.entries, s.leader.applied,
        s.leader.log.appliedIndex, s.leader.log.nextIndex, s.task)) =
      some ([shelfEntry], [shelfEntry], 1, 2, .collecting 1 1 0 .new) := rfl
  refine eachStep_append.mpr ⟨hbefore, fun t ht next _ ↦ ⟨?_, fun _ _ ↦ ⟨trivial, trivial⟩⟩⟩
  have hinv : CutInv shelvesText noShelves t :=
    (EachStep.always (fun s a next hs hC hnext ↦ cutInv_step hs hC hnext)
      (cutInv_start 1 noShelves _) hbefore).exec ht
  rw [ht, Option.map_some, Option.some.injEq] at hrun
  obtain ⟨hentries, happlied, hmarked, hgiven, htask⟩ :
      _ ∧ _ ∧ t.leader.log.appliedIndex = 1 ∧ t.leader.log.nextIndex = 2 ∧ _ := by
    simpa only [Prod.mk.injEq] using hrun
  intro term c done data hcollecting hdone
  obtain ⟨rfl, rfl, rfl, rfl⟩ := ResyncTask.collecting.inj (htask.symm.trans hcollecting)
  refine ⟨?_, fun j _ ↦ @Subsingleton.elim (Fin 1) _ j _, fun _ item _ ↦ rfl⟩
  rintro e (he | ⟨i, hi⟩) -
  · rw [hentries] at he
    rw [List.mem_singleton.mp he, happlied]
    exact iff_of_true List.mem_cons_self le_rfl
  · -- no index is both given out and unmarked, so no entry is still to be inserted
    have hok := hinv.leader.handlers i _ hi
    have hlow := hok.not_marked
    have hhigh := hok.lt_next
    omega

/-- When the shelf is applied before the task comes by, the snapshot has the shelf. -/
theorem exact_after_apply :
    Always (step 2 (fun _ ↦ "") shelvesCodec shelvesText) (SnapshotsExact shelvesText noShelves)
        shelvesStart (commitShelf ++ applyAndBegin ++ [.readModel ["a"], .create 0 .written]) ∧
      (exec (step 2 (fun _ ↦ "") shelvesCodec shelvesText) shelvesStart
        (commitShelf ++ applyAndBegin ++ [.readModel ["a"], .create 0 .written])).map
          (fun s ↦ s.created.map fun snapshot ↦ (snapshot.1.lastIncludedIndex, snapshot.2)) =
        some [(1, shelfSnapshot)] :=
  ⟨exact_of_readsCut 2 _ shelvesCodec shelvesText 1 noShelves _ _ readsAtCut_after_apply, rfl⟩

/-- The task comes by between the commit and the application of the shelf: its snapshot has the
shelf's index and no shelf. -/
theorem snapshot_misses_committed_entry :
    ¬ ∀ actions : List ResyncAction,
      Always (step 2 (fun _ ↦ "") shelvesCodec shelvesText) (SnapshotsExact shelvesText noShelves)
        shelvesStart actions := by
  intro h
  let actions : List ResyncAction :=
    commitShelf ++ [.loadCommit, .beginSnapshot, .readModel [], .create 0 .written]
  have hrun : (exec (step 2 (fun _ ↦ "") shelvesCodec shelvesText) shelvesStart actions).map
      (fun s ↦ (s.leader.log.entries, s.created.map fun snapshot ↦
        (snapshot.1.lastIncludedIndex, snapshot.2.models))) =
      some ([shelfEntry], [(1, [("/api/shelves", "[]")])]) := rfl
  obtain ⟨t, ht, hfinal⟩ := Option.map_eq_some_iff.mp hrun
  obtain ⟨hentries, hcreated⟩ := Prod.mk.inj hfinal
  obtain ⟨snapshot, rest, hsnapshot, hinfo, -⟩ := List.map_eq_cons_iff.mp hcreated
  obtain ⟨hindex, hmodels⟩ := Prod.mk.inj hinfo
  obtain ⟨texts, htexts, hexact⟩ :=
    (h actions).exec ht snapshot (hsnapshot ▸ List.mem_cons_self)
  have hempty : "[]" = texts ⟨0, Nat.one_pos⟩ :=
    congrArg Prod.snd (List.cons.inj (hmodels.symm.trans htexts)).1
  obtain ⟨order, values, ⟨-, hkeys⟩, hvalues, htext⟩ := hexact ⟨0, Nat.one_pos⟩
  rw [hindex, upTo, hentries] at hkeys hvalues
  have hkey : "a" ∈ order := by
    rw [← List.mem_toFinset, hkeys]
    exact Finmap.mem_keys.mpr (Finmap.mem_insert.mpr (Or.inl rfl))
  cases values with
  | nil =>
    have hmissing : ((∅ : Storage Shelf).insert "a" .a).lookup "a" = none :=
      List.filterMap_eq_nil_iff.mp (List.map_eq_nil_iff.mp hvalues) "a" hkey
    rw [Finmap.lookup_insert] at hmissing
    exact absurd hmissing (Option.some_ne_none _)
  | cons value values =>
    have htexts : "[]" = shelfListText := hempty.trans htext
    exact absurd htexts (by decide)

end CommittedShelf

end ResyncSystem

end Lithair.App
