import Lithair.Cluster.Snapshot
import Lithair.Lib.Run

/-!
# What a snapshot manager loads

The reads of the snapshot manager in `cluster/snapshot.rs`, and what they give after a snapshot has
been created or installed. Only the three snapshots with the highest indices are left by a create,
whichever is the last that was written, so that one with a low index is removed as soon as it is
there: it is loaded back exactly when fewer than three others have a higher index
(`loadsBack_iff`). A load does not look at the checksum of the metadata.
-/

namespace Lithair.Cluster

open Lithair.Lib Lithair.Lib.Framing Lithair.Lib.Run

namespace SnapshotManager

variable (codec : SnapshotCodec)

/-! ### The reads -/

def loadSnapshot (manager : SnapshotManager) (index : ℕ) : Except String SnapshotData :=
  match manager.dir.data.lookup index with
  | none => .error "No such file or directory (os error 2)"
  | some bytes => codec.fromBytes bytes

def loadCurrent (manager : SnapshotManager) :
    Except String (Option (SnapshotMeta × SnapshotData)) :=
  match manager.currentMeta with
  | none => .ok none
  | some info => (manager.loadSnapshot codec info.lastIncludedIndex).map fun data ↦
      some (info, data)

/-- The metadata that the pointer of a directory is for, if it has one. -/
def loadLatestMeta (dir : SnapshotDir) : Option SnapshotMeta :=
  dir.current.bind dir.metadata.lookup

/-- A manager that is opened on a directory. -/
def new (dir : SnapshotDir) : SnapshotManager := ⟨dir, loadLatestMeta dir⟩

/-! ### Calls -/

/-- A call, with what the clock and the disk make of it. -/
inductive SnapshotCall
  | create (term lastIndex : ℕ) (data : SnapshotData) (now : ℕ) (disk : DiskOutcome)
  | install (info : SnapshotMeta) (bytes : List UInt8) (disk : DiskOutcome)
  | reopen

/-- A call, and the metadata and the data of the snapshot when it returns `Ok`. -/
def perform (manager : SnapshotManager) :
    SnapshotCall → SnapshotManager × Option (SnapshotMeta × SnapshotData)
  | .create term lastIndex data now disk =>
    let (next, result) := manager.createSnapshot codec term lastIndex data now disk
    (next, result.toOption.map fun info ↦ (info, data))
  | .install info bytes disk =>
    let (next, result) := manager.installSnapshot codec info bytes disk
    (next, result.toOption.map fun data ↦ (info, data))
  | .reopen => (new manager.dir, none)

def step (manager : SnapshotManager) (call : SnapshotCall) : Option SnapshotManager :=
  some (manager.perform codec call).1

/-! ### What is meant to hold -/

/-- What a call that returns `Ok` has written is loaded, by the manager and by one that is opened on
the same directory. -/
def LoadsBack (manager : SnapshotManager) (call : SnapshotCall) : Prop :=
  ∀ snapshot, (manager.perform codec call).2 = some snapshot →
    (manager.perform codec call).1.loadCurrent codec = .ok (some snapshot) ∧
      (new (manager.perform codec call).1.dir).loadCurrent codec = .ok (some snapshot)

/-- A create that returns `Ok` finds fewer than three snapshots with higher indices. -/
def Spared (manager : SnapshotManager) : SnapshotCall → Prop
  | .create _ lastIndex data _ disk => ∀ bytes, codec.toBytes data = .ok bytes →
      disk = .written → (manager.dir.data.keys.filter (lastIndex < ·)).card < 3
  | _ => True

/-- A load gives an error for bytes that do not have the checksum of their metadata. -/
def ChecksOnLoad (manager : SnapshotManager) (index : ℕ) : Prop :=
  ∀ bytes info, manager.dir.data.lookup index = some bytes →
    manager.dir.metadata.lookup index = some info → fnv1aHash bytes ≠ info.checksum →
      ∃ message, manager.loadSnapshot codec index = .error message

/-! ### The snapshots that are removed -/

theorem lookup_foldl_erase {β : ℕ → Type*} (old : List ℕ) (files : Finmap β) (index : ℕ) :
    (old.foldl (fun files index ↦ files.erase index) files).lookup index =
      if index ∈ old then none else files.lookup index := by
  induction old generalizing files with
  | nil => rfl
  | cons first rest ih =>
    rw [List.foldl_cons, ih]
    by_cases hrest : index ∈ rest
    · rw [if_pos hrest, if_pos (List.mem_cons_of_mem first hrest)]
    · rw [if_neg hrest]
      by_cases hfirst : index = first
      · rw [hfirst, Finmap.lookup_erase, if_pos List.mem_cons_self]
      · rw [Finmap.lookup_erase_ne hfirst, if_neg (List.not_mem_cons_of_ne_of_not_mem hfirst hrest)]

/-- In descending order an index has as many in front of it as there are higher ones. -/
theorem mem_drop_sort_iff {indices : Finset ℕ} {index keep : ℕ} (h : index ∈ indices) :
    index ∈ (indices.sort (· ≥ ·)).drop keep ↔ keep ≤ (indices.filter (index < ·)).card := by
  have hnodup := indices.sort_nodup (· ≥ ·)
  obtain ⟨front, back, hsort⟩ := List.append_of_mem ((Finset.mem_sort (· ≥ ·)).mpr h)
  have hsorted := indices.pairwise_sort (· ≥ ·)
  rw [hsort] at hnodup hsorted
  obtain ⟨-, hback, hdisjoint⟩ := List.nodup_append.mp hnodup
  obtain ⟨-, hdescending, hgreater⟩ := List.pairwise_append.mp hsorted
  have hfront : ∀ other ∈ front, index < other := fun other hother ↦
    lt_of_le_of_ne (hgreater other hother index List.mem_cons_self)
      (hdisjoint other hother index List.mem_cons_self).symm
  have hless : ∀ other ∈ back, ¬ index < other := fun other hother ↦
    not_lt.mpr (List.rel_of_pairwise_cons hdescending hother)
  have hfilter : indices.filter (index < ·) = front.toFinset := by
    ext other
    rw [Finset.mem_filter, ← Finset.mem_sort (· ≥ ·), hsort, List.mem_toFinset, List.mem_append,
      List.mem_cons]
    constructor
    · rintro ⟨hother | rfl | hother, hlt⟩
      · exact hother
      · exact absurd hlt (lt_irrefl _)
      · exact absurd hlt (hless other hother)
    · exact fun hother ↦ ⟨.inl hother, hfront other hother⟩
  rw [hfilter, List.toFinset_card_of_nodup (List.Nodup.of_append_left hnodup), hsort]
  by_cases hkeep : keep ≤ front.length
  · rw [List.drop_append_of_le_length hkeep]
    exact iff_of_true (List.mem_append_right _ List.mem_cons_self) hkeep
  · refine iff_of_false (fun hmem ↦ ?_) hkeep
    obtain ⟨more, rfl⟩ : ∃ more, keep = front.length + (more + 1) :=
      ⟨keep - front.length - 1, by omega⟩
    rw [List.drop_append, List.drop_eq_nil_of_le (by omega), Nat.add_sub_cancel_left,
      List.drop_succ_cons, List.nil_append] at hmem
    exact (List.nodup_cons.mp hback).1 (List.mem_of_mem_drop hmem)

/-- A cleanup takes the files of an index that has as many higher ones as are kept. -/
theorem lookup_cleanupOldSnapshots {dir : SnapshotDir} {index : ℕ} (h : index ∈ dir.data.keys)
    (keep : ℕ) :
    (cleanupOldSnapshots dir keep).data.lookup index =
        (if keep ≤ (dir.data.keys.filter (index < ·)).card then none else dir.data.lookup index) ∧
      (cleanupOldSnapshots dir keep).metadata.lookup index =
        if keep ≤ (dir.data.keys.filter (index < ·)).card then none
        else dir.metadata.lookup index := by
  unfold cleanupOldSnapshots
  simp only [lookup_foldl_erase, mem_drop_sort_iff h, and_self]

/-- The file of the index that is written is not among the higher ones. -/
theorem higher_writeFiles (dir : SnapshotDir) (info : SnapshotMeta) (bytes : List UInt8) :
    (writeFiles dir info bytes).data.keys.filter (info.lastIncludedIndex < ·) =
      dir.data.keys.filter (info.lastIncludedIndex < ·) := by
  ext other
  simp only [writeFiles, Finset.mem_filter, Finmap.mem_keys, Finmap.mem_insert]
  constructor
  · rintro ⟨rfl | hother, hlt⟩
    · exact absurd hlt (lt_irrefl _)
    · exact ⟨hother, hlt⟩
  · exact fun ⟨hother, hlt⟩ ↦ ⟨.inr hother, hlt⟩

/-- The files of the index that a create writes, after its cleanup. -/
theorem lookup_created (dir : SnapshotDir) (info : SnapshotMeta) (bytes : List UInt8) :
    (cleanupOldSnapshots (writeFiles dir info bytes) 3).data.lookup info.lastIncludedIndex =
        (if 3 ≤ (dir.data.keys.filter (info.lastIncludedIndex < ·)).card then none
        else some bytes) ∧
      (cleanupOldSnapshots (writeFiles dir info bytes) 3).metadata.lookup info.lastIncludedIndex =
        if 3 ≤ (dir.data.keys.filter (info.lastIncludedIndex < ·)).card then none
        else some info := by
  have hmem : info.lastIncludedIndex ∈ (writeFiles dir info bytes).data.keys :=
    Finmap.mem_keys.mpr (Finmap.mem_insert.mpr (.inl rfl))
  obtain ⟨hfile, hmeta⟩ := lookup_cleanupOldSnapshots hmem 3
  rw [higher_writeFiles] at hfile hmeta
  rw [hfile, hmeta, writeFiles, Finmap.lookup_insert, Finmap.lookup_insert]
  exact ⟨rfl, rfl⟩

/-! ### A snapshot that is loaded back -/

variable {codec}

/-- A manager with the metadata in hand loads the data that is under its index. -/
theorem loadCurrent_eq {dir : SnapshotDir} {info : SnapshotMeta} {bytes : List UInt8}
    {data : SnapshotData} (hfile : dir.data.lookup info.lastIncludedIndex = some bytes)
    (hdata : codec.fromBytes bytes = .ok data) :
    (SnapshotManager.mk dir (some info)).loadCurrent codec = .ok (some (info, data)) := by
  simp only [loadCurrent, loadSnapshot, hfile, hdata]
  rfl

theorem loadCurrent_eq_error {dir : SnapshotDir} {info : SnapshotMeta}
    (hfile : dir.data.lookup info.lastIncludedIndex = none) :
    (SnapshotManager.mk dir (some info)).loadCurrent codec =
      .error "No such file or directory (os error 2)" := by
  simp only [loadCurrent, loadSnapshot, hfile]
  rfl

theorem new_eq {dir : SnapshotDir} {info : SnapshotMeta} {index : ℕ}
    (hcurrent : dir.current = some index) (hmeta : dir.metadata.lookup index = some info) :
    new dir = ⟨dir, some info⟩ := by
  rw [new, loadLatestMeta, hcurrent, Option.bind_some, hmeta]

/-- A call that returns `Ok`: a create whose data serialises, or an install of bytes that have the
checksum and decode, with a disk that takes the files. -/
theorem perform_eq_some {manager : SnapshotManager} {call : SnapshotCall}
    {info : SnapshotMeta} {data : SnapshotData}
    (h : (manager.perform codec call).2 = some (info, data)) :
    (∃ term lastIndex now bytes, call = .create term lastIndex data now .written ∧
      info = ⟨term, lastIndex, now, bytes.length, fnv1aHash bytes⟩ ∧
      codec.toBytes data = .ok bytes ∧
      (manager.perform codec call).1 =
        ⟨cleanupOldSnapshots (writeFiles manager.dir info bytes) 3, some info⟩) ∨
    (∃ bytes, call = .install info bytes .written ∧ codec.fromBytes bytes = .ok data ∧
      (manager.perform codec call).1 = ⟨writeFiles manager.dir info bytes, some info⟩) := by
  cases call with
  | create term lastIndex data now disk =>
    simp only [perform, createSnapshot] at h ⊢
    cases hbytes : codec.toBytes data with
    | error message =>
      rw [hbytes] at h
      exact absurd h (by simp [Except.toOption])
    | ok bytes =>
      rw [hbytes] at h
      cases disk with
      | failed left message => exact absurd h (by simp [Except.toOption])
      | written =>
        obtain ⟨rfl, rfl⟩ := Prod.mk.inj (Option.some.inj h)
        exact .inl ⟨term, lastIndex, now, bytes, rfl, rfl, hbytes, rfl⟩
  | install info bytes disk =>
    simp only [perform, installSnapshot] at h ⊢
    by_cases hchecksum : fnv1aHash bytes ≠ info.checksum
    · rw [if_pos hchecksum] at h
      exact absurd h (by simp [Except.toOption])
    · rw [if_neg hchecksum] at h ⊢
      cases hdata : codec.fromBytes bytes with
      | error message =>
        rw [hdata] at h
        exact absurd h (by simp [Except.toOption])
      | ok data =>
        rw [hdata] at h
        cases disk with
        | failed left message => exact absurd h (by simp [Except.toOption])
        | written =>
          obtain ⟨rfl, rfl⟩ := Prod.mk.inj (Option.some.inj h)
          exact .inr ⟨bytes, rfl, hdata, rfl⟩
  | reopen => exact absurd h (by simp [perform])

theorem perform_create {manager : SnapshotManager} {data : SnapshotData} {bytes : List UInt8}
    {info : SnapshotMeta} {term lastIndex now : ℕ} (hbytes : codec.toBytes data = .ok bytes)
    (hinfo : info = ⟨term, lastIndex, now, bytes.length, fnv1aHash bytes⟩) :
    manager.perform codec (.create term lastIndex data now .written) =
      (⟨cleanupOldSnapshots (writeFiles manager.dir info bytes) 3, some info⟩,
        some (info, data)) := by
  simp only [perform, createSnapshot, hbytes, hinfo]
  rfl

/-- An install keeps all that is there; what a create writes is loaded back when fewer than three
others are higher. -/
theorem loadsBack_iff (manager : SnapshotManager) (call : SnapshotCall) :
    LoadsBack codec manager call ↔ Spared codec manager call := by
  constructor
  · intro h
    cases call with
    | create term lastIndex data now disk =>
      rintro bytes hbytes rfl
      obtain ⟨info, hinfo⟩ : ∃ info : SnapshotMeta,
        info = ⟨term, lastIndex, now, bytes.length, fnv1aHash bytes⟩ := ⟨_, rfl⟩
      have hperform : manager.perform codec (.create term lastIndex data now .written) = _ :=
        perform_create hbytes hinfo
      have hload := (h (info, data) (by rw [hperform])).1
      by_contra hcard
      obtain ⟨hfile, -⟩ := lookup_created manager.dir info bytes
      rw [hinfo, if_pos (not_lt.mp hcard), ← hinfo] at hfile
      rw [hperform, loadCurrent_eq_error hfile] at hload
      exact nomatch hload
    | install info bytes disk => trivial
    | reopen => trivial
  · rintro h ⟨info, data⟩ hsnapshot
    obtain ⟨term, lastIndex, now, bytes, rfl, hinfo, hbytes, hnext⟩ | ⟨bytes, rfl, hdata, hnext⟩ :=
      perform_eq_some hsnapshot
    · have hspared := h bytes hbytes rfl
      obtain ⟨hfile, hmeta⟩ := lookup_created manager.dir info bytes
      have hfew : ¬ 3 ≤ (manager.dir.data.keys.filter (info.lastIncludedIndex < ·)).card :=
        hinfo ▸ not_le.mpr hspared
      rw [if_neg hfew] at hfile hmeta
      have hdata := codec.fromBytes_toBytes hbytes
      rw [hnext, new_eq rfl hmeta]
      exact ⟨loadCurrent_eq hfile hdata, loadCurrent_eq hfile hdata⟩
    · have hfile : (writeFiles manager.dir info bytes).data.lookup info.lastIncludedIndex =
          some bytes := Finmap.lookup_insert _
      have hmeta : (writeFiles manager.dir info bytes).metadata.lookup info.lastIncludedIndex =
          some info := Finmap.lookup_insert _
      rw [hnext, new_eq rfl hmeta]
      exact ⟨loadCurrent_eq hfile hdata, loadCurrent_eq hfile hdata⟩

/-- A load fails for the bytes that do not decode, and for no others. -/
theorem checksOnLoad_iff {manager : SnapshotManager} {index : ℕ} {bytes : List UInt8}
    {info : SnapshotMeta} (hbytes : manager.dir.data.lookup index = some bytes)
    (hinfo : manager.dir.metadata.lookup index = some info) :
    ChecksOnLoad codec manager index ↔
      fnv1aHash bytes = info.checksum ∨ ∃ message, codec.fromBytes bytes = .error message := by
  have hload : manager.loadSnapshot codec index = codec.fromBytes bytes := by
    unfold loadSnapshot
    rw [hbytes]
  constructor
  · intro h
    by_cases hchecksum : fnv1aHash bytes = info.checksum
    · exact .inl hchecksum
    · exact .inr (hload ▸ h bytes info hbytes hinfo hchecksum)
  · intro h otherBytes otherInfo hotherBytes hotherInfo hchecksum
    obtain rfl := Option.some.inj (hbytes.symm.trans hotherBytes)
    obtain rfl := Option.some.inj (hinfo.symm.trans hotherInfo)
    rw [hload]
    exact h.resolve_left hchecksum

/-- Over a run of calls, each that returns `Ok` is loaded back exactly when each create finds fewer
than three higher indices; and a load rejects what does not have its checksum only if it does not
decode. -/
theorem loads_iff_spared (codec : SnapshotCodec) :
    (∀ manager calls, EachStep (step codec) (LoadsBack codec) manager calls ↔
      EachStep (step codec) (Spared codec) manager calls) ∧
    (∀ manager index bytes info, manager.dir.data.lookup index = some bytes →
      manager.dir.metadata.lookup index = some info →
        (ChecksOnLoad codec manager index ↔
          fnv1aHash bytes = info.checksum ∨
            ∃ message, codec.fromBytes bytes = .error message)) := by
  refine ⟨fun manager calls ↦ eachStep_congr fun state call _ _ ↦ loadsBack_iff state call, ?_⟩
  intro manager index bytes info hbytes hinfo
  exact checksOnLoad_iff hbytes hinfo

/-! ### Indices that go down -/

/-- A codec for the snapshot without models alone. -/
def blankCodec : SnapshotCodec where
  toBytes := fun data ↦ if data = .new then .ok [7] else .error "unknown snapshot"
  fromBytes := fun bytes ↦ if bytes = [7] then .ok .new else .error "invalid bytes"
  fromBytes_toBytes := by
    intro data bytes h
    split_ifs at h with hdata
    obtain rfl := Except.ok.inj h
    rw [hdata]
    rfl

/-- The metadata that a leader sends with the snapshot without models. -/
def blankMeta (index : ℕ) : SnapshotMeta := ⟨1, index, 0, 1, fnv1aHash [7]⟩

/-- Three snapshots are installed, and one is created for an index under theirs: it is removed by
the cleanup of its own call. A file with another checksum than its metadata is loaded. -/
theorem not_loads_lower_index :
    ¬ EachStep (step blankCodec) (LoadsBack blankCodec) (new ⟨∅, ∅, none⟩)
        [.install (blankMeta 4) [7] .written, .install (blankMeta 3) [7] .written,
          .install (blankMeta 2) [7] .written, .create 1 1 .new 0 .written] ∧
      ¬ ChecksOnLoad blankCodec
        (new ⟨(∅ : Finmap _).insert 0 [7], (∅ : Finmap _).insert 0 ⟨1, 0, 0, 1, 0⟩, some 0⟩) 0 := by
  constructor
  · intro hrun
    have hlast := (hrun _ rfl).2 _ rfl |>.2 _ rfl |>.2 _ rfl |>.1
    exact absurd ((loadsBack_iff _ _).mp hlast [7] rfl rfl) (by decide)
  · intro hchecks
    obtain ⟨message, hmessage⟩ := hchecks [7] ⟨1, 0, 0, 1, 0⟩ rfl rfl (by decide)
    exact nomatch hmessage

end SnapshotManager

end Lithair.Cluster
