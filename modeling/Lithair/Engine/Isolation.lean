import Lithair.Engine.MultiFileStore
import Mathlib.Data.List.Infix

/-!
# Isolation of aggregates

An aggregate id is any text, and the directories of its events and of its snapshot are found by
joining paths. `isolated_iff`: in every run over a set of ids, what is read for an id was stored
under it and nothing is written outside the base directory, exactly when no two of the ids lead to
one directory and none of them leads out of the base directory.

Plain names other than `global` are such a set, together with the id of the global store
(`apart_of_plain`).
-/

namespace Lithair.Engine

open Lithair.Lib Lithair.Lib.Path Lithair.Lib.Run

namespace MultiFileEventStore

/-- The aggregate id that an action is about. -/
def StoreAction.identity : StoreAction → Option (Option String)
  | .append envelope _ => some envelope.aggregateId
  | .saveSnapshot aggregateId _ _ _ _ => some aggregateId
  | .flush | .reopen => none

/-- The actions are about ids of the set. -/
def Over (ids : Set (Option String)) (actions : List StoreAction) : Prop :=
  ∀ action ∈ actions, ∀ id ∈ action.identity, id ∈ ids

/-- What is read for an id of the set was stored under it. -/
structure Isolated (crc32 : List UInt8 → UInt32) (json : EnvelopeJson)
    (snapshotJson : SnapshotJson) (ids : Set (Option String)) (s : MultiFileEventStore) :
    Prop where
  events : ∀ id ∈ ids, ∀ found, s.readStore crc32 json id = some found →
    ∀ e ∈ found, e.aggregateId = id
  snapshots : ∀ id ∈ ids, ∀ snapshot, s.loadSnapshot crc32 snapshotJson id = some (some snapshot) →
    snapshot.metadata.aggregateId = id
  listed : ∀ id ∈ ids, id ∈ s.listSnapshots → ∃ snapshot,
    s.loadSnapshot crc32 snapshotJson id = some (some snapshot) ∧
      snapshot.metadata.aggregateId = id

/-- The directory was there, or it is in the base directory or on the way to it. -/
def Allowed (dirs : List Dir) (baseDir dir : Dir) : Prop :=
  dir ∈ dirs ∨ dir <+: baseDir ∨ baseDir <+: dir

/-- No directory is made and no file written outside the base directory. -/
structure Confined (dirs : List Dir) (s : MultiFileEventStore) : Prop where
  dirs : ∀ dir ∈ s.disk.dirs, Allowed dirs s.baseDir dir
  events : ∀ dir, s.disk.events dir ≠ [] → s.baseDir <+: dir
  snapshots : ∀ dir, s.disk.snapshots dir ≠ none → s.baseDir <+: dir

/-- No two ids lead to one directory. -/
structure Apart (baseDir : Dir) (ids : Set (Option String)) : Prop where
  events : Set.InjOn (eventsDir baseDir) ids
  snapshots : Set.InjOn (snapshotDir baseDir) ids

/-- The directories of an id are in the base directory, and the directories on the way to them are
allowed. -/
structure Inside (dirs : List Dir) (baseDir : Dir) (id : Option String) : Prop where
  events : baseDir <+: eventsDir baseDir id
  snapshot : baseDir <+: snapshotDir baseDir id
  eventsWay : ∀ aggregateId ∈ id, ∀ dir ∈ way (origin baseDir aggregateId) (names aggregateId),
    Allowed dirs baseDir dir
  snapshotWay : ∀ dir ∈ way baseDir (snapshotNames id), Allowed dirs baseDir dir

variable {crc32 : List UInt8 → UInt32} {sha256 : List UInt8 → String} {json : EnvelopeJson}
  {snapshotJson : SnapshotJson} {dirs : List Dir} {baseDir : Dir} {ids : Set (Option String)}
  {s next : MultiFileEventStore} {id : Option String} {action : StoreAction}

/-! ### What is stored -/

/-- Each envelope is in the directory of its id, each snapshot is one of an id and in its directory,
and the directories are allowed. -/
structure Stored (crc32 : List UInt8 → UInt32) (json : EnvelopeJson) (snapshotJson : SnapshotJson)
    (dirs : List Dir) (baseDir : Dir) (ids : Set (Option String)) (s : MultiFileEventStore) :
    Prop where
  base : s.baseDir = baseDir
  events : ∃ contents, Inv crc32 json s contents ∧ ∀ dir, ∀ e ∈ contents dir,
    e.aggregateId ∈ ids ∧ eventsDir baseDir e.aggregateId = dir
  snapshots : ∀ dir, ∀ content ∈ s.disk.snapshots dir, ∃ id ∈ ids, snapshotDir baseDir id = dir ∧
    ∃ eventCount lastEventId state timestamp, content = Snapshot.protectedContent crc32 snapshotJson
      (Snapshot.new crc32 id eventCount lastEventId state timestamp)
  made : (∀ id ∈ ids, Inside dirs baseDir id) → ∀ dir ∈ s.disk.dirs, Allowed dirs baseDir dir

variable (crc32 json snapshotJson dirs baseDir ids) in
theorem stored_new : ∃ s, new crc32 json (.fresh dirs) baseDir = some s ∧
    Stored crc32 json snapshotJson dirs baseDir ids s := by
  obtain ⟨s, hnew, hinv, hbase, hdisk, -⟩ :=
    new_spec (fresh_files crc32 json dirs) baseDir
  refine ⟨s, hnew, hbase, ⟨fun _ ↦ [], hinv, fun dir e he ↦ absurd he List.not_mem_nil⟩, ?_, ?_⟩
  · intro dir content hcontent
    rw [hdisk] at hcontent
    exact absurd hcontent (by simp [Disk.fresh])
  · intro _ dir hdir
    rw [hdisk] at hdir
    rcases List.mem_append.mp hdir with hdir | hdir
    · rcases List.mem_append.mp hdir with hdir | hdir
      · exact Or.inl hdir
      · exact Or.inr (Or.inl ((List.mem_inits _ _).mp hdir))
    · rw [List.mem_singleton.mp hdir]
      exact Or.inr (Or.inr (List.prefix_append _ _))

theorem Stored.dirs_of_inside (h : Stored crc32 json snapshotJson dirs baseDir ids s)
    (hid : id ∈ ids) (hmade : ∀ dir ∈ next.disk.dirs, dir ∈ s.disk.dirs ∨
      ∃ aggregateId, id = some aggregateId ∧
        dir ∈ way (origin s.baseDir aggregateId) (names aggregateId))
    (hinside : ∀ id ∈ ids, Inside dirs baseDir id) :
    ∀ dir ∈ next.disk.dirs, Allowed dirs baseDir dir := by
  intro dir hdir
  rcases hmade dir hdir with hold | ⟨aggregateId, rfl, hway⟩
  · exact h.made hinside dir hold
  · rw [h.base] at hway
    exact (hinside _ hid).eventsWay aggregateId rfl dir hway

/-- An envelope that is put into the directory of its id. -/
theorem stored_put {contents : Dir → List EventEnvelope} {envelope persisted : EventEnvelope}
    (hcontents : ∀ dir, ∀ e ∈ contents dir,
      e.aggregateId ∈ ids ∧ eventsDir baseDir e.aggregateId = dir)
    (hid : envelope.aggregateId ∈ ids) (hsame : persisted.aggregateId = envelope.aggregateId) :
    ∀ dir, ∀ e ∈ put contents (eventsDir baseDir envelope.aggregateId) persisted dir,
      e.aggregateId ∈ ids ∧ eventsDir baseDir e.aggregateId = dir := by
  intro dir e he
  unfold put at he
  by_cases hdir : dir = eventsDir baseDir envelope.aggregateId
  · rw [hdir, Function.update_self] at he
    rcases List.mem_append.mp he with he | he
    · rw [hdir]
      exact hcontents _ e he
    · rw [List.mem_singleton.mp he, hsame]
      exact ⟨hid, hdir.symm⟩
  · rw [Function.update_of_ne hdir] at he
    exact hcontents dir e he

theorem Stored.append (h : Stored crc32 json snapshotJson dirs baseDir ids s)
    (envelope : EventEnvelope) (answer : DirAnswer) (hmem : envelope.aggregateId ∈ ids) :
    Stored crc32 json snapshotJson dirs baseDir ids
      (s.appendEnvelope crc32 sha256 json envelope answer).1 := by
  obtain ⟨contents, hinv, hcontents⟩ := h.events
  rcases appendEnvelope_spec sha256 hinv envelope answer with
    ⟨-, -, next, happend, hopened, hstores⟩ | ⟨-, next, persisted, happend, happended, hinv'⟩
  · rw [happend]
    refine ⟨hopened.baseDir.trans h.base,
      ⟨contents, hopened.inv_of_stores hinv hstores, hcontents⟩, ?_,
      h.dirs_of_inside hmem hopened.dirs⟩
    rw [hopened.snapshots]
    exact h.snapshots
  · rw [happend]
    have haggregate : persisted.aggregateId = envelope.aggregateId := by
      have hcontent := congrArg EventEnvelope.aggregateId happended.content
      exact hcontent
    rw [h.base] at hinv'
    refine ⟨happended.baseDir.trans h.base, ⟨_, hinv', stored_put hcontents hmem haggregate⟩, ?_,
      h.dirs_of_inside hmem happended.dirs⟩
    rw [happended.snapshots]
    exact h.snapshots

theorem Stored.saveSnapshot (h : Stored crc32 json snapshotJson dirs baseDir ids s)
    (state : String) (lastEventId : Option String) (timestamp : ℕ) (answer : DirAnswer)
    (hmem : id ∈ ids) : Stored crc32 json snapshotJson dirs baseDir ids
      (s.saveSnapshot crc32 snapshotJson id state lastEventId timestamp answer).1 := by
  obtain ⟨contents, hinv, hcontents⟩ := h.events
  obtain ⟨next, ok, hsave, -, hinv', hbase, -, -, hmade, -, hsnapshots⟩ :=
    saveSnapshot_spec snapshotJson hinv id state lastEventId timestamp answer
  rw [hsave]
  refine ⟨hbase.trans h.base, ⟨contents, hinv', hcontents⟩, ?_, fun hinside dir hdir ↦ ?_⟩
  · intro dir content hcontent
    rw [hsnapshots] at hcontent
    split_ifs at hcontent
    · by_cases hdir : dir = snapshotDir s.baseDir id
      · rw [hdir, Function.update_self] at hcontent
        rw [← Option.mem_some_iff.mp hcontent, hdir, h.base]
        exact ⟨id, hmem, rfl, _, _, _, _, rfl⟩
      · rw [Function.update_of_ne hdir] at hcontent
        exact h.snapshots dir content hcontent
    · exact h.snapshots dir content hcontent
  · rcases hmade dir hdir with hold | hway
    · exact h.made hinside dir hold
    · rw [h.base] at hway
      exact (hinside _ hmem).snapshotWay dir hway

theorem Stored.flushAll (h : Stored crc32 json snapshotJson dirs baseDir ids s) :
    Stored crc32 json snapshotJson dirs baseDir ids (s.flushAll crc32) := by
  obtain ⟨contents, hinv, hcontents⟩ := h.events
  obtain ⟨huntouched, hinv'⟩ := flushAll_spec hinv
  refine ⟨huntouched.baseDir.trans h.base, ⟨contents, hinv', hcontents⟩, ?_, ?_⟩
  · rw [huntouched.disk]
    exact h.snapshots
  · rw [huntouched.disk]
    exact h.made

theorem Stored.reopen (h : Stored crc32 json snapshotJson dirs baseDir ids s)
    (hnext : s.reopen crc32 json = some next) :
    Stored crc32 json snapshotJson dirs baseDir ids next := by
  obtain ⟨contents, hinv, hcontents⟩ := h.events
  obtain ⟨next', hreopen, hinv', hbase, hdisk, -⟩ := reopen_spec hinv
  obtain rfl : next' = next := Option.some.inj (hreopen.symm.trans hnext)
  refine ⟨hbase.trans h.base, ⟨contents, hinv', hcontents⟩, ?_, fun hinside dir hdir ↦ ?_⟩
  · rw [hdisk]
    exact h.snapshots
  · rw [hdisk] at hdir
    rcases List.mem_append.mp hdir with hdir | hdir
    · rcases List.mem_append.mp hdir with hdir | hdir
      · exact h.made hinside dir hdir
      · rw [h.base] at hdir
        exact Or.inr (Or.inl ((List.mem_inits _ _).mp hdir))
    · rw [List.mem_singleton.mp hdir, h.base]
      exact Or.inr (Or.inr (List.prefix_append _ _))

/-- A step stores under the id of its action. -/
theorem Stored.step (h : Stored crc32 json snapshotJson dirs baseDir ids s)
    (hid : ∀ id ∈ action.identity, id ∈ ids)
    (hnext : step crc32 sha256 json snapshotJson s action = some next) :
    Stored crc32 json snapshotJson dirs baseDir ids next := by
  cases action with
  | append envelope answer =>
    exact Option.some.inj hnext ▸ h.append envelope answer (hid _ rfl)
  | saveSnapshot aggregateId state lastEventId timestamp answer =>
    exact Option.some.inj hnext ▸ h.saveSnapshot state lastEventId timestamp answer (hid _ rfl)
  | flush => exact Option.some.inj hnext ▸ h.flushAll
  | reopen => exact h.reopen hnext

/-! ### Reading what is stored -/

/-- The snapshot in a directory is loaded, and its id leads to the directory. -/
theorem Stored.loadSnapshot (h : Stored crc32 json snapshotJson dirs baseDir ids s)
    {id : Option String} {content : List Char}
    (hcontent : s.disk.snapshots (snapshotDir s.baseDir id) = some content) :
    ∃ snapshot, s.loadSnapshot crc32 snapshotJson id = some (some snapshot) ∧
      snapshot.metadata.aggregateId ∈ ids ∧
      snapshotDir baseDir snapshot.metadata.aggregateId = snapshotDir baseDir id := by
  obtain ⟨other, hother, hdir, eventCount, lastEventId, state, timestamp, rfl⟩ :=
    h.snapshots _ _ hcontent
  refine ⟨Snapshot.new crc32 other eventCount lastEventId state timestamp, ?_, hother, ?_⟩
  · simp only [MultiFileEventStore.loadSnapshot, hcontent]
    rw [Snapshot.ofContent_protectedContent, Option.map_some]
  · rw [← h.base]
    rw [h.base] at hdir ⊢
    exact hdir

theorem mem_listSnapshots_some {name : String} (h : some name ∈ s.listSnapshots) :
    (s.disk.snapshots (s.baseDir ++ [name])).isSome = true := by
  rcases List.mem_append.mp h with h | h
  · split_ifs at h
    · exact absurd (List.mem_singleton.mp h) (by simp)
    · exact absurd h List.not_mem_nil
  · obtain ⟨dir, -, hdir⟩ := List.mem_filterMap.mp h
    obtain ⟨last, hlast, hname⟩ := Option.map_eq_some_iff.mp hdir
    obtain ⟨-, hkept⟩ := Option.filter_eq_some_iff.mp hlast
    obtain ⟨rfl, -, hsome⟩ := of_decide_eq_true hkept
    rw [← Option.some.inj hname]
    exact hsome

theorem mem_listSnapshots_none (h : none ∈ s.listSnapshots) :
    (s.disk.snapshots (snapshotDir s.baseDir none)).isSome = true := by
  rcases List.mem_append.mp h with h | h
  · split_ifs at h with hsome
    · exact hsome
    · exact absurd h List.not_mem_nil
  · obtain ⟨dir, -, hdir⟩ := List.mem_filterMap.mp h
    obtain ⟨last, -, hname⟩ := Option.map_eq_some_iff.mp hdir
    exact absurd hname (Option.some_ne_none _)

/-- An id that is listed leads to a snapshot. -/
theorem Stored.listed (h : Stored crc32 json snapshotJson dirs baseDir ids s) {id : Option String}
    (hlisted : id ∈ s.listSnapshots) :
    ∃ content, s.disk.snapshots (snapshotDir s.baseDir id) = some content := by
  cases id with
  | none => exact Option.isSome_iff_exists.mp (mem_listSnapshots_none hlisted)
  | some name =>
    obtain ⟨content, hcontent⟩ := Option.isSome_iff_exists.mp (mem_listSnapshots_some hlisted)
    -- The entry was made for a snapshot, so that its name is plain and leads to the entry.
    obtain ⟨other, -, hdir, -⟩ := h.snapshots _ content hcontent
    have hplain : Plain name := by
      rw [h.base] at hdir
      cases other with
      | none =>
        have hname : "global" = name := List.singleton_inj.mp (List.append_cancel_left hdir)
        exact hname ▸ ⟨by decide, by decide, by decide, by decide⟩
      | some path => exact plain_of_walk_eq hdir
    have hleads : snapshotDir s.baseDir (some name) = s.baseDir ++ [name] := hplain.walk s.baseDir
    exact ⟨content, hleads ▸ hcontent⟩

theorem Stored.isolated (h : Stored crc32 json snapshotJson dirs baseDir ids s)
    (hapart : Apart baseDir ids) : Isolated crc32 json snapshotJson ids s := by
  have hload : ∀ id ∈ ids, ∀ content, s.disk.snapshots (snapshotDir s.baseDir id) = some content →
      ∃ snapshot, s.loadSnapshot crc32 snapshotJson id = some (some snapshot) ∧
        snapshot.metadata.aggregateId = id := by
    intro id hid content hcontent
    obtain ⟨snapshot, hsnapshot, hmem, hdir⟩ := h.loadSnapshot hcontent
    exact ⟨snapshot, hsnapshot, hapart.snapshots hmem hid hdir⟩
  refine ⟨fun id hid found hfound e he ↦ ?_, fun id hid snapshot hsnapshot ↦ ?_,
    fun id hid hlisted ↦ ?_⟩
  · obtain ⟨contents, hinv, hcontents⟩ := h.events
    by_cases hopen : s.stores id = none
    · rw [readStore_of_not_open hopen, Option.some.injEq] at hfound
      exact absurd he (hfound ▸ List.not_mem_nil)
    · rw [readStore_of_open hinv hopen, Option.some.injEq, h.base] at hfound
      obtain ⟨hmem, hdir⟩ := hcontents _ e (hfound ▸ he)
      exact hapart.events hmem hid hdir
  · cases hcontent : s.disk.snapshots (snapshotDir s.baseDir id) with
    | none =>
      simp only [MultiFileEventStore.loadSnapshot, hcontent] at hsnapshot
      exact absurd hsnapshot (by simp)
    | some content =>
      obtain ⟨other, hother, hid'⟩ := hload id hid content hcontent
      rw [hsnapshot, Option.some.injEq, Option.some.injEq] at hother
      rw [hother, hid']
  · obtain ⟨content, hcontent⟩ := h.listed hlisted
    exact hload id hid content hcontent

theorem Stored.confined (h : Stored crc32 json snapshotJson dirs baseDir ids s)
    (hinside : ∀ id ∈ ids, Inside dirs baseDir id) : Confined dirs s := by
  rw [← h.base] at hinside
  refine ⟨fun dir hdir ↦ ?_, fun dir hdir ↦ ?_, fun dir hdir ↦ ?_⟩
  · rw [h.base] at hinside ⊢
    exact h.made hinside dir hdir
  · obtain ⟨contents, hinv, hcontents⟩ := h.events
    have hne : contents dir ≠ [] := by
      intro hnil
      rw [hinv.files, hnil] at hdir
      exact hdir rfl
    obtain ⟨e, he⟩ := List.exists_mem_of_ne_nil _ hne
    obtain ⟨hmem, rfl⟩ := hcontents dir e he
    rw [← h.base]
    exact (hinside _ hmem).events
  · obtain ⟨content, hcontent⟩ := Option.ne_none_iff_exists'.mp hdir
    obtain ⟨id, hid, rfl, -⟩ := h.snapshots dir content hcontent
    rw [← h.base]
    exact (hinside id hid).snapshot

/-! ### What a run shows of directories -/

/-- An event of an aggregate. -/
def eventOf (id : Option String) : EventEnvelope := ⟨"created", "e1", 1, "{}", id, none, none⟩

variable (sha256 snapshotJson) in
theorem step_append_made {contents : Dir → List EventEnvelope} (hinv : Inv crc32 json s contents)
    (id : Option String) :
    ∃ next persisted, step crc32 sha256 json snapshotJson s (.append (eventOf id) .made) =
        some next ∧ Appended s next contents (eventOf id) persisted ∧
      persisted.aggregateId = id ∧
      Inv crc32 json next (put contents (eventsDir s.baseDir id) persisted) := by
  rcases appendEnvelope_spec sha256 hinv (eventOf id) .made with
    ⟨-, hrefused, -⟩ | ⟨-, next, persisted, happend, happended, hinv'⟩
  · exact absurd rfl hrefused
  · refine ⟨next, persisted, by rw [MultiFileEventStore.step, happend], happended, ?_, hinv'⟩
    have haggregate := congrArg EventEnvelope.aggregateId happended.content
    exact haggregate

variable (sha256 snapshotJson) in
theorem step_saveSnapshot_made {contents : Dir → List EventEnvelope}
    (hinv : Inv crc32 json s contents) (id : Option String) :
    ∃ next, step crc32 sha256 json snapshotJson s (.saveSnapshot id "{}" none 1 .made) = some next ∧
      next.baseDir = s.baseDir ∧
      (∀ dir ∈ way s.baseDir (snapshotNames id), dir ∈ next.disk.dirs) ∧
      next.disk.snapshots (snapshotDir s.baseDir id) =
        some (Snapshot.protectedContent crc32 snapshotJson
          (Snapshot.new crc32 id (s.eventCounts id) none "{}" 1)) := by
  obtain ⟨next, ok, hsave, hok, -, hbase, -, -, -, hmade, hsnapshots⟩ :=
    saveSnapshot_spec snapshotJson hinv id "{}" none 1 .made
  obtain rfl := hok.mpr rfl
  refine ⟨next, by rw [MultiFileEventStore.step, hsave], hbase, hmade rfl, ?_⟩
  rw [hsnapshots, if_pos rfl, Function.update_self]

/-- The envelope that was put is in its directory. -/
theorem mem_put (contents : Dir → List EventEnvelope) (dir : Dir) (envelope : EventEnvelope) :
    envelope ∈ put contents dir envelope dir := by
  rw [put, Function.update_self]
  exact List.mem_append_right _ List.mem_cons_self

/-- When two ids lead to one directory, an append under each lets the second read the first one's
event. -/
theorem eq_of_sameEventsDir {contents : Dir → List EventEnvelope} {first second : Option String}
    (hinv : Inv crc32 json s contents) (hfirst : first ∈ ids) (hsecond : second ∈ ids)
    (hdir : eventsDir s.baseDir first = eventsDir s.baseDir second)
    (hruns : ∀ actions, Over ids actions → Always (step crc32 sha256 json snapshotJson)
      (Isolated crc32 json snapshotJson ids) s actions) : first = second := by
  obtain ⟨middle, persisted, hstep, happended, hid, hinv'⟩ :=
    step_append_made sha256 snapshotJson hinv first
  obtain ⟨last, persisted', hstep', happended', -, hinv''⟩ :=
    step_append_made sha256 snapshotJson hinv' second
  have hover : Over ids [.append (eventOf first) .made, .append (eventOf second) .made] := by
    intro action haction id hid
    rcases List.mem_cons.mp haction with rfl | haction
    · exact Option.mem_some_iff.mp hid ▸ hfirst
    · rw [List.mem_singleton.mp haction] at hid
      exact Option.mem_some_iff.mp hid ▸ hsecond
  have hisolated := always_iff_forall_prefix.mp (hruns _ hover) _ last List.prefix_rfl
    (exec_cons_eq_some.mpr ⟨middle, hstep, exec_cons_eq_some.mpr ⟨last, hstep', rfl⟩⟩)
  have hopen : last.stores second ≠ none := (happended'.stores second).mpr (Or.inl rfl)
  have hmem : persisted ∈ put (put contents (eventsDir s.baseDir first) persisted)
      (eventsDir middle.baseDir second) persisted' (eventsDir last.baseDir second) := by
    rw [happended'.baseDir, happended.baseDir, ← hdir, put, Function.update_self]
    exact List.mem_append_left _ (mem_put _ _ _)
  have hread := hisolated.events second hsecond _ (readStore_of_open hinv'' hopen) persisted hmem
  exact hid.symm.trans hread

/-- When the snapshots of two ids are in one directory, the second loads the first one's. -/
theorem eq_of_sameSnapshotDir {contents : Dir → List EventEnvelope} {first second : Option String}
    (hinv : Inv crc32 json s contents) (hfirst : first ∈ ids) (hsecond : second ∈ ids)
    (hdir : snapshotDir s.baseDir first = snapshotDir s.baseDir second)
    (hruns : ∀ actions, Over ids actions → Always (step crc32 sha256 json snapshotJson)
      (Isolated crc32 json snapshotJson ids) s actions) : first = second := by
  obtain ⟨last, hstep, hbase, -, hsnapshot⟩ :=
    step_saveSnapshot_made sha256 snapshotJson hinv first
  have hover : Over ids [.saveSnapshot first "{}" none 1 .made] := by
    intro action haction id hid
    rw [List.mem_singleton.mp haction] at hid
    exact Option.mem_some_iff.mp hid ▸ hfirst
  have hisolated := always_iff_forall_prefix.mp (hruns _ hover) _ last List.prefix_rfl
    (exec_cons_eq_some.mpr ⟨last, hstep, rfl⟩)
  rw [hdir, ← hbase] at hsnapshot
  have hload : last.loadSnapshot crc32 snapshotJson second =
      some (some (Snapshot.new crc32 first (s.eventCounts first) none "{}" 1)) := by
    simp only [MultiFileEventStore.loadSnapshot, hsnapshot]
    rw [Snapshot.ofContent_protectedContent, Option.map_some]
  exact hisolated.snapshots second hsecond _ hload

/-- The directories of an append and of a snapshot are where the files are written. -/
theorem inside_of_confined {contents : Dir → List EventEnvelope} (hinv : Inv crc32 json s contents)
    (hid : id ∈ ids) (hclosed : ∀ aggregateId, s.stores (some aggregateId) = none)
    (hruns : ∀ actions, Over ids actions → Always (step crc32 sha256 json snapshotJson)
      (Confined dirs) s actions) : Inside dirs s.baseDir id := by
  obtain ⟨appended, persisted, hstep, happended, -, hinv'⟩ :=
    step_append_made sha256 snapshotJson hinv id
  obtain ⟨saved, hstep', hbase, hmade, hsnapshot⟩ :=
    step_saveSnapshot_made sha256 snapshotJson hinv id
  have hover : Over ids [.append (eventOf id) .made] ∧
      Over ids [.saveSnapshot id "{}" none 1 .made] := by
    constructor
    all_goals
      intro action haction other hother
      rw [List.mem_singleton.mp haction] at hother
      exact Option.mem_some_iff.mp hother ▸ hid
  have happendConfined := always_iff_forall_prefix.mp (hruns _ hover.1) _ appended List.prefix_rfl
    (exec_cons_eq_some.mpr ⟨appended, hstep, rfl⟩)
  have hsaveConfined := always_iff_forall_prefix.mp (hruns _ hover.2) _ saved List.prefix_rfl
    (exec_cons_eq_some.mpr ⟨saved, hstep', rfl⟩)
  refine ⟨?_, ?_, fun aggregateId haggregate dir hdir ↦ ?_, fun dir hdir ↦ ?_⟩
  · rw [← happended.baseDir]
    refine happendConfined.events _ ?_
    rw [happended.baseDir, hinv'.files]
    intro hnil
    have hempty := List.map_eq_nil_iff.mp (FileStorage.eventLines_eq_nil_iff.mp hnil)
    exact absurd (hempty ▸ mem_put contents (eventsDir s.baseDir id) persisted) List.not_mem_nil
  · rw [← hbase]
    refine hsaveConfined.snapshots _ ?_
    rw [hbase, hsnapshot]
    exact Option.some_ne_none _
  · obtain rfl := Option.mem_def.mp haggregate
    rw [← happended.baseDir]
    exact happendConfined.dirs dir (happended.made (hclosed aggregateId) aggregateId rfl dir hdir)
  · rw [← hbase]
    exact hsaveConfined.dirs dir (hmade dir hdir)

/-- In every run over a set of ids, what is read for an id of the set was stored under it and
nothing is written outside the base directory, exactly when no two of the ids lead to one directory
and none leads out of the base directory. -/
theorem isolated_iff (crc32 : List UInt8 → UInt32) (sha256 : List UInt8 → String)
    (json : EnvelopeJson) (snapshotJson : SnapshotJson) (dirs : List Dir) (baseDir : Dir)
    (ids : Set (Option String)) :
    ∃ opened, new crc32 json (.fresh dirs) baseDir = some opened ∧
      ((∀ actions, Over ids actions → Always (step crc32 sha256 json snapshotJson)
          (fun s ↦ Isolated crc32 json snapshotJson ids s ∧ Confined dirs s) opened actions) ↔
        Apart baseDir ids ∧ ∀ id ∈ ids, Inside dirs baseDir id) := by
  obtain ⟨opened, hnew, hinv, hbase, -, hclosed, -⟩ :=
    new_spec (fresh_files crc32 json dirs) baseDir
  obtain ⟨opened', hnew', hstored⟩ := stored_new crc32 json snapshotJson dirs baseDir ids
  obtain rfl : opened' = opened := Option.some.inj (hnew'.symm.trans hnew)
  refine ⟨opened', hnew, fun hruns ↦ ?_, fun ⟨hapart, hinside⟩ actions hover ↦ ?_⟩
  · have hisolated : ∀ actions, Over ids actions → Always (step crc32 sha256 json snapshotJson)
        (Isolated crc32 json snapshotJson ids) opened' actions := fun actions hover ↦
      (hruns actions hover).mono fun _ h ↦ h.1
    have hconfined : ∀ actions, Over ids actions → Always (step crc32 sha256 json snapshotJson)
        (Confined dirs) opened' actions := fun actions hover ↦
      (hruns actions hover).mono fun _ h ↦ h.2
    subst hbase
    exact ⟨⟨fun first hfirst second hsecond hdir ↦
        eq_of_sameEventsDir hinv hfirst hsecond hdir hisolated,
      fun first hfirst second hsecond hdir ↦
        eq_of_sameSnapshotDir hinv hfirst hsecond hdir hisolated⟩,
      fun id hid ↦ inside_of_confined hinv hid hclosed hconfined⟩
  · have hsteps : EachStep (step crc32 sha256 json snapshotJson)
        (fun _ action ↦ ∀ id ∈ action.identity, id ∈ ids) opened' actions :=
      eachStep_of_forall (fun action haction _ ↦ hover action haction) opened'
    exact (EachStep.always (fun s action next hs hid hnext ↦ hs.step hid hnext) hstored hsteps).mono
      fun s hs ↦ ⟨hs.isolated hapart, hs.confined hinside⟩

/-- An event of the id `global` is read as one of no aggregate, and one of an id that leads out of
the base directory is written there. -/
theorem global_read_as_none :
    ∃ opened last outside found,
      new (fun _ ↦ 0) .ofFormat (.fresh []) ["data"] = some opened ∧
      Run.exec (step (fun _ ↦ 0) (fun _ ↦ "00") .ofFormat .ofFormat) opened
        [.append (eventOf (some "global")) .made] = some last ∧
      last.readStore (fun _ ↦ 0) .ofFormat none = some found ∧
      (∃ e ∈ found, e.aggregateId = some "global") ∧
      Run.exec (step (fun _ ↦ 0) (fun _ ↦ "00") .ofFormat .ofFormat) opened
        [.append (eventOf (some "../other")) .made] = some outside ∧
      outside.disk.events ["other"] ≠ [] := by
  obtain ⟨opened, hnew, hinv, hbase, -⟩ :=
    new_spec (fresh_files (fun _ ↦ 0) .ofFormat []) ["data"]
  obtain ⟨last, persisted, hstep, happended, hid, hinv'⟩ :=
    step_append_made (fun _ ↦ "00") .ofFormat hinv (some "global")
  obtain ⟨outside, escaped, hstep', -, -, hinv''⟩ :=
    step_append_made (fun _ ↦ "00") .ofFormat hinv (some "../other")
  have hglobal : eventsDir ["data"] (some "global") = eventsDir ["data"] none := by decide
  have hother : eventsDir ["data"] (some "../other") = ["other"] := by decide
  have hread := readStore_of_open hinv' hinv'.globalStore
  refine ⟨opened, last, outside, _, hnew, exec_cons_eq_some.mpr ⟨last, hstep, rfl⟩, hread,
    ⟨persisted, ?_, hid⟩, exec_cons_eq_some.mpr ⟨outside, hstep', rfl⟩, ?_⟩
  · rw [happended.baseDir, hbase, ← hglobal]
    exact mem_put _ _ _
  · rw [hbase, hother] at hinv''
    rw [hinv''.files]
    intro hnil
    have hempty := List.map_eq_nil_iff.mp (FileStorage.eventLines_eq_nil_iff.mp hnil)
    exact absurd (hempty ▸ mem_put _ ["other"] escaped) List.not_mem_nil

/-! ### Plain names -/

/-- The ids that are plain names other than `global`, and the id of the global store. -/
def plainIds : Set (Option String) := {id | ∀ name ∈ id, Plain name ∧ name ≠ "global"}

theorem some_mem_plainIds {name : String} (hplain : Plain name) (hglobal : name ≠ "global") :
    some name ∈ plainIds := by
  intro other hother
  obtain rfl := Option.some.inj hother
  exact ⟨hplain, hglobal⟩

theorem none_mem_plainIds : none ∈ plainIds := fun _ h ↦ absurd h (Option.not_mem_none _)

/-- The name of the directory of an id that is a plain name. -/
def entryOf (id : Option String) : String := id.getD "global"

theorem plain_entryOf (h : id ∈ plainIds) : Plain (entryOf id) := by
  cases id with
  | none => exact ⟨by decide, by decide, by decide, by decide⟩
  | some name => exact (h name rfl).1

theorem entryOf_injOn : Set.InjOn entryOf plainIds := by
  intro first hfirst second hsecond h
  cases first with
  | none =>
    cases second with
    | none => rfl
    | some name => exact absurd h.symm (hsecond name rfl).2
  | some name =>
    cases second with
    | none => exact absurd h (hfirst name rfl).2
    | some other => exact congrArg some h

theorem dir_of_plain (h : id ∈ plainIds) (baseDir : Dir) :
    eventsDir baseDir id = baseDir ++ [entryOf id] ∧
      snapshotDir baseDir id = baseDir ++ [entryOf id] ∧ snapshotNames id = [entryOf id] := by
  cases id with
  | none => exact ⟨rfl, rfl, rfl⟩
  | some name =>
    have hplain : Plain name := (h name rfl).1
    exact ⟨join_of_plain hplain baseDir, hplain.walk baseDir, hplain.names⟩

/-- On the way to an entry of the base directory no other directory is passed. -/
theorem allowed_of_plain {name : String} (h : Plain name) (dirs : List Dir) (baseDir : Dir) :
    ∀ dir ∈ way baseDir [name], Allowed dirs baseDir dir := by
  intro dir hdir
  have hway : way baseDir [name] = [baseDir, baseDir ++ [name]] := by
    show [baseDir, enter baseDir name] = _
    rw [enter, if_neg h.notDots]
  rw [hway] at hdir
  rcases List.mem_cons.mp hdir with rfl | hdir
  · exact Or.inr (Or.inr List.prefix_rfl)
  · rw [List.mem_singleton.mp hdir]
    exact Or.inr (Or.inr (List.prefix_append _ _))

/-- Plain names lead to directories of their own in the base directory. -/
theorem apart_of_plain (dirs : List Dir) (baseDir : Dir) :
    Apart baseDir plainIds ∧ ∀ id ∈ plainIds, Inside dirs baseDir id := by
  refine ⟨⟨?_, ?_⟩, fun id hid ↦ ?_⟩
  · intro first hfirst second hsecond h
    rw [(dir_of_plain hfirst baseDir).1, (dir_of_plain hsecond baseDir).1] at h
    exact entryOf_injOn hfirst hsecond (List.singleton_inj.mp (List.append_cancel_left h))
  · intro first hfirst second hsecond h
    rw [(dir_of_plain hfirst baseDir).2.1, (dir_of_plain hsecond baseDir).2.1] at h
    exact entryOf_injOn hfirst hsecond (List.singleton_inj.mp (List.append_cancel_left h))
  · obtain ⟨hevents, hsnapshot, hnames⟩ := dir_of_plain hid baseDir
    have hplain := plain_entryOf hid
    refine ⟨hevents ▸ List.prefix_append _ _, hsnapshot ▸ List.prefix_append _ _, ?_, ?_⟩
    · intro aggregateId haggregate
      have hname : Plain aggregateId := (hid aggregateId haggregate).1
      rw [hname.names, hname.origin]
      exact allowed_of_plain hname dirs baseDir
    · rw [hnames]
      exact allowed_of_plain hplain dirs baseDir

end MultiFileEventStore

end Lithair.Engine
