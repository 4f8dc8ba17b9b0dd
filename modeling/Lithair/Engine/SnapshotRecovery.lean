import Lithair.Engine.Isolation
import Lithair.Lib.Checkpoint

/-!
# Recovery from snapshots

The state of an aggregate is the fold of its events. A snapshot keeps the state with the number of
events that the store has counted, and a recovery applies the events behind that number. The counts
and the open stores begin anew with each store, so that both numbers can be wrong afterwards.

`recovers_of_faithful`: a run recovers the state of each aggregate when each of its steps is
`Faithful`, and when a state shows its events, only then. `Progress` of `Lib/Checkpoint.lean` has
the numbers of one aggregate, and `Tracks.step` says what the store does to them.
-/

namespace Lithair.Engine

open Lithair.Lib Lithair.Lib.Checkpoint Lithair.Lib.Path Lithair.Lib.Run

namespace MultiFileEventStore

/-! ### States -/

/-- What an event does to the state of its aggregate, and the text of a state in a snapshot. -/
structure Folding (S : Type*) where
  initial : S
  apply : S → EventEnvelope → S
  render : S → String
  parse : String → Option S
  parse_render : ∀ state, parse (render state) = some state

namespace Folding

variable {S : Type*} (folding : Folding S)

/-- Apply what events say, whatever their places in the chain of the store. -/
def applyAll (state : S) (events : List EventEnvelope) : S :=
  (events.map EventEnvelope.content).foldl folding.apply state

def stateOf (events : List EventEnvelope) : S := folding.applyAll folding.initial events

theorem applyAll_append (state : S) (first second : List EventEnvelope) :
    folding.applyAll state (first ++ second) =
      folding.applyAll (folding.applyAll state first) second := by
  rw [applyAll, List.map_append, List.foldl_append]
  rfl

theorem applyAll_congr (state : S) {first second : List EventEnvelope}
    (h : first.map EventEnvelope.content = second.map EventEnvelope.content) :
    folding.applyAll state first = folding.applyAll state second := by
  rw [applyAll, h, applyAll]

/-- The state shows what its events say. -/
def Shows : Prop :=
  ∀ first second, folding.stateOf first = folding.stateOf second →
    first.map EventEnvelope.content = second.map EventEnvelope.content

/-- The state that keeps what its events say, with the lines of a log as its text. -/
def log (json : EnvelopeJson) : Folding (List EventEnvelope) where
  initial := []
  apply := fun events e ↦ events ++ [e]
  render := fun events ↦
    String.ofList (FileStorage.eventLines (fun _ ↦ 0) true (events.map json.render))
  parse := fun text ↦
    (readEvents (fun _ ↦ 0) text.toList).map fun lines ↦ lines.filterMap json.parse
  parse_render := fun events ↦ by
    rw [String.toList_ofList, json.readEvents_eventLines, Option.map_some,
      json.filterMap_parse_render]

theorem stateOf_log (json : EnvelopeJson) (events : List EventEnvelope) :
    (log json).stateOf events = events.map EventEnvelope.content := by
  have hfold : ∀ (contents state : List EventEnvelope),
      contents.foldl (log json).apply state = state ++ contents := by
    intro contents
    induction contents with
    | nil => exact fun state ↦ (List.append_nil state).symm
    | cons e rest ih =>
      intro state
      rw [List.foldl_cons, ih]
      exact List.append_assoc state [e] rest
  exact hfold _ []

theorem shows_log (json : EnvelopeJson) : (log json).Shows := by
  intro first second h
  rwa [stateOf_log, stateOf_log] at h

end Folding

/-! ### Sessions -/

/-- A store, and the envelopes that were appended since there was nothing on the disk. -/
structure Session where
  store : MultiFileEventStore
  history : List EventEnvelope

def Session.historyOf (s : Session) (aggregateId : Option String) : List EventEnvelope :=
  s.history.filter fun e ↦ e.aggregateId = aggregateId

/-- A call on the store, a snapshot being one of the state so far; or the store is dropped and made
again. -/
inductive SessionAction
  | append (envelope : EventEnvelope) (answer : DirAnswer)
  | saveSnapshot (aggregateId : Option String) (lastEventId : Option String) (timestamp : ℕ)
    (answer : DirAnswer)
  | flush
  | reopen

def SessionAction.identity : SessionAction → Option (Option String)
  | .append envelope _ => some envelope.aggregateId
  | .saveSnapshot aggregateId _ _ _ => some aggregateId
  | .flush | .reopen => none

section Model

variable {S : Type*} (crc32 : List UInt8 → UInt32) (sha256 : List UInt8 → String)
  (json : EnvelopeJson) (snapshotJson : SnapshotJson) (folding : Folding S)

def Session.step (s : Session) : SessionAction → Option Session
  | .append envelope answer =>
    match s.store.appendEnvelope crc32 sha256 json envelope answer with
    | (store, true) => some ⟨store, s.history ++ [envelope]⟩
    | (store, false) => some { s with store }
  | .saveSnapshot aggregateId lastEventId timestamp answer =>
    let state := folding.render (folding.stateOf (s.historyOf aggregateId))
    some { s with
      store :=
        (s.store.saveSnapshot crc32 snapshotJson aggregateId state lastEventId timestamp answer).1 }
  | .flush => some { s with store := s.store.flushAll crc32 }
  | .reopen => (s.store.reopen crc32 json).map fun store ↦ { s with store }

/-- The state that a recovery begins with. -/
def RecoveryContext.start (ctx : RecoveryContext) : Option S :=
  match ctx.snapshot with
  | some snapshot => folding.parse snapshot.state
  | none => some folding.initial

/-- Apply the events behind the snapshot to its state. -/
def recover (s : MultiFileEventStore) (aggregateId : Option String) : Option S :=
  (s.recoveryContext crc32 snapshotJson aggregateId).bind fun ctx ↦
    (s.readEventsAfterSnapshot crc32 json snapshotJson aggregateId).bind fun events ↦
      (ctx.start folding).map fun state ↦ folding.applyAll state events

/-- The recovery gives the state of all events that were appended to the aggregate. -/
def Recovers (s : Session) (aggregateId : Option String) : Prop :=
  recover crc32 json snapshotJson folding s.store aggregateId =
    some (folding.stateOf (s.historyOf aggregateId))

/-- The snapshot of the aggregate counts all its events; when there is none, there are no events. -/
def CountsAll (s : Session) (aggregateId : Option String) : Prop :=
  ∀ found ∈ s.store.loadSnapshot crc32 snapshotJson aggregateId,
    (found.map fun snapshot ↦ snapshot.metadata.eventCount).getD 0 =
      (s.historyOf aggregateId).length

/-- An append that opens a store finds a snapshot that counts all events of the aggregate, a
snapshot of an open store is saved when the store has counted all its events, and a store is made
again when the snapshots of the open stores but the global one count all their events. -/
def Faithful (ids : Set (Option String)) (s : Session) : SessionAction → Prop
  | .append envelope answer =>
    s.store.stores envelope.aggregateId = none → answer = .made →
      CountsAll crc32 snapshotJson s envelope.aggregateId
  | .saveSnapshot aggregateId _ _ answer =>
    s.store.stores aggregateId ≠ none → answer = .made →
      s.store.getEventCount aggregateId = (s.historyOf aggregateId).length
  | .flush => True
  | .reopen => ∀ name, some name ∈ ids → s.store.stores (some name) ≠ none →
      CountsAll crc32 snapshotJson s (some name)

end Model

/-! ### What a session does to the numbers of an aggregate -/

/-- What an action does to the numbers of an aggregate, whose store may be open. -/
def SessionAction.moveOf (action : SessionAction) (isOpen : Bool) (aggregateId : Option String) :
    Option Move :=
  match action with
  | .append envelope answer =>
    if envelope.aggregateId = aggregateId ∧ (isOpen = true ∨ answer = .made) then some .append
    else none
  | .saveSnapshot saved _ _ answer =>
    if saved = aggregateId ∧ answer = .made then some .save else none
  | .flush => none
  | .reopen => some (.restart (aggregateId = none))

variable {S : Type*} {crc32 : List UInt8 → UInt32} {sha256 : List UInt8 → String}
  {json : EnvelopeJson} {snapshotJson : SnapshotJson} {folding : Folding S} {dirs : List Dir}
  {baseDir : Dir} {ids : Set (Option String)} {s next : Session} {aggregateId : Option String}
  {p : Progress} {progress : Option String → Progress} {action : SessionAction}

/-- The snapshot that is loaded counts the events to skip and has the state of those covered. -/
def Reaches (crc32 : List UInt8 → UInt32) (snapshotJson : SnapshotJson) (folding : Folding S)
    (store : MultiFileEventStore) (history : List EventEnvelope) (aggregateId : Option String)
    (skip covered : ℕ) : Prop :=
  ∃ found, store.loadSnapshot crc32 snapshotJson aggregateId = some found ∧
    (found.map fun snapshot ↦ snapshot.metadata.eventCount).getD 0 = skip ∧
    RecoveryContext.start folding ⟨found, skip⟩ = some (folding.stateOf (history.take covered))

/-- The numbers of an aggregate. -/
structure Counts (crc32 : List UInt8 → UInt32) (snapshotJson : SnapshotJson) (folding : Folding S)
    (s : Session) (aggregateId : Option String) (p : Progress) : Prop where
  total : (s.historyOf aggregateId).length = p.total
  counted : s.store.eventCounts aggregateId = p.counted
  readable : s.store.stores aggregateId ≠ none ↔ p.readable = true
  reaches : Reaches crc32 snapshotJson folding s.store (s.historyOf aggregateId) aggregateId p.skip
    p.covered

/-- The files have what the events of the session say, and the numbers are as they show. -/
structure Tracks (crc32 : List UInt8 → UInt32) (json : EnvelopeJson) (snapshotJson : SnapshotJson)
    (folding : Folding S) (baseDir : Dir) (ids : Set (Option String)) (s : Session)
    (progress : Option String → Progress) : Prop where
  base : s.store.baseDir = baseDir
  events : ∃ contents, Inv crc32 json s.store contents ∧ ∀ id ∈ ids,
    (contents (eventsDir baseDir id)).map EventEnvelope.content =
      (s.historyOf id).map EventEnvelope.content
  counts : ∀ id ∈ ids, Counts crc32 snapshotJson folding s id (progress id)

theorem historyOf_append (s : Session) (store : MultiFileEventStore) (envelope : EventEnvelope)
    (id : Option String) :
    Session.historyOf ⟨store, s.history ++ [envelope]⟩ id =
      s.historyOf id ++ if envelope.aggregateId = id then [envelope] else [] := by
  rw [Session.historyOf, List.filter_append, List.filter_singleton]
  split_ifs with h
  · rw [decide_eq_true h]
    rfl
  · rw [decide_eq_false h]
    rfl

/-- The snapshot reaches as far when events are added and its file is as it was. -/
theorem Reaches.frame {store store' : MultiFileEventStore} {history : List EventEnvelope}
    {skip covered : ℕ}
    (h : Reaches crc32 snapshotJson folding store history aggregateId skip covered)
    (hcovered : covered ≤ history.length) (more : List EventEnvelope)
    (hbase : store'.baseDir = store.baseDir)
    (hfile : store'.disk.snapshots (snapshotDir store.baseDir aggregateId) =
      store.disk.snapshots (snapshotDir store.baseDir aggregateId)) :
    Reaches crc32 snapshotJson folding store' (history ++ more) aggregateId skip covered := by
  obtain ⟨found, hload, hskip, hstart⟩ := h
  refine ⟨found, ?_, hskip, ?_⟩
  · rw [← hload, loadSnapshot, loadSnapshot, hbase, hfile]
  · rw [List.take_append_of_le_length hcovered, hstart]

/-- What is recovered is the state of the events in the snapshot and those that are read behind
it. -/
theorem Tracks.recover_eq (h : Tracks crc32 json snapshotJson folding baseDir ids s progress)
    (hid : aggregateId ∈ ids) :
    recover crc32 json snapshotJson folding s.store aggregateId =
      some (folding.stateOf ((progress aggregateId).replayed (s.historyOf aggregateId))) := by
  obtain ⟨contents, hinv, hcontents⟩ := h.events
  have hcounts := h.counts aggregateId hid
  obtain ⟨found, hload, hskip, hstart⟩ := hcounts.reaches
  have hcontext : s.store.recoveryContext crc32 snapshotJson aggregateId =
      some ⟨found, (progress aggregateId).skip⟩ := by
    rw [recoveryContext, hload, Option.map_some, hskip]
  -- A store that is not open reads as empty, whatever its file has.
  have hread : ∃ events, s.store.readStore crc32 json aggregateId = some events ∧
      (events.drop (progress aggregateId).skip).map EventEnvelope.content =
        (if (progress aggregateId).readable then
          (s.historyOf aggregateId).drop (progress aggregateId).skip else []).map
          EventEnvelope.content := by
    by_cases hopen : s.store.stores aggregateId = none
    · have hclosed : ¬ (progress aggregateId).readable = true := fun h ↦
        hcounts.readable.mpr h hopen
      refine ⟨[], readStore_of_not_open hopen, ?_⟩
      rw [if_neg hclosed, List.drop_nil]
    · refine ⟨_, readStore_of_open hinv hopen, ?_⟩
      rw [if_pos (hcounts.readable.mp hopen), List.map_drop, List.map_drop, h.base,
        hcontents aggregateId hid]
  obtain ⟨events, hevents, hsame⟩ := hread
  rw [recover, readEventsAfterSnapshot, hcontext, Option.bind_some,
    Option.bind_some, hevents, Option.map_some, Option.bind_some, hstart, Option.map_some,
    folding.applyAll_congr _ hsame, Progress.replayed, Folding.stateOf, Folding.stateOf,
    folding.applyAll_append]

theorem Tracks.recovers (h : Tracks crc32 json snapshotJson folding baseDir ids s progress)
    (hid : aggregateId ∈ ids) (hwhole : (progress aggregateId).Whole) :
    Recovers crc32 json snapshotJson folding s aggregateId := by
  have htotal := (h.counts aggregateId hid).total
  rw [Recovers, h.recover_eq hid, (Progress.replayed_eq_iff htotal).mpr hwhole]

/-- When a state shows its events, none is left out and none applied twice. -/
theorem Tracks.recovers_iff (h : Tracks crc32 json snapshotJson folding baseDir ids s progress)
    (hshows : folding.Shows) (hid : aggregateId ∈ ids) :
    Recovers crc32 json snapshotJson folding s aggregateId ↔ (progress aggregateId).Whole := by
  refine ⟨fun hrecovers ↦ ?_, h.recovers hid⟩
  rw [Recovers, h.recover_eq hid, Option.some.injEq] at hrecovers
  have hevents := hshows _ _ hrecovers
  rw [Progress.replayed_map] at hevents
  refine (Progress.replayed_eq_iff ?_).mp hevents
  rw [List.length_map, (h.counts aggregateId hid).total]

/-- The numbers stay where nothing that belongs to the aggregate changes. -/
theorem Counts.frame (h : Counts crc32 snapshotJson folding s aggregateId p)
    (hhistory : next.historyOf aggregateId = s.historyOf aggregateId)
    (hcounted : next.store.eventCounts aggregateId = s.store.eventCounts aggregateId)
    (hstores : next.store.stores aggregateId ≠ none ↔ s.store.stores aggregateId ≠ none)
    (hbase : next.store.baseDir = s.store.baseDir)
    (hfile : next.store.disk.snapshots (snapshotDir s.store.baseDir aggregateId) =
      s.store.disk.snapshots (snapshotDir s.store.baseDir aggregateId)) :
    Counts crc32 snapshotJson folding next aggregateId p := by
  refine ⟨hhistory ▸ h.total, hcounted.trans h.counted, hstores.trans h.readable, ?_⟩
  rw [hhistory, ← List.append_nil (s.historyOf aggregateId)]
  exact h.reaches.frame (h.total ▸ p.covered_le) [] hbase hfile

/-- One more event of the aggregate. -/
theorem Counts.append (h : Counts crc32 snapshotJson folding s aggregateId p)
    {contents : Dir → List EventEnvelope} {store : MultiFileEventStore}
    {envelope persisted : EventEnvelope}
    (happended : Appended s.store store contents envelope persisted)
    (hsame : envelope.aggregateId = aggregateId) :
    Counts crc32 snapshotJson folding ⟨store, s.history ++ [envelope]⟩ aggregateId
      (p.after .append) := by
  have hhistory : Session.historyOf ⟨store, s.history ++ [envelope]⟩ aggregateId =
      s.historyOf aggregateId ++ [envelope] := by
    rw [historyOf_append, if_pos hsame]
  refine ⟨?_, ?_, ?_, ?_⟩
  · rw [hhistory, List.length_append, h.total]
    rfl
  · rw [happended.eventCounts, hsame, Function.update_self, h.counted]
    rfl
  · rw [happended.stores]
    exact iff_of_true (Or.inl hsame.symm) rfl
  · rw [hhistory]
    exact h.reaches.frame (h.total ▸ p.covered_le) [envelope] happended.baseDir
      (congrFun happended.snapshots _)

theorem Tracks.append (h : Tracks crc32 json snapshotJson folding baseDir ids s progress)
    (hapart : Set.InjOn (eventsDir baseDir) ids) (envelope : EventEnvelope) (answer : DirAnswer)
    (hid : envelope.aggregateId ∈ ids) :
    ∃ next, s.step crc32 sha256 json snapshotJson folding (.append envelope answer) = some next ∧
      Tracks crc32 json snapshotJson folding baseDir ids next fun id ↦ (progress id).follow
        (SessionAction.moveOf (.append envelope answer) (progress id).readable id) := by
  obtain ⟨contents, hinv, hcontents⟩ := h.events
  have hopen := (h.counts _ hid).readable
  rcases appendEnvelope_spec sha256 hinv envelope answer with
    ⟨hclosed, hrefused, store, happend, hopened, hstores⟩ |
    ⟨hable, store, persisted, happend, happended, hinv'⟩
  · refine ⟨{ s with store }, by simp only [Session.step, happend], hopened.baseDir.trans h.base,
      ⟨contents, hopened.inv_of_stores hinv hstores, hcontents⟩, fun id hmem ↦ ?_⟩
    -- The directory was refused, so the store was not open and its numbers stay.
    have hidle : SessionAction.moveOf (.append envelope answer) (progress id).readable id =
        none := by
      refine if_neg fun ⟨hsame, hable⟩ ↦ hable.elim (fun hread ↦ ?_) hrefused
      exact hopen.mpr (hsame ▸ hread) hclosed
    rw [hidle]
    exact (h.counts id hmem).frame rfl (congrFun hopened.eventCounts id) (by rw [hstores])
      hopened.baseDir (congrFun hopened.snapshots _)
  · rw [h.base] at hinv'
    refine ⟨⟨store, s.history ++ [envelope]⟩, by simp only [Session.step, happend],
      happended.baseDir.trans h.base, ⟨_, hinv', fun id hmem ↦ ?_⟩, fun id hmem ↦ ?_⟩
    · rw [historyOf_append, put]
      by_cases hsame : envelope.aggregateId = id
      · rw [if_pos hsame, ← hsame, Function.update_self, List.map_append, List.map_append,
          hcontents _ hid, List.map_singleton, List.map_singleton, happended.content]
      · have hdir : eventsDir baseDir id ≠ eventsDir baseDir envelope.aggregateId := fun hdir ↦
          hsame (hapart hmem hid hdir).symm
        rw [if_neg hsame, Function.update_of_ne hdir, List.append_nil, hcontents id hmem]
    · have hcounts := h.counts id hmem
      by_cases hsame : envelope.aggregateId = id
      · have hmove : SessionAction.moveOf (.append envelope answer) (progress id).readable id =
            some .append := if_pos ⟨hsame, hable.imp_left fun h ↦ hsame ▸ hopen.mp h⟩
        rw [hmove]
        exact hcounts.append happended hsame
      · have hidle : SessionAction.moveOf (.append envelope answer) (progress id).readable id =
            none := if_neg fun h ↦ hsame h.1
        rw [hidle]
        refine hcounts.frame ?_ ?_ ?_ happended.baseDir (congrFun happended.snapshots _)
        · rw [historyOf_append, if_neg hsame, List.append_nil]
        · rw [happended.eventCounts, Function.update_of_ne (Ne.symm hsame)]
        · rw [happended.stores]
          exact or_iff_right (Ne.symm hsame)

theorem Tracks.saveSnapshot (h : Tracks crc32 json snapshotJson folding baseDir ids s progress)
    (hapart : Set.InjOn (snapshotDir baseDir) ids) (saved lastEventId : Option String)
    (timestamp : ℕ) (answer : DirAnswer) (hid : saved ∈ ids) :
    ∃ next, s.step crc32 sha256 json snapshotJson folding
        (.saveSnapshot saved lastEventId timestamp answer) = some next ∧
      Tracks crc32 json snapshotJson folding baseDir ids next fun id ↦ (progress id).follow
        (SessionAction.moveOf (.saveSnapshot saved lastEventId timestamp answer)
          (progress id).readable id) := by
  obtain ⟨contents, hinv, hcontents⟩ := h.events
  obtain ⟨store, ok, hsave, hok, hinv', hbase, hstores, heventCounts, -, -, hsnapshots⟩ :=
    saveSnapshot_spec snapshotJson hinv saved
      (folding.render (folding.stateOf (s.historyOf saved))) lastEventId timestamp answer
  refine ⟨{ s with store }, by simp only [Session.step, hsave], hbase.trans h.base,
    ⟨contents, hinv', hcontents⟩, fun id hmem ↦ ?_⟩
  have hcounts := h.counts id hmem
  by_cases hsaved : saved = id ∧ answer = .made
  · have hmove : SessionAction.moveOf (.saveSnapshot saved lastEventId timestamp answer)
        (progress id).readable id = some .save := if_pos hsaved
    obtain ⟨rfl, hmade⟩ := hsaved
    rw [hmove]
    rw [if_pos (hok.mpr hmade)] at hsnapshots
    refine ⟨hcounts.total, ?_, ?_, ?_⟩
    · rw [heventCounts]
      exact hcounts.counted
    · rw [hstores]
      exact hcounts.readable
    · refine ⟨some (Snapshot.new crc32 saved (s.store.eventCounts saved) lastEventId
        (folding.render (folding.stateOf (s.historyOf saved))) timestamp), ?_, hcounts.counted, ?_⟩
      · simp only [loadSnapshot, hsnapshots, hbase, Function.update_self]
        rw [Snapshot.ofContent_protectedContent, Option.map_some]
      · show folding.parse (folding.render _) = _
        rw [folding.parse_render]
        show _ = some (folding.stateOf ((s.historyOf saved).take (progress saved).total))
        rw [← hcounts.total, List.take_length]
  · have hidle : SessionAction.moveOf (.saveSnapshot saved lastEventId timestamp answer)
        (progress id).readable id = none := if_neg hsaved
    have hfile : store.disk.snapshots (snapshotDir s.store.baseDir id) =
        s.store.disk.snapshots (snapshotDir s.store.baseDir id) := by
      rw [hsnapshots]
      split_ifs with hmade
      · refine Function.update_of_ne (fun hdir ↦ ?_) _ _
        rw [h.base] at hdir
        exact hsaved ⟨(hapart hmem hid hdir).symm, hok.mp hmade⟩
      · rfl
    rw [hidle]
    exact hcounts.frame rfl (congrFun heventCounts id) (by rw [hstores]) hbase hfile

theorem Tracks.flush (h : Tracks crc32 json snapshotJson folding baseDir ids s progress) :
    ∃ next, s.step crc32 sha256 json snapshotJson folding .flush = some next ∧
      Tracks crc32 json snapshotJson folding baseDir ids next fun id ↦ (progress id).follow
        (SessionAction.moveOf .flush (progress id).readable id) := by
  obtain ⟨contents, hinv, hcontents⟩ := h.events
  obtain ⟨huntouched, hinv'⟩ := flushAll_spec hinv
  refine ⟨_, rfl, huntouched.baseDir.trans h.base, ⟨contents, hinv', hcontents⟩, fun id hmem ↦ ?_⟩
  exact (h.counts id hmem).frame rfl (congrFun huntouched.eventCounts id) (huntouched.stores id)
    huntouched.baseDir (by rw [huntouched.disk])

/-- A store that is made again has counted nothing, and reads the global events only. -/
theorem Tracks.reopen (h : Tracks crc32 json snapshotJson folding baseDir ids s progress) :
    ∃ next, s.step crc32 sha256 json snapshotJson folding .reopen = some next ∧
      Tracks crc32 json snapshotJson folding baseDir ids next fun id ↦ (progress id).follow
        (SessionAction.moveOf .reopen (progress id).readable id) := by
  obtain ⟨contents, hinv, hcontents⟩ := h.events
  obtain ⟨store, hreopen, hinv', hbase, hdisk, hclosed, -, heventCounts⟩ := reopen_spec hinv
  refine ⟨{ s with store }, by rw [Session.step, hreopen, Option.map_some], hbase.trans h.base,
    ⟨contents, hinv', hcontents⟩, fun id hmem ↦ ?_⟩
  have hcounts := h.counts id hmem
  refine ⟨hcounts.total, heventCounts id, ?_, ?_⟩
  · show store.stores id ≠ none ↔ ((progress id).readable && decide (id = none)) = true
    cases id with
    | none =>
      have hopen := hcounts.readable.mp hinv.globalStore
      exact iff_of_true hinv'.globalStore (by rw [hopen]; rfl)
    | some name =>
      exact iff_of_false (fun hopen ↦ hopen (hclosed name)) (by simp)
  · have hreaches := hcounts.reaches.frame (hcounts.total ▸ (progress id).covered_le) [] hbase
      (by rw [hdisk])
    rwa [List.append_nil] at hreaches

/-- A step does to the numbers of each aggregate what its action says. -/
theorem Tracks.step (h : Tracks crc32 json snapshotJson folding baseDir ids s progress)
    (hapart : Apart baseDir ids) (hid : ∀ id ∈ action.identity, id ∈ ids) :
    ∃ next, s.step crc32 sha256 json snapshotJson folding action = some next ∧
      Tracks crc32 json snapshotJson folding baseDir ids next fun id ↦ (progress id).follow
        (action.moveOf (progress id).readable id) := by
  cases action with
  | append envelope answer => exact h.append hapart.events envelope answer (hid _ rfl)
  | saveSnapshot saved lastEventId timestamp answer =>
    exact h.saveSnapshot hapart.snapshots saved lastEventId timestamp answer (hid _ rfl)
  | flush => exact h.flush
  | reopen => exact h.reopen

theorem Tracks.afterStep (h : Tracks crc32 json snapshotJson folding baseDir ids s progress)
    (hapart : Apart baseDir ids) (hid : ∀ id ∈ action.identity, id ∈ ids)
    (hnext : s.step crc32 sha256 json snapshotJson folding action = some next) :
    Tracks crc32 json snapshotJson folding baseDir ids next fun id ↦ (progress id).follow
      (action.moveOf (progress id).readable id) := by
  obtain ⟨next', hstep, htracks⟩ := h.step hapart hid
  obtain rfl : next' = next := Option.some.inj (hstep.symm.trans hnext)
  exact htracks

variable (sha256) in
/-- A run does to the numbers of each aggregate what its actions say. -/
theorem Tracks.exec (h : Tracks crc32 json snapshotJson folding baseDir ids s progress)
    (hapart : Apart baseDir ids) (actions : List SessionAction)
    (hover : ∀ action ∈ actions, ∀ id ∈ action.identity, id ∈ ids) :
    ∃ last, Run.exec (Session.step crc32 sha256 json snapshotJson folding) s actions = some last ∧
      Tracks crc32 json snapshotJson folding baseDir ids last fun id ↦
        actions.foldl (fun p action ↦ p.follow (action.moveOf p.readable id)) (progress id) := by
  induction actions generalizing s progress with
  | nil => exact ⟨s, rfl, h⟩
  | cons action rest ih =>
    obtain ⟨next, hstep, htracks⟩ := h.step hapart (hover action List.mem_cons_self)
    obtain ⟨last, hexec, hlast⟩ :=
      ih htracks fun other hother ↦ hover other (List.mem_cons_of_mem action hother)
    exact ⟨last, exec_cons_eq_some.mpr ⟨next, hstep, hexec⟩, hlast⟩

/-- How many events are applied in a recovery of the state that keeps them. -/
theorem Tracks.length_recover {kept : EnvelopeJson}
    (h : Tracks crc32 json snapshotJson (.log kept) baseDir ids s progress)
    (hid : aggregateId ∈ ids) :
    (recover crc32 json snapshotJson (.log kept) s.store aggregateId).map List.length =
      some ((progress aggregateId).covered + if (progress aggregateId).readable then
        (progress aggregateId).total - (progress aggregateId).skip else 0) := by
  have htotal := (h.counts aggregateId hid).total
  have hcovered := (progress aggregateId).covered_le
  rw [h.recover_eq hid, Option.map_some, Folding.stateOf_log, List.length_map, Progress.replayed,
    List.length_append, List.length_take, htotal, min_eq_left hcovered]
  split_ifs
  · rw [List.length_drop, htotal]
  · rfl

/-! ### Which steps keep the recovery -/

theorem Counts.countsAll_iff (h : Counts crc32 snapshotJson folding s aggregateId p) :
    CountsAll crc32 snapshotJson s aggregateId ↔ p.skip = p.total := by
  obtain ⟨found, hload, hskip, -⟩ := h.reaches
  rw [CountsAll, hload, h.total, ← hskip]
  simp

theorem Counts.closed_iff (h : Counts crc32 snapshotJson folding s aggregateId p) :
    s.store.stores aggregateId = none ↔ p.readable = false := by
  rw [← not_iff_not, ← ne_eq, h.readable, Bool.not_eq_false]

/-- The condition on the session is the one on the numbers. -/
theorem Tracks.faithful_iff (h : Tracks crc32 json snapshotJson folding baseDir ids s progress)
    (hid : ∀ id ∈ action.identity, id ∈ ids) :
    Faithful crc32 snapshotJson ids s action ↔
      ∀ id ∈ ids, ∀ move ∈ action.moveOf (progress id).readable id, (progress id).Meets move := by
  cases action with
  | append envelope answer =>
    have hcounts := h.counts _ (hid _ rfl)
    show (s.store.stores envelope.aggregateId = none → answer = .made →
      CountsAll crc32 snapshotJson s envelope.aggregateId) ↔ _
    rw [hcounts.closed_iff, hcounts.countsAll_iff]
    constructor
    · intro hfaithful id hmem move hmove
      obtain ⟨⟨rfl, hable⟩, hsame⟩ := Option.ite_none_right_eq_some.mp hmove
      obtain rfl := Option.some.inj hsame
      intro hclosed
      exact hfaithful hclosed (hable.resolve_left (by rw [hclosed]; exact Bool.false_ne_true))
    · intro hmeets hclosed hmade
      exact hmeets _ (hid _ rfl) .append (if_pos ⟨rfl, Or.inr hmade⟩) hclosed
  | saveSnapshot saved lastEventId timestamp answer =>
    have hcounts := h.counts _ (hid _ rfl)
    show (s.store.stores saved ≠ none → answer = .made →
      s.store.eventCounts saved = (s.historyOf saved).length) ↔ _
    rw [hcounts.readable, hcounts.counted, hcounts.total]
    constructor
    · intro hfaithful id hmem move hmove
      obtain ⟨⟨rfl, hmade⟩, hsame⟩ := Option.ite_none_right_eq_some.mp hmove
      obtain rfl := Option.some.inj hsame
      exact fun hopen ↦ hfaithful hopen hmade
    · intro hmeets hopen hmade
      exact hmeets _ (hid _ rfl) .save (if_pos ⟨rfl, hmade⟩) hopen
  | flush =>
    exact iff_of_true trivial fun id _ move hmove ↦ absurd hmove (by simp [SessionAction.moveOf])
  | reopen =>
    constructor
    · intro hfaithful id hmem move hmove
      obtain rfl := Option.some.inj hmove
      intro hopen hstays
      cases id with
      | none => exact absurd hstays (by simp)
      | some name =>
        have hcounts := h.counts _ hmem
        exact hcounts.countsAll_iff.mp (hfaithful name hmem (hcounts.readable.mpr hopen))
    · intro hmeets name hmem hopen
      have hcounts := h.counts _ hmem
      refine hcounts.countsAll_iff.mpr ?_
      exact hmeets _ hmem _ rfl (hcounts.readable.mp hopen) (by simp)

theorem Tracks.whole_step_iff (h : Tracks crc32 json snapshotJson folding baseDir ids s progress)
    (hid : ∀ id ∈ action.identity, id ∈ ids) (hwhole : ∀ id ∈ ids, (progress id).Whole) :
    (∀ id ∈ ids, ((progress id).follow (action.moveOf (progress id).readable id)).Whole) ↔
      Faithful crc32 snapshotJson ids s action := by
  rw [h.faithful_iff hid]
  exact forall₂_congr fun id hmem ↦ Progress.whole_follow_iff (hwhole id hmem) _

variable (crc32 json snapshotJson folding dirs baseDir ids) in
theorem tracks_new : ∃ opened, new crc32 json (.fresh dirs) baseDir = some opened ∧
    Tracks crc32 json snapshotJson folding baseDir ids ⟨opened, []⟩
      fun id ↦ .start (decide (id = none)) := by
  obtain ⟨opened, hnew, hinv, hbase, hdisk, hclosed, -, heventCounts⟩ :=
    new_spec (fresh_files crc32 json dirs) baseDir
  refine ⟨opened, hnew, hbase, ⟨_, hinv, fun id _ ↦ rfl⟩, fun id _ ↦ ⟨rfl, heventCounts id, ?_, ?_⟩⟩
  · show opened.stores id ≠ none ↔ decide (id = none) = true
    cases id with
    | none => exact iff_of_true hinv.globalStore rfl
    | some name => exact iff_of_false (fun hopen ↦ hopen (hclosed name)) (by simp)
  · refine ⟨none, ?_, rfl, rfl⟩
    rw [loadSnapshot, hdisk]
    rfl

/-! ### Runs of one store -/

theorem moveOf_ne_restart {isOpen : Bool} {move : Move} (haction : action ≠ .reopen)
    (hmove : move ∈ action.moveOf isOpen aggregateId) (stays : Bool) : move ≠ .restart stays := by
  cases action with
  | append envelope answer =>
    obtain ⟨-, hsame⟩ := Option.ite_none_right_eq_some.mp hmove
    exact Option.some.inj hsame ▸ Move.noConfusion
  | saveSnapshot saved lastEventId timestamp answer =>
    obtain ⟨-, hsame⟩ := Option.ite_none_right_eq_some.mp hmove
    exact Option.some.inj hsame ▸ Move.noConfusion
  | flush => exact absurd hmove (by simp [SessionAction.moveOf])
  | reopen => exact absurd rfl haction

/-- While the store is not made again, each step is faithful. -/
theorem Tracks.eachStep_faithful
    (h : Tracks crc32 json snapshotJson folding baseDir ids s progress) (hapart : Apart baseDir ids)
    (hunbroken : ∀ id ∈ ids, (progress id).Unbroken) {actions : List SessionAction}
    (hactions : ∀ action ∈ actions, action ≠ .reopen ∧ ∀ id ∈ action.identity, id ∈ ids) :
    EachStep (Session.step crc32 sha256 json snapshotJson folding)
      (Faithful crc32 snapshotJson ids) s actions := by
  refine EachStep.imp (I := fun s ↦ ∃ progress, Tracks crc32 json snapshotJson folding baseDir ids s
    progress ∧ ∀ id ∈ ids, (progress id).Unbroken)
    (C := fun _ action ↦ action ≠ .reopen ∧ ∀ id ∈ action.identity, id ∈ ids) ?_ ?_
    ⟨progress, h, hunbroken⟩ (eachStep_of_forall (fun action haction _ ↦ hactions action haction) s)
  · rintro s action next ⟨progress, htracks, hunbroken⟩ ⟨haction, hid⟩ hnext
    refine ⟨_, htracks.afterStep hapart hid hnext, fun id hmem ↦ ?_⟩
    show ((progress id).follow (action.moveOf (progress id).readable id)).Unbroken
    cases hmove : action.moveOf (progress id).readable id with
    | none => exact hunbroken id hmem
    | some move => exact (hunbroken id hmem).after (moveOf_ne_restart haction hmove)
  · rintro s action next ⟨progress, htracks, hunbroken⟩ ⟨haction, hid⟩ -
    refine (htracks.faithful_iff hid).mpr fun id hmem move hmove ↦ ?_
    exact (hunbroken id hmem).meets (moveOf_ne_restart haction hmove)

/-! ### Recovery over runs -/

/-- While the steps are faithful, the numbers of each aggregate stay whole. -/
theorem Tracks.always_recovers (h : Tracks crc32 json snapshotJson folding baseDir ids s progress)
    (hapart : Apart baseDir ids) (hwhole : ∀ id ∈ ids, (progress id).Whole)
    {actions : List SessionAction} (hover : ∀ action ∈ actions, ∀ id ∈ action.identity, id ∈ ids)
    (hsteps : EachStep (Session.step crc32 sha256 json snapshotJson folding)
      (Faithful crc32 snapshotJson ids) s actions) :
    Always (Session.step crc32 sha256 json snapshotJson folding)
      (fun s ↦ ∀ id ∈ ids, Recovers crc32 json snapshotJson folding s id) s actions := by
  have hboth := hsteps.and (eachStep_of_forall (fun action haction _ ↦ hover action haction) _)
  refine (EachStep.always (I := fun s ↦ ∃ progress, Tracks crc32 json snapshotJson folding baseDir
    ids s progress ∧ ∀ id ∈ ids, (progress id).Whole) ?_ ⟨progress, h, hwhole⟩ hboth).mono ?_
  · rintro s action next ⟨progress, htracks, hwhole⟩ ⟨hfaithful, hid⟩ hnext
    exact ⟨_, htracks.afterStep hapart hid hnext, (htracks.whole_step_iff hid hwhole).mpr hfaithful⟩
  · rintro s ⟨progress, htracks, hwhole⟩ id hmem
    exact htracks.recovers hmem (hwhole id hmem)

theorem Tracks.all_recover_iff (h : Tracks crc32 json snapshotJson folding baseDir ids s progress)
    (hshows : folding.Shows) :
    (∀ id ∈ ids, Recovers crc32 json snapshotJson folding s id) ↔
      ∀ id ∈ ids, (progress id).Whole :=
  forall₂_congr fun _ hmem ↦ h.recovers_iff hshows hmem

/-- A state that shows its events shows a step that is not faithful. -/
theorem Tracks.always_recovers_iff
    (h : Tracks crc32 json snapshotJson folding baseDir ids s progress) (hapart : Apart baseDir ids)
    (hwhole : ∀ id ∈ ids, (progress id).Whole) (hshows : folding.Shows)
    {actions : List SessionAction} (hover : ∀ action ∈ actions, ∀ id ∈ action.identity, id ∈ ids) :
    Always (Session.step crc32 sha256 json snapshotJson folding)
        (fun s ↦ ∀ id ∈ ids, Recovers crc32 json snapshotJson folding s id) s actions ↔
      EachStep (Session.step crc32 sha256 json snapshotJson folding)
        (Faithful crc32 snapshotJson ids) s actions := by
  refine always_iff_eachStep_of_forall (I := fun s ↦ ∃ progress, Tracks crc32 json snapshotJson
    folding baseDir ids s progress) (D := fun action ↦ ∀ id ∈ action.identity, id ∈ ids) ?_ ?_
    ⟨progress, h⟩ ((h.all_recover_iff hshows).mpr hwhole) hover
  · rintro s action next ⟨progress, htracks⟩ hid hnext
    exact ⟨_, htracks.afterStep hapart hid hnext⟩
  · rintro s action next ⟨progress, htracks⟩ hrecovers hid hnext
    have hwhole := (htracks.all_recover_iff hshows).mp hrecovers
    exact ((htracks.afterStep hapart hid hnext).all_recover_iff hshows).trans
      (htracks.whole_step_iff hid hwhole)

/-- Over ids that lead to different directories, a run recovers the state of each aggregate in every
state when all its steps are faithful; when a state shows its events, only then. -/
theorem recovers_of_faithful (crc32 : List UInt8 → UInt32) (sha256 : List UInt8 → String)
    (json : EnvelopeJson) (snapshotJson : SnapshotJson) (folding : Folding S) (dirs : List Dir)
    (baseDir : Dir) (ids : Set (Option String)) (hapart : Apart baseDir ids) :
    ∃ opened, new crc32 json (.fresh dirs) baseDir = some opened ∧
      ∀ actions : List SessionAction, (∀ action ∈ actions, ∀ id ∈ action.identity, id ∈ ids) →
        (EachStep (Session.step crc32 sha256 json snapshotJson folding)
            (Faithful crc32 snapshotJson ids) ⟨opened, []⟩ actions →
          Always (Session.step crc32 sha256 json snapshotJson folding)
            (fun s ↦ ∀ id ∈ ids, Recovers crc32 json snapshotJson folding s id)
            ⟨opened, []⟩ actions) ∧
        (folding.Shows → Always (Session.step crc32 sha256 json snapshotJson folding)
            (fun s ↦ ∀ id ∈ ids, Recovers crc32 json snapshotJson folding s id)
            ⟨opened, []⟩ actions →
          EachStep (Session.step crc32 sha256 json snapshotJson folding)
            (Faithful crc32 snapshotJson ids) ⟨opened, []⟩ actions) := by
  obtain ⟨opened, hnew, htracks⟩ := tracks_new crc32 json snapshotJson folding dirs baseDir ids
  have hwhole : ∀ id ∈ ids, (Progress.start (decide (id = none))).Whole := fun _ _ ↦
    Progress.whole_start _
  refine ⟨opened, hnew, fun actions hover ↦ ⟨fun hsteps ↦ ?_, fun hshows hrecovers ↦ ?_⟩⟩
  · exact htracks.always_recovers hapart hwhole hover hsteps
  · exact (htracks.always_recovers_iff hapart hwhole hshows hover).mp hrecovers

/-- Events with a snapshot between them, in one store. -/
theorem recovers_of_faithful_oneStore : ∃ opened,
    new (fun _ ↦ 0) .ofFormat (.fresh []) ["data"] = some opened ∧
      Always (Session.step (fun _ ↦ 0) (fun _ ↦ "00") .ofFormat .ofFormat (.log .ofFormat))
        (fun s ↦ ∀ id ∈ plainIds, Recovers (fun _ ↦ 0) .ofFormat .ofFormat (.log .ofFormat) s id)
        ⟨opened, []⟩
        [.append (eventOf (some "a")) .made, .saveSnapshot (some "a") none 1 .made,
          .append (eventOf (some "a")) .made] := by
  have hapart : Apart ["data"] plainIds := (apart_of_plain [] ["data"]).1
  have hplain : some "a" ∈ plainIds :=
    some_mem_plainIds ⟨by decide, by decide, by decide, by decide⟩ (by decide)
  obtain ⟨opened, hnew, hruns⟩ := recovers_of_faithful (fun _ ↦ 0) (fun _ ↦ "00") .ofFormat
    .ofFormat (.log .ofFormat) [] ["data"] plainIds hapart
  obtain ⟨opened', hnew', htracks⟩ :=
    tracks_new (fun _ ↦ 0) .ofFormat .ofFormat (.log .ofFormat) [] ["data"] plainIds
  obtain rfl : opened' = opened := Option.some.inj (hnew'.symm.trans hnew)
  have hactions : ∀ action ∈ ([.append (eventOf (some "a")) .made,
      .saveSnapshot (some "a") none 1 .made, .append (eventOf (some "a")) .made] :
        List SessionAction), action ≠ .reopen ∧ ∀ id ∈ action.identity, id ∈ plainIds := by
    simp [SessionAction.identity, eventOf, hplain]
  refine ⟨opened', hnew, (hruns _ fun action haction ↦ (hactions action haction).2).1 ?_⟩
  exact htracks.eachStep_faithful hapart (fun id _ ↦ Progress.unbroken_start _) hactions

/-- After an event of an aggregate the store is made again: the event is not read. After an event of
the global store, a store that is made again counts one event of two in a snapshot: the second is
applied twice. -/
theorem lost_or_repeated_after_reopen : ∃ opened lost repeated,
    new (fun _ ↦ 0) .ofFormat (.fresh []) ["data"] = some opened ∧
    Run.exec (Session.step (fun _ ↦ 0) (fun _ ↦ "00") .ofFormat .ofFormat (.log .ofFormat))
      ⟨opened, []⟩ [.append (eventOf (some "a")) .made, .reopen] = some lost ∧
    (recover (fun _ ↦ 0) .ofFormat .ofFormat (.log .ofFormat) lost.store (some "a")).map
      List.length = some 0 ∧
    ¬ Recovers (fun _ ↦ 0) .ofFormat .ofFormat (.log .ofFormat) lost (some "a") ∧
    Run.exec (Session.step (fun _ ↦ 0) (fun _ ↦ "00") .ofFormat .ofFormat (.log .ofFormat))
      ⟨opened, []⟩ [.append (eventOf none) .made, .reopen, .append (eventOf none) .made,
        .saveSnapshot none none 1 .made] = some repeated ∧
    (recover (fun _ ↦ 0) .ofFormat .ofFormat (.log .ofFormat) repeated.store none).map
      List.length = some 3 ∧
    ¬ Recovers (fun _ ↦ 0) .ofFormat .ofFormat (.log .ofFormat) repeated none := by
  have hapart : Apart ["data"] plainIds := (apart_of_plain [] ["data"]).1
  have hplain : some "a" ∈ plainIds :=
    some_mem_plainIds ⟨by decide, by decide, by decide, by decide⟩ (by decide)
  obtain ⟨opened, hnew, htracks⟩ :=
    tracks_new (fun _ ↦ 0) .ofFormat .ofFormat (.log .ofFormat) [] ["data"] plainIds
  obtain ⟨lost, hlost, hlostTracks⟩ := htracks.exec (fun _ ↦ "00") hapart
    [.append (eventOf (some "a")) .made, .reopen]
    (by simp [SessionAction.identity, eventOf, hplain])
  obtain ⟨repeated, hrepeated, hrepeatedTracks⟩ := htracks.exec (fun _ ↦ "00") hapart
    [.append (eventOf none) .made, .reopen, .append (eventOf none) .made,
      .saveSnapshot none none 1 .made]
    (by simp [SessionAction.identity, eventOf, none_mem_plainIds])
  refine ⟨opened, lost, repeated, hnew, hlost, ?_, ?_, hrepeated, ?_, ?_⟩
  · rw [hlostTracks.length_recover hplain]
    decide
  · rw [hlostTracks.recovers_iff (Folding.shows_log _) hplain]
    decide
  · rw [hrepeatedTracks.length_recover none_mem_plainIds]
    decide
  · rw [hrepeatedTracks.recovers_iff (Folding.shows_log _) none_mem_plainIds]
    decide

end MultiFileEventStore

end Lithair.Engine
