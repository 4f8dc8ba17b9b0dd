import Lithair.Engine.Scc2Engine
import Lithair.Lib.Run
import Mathlib.Data.Fintype.EquivFin

/-!
# Restarts of the engine

The engine of `engine/scc2_engine.rs` in use: calls that apply events and flush, one after the
other, with the writer at work at any time between them, and restarts over the same files once a
flush has returned. The files are those of `EventStore::new` in an empty directory.

`restores_iff_replaysAsApplied` says which runs can be restarted at any point with the data that the
engine held: those in which the line of each event reads back as an event that does to the data what
the applied one did. The key in the line is not the key of the call (`key_of_another`).
-/

namespace Lithair.Engine

open Lithair.Lib Lithair.Lib.Run Lithair.Lib.Text

/-- An application with the settings of its engine and the libraries it is built with. -/
structure EngineSetup (S E : Type*) where
  app : Application S E
  config : Scc2EngineConfig
  json : JsonText
  crc32 : List UInt8 → UInt32
  envelopeJson : EventEnvelope → Option String

/-- An engine, with the flush that was asked for last. -/
structure Running (S : Type*) where
  engine : Scc2Engine S
  flushing : Option ℕ

/-- What happens: a call, the writer takes a message or has waited long enough, or the engine is
started anew. A flush has a new channel for its acknowledgement. -/
inductive EngineAction (E : Type*)
  | applyEvent (key : String) (event : E) (now : ℕ)
  | flush (ack : ℕ)
  | receive
  | timeout
  | restart (now : ℕ)

/-- The steps of the writer. -/
def EngineAction.ofWriter {E : Type*} : EngineAction E → Bool
  | receive | timeout => true
  | _ => false

/-- Nothing is left in memory. -/
def AsyncWriter.Drained (w : AsyncWriter) : Prop :=
  w.channel = [] ∧ w.buffer = [] ∧ w.store.eventBatch = []

instance (w : AsyncWriter) : Decidable w.Drained := inferInstanceAs (Decidable (_ ∧ _))

namespace Running

variable {S E : Type*} (setup : EngineSetup S E)

/-- The caller is not waiting for a flush. -/
def Idle (s : Running S) : Prop := ∀ ack ∈ s.flushing, ack ∈ s.engine.writer.acknowledged

instance (s : Running S) : Decidable s.Idle := inferInstanceAs (Decidable (∀ _ ∈ s.flushing, _))

/-- The engine that a new process has, in an empty directory. -/
def start : Running S where
  engine := Scc2Engine.new FileStorage.empty
  flushing := none

def setWriter (s : Running S) (writer : AsyncWriter) : Running S :=
  { s with engine := { s.engine with writer } }

def step (s : Running S) : EngineAction E → Option (Running S)
  | .applyEvent key event now =>
    if s.Idle then
      match s.engine.applyEvent setup.json setup.app setup.config key event now with
      | .ok engine => some { s with engine }
      | .error _ => some s
    else none
  | .flush ack =>
    if s.Idle ∧ ack ∉ s.engine.writer.acknowledged then
      some { s.setWriter (s.engine.writer.send (.flush ack)) with flushing := some ack }
    else none
  | .receive => (s.engine.writer.receive setup.crc32 setup.envelopeJson).map s.setWriter
  | .timeout => (s.engine.writer.timeout setup.crc32).map s.setWriter
  | .restart now =>
    if s.Idle ∧ s.engine.writer.Drained then
      (Scc2Engine.start setup.json setup.app setup.crc32 s.engine.writer.store now).map
        fun engine ↦ ⟨engine, none⟩
    else none

/-! ### What is meant to hold -/

/-- A flush returns: the one that the caller is waiting for, or else one that it asks for now. -/
def FlushReturns (s t : Running S) : Prop :=
  ∃ asked actions, (asked = s ∧ ¬ s.Idle ∨ ∃ ack, step setup s (.flush ack) = some asked) ∧
    (∀ a ∈ actions, EngineAction.ofWriter a) ∧
    exec (step setup) asked actions = some t ∧ t.Idle

/-- When a flush has returned, a new engine over the files holds the same data under every key. -/
def Restores (s : Running S) : Prop :=
  ∀ t, FlushReturns setup s t → ∀ now, ∃ engine,
    Scc2Engine.start setup.json setup.app setup.crc32 t.engine.writer.store now = some engine ∧
      dataOf engine.stateMap = dataOf s.engine.stateMap

/-- The events that are read back from what is sent for an event. -/
def readBack (enableChecksums : Bool) (now : ℕ) (event : E) : Option (List (String × E)) :=
  (readEvents setup.crc32 (FileStorage.eventLines setup.crc32 enableChecksums
    (Scc2Engine.sentTexts setup.app setup.config now event))).map
      (List.filterMap (Scc2Engine.keyedEvent setup.json setup.app))

/-- What is read back from the line of an event does to the data what the event did that was applied
under the key. An event that is refused has no line. -/
def ReplaysAsApplied (s : Running S) : EngineAction E → Prop
  | .applyEvent key event now =>
    s.engine.checkUniqueness setup.json setup.app event key = .ok () →
      ∃ events, readBack setup s.engine.writer.store.enableChecksums now event = some events ∧
        events.foldl (Scc2Engine.effect setup.app) (dataOf s.engine.stateMap) =
          Scc2Engine.effect setup.app (dataOf s.engine.stateMap) (key, event)
  | _ => True

/-! ### The writer -/

/-- The events in the files when everything is written. -/
def history (w : AsyncWriter) : Option (List (String × E)) :=
  (readEvents setup.crc32 w.store.rotated).bind fun first ↦
    (readEvents setup.crc32 (w.promised setup.crc32 setup.envelopeJson)).map fun second ↦
      (first ++ second).filterMap (Scc2Engine.keyedEvent setup.json setup.app)

/-- The files are not rotated, the promised log ends in a line feed, and a flush that was asked for
is the last message. -/
structure Inv (s : Running S) : Prop where
  rotate : s.engine.writer.store.maxLogFileSize = 0
  flushes : s.engine.writer.flushes = []
  ended : Ended (s.engine.writer.promised setup.crc32 setup.envelopeJson)
  channel : ∃ before : List WriteEvent, (∀ m ∈ before, AsyncWriter.acksOf m = []) ∧
    ((s.Idle ∧ s.engine.writer.channel = before) ∨ ∃ ack, s.flushing = some ack ∧
      ack ∉ s.engine.writer.acknowledged ∧ s.engine.writer.channel = before ++ [.flush ack])

section Steps

variable {setup} {s next : Running S}

/-- The caller goes on waiting as long as its flush is not acknowledged. -/
theorem not_idle_iff : ¬ s.Idle ↔ ∃ ack, s.flushing = some ack ∧
    ack ∉ s.engine.writer.acknowledged := by
  constructor
  · intro h
    by_contra hnone
    refine h fun ack hack ↦ ?_
    by_contra hmem
    exact hnone ⟨ack, hack, hmem⟩
  · rintro ⟨ack, hack, hmem⟩ hidle
    exact hmem (hidle ack hack)

/-- The writer keeps what the log will be; and when the caller can go on, nothing is left in
memory. -/
theorem receive_keeps (h : Inv setup s) {w' : AsyncWriter}
    (hreceive : s.engine.writer.receive setup.crc32 setup.envelopeJson = some w') :
    Inv setup (s.setWriter w') ∧
      AsyncWriter.Keeps setup.crc32 setup.envelopeJson s.engine.writer w' ∧
      (¬ s.Idle → (s.setWriter w').Idle → w'.Drained) := by
  obtain ⟨before, hbefore, hchannel⟩ := h.channel
  obtain ⟨message, hspec⟩ := AsyncWriter.receive_spec _ _ h.rotate h.flushes hreceive
  have hended : Ended (w'.promised setup.crc32 setup.envelopeJson) := by
    rw [hspec.keeps.promised]
    exact h.ended
  have hrotate : w'.store.maxLogFileSize = 0 := hspec.keeps.files.maxLogFileSize.trans h.rotate
  rcases hchannel with ⟨hidle, hchannel⟩ | ⟨ack, hflushing, hack, hchannel⟩
  · rw [hspec.channel] at hchannel
    subst hchannel
    have hacks : w'.acknowledged = s.engine.writer.acknowledged := by
      rw [hspec.acknowledged, hbefore message List.mem_cons_self, List.append_nil]
    have hidle' : (s.setWriter w').Idle := fun ack hack ↦ by
      show ack ∈ w'.acknowledged
      rw [hacks]
      exact hidle ack hack
    exact ⟨⟨hrotate, hspec.flushes, hended, w'.channel,
      fun m hm ↦ hbefore m (List.mem_cons_of_mem _ hm), Or.inl ⟨hidle', rfl⟩⟩, hspec.keeps,
      fun hnot ↦ absurd hidle hnot⟩
  · rw [hspec.channel] at hchannel
    cases before with
    | nil =>
      obtain ⟨hmessage, hrest⟩ := List.cons.inj hchannel
      obtain ⟨hbuffer, hbatch⟩ := hspec.drained ack hmessage
      have hidle' : (s.setWriter w').Idle := fun ack' hack' ↦ by
        obtain rfl := Option.some.inj (hflushing.symm.trans hack')
        show ack ∈ w'.acknowledged
        rw [hspec.acknowledged, hmessage]
        exact List.mem_append_right _ List.mem_cons_self
      exact ⟨⟨hrotate, hspec.flushes, hended, [], fun _ hm ↦ absurd hm List.not_mem_nil,
        Or.inl ⟨hidle', hrest⟩⟩, hspec.keeps, fun _ _ ↦ ⟨hrest, hbuffer, hbatch⟩⟩
    | cons m rest =>
      obtain ⟨rfl, hrest⟩ := List.cons.inj hchannel
      have hack' : ack ∉ w'.acknowledged := by
        rw [hspec.acknowledged, hbefore message List.mem_cons_self, List.append_nil]
        exact hack
      exact ⟨⟨hrotate, hspec.flushes, hended, rest,
        fun m hm ↦ hbefore m (List.mem_cons_of_mem _ hm), Or.inr ⟨ack, hflushing, hack', hrest⟩⟩,
        hspec.keeps, fun _ hidle ↦ absurd (hidle ack hflushing) hack'⟩

theorem timeout_keeps (h : Inv setup s) {w' : AsyncWriter}
    (htimeout : s.engine.writer.timeout setup.crc32 = some w') :
    Inv setup (s.setWriter w') ∧
      AsyncWriter.Keeps setup.crc32 setup.envelopeJson s.engine.writer w' ∧
      ((s.setWriter w').Idle ↔ s.Idle) := by
  obtain ⟨before, hbefore, hchannel⟩ := h.channel
  obtain ⟨hkeeps, hsame, hflushes, hacks⟩ :=
    AsyncWriter.timeout_spec setup.crc32 setup.envelopeJson h.rotate h.flushes htimeout
  have hidle : (s.setWriter w').Idle ↔ s.Idle := by
    show (∀ ack ∈ s.flushing, ack ∈ w'.acknowledged) ↔ _
    rw [hacks]
    rfl
  refine ⟨⟨hkeeps.files.maxLogFileSize.trans h.rotate, hflushes, ?_, before, hbefore, ?_⟩, hkeeps,
    hidle⟩
  · show Ended (w'.promised setup.crc32 setup.envelopeJson)
    rw [hkeeps.promised]
    exact h.ended
  · show ((s.setWriter w').Idle ∧ w'.channel = before) ∨
      ∃ ack, s.flushing = some ack ∧ ack ∉ w'.acknowledged ∧ w'.channel = before ++ [.flush ack]
    rw [hidle, hsame, hacks]
    exact hchannel

theorem eq_of_ofWriter {a : EngineAction E} (ha : EngineAction.ofWriter a) :
    a = .receive ∨ a = .timeout := by
  cases a with
  | receive => exact Or.inl rfl
  | timeout => exact Or.inr rfl
  | applyEvent => exact Bool.noConfusion ha
  | flush => exact Bool.noConfusion ha
  | restart => exact Bool.noConfusion ha

/-- Without anything in memory the writer has nothing to do. -/
theorem step_eq_none_of_drained {a : EngineAction E} (ha : EngineAction.ofWriter a)
    (h : s.engine.writer.Drained) : step setup s a = none := by
  rcases eq_of_ofWriter ha with rfl | rfl
  · simp only [step, AsyncWriter.receive, h.1, Option.map_none]
  · simp only [step, AsyncWriter.timeout, h.2.1, if_true, Option.map_none]

/-- Steps of the writer, up to where the caller goes on: the states stay, the log will be the same,
and nothing is left in memory. -/
theorem exec_ofWriter {actions : List (EngineAction E)}
    (hwriter : ∀ a ∈ actions, EngineAction.ofWriter a) {t : Running S} (h : Inv setup s)
    (hwaiting : ¬ s.Idle) (hexec : exec (step setup) s actions = some t) (hidle : t.Idle) :
    Inv setup t ∧ t.engine.stateMap = s.engine.stateMap ∧
      AsyncWriter.Keeps setup.crc32 setup.envelopeJson s.engine.writer t.engine.writer ∧
      t.engine.writer.Drained := by
  induction actions generalizing s with
  | nil =>
    obtain rfl := Option.some.inj hexec
    exact absurd hidle hwaiting
  | cons a rest ih =>
    obtain ⟨u, hu, hrest⟩ := exec_cons_eq_some.mp hexec
    have hrestWriter := fun b hb ↦ hwriter b (List.mem_cons_of_mem a hb)
    rcases eq_of_ofWriter (hwriter a List.mem_cons_self) with rfl | rfl
    · obtain ⟨w', hreceive, rfl⟩ := Option.map_eq_some_iff.mp hu
      obtain ⟨hinv, hkeeps, hdrained⟩ := receive_keeps h hreceive
      by_cases hgo : (s.setWriter w').Idle
      · have hempty : w'.Drained := hdrained hwaiting hgo
        cases rest with
        | nil =>
          obtain rfl := Option.some.inj hrest
          exact ⟨hinv, rfl, hkeeps, hempty⟩
        | cons b rest =>
          obtain ⟨v, hv, -⟩ := exec_cons_eq_some.mp hrest
          have hnone : step setup (s.setWriter w') b = none :=
            step_eq_none_of_drained (hrestWriter b List.mem_cons_self) hempty
          exact absurd (hnone.symm.trans hv) (by simp)
      · obtain ⟨hinv', hmap, hkeeps', hempty⟩ := ih hrestWriter hinv hgo hrest
        exact ⟨hinv', hmap, hkeeps.trans _ _ hkeeps', hempty⟩
    · obtain ⟨w', htimeout, rfl⟩ := Option.map_eq_some_iff.mp hu
      obtain ⟨hinv, hkeeps, hsame⟩ := timeout_keeps h htimeout
      obtain ⟨hinv', hmap, hkeeps', hempty⟩ :=
        ih hrestWriter hinv (fun hgo ↦ hwaiting (hsame.mp hgo)) hrest
      exact ⟨hinv', hmap, hkeeps.trans _ _ hkeeps', hempty⟩

/-- The writer gets to every flush that is asked for. -/
theorem exists_exec_ofWriter (h : Inv setup s) : ∃ actions t,
    (∀ a ∈ actions, EngineAction.ofWriter (E := E) a) ∧
      exec (step setup) s actions = some t ∧ t.Idle := by
  generalize hn : s.engine.writer.channel.length = n
  induction n generalizing s with
  | zero =>
    have hnil := List.length_eq_zero_iff.mp hn
    obtain ⟨before, -, ⟨hidle, -⟩ | ⟨ack, -, -, hchannel⟩⟩ := h.channel
    · exact ⟨[], s, fun _ ha ↦ absurd ha List.not_mem_nil, rfl, hidle⟩
    · rw [hnil] at hchannel
      exact absurd hchannel.symm (List.append_ne_nil_of_right_ne_nil _ (List.cons_ne_nil _ _))
  | succ n ih =>
    obtain ⟨message, rest, hchannel⟩ := List.exists_cons_of_length_eq_add_one hn
    have hreceive : ∃ w', s.engine.writer.receive setup.crc32 setup.envelopeJson = some w' := by
      rw [AsyncWriter.receive, hchannel]
      exact ⟨_, rfl⟩
    obtain ⟨w', hreceive⟩ := hreceive
    obtain ⟨m, hspec⟩ := AsyncWriter.receive_spec _ _ h.rotate h.flushes hreceive
    have hlength : (s.setWriter w').engine.writer.channel.length = n := by
      rw [hspec.channel, List.length_cons] at hn
      exact Nat.succ.inj hn
    obtain ⟨actions, t, hwriter, hexec, hidle⟩ := ih (receive_keeps h hreceive).1 hlength
    refine ⟨.receive :: actions, t, ?_, ?_, hidle⟩
    · intro a ha
      rcases List.mem_cons.mp ha with rfl | ha
      · rfl
      · exact hwriter a ha
    · refine exec_cons_eq_some.mpr ⟨s.setWriter w', ?_, hexec⟩
      simp only [step, hreceive]
      rfl

variable (setup) in
/-- What is sent is added to the log that is promised. -/
theorem promised_send (w : AsyncWriter) (messages : List WriteEvent) :
    { w with channel := w.channel ++ messages }.promised setup.crc32 setup.envelopeJson =
      w.promised setup.crc32 setup.envelopeJson ++
        FileStorage.eventLines setup.crc32 w.store.enableChecksums
          (messages.flatMap (AsyncWriter.textsOf setup.envelopeJson)) := by
  show _ ++ FileStorage.eventLines setup.crc32 _ (_ ++ List.flatMap _ (_ ++ _)) = _
  rw [List.flatMap_append, ← List.append_assoc, FileStorage.eventLines_append,
    ← List.append_assoc]
  rfl

/-- A flush is asked for. -/
theorem flush_keeps {ack : ℕ} (h : Inv setup s) (hnext : step setup s (.flush ack) = some next) :
    Inv setup next ∧ ¬ next.Idle ∧ next.engine.stateMap = s.engine.stateMap ∧
      AsyncWriter.Keeps setup.crc32 setup.envelopeJson s.engine.writer next.engine.writer := by
  unfold step at hnext
  simp only at hnext
  split_ifs at hnext with hguard
  obtain rfl := Option.some.inj hnext
  obtain ⟨hidle, hack⟩ := hguard
  have hpromised : (s.engine.writer.send (.flush ack)).promised setup.crc32 setup.envelopeJson =
      s.engine.writer.promised setup.crc32 setup.envelopeJson :=
    (promised_send setup s.engine.writer [.flush ack]).trans (List.append_nil _)
  obtain ⟨before, hbefore, ⟨-, hchannel⟩ | ⟨ack', hflushing, hack', -⟩⟩ := h.channel
  · refine ⟨⟨h.rotate, h.flushes, ?_, before, hbefore, Or.inr ⟨ack, rfl, hack, ?_⟩⟩,
      not_idle_iff.mpr ⟨ack, rfl, hack⟩, rfl, hpromised, ⟨rfl, rfl, rfl, rfl⟩, rfl⟩
    · show Ended ((s.engine.writer.send (.flush ack)).promised _ _)
      rw [hpromised]
      exact h.ended
    · show s.engine.writer.channel ++ _ = _
      rw [hchannel]
  · exact absurd (hidle ack' hflushing) hack'

/-- What a flush leaves when it returns. -/
theorem flushReturns_spec {t : Running S} (h : Inv setup s) (ht : FlushReturns setup s t) :
    t.engine.stateMap = s.engine.stateMap ∧
      AsyncWriter.Keeps setup.crc32 setup.envelopeJson s.engine.writer t.engine.writer ∧
      t.engine.writer.Drained := by
  obtain ⟨asked, actions, ⟨rfl, hwaiting⟩ | ⟨ack, hflush⟩, hwriter, hexec, hidle⟩ := ht
  · exact (exec_ofWriter hwriter h hwaiting hexec hidle).2
  · obtain ⟨hinv, hwaiting, hmap, hkeeps⟩ := flush_keeps h hflush
    obtain ⟨-, hmap', hkeeps', hempty⟩ := exec_ofWriter hwriter hinv hwaiting hexec hidle
    exact ⟨hmap'.trans hmap, hkeeps.trans _ _ hkeeps', hempty⟩

theorem exists_flushReturns (h : Inv setup s) : ∃ t, FlushReturns setup s t := by
  by_cases hidle : s.Idle
  · obtain ⟨ack, hack⟩ := Infinite.exists_notMem_finset s.engine.writer.acknowledged.toFinset
    have hack' : ack ∉ s.engine.writer.acknowledged := fun hmem ↦ hack (List.mem_toFinset.mpr hmem)
    have hflush : step setup s (.flush ack) =
        some { s.setWriter (s.engine.writer.send (.flush ack)) with flushing := some ack } :=
      if_pos ⟨hidle, hack'⟩
    obtain ⟨actions, t, hwriter, hexec, ht⟩ := exists_exec_ofWriter (flush_keeps h hflush).1
    exact ⟨t, _, actions, Or.inr ⟨ack, hflush⟩, hwriter, hexec, ht⟩
  · obtain ⟨actions, t, hwriter, hexec, ht⟩ := exists_exec_ofWriter h
    exact ⟨t, s, actions, Or.inl ⟨rfl, hidle⟩, hwriter, hexec, ht⟩

/-! ### What is replayed -/

/-- The data of an engine over the files of a storage. -/
theorem start_data_iff {store : FileStorage} {now : ℕ} {data : String → Option S} :
    (∃ engine, Scc2Engine.start setup.json setup.app setup.crc32 store now = some engine ∧
        dataOf engine.stateMap = data) ↔
      ∃ events, (store.readAllEvents setup.crc32).map
          (List.filterMap (Scc2Engine.keyedEvent setup.json setup.app)) = some events ∧
        events.foldl (Scc2Engine.effect setup.app) (fun _ ↦ none) = data := by
  unfold Scc2Engine.start
  rw [show store.reopen.readAllEvents setup.crc32 = store.readAllEvents setup.crc32 from rfl]
  cases store.readAllEvents setup.crc32 with
  | none => simp
  | some lines =>
    simp only [Option.map_some, Option.some.injEq, exists_eq_left', Scc2Engine.dataOf_replayEvents]
    exact Iff.rfl

theorem promised_of_drained {w : AsyncWriter} (h : w.Drained) :
    w.promised setup.crc32 setup.envelopeJson = w.store.events := by
  obtain ⟨hchannel, hbuffer, hbatch⟩ := h
  rw [AsyncWriter.promised, AsyncWriter.pending, hchannel, hbuffer,
    AsyncWriter.written_of_eventBatch setup.crc32 hbatch]
  exact List.append_nil _

/-- When nothing is left in memory, the events are those of the files. -/
theorem history_of_drained {w : AsyncWriter} (h : w.Drained) :
    history setup w = (w.store.readAllEvents setup.crc32).map
      (List.filterMap (Scc2Engine.keyedEvent setup.json setup.app)) := by
  rw [history, promised_of_drained h, FileStorage.readAllEvents]
  cases readEvents setup.crc32 w.store.rotated with
  | none => rfl
  | some first =>
    show Option.map _ _ = Option.map _ (Option.map _ _)
    rw [Option.map_map]
    rfl

theorem history_of_keeps {w w' : AsyncWriter}
    (h : AsyncWriter.Keeps setup.crc32 setup.envelopeJson w w') :
    history setup w' = history setup w := by
  rw [history, history, h.promised, h.files.rotated]

/-- A restart gives the data back exactly when the events that will be in the files make it. -/
theorem restores_iff (h : Inv setup s) : Restores setup s ↔
    ∃ events, history setup s.engine.writer = some events ∧
      events.foldl (Scc2Engine.effect setup.app) (fun _ ↦ none) = dataOf s.engine.stateMap := by
  have hiff : ∀ t, FlushReturns setup s t → ∀ now,
      ((∃ engine, Scc2Engine.start setup.json setup.app setup.crc32 t.engine.writer.store now =
          some engine ∧ dataOf engine.stateMap = dataOf s.engine.stateMap) ↔
        ∃ events, history setup s.engine.writer = some events ∧
          events.foldl (Scc2Engine.effect setup.app) (fun _ ↦ none) =
            dataOf s.engine.stateMap) := by
    intro t ht now
    obtain ⟨-, hkeeps, hempty⟩ := flushReturns_spec h ht
    rw [start_data_iff, ← history_of_drained hempty, history_of_keeps hkeeps]
  constructor
  · intro hrestores
    obtain ⟨t, ht⟩ := exists_flushReturns h
    exact (hiff t ht 0).mp (hrestores t ht 0)
  · intro hevents t ht now
    exact (hiff t ht now).mpr hevents

/-- More is promised. -/
theorem history_append {w w' : AsyncWriter} {more : List Char}
    (hended : Ended (w.promised setup.crc32 setup.envelopeJson))
    (hrotated : w'.store.rotated = w.store.rotated)
    (hpromised : w'.promised setup.crc32 setup.envelopeJson =
      w.promised setup.crc32 setup.envelopeJson ++ more) :
    history setup w' = (history setup w).bind fun events ↦
      ((readEvents setup.crc32 more).map
        (List.filterMap (Scc2Engine.keyedEvent setup.json setup.app))).map (events ++ ·) := by
  rw [history, history, hpromised, hrotated, readEvents_append setup.crc32 hended]
  cases readEvents setup.crc32 w.store.rotated with
  | none => rfl
  | some first =>
    cases readEvents setup.crc32 (w.promised setup.crc32 setup.envelopeJson) with
    | none => rfl
    | some second =>
      cases readEvents setup.crc32 more with
      | none => rfl
      | some third =>
        show some (List.filterMap _ (first ++ (second ++ third))) =
          some (List.filterMap _ (first ++ second) ++ List.filterMap _ third)
        rw [← List.append_assoc, List.filterMap_append]

theorem apply_keeps {key : String} {event : E} {now : ℕ} {engine : Scc2Engine S} (h : Inv setup s)
    (hidle : s.Idle)
    (happly : s.engine.applyEvent setup.json setup.app setup.config key event now = .ok engine) :
    Inv setup { s with engine } ∧ engine.writer.store = s.engine.writer.store ∧
      engine.writer.promised setup.crc32 setup.envelopeJson =
        s.engine.writer.promised setup.crc32 setup.envelopeJson ++
          FileStorage.eventLines setup.crc32 s.engine.writer.store.enableChecksums
            (Scc2Engine.sentTexts setup.app setup.config now event) := by
  obtain ⟨-, hwriter⟩ := Scc2Engine.applyEvent_spec _ _ _ happly
  have htexts : ((Scc2Engine.sentTexts setup.app setup.config now event).map
      WriteEvent.event).flatMap (AsyncWriter.textsOf setup.envelopeJson) =
        Scc2Engine.sentTexts setup.app setup.config now event := by
    rw [List.flatMap_map]
    exact List.flatMap_singleton' _
  have hpromised := promised_send setup s.engine.writer
    ((Scc2Engine.sentTexts setup.app setup.config now event).map .event)
  rw [htexts, ← hwriter] at hpromised
  obtain ⟨before, hbefore, ⟨-, hchannel⟩ | ⟨ack, hflushing, hack, -⟩⟩ := h.channel
  · refine ⟨⟨?_, ?_, ?_, before ++ (Scc2Engine.sentTexts setup.app setup.config now event).map
      .event, ?_, Or.inl ⟨?_, ?_⟩⟩, by rw [hwriter], hpromised⟩
    · rw [hwriter]
      exact h.rotate
    · rw [hwriter]
      exact h.flushes
    · rw [hpromised]
      exact h.ended.append (FileStorage.ended_eventLines _ _ _)
    · intro m hm
      rcases List.mem_append.mp hm with hm | hm
      · exact hbefore m hm
      · obtain ⟨_, -, rfl⟩ := List.mem_map.mp hm
        rfl
    · intro ack hack
      rw [hwriter]
      exact hidle ack hack
    · rw [hwriter, ← hchannel]
  · exact absurd (hidle ack hflushing) hack

/-- A new engine over the files, when nothing is left in memory. -/
theorem restart_keeps {now : ℕ} {engine : Scc2Engine S} (h : Inv setup s)
    (hempty : s.engine.writer.Drained)
    (hstart : Scc2Engine.start setup.json setup.app setup.crc32 s.engine.writer.store now =
      some engine) :
    Inv setup (S := S) ⟨engine, none⟩ ∧
      history setup engine.writer = history setup s.engine.writer := by
  obtain ⟨events, -, rfl⟩ := Option.map_eq_some_iff.mp hstart
  have hwriter := Scc2Engine.writer_replayEvents setup.json setup.app
    (Scc2Engine.new s.engine.writer.store.reopen) events now
  have hpromised : (AsyncWriter.new s.engine.writer.store.reopen 1000).promised setup.crc32
      setup.envelopeJson = s.engine.writer.promised setup.crc32 setup.envelopeJson := by
    rw [promised_of_drained hempty]
    exact promised_of_drained ⟨rfl, rfl, rfl⟩
  refine ⟨⟨?_, ?_, ?_, [], fun _ hm ↦ absurd hm List.not_mem_nil, Or.inl ⟨?_, ?_⟩⟩, ?_⟩
  · rw [hwriter]
    exact h.rotate
  · rw [hwriter]
    rfl
  · show Ended (AsyncWriter.promised _ _ _)
    rw [hwriter]
    show Ended ((AsyncWriter.new s.engine.writer.store.reopen 1000).promised _ _)
    rw [hpromised]
    exact h.ended
  · exact fun _ hack ↦ absurd hack (by simp)
  · rw [hwriter]
    rfl
  · rw [hwriter, history, history]
    show (readEvents _ s.engine.writer.store.rotated).bind _ = _
    rw [← hpromised]
    rfl

/-! ### Runs -/

theorem inv_start : Inv setup (start : Running S) where
  rotate := rfl
  flushes := rfl
  ended := ended_nil
  channel := ⟨[], fun _ hm ↦ absurd hm List.not_mem_nil,
    Or.inl ⟨fun _ hack ↦ absurd hack (by simp [start]), rfl⟩⟩

/-- An event is applied, or refused. -/
theorem step_applyEvent {key : String} {event : E} {now : ℕ}
    (hnext : step setup s (.applyEvent key event now) = some next) : s.Idle ∧
      ((∃ engine, s.engine.applyEvent setup.json setup.app setup.config key event now = .ok engine ∧
          s.engine.checkUniqueness setup.json setup.app event key = .ok () ∧
          next = { s with engine }) ∨
        (s.engine.checkUniqueness setup.json setup.app event key ≠ .ok () ∧ next = s)) := by
  unfold step at hnext
  simp only at hnext
  split_ifs at hnext with hidle
  refine ⟨hidle, ?_⟩
  split at hnext
  · next engine happly =>
    refine Or.inl ⟨engine, happly, ?_, (Option.some.inj hnext).symm⟩
    unfold Scc2Engine.applyEvent at happly
    split at happly
    · exact absurd happly (by simp)
    · assumption
  · next message happly =>
    refine Or.inr ⟨fun hunique ↦ ?_, (Option.some.inj hnext).symm⟩
    rw [Scc2Engine.applyEvent, hunique] at happly
    exact absurd happly (by simp)

theorem step_restart {now : ℕ} (hnext : step setup s (.restart now) = some next) :
    s.engine.writer.Drained ∧ ∃ engine, Scc2Engine.start setup.json setup.app setup.crc32
      s.engine.writer.store now = some engine ∧ next = ⟨engine, none⟩ := by
  unfold step at hnext
  simp only at hnext
  split_ifs at hnext with hguard
  obtain ⟨engine, hstart, rfl⟩ := Option.map_eq_some_iff.mp hnext
  exact ⟨hguard.2, engine, hstart, rfl⟩

theorem kept_inv : Kept (step setup) (Inv (S := S) setup) := by
  intro s a next h hnext
  cases a with
  | applyEvent key event now =>
    obtain ⟨hidle, ⟨engine, happly, -, rfl⟩ | ⟨-, rfl⟩⟩ := step_applyEvent hnext
    · exact (apply_keeps h hidle happly).1
    · exact h
  | flush ack => exact (flush_keeps h hnext).1
  | receive =>
    obtain ⟨w', hreceive, rfl⟩ := Option.map_eq_some_iff.mp hnext
    exact (receive_keeps h hreceive).1
  | timeout =>
    obtain ⟨w', htimeout, rfl⟩ := Option.map_eq_some_iff.mp hnext
    exact (timeout_keeps h htimeout).1
  | restart now =>
    obtain ⟨hempty, engine, hstart, rfl⟩ := step_restart hnext
    exact (restart_keeps h hempty hstart).1

/-- One step leaves the engine with data that a restart gives back exactly when it meets the
condition. -/
theorem restores_step {a : EngineAction E} (h : Inv setup s) (hrestores : Restores setup s)
    (hnext : step setup s a = some next) : Restores setup next ↔ ReplaysAsApplied setup s a := by
  have hinv := kept_inv s a next h hnext
  have hold := (restores_iff h).mp hrestores
  have hsame : history setup next.engine.writer = history setup s.engine.writer →
      next.engine.stateMap = s.engine.stateMap → Restores setup next := by
    intro hhistory hmap
    rw [restores_iff hinv, hhistory, hmap]
    exact hold
  cases a with
  | applyEvent key event now =>
    obtain ⟨hidle, ⟨engine, happly, hunique, rfl⟩ | ⟨hrefused, rfl⟩⟩ := step_applyEvent hnext
    · obtain ⟨events, hevents, hdata⟩ := hold
      obtain ⟨-, hstore, hpromised⟩ := apply_keeps h hidle happly
      have happend := history_append h.ended (congrArg FileStorage.rotated hstore) hpromised
      rw [restores_iff hinv, happend, hevents,
        (Scc2Engine.applyEvent_spec _ _ _ happly).1]
      show (∃ all, ((some _).bind _ = some all) ∧ _) ↔ (_ → _)
      rw [Option.bind_some]
      constructor
      · rintro ⟨all, hall, hfold⟩ -
        obtain ⟨more, hmore, rfl⟩ := Option.map_eq_some_iff.mp hall
        refine ⟨more, hmore, ?_⟩
        rw [← hdata, ← List.foldl_append, hfold, hdata]
      · intro hreplays
        obtain ⟨more, hmore, hfold⟩ := hreplays hunique
        refine ⟨events ++ more, Option.map_eq_some_iff.mpr ⟨more, hmore, rfl⟩, ?_⟩
        rw [List.foldl_append, hdata, hfold]
    · exact iff_of_true hrestores fun hunique ↦ absurd hunique hrefused
  | flush ack =>
    obtain ⟨-, -, hmap, hkeeps⟩ := flush_keeps h hnext
    exact iff_of_true (hsame (history_of_keeps hkeeps) hmap) trivial
  | receive =>
    obtain ⟨w', hreceive, rfl⟩ := Option.map_eq_some_iff.mp hnext
    exact iff_of_true (hsame (history_of_keeps (receive_keeps h hreceive).2.1) rfl) trivial
  | timeout =>
    obtain ⟨w', htimeout, rfl⟩ := Option.map_eq_some_iff.mp hnext
    exact iff_of_true (hsame (history_of_keeps (timeout_keeps h htimeout).2.1) rfl) trivial
  | restart now =>
    obtain ⟨hempty, engine, hstart, rfl⟩ := step_restart hnext
    obtain ⟨-, hhistory⟩ := restart_keeps h hempty hstart
    refine iff_of_true ((restores_iff hinv).mpr ?_) trivial
    obtain ⟨events, hevents, hfold⟩ := start_data_iff.mp ⟨engine, hstart, rfl⟩
    rw [hhistory, history_of_drained hempty]
    exact ⟨events, hevents, hfold⟩

theorem restores_start : Restores setup (start : Running S) :=
  (restores_iff inv_start).mpr ⟨[], rfl, rfl⟩

/-! ### Lines that are read back -/

/-- An event whose text is one line is read back as what its text says. -/
theorem readBack_oneLine (hpersist : setup.config.autoPersistWrites = true) {now : ℕ} {event : E}
    (hline : OneLine (setup.app.toJson now event)) : readBack setup true now event =
      some (Scc2Engine.keyedEvent setup.json setup.app (setup.app.toJson now event)).toList := by
  have hlines : FileStorage.eventLines setup.crc32 true
      (Scc2Engine.sentTexts setup.app setup.config now event) =
        formatEventWithCrc32 setup.crc32 (setup.app.toJson now event) ++ ['\n'] := by
    rw [Scc2Engine.sentTexts, if_pos hpersist]
    exact List.append_nil _
  rw [readBack, hlines, readEvents_formatEventWithCrc32 setup.crc32 hline]
  show some (List.filterMap _ [_]) = _
  cases hkeyed : Scc2Engine.keyedEvent setup.json setup.app (setup.app.toJson now event) with
  | none => rw [List.filterMap_cons_none hkeyed, List.filterMap_nil, Option.toList_none]
  | some keyed => rw [List.filterMap_cons_some hkeyed, List.filterMap_nil, Option.toList_some]

/-- Two events do the same to the data: under one key, when they make the same of its state; under
two keys, when both leave everything as it is. -/
theorem effect_eq_effect_iff {app : Application S E} {data : String → Option S}
    {key key' : String} {event event' : E} :
    Scc2Engine.effect app data (key', event') = Scc2Engine.effect app data (key, event) ↔
      if key' = key then
        app.apply event' ((data key).getD app.default) =
          app.apply event ((data key).getD app.default)
      else
        data key' = some (app.apply event' ((data key').getD app.default)) ∧
          data key = some (app.apply event ((data key).getD app.default)) := by
  unfold Scc2Engine.effect
  split_ifs with hkey
  · subst hkey
    rw [Function.update_injective _ _ |>.eq_iff, Option.some.injEq]
  · constructor
    · intro heq
      have hkey' := congrFun heq key'
      have hkey'' := congrFun heq key
      rw [Function.update_self, Function.update_of_ne hkey] at hkey'
      rw [Function.update_self, Function.update_of_ne (Ne.symm hkey)] at hkey''
      exact ⟨hkey'.symm, hkey''⟩
    · rintro ⟨hkey', hkey''⟩
      show Function.update data key' _ = Function.update data key _
      rw [← hkey', ← hkey'', Function.update_eq_self, Function.update_eq_self]

end Steps

end Running

open Running in
/-- In every run, the engine can be restarted at any point with the data that it holds exactly when
the line of each event that is applied reads back as an event that does the same. -/
theorem restores_iff_replaysAsApplied {S E : Type*} (setup : EngineSetup S E)
    (actions : List (EngineAction E)) :
    Always (step setup) (Restores setup) start actions ↔
      EachStep (step setup) (ReplaysAsApplied setup) start actions :=
  always_iff_eachStep kept_inv (fun _ _ _ h hrestores hnext ↦ restores_step h hrestores hnext)
    inv_start restores_start actions

/-! ### An event under another key -/

section Counter

/-- The event of an application that counts. -/
inductive CounterEvent
  | increment
  deriving DecidableEq

/-- The counters have no fields. The text of the event is its name in quotes. -/
def counter : Application ℕ CounterEvent where
  default := 0
  getAllFields := fun _ ↦ []
  getPolicy := fun _ _ ↦ none
  getFieldValue := fun _ _ ↦ none
  apply := fun _ state ↦ state + 1
  toJson := fun _ _ ↦ "\"Increment\""
  fromStr := fun text ↦ if text = "\"Increment\"" then some .increment else none

/-- The setup of the counters, as `Engine` makes it. -/
def counterSetup (crc32 : List UInt8 → UInt32) : EngineSetup ℕ CounterEvent where
  app := counter
  config := ⟨true, true⟩
  json := ⟨fun text ↦ if text = "\"Increment\"" then some (.string "Increment") else none,
    fun _ ↦ ""⟩
  crc32 := crc32
  envelopeJson := fun _ ↦ none

open Running in
/-- The counter under the key `a` is incremented; after a restart the counter under the key `global`
is there instead. -/
theorem key_of_another : ¬ ∃ crc32, ∀ actions, Always (step (counterSetup crc32))
    (Restores (counterSetup crc32)) start actions := by
  rintro ⟨crc32, h⟩
  have hrun := h [.applyEvent "a" .increment 0]
  have hnext : step (counterSetup crc32) start (.applyEvent "a" .increment 0) = some _ := rfl
  have hreplays := (restores_step inv_start restores_start hnext).mp (hrun.2 _ hnext).head
  obtain ⟨events, hevents, hfold⟩ := hreplays rfl
  have hline : OneLine "\"Increment\"" := ⟨by decide, by decide, by decide⟩
  have hread : readBack (counterSetup crc32) true 0 .increment =
      some [("global", CounterEvent.increment)] := readBack_oneLine rfl hline
  obtain rfl := Option.some.inj (hread.symm.trans hevents)
  have ha : (none : Option ℕ) = some 1 := congrFun hfold "a"
  exact absurd ha (by simp)

end Counter

end Lithair.Engine
