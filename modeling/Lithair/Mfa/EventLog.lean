import Lithair.Engine.OptimizedPersistence
import Lithair.Engine.TamperEvidence
import Lithair.Lib.Utf8
import Lithair.Mfa.EventJson

/-!
# The log of MFA events

`MfaEventLog` of `mfa/event_log.rs`, for any number of appends at once. An append writes the JSON
text of its event to the end of the file, then a line feed, then applies the event to the state in
memory; there is no lock around these, so that appends can come between each other. A write can stop
in the middle with an error, and a crash can cut off a part of the last line. Opening the log reads
the lines that are events and passes over the others with a warning; bytes that are no text are an
error.

`recovers_of_undisturbed`: in a run whose appends come one line after the other, are applied in the
order of their lines, and write at the end of a line, every reopening has the events that were
applied, in their order, and behind them only events of appends that were going on.
-/

namespace Lithair.Mfa

open Lithair.Engine Lithair.Lib.JsonText Lithair.Lib.Run Lithair.Lib.Text Lithair.Lib.Utf8

/-! ### Reading a log -/

/-- What is used of `serde_json` for events: an event reads back from its text, which is an object
in one line, and a text that stops before its end is no event. -/
structure MfaEventJson where
  render : MfaEvent → String
  parse : String → Option MfaEvent
  parse_render : ∀ event, parse (render event) = some event
  object : ∀ event, ∃ rest, (render event).toList = '{' :: rest
  oneLine : ∀ event, '\n' ∉ (render event).toList ∧ '\r' ∉ (render event).toList
  parse_torn : ∀ event torn, torn <+: (render event).toList → torn ≠ (render event).toList →
    parse (String.ofList torn) = none

/-- The text that the derived serializer writes. -/
def MfaEventJson.ofFormat : MfaEventJson where
  render := eventFormat.toText
  parse := eventFormat.fromText
  parse_render := eventFormat.fromText_toText
  object := by
    intro event
    obtain ⟨rest, hrest⟩ := eventFormat_object event
    rw [Format.toText, String.toList_ofList]
    exact ⟨'"' :: rest, hrest⟩
  oneLine := by
    intro event
    rw [Format.toText, String.toList_ofList]
    exact ⟨avoids_eventFormat (by decide) event, avoids_eventFormat (by decide) event⟩
  parse_torn := by
    intro event torn hbegins hne
    rw [Format.toText, String.toList_ofList] at hbegins hne
    exact stable_eventFormat.fromText_torn hbegins hne

theorem MfaEventJson.parse_ofFormat : MfaEventJson.ofFormat.parse = eventFormat.fromText := rfl

theorem MfaEventJson.toList_render_ofFormat (event : MfaEvent) :
    (MfaEventJson.ofFormat.render event).toList = eventFormat.write event := String.toList_ofList

variable (json : MfaEventJson)

/-- The events of lines; blank lines and those that are none are passed over. -/
def readLog (text : List Char) : List MfaEvent :=
  ((lines text).filter fun line ↦ !line.all isWhitespace).filterMap fun line ↦
    json.parse (String.ofList line)

/-- The events of a file, unless it is no text. -/
def loadEvents (file : List UInt8) : Option (List MfaEvent) := (decodeUtf8 file).map (readLog json)

section Reading

variable {json}

theorem readLog_append {text : List Char} (h : Ended text) (more : List Char) :
    readLog json (text ++ more) = readLog json text ++ readLog json more := by
  unfold readLog
  rw [lines_append h, List.filter_append, List.filterMap_append]

theorem visible (event : MfaEvent) : (json.render event).toList.all isWhitespace = false := by
  obtain ⟨rest, hrest⟩ := json.object event
  rw [hrest, List.all_cons, show isWhitespace '{' = false by decide, Bool.false_and]

theorem readLog_text (event : MfaEvent) : readLog json (json.render event).toList = [event] := by
  obtain ⟨rest, hrest⟩ := json.object event
  have hne : (json.render event).toList ≠ [] := by
    rw [hrest]
    exact List.cons_ne_nil _ _
  unfold readLog lines
  rw [linesFrom_unended (json.oneLine event).1, List.nil_append, if_neg hne,
    List.filter_cons_of_pos (by rw [visible]; rfl), List.filter_nil,
    List.filterMap_cons_some (by rw [String.ofList_toList, json.parse_render]), List.filterMap_nil]

theorem lines_line {line : List Char} (hfeed : '\n' ∉ line) (hreturn : '\r' ∉ line) :
    lines (line ++ ['\n']) = [line] := by
  have hstrip : stripCarriageReturn line = line :=
    if_neg fun hlast ↦ hreturn (List.mem_of_getLast? hlast)
  rw [lines, linesFrom_line hfeed, List.nil_append, hstrip]

theorem readLog_line (event : MfaEvent) :
    readLog json ((json.render event).toList ++ ['\n']) = [event] := by
  unfold readLog
  rw [lines_line (json.oneLine event).1 (json.oneLine event).2,
    List.filter_cons_of_pos (by rw [visible]; rfl), List.filter_nil,
    List.filterMap_cons_some (by rw [String.ofList_toList, json.parse_render]), List.filterMap_nil]

/-- A line that stops before its end is passed over. -/
theorem readLog_torn {event : MfaEvent} {torn : List Char}
    (hbegins : torn <+: (json.render event).toList) (hne : torn ≠ (json.render event).toList) :
    readLog json torn = [] := by
  have hline : '\n' ∉ torn := fun hmem ↦ (json.oneLine event).1 (hbegins.subset hmem)
  unfold readLog lines
  rw [linesFrom_unended hline, List.nil_append]
  split_ifs
  · rfl
  · refine List.filterMap_eq_nil_iff.mpr fun line hmem ↦ ?_
    rw [List.mem_singleton.mp (List.mem_of_mem_filter hmem)]
    exact json.parse_torn event torn hbegins hne

variable (json) in
/-- The lines of events. -/
def linesOf (events : List MfaEvent) : List Char :=
  events.flatMap fun event ↦ (json.render event).toList ++ ['\n']

theorem ended_linesOf (events : List MfaEvent) : Ended (linesOf json events) := by
  induction events with
  | nil => exact ended_nil
  | cons event rest ih => exact (ended_concat _).append ih

theorem readLog_linesOf (events : List MfaEvent) : readLog json (linesOf json events) = events := by
  induction events with
  | nil => rfl
  | cons event rest ih =>
    show readLog json (((json.render event).toList ++ ['\n']) ++ linesOf json rest) = _
    rw [readLog_append (ended_concat _), readLog_line, ih]
    rfl

theorem linesOf_append (first second : List MfaEvent) :
    linesOf json (first ++ second) = linesOf json first ++ linesOf json second :=
  List.flatMap_append

theorem linesOf_singleton (event : MfaEvent) :
    linesOf json [event] = (json.render event).toList ++ ['\n'] := List.append_nil _

theorem decodeUtf8_eq_some_iff {bytes : List UInt8} {text : List Char} :
    decodeUtf8 bytes = some text ↔ bytes = utf8 text := by
  constructor
  · intro h
    unfold decodeUtf8 at h
    obtain ⟨s, hs, rfl⟩ := Option.map_eq_some_iff.mp h
    have hbytes : s.toByteArray = ⟨bytes.toArray⟩ := by
      unfold String.fromUTF8? at hs
      split_ifs at hs
      exact congrArg String.toByteArray (Option.some.inj hs).symm
    have hdata : asBytes s = bytes := by
      show s.toByteArray.data.toList = bytes
      rw [hbytes]
    rw [← hdata, asBytes_eq]
    rfl
  · rintro rfl
    have h := decodeUtf8_asBytes (String.ofList text)
    rw [asBytes_eq, String.toList_ofList] at h
    exact h

theorem loadEvents_utf8 (text : List Char) :
    loadEvents json (utf8 text) = some (readLog json text) := by
  rw [loadEvents, decodeUtf8_eq_some_iff.mpr rfl]
  rfl

end Reading

/-! ### The log -/

/-- How the write of the text ends: with an error, so many of its bytes are written. -/
inductive TextOutcome
  | written
  | failed (wrote : ℕ)

/-- Where an append is. -/
inductive AppendCall
  | begun (event : MfaEvent)
  | texted (event : MfaEvent)
  | written (event : MfaEvent)
  | applied (event : MfaEvent)
  | returned
  | failed
  deriving DecidableEq

/-- The event of an append that has not been applied. -/
def AppendCall.pending : AppendCall → Option MfaEvent
  | .begun event | .texted event | .written event => some event
  | _ => none

/-- The file, the state in memory, whether the log could be opened, the number of events, and the
appends; beside these the events that were applied, in their order, and the appends whose text is in
the file and whose event is not applied, in the order of their texts. -/
structure MfaEventLog where
  file : List UInt8
  state : MfaState
  opened : Bool
  eventCount : ℕ
  calls : ℕ → Option AppendCall
  applied : List MfaEvent
  order : List (ℕ × MfaEvent)

inductive LogAction
  | begin (c : ℕ) (event : MfaEvent)
  | writeText (c : ℕ) (outcome : TextOutcome)
  | writeNewline (c : ℕ) (ok : Bool)
  | apply (c : ℕ)
  | finish (c : ℕ)
  | crash (keep : ℕ)

namespace MfaEventLog

/-- Open the log over a file. -/
def reopen (file : List UInt8) : MfaEventLog :=
  let events := (loadEvents json file).getD []
  { file
    state := MfaState.replay events
    opened := (loadEvents json file).isSome
    eventCount := events.length
    calls := fun _ ↦ none
    applied := events
    order := [] }

def setCall (s : MfaEventLog) (c : ℕ) (call : AppendCall) : MfaEventLog :=
  { s with calls := Function.update s.calls c (some call) }

/-- The bytes of the text of an event. -/
def textBytes (event : MfaEvent) : List UInt8 := utf8 (json.render event).toList

/-- A cut of the file that takes away nothing but a part of its last line. -/
def TearsLastLine (file : List UInt8) (keep : ℕ) : Prop :=
  keep ≤ file.length ∧ 10 ∉ (file.drop keep).dropLast

instance (file : List UInt8) (keep : ℕ) : Decidable (TearsLastLine file keep) :=
  inferInstanceAs (Decidable (_ ∧ _))

def step (s : MfaEventLog) : LogAction → Option MfaEventLog
  | .begin c event =>
    if s.opened ∧ s.calls c = none then some (s.setCall c (.begun event)) else none
  | .writeText c outcome =>
    match s.calls c with
    | some (.begun event) =>
      match outcome with
      | .written =>
        some ({ s with
          file := s.file ++ textBytes json event
          order := s.order ++ [(c, event)] }.setCall c (.texted event))
      | .failed wrote =>
        some ({ s with file := s.file ++ (textBytes json event).take wrote }.setCall c .failed)
    | _ => none
  | .writeNewline c ok =>
    match s.calls c with
    | some (.texted event) =>
      if ok then some ({ s with file := s.file ++ [10] }.setCall c (.written event))
      else some ({ s with order := s.order.erase (c, event) }.setCall c .failed)
    | _ => none
  | .apply c =>
    match s.calls c with
    | some (.written event) =>
      some ({ s with
        state := s.state.apply event
        applied := s.applied ++ [event]
        order := s.order.erase (c, event) }.setCall c (.applied event))
    | _ => none
  | .finish c =>
    match s.calls c with
    | some (.applied _) =>
      some ({ s with eventCount := s.eventCount + 1 }.setCall c .returned)
    | _ => none
  | .crash keep =>
    if TearsLastLine s.file keep then some (reopen json (s.file.take keep)) else none

/-! ### What is meant to hold -/

/-- A reopening after a crash reads the events that were applied, in their order, and behind them at
most events of appends that were going on, each once; its state is the one before the crash with
these applied. -/
def Recovers (s : MfaEventLog) : LogAction → Prop
  | .crash keep => ∃ going : List (ℕ × MfaEvent),
      (going.map Prod.fst).Nodup ∧
      (∀ pair ∈ going, (s.calls pair.1).bind AppendCall.pending = some pair.2) ∧
      loadEvents json (s.file.take keep) = some (s.applied ++ going.map Prod.snd) ∧
      (reopen json (s.file.take keep)).state = (going.map Prod.snd).foldl MfaState.apply s.state
  | _ => True

/-- A text is written at the end of a line and whole or not at all, the line feed follows, the
events are applied in the order of their lines, and a crash cuts off nothing, or a part of a line
whose event was not applied, and no character in the middle. -/
def Undisturbed (s : MfaEventLog) : LogAction → Prop
  | .writeText _ outcome => (s.file = [] ∨ s.file.getLast? = some 10) ∧
      ∀ wrote, outcome = .failed wrote → wrote = 0
  | .writeNewline _ ok => ok = true
  | .apply c => s.order.head?.map Prod.fst = some c
  | .crash keep => keep = s.file.length ∨
      s.order ≠ [] ∧ (decodeUtf8 (s.file.take keep)).isSome
  | _ => True

/-! ### Cuts -/

theorem utf8_lineFeed : utf8 ['\n'] = [10] := by decide

/-- A cut that takes away nothing but a part of the last line leaves what is in front of that
line. -/
theorem cut_spec {front line text : List Char} {keep : ℕ} (hfront : Ended front) (hline : line ≠ [])
    (htears : TearsLastLine (utf8 (front ++ line)) keep)
    (htext : (utf8 (front ++ line)).take keep = utf8 text) :
    ∃ torn, text = front ++ torn ∧ torn <+: line := by
  have hbegins : text <+: front ++ line :=
    prefix_of_utf8 (htext ▸ List.take_prefix keep _)
  rcases List.prefix_or_prefix_of_prefix hbegins (List.prefix_append front line) with
    hshort | ⟨torn, rfl⟩
  · by_cases hall : text = front
    · exact ⟨[], by rw [hall, List.append_nil], List.nil_prefix⟩
    obtain ⟨rest, hrest⟩ := hshort
    have hne : rest ≠ [] := by
      rintro rfl
      exact hall (by rw [← hrest, List.append_nil])
    have hends : rest.getLast? = some '\n' := by
      rcases hfront with hnil | hlast
      · rw [hnil] at hrest
        exact absurd (List.append_eq_nil_iff.mp hrest).2 hne
      · rwa [← hrest, List.getLast?_append_of_ne_nil _ hne] at hlast
    obtain ⟨body, rfl⟩ := List.getLast?_eq_some_iff.mp hends
    -- the bytes that are taken away have the line feed of `front` in front of `line`
    have hremoved : (utf8 (front ++ line)).drop keep = utf8 body ++ [10] ++ utf8 line := by
      have hsplit : utf8 text ++ (utf8 (front ++ line)).drop keep =
          utf8 text ++ (utf8 body ++ [10] ++ utf8 line) :=
        calc utf8 text ++ (utf8 (front ++ line)).drop keep
            = utf8 (front ++ line) := by rw [← htext, List.take_append_drop]
          _ = utf8 (text ++ (body ++ ['\n']) ++ line) := by rw [hrest]
          _ = utf8 text ++ (utf8 body ++ [10] ++ utf8 line) := by
            simp only [utf8_append, utf8_lineFeed, List.append_assoc]
      exact List.append_cancel_left hsplit
    refine absurd ?_ htears.2
    rw [hremoved, List.dropLast_append_of_ne_nil (fun hnil ↦ hline (utf8_eq_nil_iff.mp hnil))]
    simp
  · exact ⟨torn, rfl, (List.prefix_append_right_inj front).mp hbegins⟩

/-! ### What an undisturbed run keeps -/

/-- All lines of the appends that are going on are whole. -/
def Whole (s : MfaEventLog) (base : List Char) : Prop :=
  s.file = utf8 (base ++ linesOf json (s.order.map Prod.snd)) ∧
    (∀ pair ∈ s.order, s.calls pair.1 = some (.written pair.2)) ∧
    ∀ c event, s.calls c ≠ some (.texted event)

/-- One append has written its text and not the line feed. -/
def Unfinished (s : MfaEventLog) (base : List Char) : Prop :=
  ∃ front c event, s.order = front ++ [(c, event)] ∧
    s.file = utf8 (base ++ linesOf json (front.map Prod.snd) ++ (json.render event).toList) ∧
    (∀ pair ∈ front, s.calls pair.1 = some (.written pair.2)) ∧
    s.calls c = some (.texted event) ∧ ∀ c' event', s.calls c' = some (.texted event') → c' = c

/-- The state is that of the applied events, and the file begins with a text of them; behind it are
the lines of the appends that are going on. -/
structure Inv (s : MfaEventLog) (base : List Char) : Prop where
  state : s.state = MfaState.replay s.applied
  loaded : readLog json base = s.applied
  ended : s.order ≠ [] → Ended base
  nodup : (s.order.map Prod.fst).Nodup
  text : Whole json s base ∨ Unfinished json s base

variable {json} {s next : MfaEventLog} {base : List Char}

theorem calls_setCall (c other : ℕ) (call : AppendCall) :
    (s.setCall c call).calls other = if other = c then some call else s.calls other :=
  Function.update_apply ..

/-- An append of the order has written its text, or its line, and its event is not applied. -/
theorem Inv.written_or_texted (h : Inv json s base) {pair : ℕ × MfaEvent} (hpair : pair ∈ s.order) :
    s.calls pair.1 = some (.written pair.2) ∨ s.calls pair.1 = some (.texted pair.2) := by
  rcases h.text with ⟨-, hwritten, -⟩ | ⟨front, c, event, horder, -, hwritten, htexted, -⟩
  · exact Or.inl (hwritten pair hpair)
  · rw [horder] at hpair
    rcases List.mem_append.mp hpair with hpair | hpair
    · exact Or.inl (hwritten pair hpair)
    · rw [List.mem_singleton.mp hpair]
      exact Or.inr htexted

theorem Inv.pending (h : Inv json s base) {pair : ℕ × MfaEvent} (hpair : pair ∈ s.order) :
    (s.calls pair.1).bind AppendCall.pending = some pair.2 := by
  rcases h.written_or_texted hpair with hcall | hcall
  all_goals
    rw [hcall]
    rfl

/-- The state of an append outside the order may change, except to a text without its line feed. -/
theorem Inv.setCall (h : Inv json s base) {c : ℕ} {call : AppendCall}
    (hc : ∀ event, s.calls c ≠ some (.written event) ∧ s.calls c ≠ some (.texted event))
    (hcall : ∀ event, call ≠ .texted event) :
    Inv json (s.setCall c call) base := by
  have hkeep : ∀ pair ∈ s.order, (s.setCall c call).calls pair.1 = s.calls pair.1 := by
    intro pair hpair
    rw [calls_setCall, if_neg]
    rintro rfl
    rcases h.written_or_texted hpair with hcall | hcall
    · exact (hc pair.2).1 hcall
    · exact (hc pair.2).2 hcall
  have htexts : ∀ c' event', (s.setCall c call).calls c' = some (.texted event') →
      s.calls c' = some (.texted event') := by
    intro c' event' htext
    rw [calls_setCall] at htext
    split_ifs at htext
    · exact absurd (Option.some.inj htext) (hcall event')
    · exact htext
  refine ⟨h.state, h.loaded, h.ended, h.nodup, ?_⟩
  rcases h.text with ⟨hfile, hlines, hnone⟩ | ⟨front, d, event, horder, hfile, hlines, hd, honly⟩
  · refine Or.inl ⟨hfile, fun pair hpair ↦ ?_, fun c' event' htext ↦ ?_⟩
    · rw [hkeep pair hpair, hlines pair hpair]
    · exact hnone c' event' (htexts c' event' htext)
  · have hmem : ∀ pair ∈ front, pair ∈ s.order := fun pair hpair ↦ by
      rw [horder]
      exact List.mem_append_left _ hpair
    have hlast : (d, event) ∈ s.order := by
      rw [horder]
      exact List.mem_append_right _ List.mem_cons_self
    refine Or.inr
      ⟨front, d, event, horder, hfile, fun pair hpair ↦ ?_, ?_, fun c' event' htext ↦ ?_⟩
    · rw [hkeep pair (hmem pair hpair), hlines pair hpair]
    · exact (hkeep (d, event) hlast).trans hd
    · exact honly c' event' (htexts c' event' htext)

theorem render_ne_nil (event : MfaEvent) : (json.render event).toList ≠ [] := by
  obtain ⟨rest, hrest⟩ := json.object event
  rw [hrest]
  exact List.cons_ne_nil _ _

/-- A file that ends in a line feed has whole lines only. -/
theorem Inv.whole (h : Inv json s base) (hends : s.file = [] ∨ s.file.getLast? = some 10) :
    Whole json s base ∧ (s.order = [] → Ended base) := by
  rcases h.text with hwhole | ⟨front, c, event, -, hfile, -⟩
  · refine ⟨hwhole, fun horder ↦ ?_⟩
    have hbase : s.file = utf8 base := by
      rw [hwhole.1, horder]
      exact congrArg utf8 (List.append_nil base)
    rw [hbase] at hends
    exact hends.imp utf8_eq_nil_iff.mp getLast?_of_utf8
  · exfalso
    rw [hfile] at hends
    rcases hends with hnil | hlast
    · exact render_ne_nil event (List.append_eq_nil_iff.mp (utf8_eq_nil_iff.mp hnil)).2
    · have hchar := getLast?_of_utf8 hlast
      rw [List.getLast?_append_of_ne_nil _ (render_ne_nil event)] at hchar
      exact (json.oneLine event).1 (List.mem_of_getLast? hchar)

theorem Inv.begin (h : Inv json s base) {c : ℕ} {event : MfaEvent}
    (hstep : step json s (.begin c event) = some next) : Inv json next base := by
  unfold step at hstep
  simp only at hstep
  split_ifs at hstep with hbegin
  obtain rfl := Option.some.inj hstep
  refine h.setCall (fun event' ↦ ?_) fun event' ↦ AppendCall.noConfusion
  rw [hbegin.2]
  exact ⟨(Option.some_ne_none _).symm, (Option.some_ne_none _).symm⟩

theorem Inv.writeText (h : Inv json s base) {c : ℕ} {outcome : TextOutcome}
    (hundisturbed : Undisturbed s (.writeText c outcome))
    (hstep : step json s (.writeText c outcome) = some next) : Inv json next base := by
  unfold step at hstep
  simp only at hstep
  split at hstep
  on_goal 2 => exact absurd hstep.symm (Option.some_ne_none _)
  next event hcall =>
  have hc : ∀ event', s.calls c ≠ some (.written event') ∧ s.calls c ≠ some (.texted event') := by
    intro event'
    rw [hcall]
    exact ⟨by simp, by simp⟩
  cases outcome with
  | failed wrote =>
    obtain rfl := Option.some.inj hstep
    obtain rfl := hundisturbed.2 wrote rfl
    rw [List.take_zero, List.append_nil]
    exact h.setCall hc fun event' ↦ AppendCall.noConfusion
  | written =>
    obtain rfl := Option.some.inj hstep
    obtain ⟨⟨hfile, hlines, hnone⟩, hended⟩ := h.whole hundisturbed.1
    have hout : ∀ pair ∈ s.order, pair.1 ≠ c := by
      rintro pair hpair rfl
      exact (hc pair.2).1 (hlines pair hpair)
    refine ⟨h.state, h.loaded, fun _ ↦ ?_, ?_, Or.inr ⟨s.order, c, event, rfl, ?_, ?_, ?_, ?_⟩⟩
    · by_cases horder : s.order = []
      · exact hended horder
      · exact h.ended horder
    · show ((s.order ++ [(c, event)]).map Prod.fst).Nodup
      rw [List.map_append, List.nodup_append]
      refine ⟨h.nodup, List.pairwise_singleton _ c, fun d hd d' hd' ↦ ?_⟩
      obtain ⟨pair, hpair, rfl⟩ := List.mem_map.mp hd
      rw [List.mem_singleton.mp hd']
      exact hout pair hpair
    · show s.file ++ textBytes json event = _
      rw [hfile, textBytes, utf8_append _ (json.render event).toList]
    · intro pair hpair
      rw [calls_setCall, if_neg (hout pair hpair)]
      exact hlines pair hpair
    · rw [calls_setCall, if_pos rfl]
    · intro c' event' htext
      by_contra hne
      rw [calls_setCall, if_neg hne] at htext
      exact hnone c' event' htext

theorem Inv.writeNewline (h : Inv json s base) {c : ℕ} {ok : Bool}
    (hundisturbed : Undisturbed s (.writeNewline c ok))
    (hstep : step json s (.writeNewline c ok) = some next) : Inv json next base := by
  obtain rfl : ok = true := hundisturbed
  unfold step at hstep
  simp only [if_true] at hstep
  split at hstep
  on_goal 2 => exact absurd hstep.symm (Option.some_ne_none _)
  next event hcall =>
  obtain rfl := Option.some.inj hstep
  rcases h.text with ⟨-, -, hnone⟩ | ⟨front, d, event', horder, hfile, hlines, hd, honly⟩
  · exact absurd hcall (hnone c event)
  · obtain rfl := honly c event hcall
    obtain rfl : event = event' := by
      rw [hcall] at hd
      exact AppendCall.texted.inj (Option.some.inj hd)
    have hnodup := h.nodup
    rw [horder, List.map_append, List.nodup_append] at hnodup
    refine ⟨h.state, h.loaded, h.ended, h.nodup, Or.inl ⟨?_, fun pair hpair ↦ ?_, ?_⟩⟩
    · show s.file ++ [10] = utf8 (base ++ linesOf json (s.order.map Prod.snd))
      rw [hfile, horder, List.map_append, linesOf_append, ← utf8_lineFeed, ← utf8_append]
      show _ = utf8 (base ++ (linesOf json (front.map Prod.snd) ++ linesOf json [event]))
      rw [linesOf_singleton]
      simp only [List.append_assoc]
    · rw [calls_setCall]
      split_ifs with hpc
      · have hpair' : pair ∈ front ++ [(c, event)] := horder ▸ hpair
        rcases List.mem_append.mp hpair' with hfront | hlast
        · exact absurd hpc
            (hnodup.2.2 pair.1 (List.mem_map_of_mem hfront) c List.mem_cons_self)
        · rw [List.mem_singleton.mp hlast]
      · have hpair' : pair ∈ front ++ [(c, event)] := horder ▸ hpair
        rcases List.mem_append.mp hpair' with hfront | hlast
        · exact hlines pair hfront
        · rw [List.mem_singleton.mp hlast] at hpc
          exact absurd rfl hpc
    · intro c' event' htext
      rw [calls_setCall] at htext
      split_ifs at htext with hc'
      · exact absurd (Option.some.inj htext) AppendCall.noConfusion
      · exact hc' (honly c' event' htext)

/-- The event of the first line is applied. -/
theorem Inv.apply (h : Inv json s base) {c : ℕ} (hundisturbed : Undisturbed s (.apply c))
    (hstep : step json s (.apply c) = some next) : ∃ base, Inv json next base := by
  unfold step at hstep
  simp only at hstep
  split at hstep
  on_goal 2 => exact absurd hstep.symm (Option.some_ne_none _)
  next event hcall =>
  obtain rfl := Option.some.inj hstep
  obtain ⟨pair, hhead, rfl⟩ := Option.map_eq_some_iff.mp hundisturbed
  obtain ⟨rest, horder⟩ := List.head?_eq_some_iff.mp hhead
  obtain rfl : event = pair.2 := by
    rcases h.written_or_texted (horder ▸ List.mem_cons_self) with hpair | hpair
    · rw [hcall] at hpair
      exact AppendCall.written.inj (Option.some.inj hpair)
    · rw [hcall] at hpair
      exact absurd (Option.some.inj hpair) AppendCall.noConfusion
  have hended : Ended base := h.ended (horder ▸ List.cons_ne_nil _ _)
  have herase : s.order.erase (pair.1, pair.2) = rest := by
    rw [horder]
    exact List.erase_cons_head _ _
  have hnodup := h.nodup
  rw [horder, List.map_cons, List.nodup_cons] at hnodup
  have hout : ∀ other ∈ rest, other.1 ≠ pair.1 := fun other hother hsame ↦
    hnodup.1 (hsame ▸ List.mem_map_of_mem hother)
  refine ⟨base ++ linesOf json [pair.2], ?_, ?_, fun _ ↦ ?_, ?_, ?_⟩
  · show s.state.apply pair.2 = MfaState.replay (s.applied ++ [pair.2])
    rw [MfaState.replay_append, h.state]
    rfl
  · show readLog json (base ++ linesOf json [pair.2]) = s.applied ++ [pair.2]
    rw [readLog_append hended, h.loaded, readLog_linesOf]
  · exact hended.append (ended_linesOf _)
  · show ((s.order.erase (pair.1, pair.2)).map Prod.fst).Nodup
    rw [herase]
    exact hnodup.2
  rcases h.text with ⟨hfile, hlines, hnone⟩ | ⟨front, d, event, hfront, hfile, hlines, hd, honly⟩
  · refine Or.inl ⟨?_, fun other hother ↦ ?_, fun c' event' htext ↦ ?_⟩
    · show s.file = utf8 (base ++ linesOf json [pair.2] ++
        linesOf json ((s.order.erase (pair.1, pair.2)).map Prod.snd))
      rw [herase, hfile, horder, List.append_assoc, ← linesOf_append]
      rfl
    · have hmem : other ∈ rest := herase ▸ hother
      rw [calls_setCall, if_neg (hout other hmem)]
      exact hlines other (horder ▸ List.mem_cons_of_mem pair hmem)
    · rw [calls_setCall] at htext
      split_ifs at htext
      · exact absurd (Option.some.inj htext) AppendCall.noConfusion
      · exact hnone c' event' htext
  · -- the line that is not ended is not the first one
    have hfirst : ∃ front', front = pair :: front' ∧ rest = front' ++ [(d, event)] := by
      rw [horder] at hfront
      cases front with
      | nil =>
        obtain ⟨rfl, -⟩ := List.cons.inj hfront
        rw [hcall] at hd
        exact absurd (Option.some.inj hd) AppendCall.noConfusion
      | cons first front' =>
        obtain ⟨rfl, hrest⟩ := List.cons.inj hfront
        exact ⟨front', rfl, hrest⟩
    obtain ⟨front', rfl, hrest⟩ := hfirst
    have hdc : d ≠ pair.1 := hout (d, event) (hrest ▸ List.mem_append_right _ List.mem_cons_self)
    refine Or.inr ⟨front', d, event, herase.trans hrest, ?_, fun other hother ↦ ?_, ?_, ?_⟩
    · show s.file = _
      rw [hfile, List.append_assoc base (linesOf json [pair.2]), ← linesOf_append]
      rfl
    · have hmem : other ∈ rest := hrest ▸ List.mem_append_left _ hother
      rw [calls_setCall, if_neg (hout other hmem)]
      exact hlines other (List.mem_cons_of_mem pair hother)
    · rw [calls_setCall, if_neg hdc]
      exact hd
    · intro c' event' htext
      rw [calls_setCall] at htext
      split_ifs at htext
      · exact absurd (Option.some.inj htext) AppendCall.noConfusion
      · exact honly c' event' htext

theorem Inv.finish (h : Inv json s base) {c : ℕ}
    (hstep : step json s (.finish c) = some next) : Inv json next base := by
  unfold step at hstep
  simp only at hstep
  split at hstep
  on_goal 2 => exact absurd hstep.symm (Option.some_ne_none _)
  next event hcall =>
  obtain rfl := Option.some.inj hstep
  have hcount : Inv json { s with eventCount := s.eventCount + 1 } base :=
    ⟨h.state, h.loaded, h.ended, h.nodup, h.text⟩
  refine hcount.setCall (fun event' ↦ ?_) fun event' ↦ AppendCall.noConfusion
  rw [hcall]
  exact ⟨by simp, by simp⟩

/-- A log that is opened over a text. -/
theorem inv_reopen (text : List Char) : Inv json (reopen json (utf8 text)) text := by
  have happlied : (reopen json (utf8 text)).applied = readLog json text := by
    show (loadEvents json (utf8 text)).getD [] = _
    rw [loadEvents_utf8]
    rfl
  refine ⟨rfl, happlied.symm, fun hne ↦ absurd rfl hne, List.nodup_nil, Or.inl ⟨?_, ?_, ?_⟩⟩
  · exact congrArg utf8 (List.append_nil text).symm
  · exact fun pair hpair ↦ absurd hpair List.not_mem_nil
  · exact fun c event ↦ (Option.some_ne_none _).symm

/-- The last line of a file whose appends are going on: what is there of it begins the line of its
event. -/
theorem Inv.lastLine (h : Inv json s base) (hne : s.order ≠ []) :
    ∃ front c event line, s.order = front ++ [(c, event)] ∧ line ≠ [] ∧
      line <+: (json.render event).toList ++ ['\n'] ∧
      s.file = utf8 (base ++ linesOf json (front.map Prod.snd) ++ line) := by
  rcases h.text with ⟨hfile, -, -⟩ | ⟨front, c, event, horder, hfile, -⟩
  · obtain ⟨front, ⟨c, event⟩, horder⟩ := List.eq_nil_or_concat s.order |>.resolve_left hne
    rw [List.concat_eq_append] at horder
    refine ⟨front, c, event, _, horder, ?_, List.prefix_rfl, ?_⟩
    · exact List.append_ne_nil_of_right_ne_nil _ (List.cons_ne_nil _ _)
    · rw [hfile, horder, List.map_append, linesOf_append]
      show utf8 (base ++ (linesOf json (front.map Prod.snd) ++ linesOf json [event])) = _
      rw [linesOf_singleton, List.append_assoc base]
  · exact ⟨front, c, event, _, horder, render_ne_nil event, List.prefix_append _ _, hfile⟩

/-- What is read of a line that may stop before its end. -/
theorem readLog_prefix {event : MfaEvent} {torn : List Char}
    (h : torn <+: (json.render event).toList ++ ['\n']) :
    readLog json torn = [] ∨ readLog json torn = [event] := by
  rcases List.prefix_concat_iff.mp h with rfl | hbegins
  · exact Or.inr (readLog_line event)
  · by_cases hwhole : torn = (json.render event).toList
    · rw [hwhole]
      exact Or.inr (readLog_text event)
    · exact Or.inl (readLog_torn hbegins hwhole)

/-- A reopening reads the applied events, and those of the first lines behind them. -/
theorem Inv.loadEvents_take (h : Inv json s base) {keep : ℕ}
    (hundisturbed : Undisturbed s (.crash keep)) (htears : TearsLastLine s.file keep) :
    ∃ text going, s.file.take keep = utf8 text ∧ going <+: s.order ∧
      readLog json text = s.applied ++ going.map Prod.snd := by
  by_cases horder : s.order = []
  · obtain rfl := hundisturbed.resolve_right fun hboth ↦ hboth.1 horder
    rcases h.text with ⟨hfile, -, -⟩ | ⟨front, c, event, hfront, -⟩
    · refine ⟨base, [], ?_, List.nil_prefix, ?_⟩
      · rw [List.take_length, hfile, horder]
        exact congrArg utf8 (List.append_nil base)
      · rw [h.loaded]
        exact (List.append_nil _).symm
    · exact absurd (hfront.symm.trans horder)
        (List.append_ne_nil_of_right_ne_nil _ (List.cons_ne_nil _ _))
  · obtain ⟨front, c, event, line, hfront, hline, hbegins, hfile⟩ := h.lastLine horder
    have hended : Ended (base ++ linesOf json (front.map Prod.snd)) :=
      (h.ended horder).append (ended_linesOf _)
    obtain ⟨text, htext⟩ : ∃ text, s.file.take keep = utf8 text := by
      rcases hundisturbed with rfl | ⟨-, hdecodes⟩
      · exact ⟨_, (List.take_length ..).trans hfile⟩
      · obtain ⟨text, htext⟩ := Option.isSome_iff_exists.mp hdecodes
        exact ⟨text, decodeUtf8_eq_some_iff.mp htext⟩
    rw [hfile] at htears htext
    obtain ⟨torn, rfl, htorn⟩ := cut_spec hended hline htears htext
    have hread : readLog json (base ++ linesOf json (front.map Prod.snd) ++ torn) =
        s.applied ++ front.map Prod.snd ++ readLog json torn := by
      rw [readLog_append hended, readLog_append (h.ended horder), readLog_linesOf, h.loaded]
    rcases readLog_prefix (htorn.trans hbegins) with hnone | hone
    · refine ⟨_, front, hfile ▸ htext, ⟨_, hfront.symm⟩, ?_⟩
      rw [hread, hnone, List.append_nil]
    · refine ⟨_, s.order, hfile ▸ htext, List.prefix_rfl, ?_⟩
      rw [hread, hone, hfront, List.map_append, List.append_assoc]
      rfl

/-- Every step keeps the file in order. -/
theorem Inv.step {action : LogAction} (h : Inv json s base) (hundisturbed : Undisturbed s action)
    (hstep : MfaEventLog.step json s action = some next) : ∃ base, Inv json next base := by
  cases action with
  | begin c event => exact ⟨base, h.begin hstep⟩
  | writeText c outcome => exact ⟨base, h.writeText hundisturbed hstep⟩
  | writeNewline c ok => exact ⟨base, h.writeNewline hundisturbed hstep⟩
  | apply c => exact h.apply hundisturbed hstep
  | finish c => exact ⟨base, h.finish hstep⟩
  | crash keep =>
    unfold MfaEventLog.step at hstep
    simp only at hstep
    split_ifs at hstep with htears
    obtain rfl := Option.some.inj hstep
    obtain ⟨text, -, htext, -⟩ := h.loadEvents_take hundisturbed htears
    rw [htext]
    exact ⟨text, inv_reopen text⟩

theorem Inv.recovers {action : LogAction} (h : Inv json s base)
    (hundisturbed : Undisturbed s action)
    (hstep : MfaEventLog.step json s action = some next) : Recovers json s action := by
  cases action with
  | crash keep =>
    unfold MfaEventLog.step at hstep
    simp only at hstep
    split_ifs at hstep with htears
    obtain ⟨text, going, htext, hgoing, hread⟩ := h.loadEvents_take hundisturbed htears
    have hload : loadEvents json (s.file.take keep) = some (s.applied ++ going.map Prod.snd) := by
      rw [htext, loadEvents_utf8, hread]
    refine ⟨going, ?_, fun pair hpair ↦ h.pending (hgoing.subset hpair), hload, ?_⟩
    · exact (hgoing.map Prod.fst).sublist.nodup h.nodup
    · show MfaState.replay ((loadEvents json (s.file.take keep)).getD []) = _
      rw [hload, Option.getD_some, MfaState.replay_append, ← h.state]
  | _ => trivial

/-- In an undisturbed run of a log that was opened over a text, every reopening has the events that
were applied. -/
theorem recovers_of_undisturbed (text : List Char) {actions : List LogAction}
    (h : EachStep (step json) Undisturbed (reopen json (utf8 text)) actions) :
    EachStep (step json) (Recovers json) (reopen json (utf8 text)) actions := by
  refine EachStep.imp (fun s action next ↦ ?_) (fun s action next ↦ ?_)
    (I := fun s ↦ ∃ base, Inv json s base) ⟨text, inv_reopen text⟩ h
  · rintro ⟨base, hinv⟩ hundisturbed hstep
    exact hinv.step hundisturbed hstep
  · rintro ⟨base, hinv⟩ hundisturbed hstep
    exact hinv.recovers hundisturbed hstep

theorem tearsLastLine_length (file : List UInt8) : TearsLastLine file file.length := by
  refine ⟨le_rfl, ?_⟩
  rw [List.drop_length]
  exact List.not_mem_nil

theorem step_crash {keep : ℕ} (h : TearsLastLine s.file keep) :
    step json s (.crash keep) = some (reopen json (s.file.take keep)) := if_pos h

theorem reopen_utf8 (text : List Char) :
    reopen json (utf8 text) =
      { file := utf8 text
        state := MfaState.replay (readLog json text)
        opened := true
        eventCount := (readLog json text).length
        calls := fun _ ↦ none
        applied := readLog json text
        order := [] } := by
  unfold reopen
  rw [loadEvents_utf8]
  rfl

/-! ### Overlapping appends, and a torn line -/

section Lost

def sampleEnabled : MfaEvent := .mfaEnabled "alice" "2026-01-01T00:00:00Z"

def sampleDisabled : MfaEvent := .mfaDisabled "alice" (some "user_request") "2026-01-01T00:00:00Z"

/-- Two appends whose lines are written one after the other and whose events are applied in an
order, and a crash that cuts off nothing. -/
def overlapping (first second : ℕ) : List LogAction :=
  [.begin 0 sampleEnabled, .begin 1 sampleDisabled, .writeText 0 .written, .writeNewline 0 true,
    .writeText 1 .written, .writeNewline 1 true, .apply first, .apply second, .finish 0, .finish 1]

/-- The bytes of the two lines. -/
def overlappingFile : List UInt8 :=
  utf8 (linesOf .ofFormat [sampleEnabled, sampleDisabled])

theorem overlappingFile_eq :
    textBytes .ofFormat sampleEnabled ++ [10] ++ textBytes .ofFormat sampleDisabled ++ [10] =
      overlappingFile := by
  simp only [overlappingFile, linesOf, List.flatMap_cons, List.flatMap_nil, textBytes, utf8_append,
    utf8_lineFeed, List.append_nil, List.append_assoc]

/-- Appends that overlap and are applied in the order of their lines. -/
theorem undisturbed_overlapping (json : MfaEventJson) (s : MfaEventLog) (hopened : s.opened = true)
    (hcalls : ∀ c, s.calls c = none) (hfile : s.file = []) (horder : s.order = []) {keep : ℕ}
    (hkeep : keep =
      (textBytes json sampleEnabled ++ [10] ++ textBytes json sampleDisabled ++ [10]).length) :
    EachStep (step json) Undisturbed s (overlapping 0 1 ++ [.crash keep]) := by
  obtain ⟨file, state, opened, eventCount, calls, applied, order⟩ := s
  obtain rfl : calls = fun _ ↦ none := funext hcalls
  obtain rfl : file = [] := hfile
  obtain rfl : order = [] := horder
  obtain rfl : opened = true := hopened
  have hwritten : ∀ wrote, TextOutcome.written = .failed wrote → wrote = 0 :=
    fun _ ↦ TextOutcome.noConfusion
  refine EachStep.cons rfl trivial (EachStep.cons rfl trivial ?_)
  refine EachStep.cons rfl ⟨Or.inl rfl, hwritten⟩ (EachStep.cons rfl rfl ?_)
  refine EachStep.cons rfl ⟨Or.inr List.getLast?_concat, hwritten⟩ (EachStep.cons rfl rfl ?_)
  refine EachStep.cons rfl rfl (EachStep.cons rfl rfl ?_)
  refine EachStep.cons rfl trivial (EachStep.cons rfl trivial ?_)
  exact fun next _ ↦ ⟨Or.inl hkeep, trivial⟩

/-- They leave a log that has both events when it is opened again. -/
theorem recovers_of_undisturbed_overlapping :
    EachStep (step .ofFormat) (Recovers .ofFormat) (reopen .ofFormat (utf8 []))
      (overlapping 0 1 ++ [.crash overlappingFile.length]) := by
  have hopened : (reopen .ofFormat (utf8 [])).opened = true := by rw [reopen_utf8]
  have hkeep := congrArg List.length overlappingFile_eq.symm
  exact recovers_of_undisturbed []
    (undisturbed_overlapping .ofFormat _ hopened (fun _ ↦ rfl) rfl rfl hkeep)

/-- A line that is no event. -/
theorem readLog_unreadable {line : List Char} (hfeed : '\n' ∉ line) (hreturn : '\r' ∉ line)
    (h : json.parse (String.ofList line) = none) : readLog json (line ++ ['\n']) = [] := by
  unfold readLog
  rw [lines_line hfeed hreturn]
  refine List.filterMap_eq_nil_iff.mpr fun other hmem ↦ ?_
  rw [List.mem_singleton.mp (List.mem_of_mem_filter hmem)]
  exact h

/-- The text of an event behind the first character of another one. -/
theorem parse_glued (event : MfaEvent) : MfaEventJson.ofFormat.parse
    (String.ofList ('{' :: (MfaEventJson.ofFormat.render event).toList)) = none := by
  rw [MfaEventJson.parse_ofFormat, Format.fromText, String.toList_ofList, Option.bind_eq_none_iff]
  rintro ⟨other, rest⟩ hread
  obtain ⟨eventType, behind, hfirst⟩ := Format.exists_read_of_read_depends hread
  have hbegins := Format.prefix_of_read_behind hfirst
  obtain ⟨text, htext⟩ := MfaEventJson.ofFormat.object event
  rw [htext] at hbegins
  have hquote : '"' = '{' := (List.cons_prefix_cons.mp (List.cons_prefix_cons.mp hbegins).2).1
  exact absurd hquote (by decide)

/-- The first append has written one character of its line when it crashes; the second one is
behind that. -/
def glued : List LogAction :=
  [.begin 0 sampleEnabled, .writeText 0 .written, .crash 1, .begin 0 sampleDisabled,
    .writeText 0 .written, .writeNewline 0 true, .apply 0, .finish 0]

/-- The bytes of the line that is no event. -/
def gluedFile : List UInt8 :=
  utf8 ('{' :: (MfaEventJson.ofFormat.render sampleDisabled).toList ++ ['\n'])

theorem lineFeed_notMem_textBytes (event : MfaEvent) : 10 ∉ textBytes json event := by
  intro hmem
  obtain ⟨c, hc, hbyte⟩ := List.mem_flatMap.mp hmem
  have hfeed : c.toNat = 10 := toNat_of_mem_utf8EncodeChar (by decide) hbyte
  obtain rfl : c = '\n' := Char.toNat_inj.mp hfeed
  exact (json.oneLine event).1 hc

theorem readLog_glued : readLog .ofFormat
    ('{' :: (MfaEventJson.ofFormat.render sampleDisabled).toList ++ ['\n']) = [] := by
  have hline := MfaEventJson.ofFormat.oneLine sampleDisabled
  refine readLog_unreadable (fun hmem ↦ ?_) (fun hmem ↦ ?_) (parse_glued sampleDisabled)
  · exact hline.1 ((List.mem_cons.mp hmem).resolve_left (by decide))
  · exact hline.2 ((List.mem_cons.mp hmem).resolve_left (by decide))

theorem step_begin (hopened : s.opened = true) {c : ℕ} (hc : s.calls c = none) (event : MfaEvent) :
    step json s (.begin c event) = some (s.setCall c (.begun event)) := if_pos ⟨hopened, hc⟩

theorem step_writeText {c : ℕ} {event : MfaEvent} (hc : s.calls c = some (.begun event)) :
    step json s (.writeText c .written) = some ({ s with
      file := s.file ++ textBytes json event
      order := s.order ++ [(c, event)] }.setCall c (.texted event)) := by
  simp only [step, hc]

/-- An append that is alone in a log that was opened. -/
theorem exec_whole (hopened : s.opened = true) {c : ℕ} (hc : s.calls c = none)
    (event : MfaEvent) : ∃ t, exec (step json) s
      [.begin c event, .writeText c .written, .writeNewline c true, .apply c, .finish c] = some t ∧
      t.file = s.file ++ textBytes json event ++ [10] ∧ t.applied = s.applied ++ [event] := by
  rw [exec_cons, step_begin hopened hc, Option.bind_some, exec_cons,
    step_writeText ((calls_setCall c c (.begun event)).trans (if_pos rfl)), Option.bind_some]
  simp only [exec_cons, step, calls_setCall, if_true, Option.bind_some, exec_nil]
  exact ⟨_, rfl, rfl, rfl⟩

/-- Two appends whose events are applied in the other order than their lines. -/
theorem exec_overlapping (json : MfaEventJson) (hopened : s.opened = true)
    (hcalls : ∀ c, s.calls c = none) :
    ∃ t, exec (step json) s (overlapping 1 0) = some t ∧
      t.file = s.file ++ textBytes json sampleEnabled ++ [10] ++
        textBytes json sampleDisabled ++ [10] ∧
      t.applied = s.applied ++ [sampleDisabled] ++ [sampleEnabled] := by
  unfold overlapping
  rw [exec_cons, step_begin hopened (hcalls 0), Option.bind_some, exec_cons,
    step_begin (s := s.setCall 0 _) hopened ((calls_setCall 0 1 _).trans (hcalls 1)),
    Option.bind_some]
  simp only [exec_cons, step, calls_setCall, if_true, Option.bind_some, exec_nil,
    Nat.one_ne_zero, Nat.zero_ne_one, if_false]
  exact ⟨_, rfl, rfl, rfl⟩

theorem gluedFile_eq : gluedFile = utf8 ['{'] ++ textBytes .ofFormat sampleDisabled ++ [10] := by
  rw [gluedFile, textBytes, ← utf8_lineFeed, ← utf8_append, ← utf8_append]
  exact congrArg utf8 rfl

/-- The file behind the crash in the first append, and behind the second append. -/
theorem exec_glued (json : MfaEventJson) {text : List Char}
    (htext : (json.render sampleEnabled).toList = '{' :: '"' :: text) :
    ∃ t, exec (step json) (reopen json (utf8 [])) glued = some t ∧
      t.file = utf8 ['{'] ++ textBytes json sampleDisabled ++ [10] ∧
      t.applied = [sampleDisabled] := by
  have hbytes : textBytes json sampleEnabled = utf8 ['{'] ++ utf8 ('"' :: text) := by
    rw [textBytes, htext, ← utf8_append]
    rfl
  have htears : TearsLastLine (textBytes json sampleEnabled) 1 := by
    constructor
    · rw [hbytes]
      exact Nat.le_add_left 1 _
    · intro hmem
      have htext : 10 ∉ textBytes json sampleEnabled := lineFeed_notMem_textBytes sampleEnabled
      exact htext (List.mem_of_mem_drop (List.dropLast_subset _ hmem))
  have htorn : readLog json ['{'] = [] := by
    have hbegins : ['{'] <+: (json.render sampleEnabled).toList := by
      rw [htext]
      exact List.cons_prefix_cons.mpr ⟨rfl, List.nil_prefix⟩
    refine readLog_torn hbegins ?_
    rw [htext]
    simp
  have hcrash : exec (step json) (reopen json (utf8 []))
      [.begin 0 sampleEnabled, .writeText 0 .written, .crash 1] =
        some (reopen json (utf8 ['{'])) := by
    have hbegun : ((reopen json (utf8 [])).setCall 0 (.begun sampleEnabled)).calls 0 =
        some (.begun sampleEnabled) := (calls_setCall 0 0 _).trans (if_pos rfl)
    rw [exec_cons, step_begin (by rw [reopen_utf8]) rfl, Option.bind_some, exec_cons,
      step_writeText hbegun, Option.bind_some, exec_cons, step_crash htears, Option.bind_some,
      exec_nil]
    have htake : (textBytes json sampleEnabled).take 1 = utf8 ['{'] := by
      rw [hbytes]
      rfl
    exact congrArg (fun file ↦ some (reopen json file)) htake
  have hopened : (reopen json (utf8 ['{'])).opened = true := by rw [reopen_utf8]
  have hc : (reopen json (utf8 ['{'])).calls 0 = none := rfl
  obtain ⟨t, ht, hfile, happlied⟩ := exec_whole hopened hc sampleDisabled
  refine ⟨t, ?_, hfile, ?_⟩
  · have happend : glued = [.begin 0 sampleEnabled, .writeText 0 .written, .crash 1] ++
        [.begin 0 sampleDisabled, .writeText 0 .written, .writeNewline 0 true, .apply 0,
          .finish 0] := rfl
    rw [happend, exec_append, hcrash, Option.bind_some, ht]
  · rw [happlied, reopen_utf8, htorn]
    rfl

/-- The event of the second append is in no state behind the next crash. -/
theorem appended_after_torn_lost : ¬ ∀ (text : List Char) (actions : List LogAction),
    EachStep (step .ofFormat) (Recovers .ofFormat) (reopen .ofFormat (utf8 text)) actions := by
  intro h
  obtain ⟨text, htext⟩ := eventFormat_object sampleEnabled
  rw [← MfaEventJson.toList_render_ofFormat] at htext
  obtain ⟨t, ht, hfile, happlied⟩ := exec_glued .ofFormat htext
  rw [← gluedFile_eq] at hfile
  have hlast := (eachStep_append.mp (h [] (glued ++ [.crash gluedFile.length]))).2 t ht
  rw [← hfile] at hlast
  obtain ⟨going, -, -, hload, -⟩ := (hlast _ (step_crash (tearsLastLine_length t.file))).1
  rw [List.take_length, hfile, gluedFile, loadEvents_utf8, readLog_glued, happlied] at hload
  exact absurd (Option.some.inj hload) (by simp)

/-- Of two appends that are applied in the other order than their lines, the log that is opened
again has the state of the order of the lines. -/
theorem applied_out_of_order : ¬ ∀ actions : List LogAction,
    EachStep (step .ofFormat) (Recovers .ofFormat) (reopen .ofFormat (utf8 [])) actions := by
  intro h
  obtain ⟨t, ht, hfile, happlied⟩ : ∃ t,
      exec (step .ofFormat) (reopen .ofFormat (utf8 [])) (overlapping 1 0) = some t ∧
        t.file = overlappingFile ∧ t.applied = [sampleDisabled, sampleEnabled] := by
    rw [reopen_utf8]
    obtain ⟨t, ht, hfile, happlied⟩ := exec_overlapping .ofFormat
      (s := ⟨[], MfaState.replay [], true, 0, fun _ ↦ none, [], []⟩) rfl fun _ ↦ rfl
    exact ⟨t, ht, hfile.trans overlappingFile_eq, happlied⟩
  have hlast := (eachStep_append.mp (h (overlapping 1 0 ++ [.crash overlappingFile.length]))).2 t ht
  rw [← hfile] at hlast
  obtain ⟨going, -, -, hload, -⟩ := (hlast _ (step_crash (tearsLastLine_length t.file))).1
  rw [List.take_length, hfile, overlappingFile, loadEvents_utf8, readLog_linesOf, happlied] at hload
  have hsame := (List.cons.inj (Option.some.inj hload)).1
  exact absurd hsame (by decide)

end Lost

end MfaEventLog

end Lithair.Mfa
