import Lithair.App.ModelRequest
import Lithair.App.Resync
import Lithair.Lib.Recency

/-!
# Concurrent updates

Updates through the consensus log, for any number of handlers at once. Before it appends anything, a
handler of `handle_model_request` reads the item from the storage, merges the body of its request
into it, and puts the whole item into the log; what is in the log and not applied yet it does not
see. `UpdateSystem` is the leader's write path with its storages and with the handlers that have
read and not appended yet.

`noLostUpdate_of_readsEarlier`: in every run in which each update is appended after a reading that
has the fields of the updates in front of it, no update is lost.
-/

namespace Lithair.App

open Lithair.Cluster Lithair.Engine Lithair.Http Lithair.Lib Lithair.Lib.OrderedList
open Lithair.Lib.Run

variable {models : List ModelRegistration}

/-! ### Updates -/

/-- A request to update an item. Its body is an object, which names each field once. -/
structure UpdateRequest (models : List ModelRegistration) where
  model : Fin models.length
  id : String
  fields : List (String × Json)
  env : RequestEnvironment
  resolved : resolve models (models.get model).basePath = some model
  nodup : (fields.map Prod.fst).Nodup

/-- A handler that has read the item, which may not have been there. -/
structure Reading (models : List ModelRegistration) where
  request : UpdateRequest models
  existing : Option Json

/-- The data that the handler appends, unless merging panics. -/
def Reading.data (reading : Reading models) : Option Json :=
  updateData reading.request.env reading.existing (.object reading.request.fields)

def Reading.operation (reading : Reading models) (data : Json) : CrudOperation :=
  .update (models.get reading.request.model).basePath reading.request.id data

/-- The leader, the states of its models, the handlers that have read an item, all entries that were
given an index, the updates among them by index, and the indices that were answered with
success. -/
structure UpdateSystem (models : List ModelRegistration) where
  leader : Leader CrudOperation
  states : ModelStates models
  readings : List (Reading models)
  given : List (LogEntry CrudOperation)
  updates : List (ℕ × Reading models)
  answered : List ℕ

/-- What happens: a handler reads an item; the handler at a place among those goes on and appends
its data, or is dropped; and anything else on the leader, with writes of every kind. -/
inductive UpdateAction (models : List ModelRegistration)
  | read (request : UpdateRequest models)
  | append (k timestampMs : ℕ)
  | forget (k : ℕ)
  | write (action : LeaderAction CrudOperation) (env : Environment)

namespace UpdateSystem

variable (peers : ℕ) (sha256 : List UInt8 → String)

def start (term : ℕ) (initial : ModelStates models) : UpdateSystem models where
  leader := .start term
  states := initial
  readings := []
  given := []
  updates := []
  answered := []

/-- The item as a handler finds it. -/
def read (s : UpdateSystem models) (request : UpdateRequest models) : Reading models where
  request := request
  existing := ModelHandler.getItemJson (models.get request.model).model (s.states request.model)
    request.env.order request.id

/-- An operation is given the next index. -/
def accept (s : UpdateSystem models) (operation : CrudOperation) (timestampMs : ℕ) :
    UpdateSystem models :=
  let (log, entry) := s.leader.log.allocate operation timestampMs
  { s with
    leader := { s.leader with log }.setStage entry.index entry .allocated
    given := s.given ++ [entry] }

def step (s : UpdateSystem models) : UpdateAction models → Option (UpdateSystem models)
  | .read request => some { s with readings := s.readings ++ [s.read request] }
  | .append k timestampMs =>
    match s.readings[k]? with
    | none => none
    | some reading =>
      let rest := { s with readings := s.readings.eraseIdx k }
      match reading.data with
      | none => some rest
      | some data =>
        some { rest.accept (reading.operation data) timestampMs with
          updates := s.updates ++ [(s.leader.log.nextIndex, reading)] }
  | .forget k => some { s with readings := s.readings.eraseIdx k }
  | .write (.accept operation timestampMs) _ => some (s.accept operation timestampMs)
  | .write (.applyOperation i ok) env =>
    match Leader.step peers s.leader (.applyOperation i ok), s.leader.handlers i with
    | some leader, some handler =>
      (ResyncSystem.applyEntry sha256 s.states handler.entry ok env).map fun states ↦
        { s with leader, states }
    | _, _ => none
  | .write (.markApplied i) _ =>
    (Leader.step peers s.leader (.markApplied i)).map fun leader ↦
      { s with leader, answered := s.answered ++ [i] }
  | .write action _ => (Leader.step peers s.leader action).map fun leader ↦ { s with leader }

/-! ### What is meant to hold -/

/-- The operation does not write the item of the model. -/
def LeavesAlone (i : Fin models.length) (id : String) (operation : CrudOperation) : Prop :=
  targetModel models operation = some i → ∀ storage,
    (storageEffect (models.get i).model storage operation).lookup id = storage.lookup id

/-- The item is what the model makes of a value with the given fields. -/
def Carries {T : Type} (M : HttpExposable T) (item : T) (fields : List (String × Json)) : Prop :=
  ∃ value, M.fromValue value = .ok item ∧
    ∀ key v, (key, v) ∈ fields → value.get key = some v

/-- Two updates of one item that set no field in common. -/
structure Disjoint (first second : UpdateRequest models) : Prop where
  model : second.model = first.model
  id : second.id = first.id
  fields : ∀ key ∈ first.fields.map Prod.fst, key ∉ second.fields.map Prod.fst

/-- The entry takes nothing from an update of an item: it does not write the item, or it is itself
an update of it, of other fields. -/
def Spares (updates : List (ℕ × Reading models)) (first : Reading models)
    (e : LogEntry CrudOperation) : Prop :=
  LeavesAlone first.request.model first.request.id e.operation ∨
    ∃ third, (e.index, third) ∈ updates ∧ Disjoint first.request third.request

/-- Of two successful updates of an item with disjoint fields, the item has the fields of both,
provided that it was there before the first of them, and that whatever else is applied behind them
takes nothing from them. -/
def NoLostUpdate (initial : ModelStates models) (s : UpdateSystem models) : Prop :=
  ∀ p first q second, (p, first) ∈ s.updates → (q, second) ∈ s.updates → p < q →
    p ∈ s.answered → q ∈ s.answered → Disjoint first.request second.request →
    (∀ e ∈ s.leader.applied, p < e.index → Spares s.updates first e) →
    (∀ e ∈ s.leader.applied, q < e.index → Spares s.updates second e) →
    first.request.id ∈ effects first.request.model
        (s.leader.applied.filter fun e ↦ e.index < p) (initial first.request.model).storage →
      ∃ item, (s.states first.request.model).storage.lookup first.request.id = some item ∧
        Carries (models.get first.request.model).model item
          (first.request.fields ++ second.request.fields)

/-! ### The condition -/

/-- The item was read with these fields; when it was not there, there are none. -/
def HasFields (existing : Option Json) (fields : List (String × Json)) : Prop :=
  match existing with
  | none => fields = []
  | some value =>
    ∃ own, value.asObject = some own ∧ ∀ key v, (key, v) ∈ fields → own.lookup key = some v

/-- The reading has the fields of an update that was given the index `p`, unless the update is of
another item or shares a field, or an operation behind it took fields from it. -/
def Sees (given : List (LogEntry CrudOperation)) (updates : List (ℕ × Reading models))
    (reading : Reading models) (p : ℕ) (first : Reading models) : Prop :=
  Disjoint first.request reading.request →
    (∀ e ∈ given, p < e.index → Spares updates first e) →
    HasFields reading.existing first.request.fields

/-- An update is appended only after a reading that has the fields of the updates in front of it,
and it does not set the time of the update, which the leader sets. -/
def ReadsEarlier (s : UpdateSystem models) : UpdateAction models → Prop
  | .append k _ =>
    ∀ reading, s.readings[k]? = some reading →
      "updated_at" ∉ reading.request.fields.map Prod.fst ∧
        ∀ update ∈ s.updates, Sees s.given s.updates reading update.1 update.2
  | _ => True

/-! ### The fields of what is appended -/

theorem lookup_overlay_of_notMem {delta : List (String × Json)} {key : String}
    (h : key ∉ delta.map Prod.fst) (own : List (String × Json)) :
    (overlay own delta).lookup key = own.lookup key := by
  induction delta generalizing own with
  | nil => rfl
  | cons field rest ih =>
    rw [List.map_cons, List.mem_cons, not_or] at h
    change (overlay (Json.insertField field.1 field.2 own) rest).lookup key = _
    rw [ih h.2, Json.lookup_insertField, if_neg h.1]

theorem lookup_overlay_of_mem {delta : List (String × Json)}
    (hnodup : (delta.map Prod.fst).Nodup) {key : String} {v : Json} (h : (key, v) ∈ delta)
    (own : List (String × Json)) : (overlay own delta).lookup key = some v := by
  induction delta generalizing own with
  | nil => exact absurd h List.not_mem_nil
  | cons field rest ih =>
    rw [List.map_cons, List.nodup_cons] at hnodup
    change (overlay (Json.insertField field.1 field.2 own) rest).lookup key = _
    rcases List.mem_cons.mp h with heq | hrest
    · subst heq
      rw [lookup_overlay_of_notMem hnodup.1, Json.lookup_insertField, if_pos rfl]
    · exact ih hnodup.2 hrest _

/-- What is appended has the fields of the request, and those that were read. -/
theorem get_data {reading : Reading models} {data : Json} (hdata : reading.data = some data)
    {first : List (String × Json)} (hread : HasFields reading.existing first)
    (hfirst : "updated_at" ∉ first.map Prod.fst)
    (htime : "updated_at" ∉ reading.request.fields.map Prod.fst)
    (hdisjoint : ∀ key ∈ first.map Prod.fst, key ∉ reading.request.fields.map Prod.fst)
    {key : String} {v : Json} (h : (key, v) ∈ first ++ reading.request.fields) :
    data.get key = some v := by
  have hkey : key ≠ "updated_at" := by
    rintro rfl
    rcases List.mem_append.mp h with hmem | hmem
    · exact hfirst (List.mem_map.mpr ⟨_, hmem, rfl⟩)
    · exact htime (List.mem_map.mpr ⟨_, hmem, rfl⟩)
  rw [Reading.data, updateData_eq] at hdata
  split_ifs at hdata
  obtain rfl := Option.some.inj hdata
  show (Json.insertField _ _ (fieldsOf (mergedBody reading.existing _))).lookup key = some v
  rw [Json.lookup_insertField, if_neg hkey]
  cases hexisting : reading.existing with
  | none =>
    rw [hexisting] at hread
    have hnone : first = [] := hread
    rw [hnone, List.nil_append] at h
    exact (Recency.lookup_eq_some_iff_mem reading.request.nodup).mpr h
  | some value =>
    rw [hexisting] at hread
    obtain ⟨own, hown, hfields⟩ := hread
    have hmerged : mergedBody (some value) (.object reading.request.fields) =
        .object (overlay own reading.request.fields) := by
      simp only [mergedBody, hown]
      rfl
    rw [hmerged]
    show (overlay own reading.request.fields).lookup key = some v
    rcases List.mem_append.mp h with hmem | hmem
    · rw [lookup_overlay_of_notMem (hdisjoint key (List.mem_map.mpr ⟨_, hmem, rfl⟩))]
      exact hfields key v hmem
    · exact lookup_overlay_of_mem reading.request.nodup hmem own

/-- Two sets of fields that were read are one. -/
theorem HasFields.append {existing : Option Json} {first second : List (String × Json)}
    (hfirst : HasFields existing first) (hsecond : HasFields existing second) :
    HasFields existing (first ++ second) := by
  cases existing with
  | none =>
    have hfirst : first = [] := hfirst
    have hsecond : second = [] := hsecond
    rw [hfirst, hsecond]
    rfl
  | some value =>
    obtain ⟨own, hown, hfirst⟩ := hfirst
    obtain ⟨_, hsame, hsecond⟩ := hsecond
    obtain rfl := Option.some.inj (hown.symm.trans hsame)
    refine ⟨own, hown, fun key v hmem ↦ ?_⟩
    rcases List.mem_append.mp hmem with hmem | hmem
    · exact hfirst key v hmem
    · exact hsecond key v hmem

/-! ### What the entries behind an update do to its item -/

section Effects

variable {i : Fin models.length} {id : String} {storage : Storage (models.get i).Item}

theorem lookup_effects_of_leavesAlone {e : LogEntry CrudOperation}
    (h : LeavesAlone i id e.operation) : (effects i [e] storage).lookup id = storage.lookup id := by
  rw [effects_singleton]
  split_ifs with htarget
  · exact h htarget storage
  · rfl

/-- An update of an item that is there puts the new one in its place. -/
theorem lookup_effects_update {e : LogEntry CrudOperation} {data : Json}
    {item : (models.get i).Item} (hi : resolve models (models.get i).basePath = some i)
    (hoperation : e.operation = .update (models.get i).basePath id data)
    (hitem : (models.get i).model.fromValue data = .ok item) (hid : id ∈ storage) :
    (effects i [e] storage).lookup id = some item := by
  have htarget : targetModel models (.update (models.get i).basePath id data) = some i := hi
  rw [effects_singleton, hoperation, if_pos htarget]
  simp only [storageEffect, hitem, if_pos hid]
  exact Finmap.lookup_insert storage

/-- An item with a property that each of its updates has keeps it when nothing else writes it. -/
theorem lookup_effects {P : (models.get i).Item → Prop}
    (hi : resolve models (models.get i).basePath = some i)
    {entries : List (LogEntry CrudOperation)}
    (h : ∀ e ∈ entries, LeavesAlone i id e.operation ∨
      ∃ data item, e.operation = .update (models.get i).basePath id data ∧
        (models.get i).model.fromValue data = .ok item ∧ P item)
    (hstart : ∃ item, storage.lookup id = some item ∧ P item) :
    ∃ item, (effects i entries storage).lookup id = some item ∧ P item := by
  induction entries generalizing storage with
  | nil => exact hstart
  | cons e rest ih =>
    rw [← List.singleton_append, effects_append]
    refine ih (fun e' he' ↦ h e' (List.mem_cons_of_mem e he')) ?_
    rcases h e List.mem_cons_self with halone | ⟨data, item, hoperation, hitem, hP⟩
    · rw [lookup_effects_of_leavesAlone halone]
      exact hstart
    · obtain ⟨old, hold, -⟩ := hstart
      have hid : id ∈ storage := Finmap.mem_of_lookup_eq_some hold
      exact ⟨item, lookup_effects_update hi hoperation hitem hid, hP⟩

end Effects

/-! ### What every step does -/

section Steps

variable {peers sha256} {s next : UpdateSystem models}

/-- What anything else on the leader does: a step of the leader, with the models changed when it
applies an entry, and an index answered when it is marked. -/
theorem step_write {a : LeaderAction CrudOperation} {env : Environment}
    (ha : ∀ operation timestampMs, a ≠ .accept operation timestampMs)
    (h : step peers sha256 s (.write a env) = some next) :
    ∃ leader states answered, Leader.step peers s.leader a = some leader ∧
      next = { s with leader, states, answered } ∧
      (∀ i entry, a = .applyOperation i true → s.leader.handlers i = some ⟨entry, .locked⟩ →
        ResyncSystem.applyEntry sha256 s.states entry true env = some states) ∧
      ((∀ i, a ≠ .applyOperation i true) → states = s.states) ∧
      ∀ p ∈ answered, p ∈ s.answered ∨ a = .markApplied p := by
  cases a with
  | accept operation timestampMs => exact absurd rfl (ha operation timestampMs)
  | applyOperation i ok =>
    unfold step at h
    simp only at h
    split at h
    · next leader handler hleader hhandler =>
      obtain ⟨states, hstates, rfl⟩ := Option.map_eq_some_iff.mp h
      refine ⟨leader, states, s.answered, hleader, rfl, ?_, ?_, fun p hp ↦ Or.inl hp⟩
      · rintro _ entry ⟨⟩ hi
        obtain rfl := Option.some.inj (hhandler.symm.trans hi)
        exact hstates
      · intro hok
        cases ok with
        | true => exact absurd rfl (hok i)
        | false => exact ResyncSystem.applyEntry_false hstates
    · exact absurd h (by simp)
  | markApplied i =>
    unfold step at h
    simp only at h
    obtain ⟨leader, hleader, rfl⟩ := Option.map_eq_some_iff.mp h
    refine ⟨leader, s.states, s.answered ++ [i], hleader, rfl, by simp, fun _ ↦ rfl, ?_⟩
    intro p hp
    rcases List.mem_append.mp hp with hp | hp
    · exact Or.inl hp
    · exact Or.inr (by rw [List.mem_singleton.mp hp])
  | insertEntry | queueEntry | readEntries | walDone | replicationDone | join | commitTimeout
  | lockApply | drop =>
    unfold step at h
    simp only at h
    obtain ⟨leader, hleader, rfl⟩ := Option.map_eq_some_iff.mp h
    exact ⟨leader, s.states, s.answered, hleader, rfl, by simp, fun _ ↦ rfl,
      fun p hp ↦ Or.inl hp⟩

/-- An update that is applied is one that its model accepts. -/
theorem accepts_of_applyEntry {states : ModelStates models} {entry : LogEntry CrudOperation}
    {env : Environment} (h : ResyncSystem.applyEntry sha256 s.states entry true env = some states)
    {modelPath id : String} {data : Json} (hoperation : entry.operation = .update modelPath id data)
    {i : Fin models.length} (hi : resolve models modelPath = some i) :
    Accepts (models.get i) data := by
  unfold ResyncSystem.applyEntry at h
  rw [hoperation] at h
  split at h
  · next happly => exact (apply_update_iff hi id data).mp ⟨_, happly⟩
  · exact absurd h (by simp)
  · next hnone => exact absurd hnone (Option.some_ne_none _)

end Steps

/-! ### What the runs keep -/

/-- What a run keeps in which updates read what is in front of them. -/
structure UpdateInv (initial : ModelStates models) (s : UpdateSystem models) : Prop where
  leader : s.leader.Inv
  numbered : NumberedFrom LogEntry.index 1 s.given
  nextIndex : s.leader.log.nextIndex = s.given.length + 1
  known : ∀ e, s.leader.Known e → e ∈ s.given
  storage : ∀ i, (s.states i).storage = effects i s.leader.applied (initial i).storage
  accepted : ∀ e ∈ s.leader.applied, ∀ modelPath id data i,
    e.operation = .update modelPath id data → resolve models modelPath = some i →
      Accepts (models.get i) data
  sorted : StrictSortedBy Prod.fst s.updates
  updates : ∀ p reading, (p, reading) ∈ s.updates →
    "updated_at" ∉ reading.request.fields.map Prod.fst ∧
      ∃ data e, reading.data = some data ∧ e ∈ s.given ∧ e.index = p ∧
        e.operation = reading.operation data
  sees : ∀ q second, (q, second) ∈ s.updates → ∀ p first, (p, first) ∈ s.updates → p < q →
    Sees (s.given.filter fun e ↦ e.index < q) s.updates second p first
  answered : ∀ p ∈ s.answered, ∃ e ∈ s.leader.applied, e.index = p

theorem updateInv_start (term : ℕ) (initial : ModelStates models) :
    UpdateInv initial (start term initial) where
  leader := Leader.inv_start term
  numbered := trivial
  nextIndex := rfl
  known := by
    rintro e (he | ⟨i, hi⟩)
    · exact absurd he List.not_mem_nil
    · exact absurd hi (Option.some_ne_none _).symm
  storage := fun _ ↦ rfl
  accepted := fun _ he ↦ absurd he List.not_mem_nil
  sorted := List.Pairwise.nil
  updates := fun _ _ h ↦ absurd h List.not_mem_nil
  sees := fun _ _ h ↦ absurd h List.not_mem_nil
  answered := fun _ h ↦ absurd h List.not_mem_nil

section Invariant

variable {peers sha256} {initial : ModelStates models} {s next : UpdateSystem models}

theorem UpdateInv.index_lt (h : UpdateInv initial s) {e : LogEntry CrudOperation}
    (he : e ∈ s.given) : e.index < s.leader.log.nextIndex := by
  rw [h.nextIndex, Nat.add_comm]
  exact (h.numbered.bounds he).2

/-- The next index is given to an operation. -/
theorem UpdateInv.accept (h : UpdateInv initial s) (operation : CrudOperation)
    (timestampMs : ℕ) : UpdateInv initial (s.accept operation timestampMs) where
  leader := h.leader.accept operation timestampMs
  numbered := by
    refine numberedFrom_append.mpr ⟨h.numbered, ?_, trivial⟩
    rw [Nat.add_comm, ← h.nextIndex]
    exact ConsensusLog.allocate_index _ _ _
  nextIndex := by
    show s.leader.log.nextIndex + 1 = (s.given ++ [_]).length + 1
    rw [List.length_append, List.length_singleton, h.nextIndex]
  known := by
    rintro e (he | ⟨i, hi⟩)
    · exact List.mem_append.mpr (Or.inl (h.known e (Or.inl he)))
    · rcases update_eq_some_iff.mp hi with ⟨-, hnew⟩ | ⟨-, hold⟩
      · rw [Option.some.injEq, WriteHandler.mk.injEq] at hnew
        exact List.mem_append.mpr (Or.inr (List.mem_singleton.mpr hnew.1.symm))
      · exact List.mem_append.mpr (Or.inl (h.known e (Or.inr ⟨i, hold⟩)))
  storage := h.storage
  accepted := h.accepted
  sorted := h.sorted
  updates := by
    intro p reading hmem
    obtain ⟨htime, data, e, hdata, he, hindex, hoperation⟩ := h.updates p reading hmem
    exact ⟨htime, data, e, hdata, List.mem_append.mpr (Or.inl he), hindex, hoperation⟩
  sees := by
    intro q second hq p first hp hlt hdisjoint hspares
    refine h.sees q second hq p first hp hlt hdisjoint fun e he hpe ↦ hspares e ?_ hpe
    rw [List.mem_filter] at he ⊢
    exact ⟨List.mem_append.mpr (Or.inl he.1), he.2⟩
  answered := h.answered

/-- An update is appended after a reading that has the fields of the updates in front of it. -/
theorem UpdateInv.append (h : UpdateInv initial s) {k timestampMs : ℕ} {reading : Reading models}
    {data : Json} (hdata : reading.data = some data)
    (htime : "updated_at" ∉ reading.request.fields.map Prod.fst)
    (hsees : ∀ update ∈ s.updates, Sees s.given s.updates reading update.1 update.2) :
    UpdateInv initial
      { ({ s with readings := s.readings.eraseIdx k }).accept (reading.operation data) timestampMs
        with updates := s.updates ++ [(s.leader.log.nextIndex, reading)] } := by
  have haccept := h.accept (reading.operation data) timestampMs
  have hlow : ∀ p first, (p, first) ∈ s.updates → p < s.leader.log.nextIndex := by
    intro p first hp
    obtain ⟨-, _, e, -, he, rfl, -⟩ := h.updates p first hp
    exact h.index_lt he
  have hspares : ∀ first e, e.index < s.leader.log.nextIndex →
      Spares (s.updates ++ [(s.leader.log.nextIndex, reading)]) first e →
        Spares s.updates first e := by
    rintro first e he (halone | ⟨third, hthird, hdisjoint⟩)
    · exact Or.inl halone
    · rcases List.mem_append.mp hthird with hthird | hnew
      · exact Or.inr ⟨third, hthird, hdisjoint⟩
      · rw [List.mem_singleton, Prod.mk.injEq] at hnew
        exact absurd hnew.1 he.ne
  refine { haccept with sorted := ?_, updates := ?_, sees := ?_ }
  · refine List.pairwise_append.mpr ⟨h.sorted, List.pairwise_singleton _ _, ?_⟩
    intro update hupdate new hnew
    rw [List.mem_singleton.mp hnew]
    exact hlow update.1 update.2 hupdate
  · intro p other hmem
    rcases List.mem_append.mp hmem with hold | hnew
    · exact haccept.updates p other hold
    · obtain ⟨rfl, rfl⟩ := Prod.mk.inj (List.mem_singleton.mp hnew)
      exact ⟨htime, data, (s.leader.log.allocate (other.operation data) timestampMs).2, hdata,
        List.mem_append.mpr (Or.inr List.mem_cons_self), rfl, rfl⟩
  · intro q second hq p first hp hlt hdisjoint hbehind
    have hbound : q ≤ s.leader.log.nextIndex := by
      rcases List.mem_append.mp hq with hold | hnew
      · exact (hlow q second hold).le
      · exact (Prod.mk.inj (List.mem_singleton.mp hnew)).1.le
    have hold : (p, first) ∈ s.updates := by
      rcases List.mem_append.mp hp with hold | hnew
      · exact hold
      · have hsame := (Prod.mk.inj (List.mem_singleton.mp hnew)).1
        omega
    have hgiven : ∀ e ∈ s.given, e.index < q → p < e.index → Spares s.updates first e := by
      intro e he heq hpe
      refine hspares first e (h.index_lt he) (hbehind e ?_ hpe)
      exact List.mem_filter.mpr ⟨List.mem_append.mpr (Or.inl he), decide_eq_true heq⟩
    rcases List.mem_append.mp hq with hqold | hnew
    · refine h.sees q second hqold p first hold hlt hdisjoint fun e he hpe ↦ ?_
      rw [List.mem_filter, decide_eq_true_iff] at he
      exact hgiven e he.1 he.2 hpe
    · obtain ⟨rfl, rfl⟩ := Prod.mk.inj (List.mem_singleton.mp hnew)
      exact hsees (p, first) hold hdisjoint fun e he hpe ↦ hgiven e he (h.index_lt he) hpe

/-- Anything else on the leader. -/
theorem UpdateInv.write (h : UpdateInv initial s) {a : LeaderAction CrudOperation}
    {env : Environment} (ha : ∀ operation timestampMs, a ≠ .accept operation timestampMs)
    (hnext : step peers sha256 s (.write a env) = some next) : UpdateInv initial next := by
  obtain ⟨leader, states, answered, hleader, rfl, happly, hquiet, hanswered⟩ := step_write ha hnext
  have hinv : leader.Inv := Leader.kept_inv peers _ _ _ h.leader hleader
  have hgrows := Leader.stepGrows hleader
  have hindex : leader.log.nextIndex = s.leader.log.nextIndex := Leader.nextIndex_of_step ha hleader
  have hallocated : ∀ i e, leader.handlers i = some ⟨e, .allocated⟩ → e ∈ s.given := by
    intro i e hi
    rcases hgrows.log.allocated i e hi with hold | hnew
    · exact h.known e (Or.inr ⟨i, hold⟩)
    · have hok := hinv.handlers i _ hi
      have hlt := hok.lt_next
      have hsame : e.index = i := hok.index
      omega
  have hsub : ∀ e ∈ s.leader.applied, e ∈ leader.applied := by
    intro e he
    rcases hgrows.applied with ⟨_, _, -, -, happlied⟩ | ⟨-, happlied⟩
    · rw [happlied]
      exact List.mem_append.mpr (Or.inl he)
    · rwa [happlied]
  refine { h with
    leader := hinv
    nextIndex := hindex.trans h.nextIndex
    known := ?_
    storage := ?_
    accepted := ?_
    answered := ?_ }
  · rintro e (he | ⟨i, hi⟩)
    · rcases hgrows.log.entries with hsame | ⟨i, entry, hi, hinsert⟩
      · exact h.known e (Or.inl (hsame ▸ he))
      · change e ∈ leader.log.entries at he
        rw [hinsert] at he
        rcases mem_insertByKey.mp he with rfl | he
        · exact h.known e (Or.inr ⟨i, hi⟩)
        · exact h.known e (Or.inl he)
    · exact hallocated i e hi
  · intro i
    show (states i).storage = effects i leader.applied (initial i).storage
    rcases hgrows.applied with ⟨j, entry, rfl, hj, happlied⟩ | ⟨hno, happlied⟩
    · rw [ResyncSystem.storage_applyEntry (happly j entry rfl hj), h.storage, happlied,
        effects_append]
    · rw [hquiet hno, h.storage, happlied]
  · intro e he modelPath id data i hoperation hi
    change e ∈ leader.applied at he
    rcases hgrows.applied with ⟨j, entry, rfl, hj, happlied⟩ | ⟨-, happlied⟩
    · rw [happlied] at he
      rcases List.mem_append.mp he with he | he
      · exact h.accepted e he modelPath id data i hoperation hi
      · rw [List.mem_singleton.mp he] at hoperation
        exact accepts_of_applyEntry (happly j entry rfl hj) hoperation hi
    · rw [happlied] at he
      exact h.accepted e he modelPath id data i hoperation hi
  · intro p hp
    rcases hanswered p hp with hold | rfl
    · obtain ⟨e, he, hp⟩ := h.answered p hold
      exact ⟨e, hsub e he, hp⟩
    · obtain ⟨entry, hi, -⟩ := Leader.step_markApplied hleader
      have hok := h.leader.handlers p _ hi
      have hsame : entry.index = p := hok.index
      have hlength : entry.index = s.leader.applied.length := hok.stage.2.1
      have hpos := hok.pos
      obtain ⟨e, he, hp⟩ := h.leader.numbered.exists_mem (i := p) hpos (by omega)
      exact ⟨e, hsub e he, hp⟩

/-- A step that meets the condition keeps the invariant. -/
theorem updateInv_step {a : UpdateAction models} (h : UpdateInv initial s)
    (hreads : ReadsEarlier s a) (hnext : step peers sha256 s a = some next) :
    UpdateInv initial next := by
  cases a with
  | read request =>
    obtain rfl := Option.some.inj hnext
    exact { h with }
  | forget k =>
    obtain rfl := Option.some.inj hnext
    exact { h with }
  | append k timestampMs =>
    unfold step at hnext
    simp only at hnext
    split at hnext
    · exact absurd hnext (by simp)
    · next reading hreading =>
      obtain ⟨htime, hsees⟩ := hreads reading hreading
      split at hnext
      · obtain rfl := Option.some.inj hnext
        exact { h with }
      · next data hdata =>
        obtain rfl := Option.some.inj hnext
        exact h.append hdata htime hsees
  | write a env =>
    by_cases ha : ∃ operation timestampMs, a = .accept operation timestampMs
    · obtain ⟨operation, timestampMs, rfl⟩ := ha
      obtain rfl := Option.some.inj hnext
      exact h.accept operation timestampMs
    · exact h.write (fun operation timestampMs heq ↦ ha ⟨operation, timestampMs, heq⟩) hnext

/-! ### No update is lost -/

theorem UpdateInv.mem_given (h : UpdateInv initial s) {e : LogEntry CrudOperation}
    (he : e ∈ s.leader.applied) : e ∈ s.given :=
  h.known e (Or.inl (h.leader.held e he))

theorem UpdateInv.eq_of_index (h : UpdateInv initial s) {a b : LogEntry CrudOperation}
    (ha : a ∈ s.given) (hb : b ∈ s.given) (hindex : a.index = b.index) : a = b :=
  h.numbered.strictSortedBy.eq_of_key_eq ha hb hindex

/-- What was given an index below that of an applied entry is applied. -/
theorem UpdateInv.mem_applied (h : UpdateInv initial s) {e last : LogEntry CrudOperation}
    (he : e ∈ s.given) (hlast : last ∈ s.leader.applied) (hlt : e.index < last.index) :
    e ∈ s.leader.applied := by
  have hlow := (h.numbered.bounds he).1
  have hhigh := (h.leader.numbered.bounds hlast).2
  obtain ⟨a, ha, hindex⟩ := h.leader.numbered.exists_mem hlow (by omega)
  rwa [h.eq_of_index he (h.mem_given ha) hindex.symm]

/-- An update that is applied puts an item of its model there. -/
theorem UpdateInv.operation_of_mem (h : UpdateInv initial s) {e : LogEntry CrudOperation}
    (he : e ∈ s.leader.applied) {reading : Reading models} (hmem : (e.index, reading) ∈ s.updates)
    {first : Reading models} (hmodel : reading.request.model = first.request.model)
    (hid : reading.request.id = first.request.id) :
    ∃ data item, reading.data = some data ∧
      e.operation =
        .update (models.get first.request.model).basePath first.request.id data ∧
      (models.get first.request.model).model.fromValue data = .ok item := by
  obtain ⟨-, data, given, hdata, hgiven, hindex, hoperation⟩ := h.updates _ reading hmem
  obtain rfl := h.eq_of_index hgiven (h.mem_given he) hindex
  rw [Reading.operation, hmodel, hid] at hoperation
  obtain ⟨item, hitem⟩ :=
    h.accepted given he _ _ data _ hoperation first.request.resolved
  exact ⟨data, item, hdata, hoperation, hitem⟩

/-- An applied update has read the fields of an update in front of it. -/
theorem UpdateInv.hasFields (h : UpdateInv initial s) {p : ℕ} {first : Reading models}
    (hp : (p, first) ∈ s.updates) {e : LogEntry CrudOperation} (he : e ∈ s.leader.applied)
    {third : Reading models} (hthird : (e.index, third) ∈ s.updates) (hlt : p < e.index)
    (hdisjoint : Disjoint first.request third.request)
    (hspares : ∀ e ∈ s.leader.applied, p < e.index → Spares s.updates first e) :
    HasFields third.existing first.request.fields := by
  refine h.sees e.index third hthird p first hp hlt hdisjoint fun e' he' hpe ↦ ?_
  rw [List.mem_filter, decide_eq_true_iff] at he'
  exact hspares e' (h.mem_applied he'.1 he he'.2) hpe

/-- What is applied behind an update that nothing takes fields from leaves its item alone, or is an
update of it. -/
theorem UpdateInv.updated_behind (h : UpdateInv initial s) {p : ℕ} {first : Reading models}
    (hp : (p, first) ∈ s.updates)
    (hspares : ∀ e ∈ s.leader.applied, p < e.index → Spares s.updates first e) :
    ∀ e ∈ s.leader.applied, p ≤ e.index →
      LeavesAlone first.request.model first.request.id e.operation ∨
        ∃ data item, e.operation =
            .update (models.get first.request.model).basePath first.request.id data ∧
          (models.get first.request.model).model.fromValue data = .ok item ∧ True := by
  intro e he hpe
  rcases hpe.lt_or_eq with hlt | rfl
  · rcases hspares e he hlt with halone | ⟨third, hthird, hdisjoint⟩
    · exact Or.inl halone
    · obtain ⟨data, item, -, hoperation, hitem⟩ :=
        h.operation_of_mem he hthird hdisjoint.model hdisjoint.id
      exact Or.inr ⟨data, item, hoperation, hitem, trivial⟩
  · obtain ⟨data, item, -, hoperation, hitem⟩ := h.operation_of_mem he hp rfl rfl
    exact Or.inr ⟨data, item, hoperation, hitem, trivial⟩

/-- Behind two updates that nothing takes fields from, an update of the item has the fields of
both. -/
theorem UpdateInv.carries_behind (h : UpdateInv initial s) {p q : ℕ} {first second : Reading models}
    (hp : (p, first) ∈ s.updates) (hq : (q, second) ∈ s.updates) (hlt : p < q)
    (hdisjoint : Disjoint first.request second.request)
    (hfirst : ∀ e ∈ s.leader.applied, p < e.index → Spares s.updates first e)
    (hsecond : ∀ e ∈ s.leader.applied, q < e.index → Spares s.updates second e) :
    ∀ e ∈ s.leader.applied, q < e.index →
      LeavesAlone first.request.model first.request.id e.operation ∨
        ∃ data item, e.operation =
            .update (models.get first.request.model).basePath first.request.id data ∧
          (models.get first.request.model).model.fromValue data = .ok item ∧
          Carries (models.get first.request.model).model item
            (first.request.fields ++ second.request.fields) := by
  intro e he hqe
  rcases hfirst e he (hlt.trans hqe) with halone | ⟨third, hthird, hfirstThird⟩
  · exact Or.inl halone
  rcases hsecond e he hqe with halone | ⟨other, hother, hsecondThird⟩
  · rw [hdisjoint.model, hdisjoint.id] at halone
    exact Or.inl halone
  obtain rfl : third = other := (Prod.mk.inj (h.sorted.eq_of_key_eq hthird hother rfl)).2
  obtain ⟨data, item, hdata, hoperation, hitem⟩ :=
    h.operation_of_mem he hthird hfirstThird.model hfirstThird.id
  refine Or.inr ⟨data, item, hoperation, hitem, data, hitem, fun key v hmem ↦ ?_⟩
  have hread := (h.hasFields hp he hthird (hlt.trans hqe) hfirstThird hfirst).append
    (h.hasFields hq he hthird hqe hsecondThird hsecond)
  refine get_data hdata hread ?_ (h.updates _ third hthird).1 ?_
    (List.mem_append.mpr (Or.inl hmem))
  · rw [List.map_append, List.mem_append, not_or]
    exact ⟨(h.updates p first hp).1, (h.updates q second hq).1⟩
  · intro key hkey
    rw [List.map_append, List.mem_append] at hkey
    rcases hkey with hkey | hkey
    · exact hfirstThird.fields key hkey
    · exact hsecondThird.fields key hkey

theorem UpdateInv.noLostUpdate (h : UpdateInv initial s) : NoLostUpdate initial s := by
  intro p first q second hp hq hlt hpa hqa hdisjoint hfirst hsecond hid
  obtain ⟨ep, hep, rfl⟩ := h.answered p hpa
  obtain ⟨eq, heq, rfl⟩ := h.answered q hqa
  have hresolved := first.request.resolved
  -- the applied entries, split at the first update and at the second
  obtain ⟨before, rest, hsplit⟩ := List.append_of_mem hep
  have hsorted := h.leader.numbered.strictSortedBy
  rw [hsplit] at hsorted heq
  obtain ⟨-, hrest, hbefore⟩ := List.pairwise_append.mp hsorted
  have hrestsorted := List.pairwise_cons.mp hrest
  have heqrest : eq ∈ rest := by
    rcases List.mem_append.mp heq with hmem | hmem
    · exact absurd (hbefore eq hmem ep List.mem_cons_self) (by omega)
    · rcases List.mem_cons.mp hmem with rfl | hmem
      · exact absurd hlt (lt_irrefl _)
      · exact hmem
  obtain ⟨mid, post, rfl⟩ := List.append_of_mem heqrest
  have hpost := (List.pairwise_cons.mp (List.pairwise_append.mp hrestsorted.2).2.1).1
  have hfilter : s.leader.applied.filter (fun e ↦ e.index < ep.index) = before := by
    rw [hsplit, List.filter_append, List.filter_eq_self.mpr, List.filter_eq_nil_iff.mpr,
      List.append_nil]
    · intro e he
      rw [decide_eq_true_iff, not_lt]
      rcases List.mem_cons.mp he with rfl | he
      · exact le_rfl
      · exact (hrestsorted.1 e he).le
    · intro e he
      exact decide_eq_true (hbefore e he ep List.mem_cons_self)
  rw [hfilter] at hid
  have hall : s.leader.applied = before ++ ((ep :: mid) ++ ([eq] ++ post)) := by
    rw [hsplit]
    rfl
  rw [h.storage, hall, effects_append, effects_append, effects_append]
  have hmem : ∀ e, e ∈ ep :: mid ∨ e = eq ∨ e ∈ post → e ∈ s.leader.applied := by
    intro e he
    rw [hall]
    simp only [List.mem_append, List.mem_singleton]
    exact Or.inr he
  obtain ⟨old, hold⟩ := Finmap.mem_iff.mp hid
  obtain ⟨kept, hkept, -⟩ := lookup_effects hresolved
    (fun e he ↦ h.updated_behind hp hfirst e (hmem e (Or.inl he)) (by
      rcases List.mem_cons.mp he with rfl | he
      · exact le_rfl
      · exact (hrestsorted.1 e (List.mem_append.mpr (Or.inl he))).le))
    ⟨old, hold, trivial⟩
  obtain ⟨data, item, hdata, hoperation, hitem⟩ :=
    h.operation_of_mem (hmem eq (Or.inr (Or.inl rfl))) hq hdisjoint.model hdisjoint.id
  have hupdated := lookup_effects_update hresolved hoperation hitem
    (Finmap.mem_of_lookup_eq_some hkept)
  refine lookup_effects hresolved
    (fun e he ↦ h.carries_behind hp hq hlt hdisjoint hfirst hsecond e
      (hmem e (Or.inr (Or.inr he))) (hpost e he))
    ⟨item, hupdated, data, hitem, fun key v hkey ↦ ?_⟩
  exact get_data hdata
    (h.hasFields hp (hmem eq (Or.inr (Or.inl rfl))) hq hlt hdisjoint hfirst)
    (h.updates _ first hp).1 (h.updates _ second hq).1 hdisjoint.fields hkey

end Invariant

/-- In every run in which each update is appended after a reading that has the fields of the updates
in front of it, no update is lost, in any state. -/
theorem noLostUpdate_of_readsEarlier (peers : ℕ) (sha256 : List UInt8 → String) (term : ℕ)
    (initial : ModelStates models) (actions : List (UpdateAction models))
    (hreads : EachStep (step peers sha256) ReadsEarlier (start term initial) actions) :
    Always (step peers sha256) (NoLostUpdate initial) (start term initial) actions := by
  have hinv : Always (step peers sha256) (UpdateInv initial) (start term initial) actions :=
    EachStep.always (fun s a next hs hC hnext ↦ updateInv_step hs hC hnext)
      (updateInv_start term initial) hreads
  exact hinv.mono fun s hs ↦ hs.noLostUpdate

/-! ### A switch with two sides -/

section Sides

/-- A switch with two sides. There is only one. -/
structure Switch where
  left : Bool
  right : Bool
  deriving DecidableEq

namespace Switch

def text : Switch → String
  | ⟨false, false⟩ => "\x7b\"id\":\"a\",\"left\":false,\"right\":false\x7d"
  | ⟨false, true⟩ => "\x7b\"id\":\"a\",\"left\":false,\"right\":true\x7d"
  | ⟨true, false⟩ => "\x7b\"id\":\"a\",\"left\":true,\"right\":false\x7d"
  | ⟨true, true⟩ => "\x7b\"id\":\"a\",\"left\":true,\"right\":true\x7d"

def all : List Switch := [⟨false, false⟩, ⟨false, true⟩, ⟨true, false⟩, ⟨true, true⟩]

theorem find_text (item : Switch) : (all.find? fun other ↦ other.text = item.text) = some item := by
  obtain ⟨left, right⟩ := item
  cases left <;> cases right <;> decide

/-- The switch as a model of the handler. Fields that it does not have are ignored. -/
def exposed : HttpExposable Switch where
  typeName := "home::Switch"
  getPrimaryKey := fun _ ↦ "a"
  validate := fun _ ↦ .ok ()
  canWrite := fun _ _ ↦ true
  applyLifecycle := .ok
  toValue := fun item ↦
    some (.object [("id", .string "a"), ("left", .bool item.left), ("right", .bool item.right)])
  fromValue := fun value ↦
    match value.get "left", value.get "right" with
    | some (.bool left), some (.bool right) => .ok ⟨left, right⟩
    | _, _ => .error "invalid switch"
  toText := fun item ↦ some item.text
  fromText := fun text ↦ all.find? fun item ↦ item.text = text
  fromSlice := fun bytes ↦ all.find? fun item ↦ asBytes item.text = bytes
  fromText_toText := by
    intro item text h
    obtain rfl := Option.some.inj h
    exact find_text item

end Switch

/-- The registration of the switch as the only model. -/
def switches : List ModelRegistration := [⟨"/api/switches", Switch, Switch.exposed⟩]

/-- The switch is off on both sides. -/
def switchedOff : ModelStates switches
  | ⟨0, _⟩ =>
    let none : HandlerState Switch := Declarative.emptyHandler true
    { none with storage := none.storage.insert "a" ⟨false, false⟩ }

/-- The request to switch one side on. -/
def switchOn (side : String) : UpdateRequest switches where
  model := ⟨0, Nat.one_pos⟩
  id := "a"
  fields := [(side, .bool true)]
  env := ⟨"2025-01-01T12:00:00+00:00", "fresh", ["a"]⟩
  resolved := by decide
  nodup := List.nodup_singleton side

/-- The entry of index `i` goes through the log and is applied. -/
def applyIndex (i : ℕ) : List (UpdateAction switches) :=
  [.insertEntry i, .queueEntry i, .readEntries i, .walDone i true, .replicationDone i 1, .join i,
    .lockApply i, .applyOperation i true, .markApplied i].map
      fun action ↦ .write action quietEnvironment

/-- The left side is switched on, and the right side after that. -/
def oneByOne : List (UpdateAction switches) :=
  ([.read (switchOn "left"), .append 0 0] ++ applyIndex 1 ++ [.read (switchOn "right")]) ++
    [.append 0 0] ++ applyIndex 2

/-- Both sides are read before either is switched on. -/
def atOnce : List (UpdateAction switches) :=
  [.read (switchOn "left"), .read (switchOn "right"), .append 0 0, .append 0 0] ++
    applyIndex 1 ++ applyIndex 2

/-- What the handlers have read once the left side is on. -/
def readingOn (side : String) (left : Bool) : Reading switches where
  request := switchOn side
  existing := some (.object [("id", .string "a"), ("left", .bool left), ("right", .bool false)])

theorem readsEarlier_oneByOne :
    EachStep (step 2 fun _ ↦ "") ReadsEarlier (start 1 switchedOff) oneByOne := by
  have hquiet : ∀ i, ∀ action ∈ applyIndex i, ∀ s, ReadsEarlier s action := by
    simp [applyIndex, ReadsEarlier]
  have hbefore : EachStep (step 2 fun _ ↦ "") ReadsEarlier (start 1 switchedOff)
      ([.read (switchOn "left"), .append 0 0] ++ applyIndex 1 ++ [.read (switchOn "right")]) := by
    rw [List.append_assoc, eachStep_append]
    refine ⟨fun _ hread ↦ ⟨trivial, fun _ _ ↦ ⟨?_, trivial⟩⟩, fun t _ ↦ ?_⟩
    · obtain rfl := Option.some.inj hread
      intro reading hreading
      obtain rfl := Option.some.inj hreading
      exact ⟨by decide, fun _ h ↦ absurd h List.not_mem_nil⟩
    · refine eachStep_of_forall (fun action haction ↦ ?_) t
      rcases List.mem_append.mp haction with haction | haction
      · exact hquiet 1 action haction
      · rw [List.mem_singleton.mp haction]
        exact fun _ ↦ trivial
  have hrun : (exec (step 2 fun _ ↦ "") (start 1 switchedOff)
      ([.read (switchOn "left"), .append 0 0] ++ applyIndex 1 ++ [.read (switchOn "right")])).map
        (fun s ↦ (s.readings, s.updates)) =
      some ([readingOn "right" true], [(1, readingOn "left" false)]) := rfl
  unfold oneByOne
  rw [List.append_assoc, eachStep_append]
  refine ⟨hbefore, fun t ht next _ ↦ ⟨?_, eachStep_of_forall (hquiet 2) next⟩⟩
  rw [ht, Option.map_some, Option.some.injEq] at hrun
  obtain ⟨hreadings, hupdates⟩ := Prod.mk.inj hrun
  intro reading hreading
  rw [hreadings] at hreading
  obtain rfl := Option.some.inj hreading
  refine ⟨by decide, fun update hupdate _ _ ↦ ?_⟩
  rw [hupdates] at hupdate
  rw [List.mem_singleton.mp hupdate]
  refine ⟨_, rfl, fun key v hmem ↦ ?_⟩
  obtain ⟨rfl, rfl⟩ := Prod.mk.inj (List.mem_singleton.mp hmem)
  decide

/-- When the second side is read after the first is on, both sides are on. -/
theorem both_sides_on :
    Always (step 2 fun _ ↦ "") (NoLostUpdate switchedOff) (start 1 switchedOff) oneByOne ∧
      (exec (step 2 fun _ ↦ "") (start 1 switchedOff) oneByOne).map
        (fun s ↦ (s.states ⟨0, Nat.one_pos⟩).storage.lookup "a") = some (some ⟨true, true⟩) :=
  ⟨noLostUpdate_of_readsEarlier 2 _ 1 switchedOff _ readsEarlier_oneByOne, rfl⟩

/-- When both sides are read before either is on, both requests succeed and the left side is off. -/
theorem left_side_lost :
    ¬ ∀ actions : List (UpdateAction switches),
      Always (step 2 fun _ ↦ "") (NoLostUpdate switchedOff) (start 1 switchedOff) actions := by
  intro h
  have hrun : (exec (step 2 fun _ ↦ "") (start 1 switchedOff) atOnce).map
      (fun s ↦ (s.updates, s.answered, s.leader.applied.map LogEntry.index,
        (s.states ⟨0, Nat.one_pos⟩).storage.lookup "a")) =
      some ([(1, readingOn "left" false), (2, readingOn "right" false)], [1, 2], [1, 2],
        some ⟨false, true⟩) := rfl
  obtain ⟨t, ht, hfinal⟩ := Option.map_eq_some_iff.mp hrun
  simp only [Prod.mk.injEq] at hfinal
  obtain ⟨hupdates, hanswered, happlied, hitem⟩ := hfinal
  have hindex : ∀ e ∈ t.leader.applied, e.index = 1 ∨ e.index = 2 := by
    intro e he
    have hmem : e.index ∈ t.leader.applied.map LogEntry.index := List.mem_map.mpr ⟨e, he, rfl⟩
    rw [happlied] at hmem
    simpa using hmem
  have hdisjoint : Disjoint (switchOn "left") (switchOn "right") :=
    ⟨rfl, rfl, by decide⟩
  have hthere : "a" ∈ (∅ : Storage Switch).insert "a" ⟨false, false⟩ :=
    Finmap.mem_insert.mpr (Or.inl rfl)
  have hfilter : t.leader.applied.filter (fun e ↦ e.index < 1) = [] := by
    refine List.filter_eq_nil_iff.mpr fun e he ↦ ?_
    rcases hindex e he with he | he <;> simp [he]
  obtain ⟨item, hlookup, value, hvalue, hfields⟩ := (h atOnce).exec ht 1 (readingOn "left" false) 2
    (readingOn "right" false) (by simp [hupdates]) (by simp [hupdates]) (by decide)
    (by simp [hanswered]) (by simp [hanswered]) hdisjoint
    (fun e he hlt ↦ Or.inr ⟨readingOn "right" false, by
      rw [hupdates, (hindex e he).resolve_left hlt.ne']
      exact List.mem_cons_of_mem _ List.mem_cons_self, hdisjoint⟩)
    (fun e he hlt ↦ absurd (hindex e he) (by omega))
    (by
      rw [hfilter]
      exact hthere)
  obtain rfl : (⟨false, true⟩ : Switch) = item := Option.some.inj (hitem.symm.trans hlookup)
  have hleft : value.get "left" = some (.bool true) :=
    hfields "left" (.bool true) (by decide)
  have hoff : Switch.exposed.fromValue value = .ok ⟨false, true⟩ := hvalue
  simp only [Switch.exposed, hleft] at hoff
  split at hoff
  · next left right hsides _ =>
    simp only [Except.ok.injEq, Switch.mk.injEq] at hoff
    rw [Option.some.injEq, Json.bool.injEq, hoff.1] at hsides
    exact Bool.noConfusion hsides
  · exact absurd hoff (by simp)

end Sides

end UpdateSystem

end Lithair.App
