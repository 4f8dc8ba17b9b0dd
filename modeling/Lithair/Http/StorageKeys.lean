import Lithair.Http.ClientWrites
import Lithair.Http.EventOrder

/-!
# The keys of the storage

Every operation of `http/declarative.rs` that changes a model's storage, in any order and number:
the writes of a client, `submit_admin_edit`, the writes of a leader, and `reconcile_replace_all`.
They take the key of an item from four places. A local create takes the primary key, an update and
an edit the id of the path, and what comes from a leader or through the consensus the string under
`id` of the item's value.

`keyed_iff_keepsKeys` says which sequences leave every item under its primary key, which is where
the replay of the event log puts it: those in which each operation takes a key that is the primary
key of what it stores.
-/

namespace Lithair.Http

open Lithair.Engine Lithair.Lib Lithair.Lib.KeyedMap Lithair.Lib.Run

/-- An operation on the storage, with what the environment decides in it. A list of items to create
comes in item by item, since the storage is let go of after each. -/
inductive StorageOperation (T : Type*)
  | create (req : WriteRequest) (env : Environment)
  | createItem (item : T) (env : Environment)
  | update (id : String) (req : WriteRequest) (env : Environment)
  | delete (id : String) (req : WriteRequest) (env : Environment)
  | adminEdit (id : String) (changes : Json) (env : Environment) (nowMillis : ℕ)
  | replicatedItem (item : T) (env : Environment)
  | replicatedUpdate (id : String) (item : T) (env : Environment)
  | replicatedDelete (id : String) (env : Environment)
  | reconcile (items : List T)

namespace Declarative

variable {T : Type*} (M : HttpExposable T) (sha256 : List UInt8 → String)

/-- The new item is in the storage before it is written to the log, whatever becomes of that. -/
def submitAdminEdit (s : HandlerState T) (id : String) (changes : Json) (env : Environment)
    (nowMillis : ℕ) : HandlerState T × Except String T :=
  match s.storage.lookup id with
  | none => (s, .error ("Entity '" ++ id ++ "' not found"))
  | some current =>
    match editedItem M current changes with
    | .error message => (s, .error message)
    | .ok item =>
      let storage := s.storage.insert id item
      match M.toText item with
      | none => ({ s with storage }, .error "Failed to serialize")
      | some payload =>
        let (store, ok) := s.store.appendEnvelope sha256
          (adminEditEnvelope M id payload env.now nowMillis) env.append
        (⟨storage, store⟩, if ok then .ok item else .error "Failed to persist event")

variable (config : BulkConfig T)

def applyOperation (s : HandlerState T) : StorageOperation T → HandlerState T
  | .create req env => (handleCreate M sha256 config.toHandlerConfig s req env).1
  | .createItem item env => (createItem M sha256 config s item env).1
  | .update id req env => (handleUpdate M sha256 config.toHandlerConfig s id req env).1
  | .delete id req env => (handleDelete M sha256 config.toHandlerConfig s id req env).1
  | .adminEdit id changes env nowMillis =>
    (submitAdminEdit M sha256 s id changes env nowMillis).1
  | .replicatedItem item env => applyReplicatedItem M sha256 s item env
  | .replicatedUpdate id item env => applyReplicatedUpdate M sha256 s id item env
  | .replicatedDelete id env => (applyReplicatedDelete M sha256 s id env).1
  | .reconcile items => reconcileReplaceAll M s items

def applyStep (s : HandlerState T) (operation : StorageOperation T) : Option (HandlerState T) :=
  some (applyOperation M sha256 config s operation)

/-- A handler that has gone through its event log. -/
def opened (store : EventStore) : HandlerState T :=
  ⟨replayEvents M store.events ∅, store⟩

/-- Every item is stored under its primary key. -/
def HoldsKeys (s : HandlerState T) : Prop := Keyed M.getPrimaryKey s.storage

/-- If the operation stores an item, then under the item's primary key. What a list of items leaves
under a key is the last item for it. -/
def KeepsKeys (s : HandlerState T) : StorageOperation T → Prop
  | .create req env => ∀ item, Accepted M config.toHandlerConfig req env item →
      M.getPrimaryKey item = createKey M config.toHandlerConfig item
  | .createItem item env => ∀ stored, ItemAccepted M config item env stored →
      M.getPrimaryKey stored = createKey M (itemConfig config) stored
  | .update id req env => ∀ item, Accepted M config.toHandlerConfig req env item →
      id ∈ s.storage → M.getPrimaryKey item = id
  | .adminEdit id changes _ _ => ∀ current item, s.storage.lookup id = some current →
      editedItem M current changes = .ok item → M.getPrimaryKey item = id
  | .replicatedItem item _ => M.getPrimaryKey item = M.actualKey item
  | .replicatedUpdate id item _ =>
    M.getPrimaryKey item = if id ∈ s.storage then id else M.actualKey item
  | .reconcile items => ∀ before item after, items = before ++ item :: after →
      M.actualKey item ∉ after.map M.actualKey → M.getPrimaryKey item = M.actualKey item
  | .delete _ _ _ | .replicatedDelete _ _ => True

/-! ### Lists of items -/

/-- A list of items to create is a sequence of operations, up to the first item that fails. -/
theorem exec_createEach (s : HandlerState T) (items : List T) (env : ℕ → Environment) :
    ∃ created, created <+: items ∧
      exec (applyStep M sha256 config) s
          (created.mapIdx fun i item ↦ .createItem item (env i)) =
        some (createEach M sha256 config s items env).1 := by
  induction items generalizing s env with
  | nil => exact ⟨[], List.prefix_rfl, rfl⟩
  | cons item rest ih =>
    cases hitem : (createItem M sha256 config s item (env 0)).2 with
    | error response =>
      rw [createEach_cons_of_error hitem]
      exact ⟨[item], List.cons_prefix_cons.mpr ⟨rfl, List.nil_prefix⟩, rfl⟩
    | ok stored =>
      obtain ⟨created, hcreated, hexec⟩ :=
        ih (createItem M sha256 config s item (env 0)).1 fun n ↦ env (n + 1)
      rw [createEach_cons_of_ok hitem]
      refine ⟨item :: created, List.cons_prefix_cons.mpr ⟨rfl, hcreated⟩, ?_⟩
      rw [List.mapIdx_cons]
      exact hexec

/-- So is a list of items that comes from a leader. -/
theorem exec_replicatedItems (s : HandlerState T) (items : List T) (env : ℕ → Environment) :
    exec (applyStep M sha256 config) s
        (items.mapIdx fun i item ↦ .replicatedItem item (env i)) =
      some (applyReplicatedItems M sha256 s items env) := by
  induction items generalizing s env with
  | nil => rfl
  | cons item rest ih =>
    rw [List.mapIdx_cons]
    exact ih (applyReplicatedItem M sha256 s item (env 0)) fun n ↦ env (n + 1)

/-! ### One operation -/

section Operation

variable {M sha256 config} {s : HandlerState T} {id : String} {env : Environment}

theorem holdsKeys_opened (store : EventStore) : HoldsKeys M (opened M store) := by
  unfold HoldsKeys opened
  rw [replayEvents_eq_insertAll]
  exact keyed_empty.insertAll _

/-- An edit that gets as far as an item stores it under the id of the path. -/
theorem storage_submitAdminEdit {changes : Json} {nowMillis : ℕ} {current item : T}
    (hcurrent : s.storage.lookup id = some current)
    (hitem : editedItem M current changes = .ok item) :
    (submitAdminEdit M sha256 s id changes env nowMillis).1.storage =
      s.storage.insert id item := by
  unfold submitAdminEdit
  rw [hcurrent]
  dsimp only
  rw [hitem]
  dsimp only
  cases M.toText item with
  | none => rfl
  | some payload => rfl

/-- An edit of an item that is not there, or one that is turned down, changes nothing. -/
theorem submitAdminEdit_of_not {changes : Json} {nowMillis : ℕ}
    (h : ∀ current item, s.storage.lookup id = some current →
      editedItem M current changes ≠ .ok item) :
    (submitAdminEdit M sha256 s id changes env nowMillis).1 = s := by
  unfold submitAdminEdit
  cases hcurrent : s.storage.lookup id with
  | none => rfl
  | some current =>
    cases hitem : editedItem M current changes with
    | error message => simp only [hitem]
    | ok item => exact absurd hitem (h current item hcurrent)

theorem holdsKeys_create_iff (hs : HoldsKeys M s) {config : HandlerConfig} {req : WriteRequest} :
    HoldsKeys M (handleCreate M sha256 config s req env).1 ↔
      ∀ item, Accepted M config req env item →
        M.getPrimaryKey item = createKey M config item := by
  by_cases h : ∃ item, Accepted M config req env item
  · obtain ⟨item, hitem⟩ := h
    have hstorage : HoldsKeys M (handleCreate M sha256 config s req env).1 ↔
        M.getPrimaryKey item = createKey M config item := by
      rw [handleCreate_of_accepted hitem, store_persistAndAnswer]
      exact hs.insert_iff
    rw [hstorage]
    exact ⟨fun hkey other hother ↦ hitem.unique hother ▸ hkey, fun hall ↦ hall item hitem⟩
  · push Not at h
    rw [(handleCreate_of_not_accepted h).1]
    exact iff_of_true hs fun item hitem ↦ absurd hitem (h item)

theorem holdsKeys_createItem_iff (hs : HoldsKeys M s) {item : T} :
    HoldsKeys M (createItem M sha256 config s item env).1 ↔
      ∀ stored, ItemAccepted M config item env stored →
        M.getPrimaryKey stored = createKey M (itemConfig config) stored := by
  by_cases h : ∃ stored, ItemAccepted M config item env stored
  · obtain ⟨stored, hstored⟩ := h
    have hstorage : HoldsKeys M (createItem M sha256 config s item env).1 ↔
        M.getPrimaryKey stored = createKey M (itemConfig config) stored := by
      rw [createItem_of_accepted hstored]
      exact hs.insert_iff
    rw [hstorage]
    exact ⟨fun hkey other hother ↦ hstored.unique hother ▸ hkey, fun hall ↦ hall stored hstored⟩
  · push Not at h
    obtain ⟨response, hresponse⟩ := createItem_of_not_accepted sha256 s h
    rw [hresponse]
    exact iff_of_true hs fun stored hstored ↦ absurd hstored (h stored)

theorem holdsKeys_update_iff (hs : HoldsKeys M s) {config : HandlerConfig} {req : WriteRequest} :
    HoldsKeys M (handleUpdate M sha256 config s id req env).1 ↔
      ∀ item, Accepted M config req env item → id ∈ s.storage → M.getPrimaryKey item = id := by
  by_cases h : ∃ item, Accepted M config req env item ∧ id ∈ s.storage
  · obtain ⟨item, hitem, hid⟩ := h
    have hstorage : HoldsKeys M (handleUpdate M sha256 config s id req env).1 ↔
        M.getPrimaryKey item = id := by
      rw [handleUpdate_of_accepted hitem hid, store_persistAndAnswer]
      exact hs.insert_iff
    rw [hstorage]
    exact ⟨fun hkey other hother _ ↦ hitem.unique hother ▸ hkey, fun hall ↦ hall item hitem hid⟩
  · push Not at h
    rw [(handleUpdate_of_not_accepted h).1]
    exact iff_of_true hs fun item hitem hid ↦ absurd hid (h item hitem)

theorem holdsKeys_adminEdit_iff (hs : HoldsKeys M s) {changes : Json} {nowMillis : ℕ} :
    HoldsKeys M (submitAdminEdit M sha256 s id changes env nowMillis).1 ↔
      ∀ current item, s.storage.lookup id = some current →
        editedItem M current changes = .ok item → M.getPrimaryKey item = id := by
  by_cases h : ∃ current item, s.storage.lookup id = some current ∧
      editedItem M current changes = .ok item
  · obtain ⟨current, item, hcurrent, hitem⟩ := h
    have hstorage : HoldsKeys M (submitAdminEdit M sha256 s id changes env nowMillis).1 ↔
        M.getPrimaryKey item = id := by
      unfold HoldsKeys
      rw [storage_submitAdminEdit hcurrent hitem]
      exact hs.insert_iff
    rw [hstorage]
    constructor
    · intro hkey other stored hother hstored
      obtain rfl := Option.some.inj (hcurrent.symm.trans hother)
      obtain rfl := Except.ok.inj (hitem.symm.trans hstored)
      exact hkey
    · exact fun hall ↦ hall current item hcurrent hitem
  · push Not at h
    rw [submitAdminEdit_of_not h]
    exact iff_of_true hs fun current item hcurrent hitem ↦ absurd hitem (h current item hcurrent)

/-- A delete takes an item out, or does nothing. -/
theorem holdsKeys_delete (hs : HoldsKeys M s) {config : HandlerConfig} {req : WriteRequest} :
    HoldsKeys M (handleDelete M sha256 config s id req env).1 := by
  by_cases h : ∃ item, Removes M config s id req env item
  · obtain ⟨item, hitem⟩ := h
    rw [handleDelete_of_removes hitem, store_persistAndAnswer]
    exact hs.erase id
  · push Not at h
    rw [(handleDelete_of_not_removes h).1]
    exact hs

theorem holdsKeys_replicatedDelete (hs : HoldsKeys M s) :
    HoldsKeys M (applyReplicatedDelete M sha256 s id env).1 := by
  unfold applyReplicatedDelete
  cases s.storage.lookup id with
  | none => exact hs
  | some item => exact hs.erase id

theorem holdsKeys_replicatedUpdate_iff (hs : HoldsKeys M s) {item : T} :
    HoldsKeys M (applyReplicatedUpdate M sha256 s id item env) ↔
      M.getPrimaryKey item = if id ∈ s.storage then id else M.actualKey item := by
  unfold applyReplicatedUpdate
  split_ifs with hid
  · exact hs.insert_iff
  · exact hs.insert_iff

/-- An operation leaves every item under its primary key exactly when it stores nothing under
another. -/
theorem holdsKeys_applyOperation_iff (hs : HoldsKeys M s) (operation : StorageOperation T) :
    HoldsKeys M (applyOperation M sha256 config s operation) ↔
      KeepsKeys M config s operation := by
  cases operation with
  | create req env => exact holdsKeys_create_iff hs
  | createItem item env => exact holdsKeys_createItem_iff hs
  | update id req env => exact holdsKeys_update_iff hs
  | delete id req env => exact iff_of_true (holdsKeys_delete hs) trivial
  | adminEdit id changes env nowMillis => exact holdsKeys_adminEdit_iff hs
  | replicatedItem item env => exact hs.insert_iff
  | replicatedUpdate id item env => exact holdsKeys_replicatedUpdate_iff hs
  | replicatedDelete id env => exact iff_of_true (holdsKeys_replicatedDelete hs) trivial
  | reconcile items => exact keyed_insertAll_empty_iff

end Operation

end Declarative

/-! ### Every sequence of operations -/

/-- From what the event log gives, a sequence of operations leaves every item under its primary key,
after each of them, exactly when each stores what it stores under its primary key. -/
theorem keyed_iff_keepsKeys {T : Type*} (M : HttpExposable T) (sha256 : List UInt8 → String)
    (config : BulkConfig T) (store : EventStore) (operations : List (StorageOperation T)) :
    Always (Declarative.applyStep M sha256 config)
        (fun s ↦ Keyed M.getPrimaryKey s.storage) (Declarative.opened M store) operations ↔
      EachStep (Declarative.applyStep M sha256 config) (Declarative.KeepsKeys M config)
        (Declarative.opened M store) operations := by
  refine always_iff_eachStep (I := fun _ ↦ True) (fun _ _ _ _ _ ↦ trivial) ?_ trivial
    (Declarative.holdsKeys_opened store) operations
  intro s operation next _ hs hnext
  obtain rfl := Option.some.inj hnext
  exact Declarative.holdsKeys_applyOperation_iff hs operation

section ForeignKey

/-- A handler open to everyone, which reads no lists. -/
def withoutLists : BulkConfig Shelf where
  toHandlerConfig := openConfig
  maxBodyBytesBulk := 12582912
  disableConsensus := false
  listFromSlice := fun _ ↦ none

/-- The request to replace a shelf by the shelf `b`. -/
def putB : WriteRequest := ⟨true, some 10, some (asBytes Shelf.b.text), [], none⟩

/-- The shelf `a` is created, and then replaced by the shelf `b`, which `/a` has from then on. -/
theorem update_stores_under_foreign_key :
    ¬ ∃ sha256 : List UInt8 → String,
      Always (Declarative.applyStep Shelf.exposed sha256 withoutLists)
        (fun s ↦ Keyed Shelf.exposed.getPrimaryKey s.storage)
        (Declarative.opened Shelf.exposed ⟨[], none, true⟩)
        [.create createShelf quietEnvironment, .update "a" putB quietEnvironment] := by
  rintro ⟨sha256, h⟩
  have hcreated := h.2 _ rfl
  have hupdated := (hcreated.2 _ rfl).head
  have hlookup := hupdated "a" .b (Finmap.lookup_insert _)
  exact absurd hlookup (by decide)

end ForeignKey

end Lithair.Http
