import Lithair.App.ModelHandler
import Lithair.Cluster.Snapshot

/-!
# Installing a snapshot

`handle_install_snapshot` of `app/mod.rs`: a follower receives a snapshot, checks and stores it, and
applies the items of each model. It applies them as replicated items, which are merged into what the
model had; a path without a model is passed over, a text that is not a list counts as the empty one,
and a list that does not deserialise is only logged. The answer is success all the same.

`installedExactly_iff_replaceable` says for which prior states and which snapshots the follower has
the state of the snapshot afterwards.
-/

namespace Lithair.App

open Lithair.Cluster Lithair.Http Lithair.Lib Lithair.Lib.KeyedMap

variable {models : List ModelRegistration}

/-- A follower; the manager is `none` when its directory could not be opened. -/
structure SnapshotFollower (models : List ModelRegistration) where
  manager : Option SnapshotManager
  states : ModelStates models
  log : ConsensusLog CrudOperation

/-- The headers of a request, as far as they are there and numbers, and its body. -/
structure InstallRequest where
  term : Option ℕ
  lastIncludedIndex : Option ℕ
  checksum : Option UInt64
  sizeBytes : Option ℕ
  body : List UInt8

inductive InstallResponse
  | unavailable
  | installed (term : ℕ)
  | failed (term : ℕ) (message : String)
  deriving DecidableEq

namespace InstallRequest

/-- The metadata that the headers describe. -/
def snapshotMeta (req : InstallRequest) (now : ℕ) : SnapshotMeta where
  term := req.term.getD 0
  lastIncludedIndex := req.lastIncludedIndex.getD 0
  createdAtMs := now
  sizeBytes := req.sizeBytes.getD 0
  checksum := req.checksum.getD 0

end InstallRequest

section Install

variable (serde : Serde) (codec : SnapshotCodec) (sha256 : List UInt8 → String)

/-- The model with exactly this base path. -/
def findModel (models : List ModelRegistration) (modelPath : String) : Option (Fin models.length) :=
  models.findFinIdx? fun model ↦ model.basePath == modelPath

/-- The list that a text stands for, empty when it is not the text of a list. -/
def listOfText (text : String) : List Json :=
  match serde.parseJson text with
  | some (.array items) => items
  | _ => []

/-- Apply one model of a snapshot; a failure is only logged. -/
def applySnapshotModel (states : ModelStates models) (entry : String × String)
    (env : ℕ → Environment) : ModelStates models :=
  match findModel models entry.1 with
  | none => states
  | some i =>
    match ModelHandler.applyReplicatedItemsJson (models.get i).model sha256 (states i)
        (listOfText serde entry.2) env with
    | .error _ => states
    | .ok state => Function.update states i state

/-- Apply the models of a snapshot, each in the environments of its position. -/
def applySnapshotModels (states : ModelStates models) :
    List (String × String) → (ℕ → ℕ → Environment) → ModelStates models
  | [], _ => states
  | entry :: rest, env =>
    applySnapshotModels (applySnapshotModel serde sha256 states entry (env 0)) rest
      fun n ↦ env (n + 1)

def handleInstallSnapshot (node : SnapshotFollower models) (req : InstallRequest) (now : ℕ)
    (disk : DiskOutcome) (env : ℕ → ℕ → Environment) :
    SnapshotFollower models × InstallResponse :=
  match node.manager with
  | none => (node, .unavailable)
  | some manager =>
    let info := req.snapshotMeta now
    match manager.installSnapshot codec info req.body disk with
    | (manager, .error message) =>
      ({ node with manager := some manager }, .failed node.log.currentTerm message)
    | (manager, .ok data) =>
      ({ manager := some manager
         states := applySnapshotModels serde sha256 node.states data.models env
         log := (node.log.setTerm info.term).markApplied info.lastIncludedIndex },
        .installed info.term)

/-! ### What a snapshot is to bring about -/

/-- The model of the entry and the items that its text stands for. -/
structure EntryItems (entry : String × String) (i : Fin models.length)
    (items : List (models.get i).Item) : Prop where
  model : findModel models entry.1 = some i
  items : ∃ values, serde.parseJson entry.2 = some (.array values) ∧
    ModelHandler.fromValues (models.get i).model values = .ok items

/-- The model of the entry holds the items of the entry and no others. -/
def ModelRestored (states : ModelStates models) (entry : String × String) : Prop :=
  ∃ i items, EntryItems serde entry i items ∧
    (states i).storage =
      (Declarative.reconcileReplaceAll (models.get i).model (states i) items).storage

/-- When the snapshot is accepted, then afterwards every model in it holds its items and no others,
and the entries up to the last included index, and no further ones, count as applied. -/
def InstalledExactly (node : SnapshotFollower models) (req : InstallRequest) (now : ℕ)
    (disk : DiskOutcome) (env : ℕ → ℕ → Environment) : Prop :=
  ∀ manager stored data, node.manager = some manager →
    manager.installSnapshot codec (req.snapshotMeta now) req.body disk = (stored, .ok data) →
      let next := (handleInstallSnapshot serde codec sha256 node req now disk env).1
      (∀ entry ∈ data.models, ModelRestored serde next.states entry) ∧
        next.log.appliedIndex = req.lastIncludedIndex.getD 0

/-- What a snapshot has to meet, given the state before it, for the merge to restore it: every entry
is the list of items of a registered model; it has every key that the model has; two entries of one
model agree; and no entry behind the snapshot is applied already. -/
structure Replaceable (node : SnapshotFollower models) (data : SnapshotData) (last : ℕ) : Prop where
  applicable : ∀ entry ∈ data.models, ∃ (i : Fin models.length) (items : _),
    EntryItems serde entry i items
  covers : ∀ entry ∈ data.models, ∀ i items, EntryItems serde entry i items →
    ∀ key ∈ (node.states i).storage, key ∈ items.map (models.get i).model.actualKey
  agree : ∀ entry ∈ data.models, ∀ other ∈ data.models, ∀ (i : Fin models.length) items otherItems,
    EntryItems serde entry i items → EntryItems serde other i otherItems →
      insertAll (models.get i).model.actualKey items ∅ =
        insertAll (models.get i).model.actualKey otherItems ∅
  applied : node.log.appliedIndex ≤ last

/-! ### The merge -/

/-- The items that an entry brings into a model, if any. -/
def mergedItems (i : Fin models.length) (entry : String × String) :
    Option (List (models.get i).Item) :=
  if findModel models entry.1 = some i then
    (ModelHandler.fromValues (models.get i).model (listOfText serde entry.2)).toOption
  else none

variable {serde sha256}

theorem storage_applySnapshotModel (states : ModelStates models) (entry : String × String)
    (env : ℕ → Environment) (i : Fin models.length) :
    (applySnapshotModel serde sha256 states entry env i).storage =
      insertAll (models.get i).model.actualKey ((mergedItems serde i entry).getD [])
        (states i).storage := by
  unfold applySnapshotModel mergedItems
  cases hmodel : findModel models entry.1 with
  | none => rfl
  | some j =>
    unfold ModelHandler.applyReplicatedItemsJson
    by_cases hji : j = i
    · subst hji
      rw [if_pos rfl]
      cases hitems : ModelHandler.fromValues (models.get j).model (listOfText serde entry.2) with
      | error message => simp only [hitems]; rfl
      | ok items =>
        simp only [hitems, Function.update_self, Declarative.storage_applyReplicatedItems]
        rfl
    · have hne : ¬ some j = some i := fun h ↦ hji (Option.some.inj h)
      rw [if_neg hne]
      cases hitems : ModelHandler.fromValues (models.get j).model (listOfText serde entry.2) with
      | error message => simp only [hitems]; rfl
      | ok items =>
        simp only [hitems, Function.update_of_ne (Ne.symm hji)]
        rfl

/-- A snapshot is merged into each model: all items for it are inserted into what it had. -/
theorem storage_applySnapshotModels (states : ModelStates models)
    (entries : List (String × String)) (env : ℕ → ℕ → Environment) (i : Fin models.length) :
    (applySnapshotModels serde sha256 states entries env i).storage =
      insertAll (models.get i).model.actualKey (entries.filterMap (mergedItems serde i)).flatten
        (states i).storage := by
  induction entries generalizing states env with
  | nil => rfl
  | cons entry rest ih =>
    unfold applySnapshotModels
    rw [ih, storage_applySnapshotModel, List.filterMap_cons]
    cases mergedItems serde i entry with
    | none => rfl
    | some items => rw [Option.getD_some, List.flatten_cons, insertAll_append]

theorem EntryItems.mergedItems {entry : String × String} {i : Fin models.length}
    {items : List (models.get i).Item} (h : EntryItems serde entry i items) :
    mergedItems serde i entry = some items := by
  obtain ⟨values, hvalues, hitems⟩ := h.items
  unfold App.mergedItems listOfText
  rw [if_pos h.model, hvalues]
  simp only [hitems]
  rfl

/-- When every entry is applicable, the lists merged into a model are the items of its entries. -/
theorem mem_merged_iff {entries : List (String × String)}
    (happlicable : ∀ entry ∈ entries, ∃ (i : Fin models.length) (items : _),
      EntryItems serde entry i items) {i : Fin models.length} {items : List (models.get i).Item} :
    items ∈ entries.filterMap (mergedItems serde i) ↔
      ∃ entry ∈ entries, EntryItems serde entry i items := by
  rw [List.mem_filterMap]
  constructor
  · rintro ⟨entry, hentry, hmerged⟩
    obtain ⟨j, others, hj⟩ := happlicable entry hentry
    have hij : findModel models entry.1 = some i := by
      by_contra hne
      simp [mergedItems, hne] at hmerged
    obtain rfl : j = i := Option.some.inj (hj.model.symm.trans hij)
    rw [hj.mergedItems, Option.some.injEq] at hmerged
    exact ⟨entry, hentry, hmerged ▸ hj⟩
  · rintro ⟨entry, hentry, h⟩
    exact ⟨entry, hentry, h.mergedItems⟩

theorem modelRestored_applySnapshotModels_iff {entries : List (String × String)}
    (happlicable : ∀ entry ∈ entries, ∃ (i : Fin models.length) (items : _),
      EntryItems serde entry i items) (states : ModelStates models) (env : ℕ → ℕ → Environment) :
    (∀ entry ∈ entries,
        ModelRestored serde (applySnapshotModels serde sha256 states entries env) entry) ↔
      ∀ i, ∀ items ∈ entries.filterMap (mergedItems serde i),
        insertAll (models.get i).model.actualKey (entries.filterMap (mergedItems serde i)).flatten
            (states i).storage =
          insertAll (models.get i).model.actualKey items ∅ := by
  constructor
  · intro hrestored i items hitems
    obtain ⟨entry, hentry, h⟩ := (mem_merged_iff happlicable).mp hitems
    obtain ⟨j, others, hothers, hstorage⟩ := hrestored entry hentry
    obtain rfl : i = j := Option.some.inj (h.model.symm.trans hothers.model)
    obtain rfl : items = others :=
      Option.some.inj (h.mergedItems.symm.trans hothers.mergedItems)
    have hmerge : (applySnapshotModels serde sha256 states entries env i).storage = _ :=
      storage_applySnapshotModels states entries env i
    exact hmerge.symm.trans hstorage
  · intro h entry hentry
    obtain ⟨i, items, hitems⟩ := happlicable entry hentry
    refine ⟨i, items, hitems, ?_⟩
    rw [storage_applySnapshotModels]
    exact h i items ((mem_merged_iff happlicable).mpr ⟨entry, hentry, hitems⟩)

/-- Merging a snapshot and marking its last index restores it exactly when it is replaceable. -/
theorem restored_iff_replaceable (node : SnapshotFollower models) (data : SnapshotData)
    (last : ℕ) (env : ℕ → ℕ → Environment) :
    (∀ entry ∈ data.models,
        ModelRestored serde (applySnapshotModels serde sha256 node.states data.models env) entry) ∧
        max node.log.appliedIndex last = last ↔
      Replaceable serde node data last := by
  constructor
  · rintro ⟨hrestored, happlied⟩
    have happlicable : ∀ entry ∈ data.models, ∃ (i : Fin models.length) (items : _),
        EntryItems serde entry i items := by
      intro entry hentry
      obtain ⟨i, items, hitems, -⟩ := hrestored entry hentry
      exact ⟨i, items, hitems⟩
    have hlists := (modelRestored_applySnapshotModels_iff happlicable node.states env).mp hrestored
    refine ⟨happlicable, ?_, ?_, max_eq_right_iff.mp happlied⟩
    · intro entry hentry i items hitems
      exact (insertAll_flatten_eq_iff.mp (hlists i)).1 items
        ((mem_merged_iff happlicable).mpr ⟨entry, hentry, hitems⟩)
    · intro entry hentry other hother i items otherItems hitems hotherItems
      exact (insertAll_flatten_eq_iff.mp (hlists i)).2
        items ((mem_merged_iff happlicable).mpr ⟨entry, hentry, hitems⟩)
        otherItems ((mem_merged_iff happlicable).mpr ⟨other, hother, hotherItems⟩)
  · intro h
    refine ⟨?_, max_eq_right h.applied⟩
    rw [modelRestored_applySnapshotModels_iff h.applicable]
    intro i
    rw [insertAll_flatten_eq_iff]
    constructor
    · intro items hitems
      obtain ⟨entry, hentry, he⟩ := (mem_merged_iff h.applicable).mp hitems
      exact h.covers entry hentry i items he
    · intro items hitems otherItems hotherItems
      obtain ⟨entry, hentry, he⟩ := (mem_merged_iff h.applicable).mp hitems
      obtain ⟨other, hother, ho⟩ := (mem_merged_iff h.applicable).mp hotherItems
      exact h.agree entry hentry other hother i items otherItems he ho

end Install

/-- For every state of the follower and every request, an accepted snapshot is the follower's state
afterwards exactly when the snapshot is replaceable in the state before it. -/
theorem installedExactly_iff_replaceable (serde : Serde) (codec : SnapshotCodec)
    (sha256 : List UInt8 → String) (node : SnapshotFollower models) (req : InstallRequest)
    (now : ℕ) (disk : DiskOutcome) (env : ℕ → ℕ → Environment) :
    InstalledExactly serde codec sha256 node req now disk env ↔
      ∀ manager stored data, node.manager = some manager →
        manager.installSnapshot codec (req.snapshotMeta now) req.body disk = (stored, .ok data) →
          Replaceable serde node data (req.lastIncludedIndex.getD 0) := by
  refine forall₅_congr fun manager stored data hmanager hinstall ↦ ?_
  rw [← restored_iff_replaceable node data (req.lastIncludedIndex.getD 0) env]
  unfold handleInstallSnapshot
  simp only [hmanager, hinstall]
  rfl

/-! ### An item that the leader has deleted -/

section DeletedShelf

/-- The text of the list with the shelf `a`. -/
def shelfListText : String := "[\x7b\"id\":\"a\"\x7d]"

/-- The snapshot of a leader that has the shelf `a`. -/
def shelfSnapshot : SnapshotData := ⟨[("/api/shelves", shelfListText)]⟩

/-- A codec for `shelfSnapshot` alone. -/
def shelfCodec : SnapshotCodec where
  toBytes := fun data ↦ if data = shelfSnapshot then .ok [7] else .error "unknown snapshot"
  fromBytes := fun bytes ↦ if bytes = [7] then .ok shelfSnapshot else .error "invalid bytes"
  fromBytes_toBytes := by
    intro data bytes h
    split_ifs at h with hdata
    obtain rfl := Except.ok.inj h
    rw [hdata]
    rfl

/-- Serialisation that knows the text of the list. -/
def shelfSerde : Serde where
  jsonText := fun _ ↦ shelfListText
  parseJson := fun text ↦
    if text = shelfListText then some (.array [.object [("id", .string "a")]]) else none
  versionValue := fun _ ↦ .null
  versionOfValue := fun _ ↦ none
  changeValue := fun _ ↦ .null
  changeOfValue := fun _ ↦ none
  uuidText := fun _ ↦ ""
  parseUuid := fun _ ↦ none

/-- A follower that still has the shelf `b`, which the leader has deleted. -/
def staleFollower : SnapshotFollower shelves where
  manager := some ⟨⟨∅, ∅, none⟩, none⟩
  states := fun
    | ⟨0, _⟩ => (⟨(∅ : Storage Shelf).insert "b" .b, ⟨[], none, true⟩⟩ : HandlerState Shelf)
  log := .new

/-- The request that sends the snapshot, up to entry 3. -/
def shelfRequest : InstallRequest where
  term := some 1
  lastIncludedIndex := some 3
  checksum := some (Framing.fnv1aHash [7])
  sizeBytes := some 1
  body := [7]

/-- The follower accepts the snapshot and keeps the deleted shelf. -/
theorem install_keeps_deleted_shelf :
    ¬ ∃ sha256 : List UInt8 → String,
      InstalledExactly shelfSerde shelfCodec sha256 staleFollower shelfRequest 0 .written
        fun _ _ ↦ quietEnvironment := by
  rintro ⟨sha256, h⟩
  have hreplaceable : Replaceable shelfSerde staleFollower shelfSnapshot 3 :=
    (restored_iff_replaceable _ _ _ _).mp (h _ _ shelfSnapshot rfl rfl)
  have hstored : "b" ∈ (∅ : Storage Shelf).insert "b" .b := Finmap.mem_insert.mpr (Or.inl rfl)
  have hcovered : "b" ∈ [Shelf.a].map Shelf.exposed.actualKey :=
    hreplaceable.covers _ List.mem_cons_self ⟨0, Nat.one_pos⟩ [Shelf.a] ⟨rfl, _, rfl, rfl⟩ "b"
      hstored
  exact absurd hcovered (by decide)

end DeletedShelf

end Lithair.App
