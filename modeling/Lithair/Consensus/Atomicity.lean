import Lithair.Consensus.Replication

/-!
# What a failed write leaves behind

The write requests of `http/declarative.rs` with the peers that their proposals reach. Each handler
proposes, changes the storage and then persists the event, and where a later step fails it undoes
none of the earlier ones; a create in bulk goes through its items one after the other.

`atomic_iff` says which requests that are not answered with success leave the storage, the event log
and the storages of the peers as they were: those that fail before the proposal is accepted, and
those whose write would be without effect.
-/

namespace Lithair.Consensus

open Lithair.App Lithair.Engine Lithair.Http Lithair.Http.Declarative Lithair.Lib

/-- The handler of a model on its node, and the models of the peers. -/
structure Site (T : Type) (models : List ModelRegistration) (peers : ℕ) where
  handler : HandlerState T
  nodes : Peers models peers

section Handlers

variable {T : Type} {models : List ModelRegistration} {peers : ℕ} (M : HttpExposable T)
  (sha256 : List UInt8 → String) (coordinator : Coordinator models)

/-! ### The handlers with their peers -/

def create (config : HandlerConfig) (s : Site T models peers) (req : WriteRequest)
    (env : ProposalEnvironment peers) : Site T models peers × Response T :=
  let (handler, response) := handleCreate M sha256 config s.handler req env.toEnvironment
  let nodes := proposeChecked M sha256 coordinator config s.nodes (prepare M config req)
    (fun item ↦ .create item (M.getPrimaryKey item)) env
  (⟨handler, nodes⟩, response)

/-- An update is proposed whether or not there is an item to update. -/
def update (config : HandlerConfig) (s : Site T models peers) (id : String) (req : WriteRequest)
    (env : ProposalEnvironment peers) : Site T models peers × Response T :=
  let (handler, response) := handleUpdate M sha256 config s.handler id req env.toEnvironment
  let nodes := proposeChecked M sha256 coordinator config s.nodes (prepare M config req)
    (fun item ↦ .update item id) env
  (⟨handler, nodes⟩, response)

/-- So is a delete. -/
def delete (config : HandlerConfig) (s : Site T models peers) (id : String) (req : WriteRequest)
    (env : ProposalEnvironment peers) : Site T models peers × Response T :=
  let (handler, response) := handleDelete M sha256 config s.handler id req env.toEnvironment
  let nodes := proposeChecked M sha256 coordinator config s.nodes
    (authorizeDelete M config s.handler.storage id req) (fun _ ↦ .delete id) env
  (⟨handler, nodes⟩, response)

/-- Create one item of a list. -/
def createItem (config : BulkConfig T) (s : Site T models peers) (item : T)
    (env : ProposalEnvironment peers) : Site T models peers × Except (Response T) T :=
  let (handler, outcome) :=
    Declarative.createItem M sha256 config s.handler item env.toEnvironment
  let nodes := proposeChecked M sha256 coordinator (itemConfig config) s.nodes (admitItem M item)
    (fun stored ↦ .create stored (M.getPrimaryKey stored)) env
  (⟨handler, nodes⟩, outcome)

def createEach (config : BulkConfig T) (s : Site T models peers) :
    List T → (ℕ → ProposalEnvironment peers) → Site T models peers × Except (Response T) (List T)
  | [], _ => (s, .ok [])
  | item :: rest, env =>
    match createItem M sha256 coordinator config s item (env 0) with
    | (s, .error response) => (s, .error response)
    | (s, .ok item) =>
      match createEach config s rest fun n ↦ env (n + 1) with
      | (s, .error response) => (s, .error response)
      | (s, .ok created) => (s, .ok (item :: created))

def bulkCreate (config : BulkConfig T) (s : Site T models peers) (req : WriteRequest)
    (env : ℕ → ProposalEnvironment peers) : Site T models peers × Except (Response T) (List T) :=
  match parseItems config req with
  | .error response => (s, .error response)
  | .ok items => createEach M sha256 coordinator config s items env

/-- Handle a write request. A create in bulk takes an environment for each of its items, and the
others take the first. -/
def handle (config : BulkConfig T) (s : Site T models peers) (call : WriteCall)
    (env : ℕ → ProposalEnvironment peers) : Site T models peers × WriteAnswer T :=
  match call with
  | .create req =>
    let (next, response) := create M sha256 coordinator config.toHandlerConfig s req (env 0)
    (next, .single response)
  | .bulkCreate req =>
    let (next, answer) := bulkCreate M sha256 coordinator config s req env
    (next, .bulk answer)
  | .update id req =>
    let (next, response) := update M sha256 coordinator config.toHandlerConfig s id req (env 0)
    (next, .single response)
  | .delete id req =>
    let (next, response) := delete M sha256 coordinator config.toHandlerConfig s id req (env 0)
    (next, .single response)

/-! ### What is meant to hold -/

/-- The storage and the event log of the handler, and the storages of the peers, are the same. -/
def Unchanged (s next : Site T models peers) : Prop :=
  next.handler = s.handler ∧ SamePeers s.nodes next.nodes

/-- A request that is not answered with success changes nothing. -/
def Atomic (config : BulkConfig T) (s : Site T models peers) (call : WriteCall)
    (env : ℕ → ProposalEnvironment peers) : Prop :=
  (handle M sha256 coordinator config s call env).2.isSuccess = false →
    Unchanged s (handle M sha256 coordinator config s call env).1

/-- Storing the item under the key and logging it is without effect, and so is proposing it. -/
def WithoutEffect (config : HandlerConfig) (s : Site T models peers) (key : String) (item : T)
    (operation : CrudOperation T) (env : ProposalEnvironment peers) : Prop :=
  AlreadyThere M s.handler key item env.toEnvironment ∧
    PeersHaveIt M coordinator config s.nodes operation env

/-- A request that is accepted does not fail, or is without effect. A list does not fail, or its
first item is without effect. -/
def FailsInTime (config : BulkConfig T) (s : Site T models peers) (call : WriteCall)
    (env : ℕ → ProposalEnvironment peers) : Prop :=
  match call with
  | .create req =>
    ∀ item, Accepted M config.toHandlerConfig req (env 0).toEnvironment item →
      Persisted M item (env 0).toEnvironment ∨
        WithoutEffect M coordinator config.toHandlerConfig s
          (createKey M config.toHandlerConfig item) item (.create item (M.getPrimaryKey item))
          (env 0)
  | .bulkCreate req =>
    ∀ items, parseItems config req = .ok items →
      (∀ k item, items[k]? = some item → ∃ stored,
        ItemAccepted M config item (env k).toEnvironment stored ∧
          Persisted M stored (env k).toEnvironment) ∨
      ∀ first ∈ items.head?, ∀ stored, ItemAccepted M config first (env 0).toEnvironment stored →
        WithoutEffect M coordinator (itemConfig config) s (createKey M (itemConfig config) stored)
          stored (.create stored (M.getPrimaryKey stored)) (env 0)
  | .update id req =>
    ∀ item, Accepted M config.toHandlerConfig req (env 0).toEnvironment item →
      (id ∈ s.handler.storage → Persisted M item (env 0).toEnvironment ∨
        WithoutEffect M coordinator config.toHandlerConfig s id item (.update item id) (env 0)) ∧
      (id ∉ s.handler.storage →
        PeersHaveIt M coordinator config.toHandlerConfig s.nodes (.update item id) (env 0))
  | .delete id req =>
    authorizeDelete M config.toHandlerConfig s.handler.storage id req = .ok () →
      Proposed config.toHandlerConfig (env 0).toEnvironment →
        (∀ item, s.handler.storage.lookup id = some item →
          Persisted M item (env 0).toEnvironment) ∧
        (id ∉ s.handler.storage →
          PeersHaveIt M coordinator config.toHandlerConfig s.nodes (.delete id) (env 0))

end Handlers

section Proofs

variable {T : Type} {models : List ModelRegistration} {peers : ℕ} {M : HttpExposable T}
  {sha256 : List UInt8 → String} {coordinator : Coordinator models}

/-- The node and the peers, for each item that passes its checks and is proposed. -/
theorem forall_accepted_iff {checked P Q : T → Prop} {proposed : Prop} :
    ((∀ item, checked item ∧ proposed → P item) ∧ ∀ item, checked item → proposed → Q item) ↔
      ∀ item, checked item ∧ proposed → P item ∧ Q item := by
  constructor
  · exact fun h item haccepted ↦ ⟨h.1 item haccepted, h.2 item haccepted.1 haccepted.2⟩
  · exact fun h ↦ ⟨fun item haccepted ↦ (h item haccepted).1,
      fun item hchecked hproposed ↦ (h item ⟨hchecked, hproposed⟩).2⟩

/-! ### Single writes -/

section Single

variable {config : HandlerConfig} {s : Site T models peers} {req : WriteRequest}
  {env : ProposalEnvironment peers} {id : String}

theorem unchanged_create_iff :
    Unchanged s (create M sha256 coordinator config s req env).1 ↔
      ∀ item, Accepted M config req env.toEnvironment item →
        WithoutEffect M coordinator config s (createKey M config item) item
          (.create item (M.getPrimaryKey item)) env := by
  unfold Unchanged create WithoutEffect
  dsimp only
  rw [handleCreate_eq_self_iff, samePeers_proposeChecked_iff]
  exact forall_accepted_iff

theorem unchanged_update_iff :
    Unchanged s (update M sha256 coordinator config s id req env).1 ↔
      ∀ item, Accepted M config req env.toEnvironment item →
        (id ∈ s.handler.storage → AlreadyThere M s.handler id item env.toEnvironment) ∧
          PeersHaveIt M coordinator config s.nodes (.update item id) env := by
  unfold Unchanged update
  dsimp only
  rw [handleUpdate_eq_self_iff, samePeers_proposeChecked_iff]
  exact forall_accepted_iff

theorem unchanged_delete_iff :
    Unchanged s (delete M sha256 coordinator config s id req env).1 ↔
      (authorizeDelete M config s.handler.storage id req = .ok () →
        Proposed config env.toEnvironment →
          id ∉ s.handler.storage ∧ PeersHaveIt M coordinator config s.nodes (.delete id) env) := by
  unfold Unchanged delete
  dsimp only
  rw [handleDelete_eq_self_iff, samePeers_proposeChecked_iff]
  constructor
  · intro h hauthorize hproposed
    refine ⟨fun hid ↦ ?_, h.2 () hauthorize hproposed⟩
    obtain ⟨item, hitem⟩ := Option.isSome_iff_exists.mp (Finmap.lookup_isSome.mpr hid)
    rw [authorizeDelete, hitem] at hauthorize
    exact h.1 item ⟨hitem, hauthorize, hproposed⟩
  · intro h
    refine ⟨fun item hremoves ↦ ?_, fun _ hauthorize hproposed ↦ (h hauthorize hproposed).2⟩
    obtain ⟨hitem, hauthorize, hproposed⟩ := hremoves
    have hchecked : authorizeDelete M config s.handler.storage id req = .ok () := by
      rw [authorizeDelete, hitem]
      exact hauthorize
    exact (h hchecked hproposed).1 (Finmap.mem_of_lookup_eq_some hitem)

end Single

/-! ### Writes in bulk -/

section Bulk

variable {config : BulkConfig T} {s : Site T models peers} {req : WriteRequest}

theorem unchanged_createItem_iff {item : T} {env : ProposalEnvironment peers} :
    Unchanged s (createItem M sha256 coordinator config s item env).1 ↔
      ∀ stored, ItemAccepted M config item env.toEnvironment stored →
        WithoutEffect M coordinator (itemConfig config) s (createKey M (itemConfig config) stored)
          stored (.create stored (M.getPrimaryKey stored)) env := by
  unfold Unchanged createItem WithoutEffect
  dsimp only
  rw [createItem_eq_self_iff, samePeers_proposeChecked_iff]
  exact forall_accepted_iff

/-- What becomes of the handler, and the answer, do not depend on the peers. -/
theorem createEach_eq {items : List T} {env : ℕ → ProposalEnvironment peers} :
    ((createEach M sha256 coordinator config s items env).1.handler,
      (createEach M sha256 coordinator config s items env).2) =
        Declarative.createEach M sha256 config s.handler items fun n ↦ (env n).toEnvironment := by
  induction items generalizing s env with
  | nil => rfl
  | cons item rest ih =>
    rw [createEach, Declarative.createEach]
    have hitem : ((createItem M sha256 coordinator config s item (env 0)).1.handler,
        (createItem M sha256 coordinator config s item (env 0)).2) =
        Declarative.createItem M sha256 config s.handler item (env 0).toEnvironment := rfl
    rw [← hitem]
    generalize createItem M sha256 coordinator config s item (env 0) = result
    obtain ⟨next, outcome⟩ := result
    cases outcome with
    | error response => rfl
    | ok stored =>
      dsimp only
      rw [← ih]
      generalize createEach M sha256 coordinator config next rest (fun n ↦ env (n + 1)) = result
      obtain ⟨last, outcome⟩ := result
      cases outcome <;> rfl

theorem unchanged_createEach_iff {items : List T} {env : ℕ → ProposalEnvironment peers} :
    Unchanged s (createEach M sha256 coordinator config s items env).1 ↔
      ∀ first ∈ items.head?, ∀ stored, ItemAccepted M config first (env 0).toEnvironment stored →
        WithoutEffect M coordinator (itemConfig config) s (createKey M (itemConfig config) stored)
          stored (.create stored (M.getPrimaryKey stored)) (env 0) := by
  cases items with
  | nil => exact iff_of_true ⟨rfl, samePeers_refl⟩ fun first hfirst ↦ by simp at hfirst
  | cons item rest =>
    simp only [List.head?_cons, Option.mem_def, Option.some.injEq, forall_eq']
    cases hitem : (createItem M sha256 coordinator config s item (env 0)).2 with
    | error response =>
      have hsame : Unchanged s (createItem M sha256 coordinator config s item (env 0)).1 ↔ _ :=
        unchanged_createItem_iff
      rw [← hsame, createEach]
      generalize createItem M sha256 coordinator config s item (env 0) = result at hitem ⊢
      obtain ⟨next, outcome⟩ := result
      subst hitem
      exact Iff.rfl
    | ok stored =>
      -- An item that is created has an event, so that the list changes the handler.
      obtain ⟨haccepted, hpersisted⟩ := createItem_ok_iff.mp hitem
      refine iff_of_false (fun h ↦ ?_) fun hall ↦
        (hall stored haccepted).1.2 hpersisted.logged
      have hself := (congrArg Prod.fst createEach_eq).symm.trans h.1
      exact (createEach_eq_self_iff.mp hself item rfl stored haccepted).2 hpersisted.logged

theorem bulkCreate_eq {env : ℕ → ProposalEnvironment peers} :
    (bulkCreate M sha256 coordinator config s req env).2 =
      (handleBulkCreate M sha256 config s.handler req fun n ↦ (env n).toEnvironment).2 := by
  unfold bulkCreate handleBulkCreate
  cases parseItems config req with
  | error response => rfl
  | ok items => exact congrArg Prod.snd createEach_eq

theorem unchanged_bulkCreate_iff {env : ℕ → ProposalEnvironment peers} :
    Unchanged s (bulkCreate M sha256 coordinator config s req env).1 ↔
      ∀ items, parseItems config req = .ok items → ∀ first ∈ items.head?, ∀ stored,
        ItemAccepted M config first (env 0).toEnvironment stored →
          WithoutEffect M coordinator (itemConfig config) s (createKey M (itemConfig config) stored)
            stored (.create stored (M.getPrimaryKey stored)) (env 0) := by
  unfold bulkCreate
  cases parseItems config req with
  | error response =>
    exact iff_of_true ⟨rfl, samePeers_refl⟩ fun items hitems ↦ absurd hitems (by simp)
  | ok items =>
    simp only [Except.ok.injEq, forall_eq']
    exact unchanged_createEach_iff

end Bulk

/-! ### Each kind of request -/

section Calls

variable {config : BulkConfig T} {s : Site T models peers} {req : WriteRequest} {id : String}
  {env : ℕ → ProposalEnvironment peers}

theorem atomic_create_iff :
    Atomic M sha256 coordinator config s (.create req) env ↔
      FailsInTime M coordinator config s (.create req) env := by
  change ((handleCreate M sha256 config.toHandlerConfig s.handler req
    (env 0).toEnvironment).2.isSuccess = false →
      Unchanged s (create M sha256 coordinator config.toHandlerConfig s req (env 0)).1) ↔ _
  rw [← Bool.not_eq_true, handleCreate_isSuccess_iff, unchanged_create_iff]
  constructor
  · intro h item haccepted
    by_cases hpersisted : Persisted M item (env 0).toEnvironment
    · exact .inl hpersisted
    · refine .inr (h ?_ item haccepted)
      rintro ⟨other, hother, hlogged⟩
      exact hpersisted (haccepted.unique hother ▸ hlogged)
  · intro h hfails item haccepted
    exact (h item haccepted).resolve_left fun hpersisted ↦ hfails ⟨item, haccepted, hpersisted⟩

theorem atomic_bulkCreate_iff :
    Atomic M sha256 coordinator config s (.bulkCreate req) env ↔
      FailsInTime M coordinator config s (.bulkCreate req) env := by
  change ((WriteAnswer.bulk
    (bulkCreate M sha256 coordinator config s req env).2).isSuccess = false →
      Unchanged s (bulkCreate M sha256 coordinator config s req env).1) ↔ _
  rw [← Bool.not_eq_true, WriteAnswer.isSuccess_bulk_iff, bulkCreate_eq, handleBulkCreate_ok_iff,
    unchanged_bulkCreate_iff]
  unfold FailsInTime
  cases hitems : parseItems config req with
  | error response => simp [hitems]
  | ok items =>
    simp only [hitems, Except.ok.injEq, forall_eq', exists_eq_left']
    exact or_iff_not_imp_left.symm

theorem atomic_update_iff :
    Atomic M sha256 coordinator config s (.update id req) env ↔
      FailsInTime M coordinator config s (.update id req) env := by
  change ((handleUpdate M sha256 config.toHandlerConfig s.handler id req
    (env 0).toEnvironment).2.isSuccess = false →
      Unchanged s (update M sha256 coordinator config.toHandlerConfig s id req (env 0)).1) ↔ _
  rw [← Bool.not_eq_true, handleUpdate_isSuccess_iff, unchanged_update_iff]
  constructor
  · intro h item haccepted
    constructor
    · intro hid
      by_cases hpersisted : Persisted M item (env 0).toEnvironment
      · exact .inl hpersisted
      · have hfails : ¬ ∃ other,
            Accepted M config.toHandlerConfig req (env 0).toEnvironment other ∧
              id ∈ s.handler.storage ∧ Persisted M other (env 0).toEnvironment := by
          rintro ⟨other, hother, -, hlogged⟩
          exact hpersisted (haccepted.unique hother ▸ hlogged)
        exact .inr ⟨(h hfails item haccepted).1 hid, (h hfails item haccepted).2⟩
    · intro hid
      exact (h (fun ⟨_, _, hmem, _⟩ ↦ hid hmem) item haccepted).2
  · intro h hfails item haccepted
    by_cases hid : id ∈ s.handler.storage
    · have hwithout := ((h item haccepted).1 hid).resolve_left fun hpersisted ↦
        hfails ⟨item, haccepted, hid, hpersisted⟩
      exact ⟨fun _ ↦ hwithout.1, hwithout.2⟩
    · exact ⟨fun hmem ↦ absurd hmem hid, (h item haccepted).2 hid⟩

theorem atomic_delete_iff :
    Atomic M sha256 coordinator config s (.delete id req) env ↔
      FailsInTime M coordinator config s (.delete id req) env := by
  change ((handleDelete M sha256 config.toHandlerConfig s.handler id req
    (env 0).toEnvironment).2.isSuccess = false →
      Unchanged s (delete M sha256 coordinator config.toHandlerConfig s id req (env 0)).1) ↔ _
  rw [← Bool.not_eq_true, handleDelete_isSuccess_iff, unchanged_delete_iff]
  constructor
  · intro h hauthorize hproposed
    refine ⟨fun item hitem ↦ ?_, fun hid ↦ (h ?_ hauthorize hproposed).2⟩
    · by_contra hpersisted
      refine (h ?_ hauthorize hproposed).1 (Finmap.mem_of_lookup_eq_some hitem)
      rintro ⟨other, hremoves, hlogged⟩
      obtain rfl := Option.some.inj (hremoves.1.symm.trans hitem)
      exact hpersisted hlogged
    · rintro ⟨other, hremoves, -⟩
      exact hid (Finmap.mem_of_lookup_eq_some hremoves.1)
  · intro h hfails hauthorize hproposed
    obtain ⟨hlogs, hpeers⟩ := h hauthorize hproposed
    have hid : id ∉ s.handler.storage := by
      intro hmem
      obtain ⟨item, hitem⟩ := Option.isSome_iff_exists.mp (Finmap.lookup_isSome.mpr hmem)
      rw [authorizeDelete, hitem] at hauthorize
      exact hfails ⟨item, ⟨hitem, hauthorize, hproposed⟩, hlogs item hitem⟩
    exact ⟨hid, hpeers hid⟩

end Calls

end Proofs

/-! ### Every request -/

/-- A request that fails leaves the storage, the event log and the storages of the peers as they
were exactly when it fails before it is accepted, or is without effect. -/
theorem atomic_iff {T : Type} {models : List ModelRegistration} {peers : ℕ} (M : HttpExposable T)
    (sha256 : List UInt8 → String) (coordinator : Coordinator models) (config : BulkConfig T)
    (s : Site T models peers) (call : WriteCall) (env : ℕ → ProposalEnvironment peers) :
    Atomic M sha256 coordinator config s call env ↔
      FailsInTime M coordinator config s call env := by
  cases call with
  | create req => exact atomic_create_iff
  | bulkCreate req => exact atomic_bulkCreate_iff
  | update id req => exact atomic_update_iff
  | delete id req => exact atomic_delete_iff

/-! ### Writes that stay -/

/-- The text of the list of both shelves. -/
def bothShelves : String := "[" ++ Shelf.a.text ++ "," ++ Shelf.b.text ++ "]"

/-- A handler open to everyone, which reads the list of both shelves. -/
def openBulkConfig (consensus : Bool) : BulkConfig Shelf where
  toHandlerConfig := { openConfig with consensus }
  maxBodyBytesBulk := 8388608
  disableConsensus := false
  listFromSlice := fun bytes ↦ if bytes = asBytes bothShelves then some [.a, .b] else none

def createShelves : WriteRequest := ⟨true, some 23, some (asBytes bothShelves), [], none⟩

/-- A node and a peer without shelves. -/
def emptySite : Site Shelf shelves 1 := ⟨emptyHandler true, fun _ ↦ noShelves⟩

def shelfCoordinator : Coordinator shelves := ⟨"shelf", 1, fun _ ↦ "shelf"⟩

/-- Everything succeeds, and the peer is reached. -/
def reachedEnvironment : ProposalEnvironment 1 where
  toEnvironment := quietEnvironment
  timestamp := 0
  reached := fun _ ↦ some fun _ ↦ quietEnvironment

/-- The event is not written. -/
def lostEnvironment : ProposalEnvironment 1 :=
  { reachedEnvironment with append := .lost }

/-- A shelf whose event is lost is stored, the update of a shelf that is not there is stored at the
peer, and of a list whose second shelf fails the first is stored. None is answered with success. -/
theorem failed_writes_stay :
    ¬ Atomic Shelf.exposed (fun _ ↦ "") shelfCoordinator (openBulkConfig false) emptySite
        (.create createShelf) (fun _ ↦ lostEnvironment) ∧
      ¬ Atomic Shelf.exposed (fun _ ↦ "") shelfCoordinator (openBulkConfig true) emptySite
        (.update "a" createShelf) (fun _ ↦ reachedEnvironment) ∧
      ¬ Atomic Shelf.exposed (fun _ ↦ "") shelfCoordinator (openBulkConfig false) emptySite
        (.bulkCreate createShelves)
        (fun k ↦ if k = 0 then reachedEnvironment else lostEnvironment) := by
  refine ⟨fun h ↦ ?_, fun h ↦ ?_, fun h ↦ ?_⟩
  · have hhandler := (h (by decide)).1
    exact absurd (congrArg (fun handler ↦ handler.storage.lookup "a") hhandler) (by decide)
  · have hpeer := (h (by decide)).2 0 ⟨0, Nat.one_pos⟩
    exact absurd (congrArg (fun storage : Storage Shelf ↦ storage.lookup "a") hpeer) (by decide)
  · have hhandler := (h (by decide)).1
    exact absurd (congrArg (fun handler ↦ handler.storage.lookup "a") hhandler) (by decide)

end Lithair.Consensus
