import Lithair.Http.ClientWrites

/-!
# Who may change what

The permissions of a caller in the four write requests of `http/declarative.rs`, and the changes
that each request broadcasts. A create and an update are checked against the item that the caller
sends, a delete against the one that is stored, and a create in bulk against nothing.

`respectsPermissions_iff` says when a request whose caller may not write what is sent, or what is
stored in its place, changes nothing: no create or update overwrites an item that its caller may not
write, and no list has such an item or overwrites one.
-/

namespace Lithair.Http

open Lithair.Engine Lithair.Lib

namespace Declarative

variable {T : Type*} (M : HttpExposable T) (sha256 : List UInt8 → String) (config : BulkConfig T)
  (sseEnabled : Bool) (s : HandlerState T) (call : WriteCall) (env : ℕ → Environment)

/-! ### The stream of changes -/

def broadcastSse (operation : String) (item : T) : List (String × Json) :=
  if sseEnabled then
    match M.toValue item with
    | some data => [(operation, data)]
    | none => []
  else []

/-- The changes that a request sends to the stream. -/
def broadcasts : List (String × Json) :=
  match call with
  | .create req =>
    match (handleCreate M sha256 config.toHandlerConfig s req (env 0)).2 with
    | .created item => broadcastSse M sseEnabled "create" item
    | _ => []
  | .bulkCreate _ => []
  | .update id req =>
    match (handleUpdate M sha256 config.toHandlerConfig s id req (env 0)).2 with
    | .updated item => broadcastSse M sseEnabled "update" item
    | _ => []
  | .delete id req =>
    match (handleDelete M sha256 config.toHandlerConfig s id req (env 0)).2,
      s.storage.lookup id with
    | .noContent, some item => broadcastSse M sseEnabled "delete" item
    | _, _ => []

/-! ### What is meant to hold -/

/-- The caller may do the operation (`Write` or `Delete`) on the item. -/
def MayDo (req : WriteRequest) (operation : String) (item : T) : Prop :=
  authorize M config.toHandlerConfig req item operation = .ok ()

/-- The caller may write what is stored under the key, if anything is. -/
def MayOverwrite (req : WriteRequest) (key : String) : Prop :=
  ∀ stored, s.storage.lookup key = some stored → MayDo M config req "Write" stored

/-- The caller may write the item, and what is stored under the key that it goes to. -/
def MayCreate (itemConfig : HandlerConfig) (req : WriteRequest) (item : T) : Prop :=
  MayDo M config req "Write" item ∧
    ∀ stored, admitItem M item = .ok stored →
      MayOverwrite M config s req (createKey M itemConfig stored)

/-- The caller may write every item that is sent and what is stored in its place. -/
def Authorised : Prop :=
  match call with
  | .create req =>
    ∀ item, parseBody M config.toHandlerConfig req = .ok item →
      MayCreate M config s config.toHandlerConfig req item
  | .bulkCreate req =>
    ∀ items, parseItems config req = .ok items → ∀ item ∈ items,
      MayCreate M config s (itemConfig config) req item
  | .update id req =>
    ∀ item, parseBody M config.toHandlerConfig req = .ok item →
      MayDo M config req "Write" item ∧ MayOverwrite M config s req id
  | .delete id req =>
    ∀ stored, s.storage.lookup id = some stored → MayDo M config req "Delete" stored

/-- The storage changes only at the hands of a caller who is authorised, and the request of another
leaves the storage, the log and the stream as they are. -/
def RespectsPermissions : Prop :=
  ((handleWrite M sha256 config s call env).1.storage ≠ s.storage → Authorised M config s call) ∧
    (¬ Authorised M config s call →
      (handleWrite M sha256 config s call env).1 = s ∧
        broadcasts M sha256 config sseEnabled s call env = [])

/-- No item is overwritten that the caller may not write, unless by itself and without an event. The
caller may write all items of a list and those that they overwrite, or the first one is without
effect. -/
def OverwritesOwn : Prop :=
  match call with
  | .create req =>
    ∀ item, Accepted M config.toHandlerConfig req (env 0) item →
      MayOverwrite M config s req (createKey M config.toHandlerConfig item) ∨
        AlreadyThere M s (createKey M config.toHandlerConfig item) item (env 0)
  | .bulkCreate req =>
    ∀ items, parseItems config req = .ok items →
      (∀ item ∈ items, MayCreate M config s (itemConfig config) req item) ∨
        ∀ first ∈ items.head?, ∀ stored, ItemAccepted M config first (env 0) stored →
          AlreadyThere M s (createKey M (itemConfig config) stored) stored (env 0)
  | .update id req =>
    ∀ item, Accepted M config.toHandlerConfig req (env 0) item → id ∈ s.storage →
      MayOverwrite M config s req id ∨ AlreadyThere M s id item (env 0)
  | .delete _ _ => True

variable {M sha256 config sseEnabled s call env} {req : WriteRequest} {id : String} {item : T}

/-! ### The checks -/

/-- The item that a create or an update prepares is one that the caller may write. -/
theorem prepare_ok_iff {stored : T} :
    prepare M config.toHandlerConfig req = .ok stored ↔
      ∃ item, parseBody M config.toHandlerConfig req = .ok item ∧ MayDo M config req "Write" item ∧
        admitItem M item = .ok stored := by
  unfold prepare MayDo
  cases parseBody M config.toHandlerConfig req with
  | error response => simp
  | ok item =>
    cases hauthorize : authorize M config.toHandlerConfig req item "Write" with
    | error response => simp [hauthorize]
    | ok =>
      simp only [Except.ok.injEq, exists_eq_left', hauthorize, true_and]
      exact Iff.rfl

/-- A request that leaves the handler as it is broadcasts nothing: what is broadcast is in the
log. -/
theorem broadcasts_of_eq_self (h : (handleWrite M sha256 config s call env).1 = s) :
    broadcasts M sha256 config sseEnabled s call env = [] := by
  cases call with
  | create req =>
    have hself := handleCreate_eq_self_iff.mp h
    have hfail :
        (handleCreate M sha256 config.toHandlerConfig s req (env 0)).2.isSuccess ≠ true := by
      intro hsuccess
      obtain ⟨item, haccepted, hpersisted⟩ := handleCreate_isSuccess_iff.mp hsuccess
      exact (hself item haccepted).2 hpersisted.logged
    unfold broadcasts
    dsimp only
    split
    · next hcreated => exact absurd (hcreated ▸ rfl) hfail
    · rfl
  | bulkCreate req => rfl
  | update id req =>
    have hself := handleUpdate_eq_self_iff.mp h
    have hfail :
        (handleUpdate M sha256 config.toHandlerConfig s id req (env 0)).2.isSuccess ≠ true := by
      intro hsuccess
      obtain ⟨item, haccepted, hid, hpersisted⟩ := handleUpdate_isSuccess_iff.mp hsuccess
      exact (hself item haccepted hid).2 hpersisted.logged
    unfold broadcasts
    dsimp only
    split
    · next hupdated => exact absurd (hupdated ▸ rfl) hfail
    · rfl
  | delete id req =>
    have hself := handleDelete_eq_self_iff.mp h
    have hfail :
        (handleDelete M sha256 config.toHandlerConfig s id req (env 0)).2.isSuccess ≠ true := by
      intro hsuccess
      obtain ⟨item, hremoves, -⟩ := handleDelete_isSuccess_iff.mp hsuccess
      exact hself item hremoves
    unfold broadcasts
    dsimp only
    split
    · next hdeleted _ => exact absurd (hdeleted ▸ rfl) hfail
    · rfl

/-- It is enough to look at the handler. -/
theorem respectsPermissions_iff_eq_self :
    RespectsPermissions M sha256 config sseEnabled s call env ↔
      (¬ Authorised M config s call → (handleWrite M sha256 config s call env).1 = s) := by
  constructor
  · exact fun h hauthorised ↦ (h.2 hauthorised).1
  · intro h
    refine ⟨fun hstorage ↦ ?_, fun hauthorised ↦ ?_⟩
    · by_contra hauthorised
      exact hstorage (congrArg HandlerState.storage (h hauthorised))
    · exact ⟨h hauthorised, broadcasts_of_eq_self (h hauthorised)⟩

/-- What is left to check of a create that is accepted is the item that it overwrites. -/
theorem authorised_create_iff (h : Accepted M config.toHandlerConfig req (env 0) item) :
    Authorised M config s (.create req) ↔
      MayOverwrite M config s req (createKey M config.toHandlerConfig item) := by
  obtain ⟨sent, hparse, hmay, hvalid⟩ := prepare_ok_iff.mp h.1
  constructor
  · exact fun hauthorised ↦ (hauthorised sent hparse).2 item hvalid
  · intro hown other hother
    obtain rfl := Except.ok.inj (hother.symm.trans hparse)
    refine ⟨hmay, fun stored hstored ↦ ?_⟩
    obtain rfl := Except.ok.inj (hstored.symm.trans hvalid)
    exact hown

theorem authorised_update_iff (h : Accepted M config.toHandlerConfig req (env 0) item) :
    Authorised M config s (.update id req) ↔ MayOverwrite M config s req id := by
  obtain ⟨sent, hparse, hmay, -⟩ := prepare_ok_iff.mp h.1
  constructor
  · exact fun hauthorised ↦ (hauthorised sent hparse).2
  · intro hown other hother
    obtain rfl := Except.ok.inj (hother.symm.trans hparse)
    exact ⟨hmay, hown⟩

/-- What a delete removes, its caller may delete. -/
theorem authorised_of_removes (h : Removes M config.toHandlerConfig s id req (env 0) item) :
    Authorised M config s (.delete id req) := by
  intro stored hstored
  obtain rfl := Option.some.inj (hstored.symm.trans h.1)
  exact h.2.1

/-! ### Every request -/

/-- A request whose caller may not write what is sent or what is stored in its place changes
nothing, exactly when it overwrites no item that the caller may not write. -/
theorem respectsPermissions_iff {T : Type*} (M : HttpExposable T) (sha256 : List UInt8 → String)
    (config : BulkConfig T) (sseEnabled : Bool) (s : HandlerState T) (call : WriteCall)
    (env : ℕ → Environment) :
    RespectsPermissions M sha256 config sseEnabled s call env ↔
      OverwritesOwn M config s call env := by
  rw [respectsPermissions_iff_eq_self]
  cases call with
  | create req =>
    change (¬ Authorised M config s (.create req) →
      (handleCreate M sha256 config.toHandlerConfig s req (env 0)).1 = s) ↔ _
    rw [handleCreate_eq_self_iff]
    constructor
    · intro h item haccepted
      rw [← authorised_create_iff haccepted, or_iff_not_imp_left]
      exact fun hauthorised ↦ h hauthorised item haccepted
    · intro h hauthorised item haccepted
      exact (h item haccepted).resolve_left fun hown ↦
        hauthorised ((authorised_create_iff haccepted).mpr hown)
  | bulkCreate req =>
    change (¬ Authorised M config s (.bulkCreate req) →
      (handleBulkCreate M sha256 config s req env).1 = s) ↔ _
    rw [handleBulkCreate_eq_self_iff]
    unfold Authorised OverwritesOwn
    cases hitems : parseItems config req with
    | error response => simp [hitems]
    | ok items =>
      simp only [hitems, Except.ok.injEq, forall_eq']
      exact or_iff_not_imp_left.symm
  | update id req =>
    change (¬ Authorised M config s (.update id req) →
      (handleUpdate M sha256 config.toHandlerConfig s id req (env 0)).1 = s) ↔ _
    rw [handleUpdate_eq_self_iff]
    constructor
    · intro h item haccepted hid
      rw [← authorised_update_iff haccepted, or_iff_not_imp_left]
      exact fun hauthorised ↦ h hauthorised item haccepted hid
    · intro h hauthorised item haccepted hid
      exact (h item haccepted hid).resolve_left fun hown ↦
        hauthorised ((authorised_update_iff haccepted).mpr hown)
  | delete id req =>
    change (¬ Authorised M config s (.delete id req) →
      (handleDelete M sha256 config.toHandlerConfig s id req (env 0)).1 = s) ↔ True
    rw [handleDelete_eq_self_iff]
    exact iff_true_intro fun hauthorised item hremoves ↦
      hauthorised (authorised_of_removes hremoves)

/-- Without a permission extractor, who may write one item may write any: then only a list can go
where its caller may not write. -/
theorem overwritesOwn_of_role {T : Type*} (M : HttpExposable T) (config : BulkConfig T)
    (hrole : config.permissionExtractor = false) (s : HandlerState T) (call : WriteCall)
    (env : ℕ → Environment) (hsingle : ∀ req, call ≠ .bulkCreate req) :
    OverwritesOwn M config s call env := by
  have hmay : ∀ {req item}, prepare M config.toHandlerConfig req = .ok item →
      ∀ stored, MayDo M config req "Write" stored := by
    intro req item hprepare stored
    obtain ⟨sent, -, hsent, -⟩ := prepare_ok_iff.mp hprepare
    unfold MayDo authorize at hsent ⊢
    simpa only [hrole, Bool.false_eq_true, if_false] using hsent
  cases call with
  | create req => exact fun item haccepted ↦ .inl fun stored _ ↦ hmay haccepted.1 stored
  | bulkCreate req => exact absurd rfl (hsingle req)
  | update id req => exact fun item haccepted _ ↦ .inl fun stored _ ↦ hmay haccepted.1 stored
  | delete id req => trivial

/-! ### An item of another -/

/-- The shelves, of which a caller may write `a`. -/
def guardedShelves : HttpExposable Shelf :=
  { Shelf.exposed with canWrite := fun item _ ↦ decide (item = .a) }

/-- A handler with a permission extractor, which reads lists of one shelf. -/
def guardedConfig : BulkConfig Shelf where
  consensus := false
  permissionExtractor := true
  permissionChecker := none
  maxBodyBytesSingle := 1048576
  maxBodyBytesBulk := 8388608
  disableConsensus := false
  listFromSlice := fun bytes ↦
    [[.a], [.b]].find? fun items ↦
      asBytes ("[" ++ String.join (items.map Shelf.text) ++ "]") = bytes

/-- The list of the shelf `b`. -/
def createB : WriteRequest :=
  ⟨true, some 12, some (asBytes ("[" ++ Shelf.b.text ++ "]")), [], none⟩

def storedB : HandlerState Shelf :=
  ⟨(∅ : Storage Shelf).insert "b" .b, (emptyHandler (T := Shelf) true).store⟩

theorem not_mayDo_b {req : WriteRequest} : ¬ MayDo guardedShelves guardedConfig req "Write" .b := by
  intro h
  have hforbidden : authorize guardedShelves guardedConfig.toHandlerConfig req .b "Write" =
      .error .forbidden := rfl
  rw [MayDo, hforbidden] at h
  exact absurd h (by simp)

/-- A caller who may write the shelf `a` alone puts it in the place of the shelf `b`, and creates
the shelf `b` by a list. -/
theorem overwrites_other :
    ¬ RespectsPermissions guardedShelves (fun _ ↦ "") guardedConfig true storedB
        (.update "b" createShelf) (fun _ ↦ quietEnvironment) ∧
      ¬ RespectsPermissions guardedShelves (fun _ ↦ "") guardedConfig true (emptyHandler true)
        (.bulkCreate createB) (fun _ ↦ quietEnvironment) := by
  constructor
  · intro h
    have hself := respectsPermissions_iff_eq_self.mp h fun hauthorised ↦
      not_mayDo_b ((hauthorised .a rfl).2 .b (by decide))
    exact absurd (congrArg (fun next ↦ next.storage.lookup "b") hself) (by decide)
  · intro h
    have hself := respectsPermissions_iff_eq_self.mp h fun hauthorised ↦
      not_mayDo_b (hauthorised [.b] rfl .b List.mem_cons_self).1
    exact absurd (congrArg (fun next ↦ next.storage.lookup "b") hself) (by decide)

end Declarative

end Lithair.Http
