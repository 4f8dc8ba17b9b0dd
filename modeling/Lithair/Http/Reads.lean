import Lithair.Http.Declarative
import Lithair.Http.Query

/-!
# The reads of the declarative HTTP handler

The `GET` endpoints of `DeclarativeHttpHandler` in `http/declarative.rs`: the list of the items with
its filters, order and page, an item by its id, the number of items, an id of any item, and the
stream of changes of `http/sse.rs`. A list and an item are filtered by `can_read` with the
permissions that the extractor finds in the request.

The map of the storage goes through its keys in an order of its own, so that a request has a set of
responses. `AgreeOnItems.responses_eq_iff` says when two handlers that agree on what a caller can
read give the caller the same responses.
-/

namespace Lithair.Http

open Lithair.Lib

/-- What the handler reads of a `GET` request: the segments of the path behind that of the model,
the query, and the permissions that the extractor finds. -/
structure GetRequest where
  segments : List String
  query : String
  permissions : List String

inductive GetResponse
  | list (data : List Json) (total skip take : ℕ) (hasMore : Bool)
  | item (text : String)
  | count (n : ℕ)
  | randomId (id : String)
  | noIds
  | stream (frames : List (String × Json))
  | sseNotEnabled
  | forbidden
  | notFound
  | internalError
  deriving DecidableEq

/-- What is read: the storage, and the changes that are broadcast while the client listens. -/
structure ReadState (T : Type*) where
  storage : Storage T
  sent : List (String × T)

/-- The order lists the keys of the storage, each once. -/
def ListsKeys {T : Type*} (storage : Storage T) (order : List String) : Prop :=
  order.Nodup ∧ order.toFinset = storage.keys

namespace Reads

variable {T : Type*} (M : HttpExposable T) (canRead : T → List String → Bool) (ops : QueryOps)
  (sseEnabled : Bool) (order : List String) (s : ReadState T) (req : GetRequest)

/-! ### The endpoints -/

/-- The items that the caller can read, in the order of the map. -/
def readableItems (permissions : List String) : List T :=
  (order.filterMap s.storage.lookup).filter fun item ↦ canRead item permissions

/-- The page of a list that the query asks for. -/
def listResponse (query : String) (items : List T) : GetResponse :=
  let params := parseQueryParams query
  let jsonItems := (items.filterMap M.toValue).filter fun item ↦
    params.filters.all (matchesFilter ops item)
  let rest := skipItems params.skip (sortItems ops params.sort jsonItems)
  let take := params.take.getD defaultMaxTake
  .list (rest.take take) jsonItems.length params.skip take (decide (take < rest.length))

def handleList : GetResponse :=
  listResponse M ops req.query (readableItems canRead order s req.permissions)

def handleGet (id : String) : GetResponse :=
  match s.storage.lookup id with
  | none => .notFound
  | some item =>
    if canRead item req.permissions = false then .forbidden
    else
      match M.toText item with
      | some text => .item text
      | none => .internalError

def handleCount : GetResponse := .count s.storage.keys.card

def handleRandomId : GetResponse :=
  match order with
  | [] => .noIds
  | id :: _ => .randomId id

/-- The changes in the stream of a client that keeps up; one whose item has no value is not sent. -/
def frames : List (String × Json) :=
  s.sent.filterMap fun change ↦ (M.toValue change.2).map fun value ↦ (change.1, value)

def handleSseStream : GetResponse :=
  if sseEnabled then .stream (frames M s) else .sseNotEnabled

/-- A `GET` request, by the segments of its path. -/
def handleRequest : GetResponse :=
  match req.segments with
  | [] => handleList M canRead ops order s req
  | [segment] =>
    if segment = "stream" then handleSseStream M sseEnabled s
    else if segment = "count" then handleCount s
    else if segment = "random-id" then handleRandomId order
    else handleGet M canRead s req segment
  | _ => .notFound

/-- The responses to a request, over all orders of the map. -/
def responses : Set GetResponse :=
  {response | ∃ order, ListsKeys s.storage order ∧
    response = handleRequest M canRead ops sseEnabled order s req}

/-! ### What is meant to hold -/

/-- The item under a key, if the caller can read it. -/
def readable (permissions : List String) (id : String) : Option T :=
  (s.storage.lookup id).filter fun item ↦ canRead item permissions

/-- Two handlers have the same items that the caller can read, under the same keys. -/
def AgreeOnItems (permissions : List String) (s t : ReadState T) : Prop :=
  ∀ id, readable canRead s permissions id = readable canRead t permissions id

/-- Besides, they broadcast the same changes of such items. -/
def Agree (permissions : List String) (s t : ReadState T) : Prop :=
  AgreeOnItems canRead permissions s t ∧
    (s.sent.filter fun change ↦ canRead change.2 permissions) =
      t.sent.filter fun change ↦ canRead change.2 permissions

/-- There is an item under the key, and the caller cannot read it. -/
def Hidden (permissions : List String) (id : String) : Prop :=
  ∃ item, s.storage.lookup id = some item ∧ canRead item permissions = false

/-- What the response to a request shows of the items that the caller cannot read: nothing in a
list; under a key, whether there is one; besides, how many items there are, what their keys are, and
all changes. -/
def ShowsTheSame (s t : ReadState T) : Prop :=
  match req.segments with
  | [] => True
  | [segment] =>
    if segment = "stream" then sseEnabled = true → frames M s = frames M t
    else if segment = "count" then s.storage.keys.card = t.storage.keys.card
    else if segment = "random-id" then s.storage.keys = t.storage.keys
    else Hidden canRead s req.permissions segment ↔ Hidden canRead t req.permissions segment
  | _ => True

/-! ### Orders of the map -/

variable {canRead order s} {t : ReadState T} {permissions : List String}

theorem exists_listsKeys (storage : Storage T) : ∃ order, ListsKeys storage order :=
  ⟨storage.keys.toList, storage.keys.nodup_toList, storage.keys.toList_toFinset⟩

/-- Any key can come first. -/
theorem exists_listsKeys_cons {storage : Storage T} {id : String} (h : id ∈ storage.keys) :
    ∃ rest, ListsKeys storage (id :: rest) := by
  refine ⟨(storage.keys.erase id).toList, List.nodup_cons.mpr ⟨?_, Finset.nodup_toList _⟩, ?_⟩
  · rw [Finset.mem_toList]
    exact Finset.notMem_erase id _
  · rw [List.toFinset_cons, Finset.toList_toFinset, Finset.insert_erase h]

theorem readableItems_eq :
    readableItems canRead order s permissions =
      order.filterMap (readable canRead s permissions) := by
  unfold readableItems readable
  rw [List.filter_filterMap]

theorem mem_keys_of_readable {id : String} (h : (readable canRead s permissions id).isSome) :
    id ∈ s.storage.keys := by
  obtain ⟨item, hitem⟩ := Option.isSome_iff_exists.mp h
  exact Finmap.mem_keys.mpr (Finmap.mem_of_lookup_eq_some (Option.filter_eq_some_iff.mp hitem).1)

/-- What is readable in the order of one map is readable in some order of the other: the readable
keys come first, in the order that they have, and the others behind them. -/
theorem AgreeOnItems.exists_readableItems_eq (h : AgreeOnItems canRead permissions s t)
    (horder : ListsKeys s.storage order) :
    ∃ order', ListsKeys t.storage order' ∧
      readableItems canRead order' t permissions = readableItems canRead order s permissions := by
  let shown := order.filter fun id ↦ (readable canRead t permissions id).isSome
  let others := (t.storage.keys.filter fun id ↦ readable canRead t permissions id = none).toList
  have hmem : ∀ id, id ∈ order ↔ id ∈ s.storage.keys := fun id ↦ by
    rw [← horder.2, List.mem_toFinset]
  refine ⟨shown ++ others, ⟨?_, ?_⟩, ?_⟩
  · refine List.Nodup.append (horder.1.filter _) (Finset.nodup_toList _) fun id hshown hother ↦ ?_
    have hnone := (Finset.mem_filter.mp (Finset.mem_toList.mp hother)).2
    have hsome := (List.mem_filter.mp hshown).2
    rw [hnone] at hsome
    exact Bool.false_ne_true hsome
  · ext id
    rw [List.mem_toFinset, List.mem_append, List.mem_filter, Finset.mem_toList, Finset.mem_filter]
    constructor
    · rintro (⟨-, hsome⟩ | ⟨hkey, -⟩)
      · exact mem_keys_of_readable hsome
      · exact hkey
    · intro hkey
      cases hread : readable canRead t permissions id with
      | none => exact .inr ⟨hkey, rfl⟩
      | some item =>
        have hsome : (readable canRead s permissions id).isSome := by rw [h, hread]; rfl
        exact .inl ⟨(hmem id).mpr (mem_keys_of_readable hsome), rfl⟩
  · have hothers : others.filterMap (readable canRead t permissions) = [] := by
      rw [List.filterMap_eq_nil_iff]
      intro id hother
      exact (Finset.mem_filter.mp (Finset.mem_toList.mp hother)).2
    rw [readableItems_eq, readableItems_eq, List.filterMap_append, hothers, List.append_nil,
      List.filterMap_filter]
    refine List.filterMap_congr fun id _ ↦ ?_
    rw [h]
    cases readable canRead t permissions id <;> rfl

/-! ### What one response shows -/

variable {M ops sseEnabled req} {id : String}

theorem not_hidden_of_readable {item : T} (h : readable canRead s permissions id = some item) :
    ¬ Hidden canRead s permissions id := by
  rintro ⟨other, hlookup, hread⟩
  obtain ⟨hitem, hcan⟩ := Option.filter_eq_some_iff.mp h
  obtain rfl := Option.some.inj (hitem.symm.trans hlookup)
  exact Bool.false_ne_true (hread.symm.trans hcan)

/-- An item that the caller can read is answered by what it is. -/
theorem handleGet_of_readable {item : T} (h : readable canRead s req.permissions id = some item) :
    handleGet M canRead s req id = ((M.toText item).map .item).getD .internalError := by
  obtain ⟨hitem, hcan⟩ := Option.filter_eq_some_iff.mp h
  unfold handleGet
  rw [hitem]
  simp only [hcan, Bool.true_eq_false, if_false]
  cases M.toText item <;> rfl

theorem handleGet_of_hidden (h : Hidden canRead s req.permissions id) :
    handleGet M canRead s req id = .forbidden := by
  obtain ⟨item, hitem, hcan⟩ := h
  simp [handleGet, hitem, hcan]

theorem handleGet_of_absent (hread : readable canRead s req.permissions id = none)
    (hidden : ¬ Hidden canRead s req.permissions id) :
    handleGet M canRead s req id = .notFound := by
  unfold handleGet
  cases hitem : s.storage.lookup id with
  | none => rfl
  | some item =>
    have hcan : canRead item req.permissions ≠ false := fun hcan ↦ hidden ⟨item, hitem, hcan⟩
    rw [readable, hitem, Option.filter_some, if_pos (Bool.eq_true_of_not_eq_false hcan)] at hread
    exact absurd hread (Option.some_ne_none item)

/-- A response that does not depend on the order of the map is the only one. -/
theorem responses_eq_singleton {response : GetResponse}
    (h : ∀ order, handleRequest M canRead ops sseEnabled order s req = response) :
    responses M canRead ops sseEnabled s req = {response} := by
  obtain ⟨order, horder⟩ := exists_listsKeys s.storage
  ext other
  constructor
  · rintro ⟨order, -, rfl⟩
    exact h order
  · rintro rfl
    exact ⟨order, horder, (h order).symm⟩

theorem handleRequest_random_id (hsegments : req.segments = ["random-id"]) :
    handleRequest M canRead ops sseEnabled order s req = handleRandomId order := by
  simp [handleRequest, hsegments]

/-- Any key of the map can be answered as a random one, and no other. -/
theorem randomId_mem_responses_iff (hsegments : req.segments = ["random-id"]) :
    .randomId id ∈ responses M canRead ops sseEnabled s req ↔ id ∈ s.storage.keys := by
  constructor
  · rintro ⟨order, horder, hresponse⟩
    rw [handleRequest_random_id hsegments] at hresponse
    cases order with
    | nil => exact absurd hresponse (by simp [handleRandomId])
    | cons first rest =>
      obtain rfl := GetResponse.randomId.inj hresponse
      rw [← horder.2]
      exact List.mem_toFinset.mpr List.mem_cons_self
  · intro hkey
    obtain ⟨rest, hrest⟩ := exists_listsKeys_cons hkey
    refine ⟨id :: rest, hrest, ?_⟩
    rw [handleRequest_random_id hsegments]
    rfl

/-! ### What two handlers show -/

theorem AgreeOnItems.symm (h : AgreeOnItems canRead permissions s t) :
    AgreeOnItems canRead permissions t s := fun id ↦ (h id).symm

/-- A list shows nothing but what the caller can read. -/
theorem AgreeOnItems.list_subset (h : AgreeOnItems canRead req.permissions s t)
    (hsegments : req.segments = []) :
    responses M canRead ops sseEnabled s req ⊆ responses M canRead ops sseEnabled t req := by
  rintro response ⟨order, horder, rfl⟩
  obtain ⟨order', horder', hitems⟩ := h.exists_readableItems_eq horder
  refine ⟨order', horder', ?_⟩
  simp only [handleRequest, hsegments, handleList, hitems]

theorem AgreeOnItems.list_eq (h : AgreeOnItems canRead req.permissions s t)
    (hsegments : req.segments = []) :
    responses M canRead ops sseEnabled s req = responses M canRead ops sseEnabled t req :=
  (h.list_subset hsegments).antisymm (h.symm.list_subset hsegments)

/-- The response to an id shows whether there is an item that the caller cannot read. -/
theorem AgreeOnItems.handleGet_eq_iff (h : AgreeOnItems canRead req.permissions s t) :
    handleGet M canRead s req id = handleGet M canRead t req id ↔
      (Hidden canRead s req.permissions id ↔ Hidden canRead t req.permissions id) := by
  cases hs : readable canRead s req.permissions id with
  | some item =>
    have ht := (h id).symm.trans hs
    rw [handleGet_of_readable hs, handleGet_of_readable ht]
    simp only [not_hidden_of_readable hs, not_hidden_of_readable ht]
  | none =>
    have ht := (h id).symm.trans hs
    by_cases hids : Hidden canRead s req.permissions id <;>
      by_cases hidt : Hidden canRead t req.permissions id
    · simp only [handleGet_of_hidden, hids, hidt]
    · simp [handleGet_of_hidden hids, handleGet_of_absent ht hidt, hids, hidt]
    · simp [handleGet_of_absent hs hids, handleGet_of_hidden hidt, hids, hidt]
    · simp only [handleGet_of_absent hs hids, handleGet_of_absent ht hidt, hids, hidt]

/-- A random id shows the keys, whoever can read the items. -/
theorem random_id_eq_iff (hsegments : req.segments = ["random-id"]) :
    responses M canRead ops sseEnabled s req = responses M canRead ops sseEnabled t req ↔
      s.storage.keys = t.storage.keys := by
  constructor
  · intro heq
    ext id
    rw [← randomId_mem_responses_iff hsegments, heq, randomId_mem_responses_iff hsegments]
  · intro hkeys
    simp only [responses, ListsKeys, hkeys, handleRequest_random_id hsegments]

theorem responses_eq_iff_of_forall (a b : GetResponse)
    (hs : ∀ order, handleRequest M canRead ops sseEnabled order s req = a)
    (ht : ∀ order, handleRequest M canRead ops sseEnabled order t req = b) :
    responses M canRead ops sseEnabled s req = responses M canRead ops sseEnabled t req ↔
      a = b := by
  rw [responses_eq_singleton hs, responses_eq_singleton ht, Set.singleton_eq_singleton_iff]

/-- What a request shows of two handlers that agree on what the caller can read. -/
theorem AgreeOnItems.responses_eq_iff (h : AgreeOnItems canRead req.permissions s t) :
    responses M canRead ops sseEnabled s req = responses M canRead ops sseEnabled t req ↔
      ShowsTheSame M canRead sseEnabled req s t := by
  unfold ShowsTheSame
  rcases hsegments : req.segments with _ | ⟨segment, _ | ⟨next, rest⟩⟩
  · exact iff_true_intro (h.list_eq hsegments)
  · dsimp only
    split_ifs with hstream hcount hrandom
    · subst hstream
      rw [responses_eq_iff_of_forall (handleSseStream M sseEnabled s)
        (handleSseStream M sseEnabled t) (fun _ ↦ by simp [handleRequest, hsegments])
        fun _ ↦ by simp [handleRequest, hsegments]]
      cases sseEnabled <;> simp [handleSseStream]
    · subst hcount
      rw [responses_eq_iff_of_forall (handleCount s) (handleCount t)
        (fun _ ↦ by simp [handleRequest, hsegments]) fun _ ↦ by simp [handleRequest, hsegments]]
      exact GetResponse.count.injEq _ _ ▸ Iff.rfl
    · subst hrandom
      exact random_id_eq_iff hsegments
    · rw [← h.handleGet_eq_iff (M := M)]
      refine responses_eq_iff_of_forall _ _ (fun _ ↦ ?_) fun _ ↦ ?_ <;>
        simp [handleRequest, hsegments, hstream, hcount, hrandom]
  · refine iff_true_intro ((responses_eq_iff_of_forall .notFound .notFound
      (fun _ ↦ ?_) fun _ ↦ ?_).mpr rfl) <;> simp [handleRequest, hsegments]

/-- On two handlers that agree on the items that the caller can read, a list has the same responses;
an id has the same exactly when both have an item under it that the caller cannot read, or
neither. -/
theorem list_and_item_responses (h : AgreeOnItems canRead req.permissions s t) :
    (req.segments = [] →
      responses M canRead ops sseEnabled s req = responses M canRead ops sseEnabled t req) ∧
    ∀ id, req.segments = [id] → id ∉ ["stream", "count", "random-id"] →
      (responses M canRead ops sseEnabled s req = responses M canRead ops sseEnabled t req ↔
        (Hidden canRead s req.permissions id ↔ Hidden canRead t req.permissions id)) := by
  refine ⟨h.list_eq, fun id hsegments hid ↦ ?_⟩
  simp only [List.mem_cons, List.not_mem_nil, or_false, not_or] at hid
  obtain ⟨hstream, hcount, hrandom⟩ := hid
  rw [h.responses_eq_iff, ShowsTheSame, hsegments]
  simp only [hstream, hcount, hrandom, if_false]

/-- A caller who can read the items `a`, of a storage with such an item and of one that has `b`
besides, a change of which is broadcast. -/
def onlyA (item : Shelf) (_permissions : List String) : Bool := decide (item = .a)

def withA : ReadState Shelf := ⟨(∅ : Storage Shelf).insert "a" .a, []⟩

def withAAndB : ReadState Shelf := ⟨withA.storage.insert "b" .b, [("create", .b)]⟩

theorem agree_withA_withAAndB : Agree onlyA [] withA withAAndB := by
  refine ⟨fun id ↦ ?_, rfl⟩
  by_cases hid : id = "b"
  · subst hid
    decide
  · rw [readable, readable, withAAndB, Finmap.lookup_insert_of_ne _ hid]

theorem list_and_item_responses_withA :
    responses Shelf.exposed onlyA wholeNumbers true withA ⟨[], "", []⟩ =
      responses Shelf.exposed onlyA wholeNumbers true withAAndB ⟨[], "", []⟩ :=
  (list_and_item_responses agree_withA_withAAndB.1).1 rfl

/-- What the caller cannot read shows in the responses to its id, to the number, to a random id and
in the stream. -/
theorem responses_show_hidden :
    Agree onlyA [] withA withAAndB ∧
      ∀ segment ∈ ["b", "count", "random-id", "stream"],
        responses Shelf.exposed onlyA wholeNumbers true withA ⟨[segment], "", []⟩ ≠
          responses Shelf.exposed onlyA wholeNumbers true withAAndB ⟨[segment], "", []⟩ := by
  refine ⟨agree_withA_withAAndB, fun segment hsegment ↦ ?_⟩
  have hitems : AgreeOnItems onlyA (GetRequest.mk [segment] "" []).permissions withA withAAndB :=
    agree_withA_withAAndB.1
  rw [Ne, hitems.responses_eq_iff, ShowsTheSame]
  simp only [List.mem_cons, List.not_mem_nil, or_false] at hsegment
  rcases hsegment with rfl | rfl | rfl | rfl
  · intro hshows
    obtain ⟨item, hlookup, -⟩ := hshows.mpr ⟨.b, by decide, by decide⟩
    exact absurd hlookup (by decide +revert)
  · change ¬ withA.storage.keys.card = withAAndB.storage.keys.card
    decide
  · change ¬ withA.storage.keys = withAAndB.storage.keys
    decide
  · change ¬ (true = true → frames Shelf.exposed withA = frames Shelf.exposed withAAndB)
    decide

end Reads

end Lithair.Http
