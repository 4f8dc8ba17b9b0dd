import Lithair.App.Dispatch
import Mathlib.Data.List.MinMax

/-!
# Which model a path belongs to

Models are found by their base path in four places: `handle_request` and `apply_crud_operation` of
`app/mod.rs` take the first in the order of registration whose base path begins the path, the
installation of a snapshot takes the one with exactly this base path, and `ApiRouter` of
`http/api_router.rs` the one with the longest prefix that begins the path. None of them looks at
what comes behind the base path.

`routed_iff_onlyOwner` says for which models and paths this comes to the same as looking for the
model that owns the path, in every order of registration: no other base path may begin it.
-/

namespace Lithair.App

open Lithair.Http

/-- The path is the base path, or goes on with a slash behind it. -/
def Owns (basePath path : String) : Prop :=
  path = basePath ∨ startsWith path (basePath ++ "/") = true

instance (basePath path : String) : Decidable (Owns basePath path) :=
  inferInstanceAs (Decidable (_ ∨ _))

theorem startsWith_self (path : String) : startsWith path path = true :=
  startsWith_iff.mpr List.prefix_rfl

theorem Owns.startsWith {basePath path : String} (h : Owns basePath path) :
    startsWith path basePath = true := by
  rw [startsWith_iff]
  rcases h with rfl | h
  · exact List.prefix_rfl
  · have hslash := startsWith_iff.mp h
    rw [String.toList_append] at hslash
    exact (List.prefix_append _ _).trans hslash

/-- Of two texts that begin a path, the one that is not longer begins the other. -/
theorem startsWith_of_size_le {path first second : String} (hfirst : startsWith path first = true)
    (hsecond : startsWith path second = true) (h : first.utf8ByteSize ≤ second.utf8ByteSize) :
    startsWith second first = true := by
  rw [startsWith_iff] at hfirst hsecond ⊢
  rcases List.prefix_or_prefix_of_prefix hfirst hsecond with hle | ⟨rest, hrest⟩
  · exact hle
  · have happend : first = second ++ String.ofList rest := by
      rw [← String.toList_inj, String.toList_append, String.toList_ofList]
      exact hrest.symm
    have hsize : (String.ofList rest).utf8ByteSize = 0 := by
      rw [happend, String.utf8ByteSize_append] at h
      omega
    rw [happend, String.utf8ByteSize_eq_zero_iff.mp hsize, String.append_empty]

theorem startsWith_antisymm {first second : String} (h : startsWith second first = true)
    (h' : startsWith first second = true) : first = second := by
  rw [startsWith_iff] at h h'
  exact String.toList_inj.mp (h.eq_of_length_le h'.length_le)

/-! ### The models of a server -/

section Models

variable {models : List ModelRegistration}

/-- What `applyCrudOperation` does with an operation for the path, it does with the model at the
position, whatever this is. -/
def AppliesTo (models : List ModelRegistration) (modelPath : String) (i : Fin models.length) :
    Prop :=
  ∀ (states : ModelStates models)
    (apply : (i : Fin models.length) → Except String (HandlerState (models.get i).Item)),
    onModel states modelPath apply =
      (apply i).map fun state ↦ Function.update states i state

/-- On nodes with the models in any order, operations for the path and the items of a snapshot go
to the model with this base path, and a request goes only to a model that owns the path, and not to
one whose base path begins that of another owner. -/
structure RoutedByOwner (models : List ModelRegistration) (path : String) : Prop where
  operations : ∀ order : List ModelRegistration, order.Perm models → ∀ i : Fin order.length,
    (order.get i).basePath = path → AppliesTo order path i
  snapshots : ∀ order : List ModelRegistration, order.Perm models → ∀ i : Fin order.length,
    (order.get i).basePath = path → findModel order path = some i
  requests : ∀ order : List ModelRegistration, order.Perm models →
    ∀ (Spec B H : Type) (server : Dispatcher order Spec B H)
      (hmac : List UInt8 → List UInt8 → List UInt8) (raftToken : B → Option String)
      (req : GuardedRequest B) (i : Fin order.length), req.path = path →
      server.handleRequest hmac raftToken req = .model i →
        Owns (order.get i).basePath path ∧
          ∀ j : Fin order.length, Owns (order.get j).basePath path →
            startsWith (order.get j).basePath (order.get i).basePath = true → j = i

/-- Of the base paths, at most one begins the path, and that one owns it. -/
def OnlyOwner (models : List ModelRegistration) (path : String) : Prop :=
  ∀ model ∈ models, startsWith path model.basePath = true → Owns model.basePath path ∧
    ∀ other ∈ models, startsWith path other.basePath = true → other.basePath = model.basePath

instance (models : List ModelRegistration) (path : String) : Decidable (OnlyOwner models path) :=
  inferInstanceAs (Decidable (∀ model ∈ models, _ → _ ∧ ∀ other ∈ models, _))

theorem appliesTo_iff {path : String} {i : Fin models.length} :
    AppliesTo models path i ↔ resolve models path = some i := by
  constructor
  · intro h
    -- a model that says who it is
    have hprobe := h (fun _ ↦ Declarative.emptyHandler true)
      fun k ↦ .error (if k = i then "" else "other")
    unfold onModel at hprobe
    cases hresolve : resolve models path with
    | none => simp [hresolve, Except.map] at hprobe
    | some k =>
      by_cases hk : k = i
      · rw [hk]
      · simp [hresolve, Except.map, hk] at hprobe
  · intro h states apply
    unfold onModel
    rw [h]

theorem findModel_eq_some_iff {path : String} {i : Fin models.length} :
    findModel models path = some i ↔
      (models.get i).basePath = path ∧ ∀ j < i, (models.get j).basePath ≠ path := by
  unfold findModel
  rw [List.findFinIdx?_eq_some_iff]
  simp

section Requests

variable {Spec B H : Type} {server : Dispatcher models Spec B H}
  {hmac : List UInt8 → List UInt8 → List UInt8} {raftToken : B → Option String}
  {req : GuardedRequest B} {i : Fin models.length}

theorem beforeGuards_ne_model : server.beforeGuards hmac raftToken req ≠ some (.model i) := by
  intro h
  unfold Dispatcher.beforeGuards at h
  cases hendpoint : endpoint server.raft server.node req.method req.path with
  | some e =>
    simp only [hendpoint] at h
    split_ifs at h
    all_goals nomatch Option.some.inj h
  | none =>
    simp only [hendpoint] at h
    split_ifs at h
    · nomatch Option.some.inj h
    · obtain ⟨e, -, he⟩ := Option.map_eq_some_iff.mp h
      nomatch he

theorem resolve_of_route (h : server.route req = .model i) : resolve models req.path = some i := by
  unfold Dispatcher.route at h
  generalize (if req.method = .get then server.findFrontend req else none) = frontend at h
  split_ifs at h
  cases hroute : findRoute server.customRoutes req.method req.path with
  | some handler =>
    rw [hroute] at h
    nomatch h
  | none =>
    cases hresolve : resolve models req.path with
    | some k =>
      rw [hroute, hresolve] at h
      rw [Served.model.inj h]
    | none =>
      -- the frontends and the handler for what is not found are left
      rw [hroute, hresolve] at h
      cases frontend with
      | some frontend => nomatch h
      | none =>
        cases hfound : server.notFoundHandler with
        | some handler =>
          rw [hfound] at h
          nomatch h
        | none =>
          rw [hfound] at h
          nomatch h

/-- A request that a model answers belongs to this model. -/
theorem resolve_of_handleRequest (h : server.handleRequest hmac raftToken req = .model i) :
    resolve models req.path = some i := by
  unfold Dispatcher.handleRequest at h
  cases hbefore : server.beforeGuards hmac raftToken req with
  | some served =>
    simp only [hbefore] at h
    rw [h] at hbefore
    exact absurd hbefore beforeGuards_ne_model
  | none =>
    simp only [hbefore] at h
    cases hguards : (Dispatcher.evaluateGuards req server.sessionManager server.routeGuards :
      Option (Served models H)) with
    | some served =>
      have hquiet := Dispatcher.not_touchesState_of_evaluateGuards hguards
      rw [hguards, Option.getD_some] at h
      rw [h] at hquiet
      exact absurd trivial hquiet
    | none =>
      rw [hguards, Option.getD_none] at h
      exact resolve_of_route h

end Requests

/-- A server with the models that has nothing else, outside of a cluster. -/
def plainServer (models : List ModelRegistration) : Dispatcher models Unit Unit Unit where
  raft := ⟨"/raft", false, none⟩
  node :=
    { raftState := none, log := none, states := fun _ ↦ Declarative.emptyHandler true
      manager := none, schemas := ⟨∅, ∅, .default⟩, peers := 0 }
  routeGuards := []
  sessionManager := none
  openapiEnabled := false
  metricsEnabled := false
  metricsPath := "/metrics"
  dataAdminEnabled := false
  dataAdminUiPath := none
  customRoutes := []
  frontends := []
  notFoundHandler := none

/-- A request with a method that no endpoint is for. -/
def patchRequest (path : String) : GuardedRequest Unit := ⟨.patch, path, ⟨none, none⟩, ()⟩

theorem handleRequest_plainServer {path : String} {i : Fin models.length}
    (h : resolve models path = some i) :
    (plainServer models).handleRequest (fun _ bytes ↦ bytes) (fun _ ↦ none) (patchRequest path) =
      .model i := by
  have hlookup : routes.lookup (path, Method.patch) = none := by
    rw [List.lookup_eq_none_iff]
    simp [routes]
  have hschema : schemaRoutes.lookup (path, Method.patch) = none := by
    rw [List.lookup_eq_none_iff]
    simp [schemaRoutes]
  simp [Dispatcher.handleRequest, Dispatcher.beforeGuards, endpoint, schemaEndpoint, plainServer,
    patchRequest, Dispatcher.redirectsToLeader, Dispatcher.evaluateGuards, Dispatcher.route,
    findRoute, hlookup, hschema, h]

/-! ### Orders of registration -/

/-- No two models have the same base path. -/
def DistinctPaths (models : List ModelRegistration) : Prop :=
  models.Pairwise fun model other ↦ model.basePath ≠ other.basePath

instance (models : List ModelRegistration) : Decidable (DistinctPaths models) :=
  inferInstanceAs (Decidable (models.Pairwise _))

theorem DistinctPaths.perm {order : List ModelRegistration} (h : DistinctPaths models)
    (hperm : order.Perm models) : DistinctPaths order :=
  (hperm.pairwise_iff fun hne ↦ Ne.symm hne).mpr h

theorem DistinctPaths.eq_of_basePath (h : DistinctPaths models) {i j : Fin models.length}
    (heq : (models.get i).basePath = (models.get j).basePath) : i = j := by
  have hget := List.pairwise_iff_get.mp h
  rcases lt_trichotomy i j with hlt | heq' | hlt
  · exact absurd heq (hget i j hlt)
  · exact heq'
  · exact absurd heq.symm (hget j i hlt)

theorem exists_order_first {model : ModelRegistration} (h : model ∈ models) :
    ∃ rest, (model :: rest).Perm models := by
  obtain ⟨before, behind, rfl⟩ := List.append_of_mem h
  exact ⟨before ++ behind, List.perm_middle.symm⟩

theorem resolve_cons_self {model : ModelRegistration} (rest : List ModelRegistration)
    {path : String} (h : startsWith path model.basePath = true) :
    resolve (model :: rest) path = some ⟨0, Nat.succ_pos _⟩ :=
  resolve_eq_some_iff.mpr ⟨h, fun j hj ↦ absurd hj (Nat.not_lt_zero j)⟩

variable {path : String}

/-- A model that is registered first takes each request that its base path begins. -/
theorem RoutedByOwner.first (h : RoutedByOwner models path) {model : ModelRegistration}
    (hmem : model ∈ models) (hstarts : startsWith path model.basePath = true) :
    Owns model.basePath path ∧ ∀ other ∈ models, Owns other.basePath path →
      startsWith other.basePath model.basePath = true → other.basePath = model.basePath := by
  obtain ⟨rest, hperm⟩ := exists_order_first hmem
  have hserved := handleRequest_plainServer (resolve_cons_self rest hstarts)
  obtain ⟨howns, honly⟩ := h.requests _ hperm _ _ _ _ _ _ _ _ rfl hserved
  refine ⟨howns, fun other hother hotherOwns hbegins ↦ ?_⟩
  obtain ⟨j, rfl⟩ := List.mem_iff_get.mp (hperm.mem_iff.mpr hother)
  rw [honly j hotherOwns hbegins]
  rfl

/-- Where only one base path begins the path, the order of registration does not matter. -/
theorem resolve_of_onlyOwner (h : OnlyOwner models path) (hdistinct : DistinctPaths models)
    {order : List ModelRegistration} (hperm : order.Perm models) {i : Fin order.length}
    (hstarts : startsWith path (order.get i).basePath = true) : resolve order path = some i := by
  refine resolve_eq_some_iff.mpr ⟨hstarts, fun j hj ↦ ?_⟩
  rw [Bool.eq_false_iff]
  intro hother
  have hmem (k : Fin order.length) : order.get k ∈ models := hperm.mem_iff.mp (List.get_mem _ _)
  have heq := (h _ (hmem i) hstarts).2 _ (hmem j) hother
  exact absurd ((hdistinct.perm hperm).eq_of_basePath heq) (ne_of_lt hj)

/-- Models keep to the owners where only an owner's base path begins the path. -/
theorem routedByOwner_iff_onlyOwner (hdistinct : DistinctPaths models) :
    RoutedByOwner models path ↔ OnlyOwner models path := by
  constructor
  · intro h model hmem hstarts
    refine ⟨(h.first hmem hstarts).1, fun other hother hbegins ↦ ?_⟩
    have howns := (h.first hmem hstarts).1
    have hotherOwns := (h.first hother hbegins).1
    rcases le_total other.basePath.utf8ByteSize model.basePath.utf8ByteSize with hle | hle
    · exact ((h.first hother hbegins).2 model hmem howns
        (startsWith_of_size_le hbegins hstarts hle)).symm
    · exact (h.first hmem hstarts).2 other hother hotherOwns
        (startsWith_of_size_le hstarts hbegins hle)
  · intro h
    constructor
    case operations =>
      intro order hperm i hpath
      refine appliesTo_iff.mpr (resolve_of_onlyOwner h hdistinct hperm ?_)
      rw [hpath]
      exact startsWith_self path
    case snapshots =>
      intro order hperm i hpath
      refine findModel_eq_some_iff.mpr ⟨hpath, fun j hj hother ↦ ?_⟩
      have heq := (hdistinct.perm hperm).eq_of_basePath (hother.trans hpath.symm)
      exact absurd heq (ne_of_lt hj)
    case requests =>
      intro order hperm Spec B H server hmac raftToken req i hpath hserved
      have hresolve := resolve_of_handleRequest hserved
      rw [hpath, resolve_eq_some_iff] at hresolve
      have hmem (k : Fin order.length) : order.get k ∈ models :=
        hperm.mem_iff.mp (List.get_mem _ _)
      obtain ⟨howns, honly⟩ := h _ (hmem i) hresolve.1
      refine ⟨howns, fun j hother _ ↦ ?_⟩
      exact (hdistinct.perm hperm).eq_of_basePath (honly _ (hmem j) hother.startsWith)

end Models

/-! ### The router of handlers -/

/-- The handlers by their prefixes, in the order in which the map is gone through. -/
structure ApiRouter (H : Type*) where
  handlers : List (String × H)
  distinct : (handlers.map Prod.fst).Nodup

namespace ApiRouter

variable {H : Type*}

def new : ApiRouter H := ⟨[], List.nodup_nil⟩

/-- A handler that was there for the prefix is replaced. -/
def register (router : ApiRouter H) (pathPrefix : String) (handler : H) : ApiRouter H where
  handlers := (pathPrefix, handler) :: router.handlers.filter fun entry ↦ entry.1 ≠ pathPrefix
  distinct := by
    rw [List.map_cons, List.nodup_cons]
    refine ⟨fun hmem ↦ ?_, router.distinct.sublist (List.filter_sublist.map _)⟩
    obtain ⟨entry, hentry, hkey⟩ := List.mem_map.mp hmem
    exact of_decide_eq_true (List.mem_filter.mp hentry).2 hkey

/-- Go on with the next entry, when `best` is the best match among those before. -/
def betterMatch (path : String) (best : Option (String × H)) (entry : String × H) :
    Option (String × H) :=
  if startsWith path entry.1 then
    match best with
    | none => some entry
    | some (bestPrefix, _) =>
      if bestPrefix.utf8ByteSize < entry.1.utf8ByteSize then some entry else best
  else best

/-- The entry with the longest prefix that begins the path. -/
def bestMatch (router : ApiRouter H) (path : String) : Option (String × H) :=
  router.handlers.foldl (betterMatch path) none

/-- What is behind the prefix, between slashes. -/
def pathSegments (matchedPrefix path : String) : List String :=
  let remaining :=
    if startsWith path matchedPrefix then path.toList.drop matchedPrefix.toList.length else []
  ((remaining.splitOn '/').filter (· ≠ [])).map String.ofList

/-- The handler that a request goes to, and the segments it is called with. -/
def routeRequest (router : ApiRouter H) (path : String) : Option (H × List String) :=
  (router.bestMatch path).map fun entry ↦ (entry.2, pathSegments entry.1 path)

/-- A request goes only to a handler whose prefix owns the path, and not to one whose prefix begins
that of another owner. -/
def RoutedByOwner (router : ApiRouter H) (path : String) : Prop :=
  ∀ entry, router.bestMatch path = some entry → Owns entry.1 path ∧
    ∀ other ∈ router.handlers, Owns other.1 path → startsWith other.1 entry.1 = true →
      other.1 = entry.1

/-- The longest of the prefixes that begin the path owns it. -/
def LongestOwns (router : ApiRouter H) (path : String) : Prop :=
  ∀ entry ∈ router.handlers, startsWith path entry.1 = true →
    (∀ other ∈ router.handlers, startsWith path other.1 = true →
      other.1.utf8ByteSize ≤ entry.1.utf8ByteSize) → Owns entry.1 path

instance (router : ApiRouter H) (path : String) : Decidable (router.LongestOwns path) :=
  inferInstanceAs (Decidable (∀ entry ∈ router.handlers, _ → _ → _))

variable {router : ApiRouter H} {path : String}

theorem bestMatch_eq_argmax (router : ApiRouter H) (path : String) :
    router.bestMatch path =
      (router.handlers.filter fun entry ↦ startsWith path entry.1).argmax
        fun entry ↦ entry.1.utf8ByteSize := by
  unfold bestMatch List.argmax
  rw [List.foldl_filter]
  refine congrFun (congrFun (congrArg List.foldl (funext fun best ↦ funext fun entry ↦ ?_)) _) _
  unfold betterMatch
  cases best with
  | none => rfl
  | some best => rfl

/-- What is found is an entry whose prefix begins the path, and no such prefix is longer. -/
theorem bestMatch_spec {entry : String × H} (h : router.bestMatch path = some entry) :
    entry ∈ router.handlers ∧ startsWith path entry.1 = true ∧
      ∀ other ∈ router.handlers, startsWith path other.1 = true →
        other.1.utf8ByteSize ≤ entry.1.utf8ByteSize := by
  rw [bestMatch_eq_argmax] at h
  obtain ⟨hmem, hstarts⟩ := List.mem_filter.mp (List.argmax_mem h)
  refine ⟨hmem, hstarts, fun other hother hbegins ↦ ?_⟩
  have hfiltered : other ∈ router.handlers.filter fun entry ↦ startsWith path entry.1 :=
    List.mem_filter.mpr ⟨hother, hbegins⟩
  exact List.le_of_mem_argmax (f := fun entry : String × H ↦ entry.1.utf8ByteSize) hfiltered h

/-- Where a prefix begins the path, a handler is found, and of the longest one the prefix. -/
theorem bestMatch_of_longest {entry : String × H} (hmem : entry ∈ router.handlers)
    (hstarts : startsWith path entry.1 = true)
    (hlongest : ∀ other ∈ router.handlers, startsWith path other.1 = true →
      other.1.utf8ByteSize ≤ entry.1.utf8ByteSize) :
    ∃ found, router.bestMatch path = some found ∧ found.1 = entry.1 := by
  cases hfound : router.bestMatch path with
  | none =>
    rw [bestMatch_eq_argmax, List.argmax_eq_none] at hfound
    have hfiltered : entry ∈ router.handlers.filter fun entry ↦ startsWith path entry.1 :=
      List.mem_filter.mpr ⟨hmem, hstarts⟩
    rw [hfound] at hfiltered
    exact absurd hfiltered List.not_mem_nil
  | some found =>
    obtain ⟨hfoundMem, hfoundStarts, hfoundLongest⟩ := bestMatch_spec hfound
    have hle := hfoundLongest entry hmem hstarts
    have hge := hlongest found hfoundMem hfoundStarts
    exact ⟨found, rfl, startsWith_antisymm (startsWith_of_size_le hfoundStarts hstarts hge)
      (startsWith_of_size_le hstarts hfoundStarts hle)⟩

/-- The router keeps to the owners where the longest prefix owns the path. -/
theorem routedByOwner_iff_longestOwns : router.RoutedByOwner path ↔ router.LongestOwns path := by
  constructor
  · intro h entry hmem hstarts hlongest
    obtain ⟨found, hfound, hkey⟩ := bestMatch_of_longest hmem hstarts hlongest
    rw [← hkey]
    exact (h found hfound).1
  · intro h entry hfound
    obtain ⟨hmem, hstarts, hlongest⟩ := bestMatch_spec hfound
    refine ⟨h entry hmem hstarts hlongest, fun other hother howns hbegins ↦ ?_⟩
    have hle := hlongest other hother howns.startsWith
    exact startsWith_antisymm (startsWith_of_size_le howns.startsWith hstarts hle) hbegins

end ApiRouter

/-! ### Models and routers -/

/-- For which paths models and the router of handlers keep to the owners. -/
theorem routed_iff_onlyOwner {models : List ModelRegistration} (hdistinct : DistinctPaths models)
    {H : Type*} (router : ApiRouter H) (path : String) :
    (RoutedByOwner models path ↔ OnlyOwner models path) ∧
      (router.RoutedByOwner path ↔ router.LongestOwns path) :=
  ⟨routedByOwner_iff_onlyOwner hdistinct, ApiRouter.routedByOwner_iff_longestOwns⟩

/-- Two models, one of them with a base path that begins the other's. -/
def shelvesAndArchive : List ModelRegistration :=
  [⟨"/api/shelves", Shelf, Shelf.exposed⟩, ⟨"/api/shelves-archive", Shelf, Shelf.exposed⟩]

def shelfRouter : ApiRouter ℕ := (ApiRouter.new.register "/api" 0).register "/api/shelves" 1

/-- A request for one shelf. -/
theorem routed_oneShelf :
    RoutedByOwner shelvesAndArchive "/api/shelves/7" ∧
      shelfRouter.RoutedByOwner "/api/shelves/7" := by
  have hdistinct : DistinctPaths shelvesAndArchive := by decide
  have h := routed_iff_onlyOwner hdistinct shelfRouter "/api/shelves/7"
  exact ⟨h.1.mpr (by decide), h.2.mpr (by decide)⟩

/-- Shelves that are put into the archive, or looked for there, end up with the shelves in use. -/
theorem archive_captured :
    DistinctPaths shelvesAndArchive ∧
      targetModel shelvesAndArchive (.delete "/api/shelves-archive" "7") = some ⟨0, by decide⟩ ∧
      ¬ RoutedByOwner shelvesAndArchive "/api/shelves-archive" ∧
      ¬ shelfRouter.RoutedByOwner "/api/shelves-archive" := by
  have hdistinct : DistinctPaths shelvesAndArchive := by decide
  refine ⟨hdistinct, by decide, ?_, ?_⟩
  · rw [routedByOwner_iff_onlyOwner hdistinct]
    decide
  · rw [ApiRouter.routedByOwner_iff_longestOwns]
    decide

end Lithair.App
