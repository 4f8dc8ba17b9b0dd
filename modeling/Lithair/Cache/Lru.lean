import Lithair.Lib.LinkedOrder
import Lithair.Lib.Recency
import Mathlib.Data.Finmap

/-!
# The cache of recently used entries

`cache/lru.rs`: a cache as a hash map to the slots of a vector, in which the nodes are linked from
the last used one to the one that was not used for longest. The slots of removed nodes are used
again. An index out of the bounds of the vector is a panic, a result `none` here.

`refines_lruMap` says that no run of calls panics, that every call returns what the map of
`Lithair.Lib.Recency` returns, and that the list, the map and the free slots agree after every run.
-/

namespace Lithair.Cache

open Lithair.Lib.LinkedOrder Lithair.Lib.Recency

structure CacheEntry (V : Type*) where
  value : V
  createdAt : ℕ
  lastAccessed : ℕ
  accessCount : UInt64

def CacheEntry.new {V : Type*} (value : V) (now : ℕ) : CacheEntry V := ⟨value, now, now, 1⟩

def CacheEntry.touch {V : Type*} (entry : CacheEntry V) (now : ℕ) : CacheEntry V :=
  { entry with lastAccessed := now, accessCount := entry.accessCount + 1 }

structure LruNode (K V : Type*) extends Links ℕ where
  key : K
  entry : CacheEntry V

/-- The slots of the vector. -/
abbrev LruNodes (K V : Type*) := List (Option (LruNode K V))

structure LruCache (K V : Type*) where
  capacity : ℕ
  map : Finmap fun _ : K ↦ ℕ
  nodes : LruNodes K V
  head : Option ℕ
  tail : Option ℕ
  /-- The slot that was freed last is the first one. -/
  freeList : List ℕ

variable {K V : Type*}

/-- Change the node of a slot, if there is one in it. -/
def LruNodes.update (nodes : LruNodes K V) (idx : ℕ) (f : LruNode K V → LruNode K V) :
    Option (LruNodes K V) :=
  if idx < nodes.length then some (nodes.modify idx (Option.map f)) else none

/-- Change the node of a slot, if a slot is given. -/
def LruNodes.updateAt (nodes : LruNodes K V) (slot : Option ℕ) (f : LruNode K V → LruNode K V) :
    Option (LruNodes K V) :=
  match slot with
  | none => some nodes
  | some idx => nodes.update idx f

namespace LruCache

/-- The capacity must not be zero. -/
def new (capacity : ℕ) : Option (LruCache K V) :=
  if 0 < capacity then some ⟨capacity, ∅, [], none, none, []⟩ else none

variable [DecidableEq K] (cache : LruCache K V)

def moveToFront (idx : ℕ) : Option (LruCache K V) :=
  if cache.head = some idx then some cache
  else
    match cache.nodes[idx]? with
    | none => none
    | some none => some cache
    | some (some node) => do
      let nodes ← cache.nodes.updateAt node.prev fun prevNode ↦ { prevNode with next := node.next }
      let nodes ← nodes.updateAt node.next fun nextNode ↦ { nextNode with prev := node.prev }
      let tail := if cache.tail = some idx then node.prev else cache.tail
      let nodes ← nodes.update idx fun node ↦ { node with prev := none, next := cache.head }
      let nodes ← nodes.updateAt cache.head fun oldHead ↦ { oldHead with prev := some idx }
      some { cache with
        nodes
        head := some idx
        tail := if tail = none then some idx else tail }

def evictLru : Option (LruCache K V × Option (K × V)) :=
  match cache.tail with
  | none => some (cache, none)
  | some tailIdx =>
    match cache.nodes[tailIdx]? with
    | none => none
    | some none => some (cache, none)
    | some (some node) =>
      let taken := { cache with
        nodes := cache.nodes.set tailIdx none
        map := cache.map.erase node.key
        freeList := tailIdx :: cache.freeList }
      match node.prev with
      | some prevIdx => do
        let nodes ← taken.nodes.update prevIdx fun prevNode ↦ { prevNode with next := none }
        some ({ taken with nodes, tail := some prevIdx }, some (node.key, node.entry.value))
      | none => some ({ taken with head := none, tail := none }, some (node.key, node.entry.value))

def getNodeIndex : LruCache K V × ℕ :=
  match cache.freeList with
  | idx :: rest => ({ cache with freeList := rest }, idx)
  | [] => ({ cache with nodes := cache.nodes ++ [none] }, cache.nodes.length)

def get (key : K) (now : ℕ) : Option (LruCache K V × Option V) :=
  match cache.map.lookup key with
  | none => some (cache, none)
  | some idx => do
    let cache ← cache.moveToFront idx
    match cache.nodes[idx]? with
    | none => none
    | some none => some (cache, none)
    | some (some node) =>
      let touched := { node with entry := node.entry.touch now }
      some ({ cache with nodes := cache.nodes.set idx (some touched) }, some touched.entry.value)

/-- What `insert` does with a new key once there is room for it. -/
def insertNode (key : K) (value : V) (now : ℕ) : Option (LruCache K V) :=
  let (cache, idx) := cache.getNodeIndex
  if idx < cache.nodes.length then do
    let nodes := cache.nodes.set idx (some ⟨⟨none, cache.head⟩, key, .new value now⟩)
    let nodes ← LruNodes.updateAt nodes cache.head fun oldHead ↦ { oldHead with prev := some idx }
    some { cache with
      nodes
      head := some idx
      tail := if cache.tail = none then some idx else cache.tail
      map := cache.map.insert key idx }
  else none

def insert (key : K) (value : V) (now : ℕ) : Option (LruCache K V × Option V) :=
  match cache.map.lookup key with
  | some idx =>
    match cache.nodes[idx]? with
    | none => none
    | some none => do
      let cache ← cache.moveToFront idx
      some (cache, none)
    | some (some node) => do
      let replaced := { node with entry := { node.entry with value := value }.touch now }
      let cache ← moveToFront { cache with nodes := cache.nodes.set idx (some replaced) } idx
      some (cache, some node.entry.value)
  | none => do
    let (cache, _) ← if cache.capacity ≤ cache.map.keys.card then cache.evictLru
      else some (cache, none)
    let cache ← cache.insertNode key value now
    some (cache, none)

def remove (key : K) : Option (LruCache K V × Option V) :=
  match cache.map.lookup key with
  | none => some (cache, none)
  | some idx =>
    let cache := { cache with map := cache.map.erase key }
    match cache.nodes[idx]? with
    | none => none
    | some none => some (cache, none)
    | some (some node) => do
      let nodes := cache.nodes.set idx none
      let nodes ← LruNodes.updateAt nodes node.prev fun prevNode ↦
        { prevNode with next := node.next }
      let nodes ← nodes.updateAt node.next fun nextNode ↦ { nextNode with prev := node.prev }
      some ({ cache with
        nodes
        head := if node.prev = none then node.next else cache.head
        tail := if node.next = none then node.prev else cache.tail
        freeList := idx :: cache.freeList }, some node.entry.value)

def clear : LruCache K V :=
  { cache with map := ∅, nodes := [], freeList := [], head := none, tail := none }

end LruCache

/-! ### Slots -/

namespace LruNodes

variable (nodes : LruNodes K V)

/-- What a slot keeps, without its links. -/
def content (i : ℕ) : Option (Option (K × CacheEntry V)) :=
  nodes[i]?.map (Option.map fun node ↦ (node.key, node.entry))

def links (i : ℕ) : Option (Links ℕ) := nodes[i]?.join.map LruNode.toLinks

def keyAt (i : ℕ) : Option K := (nodes.content i).join.map Prod.fst

def pairAt (i : ℕ) : Option (K × V) := (nodes.content i).join.map fun c ↦ (c.1, c.2.value)

variable {nodes} {next : LruNodes K V} {slot : Option ℕ} {i j idx : ℕ} {node : LruNode K V}
  {f : LruNode K V → LruNode K V} {g : Links ℕ → Links ℕ} {order : List ℕ}

theorem content_eq_some_none : nodes.content i = some none ↔ nodes[i]? = some none := by
  unfold content
  rcases nodes[i]? with _ | _ | node
  · simp
  · simp
  · simp

theorem exists_of_links {l : Links ℕ} (h : nodes.links i = some l) :
    ∃ node, nodes[i]? = some (some node) ∧ node.toLinks = l := by
  unfold links at h
  rcases hi : nodes[i]? with _ | _ | node
  · simp [hi] at h
  · simp [hi] at h
  · rw [hi] at h
    exact ⟨node, rfl, Option.some.inj h⟩

theorem exists_of_content {c : K × CacheEntry V} (h : nodes.content i = some (some c)) :
    ∃ node, nodes[i]? = some (some node) ∧ node.key = c.1 ∧ node.entry = c.2 := by
  unfold content at h
  rcases hi : nodes[i]? with _ | _ | node
  · simp [hi] at h
  · simp [hi] at h
  · simp only [hi, Option.map_some, Option.some.injEq] at h
    exact ⟨node, rfl, congrArg Prod.fst h, congrArg Prod.snd h⟩

theorem isSome_links : (nodes.links i).isSome = true ↔ ∃ c, nodes.content i = some (some c) := by
  unfold links content
  rcases nodes[i]? with _ | _ | node
  · simp
  · simp
  · simp

theorem content_set {slot : Option (LruNode K V)} (hlt : idx < nodes.length) :
    LruNodes.content (nodes.set idx slot) j =
      if j = idx then some (slot.map fun node ↦ (node.key, node.entry)) else nodes.content j := by
  unfold content
  rw [List.getElem?_set]
  by_cases heq : j = idx
  · simp [heq, hlt]
  · simp [heq, Ne.symm heq]

theorem links_set {slot : Option (LruNode K V)} (hlt : idx < nodes.length) :
    LruNodes.links (nodes.set idx slot) j =
      if j = idx then slot.map LruNode.toLinks else nodes.links j := by
  unfold links
  rw [List.getElem?_set]
  by_cases heq : j = idx
  · simp [heq, hlt]
  · simp [heq, Ne.symm heq]

theorem content_concat : LruNodes.content (nodes ++ [none]) i =
    if i = nodes.length then some none else nodes.content i := by
  unfold content
  rw [List.getElem?_append]
  split_ifs with hlt heq heq
  · omega
  · rfl
  · simp [heq]
  · have hle : nodes.length ≤ i := Nat.le_of_not_lt hlt
    have hsome : ([none] : LruNodes K V)[i - nodes.length]? = none :=
      List.getElem?_eq_none (by rw [List.length_singleton]; omega)
    rw [hsome, List.getElem?_eq_none hle]

theorem links_concat : LruNodes.links (nodes ++ [none]) = nodes.links := by
  funext i
  unfold links
  rw [List.getElem?_append]
  split_ifs with hlt
  · rfl
  · rw [List.getElem?_eq_none (Nat.le_of_not_lt hlt)]
    cases hi : i - nodes.length with
    | zero => rfl
    | succ k => rfl

/-- The slots that a change of links is for are those of nodes, and keep what they have. -/
theorem exists_updateAt (nodes : LruNodes K V) (slot : Option ℕ)
    (hslot : ∀ i, slot = some i → (nodes.links i).isSome = true)
    (hlinks : ∀ node, (f node).toLinks = g node.toLinks)
    (hkept : ∀ node, (f node).key = node.key ∧ (f node).entry = node.entry) :
    ∃ next, nodes.updateAt slot f = some next ∧ next.content = nodes.content ∧
      next.links = relink nodes.links slot g := by
  cases slot with
  | none =>
    refine ⟨nodes, rfl, rfl, ?_⟩
    funext j
    rw [relink, if_neg (Option.some_ne_none j).symm]
  | some idx =>
    obtain ⟨l, hl⟩ := Option.isSome_iff_exists.mp (hslot idx rfl)
    obtain ⟨node, hnode, -⟩ := exists_of_links hl
    have hlt : idx < nodes.length := (List.getElem?_eq_some_iff.mp hnode).1
    refine ⟨nodes.modify idx (Option.map f), if_pos hlt, ?_, ?_⟩
    · funext j
      unfold content
      rw [List.getElem?_modify]
      by_cases heq : idx = j
      · rcases nodes[j]? with _ | _ | other
        · rfl
        · simp
        · simp [heq, (hkept other).1, (hkept other).2]
      · simp [heq]
    · funext j
      unfold relink links
      rw [List.getElem?_modify]
      by_cases heq : idx = j
      · rcases nodes[j]? with _ | _ | other
        · simp
        · simp
        · simp [heq, hlinks]
      · simp [heq]

theorem isSome_relink {links : ℕ → Option (Links ℕ)} :
    (relink links slot g i).isSome = (links i).isSome := by
  unfold relink
  split_ifs
  · exact Option.isSome_map
  · rfl

/-- A node whose links are those of a first one gets its place in front of the others. -/
theorem exists_linkFront (hnot : idx ∉ order) (hfirst : nodes.links idx = some ⟨none, order.head?⟩)
    (hlinks : ∀ j, j ≠ idx → nodes.links j = linksOf order j) :
    ∃ next, nodes.updateAt order.head? (fun oldHead ↦ { oldHead with prev := some idx }) =
        some next ∧ next.content = nodes.content ∧ next.links = linksOf (idx :: order) := by
  have hlinked : ∀ j, order.head? = some j → (nodes.links j).isSome = true := by
    intro j hj
    have hmem : j ∈ order := List.mem_of_head? hj
    rw [hlinks j fun heq ↦ hnot (heq ▸ hmem), linksOf, if_pos hmem]
    rfl
  obtain ⟨next, hnext, hcontent, hrelinked⟩ := exists_updateAt nodes order.head?
    (f := fun oldHead ↦ { oldHead with prev := some idx })
    (g := fun links ↦ { links with prev := some idx }) hlinked (fun _ ↦ rfl) (fun _ ↦ ⟨rfl, rfl⟩)
  refine ⟨next, hnext, hcontent, ?_⟩
  rw [hrelinked]
  exact linksOf_cons hnot hfirst hlinks

/-- What is to be linked past a node has a place. -/
theorem exists_unlink {p n : LruNode K V → LruNode K V} (hnodup : order.Nodup)
    (hlinks : ∀ j, j ≠ idx → nodes.links j = linksOf order j)
    (hp : p = fun node ↦ { node with next := nextOf order idx })
    (hn : n = fun node ↦ { node with prev := prevOf order idx }) :
    ∃ first second, nodes.updateAt (prevOf order idx) p = some first ∧
      first.updateAt (nextOf order idx) n = some second ∧ second.content = nodes.content ∧
        (second.links idx).isSome = (nodes.links idx).isSome ∧
          ∀ j, j ≠ idx → second.links j = linksOf (order.erase idx) j := by
  have hsome : ∀ j, j ∈ order → j ≠ idx → (nodes.links j).isSome = true := by
    intro j hj hne
    rw [hlinks j hne, linksOf, if_pos hj]
    rfl
  have hprev : ∀ j, prevOf order idx = some j → (nodes.links j).isSome = true := by
    intro j hj
    have hnext := (prevOf_eq_some_iff hnodup).mp hj
    exact hsome j (mem_of_nextOf hnext).1 fun heq ↦ nextOf_ne_self hnodup (heq ▸ hnext)
  have hnext : ∀ j, nextOf order idx = some j → (nodes.links j).isSome = true := by
    intro j hj
    exact hsome j (mem_of_nextOf hj).2 fun heq ↦ nextOf_ne_self hnodup (heq ▸ hj)
  obtain ⟨first, hfirst, hfirstContent, hfirstLinks⟩ := exists_updateAt nodes
    (prevOf order idx) (f := p) (g := fun links ↦ { links with next := nextOf order idx }) hprev
    (fun node ↦ by rw [hp]) (fun node ↦ by rw [hp]; exact ⟨rfl, rfl⟩)
  obtain ⟨second, hsecond, hsecondContent, hsecondLinks⟩ := exists_updateAt first
    (nextOf order idx) (f := n) (g := fun links ↦ { links with prev := prevOf order idx })
    (fun j hj ↦ by rw [hfirstLinks, isSome_relink]; exact hnext j hj)
    (fun node ↦ by rw [hn]) (fun node ↦ by rw [hn]; exact ⟨rfl, rfl⟩)
  refine ⟨first, second, hfirst, hsecond, hsecondContent.trans hfirstContent, ?_, ?_⟩
  · rw [hsecondLinks, isSome_relink, hfirstLinks, isSome_relink]
  · intro j hne
    rw [linksOf_erase hnodup hne, hsecondLinks, hfirstLinks]
    unfold relink
    rw [hlinks j hne]

end LruNodes

namespace LruCache

variable {cache : LruCache K V} {order : List ℕ} {idx : ℕ}

/-- The nodes are linked in an order. -/
structure Chained (nodes : LruNodes K V) (head tail : Option ℕ) (order : List ℕ) : Prop where
  nodup : order.Nodup
  links : nodes.links = linksOf order
  head : head = order.head?
  tail : tail = order.getLast?

theorem Chained.isSome_links_iff {nodes : LruNodes K V} {head tail : Option ℕ}
    (h : Chained nodes head tail order) : (nodes.links idx).isSome = true ↔ idx ∈ order := by
  rw [h.links, linksOf]
  split_ifs with hidx
  · exact iff_of_true rfl hidx
  · exact iff_of_false Bool.false_ne_true hidx

theorem Chained.exists_node {nodes : LruNodes K V} {head tail : Option ℕ}
    (h : Chained nodes head tail order) (hidx : idx ∈ order) : ∃ node,
      nodes[idx]? = some (some node) ∧ node.prev = prevOf order idx ∧
        node.next = nextOf order idx := by
  have hlinks : nodes.links idx = some ⟨prevOf order idx, nextOf order idx⟩ := by
    rw [h.links, linksOf, if_pos hidx]
  obtain ⟨node, hnode, hsame⟩ := LruNodes.exists_of_links hlinks
  exact ⟨node, hnode, congrArg Links.prev hsame, congrArg Links.next hsame⟩

theorem Chained.mem_iff {nodes : LruNodes K V} {head tail : Option ℕ}
    (h : Chained nodes head tail order) : idx ∈ order ↔ ∃ c, nodes.content idx = some (some c) := by
  rw [← h.isSome_links_iff, LruNodes.isSome_links]

/-- A node gets an entry and keeps its links. -/
theorem Chained.set {nodes : LruNodes K V} {head tail : Option ℕ} {node : LruNode K V}
    (h : Chained nodes head tail order) (hnode : nodes[idx]? = some (some node))
    (entry : CacheEntry V) :
    Chained (nodes.set idx (some { node with entry })) head tail order where
  nodup := h.nodup
  links := by
    funext j
    rw [← h.links, LruNodes.links_set (List.getElem?_eq_some_iff.mp hnode).1]
    split_ifs with heq
    · rw [heq, LruNodes.links, hnode]
      rfl
    · rfl
  head := h.head
  tail := h.tail

/-- A node is put in front of the others. -/
theorem exists_moveToFront (cache : LruCache K V)
    (h : Chained cache.nodes cache.head cache.tail order) (hidx : idx ∈ order) : ∃ nodes head tail,
      cache.moveToFront idx = some { cache with nodes, head, tail } ∧
        nodes.content = cache.nodes.content ∧ Chained nodes head tail (idx :: order.erase idx) := by
  unfold moveToFront
  by_cases hhead : cache.head = some idx
  · rw [if_pos hhead]
    refine ⟨cache.nodes, cache.head, cache.tail, rfl, rfl, ?_⟩
    obtain ⟨rest, rfl⟩ := List.head?_eq_some_iff.mp (h.head.symm.trans hhead)
    rw [List.erase_cons_head]
    exact h
  · obtain ⟨node, hnode, hprev, hnext⟩ := h.exists_node hidx
    obtain ⟨first, second, hfirst, hsecond, hcontent, hstill, hlinks⟩ :=
      LruNodes.exists_unlink h.nodup (fun j _ ↦ congrFun h.links j)
        (rfl : (fun node : LruNode K V ↦ { node with next := nextOf order idx }) = _)
        (rfl : (fun node : LruNode K V ↦ { node with prev := prevOf order idx }) = _)
    have hsome : (second.links idx).isSome = true := by
      rw [hstill]
      exact h.isSome_links_iff.mpr hidx
    have hfront : cache.head = (order.erase idx).head? := by
      rw [head?_erase, if_neg (h.head ▸ hhead), h.head]
    obtain ⟨third, hthird, hthirdContent, hthirdLinks⟩ := LruNodes.exists_updateAt second (some idx)
      (f := fun node ↦ { node with prev := none, next := cache.head })
      (g := fun _ ↦ ⟨none, cache.head⟩) (fun j hj ↦ Option.some.inj hj ▸ hsome) (fun _ ↦ rfl)
      (fun _ ↦ ⟨rfl, rfl⟩)
    have hothers : ∀ j, j ≠ idx → third.links j = linksOf (order.erase idx) j := by
      intro j hne
      rw [hthirdLinks, relink, if_neg fun heq ↦ hne (Option.some.inj heq).symm, hlinks j hne]
    have hnot : idx ∉ order.erase idx := h.nodup.not_mem_erase
    have hidxLinks : third.links idx = some ⟨none, (order.erase idx).head?⟩ := by
      obtain ⟨l, hl⟩ := Option.isSome_iff_exists.mp hsome
      rw [hthirdLinks, relink, if_pos rfl, hl, hfront]
      rfl
    obtain ⟨fourth, hfourth, hfourthContent, hfourthLinks⟩ :=
      LruNodes.exists_linkFront hnot hidxLinks hothers
    have htail : (if cache.tail = some idx then prevOf order idx else cache.tail) =
        (order.erase idx).getLast? := by
      rw [getLast?_erase h.nodup, h.tail]
    refine ⟨fourth, some idx, (idx :: order.erase idx).getLast?, ?_, ?_, ?_, ?_, rfl, rfl⟩
    · rw [if_neg hhead, hnode]
      dsimp only
      rw [hprev, hnext, hfirst, Option.bind_eq_bind, Option.bind_some, hsecond,
        Option.bind_some, htail, ← getLast?_cons]
      change (second.updateAt (some idx) _).bind _ = _
      rw [hthird, Option.bind_some, hfront, hfourth]
      rfl
    · rw [hfourthContent, hthirdContent, hcontent]
    · exact List.nodup_cons.mpr ⟨hnot, h.nodup.erase idx⟩
    · exact hfourthLinks

/-- A node is taken out of its slot, and its neighbours are linked with each other. -/
theorem Chained.exists_unlink {nodes : LruNodes K V} {head tail : Option ℕ}
    (h : Chained nodes head tail order) (hidx : idx ∈ order) : ∃ first second,
      LruNodes.updateAt (nodes.set idx none) (prevOf order idx)
          (fun node ↦ { node with next := nextOf order idx }) = some first ∧
        first.updateAt (nextOf order idx)
          (fun node ↦ { node with prev := prevOf order idx }) = some second ∧
        second.content = LruNodes.content (nodes.set idx none) ∧
        Chained second (order.erase idx).head? (order.erase idx).getLast? (order.erase idx) := by
  obtain ⟨node, hnode, -, -⟩ := h.exists_node hidx
  have hlt : idx < nodes.length := (List.getElem?_eq_some_iff.mp hnode).1
  have hothers : ∀ j, j ≠ idx → LruNodes.links (nodes.set idx none) j = linksOf order j := by
    intro j hne
    rw [LruNodes.links_set hlt, if_neg hne, h.links]
  obtain ⟨first, second, hfirst, hsecond, hcontent, hstill, hlinks⟩ :=
    LruNodes.exists_unlink h.nodup hothers
      (rfl : (fun node : LruNode K V ↦ { node with next := nextOf order idx }) = _)
      (rfl : (fun node : LruNode K V ↦ { node with prev := prevOf order idx }) = _)
  refine ⟨first, second, hfirst, hsecond, hcontent, h.nodup.erase idx, ?_, rfl, rfl⟩
  funext j
  by_cases heq : j = idx
  · subst heq
    rw [LruNodes.links_set hlt, if_pos rfl] at hstill
    rw [Option.isNone_iff_eq_none.mp (Option.isSome_eq_false_iff.mp hstill), linksOf,
      if_neg h.nodup.not_mem_erase]
  · exact hlinks j heq

variable [DecidableEq K] {capacity : ℕ} {entries : List (K × V)} {key : K} {value : V}
  {entry : CacheEntry V} {now i : ℕ}

/-- The entries of the cache are those of the nodes in their order. -/
structure Represents (capacity : ℕ) (cache : LruCache K V) (order : List ℕ)
    (entries : List (K × V)) : Prop where
  capacity : cache.capacity = capacity
  chained : Chained cache.nodes cache.head cache.tail order
  keyed : ∀ key i, cache.map.lookup key = some i ↔ cache.nodes.keyAt i = some key
  freeNodup : cache.freeList.Nodup
  free : ∀ i, i ∈ cache.freeList ↔ cache.nodes.content i = some none
  entries : entries = order.filterMap cache.nodes.pairAt

/-- The node that the map has for a key. -/
theorem Represents.find (h : Represents capacity cache order entries)
    (hkey : cache.map.lookup key = some idx) :
    idx ∈ order ∧ ∃ entry, cache.nodes.content idx = some (some (key, entry)) := by
  have hkeyed := (h.keyed key idx).mp hkey
  unfold LruNodes.keyAt at hkeyed
  obtain ⟨⟨found, entry⟩, hjoin, rfl⟩ := Option.map_eq_some_iff.mp hkeyed
  have hcontent := Option.join_eq_some_iff.mp hjoin
  exact ⟨h.chained.mem_iff.mpr ⟨_, hcontent⟩, entry, hcontent⟩

theorem Represents.lookup_eq (h : Represents capacity cache order entries)
    (hcontent : cache.nodes.content i = some (some (key, entry))) :
    cache.map.lookup key = some i := by
  rw [h.keyed, LruNodes.keyAt, hcontent]
  rfl

theorem Represents.mem_entries (h : Represents capacity cache order entries) :
    (key, value) ∈ entries ↔
      ∃ i entry, cache.nodes.content i = some (some (key, entry)) ∧ entry.value = value := by
  rw [h.entries, List.mem_filterMap]
  unfold LruNodes.pairAt
  constructor
  · rintro ⟨i, -, hpair⟩
    obtain ⟨⟨found, entry⟩, hjoin, hsame⟩ := Option.map_eq_some_iff.mp hpair
    obtain ⟨rfl, rfl⟩ := Prod.mk.inj hsame
    exact ⟨i, entry, Option.join_eq_some_iff.mp hjoin, rfl⟩
  · rintro ⟨i, entry, hcontent, rfl⟩
    refine ⟨i, h.chained.mem_iff.mpr ⟨_, hcontent⟩, ?_⟩
    rw [hcontent]
    rfl

theorem Represents.mem_keys (h : Represents capacity cache order entries) :
    key ∈ entries.map Prod.fst ↔ ∃ i, cache.map.lookup key = some i := by
  rw [List.mem_map]
  constructor
  · rintro ⟨⟨found, value⟩, hmem, rfl⟩
    obtain ⟨i, entry, hcontent, -⟩ := h.mem_entries.mp hmem
    exact ⟨i, h.lookup_eq hcontent⟩
  · rintro ⟨i, hkey⟩
    obtain ⟨-, entry, hcontent⟩ := h.find hkey
    exact ⟨(key, entry.value), h.mem_entries.mpr ⟨i, entry, hcontent, rfl⟩, rfl⟩

/-- There are as many keys as entries. -/
theorem Represents.card_keys (h : Represents capacity cache order entries)
    (hdistinct : (entries.map Prod.fst).Nodup) : cache.map.keys.card = entries.length := by
  have hkeys : cache.map.keys = (entries.map Prod.fst).toFinset := by
    ext key
    rw [List.mem_toFinset, h.mem_keys, Finmap.mem_keys, ← Finmap.lookup_isSome,
      Option.isSome_iff_exists]
  rw [hkeys, List.toFinset_card_of_nodup hdistinct, List.length_map]

/-- The entries of the other nodes are those of the other keys. -/
theorem Represents.filterMap_erase (h : Represents capacity cache order entries)
    (hkey : cache.map.lookup key = some idx) :
    (order.erase idx).filterMap cache.nodes.pairAt = without entries key := by
  unfold without
  rw [h.entries, h.chained.nodup.erase_eq_filter, List.filterMap_filter, List.filter_filterMap]
  refine List.filterMap_congr fun i hi ↦ ?_
  obtain ⟨⟨found, entry⟩, hcontent⟩ := h.chained.mem_iff.mp hi
  have hfound := h.lookup_eq hcontent
  have hpair : cache.nodes.pairAt i = some (found, entry.value) := by
    rw [LruNodes.pairAt, hcontent]
    rfl
  rw [hpair]
  by_cases heq : i = idx
  · subst heq
    have hsame : found = key := Option.some.inj <|
      ((h.keyed found i).mp hfound).symm.trans ((h.keyed key i).mp hkey)
    simp [hsame, Option.filter]
  · have hne : found ≠ key := by
      rintro rfl
      exact heq (Option.some.inj (hfound.symm.trans hkey))
    simp [heq, hne, Option.filter]

/-- One node is in front now, with an entry for its key. -/
theorem Represents.used (h : Represents capacity cache order entries) (next : LruCache K V)
    (entry : CacheEntry V) (hkey : cache.map.lookup key = some idx)
    (hcapacity : next.capacity = cache.capacity) (hmap : next.map = cache.map)
    (hfree : next.freeList = cache.freeList)
    (hchained : Chained next.nodes next.head next.tail (idx :: order.erase idx))
    (hcontent : ∀ j, j ≠ idx → next.nodes.content j = cache.nodes.content j)
    (hidx : next.nodes.content idx = some (some (key, entry))) :
    Represents capacity next (idx :: order.erase idx)
      ((key, entry.value) :: without entries key) where
  capacity := hcapacity.trans h.capacity
  chained := hchained
  keyed := fun k i ↦ by
    rw [hmap, h.keyed]
    by_cases heq : i = idx
    · rw [heq, (h.keyed key idx).mp hkey, LruNodes.keyAt, hidx]
      rfl
    · rw [LruNodes.keyAt, LruNodes.keyAt, hcontent i heq]
  freeNodup := hfree ▸ h.freeNodup
  free := fun i ↦ by
    rw [hfree, h.free]
    by_cases heq : i = idx
    · obtain ⟨-, old, hold⟩ := h.find hkey
      rw [heq, hold, hidx]
      simp
    · rw [hcontent i heq]
  entries := by
    have hpair : next.nodes.pairAt idx = some (key, entry.value) := by
      rw [LruNodes.pairAt, hidx]
      rfl
    rw [List.filterMap_cons_some hpair, ← h.filterMap_erase hkey]
    refine congrArg (List.cons _) (List.filterMap_congr fun i hi ↦ ?_)
    have hne : i ≠ idx := fun heq ↦ h.chained.nodup.not_mem_erase (heq ▸ hi)
    rw [LruNodes.pairAt, LruNodes.pairAt, hcontent i hne]

theorem Represents.lookup_of_present {m : LruMap K V capacity}
    (h : Represents capacity cache order m.entries)
    (hcontent : cache.nodes.content idx = some (some (key, entry))) :
    m.entries.lookup key = some entry.value :=
  (lookup_eq_some_iff_mem m.distinct).mpr (h.mem_entries.mpr ⟨idx, entry, hcontent, rfl⟩)

theorem Represents.lookup_of_absent {m : LruMap K V capacity}
    (h : Represents capacity cache order m.entries) (hkey : cache.map.lookup key = none) :
    m.entries.lookup key = none := by
  rw [lookup_eq_none_iff_notMem m.distinct, h.mem_keys, hkey]
  rintro ⟨i, hi⟩
  exact absurd hi (Option.some_ne_none i).symm

theorem exists_get {m : LruMap K V capacity} (h : Represents capacity cache order m.entries) :
    ∃ next order, cache.get key now = some (next, (m.get key).2) ∧
      Represents capacity next order (m.get key).1.entries := by
  cases hkey : cache.map.lookup key with
  | none =>
    rw [LruMap.get_of_absent (h.lookup_of_absent hkey)]
    refine ⟨cache, order, ?_, h⟩
    rw [get, hkey]
  | some idx =>
    obtain ⟨hidx, entry, hcontent⟩ := h.find hkey
    obtain ⟨hvalue, hentries⟩ := LruMap.get_of_present (h.lookup_of_present hcontent)
    obtain ⟨nodes, head, tail, hmoved, hkept, hchained⟩ := exists_moveToFront cache h.chained hidx
    obtain ⟨node, hnode, rfl, rfl⟩ := LruNodes.exists_of_content (hkept ▸ hcontent)
    have hlt : idx < nodes.length := (List.getElem?_eq_some_iff.mp hnode).1
    have hcall : cache.get node.key now = some ({ cache with
        nodes := nodes.set idx (some { node with entry := node.entry.touch now }), head, tail },
        some node.entry.value) := by
      rw [get, hkey]
      dsimp only
      rw [hmoved, Option.bind_eq_bind, Option.bind_some]
      dsimp only
      rw [hnode]
      rfl
    rw [hvalue, hentries]
    refine ⟨_, idx :: order.erase idx, hcall, h.used _ (node.entry.touch now) hkey rfl rfl rfl
      (hchained.set hnode _) ?_ ?_⟩
    · intro j hne
      rw [LruNodes.content_set hlt, if_neg hne, hkept]
    · rw [LruNodes.content_set hlt, if_pos rfl]
      rfl

/-- The key is in the map already. -/
theorem exists_insert_present {m : LruMap K V capacity}
    (h : Represents capacity cache order m.entries) (hkey : cache.map.lookup key = some idx) :
    ∃ next order, cache.insert key value now = some (next, (m.insert key value).2) ∧
      Represents capacity next order (m.insert key value).1.entries := by
  obtain ⟨hidx, entry, hcontent⟩ := h.find hkey
  obtain ⟨hvalue, hentries⟩ := LruMap.insert_of_present value (h.lookup_of_present hcontent)
  obtain ⟨node, hnode, rfl, rfl⟩ := LruNodes.exists_of_content hcontent
  have hlt : idx < cache.nodes.length := (List.getElem?_eq_some_iff.mp hnode).1
  let entry : CacheEntry V := ({ node.entry with value }).touch now
  let replaced : LruCache K V := { cache with
    nodes := cache.nodes.set idx (some { node with entry }) }
  obtain ⟨nodes, head, tail, hmoved, hkept, hchained⟩ :=
    exists_moveToFront replaced (h.chained.set hnode entry) hidx
  have hcall : cache.insert node.key value now =
      some ({ replaced with nodes, head, tail }, some node.entry.value) := by
    rw [insert, hkey]
    dsimp only
    rw [hnode]
    dsimp only
    change (replaced.moveToFront idx).bind _ = _
    rw [hmoved]
    rfl
  rw [hvalue, hentries]
  refine ⟨_, idx :: order.erase idx, hcall, h.used _ entry hkey rfl rfl rfl hchained ?_ ?_⟩
  · intro j hne
    rw [hkept, LruNodes.content_set hlt, if_neg hne]
  · rw [hkept, LruNodes.content_set hlt, if_pos rfl]
    rfl

/-- One node is taken out, with its key. -/
theorem Represents.removed (h : Represents capacity cache order entries) (next : LruCache K V)
    (hkey : cache.map.lookup key = some idx) (hcapacity : next.capacity = cache.capacity)
    (hmap : next.map = cache.map.erase key) (hfree : next.freeList = idx :: cache.freeList)
    (hchained : Chained next.nodes next.head next.tail (order.erase idx))
    (hcontent : next.nodes.content = LruNodes.content (cache.nodes.set idx none)) :
    Represents capacity next (order.erase idx) (without entries key) := by
  obtain ⟨hidx, entry, hold⟩ := h.find hkey
  obtain ⟨node, hnode, -, -⟩ := h.chained.exists_node hidx
  have hlt : idx < cache.nodes.length := (List.getElem?_eq_some_iff.mp hnode).1
  have hemptied : next.nodes.content idx = some none := by
    rw [hcontent, LruNodes.content_set hlt, if_pos rfl]
    rfl
  have hothers : ∀ j, j ≠ idx → next.nodes.content j = cache.nodes.content j := by
    intro j hne
    rw [hcontent, LruNodes.content_set hlt, if_neg hne]
  refine ⟨hcapacity.trans h.capacity, hchained, fun k i ↦ ?_, ?_, fun i ↦ ?_, ?_⟩
  · rw [hmap]
    by_cases heq : i = idx
    · have hnone : next.nodes.keyAt i = none := by
        rw [heq, LruNodes.keyAt, hemptied]
        rfl
      rw [hnone, heq]
      refine iff_of_false (fun hlookup ↦ ?_) (Option.some_ne_none k).symm
      by_cases hk : k = key
      · rw [hk, Finmap.lookup_erase] at hlookup
        exact absurd hlookup (Option.some_ne_none idx).symm
      · rw [Finmap.lookup_erase_ne hk, h.keyed, (h.keyed key idx).mp hkey] at hlookup
        exact hk (Option.some.inj hlookup).symm
    · have hsame : next.nodes.keyAt i = cache.nodes.keyAt i := by
        rw [LruNodes.keyAt, LruNodes.keyAt, hothers i heq]
      rw [hsame, ← h.keyed]
      by_cases hk : k = key
      · rw [hk, Finmap.lookup_erase, hkey]
        exact iff_of_false (Option.some_ne_none i).symm fun hi ↦ heq (Option.some.inj hi).symm
      · rw [Finmap.lookup_erase_ne hk]
  · rw [hfree]
    refine List.nodup_cons.mpr ⟨fun hmem ↦ ?_, h.freeNodup⟩
    rw [h.free, hold] at hmem
    exact absurd hmem (by simp)
  · rw [hfree, List.mem_cons, h.free]
    by_cases heq : i = idx
    · rw [heq, hemptied]
      simp
    · rw [hothers i heq]
      simp [heq]
  · rw [← h.filterMap_erase hkey]
    refine List.filterMap_congr fun i hi ↦ ?_
    have hne : i ≠ idx := fun heq ↦ h.chained.nodup.not_mem_erase (heq ▸ hi)
    rw [LruNodes.pairAt, LruNodes.pairAt, hothers i hne]

theorem exists_remove {m : LruMap K V capacity} (h : Represents capacity cache order m.entries) :
    ∃ next order, cache.remove key = some (next, (m.remove key).2) ∧
      Represents capacity next order (m.remove key).1.entries := by
  cases hkey : cache.map.lookup key with
  | none =>
    have habsent := h.lookup_of_absent hkey
    have hentries : (m.remove key).1.entries = m.entries :=
      without_eq_self ((lookup_eq_none_iff_notMem m.distinct).mp habsent)
    refine ⟨cache, order, ?_, hentries ▸ h⟩
    rw [remove, hkey, LruMap.remove, habsent]
  | some idx =>
    obtain ⟨hidx, entry, hcontent⟩ := h.find hkey
    obtain ⟨node, hnode, hprev, hnext⟩ := h.chained.exists_node hidx
    obtain ⟨first, second, hfirst, hsecond, hkept, hchained⟩ := h.chained.exists_unlink hidx
    have hvalue : entry = node.entry := by
      rw [LruNodes.content, hnode] at hcontent
      exact (congrArg Prod.snd (Option.some.inj (Option.some.inj hcontent))).symm
    have hhead : (if prevOf order idx = none then nextOf order idx else cache.head) =
        (order.erase idx).head? := by
      rw [head?_erase, h.chained.head]
      exact if_congr (prevOf_eq_none_iff h.chained.nodup hidx) rfl rfl
    have htail : (if nextOf order idx = none then prevOf order idx else cache.tail) =
        (order.erase idx).getLast? := by
      rw [getLast?_erase h.chained.nodup, h.chained.tail]
      exact if_congr (nextOf_eq_none_iff h.chained.nodup hidx) rfl rfl
    have hcall : cache.remove key = some ({ cache with
        map := cache.map.erase key
        nodes := second
        head := (order.erase idx).head?
        tail := (order.erase idx).getLast?
        freeList := idx :: cache.freeList }, (m.remove key).2) := by
      rw [LruMap.remove, h.lookup_of_present hcontent, remove, hkey]
      dsimp only
      rw [hnode]
      dsimp only
      rw [hprev, hnext, hfirst, Option.bind_eq_bind, Option.bind_some, hsecond, Option.bind_some,
        hhead, htail, hvalue]
    exact ⟨_, order.erase idx, hcall, h.removed _ hkey rfl rfl rfl hchained hkept⟩

/-- The entries without the key of the last node are those before the last one. -/
theorem Represents.without_last (h : Represents capacity cache order entries)
    (hlast : order.getLast? = some idx) (hkey : cache.map.lookup key = some idx) :
    without entries key = entries.dropLast := by
  obtain ⟨-, entry, hcontent⟩ := h.find hkey
  obtain ⟨front, rfl⟩ := List.getLast?_eq_some_iff.mp hlast
  have hfront : idx ∉ front := fun hmem ↦
    (List.nodup_append.mp h.chained.nodup).2.2 idx hmem idx List.mem_cons_self rfl
  have hpair : cache.nodes.pairAt idx = some (key, entry.value) := by
    rw [LruNodes.pairAt, hcontent]
    rfl
  rw [← h.filterMap_erase hkey, h.entries, List.erase_append_right _ hfront,
    List.erase_cons_head, List.append_nil, List.filterMap_append, List.filterMap_cons_some hpair,
    List.filterMap_nil, List.dropLast_concat]

/-- The entry that is evicted is the last one. -/
theorem exists_evictLru (h : Represents capacity cache order entries) (hne : entries ≠ []) :
    ∃ next evicted order, cache.evictLru = some (next, evicted) ∧
      Represents capacity next order entries.dropLast := by
  have horder : order ≠ [] := by
    rintro rfl
    exact hne h.entries
  obtain ⟨idx, hlast⟩ := Option.ne_none_iff_exists'.mp (mt List.getLast?_eq_none_iff.mp horder)
  have hidx : idx ∈ order := List.mem_of_getLast? hlast
  have hnodup := h.chained.nodup
  obtain ⟨node, hnode, hprev, hnext⟩ := h.chained.exists_node hidx
  obtain ⟨first, second, hfirst, hsecond, hkept, hchained⟩ := h.chained.exists_unlink hidx
  have hnone : nextOf order idx = none := (nextOf_eq_none_iff hnodup hidx).mpr hlast
  rw [hnone] at hfirst hsecond
  obtain rfl := Option.some.inj hsecond
  have hcontent : cache.nodes.content idx = some (some (node.key, node.entry)) := by
    rw [LruNodes.content, hnode]
    rfl
  have hkey := h.lookup_eq hcontent
  have htail : (order.erase idx).getLast? = prevOf order idx := by
    rw [getLast?_erase hnodup, if_pos hlast]
  have hhead : (order.erase idx).head? = if prevOf order idx = none then none else cache.head := by
    rw [head?_erase, h.chained.head, hnone]
    exact (if_congr (prevOf_eq_none_iff hnodup hidx) rfl rfl).symm
  have hcall : cache.evictLru = some ({ cache with
      map := cache.map.erase node.key
      nodes := first
      head := (order.erase idx).head?
      tail := (order.erase idx).getLast?
      freeList := idx :: cache.freeList }, some (node.key, node.entry.value)) := by
    rw [evictLru, h.chained.tail, hlast]
    dsimp only
    rw [hnode]
    dsimp only
    rw [hprev, htail, hhead]
    cases hbefore : prevOf order idx with
    | none =>
      rw [hbefore] at hfirst
      obtain rfl := Option.some.inj hfirst
      rfl
    | some prevIdx =>
      rw [hbefore] at hfirst
      change (LruNodes.updateAt _ (some prevIdx) _).bind _ = _
      rw [hfirst]
      rfl
  rw [← h.without_last hlast hkey]
  exact ⟨_, _, order.erase idx, hcall, h.removed _ hkey rfl rfl rfl hchained hkept⟩

/-- A slot without a node is kept for a new one. -/
structure Reserved (cache reserved : LruCache K V) (idx : ℕ) : Prop where
  capacity : reserved.capacity = cache.capacity
  map : reserved.map = cache.map
  head : reserved.head = cache.head
  tail : reserved.tail = cache.tail
  links : reserved.nodes.links = cache.nodes.links
  others : ∀ i, i ≠ idx → reserved.nodes.content i = cache.nodes.content i
  vacant : reserved.nodes.content idx = some none
  before : (cache.nodes.content idx).join = none
  freeNodup : reserved.freeList.Nodup
  free : ∀ i, i ∈ reserved.freeList ↔ i ≠ idx ∧ cache.nodes.content i = some none

theorem Represents.reserved (h : Represents capacity cache order entries) :
    Reserved cache cache.getNodeIndex.1 cache.getNodeIndex.2 := by
  unfold getNodeIndex
  cases hfree : cache.freeList with
  | cons idx rest =>
    obtain ⟨hidx, hrest⟩ := List.nodup_cons.mp (hfree ▸ h.freeNodup)
    have hvacant : cache.nodes.content idx = some none :=
      (h.free idx).mp (hfree ▸ List.mem_cons_self)
    refine ⟨rfl, rfl, rfl, rfl, rfl, fun _ _ ↦ rfl, hvacant, ?_, hrest, fun i ↦ ?_⟩
    · rw [hvacant]
      rfl
    rw [← h.free, hfree, List.mem_cons]
    constructor
    · intro hmem
      refine ⟨?_, Or.inr hmem⟩
      rintro rfl
      exact hidx hmem
    · exact fun hmem ↦ hmem.2.resolve_left hmem.1
  | nil =>
    refine ⟨rfl, rfl, rfl, rfl, LruNodes.links_concat, fun i hne ↦ ?_, ?_, ?_, List.nodup_nil,
      fun i ↦ ?_⟩
    · rw [LruNodes.content_concat, if_neg hne]
    · rw [LruNodes.content_concat, if_pos rfl]
    · rw [LruNodes.content, List.getElem?_eq_none (Nat.le_refl _)]
      rfl
    · rw [← h.free, hfree]
      simp

/-- The map of a cache with a new key whose node is in a slot that had none. -/
theorem Represents.keyed_insert (h : Represents capacity cache order entries) {idx : ℕ}
    {nodes : LruNodes K V} (hkey : cache.map.lookup key = none)
    (hbefore : cache.nodes.keyAt idx = none)
    (hkeyAt : ∀ i, nodes.keyAt i = if i = idx then some key else cache.nodes.keyAt i) (k : K)
    (i : ℕ) : (cache.map.insert key idx).lookup k = some i ↔ nodes.keyAt i = some k := by
  rw [hkeyAt]
  by_cases hk : k = key
  · subst hk
    rw [Finmap.lookup_insert]
    split_ifs with heq
    · exact iff_of_true (congrArg some heq.symm) rfl
    · rw [← h.keyed, hkey]
      exact iff_of_false (fun hi ↦ heq (Option.some.inj hi).symm) (Option.some_ne_none i).symm
  · rw [Finmap.lookup_insert_of_ne _ hk, h.keyed]
    split_ifs with heq
    · rw [heq, hbefore]
      exact iff_of_false (Option.some_ne_none k).symm fun hkey ↦ hk (Option.some.inj hkey).symm
    · exact Iff.rfl

/-- A new key comes in front. -/
theorem exists_insertNode (h : Represents capacity cache order entries)
    (hkey : cache.map.lookup key = none) :
    ∃ next order, cache.insertNode key value now = some next ∧
      Represents capacity next order ((key, value) :: entries) := by
  have hreserved := h.reserved
  cases hindex : cache.getNodeIndex with
  | mk reserved idx =>
  rw [hindex] at hreserved
  obtain ⟨hcapacity, hmap, hhead, htail, hlinks, hothers, hvacant, hbefore, hfreeNodup, hfree⟩ :=
    hreserved
  have hlt : idx < reserved.nodes.length := by
    obtain ⟨slot, hslot, -⟩ := Option.map_eq_some_iff.mp hvacant
    exact (List.getElem?_eq_some_iff.mp hslot).1
  have hnot : idx ∉ order := by
    rw [h.chained.mem_iff]
    rintro ⟨c, hc⟩
    rw [hc] at hbefore
    exact absurd hbefore (Option.some_ne_none c)
  let node : LruNode K V := ⟨⟨none, cache.head⟩, key, .new value now⟩
  have hfirst : LruNodes.links (reserved.nodes.set idx (some node)) idx =
      some ⟨none, order.head?⟩ := by
    rw [LruNodes.links_set hlt, if_pos rfl, ← h.chained.head]
    rfl
  have hrest : ∀ j, j ≠ idx →
      LruNodes.links (reserved.nodes.set idx (some node)) j = linksOf order j := by
    intro j hne
    rw [LruNodes.links_set hlt, if_neg hne, hlinks, h.chained.links]
  obtain ⟨nodes, hnodes, hkept, hlinked⟩ := LruNodes.exists_linkFront hnot hfirst hrest
  have hcontent : ∀ i, nodes.content i =
      if i = idx then some (some (key, .new value now)) else cache.nodes.content i := by
    intro i
    rw [hkept, LruNodes.content_set hlt]
    split_ifs with heq
    · rfl
    · exact hothers i heq
  have hcall : cache.insertNode key value now = some { cache with
      nodes
      freeList := reserved.freeList
      head := some idx
      tail := (idx :: order).getLast?
      map := cache.map.insert key idx } := by
    rw [insertNode, hindex]
    dsimp only
    rw [if_pos hlt, hcapacity, hmap, hhead, htail, getLast?_cons, ← h.chained.tail]
    change (LruNodes.updateAt (reserved.nodes.set idx (some node)) _ _).bind _ = _
    rw [h.chained.head, hnodes]
    rfl
  have hkeyAt : ∀ i, nodes.keyAt i = if i = idx then some key else cache.nodes.keyAt i := by
    intro i
    rw [LruNodes.keyAt, hcontent, LruNodes.keyAt]
    split_ifs
    · rfl
    · rfl
  have hbeforeKey : cache.nodes.keyAt idx = none := by
    rw [LruNodes.keyAt, hbefore]
    rfl
  refine ⟨_, idx :: order, hcall, h.capacity, ?_, ?_, hfreeNodup, ?_, ?_⟩
  · refine ⟨List.nodup_cons.mpr ⟨hnot, h.chained.nodup⟩, ?_, rfl, rfl⟩
    exact hlinked
  · exact h.keyed_insert hkey hbeforeKey hkeyAt
  · intro i
    rw [hfree, hcontent]
    split_ifs with heq
    · exact iff_of_false (fun hboth ↦ hboth.1 heq) (by simp)
    · exact and_iff_right heq
  · have hpair : nodes.pairAt idx = some (key, value) := by
      rw [LruNodes.pairAt, hcontent, if_pos rfl]
      rfl
    rw [List.filterMap_cons_some hpair, h.entries]
    refine congrArg (List.cons _) (List.filterMap_congr fun i hi ↦ ?_)
    have hne : i ≠ idx := fun heq ↦ hnot (heq ▸ hi)
    rw [LruNodes.pairAt, LruNodes.pairAt, hcontent, if_neg hne]

/-- The key is not in the map yet. -/
theorem exists_insert_absent {m : LruMap K V capacity}
    (h : Represents capacity cache order m.entries) (hkey : cache.map.lookup key = none) :
    ∃ next order, cache.insert key value now = some (next, (m.insert key value).2) ∧
      Represents capacity next order (m.insert key value).1.entries := by
  obtain ⟨hvalue, hentries⟩ := LruMap.insert_of_absent value (h.lookup_of_absent hkey)
  have hcard : cache.map.keys.card = m.entries.length := h.card_keys m.distinct
  rw [hvalue, hentries, insert, hkey]
  dsimp only
  rw [h.capacity, hcard]
  split_ifs with hfull
  · have hne : m.entries ≠ [] := by
      intro hempty
      rw [hempty, List.length_nil] at hfull
      exact absurd m.positive (Nat.not_lt.mpr hfull)
    obtain ⟨room, evicted, roomOrder, hevict, hroom⟩ := exists_evictLru h hne
    have habsent : room.map.lookup key = none := by
      rw [← Option.not_isSome_iff_eq_none, Option.isSome_iff_exists, ← hroom.mem_keys]
      intro hmem
      have hbefore := (m.entries.dropLast_sublist.map Prod.fst).subset hmem
      rw [h.mem_keys, hkey] at hbefore
      obtain ⟨i, hi⟩ := hbefore
      exact absurd hi (Option.some_ne_none i).symm
    obtain ⟨next, nextOrder, hinsert, hnext⟩ := exists_insertNode hroom habsent
    refine ⟨next, nextOrder, ?_, hnext⟩
    rw [hevict, Option.bind_eq_bind, Option.bind_some]
    change (room.insertNode key value now).bind _ = _
    rw [hinsert]
    rfl
  · obtain ⟨next, nextOrder, hinsert, hnext⟩ := exists_insertNode h hkey
    refine ⟨next, nextOrder, ?_, hnext⟩
    change (cache.insertNode key value now).bind _ = _
    rw [hinsert]
    rfl

end LruCache

/-! ### Calls -/

inductive CacheCall (K V : Type*)
  | get (key : K)
  | insert (key : K) (value : V)
  | remove (key : K)
  | clear

section Calls

variable [DecidableEq K] {capacity : ℕ}

/-- A call at a time, and what it returns; `clear` returns nothing. -/
def LruCache.call (cache : LruCache K V) (now : ℕ) :
    CacheCall K V → Option (LruCache K V × Option V)
  | .get key => cache.get key now
  | .insert key value => cache.insert key value now
  | .remove key => cache.remove key
  | .clear => some (cache.clear, none)

/-- What is returned in a run of calls. -/
def LruCache.run : LruCache K V → List (CacheCall K V × ℕ) → Option (LruCache K V × List (Option V))
  | cache, [] => some (cache, [])
  | cache, (call, now) :: rest => do
    let (cache, answer) ← cache.call now call
    let (cache, answers) ← cache.run rest
    some (cache, answer :: answers)

def recencyCall (m : LruMap K V capacity) : CacheCall K V → LruMap K V capacity × Option V
  | .get key => m.get key
  | .insert key value => m.insert key value
  | .remove key => m.remove key
  | .clear => (m.clear, none)

def recencyRun : LruMap K V capacity → List (CacheCall K V) → LruMap K V capacity × List (Option V)
  | m, [] => (m, [])
  | m, call :: rest =>
    let (m, answer) := recencyCall m call
    let (m, answers) := recencyRun m rest
    (m, answer :: answers)

namespace LruCache

def next (cache : LruCache K V) (i : ℕ) : Option ℕ := (cache.nodes.links i).bind Links.next

def prev (cache : LruCache K V) (i : ℕ) : Option ℕ := (cache.nodes.links i).bind Links.prev

/-- The list, the map and the free slots agree. -/
structure WellLinked (cache : LruCache K V) : Prop where
  visits : ∃ order, Follows cache.next cache.head order ∧ order.getLast? = cache.tail ∧
    order.Nodup ∧ ∀ i, i ∈ order ↔ ∃ key, cache.map.lookup key = some i
  inverse : ∀ i j, cache.next i = some j ↔ cache.prev j = some i
  freeNodup : cache.freeList.Nodup
  free : ∀ i, i ∈ cache.freeList ↔ cache.nodes[i]? = some none

variable {cache : LruCache K V} {order : List ℕ} {entries : List (K × V)}

theorem Represents.wellLinked (h : Represents capacity cache order entries) :
    cache.WellLinked := by
  have hnext : cache.next = nextOf order := by
    funext i
    rw [next, h.chained.links, bind_next_linksOf]
  have hprev : cache.prev = prevOf order := by
    funext i
    rw [prev, h.chained.links, bind_prev_linksOf]
  refine ⟨⟨order, ?_, h.chained.tail.symm, h.chained.nodup, fun i ↦ ?_⟩, fun i j ↦ ?_,
    h.freeNodup, fun i ↦ ?_⟩
  · rw [hnext, h.chained.head]
    exact follows_nextOf h.chained.nodup
  · rw [h.chained.mem_iff]
    constructor
    · rintro ⟨⟨key, entry⟩, hcontent⟩
      exact ⟨key, h.lookup_eq hcontent⟩
    · rintro ⟨key, hkey⟩
      obtain ⟨-, entry, hcontent⟩ := h.find hkey
      exact ⟨(key, entry), hcontent⟩
  · rw [hnext, hprev, prevOf_eq_some_iff h.chained.nodup]
  · rw [h.free, LruNodes.content_eq_some_none]

theorem represents_clear (cache : LruCache K V) (h : cache.capacity = capacity) :
    Represents capacity cache.clear [] [] where
  capacity := h
  chained := ⟨List.nodup_nil, rfl, rfl, rfl⟩
  keyed := fun key i ↦ by
    change (∅ : Finmap fun _ : K ↦ ℕ).lookup key = some i ↔ _
    rw [Finmap.lookup_empty]
    exact iff_of_false (Option.some_ne_none i).symm (Option.some_ne_none key).symm
  freeNodup := List.nodup_nil
  free := fun i ↦ iff_of_false List.not_mem_nil (by simp [clear, LruNodes.content])
  entries := rfl

/-- A call returns what the map of the recently used returns. -/
theorem exists_call {m : LruMap K V capacity} (h : Represents capacity cache order m.entries)
    (now : ℕ) (call : CacheCall K V) :
    ∃ next order, cache.call now call = some (next, (recencyCall m call).2) ∧
      Represents capacity next order (recencyCall m call).1.entries := by
  cases call with
  | get key => exact exists_get h
  | insert key value =>
    cases hkey : cache.map.lookup key with
    | none => exact exists_insert_absent h hkey
    | some idx => exact exists_insert_present h hkey
  | remove key => exact exists_remove h
  | clear => exact ⟨cache.clear, [], rfl, represents_clear cache h.capacity⟩

theorem exists_run {m : LruMap K V capacity} (h : Represents capacity cache order m.entries)
    (calls : List (CacheCall K V × ℕ)) :
    ∃ next order, cache.run calls = some (next, (recencyRun m (calls.map Prod.fst)).2) ∧
      Represents capacity next order (recencyRun m (calls.map Prod.fst)).1.entries := by
  induction calls generalizing cache order m with
  | nil => exact ⟨cache, order, rfl, h⟩
  | cons first rest ih =>
    obtain ⟨call, now⟩ := first
    obtain ⟨between, betweenOrder, hcall, hbetween⟩ := exists_call h now call
    obtain ⟨next, nextOrder, hrun, hnext⟩ := ih hbetween
    refine ⟨next, nextOrder, ?_, hnext⟩
    rw [run, hcall, Option.bind_eq_bind, Option.bind_some]
    dsimp only
    rw [hrun]
    rfl

end LruCache

/-- In every run of calls the cache returns what the map of the recently used returns, and its
list, its map and its free slots agree. -/
theorem refines_lruMap (hcapacity : 0 < capacity) (calls : List (CacheCall K V × ℕ)) :
    ∃ start cache, LruCache.new capacity = some start ∧
      start.run calls =
        some (cache, (recencyRun (LruMap.empty hcapacity) (calls.map Prod.fst)).2) ∧
      cache.WellLinked := by
  have hstart : LruCache.Represents capacity
      (⟨capacity, ∅, [], none, none, []⟩ : LruCache K V) [] [] :=
    LruCache.represents_clear ⟨capacity, ∅, [], none, none, []⟩ rfl
  obtain ⟨cache, order, hrun, hcache⟩ :=
    LruCache.exists_run (m := LruMap.empty hcapacity) hstart calls
  exact ⟨_, cache, if_pos hcapacity, hrun, hcache.wellLinked⟩

end Calls

theorem refines_lruMap_two :
    ∃ start cache, LruCache.new 2 = some start ∧
      start.run [(.insert "a" 1, 0), (.insert "b" 2, 0), (.get "a", 0), (.insert "c" 3, 0),
        (.get "a", 0), (.get "b", 0), (.get "c", 0)] =
        some (cache, [none, none, some 1, none, some 1, none, some 3]) ∧
      cache.WellLinked :=
  refines_lruMap (by decide) [(.insert "a" 1, 0), (.insert "b" 2, 0), (.get "a", 0),
    (.insert "c" 3, 0), (.get "a", 0), (.get "b", 0), (.get "c", 0)]

end Lithair.Cache
