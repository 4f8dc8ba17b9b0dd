import Lithair.Cluster.CrudOperation
import Lithair.Lib.Run
import Mathlib.Data.List.Nodup
import Mathlib.Data.List.Perm.Basic

/-!
# Histories of one consensus log

The log of one node over its whole life, as follower and as leader: received batches
(`append_entries`), the two halves of `append` of any number of concurrent callers, changes of the
term, commits and marks. `NodeLog.pending` holds the entries whose index is taken and which wait
for the write lock, and `NodeLog.received` remembers what `append_entries` was given.

`append_entries` stores an entry under whatever index it carries and never advances `next_index`,
which is what `append` numbers from. So a node that has received entries and then appends hands out
indices that are taken. `ordered_and_greatest_iff_indexFresh` says exactly when a history stays
clear of this: the log is in order, holds each index once and only ever creates greatest indices if
and only if no step meets an index that came from outside.
-/

namespace Lithair.Cluster

open Lithair.Lib.OrderedList Lithair.Lib.Run

variable {Op : Type*}

/-- The log of a node with its callers of `append` that wait for the lock, and the entries it has
received so far. -/
structure NodeLog (Op : Type*) where
  log : ConsensusLog Op
  pending : List (LogEntry Op)
  received : List (LogEntry Op)

/-- What can happen to the log of a node. -/
inductive LogAction (Op : Type*)
  | allocate (operation : Op) (timestampMs : ℕ)
  | insert (i : ℕ)
  | appendEntries (entries : List (LogEntry Op)) (leaderCommit : ℕ)
  | setTerm (term : ℕ)
  | incrementTerm
  | commit (index : ℕ)
  | markApplied (index : ℕ)

namespace NodeLog

def new : NodeLog Op := ⟨ConsensusLog.new, [], []⟩

def step (s : NodeLog Op) : LogAction Op → Option (NodeLog Op)
  | .allocate operation timestampMs =>
    let (log, entry) := s.log.allocate operation timestampMs
    some { s with log, pending := entry :: s.pending }
  | .insert i =>
    s.pending[i]?.map fun entry ↦
      { s with log := s.log.insertEntry entry, pending := s.pending.eraseIdx i }
  | .appendEntries entries leaderCommit =>
    some { s with
      log := s.log.appendEntries entries leaderCommit
      received := s.received ++ entries }
  | .setTerm term => some { s with log := s.log.setTerm term }
  | .incrementTerm => some { s with log := s.log.incrementTerm }
  | .commit index => some { s with log := s.log.commit index }
  | .markApplied index => some { s with log := s.log.markApplied index }

/-! ### What the log is meant to satisfy -/

/-- The entries are in order of `LogId`, and no index occurs twice. -/
structure Ordered (s : NodeLog Op) : Prop where
  sorted : SortedBy LogEntry.logId s.log.entries
  nodup : (s.log.entries.map LogEntry.index).Nodup

/-- An `append` is given an index beyond every entry of the log. -/
def NewIndexGreatest (s : NodeLog Op) : LogAction Op → Prop
  | .allocate _ _ => ∀ e ∈ s.log.entries, e.index < s.log.nextIndex
  | _ => True

/-- The step meets no index that came from outside: `append` takes an index beyond everything
received, the entry it inserts is not rivalled by a received one, and a received batch carries
no index that the log or the batch itself holds under another identifier. -/
def IndexFresh (s : NodeLog Op) : LogAction Op → Prop
  | .allocate _ _ => ∀ r ∈ s.received, r.index < s.log.nextIndex
  | .insert i => ∀ entry ∈ s.pending[i]?, ∀ r ∈ s.received, r.index ≠ entry.index
  | .appendEntries entries _ =>
    ∀ e ∈ entries, ∀ held ∈ s.log.entries ++ entries, held.index = e.index → held.logId = e.logId
  | _ => True

/-! ### What every history keeps -/

/-- The entries waiting for the lock have their own, already counted indices; whatever is received
is held; and an entry of the log under an index that this node has not given out, or has given to a
waiting entry, was received. -/
structure Accounted (s : NodeLog Op) : Prop where
  pending_lt : ∀ p ∈ s.pending, p.index < s.log.nextIndex
  pending_nodup : (s.pending.map LogEntry.index).Nodup
  held : ∀ r ∈ s.received, r.logId ∈ s.log.entries.map LogEntry.logId
  received_of_le : ∀ e ∈ s.log.entries, s.log.nextIndex ≤ e.index →
    ∃ r ∈ s.received, r.index = e.index
  received_of_pending : ∀ p ∈ s.pending, ∀ e ∈ s.log.entries, e.index = p.index →
    ∃ r ∈ s.received, r.index = e.index
  sorted : SortedBy LogEntry.logId s.log.entries

theorem accounted_new : Accounted (new : NodeLog Op) where
  pending_lt := by simp [new]
  pending_nodup := by simp [new]
  held := by simp [new]
  received_of_le := by simp [new, ConsensusLog.new]
  received_of_pending := by simp [new]
  sorted := List.Pairwise.nil

theorem ordered_new : Ordered (new : NodeLog Op) where
  sorted := List.Pairwise.nil
  nodup := by simp [new, ConsensusLog.new]

/-- A step that only touches the term, the commit index or the applied index. -/
theorem Accounted.of_eq {s : NodeLog Op} (h : Accounted s) {log : ConsensusLog Op}
    (hentries : log.entries = s.log.entries) (hnext : log.nextIndex = s.log.nextIndex) :
    Accounted { s with log } where
  pending_lt := hnext ▸ h.pending_lt
  pending_nodup := h.pending_nodup
  held := hentries ▸ h.held
  received_of_le := hentries ▸ hnext ▸ h.received_of_le
  received_of_pending := hentries ▸ h.received_of_pending
  sorted := hentries ▸ h.sorted

theorem Accounted.allocate {s : NodeLog Op} (h : Accounted s) (operation : Op)
    (timestampMs : ℕ) : Accounted { s with
      log := (s.log.allocate operation timestampMs).1
      pending := (s.log.allocate operation timestampMs).2 :: s.pending } where
  pending_lt := by
    intro p hp
    rcases List.mem_cons.mp hp with rfl | hp
    · exact Nat.lt_succ_self _
    · exact (h.pending_lt p hp).trans (Nat.lt_succ_self _)
  pending_nodup := by
    rw [List.map_cons, List.nodup_cons]
    refine ⟨fun hmem ↦ ?_, h.pending_nodup⟩
    obtain ⟨p, hp, hindex⟩ := List.mem_map.mp hmem
    have hlt := h.pending_lt p hp
    rw [hindex] at hlt
    exact lt_irrefl _ hlt
  held := h.held
  received_of_le := fun e he hle ↦ h.received_of_le e he ((Nat.le_succ _).trans hle)
  received_of_pending := by
    intro p hp e he hindex
    rcases List.mem_cons.mp hp with rfl | hp
    · exact h.received_of_le e he hindex.ge
    · exact h.received_of_pending p hp e he hindex
  sorted := h.sorted

theorem Accounted.insert {s : NodeLog Op} (h : Accounted s) {i : ℕ} {entry : LogEntry Op}
    (hi : s.pending[i]? = some entry) : Accounted { s with
      log := s.log.insertEntry entry
      pending := s.pending.eraseIdx i } := by
  have hperm : (entry :: s.pending.eraseIdx i).Perm s.pending := by
    obtain ⟨hlt, rfl⟩ := List.getElem?_eq_some_iff.mp hi
    exact List.getElem_cons_eraseIdx_perm hlt
  have hentry : entry ∈ s.pending := hperm.subset List.mem_cons_self
  have hsub : ∀ p ∈ s.pending.eraseIdx i, p ∈ s.pending :=
    fun p hp ↦ hperm.subset (List.mem_cons_of_mem _ hp)
  have hnodup : ((entry :: s.pending.eraseIdx i).map LogEntry.index).Nodup :=
    (hperm.map _).nodup_iff.mpr h.pending_nodup
  rw [List.map_cons, List.nodup_cons] at hnodup
  constructor
  · exact fun p hp ↦ h.pending_lt p (hsub p hp)
  · exact hnodup.2
  · intro r hr
    obtain ⟨e, he, hid⟩ := List.mem_map.mp (h.held r hr)
    exact List.mem_map.mpr ⟨e, mem_insertByKey.mpr (Or.inr he), hid⟩
  · intro e he hle
    rcases mem_insertByKey.mp he with rfl | he
    · exact absurd (h.pending_lt e hentry) (not_lt.mpr hle)
    · exact h.received_of_le e he hle
  · intro p hp e he hindex
    rcases mem_insertByKey.mp he with rfl | he
    · exact absurd (List.mem_map.mpr ⟨p, hp, hindex.symm⟩) hnodup.1
    · exact h.received_of_pending p (hsub p hp) e he hindex
  · exact h.sorted.insertByKey entry

theorem Accounted.appendEntries {s : NodeLog Op} (h : Accounted s)
    (entries : List (LogEntry Op)) (leaderCommit : ℕ) : Accounted { s with
      log := s.log.appendEntries entries leaderCommit
      received := s.received ++ entries } := by
  have hreceived : ∀ e ∈ (s.log.appendEntries entries leaderCommit).entries,
      (e ∈ s.log.entries → ∃ r ∈ s.received, r.index = e.index) →
        ∃ r ∈ s.received ++ entries, r.index = e.index := by
    intro e he hold
    rcases ConsensusLog.mem_of_mem_foldl_storeEntry he with he | he
    · obtain ⟨r, hr, hindex⟩ := hold he
      exact ⟨r, List.mem_append_left _ hr, hindex⟩
    · exact ⟨e, List.mem_append_right _ he, rfl⟩
  constructor
  · exact h.pending_lt
  · exact h.pending_nodup
  · intro r hr
    rcases List.mem_append.mp hr with hr | hr
    · obtain ⟨e, he, hid⟩ := List.mem_map.mp (h.held r hr)
      exact List.mem_map.mpr ⟨e, ConsensusLog.mem_foldl_storeEntry_of_mem he, hid⟩
    · exact ConsensusLog.logId_mem_foldl_storeEntry hr
  · exact fun e he hle ↦ hreceived e he fun hold ↦ h.received_of_le e hold hle
  · exact fun p hp e he hindex ↦
      hreceived e he fun hold ↦ h.received_of_pending p hp e hold hindex
  · exact ConsensusLog.sortedBy_foldl_storeEntry_of_sortedBy h.sorted entries

theorem kept_accounted : Kept step (Accounted : NodeLog Op → Prop) := by
  intro s a next h hnext
  cases a with
  | allocate operation timestampMs =>
    obtain rfl := Option.some.inj hnext
    exact h.allocate operation timestampMs
  | insert i =>
    obtain ⟨entry, hi, rfl⟩ := Option.map_eq_some_iff.mp hnext
    exact h.insert hi
  | appendEntries entries leaderCommit =>
    obtain rfl := Option.some.inj hnext
    exact h.appendEntries entries leaderCommit
  | setTerm term | incrementTerm | commit index | markApplied index =>
    obtain rfl := Option.some.inj hnext
    exact h.of_eq rfl rfl

/-! ### One step -/

/-- Storing a batch keeps the indices distinct exactly when no index of the batch is also carried
under another identifier, by the log or by the batch. -/
theorem nodup_foldl_storeEntry_iff {entries received : List (LogEntry Op)}
    (hnodup : (entries.map LogEntry.index).Nodup) :
    ((received.foldl ConsensusLog.storeEntry entries).map LogEntry.index).Nodup ↔
      ∀ e ∈ received, ∀ held ∈ entries ++ received, held.index = e.index →
        held.logId = e.logId := by
  constructor
  · intro hstored e he held hheld hindex
    have hid : ∀ x ∈ entries ++ received,
        ∃ y ∈ received.foldl ConsensusLog.storeEntry entries, y.logId = x.logId := by
      intro x hx
      rcases List.mem_append.mp hx with hx | hx
      · exact ⟨x, ConsensusLog.mem_foldl_storeEntry_of_mem hx, rfl⟩
      · exact List.mem_map.mp (ConsensusLog.logId_mem_foldl_storeEntry hx)
    obtain ⟨x, hx, hxid⟩ := hid e (List.mem_append_right _ he)
    obtain ⟨y, hy, hyid⟩ := hid held hheld
    have hxy : y.index = x.index :=
      (congrArg LogId.index hyid).trans (hindex.trans (congrArg LogId.index hxid).symm)
    rw [← hyid, List.inj_on_of_nodup_map hstored hy hx hxy, hxid]
  · intro hfresh
    induction received generalizing entries with
    | nil => exact hnodup
    | cons entry rest ih =>
      refine ih ?_ fun e he held hheld ↦ hfresh e (List.mem_cons_of_mem _ he) held ?_
      · rw [ConsensusLog.storeEntry_eq]
        split_ifs with hmem
        · exact hnodup
        · rw [((perm_insertByKey entry entries).map _).nodup_iff, List.map_cons, List.nodup_cons]
          refine ⟨fun hindex ↦ hmem ?_, hnodup⟩
          obtain ⟨held, hheld, hindex⟩ := List.mem_map.mp hindex
          have hid : held.logId = entry.logId :=
            hfresh entry List.mem_cons_self held (List.mem_append_left _ hheld) hindex
          exact List.mem_map.mpr ⟨held, hheld, hid⟩
      · rcases List.mem_append.mp hheld with hheld | hheld
        · rcases ConsensusLog.mem_storeEntry.mp hheld with hheld | ⟨rfl, -⟩
          · exact List.mem_append_left _ hheld
          · exact List.mem_append_right _ List.mem_cons_self
        · exact List.mem_append_right _ (List.mem_cons_of_mem _ hheld)

theorem ordered_and_greatest_step (s : NodeLog Op) (a : LogAction Op) (next : NodeLog Op)
    (h : Accounted s) (hordered : Ordered s) (hnext : step s a = some next) :
    Ordered next ∧ NewIndexGreatest s a ↔ IndexFresh s a := by
  have hsorted : SortedBy LogEntry.logId next.log.entries :=
    (kept_accounted s a next h hnext).sorted
  have hiff : Ordered next ↔ (next.log.entries.map LogEntry.index).Nodup :=
    ⟨Ordered.nodup, fun hnodup ↦ ⟨hsorted, hnodup⟩⟩
  rw [hiff]
  cases a with
  | allocate operation timestampMs =>
    obtain rfl := Option.some.inj hnext
    constructor
    · rintro ⟨-, hgreatest⟩ r hr
      obtain ⟨e, he, hid⟩ := List.mem_map.mp (h.held r hr)
      have hindex : e.index = r.index := congrArg LogId.index hid
      exact hindex ▸ hgreatest e he
    · intro hfresh
      refine ⟨hordered.nodup, fun e he ↦ ?_⟩
      by_contra hle
      obtain ⟨r, hr, hindex⟩ := h.received_of_le e he (not_lt.mp hle)
      exact hle (hindex ▸ hfresh r hr)
  | insert i =>
    obtain ⟨entry, hi, rfl⟩ := Option.map_eq_some_iff.mp hnext
    have hperm : ((insertByKey LogEntry.logId entry s.log.entries).map LogEntry.index).Perm
        (entry.index :: s.log.entries.map LogEntry.index) :=
      (perm_insertByKey entry s.log.entries).map _
    have hentry : entry ∈ s.pending := List.mem_of_getElem? hi
    simp only [ConsensusLog.insertEntry_entries, NewIndexGreatest, IndexFresh, and_true,
      hperm.nodup_iff, List.nodup_cons, hordered.nodup, hi, Option.mem_some_iff]
    constructor
    · rintro hnot _ rfl r hr hindex
      obtain ⟨e, he, hid⟩ := List.mem_map.mp (h.held r hr)
      exact hnot (List.mem_map.mpr ⟨e, he, (congrArg LogId.index hid).trans hindex⟩)
    · intro hfresh hmem
      obtain ⟨e, he, hindex⟩ := List.mem_map.mp hmem
      obtain ⟨r, hr, hrindex⟩ := h.received_of_pending entry hentry e he hindex
      exact hfresh entry rfl r hr (hrindex.trans hindex)
  | appendEntries entries leaderCommit =>
    obtain rfl := Option.some.inj hnext
    exact (and_iff_left trivial).trans (nodup_foldl_storeEntry_iff hordered.nodup)
  | setTerm term | incrementTerm | commit index | markApplied index =>
    obtain rfl := Option.some.inj hnext
    exact ⟨fun _ ↦ trivial, fun _ ↦ ⟨hordered.nodup, trivial⟩⟩

end NodeLog

/-! ### Every history -/

/-- A history keeps the log in order with one entry for each index, and creates only greatest
indices, exactly when none of its steps meets an index that came from outside. -/
theorem ordered_and_greatest_iff_indexFresh (actions : List (LogAction Op)) :
    Always NodeLog.step NodeLog.Ordered NodeLog.new actions ∧
        EachStep NodeLog.step NodeLog.NewIndexGreatest NodeLog.new actions ↔
      EachStep NodeLog.step NodeLog.IndexFresh NodeLog.new actions :=
  always_and_eachStep_iff NodeLog.kept_accounted NodeLog.ordered_and_greatest_step
    NodeLog.accounted_new NodeLog.ordered_new actions

/-- A node that has received entry `(1, 1)` as a follower gives index 1 to its own first entry. -/
theorem received_index_given_out_again :
    ¬ ∀ actions : List (LogAction CrudOperation),
      Always NodeLog.step NodeLog.Ordered NodeLog.new actions ∧
        EachStep NodeLog.step NodeLog.NewIndexGreatest NodeLog.new actions := by
  intro h
  let remote : LogEntry CrudOperation := ⟨⟨1, 1⟩, .delete "/api/products" "a", 0⟩
  let own : LogEntry CrudOperation := ⟨⟨1, 1⟩, .delete "/api/products" "b", 0⟩
  have hordered := (h [.appendEntries [remote] 1, .allocate own.operation 0, .insert 0]).1.exec rfl
  exact absurd hordered.nodup (by decide)

end Lithair.Cluster
