import Lithair.Cluster.ConsensusLog
import Lithair.Lib.Run

/-!
# The follower's append handler

`handle_raft_append_entries` in `app/mod.rs`, for any number of requests handled at once. A handler
compares terms, stores the entries of its request, takes the apply mutex, loads the applied and the
commit index, collects the unapplied entries, and applies and marks them one by one before it
answers and gives the mutex back. The holder of the mutex is a field of the state, so there is never
more than one.

The applied index lags behind what has been applied by at most the entry being marked, so a handler
that takes the mutex continues where the one before it stopped: whatever arrives, and in whatever
order, the applied entries are numbered `1, 2, …` (`Follower.Consistent`, kept by every step).
-/

namespace Lithair.App

open Lithair.Cluster Lithair.Lib.OrderedList Lithair.Lib.Run

variable {Op : Type*}

/-! ### The handlers -/

/-- How far a handler without the mutex has come. -/
inductive AppendStage
  | arrived
  | accepted
  | stored
  deriving DecidableEq

/-- A handler that does not hold the mutex. -/
structure AppendHandler (Op : Type*) where
  request : AppendEntriesRequest Op
  stage : AppendStage

/-- How far the holder of the mutex has come: its next move is to load the two indices, to collect
the entries between them, to apply the first of those that remain, or to mark the one applied. -/
inductive ApplyStage (Op : Type*)
  | locked
  | loaded (appliedIndex commitIndex : ℕ)
  | applying (remaining : List (LogEntry Op))
  | marking (entry : LogEntry Op) (remaining : List (LogEntry Op))

/-- The entries that are collected and still have to be applied. -/
def ApplyStage.remaining : ApplyStage Op → List (LogEntry Op)
  | .locked | .loaded _ _ => []
  | .applying remaining | .marking _ remaining => remaining

/-- The handler that holds the apply mutex. -/
structure ApplyHolder (Op : Type*) where
  request : AppendEntriesRequest Op
  stage : ApplyStage Op

/-- A follower: its log, the handlers that wait, the holder of the apply mutex, the entries applied
to its models so far, and the answers it has sent. -/
structure Follower (Op : Type*) where
  log : ConsensusLog Op
  waiting : List (AppendHandler Op)
  holder : Option (ApplyHolder Op)
  applied : List (LogEntry Op)
  answered : List (AppendEntriesRequest Op × AppendEntriesResponse)

/-- What can happen on a follower. `i` is the place of a handler among those that wait, and `ok` the
outcome of applying an operation. -/
inductive FollowerAction (Op : Type*)
  | receive (request : AppendEntriesRequest Op)
  | checkTerm (i : ℕ)
  | store (i : ℕ)
  | lockApply (i : ℕ)
  | loadIndices
  | collect
  | applyNext (ok : Bool)
  | mark
  | answer
  | drop (i : ℕ)

namespace Follower

def start : Follower Op := ⟨ConsensusLog.new, [], none, [], []⟩

/-- The response to a request, with the state of the log when it is built. -/
def response (s : Follower Op) (success : Bool) : AppendEntriesResponse where
  term := s.log.currentTerm
  success := success
  lastLogIndex := s.log.lastIndex
  appliedIndex := s.log.appliedIndex

/-- The holder of the mutex answers and releases it. -/
def finish (s : Follower Op) (request : AppendEntriesRequest Op) (success : Bool) : Follower Op :=
  { s with holder := none, answered := s.answered ++ [(request, s.response success)] }

def step (s : Follower Op) : FollowerAction Op → Option (Follower Op)
  | .receive request => some { s with waiting := s.waiting ++ [⟨request, .arrived⟩] }
  | .checkTerm i =>
    match s.waiting[i]? with
    | some ⟨request, .arrived⟩ =>
      if s.log.currentTerm < request.term then
        some { s with
          log := s.log.setTerm request.term
          waiting := s.waiting.set i ⟨request, .accepted⟩ }
      else if request.term < s.log.currentTerm then
        some { s with
          waiting := s.waiting.eraseIdx i
          answered := s.answered ++ [(request, s.response false)] }
      else some { s with waiting := s.waiting.set i ⟨request, .accepted⟩ }
    | _ => none
  | .store i =>
    match s.waiting[i]? with
    | some ⟨request, .accepted⟩ =>
      some { s with
        log := s.log.appendEntries request.entries request.leaderCommit
        waiting := s.waiting.set i ⟨request, .stored⟩ }
    | _ => none
  | .lockApply i =>
    match s.waiting[i]?, s.holder with
    | some ⟨request, .stored⟩, none =>
      some { s with waiting := s.waiting.eraseIdx i, holder := some ⟨request, .locked⟩ }
    | _, _ => none
  | .loadIndices =>
    match s.holder with
    | some ⟨request, .locked⟩ =>
      some { s with holder := some ⟨request, .loaded s.log.appliedIndex s.log.commitIndex⟩ }
    | _ => none
  | .collect =>
    match s.holder with
    | some ⟨request, .loaded appliedIndex commitIndex⟩ =>
      some { s with holder := some ⟨request, .applying
        (ConsensusLog.unappliedBetween s.log.entries appliedIndex commitIndex)⟩ }
    | _ => none
  | .applyNext ok =>
    match s.holder with
    | some ⟨request, .applying (entry :: rest)⟩ =>
      if ok then
        some { s with
          applied := s.applied ++ [entry]
          holder := some ⟨request, .marking entry rest⟩ }
      else some (s.finish request false)
    | _ => none
  | .mark =>
    match s.holder with
    | some ⟨request, .marking entry rest⟩ =>
      some { s with
        log := s.log.markApplied entry.index
        holder := some ⟨request, .applying rest⟩ }
    | _ => none
  | .answer =>
    match s.holder with
    | some ⟨request, .applying []⟩ => some (s.finish request true)
    | _ => none
  | .drop i =>
    if i < s.waiting.length then some { s with waiting := s.waiting.eraseIdx i } else none

/-! ### What each action does -/

section Step

variable {s next : Follower Op} {i : ℕ}

/-- Comparing terms touches nothing but the term, the handler and the answers; a refusal does not
count as success. -/
theorem step_checkTerm (h : step s (.checkTerm i) = some next) :
    ∃ request, s.waiting[i]? = some ⟨request, .arrived⟩ ∧ ∃ term waiting answered,
      next = { s with log := s.log.setTerm term, waiting, answered } ∧
        (waiting = s.waiting.set i ⟨request, .accepted⟩ ∧ answered = s.answered ∨
          waiting = s.waiting.eraseIdx i ∧
            answered = s.answered ++ [(request, s.response false)]) := by
  unfold step at h
  simp only at h
  split at h
  · next request hi =>
    refine ⟨request, hi, ?_⟩
    split_ifs at h
    · exact ⟨_, _, _, (Option.some.inj h).symm, Or.inl ⟨rfl, rfl⟩⟩
    · exact ⟨s.log.currentTerm, _, _, (Option.some.inj h).symm, Or.inr ⟨rfl, rfl⟩⟩
    · exact ⟨s.log.currentTerm, _, _, (Option.some.inj h).symm, Or.inl ⟨rfl, rfl⟩⟩
  · exact absurd h (by simp)

theorem step_store (h : step s (.store i) = some next) :
    ∃ request, s.waiting[i]? = some ⟨request, .accepted⟩ ∧
      next = { s with
        log := s.log.appendEntries request.entries request.leaderCommit
        waiting := s.waiting.set i ⟨request, .stored⟩ } := by
  unfold step at h
  simp only at h
  split at h
  · next request hi => exact ⟨request, hi, (Option.some.inj h).symm⟩
  · exact absurd h (by simp)

theorem step_lockApply (h : step s (.lockApply i) = some next) :
    ∃ request, s.waiting[i]? = some ⟨request, .stored⟩ ∧ s.holder = none ∧
      next = { s with waiting := s.waiting.eraseIdx i, holder := some ⟨request, .locked⟩ } := by
  unfold step at h
  simp only at h
  split at h
  · next request hi hfree => exact ⟨request, hi, hfree, (Option.some.inj h).symm⟩
  · exact absurd h (by simp)

theorem step_loadIndices (h : step s .loadIndices = some next) :
    ∃ request, s.holder = some ⟨request, .locked⟩ ∧
      next = { s with
        holder := some ⟨request, .loaded s.log.appliedIndex s.log.commitIndex⟩ } := by
  unfold step at h
  simp only at h
  split at h
  · next request hi => exact ⟨request, hi, (Option.some.inj h).symm⟩
  · exact absurd h (by simp)

theorem step_collect (h : step s .collect = some next) :
    ∃ request appliedIndex commitIndex,
      s.holder = some ⟨request, .loaded appliedIndex commitIndex⟩ ∧
        next = { s with holder := some ⟨request, .applying
          (ConsensusLog.unappliedBetween s.log.entries appliedIndex commitIndex)⟩ } := by
  unfold step at h
  simp only at h
  split at h
  · next request appliedIndex commitIndex hi =>
    exact ⟨request, appliedIndex, commitIndex, hi, (Option.some.inj h).symm⟩
  · exact absurd h (by simp)

theorem step_applyNext {ok : Bool} (h : step s (.applyNext ok) = some next) :
    ∃ request entry rest, s.holder = some ⟨request, .applying (entry :: rest)⟩ ∧
      next = if ok then { s with
          applied := s.applied ++ [entry]
          holder := some ⟨request, .marking entry rest⟩ }
        else s.finish request false := by
  unfold step at h
  simp only at h
  split at h
  · next request entry rest hi =>
    refine ⟨request, entry, rest, hi, ?_⟩
    split_ifs at h ⊢ <;> exact (Option.some.inj h).symm
  · exact absurd h (by simp)

theorem step_mark (h : step s .mark = some next) :
    ∃ request entry rest, s.holder = some ⟨request, .marking entry rest⟩ ∧
      next = { s with
        log := s.log.markApplied entry.index
        holder := some ⟨request, .applying rest⟩ } := by
  unfold step at h
  simp only at h
  split at h
  · next request entry rest hi => exact ⟨request, entry, rest, hi, (Option.some.inj h).symm⟩
  · exact absurd h (by simp)

theorem step_answer (h : step s .answer = some next) :
    ∃ request, s.holder = some ⟨request, .applying []⟩ ∧ next = s.finish request true := by
  unfold step at h
  simp only at h
  split at h
  · next request hi => exact ⟨request, hi, (Option.some.inj h).symm⟩
  · exact absurd h (by simp)

theorem step_drop (h : step s (.drop i) = some next) :
    next = { s with waiting := s.waiting.eraseIdx i } := by
  unfold step at h
  simp only at h
  split_ifs at h
  exact (Option.some.inj h).symm

/-- A step only adds entries to the log. -/
theorem mem_entries_of_step {a : FollowerAction Op} (h : step s a = some next)
    {e : LogEntry Op} (he : e ∈ s.log.entries) : e ∈ next.log.entries := by
  cases a with
  | receive request =>
    obtain rfl := Option.some.inj h
    exact he
  | checkTerm i =>
    obtain ⟨request, -, term, waiting, answered, rfl, -⟩ := step_checkTerm h
    exact he
  | store i =>
    obtain ⟨request, -, rfl⟩ := step_store h
    exact ConsensusLog.mem_foldl_storeEntry_of_mem he
  | lockApply i =>
    obtain ⟨request, -, -, rfl⟩ := step_lockApply h
    exact he
  | loadIndices =>
    obtain ⟨request, -, rfl⟩ := step_loadIndices h
    exact he
  | collect =>
    obtain ⟨request, _, _, -, rfl⟩ := step_collect h
    exact he
  | applyNext ok =>
    obtain ⟨request, entry, rest, -, rfl⟩ := step_applyNext h
    split_ifs <;> exact he
  | mark =>
    obtain ⟨request, entry, rest, -, rfl⟩ := step_mark h
    exact he
  | answer =>
    obtain ⟨request, -, rfl⟩ := step_answer h
    exact he
  | drop i =>
    obtain rfl := step_drop h
    exact he

end Step

/-! ### Applying in order -/

/-- What the stage of the mutex holder says about the log and about what is applied: the entries
that remain are numbered from the next index on, and none is beyond the commit index. -/
def HolderOk (s : Follower Op) : ApplyStage Op → Prop
  | .locked => s.applied.length = s.log.appliedIndex
  | .loaded appliedIndex commitIndex =>
    s.applied.length = s.log.appliedIndex ∧ appliedIndex = s.log.appliedIndex ∧
      commitIndex ≤ s.log.commitIndex
  | .applying remaining =>
    s.applied.length = s.log.appliedIndex ∧
      NumberedFrom LogEntry.index (s.applied.length + 1) remaining ∧
      ∀ e ∈ remaining, e ∈ s.log.entries ∧ e.index ≤ s.log.commitIndex
  | .marking entry remaining =>
    s.applied.length = s.log.appliedIndex + 1 ∧ entry.index = s.applied.length ∧
      NumberedFrom LogEntry.index (s.applied.length + 1) remaining ∧
      ∀ e ∈ remaining, e ∈ s.log.entries ∧ e.index ≤ s.log.commitIndex

/-- The applied entries are entries of the log, numbered `1, 2, …` and committed, and the mutex
holder goes on after them. -/
structure Consistent (s : Follower Op) : Prop where
  numbered : NumberedFrom LogEntry.index 1 s.applied
  held : ∀ e ∈ s.applied, e ∈ s.log.entries ∧ e.index ≤ s.log.commitIndex
  free : s.holder = none → s.applied.length = s.log.appliedIndex
  holder : ∀ h, s.holder = some h → HolderOk s h.stage

theorem consistent_start : Consistent (start : Follower Op) where
  numbered := trivial
  held := by simp [start]
  free := fun _ ↦ rfl
  holder := by simp [start]

/-- The log may grow and the commit index rise beside the mutex holder. -/
theorem Consistent.mono {s t : Follower Op} (h : Consistent s)
    (hentries : ∀ e ∈ s.log.entries, e ∈ t.log.entries)
    (hcommit : s.log.commitIndex ≤ t.log.commitIndex)
    (hmarked : t.log.appliedIndex = s.log.appliedIndex) (happlied : t.applied = s.applied)
    (hholder : t.holder = s.holder) : Consistent t where
  numbered := happlied ▸ h.numbered
  held := by
    rw [happlied]
    exact fun e he ↦ ⟨hentries e (h.held e he).1, (h.held e he).2.trans hcommit⟩
  free := by
    rw [hholder, happlied, hmarked]
    exact h.free
  holder := by
    intro holder hsome
    have hok := h.holder holder (hholder ▸ hsome)
    have hgrow : ∀ remaining : List (LogEntry Op),
        (∀ e ∈ remaining, e ∈ s.log.entries ∧ e.index ≤ s.log.commitIndex) →
          ∀ e ∈ remaining, e ∈ t.log.entries ∧ e.index ≤ t.log.commitIndex :=
      fun _ hremaining e he ↦
        ⟨hentries e (hremaining e he).1, (hremaining e he).2.trans hcommit⟩
    obtain ⟨request, stage⟩ := holder
    change HolderOk s stage at hok
    change HolderOk t stage
    cases stage with
    | locked =>
      unfold HolderOk at hok ⊢
      rw [happlied, hmarked]
      exact hok
    | loaded appliedIndex commitIndex =>
      unfold HolderOk at hok ⊢
      rw [happlied, hmarked]
      exact ⟨hok.1, hok.2.1, hok.2.2.trans hcommit⟩
    | applying remaining =>
      unfold HolderOk at hok ⊢
      rw [happlied, hmarked]
      exact ⟨hok.1, hok.2.1, hgrow remaining hok.2.2⟩
    | marking entry remaining =>
      unfold HolderOk at hok ⊢
      rw [happlied, hmarked]
      exact ⟨hok.1, hok.2.1, hok.2.2.1, hgrow remaining hok.2.2.2⟩

/-- The mutex changes hands, or its holder goes on, without touching the log or the models. -/
theorem Consistent.setHolder {s t : Follower Op} (h : Consistent s) (hlog : t.log = s.log)
    (happlied : t.applied = s.applied)
    (hfree : t.holder = none → s.applied.length = s.log.appliedIndex)
    (hholder : ∀ holder, t.holder = some holder → HolderOk t holder.stage) : Consistent t where
  numbered := happlied ▸ h.numbered
  held := by
    rw [happlied, hlog]
    exact h.held
  free := by
    rw [happlied, hlog]
    exact hfree
  holder := hholder

/-- The mutex holder applies the first of the entries that remain. -/
theorem Consistent.applied {s : Follower Op} (h : Consistent s)
    {request : AppendEntriesRequest Op} {entry : LogEntry Op} {rest : List (LogEntry Op)}
    (hremaining : ∀ e ∈ entry :: rest, e ∈ s.log.entries ∧ e.index ≤ s.log.commitIndex)
    (hlength : s.applied.length = s.log.appliedIndex)
    (hindex : entry.index = s.applied.length + 1)
    (hrest : NumberedFrom LogEntry.index (s.applied.length + 1 + 1) rest) :
    Consistent { s with
      applied := s.applied ++ [entry]
      holder := some ⟨request, .marking entry rest⟩ } := by
  have hgrown : (s.applied ++ [entry]).length = s.applied.length + 1 := by simp
  constructor
  · refine numberedFrom_append.mpr ⟨h.numbered, ?_, trivial⟩
    omega
  · intro e he
    rcases List.mem_append.mp he with he | he
    · exact h.held e he
    · rw [List.mem_singleton.mp he]
      exact hremaining entry List.mem_cons_self
  · exact fun hnone ↦ absurd hnone (by simp)
  · rintro _ ⟨⟩
    refine ⟨hgrown.trans (congrArg (· + 1) hlength), hindex.trans hgrown.symm, ?_,
      fun e he ↦ hremaining e (List.mem_cons_of_mem _ he)⟩
    change NumberedFrom LogEntry.index ((s.applied ++ [entry]).length + 1) rest
    rw [hgrown]
    exact hrest

theorem kept_consistent : Kept step (Consistent : Follower Op → Prop) := by
  intro s a next h hnext
  cases a with
  | receive request =>
    obtain rfl := Option.some.inj hnext
    exact h.mono (fun _ he ↦ he) le_rfl rfl rfl rfl
  | checkTerm i =>
    obtain ⟨request, -, term, waiting, answered, rfl, -⟩ := step_checkTerm hnext
    exact h.mono (fun _ he ↦ he) le_rfl rfl rfl rfl
  | store i =>
    obtain ⟨request, -, rfl⟩ := step_store hnext
    exact h.mono (fun _ he ↦ ConsensusLog.mem_foldl_storeEntry_of_mem he) (le_max_left _ _) rfl
      rfl rfl
  | lockApply i =>
    obtain ⟨request, -, hfree, rfl⟩ := step_lockApply hnext
    refine h.setHolder rfl rfl (fun hnone ↦ absurd hnone (by simp)) ?_
    rintro _ ⟨⟩
    exact h.free hfree
  | loadIndices =>
    obtain ⟨request, hholder, rfl⟩ := step_loadIndices hnext
    have hok : HolderOk s .locked := h.holder _ hholder
    refine h.setHolder rfl rfl (fun hnone ↦ absurd hnone (by simp)) ?_
    rintro _ ⟨⟩
    exact ⟨hok, rfl, le_rfl⟩
  | collect =>
    obtain ⟨request, appliedIndex, commitIndex, hholder, rfl⟩ := step_collect hnext
    have hok : HolderOk s (.loaded appliedIndex commitIndex) := h.holder _ hholder
    obtain ⟨hlength, rfl, hcommit⟩ := hok
    refine h.setHolder rfl rfl (fun hnone ↦ absurd hnone (by simp)) ?_
    rintro _ ⟨⟩
    refine ⟨hlength, ?_, fun e he ↦ ⟨ConsensusLog.mem_of_mem_unappliedBetween he,
      (ConsensusLog.index_le_of_mem_unappliedBetween he).trans hcommit⟩⟩
    change NumberedFrom LogEntry.index (s.applied.length + 1) _
    rw [hlength]
    exact ConsensusLog.numberedFrom_unappliedBetween _ _ _
  | applyNext ok =>
    obtain ⟨request, entry, rest, hholder, rfl⟩ := step_applyNext hnext
    have hok : HolderOk s (.applying (entry :: rest)) := h.holder _ hholder
    obtain ⟨hlength, hnumbered, hremaining⟩ := hok
    obtain ⟨hindex, hrest⟩ := numberedFrom_cons.mp hnumbered
    cases ok with
    | true => exact h.applied hremaining hlength hindex hrest
    | false =>
      exact h.setHolder rfl rfl (fun _ ↦ hlength) fun _ hnone ↦ absurd hnone (by simp [finish])
  | mark =>
    obtain ⟨request, entry, rest, hholder, rfl⟩ := step_mark hnext
    have hok : HolderOk s (.marking entry rest) := h.holder _ hholder
    obtain ⟨hlength, hindex, hnumbered, hremaining⟩ := hok
    have hmarked : s.applied.length = max s.log.appliedIndex entry.index := by omega
    exact {
      numbered := h.numbered
      held := h.held
      free := fun hnone ↦ absurd hnone (by simp)
      holder := by
        rintro _ ⟨⟩
        exact ⟨hmarked, hnumbered, hremaining⟩ }
  | answer =>
    obtain ⟨request, hholder, rfl⟩ := step_answer hnext
    have hok : HolderOk s (.applying []) := h.holder _ hholder
    exact h.setHolder rfl rfl (fun _ ↦ hok.1) fun _ hnone ↦ absurd hnone (by simp [finish])
  | drop i =>
    obtain rfl := step_drop hnext
    exact h.mono (fun _ he ↦ he) le_rfl rfl rfl rfl

/-! ### Where the entries come from -/

/-- Every entry that a follower holds, or that waits in a request, is in the source list. -/
structure From (source : List (LogEntry Op)) (s : Follower Op) : Prop where
  waiting : ∀ h ∈ s.waiting, ∀ e ∈ h.request.entries, e ∈ source
  log : ∀ e ∈ s.log.entries, e ∈ source

theorem from_start (source : List (LogEntry Op)) : From source (start : Follower Op) where
  waiting := by simp [start]
  log := by simp [start, ConsensusLog.new]

theorem From.mono {source larger : List (LogEntry Op)} {s : Follower Op} (h : From source s)
    (hsub : ∀ e ∈ source, e ∈ larger) : From larger s where
  waiting := fun handler hmem e he ↦ hsub e (h.waiting handler hmem e he)
  log := fun e he ↦ hsub e (h.log e he)

/-- Changing the stage of a waiting handler brings in no entry. -/
theorem From.set {source : List (LogEntry Op)} {s : Follower Op} (h : From source s) {i : ℕ}
    {request : AppendEntriesRequest Op} {old : AppendStage}
    (hi : s.waiting[i]? = some ⟨request, old⟩) (new : AppendStage) :
    ∀ handler ∈ s.waiting.set i ⟨request, new⟩, ∀ e ∈ handler.request.entries, e ∈ source := by
  intro handler hmem e he
  rcases List.mem_or_eq_of_mem_set hmem with hmem | rfl
  · exact h.waiting handler hmem e he
  · exact h.waiting _ (List.mem_of_getElem? hi) e he

/-- A step brings in no entry but those of the request it receives. -/
theorem From.step {source : List (LogEntry Op)} {s next : Follower Op} {a : FollowerAction Op}
    (h : From source s) (hreceive : ∀ request, a = .receive request →
      ∀ e ∈ request.entries, e ∈ source) (hnext : step s a = some next) : From source next := by
  have herase : ∀ i, ∀ handler ∈ s.waiting.eraseIdx i, ∀ e ∈ handler.request.entries,
      e ∈ source :=
    fun i handler hmem ↦ h.waiting handler (List.mem_of_mem_eraseIdx hmem)
  cases a with
  | receive request =>
    obtain rfl := Option.some.inj hnext
    refine ⟨fun handler hmem e he ↦ ?_, h.log⟩
    rcases List.mem_append.mp hmem with hmem | hmem
    · exact h.waiting handler hmem e he
    · rw [List.mem_singleton.mp hmem] at he
      exact hreceive request rfl e he
  | checkTerm i =>
    obtain ⟨request, hi, term, waiting, answered, rfl, hcases⟩ := step_checkTerm hnext
    rcases hcases with ⟨rfl, -⟩ | ⟨rfl, -⟩
    · exact ⟨h.set hi .accepted, h.log⟩
    · exact ⟨herase i, h.log⟩
  | store i =>
    obtain ⟨request, hi, rfl⟩ := step_store hnext
    refine ⟨h.set hi .stored, fun e he ↦ ?_⟩
    rcases ConsensusLog.mem_of_mem_foldl_storeEntry he with he | he
    · exact h.log e he
    · exact h.waiting _ (List.mem_of_getElem? hi) e he
  | lockApply i =>
    obtain ⟨request, -, -, rfl⟩ := step_lockApply hnext
    exact ⟨herase i, h.log⟩
  | loadIndices =>
    obtain ⟨request, -, rfl⟩ := step_loadIndices hnext
    exact ⟨h.waiting, h.log⟩
  | collect =>
    obtain ⟨request, _, _, -, rfl⟩ := step_collect hnext
    exact ⟨h.waiting, h.log⟩
  | applyNext ok =>
    obtain ⟨request, entry, rest, -, rfl⟩ := step_applyNext hnext
    split_ifs <;> exact ⟨h.waiting, h.log⟩
  | mark =>
    obtain ⟨request, entry, rest, -, rfl⟩ := step_mark hnext
    exact ⟨h.waiting, h.log⟩
  | answer =>
    obtain ⟨request, -, rfl⟩ := step_answer hnext
    exact ⟨h.waiting, h.log⟩
  | drop i =>
    obtain rfl := step_drop hnext
    exact ⟨herase i, h.log⟩

/-! ### What a follower may apply -/

/-- Everything a follower has applied, or has collected to apply, satisfies `P`. -/
structure AppliesOnly (P : LogEntry Op → Prop) (s : Follower Op) : Prop where
  applied : ∀ e ∈ s.applied, P e
  holder : ∀ h, s.holder = some h → ∀ e ∈ h.stage.remaining, P e

theorem AppliesOnly.mono {P Q : LogEntry Op → Prop} {s : Follower Op} (h : AppliesOnly P s)
    (hPQ : ∀ e, P e → Q e) : AppliesOnly Q s where
  applied := fun e he ↦ hPQ e (h.applied e he)
  holder := fun holder hsome e he ↦ hPQ e (h.holder holder hsome e he)

/-- It is the collection that decides what will be applied. -/
theorem AppliesOnly.step {P : LogEntry Op → Prop} {s next : Follower Op} {a : FollowerAction Op}
    (h : AppliesOnly P s)
    (hcollect : a = .collect → ∀ holder appliedIndex commitIndex, s.holder = some holder →
      holder.stage = .loaded appliedIndex commitIndex →
        ∀ e ∈ s.log.entries, e.index ≤ commitIndex → P e)
    (hnext : step s a = some next) : AppliesOnly P next := by
  cases a with
  | receive request =>
    obtain rfl := Option.some.inj hnext
    exact ⟨h.applied, h.holder⟩
  | checkTerm i =>
    obtain ⟨request, hi, term, waiting, answered, rfl, -⟩ := step_checkTerm hnext
    exact ⟨h.applied, h.holder⟩
  | store i =>
    obtain ⟨request, -, rfl⟩ := step_store hnext
    exact ⟨h.applied, h.holder⟩
  | lockApply i =>
    obtain ⟨request, -, -, rfl⟩ := step_lockApply hnext
    refine ⟨h.applied, ?_⟩
    rintro _ ⟨⟩ e he
    exact absurd he List.not_mem_nil
  | loadIndices =>
    obtain ⟨request, -, rfl⟩ := step_loadIndices hnext
    refine ⟨h.applied, ?_⟩
    rintro _ ⟨⟩ e he
    exact absurd he List.not_mem_nil
  | collect =>
    obtain ⟨request, appliedIndex, commitIndex, hsome, rfl⟩ := step_collect hnext
    refine ⟨h.applied, ?_⟩
    rintro _ ⟨⟩ e he
    exact hcollect rfl _ appliedIndex commitIndex hsome rfl e
      (ConsensusLog.mem_of_mem_unappliedBetween he)
      (ConsensusLog.index_le_of_mem_unappliedBetween he)
  | applyNext ok =>
    obtain ⟨request, entry, rest, hsome, rfl⟩ := step_applyNext hnext
    have hremaining : ∀ e ∈ entry :: rest, P e := h.holder _ hsome
    cases ok with
    | true =>
      constructor
      · intro e he
        rcases List.mem_append.mp he with he | he
        · exact h.applied e he
        · exact hremaining e (List.mem_singleton.mp he ▸ List.mem_cons_self)
      · rintro _ ⟨⟩ e he
        exact hremaining e (List.mem_cons_of_mem _ he)
    | false => exact ⟨h.applied, fun _ hnone ↦ absurd hnone (by simp [finish])⟩
  | mark =>
    obtain ⟨request, entry, rest, hsome, rfl⟩ := step_mark hnext
    have hremaining : ∀ e ∈ rest, P e := h.holder _ hsome
    refine ⟨h.applied, ?_⟩
    rintro _ ⟨⟩ e he
    exact hremaining e he
  | answer =>
    obtain ⟨request, -, rfl⟩ := step_answer hnext
    exact ⟨h.applied, fun _ hnone ↦ absurd hnone (by simp [finish])⟩
  | drop i =>
    obtain rfl := step_drop hnext
    exact ⟨h.applied, h.holder⟩

/-! ### What an answer promises -/

/-- The log holds the identifier of every entry of the request. -/
def Holds (s : Follower Op) (request : AppendEntriesRequest Op) : Prop :=
  ∀ e ∈ request.entries, e.logId ∈ s.log.entries.map LogEntry.logId

/-- A request whose entries are stored, and a request answered with success, is held. -/
structure Promises (s : Follower Op) : Prop where
  waiting : ∀ h ∈ s.waiting, h.stage = .stored → Holds s h.request
  holder : ∀ h, s.holder = some h → Holds s h.request
  answered : ∀ a ∈ s.answered, a.2.success = true → Holds s a.1

theorem promises_start : Promises (start : Follower Op) where
  waiting := by simp [start]
  holder := by simp [start]
  answered := by simp [start]

theorem Holds.step {s next : Follower Op} {a : FollowerAction Op}
    {request : AppendEntriesRequest Op} (h : Holds s request) (hnext : step s a = some next) :
    Holds next request := by
  intro e he
  obtain ⟨held, hmem, hid⟩ := List.mem_map.mp (h e he)
  exact List.mem_map.mpr ⟨held, mem_entries_of_step hnext hmem, hid⟩

theorem kept_promises : Kept step (Promises : Follower Op → Prop) := by
  intro s a next h hnext
  have hwaiting : ∀ handler ∈ s.waiting, handler.stage = .stored → Holds next handler.request :=
    fun handler hmem hstage ↦ (h.waiting handler hmem hstage).step hnext
  have hholder : ∀ holder, s.holder = some holder → Holds next holder.request :=
    fun holder hsome ↦ (h.holder holder hsome).step hnext
  have hanswered : ∀ answer ∈ s.answered, answer.2.success = true → Holds next answer.1 :=
    fun answer hmem hsuccess ↦ (h.answered answer hmem hsuccess).step hnext
  have herase : ∀ i, ∀ handler ∈ s.waiting.eraseIdx i, handler.stage = .stored →
      Holds next handler.request :=
    fun i handler hmem ↦ hwaiting handler (List.mem_of_mem_eraseIdx hmem)
  have hset : ∀ i request stage, (stage = AppendStage.stored → Holds next request) →
      ∀ handler ∈ s.waiting.set i ⟨request, stage⟩, handler.stage = .stored →
        Holds next handler.request := by
    intro i request stage hnew handler hmem hstage
    rcases List.mem_or_eq_of_mem_set hmem with hmem | rfl
    · exact hwaiting handler hmem hstage
    · exact hnew hstage
  have hfinish : ∀ request success, (success = true → Holds next request) →
      ∀ answer ∈ s.answered ++ [(request, s.response success)], answer.2.success = true →
        Holds next answer.1 := by
    intro request success hnew answer hmem hsuccess
    rcases List.mem_append.mp hmem with hmem | hmem
    · exact hanswered answer hmem hsuccess
    · rw [List.mem_singleton.mp hmem] at hsuccess ⊢
      exact hnew hsuccess
  cases a with
  | receive request =>
    obtain rfl := Option.some.inj hnext
    refine ⟨fun handler hmem hstage ↦ ?_, hholder, hanswered⟩
    rcases List.mem_append.mp hmem with hmem | hmem
    · exact hwaiting handler hmem hstage
    · rw [List.mem_singleton.mp hmem] at hstage
      exact absurd hstage (by simp)
  | checkTerm i =>
    obtain ⟨request, hi, term, waiting, answered, rfl, hcases⟩ := step_checkTerm hnext
    rcases hcases with ⟨rfl, rfl⟩ | ⟨rfl, rfl⟩
    · exact ⟨hset i request .accepted (fun hstage ↦ absurd hstage (by simp)), hholder, hanswered⟩
    · exact ⟨herase i, hholder, hfinish request false fun hsuccess ↦ absurd hsuccess (by simp)⟩
  | store i =>
    obtain ⟨request, hi, rfl⟩ := step_store hnext
    exact ⟨hset i request .stored fun _ e he ↦ ConsensusLog.logId_mem_foldl_storeEntry he,
      hholder, hanswered⟩
  | lockApply i =>
    obtain ⟨request, hi, -, rfl⟩ := step_lockApply hnext
    refine ⟨herase i, ?_, hanswered⟩
    rintro _ ⟨⟩
    exact hwaiting _ (List.mem_of_getElem? hi) rfl
  | loadIndices =>
    obtain ⟨request, hsome, rfl⟩ := step_loadIndices hnext
    have hheld := hholder _ hsome
    refine ⟨hwaiting, ?_, hanswered⟩
    rintro _ ⟨⟩
    exact hheld
  | collect =>
    obtain ⟨request, _, _, hsome, rfl⟩ := step_collect hnext
    have hheld := hholder _ hsome
    refine ⟨hwaiting, ?_, hanswered⟩
    rintro _ ⟨⟩
    exact hheld
  | applyNext ok =>
    obtain ⟨request, entry, rest, hsome, rfl⟩ := step_applyNext hnext
    cases ok with
    | true =>
      have hheld := hholder _ hsome
      refine ⟨hwaiting, ?_, hanswered⟩
      rintro _ ⟨⟩
      exact hheld
    | false =>
      exact ⟨hwaiting, fun _ hnone ↦ absurd hnone (by simp [finish]),
        hfinish request false fun hsuccess ↦ absurd hsuccess (by simp)⟩
  | mark =>
    obtain ⟨request, entry, rest, hsome, rfl⟩ := step_mark hnext
    have hheld := hholder _ hsome
    refine ⟨hwaiting, ?_, hanswered⟩
    rintro _ ⟨⟩
    exact hheld
  | answer =>
    obtain ⟨request, hsome, rfl⟩ := step_answer hnext
    exact ⟨hwaiting, fun _ hnone ↦ absurd hnone (by simp [finish]),
      hfinish request true fun _ ↦ hholder _ hsome⟩
  | drop i =>
    obtain rfl := step_drop hnext
    exact ⟨herase i, hholder, hanswered⟩

end Follower

end Lithair.App
