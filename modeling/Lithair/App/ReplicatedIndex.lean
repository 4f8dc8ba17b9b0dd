import Lithair.App.Replication

/-!
# What the leader records of its followers

The senders of `app/mod.rs` with the index that `FollowerState` of `cluster/replication_batcher.rs`
has for each follower: the replication of a write handler and of a migration, the catch-up and the
batch of the background task, and the snapshots of a resync. The first records the last index that a
successful answer names. The catch-up and the batch look at the status alone, and record the last
index they sent. A resync records 0. Each overwrites what was there.

A follower stores what it gets without a look at what comes before it. `recorded_of_checked` says
what would have to be checked for the recorded index to be one up to which the follower holds every
entry, and never to decrease.
-/

namespace Lithair.App

open Lithair.Cluster Lithair.Lib.OrderedList Lithair.Lib.Run

variable {Op : Type*} {n : ℕ}

/-- Who has sent a request: `replicate_log_entries_to_followers`, or one of the two senders of the
background task. -/
inductive Sender
  | foreground
  | catchUp
  | batch
  deriving DecidableEq

/-- A request on its way to a follower, or waiting for the answer. -/
structure Send (Op : Type*) (n : ℕ) where
  peer : Fin n
  sender : Sender
  request : AppendEntriesRequest Op

/-- The leader and its followers, the greatest index that a snapshot of a follower covers, the
requests that were sent, the follower and the index that the catch-up has loaded, the followers
whose answer to a snapshot is on its way, and the recorded index of each follower. -/
structure TrackedCluster (Op : Type*) (n : ℕ) where
  leader : Leader Op
  followers : Fin n → Follower Op
  covered : Fin n → ℕ
  sends : List (Send Op n)
  loaded : Option (Fin n × ℕ)
  installed : List (Fin n)
  lastReplicatedIndex : Fin n → ℕ

/-- A move of the leader; a handler that reads the log and sends it; the replication of a single
entry; the two halves of a catch-up; a batch; the arrival of a request; a move of a follower; a
snapshot installed by a follower; an answer of a follower to a request, and to a snapshot. Which
peers a request goes to depends on their health, and is left to the environment. -/
inductive TrackedAction (Op : Type*) (n : ℕ)
  | leader (a : LeaderAction Op)
  | replicate (i : ℕ) (peers : List (Fin n))
  | replicateEntry (e : LogEntry Op) (peers : List (Fin n)) (leaderCommit : ℕ)
  | loadIndex (f : Fin n)
  | sendMissing (leaderCommit : ℕ)
  | sendBatch
  | deliver (k : ℕ)
  | follower (f : Fin n) (a : FollowerAction Op)
  | installSnapshot (f : Fin n) (term lastIncludedIndex : ℕ)
  | recordAnswer (k : ℕ) (response : AppendEntriesResponse)
  | recordResync (j : ℕ)

/-- The index recorded after an answer with status 200, if one is. -/
def Send.recordedIndex (send : Send Op n) (response : AppendEntriesResponse) : Option ℕ :=
  match send.sender with
  | .foreground => if response.success then some response.lastLogIndex else none
  | .catchUp | .batch => some (lastIndexOr send.request.entries 0)

namespace TrackedCluster

def start (n term : ℕ) : TrackedCluster Op n where
  leader := .start term
  followers := fun _ ↦ .start
  covered := fun _ ↦ 0
  sends := []
  loaded := none
  installed := []
  lastReplicatedIndex := fun _ ↦ 0

/-- Send the entries to each of the peers. -/
def send (s : TrackedCluster Op n) (sender : Sender) (peers : List (Fin n))
    (entries : List (LogEntry Op)) (leaderCommit : ℕ) : TrackedCluster Op n :=
  { s with sends := s.sends ++ peers.map fun peer ↦
      { peer, sender
        request := ⟨s.leader.log.currentTerm, 0, 0, 0, entries, leaderCommit⟩ } }

def setFollower (s : TrackedCluster Op n) (f : Fin n) (follower : Follower Op) :
    TrackedCluster Op n :=
  { s with followers := Function.update s.followers f follower }

/-- `record_success`, of which only the index matters here. -/
def recordSuccess (s : TrackedCluster Op n) (f : Fin n) (replicatedIndex : ℕ) :
    TrackedCluster Op n :=
  { s with lastReplicatedIndex := Function.update s.lastReplicatedIndex f replicatedIndex }

def step [DecidableEq Op] (s : TrackedCluster Op n) :
    TrackedAction Op n → Option (TrackedCluster Op n)
  | .leader (.readEntries _) => none
  | .leader a => (s.leader.step n a).map fun leader ↦ { s with leader }
  | .replicate i peers =>
    (s.leader.step n (.readEntries i)).map fun leader ↦
      { s with leader }.send .foreground peers (s.leader.log.getEntriesFrom 1) i
  | .replicateEntry e peers leaderCommit =>
    if e ∈ s.leader.log.entries then some (s.send .foreground peers [e] leaderCommit) else none
  | .loadIndex f => some { s with loaded := some (f, s.lastReplicatedIndex f) }
  | .sendMissing leaderCommit =>
    match s.loaded with
    | some (f, followerIndex) =>
      let missing := s.leader.log.getEntriesFrom (followerIndex + 1)
      if followerIndex < leaderCommit ∧ leaderCommit ≤ s.leader.log.commitIndex ∧
          missing.isEmpty = false then
        some ({ s with loaded := none }.send .catchUp [f] missing leaderCommit)
      else none
    | none => none
  | .sendBatch =>
    if s.leader.immediateBatch = [] then none
    else
      some ({ s with leader := { s.leader with immediateBatch := [] } }.send .batch
        (List.finRange n) s.leader.immediateBatch
        (ClusterState.maxIndex s.leader.immediateBatch))
  | .deliver k =>
    match s.sends[k]? with
    | some send =>
      ((s.followers send.peer).step (.receive send.request)).map (s.setFollower send.peer)
    | none => none
  | .follower _ (.receive _) => none
  | .follower f a => ((s.followers f).step a).map (s.setFollower f)
  | .installSnapshot f term lastIncludedIndex =>
    let follower := s.followers f
    some { s.setFollower f { follower with
        log := (follower.log.setTerm term).markApplied lastIncludedIndex } with
      covered := Function.update s.covered f (max (s.covered f) lastIncludedIndex)
      installed := s.installed ++ [f] }
  | .recordAnswer k response =>
    match s.sends[k]? with
    | some send =>
      if (send.request, response) ∈ (s.followers send.peer).answered then
        let s := { s with sends := s.sends.eraseIdx k }
        match send.recordedIndex response with
        | some replicatedIndex => some (s.recordSuccess send.peer replicatedIndex)
        | none => some s
      else none
    | none => none
  | .recordResync j =>
    match s.installed[j]? with
    | some f => some ({ s with installed := s.installed.eraseIdx j }.recordSuccess f 0)
    | none => none

/-! ### What is meant to hold -/

/-- The follower has every entry of the leader's log up to the index, or a snapshot with it. -/
def HoldsUpTo (s : TrackedCluster Op n) (f : Fin n) (index : ℕ) : Prop :=
  ∀ e ∈ s.leader.log.entries, e.index ≤ index →
    e ∈ (s.followers f).log.entries ∨ e.index ≤ s.covered f

/-- What is recorded of a follower is an index up to which it holds every entry. -/
def RecordedHeld (s : TrackedCluster Op n) : Prop :=
  ∀ f, s.HoldsUpTo f (s.lastReplicatedIndex f)

/-- The step decreases no recorded index. -/
def NeverRecordsLess [DecidableEq Op] (s : TrackedCluster Op n) (a : TrackedAction Op n) : Prop :=
  ∀ next, step s a = some next → ∀ f, s.lastReplicatedIndex f ≤ next.lastReplicatedIndex f

/-- The entries of the request continue what the follower has: it lacks nothing before any of
them. -/
def Continues (s : TrackedCluster Op n) (f : Fin n) (request : AppendEntriesRequest Op) : Prop :=
  ∀ e ∈ request.entries, ∀ earlier ∈ s.leader.log.entries, earlier.index ≤ e.index →
    earlier ∈ request.entries ∨ earlier ∈ (s.followers f).log.entries ∨
      earlier.index ≤ s.covered f

/-- What the code would have to check: entries come into the leader's log in the order of their
indices; a follower stores only what continues what it has; the background task records only what
was answered with success; and nothing is recorded that is less than what is there. -/
def Checked (s : TrackedCluster Op n) : TrackedAction Op n → Prop
  | .leader (.insertEntry i) => ∀ handler, s.leader.handlers i = some handler →
      ∀ e ∈ s.leader.log.entries, e.index < handler.entry.index
  | .follower f (.store i) => ∀ handler, (s.followers f).waiting[i]? = some handler →
      s.Continues f handler.request
  | .recordAnswer k response => ∀ send, s.sends[k]? = some send →
      (send.sender ≠ .foreground → response.success = true) ∧
        ∀ index, send.recordedIndex response = some index →
          s.lastReplicatedIndex send.peer ≤ index
  | .recordResync j => ∀ f, s.installed[j]? = some f → s.lastReplicatedIndex f = 0
  | _ => True

/-! ### What each action does -/

section Step

variable [DecidableEq Op] {s next : TrackedCluster Op n}

/-- A move of the leader that is not reading the log to send it. -/
theorem step_leader {a : LeaderAction Op} (h : step s (.leader a) = some next) :
    ∃ leader, s.leader.step n a = some leader ∧ next = { s with leader } := by
  cases a with
  | readEntries i => exact absurd h (Option.some_ne_none next).symm
  | accept operation timestampMs =>
    exact ⟨_, rfl, (Option.some.inj h).symm⟩
  | insertEntry i | queueEntry i | walDone i ok | replicationDone i successCount | join i
  | commitTimeout i | lockApply i | applyOperation i ok | markApplied i | drop i =>
    obtain ⟨leader, hstep, rfl⟩ := Option.map_eq_some_iff.mp h
    exact ⟨leader, hstep, rfl⟩

theorem step_replicate {i : ℕ} {peers : List (Fin n)}
    (h : step s (.replicate i peers) = some next) :
    ∃ leader, s.leader.step n (.readEntries i) = some leader ∧
      next = { s with leader }.send .foreground peers (s.leader.log.getEntriesFrom 1) i := by
  obtain ⟨leader, hstep, rfl⟩ := Option.map_eq_some_iff.mp h
  exact ⟨leader, hstep, rfl⟩

theorem step_replicateEntry {e : LogEntry Op} {peers : List (Fin n)} {leaderCommit : ℕ}
    (h : step s (.replicateEntry e peers leaderCommit) = some next) :
    e ∈ s.leader.log.entries ∧ next = s.send .foreground peers [e] leaderCommit := by
  unfold step at h
  simp only at h
  split_ifs at h with he
  exact ⟨he, (Option.some.inj h).symm⟩

theorem step_sendMissing {leaderCommit : ℕ} (h : step s (.sendMissing leaderCommit) = some next) :
    ∃ f followerIndex, next = { s with loaded := none }.send .catchUp [f]
      (s.leader.log.getEntriesFrom (followerIndex + 1)) leaderCommit := by
  unfold step at h
  simp only at h
  split at h
  · next f followerIndex hloaded =>
    split_ifs at h
    exact ⟨f, followerIndex, (Option.some.inj h).symm⟩
  · exact absurd h (by simp)

theorem step_sendBatch (h : step s .sendBatch = some next) :
    next = { s with leader := { s.leader with immediateBatch := [] } }.send .batch
      (List.finRange n) s.leader.immediateBatch
      (ClusterState.maxIndex s.leader.immediateBatch) := by
  unfold step at h
  simp only at h
  split_ifs at h
  exact (Option.some.inj h).symm

theorem step_deliver {k : ℕ} (h : step s (.deliver k) = some next) :
    ∃ send ∈ s.sends, ∃ follower,
      (s.followers send.peer).step (.receive send.request) = some follower ∧
        next = s.setFollower send.peer follower := by
  unfold step at h
  simp only at h
  split at h
  · next send hk =>
    obtain ⟨follower, hstep, rfl⟩ := Option.map_eq_some_iff.mp h
    exact ⟨send, List.mem_of_getElem? hk, follower, hstep, rfl⟩
  · exact absurd h (by simp)

theorem step_follower {f : Fin n} {a : FollowerAction Op}
    (h : step s (.follower f a) = some next) :
    (∀ request, a ≠ .receive request) ∧ ∃ follower, (s.followers f).step a = some follower ∧
      next = s.setFollower f follower := by
  cases a with
  | receive request => exact absurd h (Option.some_ne_none next).symm
  | checkTerm i | store i | lockApply i | loadIndices | collect | applyNext ok | mark | answer
  | drop i =>
    obtain ⟨follower, hstep, rfl⟩ := Option.map_eq_some_iff.mp h
    exact ⟨by simp, follower, hstep, rfl⟩

theorem step_recordAnswer {k : ℕ} {response : AppendEntriesResponse}
    (h : step s (.recordAnswer k response) = some next) :
    ∃ send, s.sends[k]? = some send ∧
      (send.request, response) ∈ (s.followers send.peer).answered ∧
      ((∃ index, send.recordedIndex response = some index ∧
          next = { s with sends := s.sends.eraseIdx k }.recordSuccess send.peer index) ∨
        send.recordedIndex response = none ∧ next = { s with sends := s.sends.eraseIdx k }) := by
  unfold step at h
  simp only at h
  split at h
  · next send hk =>
    split_ifs at h with hanswered
    refine ⟨send, hk, hanswered, ?_⟩
    split at h
    · next index hindex => exact Or.inl ⟨index, hindex, (Option.some.inj h).symm⟩
    · next hnone => exact Or.inr ⟨hnone, (Option.some.inj h).symm⟩
  · exact absurd h (by simp)

theorem step_recordResync {j : ℕ} (h : step s (.recordResync j) = some next) :
    ∃ f, s.installed[j]? = some f ∧
      next = { s with installed := s.installed.eraseIdx j }.recordSuccess f 0 := by
  unfold step at h
  simp only at h
  split at h
  · next f hj => exact ⟨f, hj, (Option.some.inj h).symm⟩
  · exact absurd h (by simp)

end Step

end TrackedCluster

namespace Leader

/-- Only a handler that inserts its entry adds to the log. -/
theorem entries_of_step {peers : ℕ} {s next : Leader Op} {a : LeaderAction Op}
    (ha : ∀ i, a ≠ .insertEntry i) (h : step peers s a = some next) :
    next.log.entries = s.log.entries := by
  cases a with
  | insertEntry i => exact absurd rfl (ha i)
  | accept operation timestampMs =>
    obtain rfl := step_accept h
    rfl
  | queueEntry i =>
    obtain ⟨entry, -, rfl⟩ := step_queueEntry h
    rfl
  | readEntries i =>
    obtain ⟨entry, wal, -, rfl⟩ := step_readEntries h
    rfl
  | walDone i ok =>
    obtain ⟨entry, sent, replication, -, rfl⟩ := step_walDone h
    rfl
  | replicationDone i successCount =>
    obtain ⟨entry, entries, wal, -, -, rfl⟩ := step_replicationDone h
    rfl
  | join i =>
    rcases step_join h with ⟨_, -, -, rfl⟩ | ⟨entry, sent, c, -, rfl⟩
    · rfl
    · rfl
  | commitTimeout i =>
    obtain ⟨entry, -, -, rfl⟩ := step_commitTimeout h
    rfl
  | lockApply i =>
    obtain ⟨entry, -, -, rfl⟩ := step_lockApply h
    rfl
  | applyOperation i ok =>
    obtain ⟨entry, -, rfl⟩ := step_applyOperation h
    split_ifs
    · rfl
    · rfl
  | markApplied i =>
    obtain ⟨entry, -, rfl⟩ := step_markApplied h
    rfl
  | drop i =>
    obtain ⟨handler, -, rfl⟩ := step_drop h
    rfl

end Leader

/-! ### The indices that answers name -/

namespace Follower

/-- The index is that of an entry in the log, or there is none. -/
def Reaches (s : Follower Op) (index : ℕ) : Prop :=
  index = 0 ∨ ∃ e ∈ s.log.entries, e.index = index

/-- Every answer names an index that the log reaches. -/
def AnswersHeld (s : Follower Op) : Prop := ∀ a ∈ s.answered, s.Reaches a.2.lastLogIndex

theorem reaches_lastIndex (s : Follower Op) : s.Reaches s.log.lastIndex := by
  unfold Reaches ConsensusLog.lastIndex
  cases hlast : s.log.entries.getLast? with
  | none => exact Or.inl rfl
  | some e => exact Or.inr ⟨e, List.mem_of_getLast? hlast, rfl⟩

section Step

variable {s next : Follower Op} {a : FollowerAction Op}

theorem Reaches.mono {index : ℕ} (h : s.Reaches index)
    (hentries : ∀ e ∈ s.log.entries, e ∈ next.log.entries) : next.Reaches index :=
  h.imp id fun ⟨e, he, hindex⟩ ↦ ⟨e, hentries e he, hindex⟩

/-- A step leaves the answers as they are, or adds one with the last index of the log. -/
theorem answered_of_step (h : step s a = some next) :
    ∀ answer ∈ next.answered, answer ∈ s.answered ∨ answer.2.lastLogIndex = s.log.lastIndex := by
  have hfinish : ∀ request success, ∀ answer ∈ (s.finish request success).answered,
      answer ∈ s.answered ∨ answer.2.lastLogIndex = s.log.lastIndex := by
    intro request success answer hanswer
    rcases List.mem_append.mp hanswer with hold | hnew
    · exact Or.inl hold
    · rw [List.mem_singleton.mp hnew]
      exact Or.inr rfl
  cases a with
  | receive request =>
    obtain rfl := Option.some.inj h
    exact fun _ ↦ Or.inl
  | checkTerm i =>
    obtain ⟨request, -, term, waiting, answered, rfl, hcases⟩ := step_checkTerm h
    rcases hcases with ⟨-, rfl⟩ | ⟨-, rfl⟩
    · exact fun _ ↦ Or.inl
    · exact hfinish request false
  | store i =>
    obtain ⟨request, -, rfl⟩ := step_store h
    exact fun _ ↦ Or.inl
  | lockApply i =>
    obtain ⟨request, -, -, rfl⟩ := step_lockApply h
    exact fun _ ↦ Or.inl
  | loadIndices =>
    obtain ⟨request, -, rfl⟩ := step_loadIndices h
    exact fun _ ↦ Or.inl
  | collect =>
    obtain ⟨request, _, _, -, rfl⟩ := step_collect h
    exact fun _ ↦ Or.inl
  | applyNext ok =>
    obtain ⟨request, entry, rest, -, rfl⟩ := step_applyNext h
    split_ifs
    · exact fun _ ↦ Or.inl
    · exact hfinish request false
  | mark =>
    obtain ⟨request, entry, rest, -, rfl⟩ := step_mark h
    exact fun _ ↦ Or.inl
  | answer =>
    obtain ⟨request, -, rfl⟩ := step_answer h
    exact hfinish request true
  | drop i =>
    obtain rfl := step_drop h
    exact fun _ ↦ Or.inl

theorem AnswersHeld.step (h : s.AnswersHeld) (hnext : step s a = some next) :
    next.AnswersHeld := by
  intro answer hanswer
  have hentries : ∀ e ∈ s.log.entries, e ∈ next.log.entries :=
    fun e he ↦ mem_entries_of_step hnext he
  rcases answered_of_step hnext answer hanswer with hold | hlast
  · exact (h answer hold).mono hentries
  · rw [hlast]
    exact (reaches_lastIndex s).mono hentries

/-- Only the storing of a request adds entries, which are entries of the request. -/
theorem entries_of_step (h : step s a = some next) {e : LogEntry Op}
    (he : e ∈ next.log.entries) :
    e ∈ s.log.entries ∨ ∃ i handler, a = .store i ∧ s.waiting[i]? = some handler ∧
      e ∈ handler.request.entries ∧ next.Holds handler.request := by
  cases a with
  | receive request =>
    obtain rfl := Option.some.inj h
    exact Or.inl he
  | checkTerm i =>
    obtain ⟨request, -, term, waiting, answered, rfl, -⟩ := step_checkTerm h
    exact Or.inl he
  | store i =>
    obtain ⟨request, hi, rfl⟩ := step_store h
    rcases ConsensusLog.mem_of_mem_foldl_storeEntry he with hold | hnew
    · exact Or.inl hold
    · exact Or.inr ⟨i, _, rfl, hi, hnew,
        fun stored hstored ↦ ConsensusLog.logId_mem_foldl_storeEntry hstored⟩
  | lockApply i =>
    obtain ⟨request, -, -, rfl⟩ := step_lockApply h
    exact Or.inl he
  | loadIndices =>
    obtain ⟨request, -, rfl⟩ := step_loadIndices h
    exact Or.inl he
  | collect =>
    obtain ⟨request, _, _, -, rfl⟩ := step_collect h
    exact Or.inl he
  | applyNext ok =>
    obtain ⟨request, entry, rest, -, rfl⟩ := step_applyNext h
    split_ifs at he
    · exact Or.inl he
    · exact Or.inl he
  | mark =>
    obtain ⟨request, entry, rest, -, rfl⟩ := step_mark h
    exact Or.inl he
  | answer =>
    obtain ⟨request, -, rfl⟩ := step_answer h
    exact Or.inl he
  | drop i =>
    obtain rfl := step_drop h
    exact Or.inl he

end Step

end Follower

namespace TrackedCluster

/-! ### What every run keeps -/

/-- Every entry anywhere is one of the leader's, and the answers keep their promises. -/
structure Known (s : TrackedCluster Op n) : Prop where
  leader : s.leader.Inv
  sends : ∀ send ∈ s.sends, ∀ e ∈ send.request.entries, e ∈ s.leader.log.entries
  source : ∀ f, (s.followers f).From s.leader.log.entries
  promises : ∀ f, (s.followers f).Promises
  answers : ∀ f, (s.followers f).AnswersHeld

theorem known_start (term : ℕ) : Known (start n term : TrackedCluster Op n) where
  leader := Leader.inv_start term
  sends := by simp [start]
  source := fun _ ↦ Follower.from_start _
  promises := fun _ ↦ Follower.promises_start
  answers := by simp [start, Follower.start, Follower.AnswersHeld]

section Known

variable {s : TrackedCluster Op n} {f : Fin n}

/-- A follower that has the identifier of an entry of the leader's has the entry. -/
theorem Known.mem_of_logId (h : s.Known) {e : LogEntry Op} (he : e ∈ s.leader.log.entries)
    (hid : e.logId ∈ (s.followers f).log.entries.map LogEntry.logId) :
    e ∈ (s.followers f).log.entries := by
  obtain ⟨held, hmem, heq⟩ := List.mem_map.mp hid
  rwa [h.leader.sorted.eq_of_key_eq he ((h.source f).log held hmem) heq.symm]

/-- An answered request is held. -/
theorem Known.mem_of_answered (h : s.Known) {send : Send Op n} (hsend : send ∈ s.sends)
    {response : AppendEntriesResponse}
    (hanswered : (send.request, response) ∈ (s.followers send.peer).answered)
    (hsuccess : response.success = true) {e : LogEntry Op} (he : e ∈ send.request.entries) :
    e ∈ (s.followers send.peer).log.entries :=
  h.mem_of_logId (h.sends send hsend e he)
    ((h.promises send.peer).answered _ hanswered hsuccess e he)

theorem Known.send (h : s.Known) {sender : Sender} {peers : List (Fin n)}
    {entries : List (LogEntry Op)} {leaderCommit : ℕ}
    (hentries : ∀ e ∈ entries, e ∈ s.leader.log.entries) :
    (s.send sender peers entries leaderCommit).Known where
  leader := h.leader
  sends := by
    intro send hsend
    rcases List.mem_append.mp hsend with hold | hnew
    · exact h.sends send hold
    · obtain ⟨peer, -, rfl⟩ := List.mem_map.mp hnew
      exact hentries
  source := h.source
  promises := h.promises
  answers := h.answers

theorem Known.leaderStep (h : s.Known) {a : LeaderAction Op} {leader : Leader Op}
    (hstep : s.leader.step n a = some leader) :
    ({ s with leader } : TrackedCluster Op n).Known := by
  have hentries : ∀ e ∈ s.leader.log.entries, e ∈ leader.log.entries :=
    fun e he ↦ Leader.mem_entries_of_step hstep he
  exact {
    leader := Leader.kept_inv n _ _ _ h.leader hstep
    sends := fun send hsend e he ↦ hentries e (h.sends send hsend e he)
    source := fun f ↦ (h.source f).mono hentries
    promises := h.promises
    answers := h.answers }

theorem Known.followerStep (h : s.Known) {a : FollowerAction Op} {follower : Follower Op}
    (hstep : (s.followers f).step a = some follower)
    (hreceive : ∀ request, a = .receive request → ∀ e ∈ request.entries,
      e ∈ s.leader.log.entries) : (s.setFollower f follower).Known where
  leader := h.leader
  sends := h.sends
  source := ClusterState.forall_update h.source ((h.source f).step hreceive hstep)
  promises := ClusterState.forall_update h.promises
    (Follower.kept_promises _ _ _ (h.promises f) hstep)
  answers := ClusterState.forall_update h.answers ((h.answers f).step hstep)

/-- A snapshot changes neither the entries nor the answers of the follower. -/
theorem Known.installSnapshot (h : s.Known) (term lastIncludedIndex : ℕ) :
    (s.setFollower f { s.followers f with
      log := ((s.followers f).log.setTerm term).markApplied lastIncludedIndex }).Known where
  leader := h.leader
  sends := h.sends
  source := ClusterState.forall_update h.source ⟨(h.source f).waiting, (h.source f).log⟩
  promises := ClusterState.forall_update h.promises
    ⟨(h.promises f).waiting, (h.promises f).holder, (h.promises f).answered⟩
  answers := ClusterState.forall_update h.answers (h.answers f)

end Known

/-! ### What a checked run keeps -/

/-- A follower lacks nothing before an entry that it has, and has the entry of the index that is
recorded for it. -/
structure Tracked (s : TrackedCluster Op n) : Prop where
  known : s.Known
  closed : ∀ f, ∀ e ∈ (s.followers f).log.entries, s.HoldsUpTo f e.index
  reached : ∀ f, (s.followers f).Reaches (s.lastReplicatedIndex f)

theorem tracked_start (term : ℕ) : Tracked (start n term : TrackedCluster Op n) where
  known := known_start term
  closed := by simp [start, Follower.start, ConsensusLog.new]
  reached := fun _ ↦ Or.inl rfl

section Tracked

variable {s next : TrackedCluster Op n} {f : Fin n}

theorem Tracked.recordedHeld (h : s.Tracked) : s.RecordedHeld := by
  intro f e he hle
  rcases h.reached f with hzero | ⟨last, hlast, hindex⟩
  · have hpos : 1 ≤ e.index := h.known.leader.pos e he
    omega
  · exact h.closed f last hlast e he (hle.trans_eq hindex.symm)

/-- All that matters are the entries, the snapshots and the recorded indices. -/
theorem Tracked.congr (h : s.Tracked) (hknown : next.Known)
    (hleader : next.leader.log.entries = s.leader.log.entries)
    (hentries : ∀ f, (next.followers f).log.entries = (s.followers f).log.entries)
    (hcovered : ∀ f, s.covered f ≤ next.covered f)
    (hindex : next.lastReplicatedIndex = s.lastReplicatedIndex) : next.Tracked where
  known := hknown
  closed := by
    intro f e he earlier hearlier hle
    rw [hentries] at he ⊢
    rw [hleader] at hearlier
    exact (h.closed f e he earlier hearlier hle).imp_right fun hold ↦ hold.trans (hcovered f)
  reached := by
    intro f
    rw [hindex]
    exact (h.reached f).mono fun e he ↦ (hentries f).symm ▸ he

theorem Tracked.send (h : s.Tracked) {sender : Sender} {peers : List (Fin n)}
    {entries : List (LogEntry Op)} {leaderCommit : ℕ}
    (hsent : ∀ e ∈ entries, e ∈ s.leader.log.entries) :
    (s.send sender peers entries leaderCommit).Tracked :=
  h.congr (h.known.send hsent) rfl (fun _ ↦ rfl) (fun _ ↦ le_rfl) rfl

/-- New entries come behind all others, and so behind all that a follower has. -/
theorem Tracked.leaderStep (h : s.Tracked) {a : LeaderAction Op} {leader : Leader Op}
    (hstep : s.leader.step n a = some leader)
    (hnew : ∀ e ∈ leader.log.entries, e ∈ s.leader.log.entries ∨
      ∀ old ∈ s.leader.log.entries, old.index < e.index) :
    ({ s with leader } : TrackedCluster Op n).Tracked where
  known := h.known.leaderStep hstep
  closed := by
    intro f e he earlier hearlier hle
    rcases hnew earlier hearlier with hold | hlater
    · exact h.closed f e he earlier hold hle
    · exact absurd (hlater e ((h.known.source f).log e he)) (not_lt.mpr hle)
  reached := h.reached

theorem Tracked.followerStep (h : s.Tracked) {a : FollowerAction Op} {follower : Follower Op}
    (hstep : (s.followers f).step a = some follower)
    (hreceive : ∀ request, a = .receive request → ∀ e ∈ request.entries,
      e ∈ s.leader.log.entries)
    (hstore : ∀ i handler, a = .store i → (s.followers f).waiting[i]? = some handler →
      s.Continues f handler.request) : (s.setFollower f follower).Tracked := by
  have hknown : (s.setFollower f follower).Known := h.known.followerStep hstep hreceive
  have hself : (s.setFollower f follower).followers f = follower := Function.update_self _ _ _
  have hgrows : ∀ e ∈ (s.followers f).log.entries, e ∈ follower.log.entries :=
    fun e he ↦ Follower.mem_entries_of_step hstep he
  refine ⟨hknown, fun g e he earlier hearlier hle ↦ ?_, fun g ↦ ?_⟩
  · by_cases hg : g = f
    · subst hg
      rw [hself] at he ⊢
      rcases Follower.entries_of_step hstep he with hold | ⟨i, handler, ha, hi, hnew, hholds⟩
      · exact (h.closed g e hold earlier hearlier hle).imp_left (hgrows earlier)
      · rcases hstore i handler ha hi e hnew earlier hearlier hle with hsent | hhad | hcovered
        · have hid : earlier.logId ∈
              ((s.setFollower g follower).followers g).log.entries.map LogEntry.logId := by
            rw [hself]
            exact hholds earlier hsent
          have hmem := hknown.mem_of_logId hearlier hid
          rw [hself] at hmem
          exact Or.inl hmem
        · exact Or.inl (hgrows earlier hhad)
        · exact Or.inr hcovered
    · have hother : (s.setFollower f follower).followers g = s.followers g :=
        Function.update_of_ne hg _ _
      rw [hother] at he ⊢
      exact h.closed g e he earlier hearlier hle
  · by_cases hg : g = f
    · subst hg
      rw [hself]
      exact (h.reached g).mono hgrows
    · have hother : (s.setFollower f follower).followers g = s.followers g :=
        Function.update_of_ne hg _ _
      rw [hother]
      exact h.reached g

theorem Tracked.installSnapshot (h : s.Tracked) (term lastIncludedIndex : ℕ) :
    Tracked { s.setFollower f { s.followers f with
        log := ((s.followers f).log.setTerm term).markApplied lastIncludedIndex } with
      covered := Function.update s.covered f (max (s.covered f) lastIncludedIndex)
      installed := s.installed ++ [f] } := by
  have hset := h.known.installSnapshot (f := f) term lastIncludedIndex
  refine h.congr ⟨hset.leader, hset.sends, hset.source, hset.promises, hset.answers⟩ rfl
    (fun g ↦ ?_) (fun g ↦ ?_) rfl
  · by_cases hg : g = f
    · subst hg
      change (Function.update s.followers g _ g).log.entries = _
      rw [Function.update_self]
      rfl
    · change (Function.update s.followers f _ g).log.entries = _
      rw [Function.update_of_ne hg]
  · by_cases hg : g = f
    · subst hg
      change s.covered g ≤ Function.update s.covered g _ g
      rw [Function.update_self]
      exact le_max_left _ _
    · change s.covered g ≤ Function.update s.covered f _ g
      rw [Function.update_of_ne hg]

theorem Tracked.recordSuccess (h : s.Tracked) {index : ℕ}
    (hindex : (s.followers f).Reaches index) : (s.recordSuccess f index).Tracked where
  known := ⟨h.known.leader, h.known.sends, h.known.source, h.known.promises, h.known.answers⟩
  closed := h.closed
  reached := by
    intro g
    by_cases hg : g = f
    · subst hg
      change (s.followers g).Reaches (Function.update s.lastReplicatedIndex g index g)
      rwa [Function.update_self]
    · change (s.followers g).Reaches (Function.update s.lastReplicatedIndex f index g)
      rw [Function.update_of_ne hg]
      exact h.reached g

/-- The entry of a checked insertion comes behind all others. -/
theorem insertsLast_of_checked {a : LeaderAction Op} {leader : Leader Op}
    (hchecked : s.Checked (.leader a)) (hstep : s.leader.step n a = some leader) :
    ∀ e ∈ leader.log.entries, e ∈ s.leader.log.entries ∨
      ∀ old ∈ s.leader.log.entries, old.index < e.index := by
  intro e he
  cases a with
  | insertEntry i =>
    obtain ⟨entry, hi, rfl⟩ := Leader.step_insertEntry hstep
    rcases mem_insertByKey.mp he with rfl | hold
    · exact Or.inr fun old hmem ↦ hchecked _ hi old hmem
    · exact Or.inl hold
  | _ => exact Or.inl (Leader.entries_of_step (by simp) hstep ▸ he)

/-- What is recorded of an answer is an index that the follower has reached. -/
theorem Tracked.reaches_recordedIndex (h : s.Tracked) {send : Send Op n} (hsend : send ∈ s.sends)
    {response : AppendEntriesResponse}
    (hanswered : (send.request, response) ∈ (s.followers send.peer).answered)
    (hsuccess : send.sender ≠ .foreground → response.success = true) {index : ℕ}
    (hindex : send.recordedIndex response = some index) :
    (s.followers send.peer).Reaches index := by
  have hsent : send.sender ≠ .foreground → index = lastIndexOr send.request.entries 0 →
      (s.followers send.peer).Reaches index := by
    intro hsender hlast
    rw [hlast]
    unfold lastIndexOr
    cases hentry : send.request.entries.getLast? with
    | none => exact Or.inl rfl
    | some e =>
      have he : e ∈ send.request.entries := List.mem_of_getLast? hentry
      exact Or.inr ⟨e, h.known.mem_of_answered hsend hanswered (hsuccess hsender) he, rfl⟩
  cases hsender : send.sender with
  | foreground =>
    rw [Send.recordedIndex, hsender] at hindex
    dsimp only at hindex
    split_ifs at hindex
    rw [← Option.some.inj hindex]
    exact h.known.answers send.peer _ hanswered
  | catchUp =>
    rw [Send.recordedIndex, hsender] at hindex
    exact hsent (by rw [hsender]; decide) (Option.some.inj hindex).symm
  | batch =>
    rw [Send.recordedIndex, hsender] at hindex
    exact hsent (by rw [hsender]; decide) (Option.some.inj hindex).symm

/-- Forgetting requests, and what the background task has in hand, changes nothing. -/
theorem Tracked.forget (h : s.Tracked) (sends : List (Send Op n))
    (hsends : ∀ send ∈ sends, send ∈ s.sends) (loaded : Option (Fin n × ℕ))
    (installed : List (Fin n)) : Tracked { s with sends, loaded, installed } :=
  h.congr ⟨h.known.leader, fun send hsend ↦ h.known.sends send (hsends send hsend),
    h.known.source, h.known.promises, h.known.answers⟩ rfl (fun _ ↦ rfl) (fun _ ↦ le_rfl) rfl

theorem tracked_step [DecidableEq Op] {a : TrackedAction Op n} (h : s.Tracked)
    (hchecked : s.Checked a) (hnext : step s a = some next) : next.Tracked := by
  cases a with
  | leader a =>
    obtain ⟨leader, hstep, rfl⟩ := step_leader hnext
    exact h.leaderStep hstep (insertsLast_of_checked hchecked hstep)
  | replicate i peers =>
    obtain ⟨leader, hstep, rfl⟩ := step_replicate hnext
    have hread : ∀ j, (LeaderAction.readEntries i : LeaderAction Op) ≠ .insertEntry j := by simp
    have hentries : leader.log.entries = s.leader.log.entries :=
      Leader.entries_of_step hread hstep
    have hleader := h.leaderStep hstep fun e he ↦ Or.inl (hentries ▸ he)
    refine hleader.send fun e he ↦ ?_
    exact hentries.symm ▸ (ConsensusLog.mem_getEntriesFrom.mp he).1
  | replicateEntry e peers leaderCommit =>
    obtain ⟨he, rfl⟩ := step_replicateEntry hnext
    exact h.send fun sent hsent ↦ List.mem_singleton.mp hsent ▸ he
  | loadIndex f =>
    obtain rfl := Option.some.inj hnext
    exact h.forget s.sends (fun _ hsend ↦ hsend) _ s.installed
  | sendMissing leaderCommit =>
    obtain ⟨f, followerIndex, rfl⟩ := step_sendMissing hnext
    have hidle := h.forget s.sends (fun _ hsend ↦ hsend) none s.installed
    exact hidle.send fun e he ↦ (ConsensusLog.mem_getEntriesFrom.mp he).1
  | sendBatch =>
    obtain rfl := step_sendBatch hnext
    have hleader : ({ s.leader with immediateBatch := [] } : Leader Op).Inv :=
      h.known.leader.congr rfl rfl rfl (by simp)
    have htaken : ({ s with leader := { s.leader with immediateBatch := [] } } :
        TrackedCluster Op n).Tracked :=
      h.congr ⟨hleader, h.known.sends, h.known.source, h.known.promises, h.known.answers⟩ rfl
        (fun _ ↦ rfl) (fun _ ↦ le_rfl) rfl
    exact htaken.send h.known.leader.batch
  | deliver k =>
    obtain ⟨send, hsend, follower, hstep, rfl⟩ := step_deliver hnext
    refine h.followerStep hstep ?_ (by simp)
    rintro _ ⟨⟩
    exact h.known.sends send hsend
  | follower f a =>
    obtain ⟨hne, follower, hstep, rfl⟩ := step_follower hnext
    refine h.followerStep hstep (fun request ha ↦ absurd ha (hne request)) ?_
    rintro i handler rfl hi
    exact hchecked handler hi
  | installSnapshot f term lastIncludedIndex =>
    obtain rfl := Option.some.inj hnext
    exact h.installSnapshot term lastIncludedIndex
  | recordAnswer k response =>
    obtain ⟨send, hk, hanswered, hrecorded⟩ := step_recordAnswer hnext
    have herased := h.forget (s.sends.eraseIdx k) (fun _ ↦ List.mem_of_mem_eraseIdx) s.loaded
      s.installed
    rcases hrecorded with ⟨index, hindex, rfl⟩ | ⟨-, rfl⟩
    · exact herased.recordSuccess (h.reaches_recordedIndex (List.mem_of_getElem? hk) hanswered
        (hchecked send hk).1 hindex)
    · exact herased
  | recordResync j =>
    obtain ⟨f, -, rfl⟩ := step_recordResync hnext
    exact (h.forget s.sends (fun _ hsend ↦ hsend) s.loaded _).recordSuccess (Or.inl rfl)

theorem le_recordSuccess {index : ℕ} (h : s.lastReplicatedIndex f ≤ index) (g : Fin n) :
    s.lastReplicatedIndex g ≤ (s.recordSuccess f index).lastReplicatedIndex g := by
  change s.lastReplicatedIndex g ≤ Function.update s.lastReplicatedIndex f index g
  by_cases hg : g = f
  · rw [hg, Function.update_self]
    exact h
  · rw [Function.update_of_ne hg]

theorem neverRecordsLess_of_checked [DecidableEq Op] {a : TrackedAction Op n}
    (hchecked : s.Checked a) : s.NeverRecordsLess a := by
  intro next hnext g
  cases a with
  | leader a =>
    obtain ⟨leader, -, rfl⟩ := step_leader hnext
    exact le_rfl
  | replicate i peers =>
    obtain ⟨leader, -, rfl⟩ := step_replicate hnext
    exact le_rfl
  | replicateEntry e peers leaderCommit =>
    obtain ⟨-, rfl⟩ := step_replicateEntry hnext
    exact le_rfl
  | loadIndex f =>
    obtain rfl := Option.some.inj hnext
    exact le_rfl
  | sendMissing leaderCommit =>
    obtain ⟨f, followerIndex, rfl⟩ := step_sendMissing hnext
    exact le_rfl
  | sendBatch =>
    obtain rfl := step_sendBatch hnext
    exact le_rfl
  | deliver k =>
    obtain ⟨send, -, follower, -, rfl⟩ := step_deliver hnext
    exact le_rfl
  | follower f a =>
    obtain ⟨-, follower, -, rfl⟩ := step_follower hnext
    exact le_rfl
  | installSnapshot f term lastIncludedIndex =>
    obtain rfl := Option.some.inj hnext
    exact le_rfl
  | recordAnswer k response =>
    obtain ⟨send, hk, -, hrecorded⟩ := step_recordAnswer hnext
    rcases hrecorded with ⟨index, hindex, rfl⟩ | ⟨-, rfl⟩
    · exact le_recordSuccess ((hchecked send hk).2 index hindex) g
    · exact le_rfl
  | recordResync j =>
    obtain ⟨f, hj, rfl⟩ := step_recordResync hnext
    exact le_recordSuccess (hchecked f hj).le g

end Tracked

end TrackedCluster

/-! ### Every run -/

/-- In a run with these checks the index recorded of a follower is at any time one up to which the
follower holds every entry, and it never decreases. -/
theorem recorded_of_checked [DecidableEq Op] (term : ℕ) (actions : List (TrackedAction Op n))
    (h : EachStep TrackedCluster.step TrackedCluster.Checked (.start n term) actions) :
    Always TrackedCluster.step TrackedCluster.RecordedHeld (.start n term) actions ∧
      EachStep TrackedCluster.step TrackedCluster.NeverRecordsLess (.start n term) actions := by
  have htracked : Always TrackedCluster.step TrackedCluster.Tracked (.start n term) actions :=
    EachStep.always (fun s a next hs hC hnext ↦ TrackedCluster.tracked_step hs hC hnext)
      (TrackedCluster.tracked_start term) h
  refine ⟨htracked.mono fun s hs ↦ hs.recordedHeld, ?_⟩
  exact EachStep.imp (I := fun _ ↦ True) (fun _ _ _ _ _ _ ↦ trivial)
    (fun s a next _ hC _ ↦ TrackedCluster.neverRecordsLess_of_checked hC) trivial h

section LostBatch

/-- A write comes in, is inserted as entry `i`, and is sent in a batch. -/
def writeInBatch (i : ℕ) : List (TrackedAction CrudOperation 1) :=
  [.leader (.accept (.delete "/api/products" "a") 0), .leader (.insertEntry i),
    .leader (.queueEntry i), .sendBatch]

/-- The follower receives request `k`, stores it, applies what there is, and answers; the answer is
recorded. -/
def answerBatch (k : ℕ) (applies : List (FollowerAction CrudOperation))
    (response : AppendEntriesResponse) : List (TrackedAction CrudOperation 1) :=
  [.deliver k, .follower 0 (.checkTerm 0), .follower 0 (.store 0), .follower 0 (.lockApply 0),
    .follower 0 .loadIndices, .follower 0 .collect] ++ applies.map (.follower 0) ++
    [.follower 0 .answer, .recordAnswer k response]

/-- Entry 1 is recorded when it is stored. -/
theorem recorded_of_checked_write :
    Always TrackedCluster.step TrackedCluster.RecordedHeld (.start 1 1)
        (writeInBatch 1 ++ answerBatch 0 [.applyNext true, .mark] ⟨1, true, 1, 1⟩) ∧
      EachStep TrackedCluster.step TrackedCluster.NeverRecordsLess (.start 1 1)
        (writeInBatch 1 ++ answerBatch 0 [.applyNext true, .mark] ⟨1, true, 1, 1⟩) := by
  refine recorded_of_checked 1 _ ?_
  refine EachStep.cons rfl True.intro ?_
  refine EachStep.cons rfl (fun _ _ _ he ↦ absurd he List.not_mem_nil) ?_
  refine EachStep.cons rfl True.intro ?_
  refine EachStep.cons rfl True.intro ?_
  refine EachStep.cons rfl True.intro ?_
  refine EachStep.cons rfl True.intro ?_
  refine EachStep.cons rfl ?_ ?_
  · rintro _ ⟨⟩ e he earlier hearlier hle
    exact Or.inl hearlier
  refine EachStep.cons rfl True.intro ?_
  refine EachStep.cons rfl True.intro ?_
  refine EachStep.cons rfl True.intro ?_
  refine EachStep.cons rfl True.intro ?_
  refine EachStep.cons rfl True.intro ?_
  refine EachStep.cons rfl True.intro ?_
  refine EachStep.cons rfl ?_ True.intro
  rintro send ⟨⟩
  exact ⟨fun _ ↦ rfl, fun index _ ↦ Nat.zero_le index⟩

/-- Two writes are sent in two batches, of which the first is lost. The follower has entry 2 alone,
and 2 is recorded. -/
theorem lost_batch_recorded :
    ¬ ∀ (n : ℕ) (actions : List (TrackedAction CrudOperation n)),
      Always TrackedCluster.step TrackedCluster.RecordedHeld (.start n 1) actions ∧
        EachStep TrackedCluster.step TrackedCluster.NeverRecordsLess (.start n 1) actions := by
  intro h
  have hheld := (h 1 (writeInBatch 1 ++ writeInBatch 2 ++ answerBatch 1 [] ⟨1, true, 2, 0⟩)).1
  obtain ⟨s, hexec, hleader, hfollower, hcovered, hindex⟩ :
      ∃ s, exec TrackedCluster.step (TrackedCluster.start 1 1)
          (writeInBatch 1 ++ writeInBatch 2 ++ answerBatch 1 [] ⟨1, true, 2, 0⟩) = some s ∧
        s.leader.log.entries.map LogEntry.index = [1, 2] ∧
        (s.followers 0).log.entries.map LogEntry.index = [2] ∧ s.covered 0 = 0 ∧
        s.lastReplicatedIndex 0 = 2 := ⟨_, rfl, rfl, rfl, rfl, rfl⟩
  have hfirst : 1 ∈ s.leader.log.entries.map LogEntry.index := by
    rw [hleader]
    decide
  obtain ⟨e, he, hone⟩ := List.mem_map.mp hfirst
  have hle : e.index ≤ s.lastReplicatedIndex 0 := by
    rw [hone, hindex]
    decide
  rcases hheld.exec hexec 0 e he hle with hmem | hsnapshot
  · have hstored : e.index ∈ (s.followers 0).log.entries.map LogEntry.index :=
      List.mem_map_of_mem hmem
    rw [hone, hfollower] at hstored
    exact absurd hstored (by decide)
  · rw [hone, hcovered] at hsnapshot
    exact absurd hsnapshot (by decide)

end LostBatch

end Lithair.App
