import Lithair.Lib.Run
import Mathlib.Algebra.Order.Ring.Nat
import Mathlib.Data.List.Pairwise

/-!
# The order in which operations reach the peers

`HyperReplicationCoordinator` of `consensus/mod.rs`. `replicate_operation` logs an operation and
sends it to one peer after the other, up to five times; what a peer does not confirm goes into a
queue, which a task in the background takes as a whole, again and again. Calls and the task run
beside each other, requests have no number, and a request that was given up may still arrive.

`inOrder_of_sentInTurn` says when the operations get to a peer in the order in which they were
logged: in all runs in which a request is only sent to a peer when nothing older is still to be sent
to it or on its way. Any request that is sent out of turn and gets there can be followed by an older
one.
-/

namespace Lithair.Consensus

open Lithair.Lib.Run

/-- An operation and its place in the log. The peers do not see the place. -/
structure LoggedOperation (Op : Type*) where
  index : ℕ
  operation : Op

/-- A call of `replicate_operation` that is sending: the peer that is its turn, those after it, and
the failed attempts so far. -/
structure Sending (ι Op : Type*) where
  logged : LoggedOperation Op
  peer : ι
  remaining : List ι
  attempts : ℕ

/-- A request in the queue, with the attempts that the queue has made. -/
structure QueuedRequest (ι Op : Type*) where
  peer : ι
  logged : LoggedOperation Op
  attempts : ℕ

/-- How an attempt ends: confirmed, or given up while the request may still be on its way. -/
inductive SendOutcome
  | confirmed
  | failed (onTheWay : Bool)
  deriving DecidableEq

/-- The request does not get lost. -/
def SendOutcome.Survives (outcome : SendOutcome) : Prop := outcome ≠ .failed false

def maxAttempts : ℕ := 5

/-- The log, the calls that are sending, the queue, what the background task has taken of it, the
requests that were given up and are still on their way, and what each peer got, in this order. -/
structure HyperReplicationCoordinator (ι Op : Type*) where
  log : List Op
  calls : ℕ → Option (Sending ι Op)
  pendingQueue : List (QueuedRequest ι Op)
  draining : List (QueuedRequest ι Op)
  onTheWay : List (ι × LoggedOperation Op)
  delivered : ι → List (LoggedOperation Op)

/-- An operation is logged; a call makes an attempt; the background task takes the queue, or makes
an attempt; a request that was given up arrives, or is lost after all. -/
inductive DeliveryAction (ι Op : Type*)
  | replicate (c : ℕ) (operation : Op)
  | attempt (c : ℕ) (outcome : SendOutcome)
  | drain
  | drainAttempt (outcome : SendOutcome)
  | arrive (i : ℕ)
  | lose (i : ℕ)

/-- Go on with the next peer, if there is one. -/
def Sending.toPeers {ι Op : Type*} (logged : LoggedOperation Op) : List ι → Option (Sending ι Op)
  | [] => none
  | peer :: remaining => some ⟨logged, peer, remaining, 0⟩

namespace HyperReplicationCoordinator

variable {ι Op : Type*} [DecidableEq ι]

def new : HyperReplicationCoordinator ι Op where
  log := []
  calls := fun _ ↦ none
  pendingQueue := []
  draining := []
  onTheWay := []
  delivered := fun _ ↦ []

def deliver (s : HyperReplicationCoordinator ι Op) (peer : ι) (logged : LoggedOperation Op) :
    HyperReplicationCoordinator ι Op :=
  { s with delivered := Function.update s.delivered peer (s.delivered peer ++ [logged]) }

/-- What an attempt makes of the peer and of the network. -/
def send (s : HyperReplicationCoordinator ι Op) (peer : ι) (logged : LoggedOperation Op) :
    SendOutcome → HyperReplicationCoordinator ι Op
  | .confirmed => s.deliver peer logged
  | .failed true => { s with onTheWay := s.onTheWay ++ [(peer, logged)] }
  | .failed false => s

def setCall (s : HyperReplicationCoordinator ι Op) (c : ℕ) (call : Option (Sending ι Op)) :
    HyperReplicationCoordinator ι Op :=
  { s with calls := Function.update s.calls c call }

def enqueue (s : HyperReplicationCoordinator ι Op) (request : QueuedRequest ι Op) :
    HyperReplicationCoordinator ι Op :=
  { s with pendingQueue := s.pendingQueue ++ [request] }

/-- One attempt of `send_with_retries`, and what `replicate_operation` does after the last. -/
def attempt (s : HyperReplicationCoordinator ι Op) (c : ℕ) (call : Sending ι Op)
    (outcome : SendOutcome) : HyperReplicationCoordinator ι Op :=
  let sent := s.send call.peer call.logged outcome
  match outcome with
  | .confirmed => sent.setCall c (Sending.toPeers call.logged call.remaining)
  | .failed _ =>
    if maxAttempts ≤ call.attempts + 1 then
      (sent.enqueue ⟨call.peer, call.logged, 0⟩).setCall c
        (Sending.toPeers call.logged call.remaining)
    else sent.setCall c (some { call with attempts := call.attempts + 1 })

/-- One attempt of the background task. The count of attempts stays at the greatest `u32`. -/
def drainAttempt (s : HyperReplicationCoordinator ι Op) (request : QueuedRequest ι Op)
    (rest : List (QueuedRequest ι Op)) (outcome : SendOutcome) :
    HyperReplicationCoordinator ι Op :=
  let sent := { s.send request.peer request.logged outcome with draining := rest }
  match outcome with
  | .confirmed => sent
  | .failed _ =>
    sent.enqueue { request with attempts := min (request.attempts + 1) (2 ^ 32 - 1) }

variable (peers : List ι)

def step (s : HyperReplicationCoordinator ι Op) :
    DeliveryAction ι Op → Option (HyperReplicationCoordinator ι Op)
  | .replicate c operation =>
    if (s.calls c).isNone then
      some { s.setCall c (Sending.toPeers ⟨s.log.length, operation⟩ peers) with
        log := s.log ++ [operation] }
    else none
  | .attempt c outcome => (s.calls c).map fun call ↦ s.attempt c call outcome
  | .drain =>
    match s.draining with
    | [] => some { s with pendingQueue := [], draining := s.pendingQueue }
    | _ :: _ => none
  | .drainAttempt outcome =>
    match s.draining with
    | [] => none
    | request :: rest => some (s.drainAttempt request rest outcome)
  | .arrive i =>
    (s.onTheWay[i]?).map fun (peer, logged) ↦
      { s.deliver peer logged with onTheWay := s.onTheWay.eraseIdx i }
  | .lose i =>
    if i < s.onTheWay.length then some { s with onTheWay := s.onTheWay.eraseIdx i } else none

/-! ### What is meant to hold -/

/-- Each peer got the operations in the order of the log. -/
def InOrder (s : HyperReplicationCoordinator ι Op) : Prop :=
  ∀ peer, (s.delivered peer).Pairwise fun earlier later ↦ earlier.index ≤ later.index

/-- The operation is still to be sent to the peer, or on its way there. -/
inductive Outstanding (s : HyperReplicationCoordinator ι Op) (peer : ι)
    (logged : LoggedOperation Op) : Prop
  | call {c : ℕ} {call : Sending ι Op} (h : s.calls c = some call)
      (hpeer : peer ∈ call.peer :: call.remaining) (hlogged : call.logged = logged)
  | queued {attempts : ℕ} (h : ⟨peer, logged, attempts⟩ ∈ s.pendingQueue)
  | draining {attempts : ℕ} (h : ⟨peer, logged, attempts⟩ ∈ s.draining)
  | onTheWay (h : (peer, logged) ∈ s.onTheWay)

/-- Nothing older is still to be sent to the peer or on its way there. -/
def NothingOlder (s : HyperReplicationCoordinator ι Op) (peer : ι) (logged : LoggedOperation Op) :
    Prop :=
  ∀ other, s.Outstanding peer other → logged.index ≤ other.index

/-- A request that does not get lost is sent only when nothing older is left for its peer. -/
def SentInTurn (s : HyperReplicationCoordinator ι Op) : DeliveryAction ι Op → Prop
  | .attempt c outcome =>
    outcome.Survives → ∀ call, s.calls c = some call → s.NothingOlder call.peer call.logged
  | .drainAttempt outcome =>
    outcome.Survives → ∀ request ∈ s.draining.head?, s.NothingOlder request.peer request.logged
  | .replicate _ _ | .drain | .arrive _ | .lose _ => True

/-! ### What a step does -/

/-- What was sent came in order, and nothing that is left would break it: what is on its way is the
oldest that is left. -/
structure Ordered (s : HyperReplicationCoordinator ι Op) : Prop where
  inOrder : s.InOrder
  delivered_le : ∀ peer, ∀ earlier ∈ s.delivered peer, s.NothingOlder peer earlier
  onTheWay_le : ∀ peer logged, (peer, logged) ∈ s.onTheWay → s.NothingOlder peer logged
  delivered_lt : ∀ peer, ∀ logged ∈ s.delivered peer, logged.index < s.log.length
  outstanding_lt : ∀ peer logged, s.Outstanding peer logged → logged.index < s.log.length

/-- A step that adds to what is left at most the next operation, and that hands over to a peer or to
the network only what was left and is the oldest. -/
structure Moves (s next : HyperReplicationCoordinator ι Op) : Prop where
  log : s.log.length ≤ next.log.length
  outstanding : ∀ peer logged, next.Outstanding peer logged → s.Outstanding peer logged ∨
    s.log.length ≤ logged.index ∧ logged.index < next.log.length
  delivered : ∀ peer, next.delivered peer = s.delivered peer ∨
    ∃ logged, s.Outstanding peer logged ∧ s.NothingOlder peer logged ∧
      next.delivered peer = s.delivered peer ++ [logged]
  onTheWay : ∀ peer logged, (peer, logged) ∈ next.onTheWay →
    s.Outstanding peer logged ∧ s.NothingOlder peer logged

variable {s next : HyperReplicationCoordinator ι Op} {peer : ι} {logged : LoggedOperation Op}

omit [DecidableEq ι] in
theorem ordered_new : (new : HyperReplicationCoordinator ι Op).Ordered where
  inOrder := fun _ ↦ List.Pairwise.nil
  delivered_le := fun _ _ h ↦ absurd h List.not_mem_nil
  onTheWay_le := fun _ _ h ↦ absurd h List.not_mem_nil
  delivered_lt := fun _ _ h ↦ absurd h List.not_mem_nil
  outstanding_lt := by
    intro peer logged h
    cases h with
    | call h => exact absurd h.symm (Option.some_ne_none _)
    | queued h => exact absurd h List.not_mem_nil
    | draining h => exact absurd h List.not_mem_nil
    | onTheWay h => exact absurd h List.not_mem_nil

omit [DecidableEq ι] in
/-- What a peer has after a step it had before, or it was the oldest that was left for it. -/
theorem Moves.mem_delivered (h : Moves s next) (hmem : logged ∈ next.delivered peer) :
    logged ∈ s.delivered peer ∨ s.Outstanding peer logged ∧ s.NothingOlder peer logged := by
  rcases h.delivered peer with hsame | ⟨new, hout, holdest, hnew⟩
  · exact Or.inl (hsame ▸ hmem)
  · rw [hnew, List.mem_append, List.mem_singleton] at hmem
    rcases hmem with hold | rfl
    · exact Or.inl hold
    · exact Or.inr ⟨hout, holdest⟩

omit [DecidableEq ι] in
/-- Nothing older comes up in a step. -/
theorem Moves.nothingOlder (h : Moves s next) (holdest : s.NothingOlder peer logged)
    (hlt : logged.index < s.log.length) : next.NothingOlder peer logged := by
  intro other hother
  rcases h.outstanding peer other hother with hold | ⟨hnew, -⟩
  · exact holdest other hold
  · exact Nat.le_of_lt (Nat.lt_of_lt_of_le hlt hnew)

omit [DecidableEq ι] in
theorem Moves.ordered (h : Moves s next) (hs : s.Ordered) : next.Ordered where
  inOrder := by
    intro peer
    rcases h.delivered peer with hsame | ⟨logged, hout, -, hnew⟩
    · rw [hsame]
      exact hs.inOrder peer
    · rw [hnew, List.pairwise_append]
      refine ⟨hs.inOrder peer, List.pairwise_singleton _ _, fun earlier hearlier later hlater ↦ ?_⟩
      rw [List.mem_singleton.mp hlater]
      exact hs.delivered_le peer earlier hearlier logged hout
  delivered_le := by
    intro peer earlier hearlier
    rcases h.mem_delivered hearlier with hold | ⟨hout, holdest⟩
    · exact h.nothingOlder (hs.delivered_le peer earlier hold) (hs.delivered_lt peer earlier hold)
    · exact h.nothingOlder holdest (hs.outstanding_lt peer earlier hout)
  onTheWay_le := by
    intro peer logged hmem
    obtain ⟨hout, holdest⟩ := h.onTheWay peer logged hmem
    exact h.nothingOlder holdest (hs.outstanding_lt peer logged hout)
  delivered_lt := by
    intro peer logged hmem
    refine lt_of_lt_of_le ?_ h.log
    rcases h.mem_delivered hmem with hold | ⟨hout, -⟩
    · exact hs.delivered_lt peer logged hold
    · exact hs.outstanding_lt peer logged hout
  outstanding_lt := by
    intro peer logged hout
    rcases h.outstanding peer logged hout with hold | ⟨-, hlt⟩
    · exact Nat.lt_of_lt_of_le (hs.outstanding_lt peer logged hold) h.log
    · exact hlt

omit [DecidableEq ι] in
theorem outstanding_setCall {c : ℕ} {call : Option (Sending ι Op)}
    (h : (s.setCall c call).Outstanding peer logged) : s.Outstanding peer logged ∨
      ∃ sending, call = some sending ∧ peer ∈ sending.peer :: sending.remaining ∧
        sending.logged = logged := by
  cases h with
  | call h hpeer hlogged =>
    rcases update_eq_some_iff.mp h with ⟨-, hnew⟩ | ⟨-, hold⟩
    · exact Or.inr ⟨_, hnew, hpeer, hlogged⟩
    · exact Or.inl (.call hold hpeer hlogged)
  | queued h => exact Or.inl (.queued h)
  | draining h => exact Or.inl (.draining h)
  | onTheWay h => exact Or.inl (.onTheWay h)

omit [DecidableEq ι] in
theorem outstanding_enqueue {request : QueuedRequest ι Op}
    (h : (s.enqueue request).Outstanding peer logged) :
    s.Outstanding peer logged ∨ request.peer = peer ∧ request.logged = logged := by
  cases h with
  | call h hpeer hlogged => exact Or.inl (.call h hpeer hlogged)
  | queued h =>
    rcases List.mem_append.mp h with hold | hnew
    · exact Or.inl (.queued hold)
    · rw [← List.mem_singleton.mp hnew]
      exact Or.inr ⟨rfl, rfl⟩
  | draining h => exact Or.inl (.draining h)
  | onTheWay h => exact Or.inl (.onTheWay h)

theorem outstanding_send {receiver : ι} {sent : LoggedOperation Op} {outcome : SendOutcome}
    (h : (s.send receiver sent outcome).Outstanding peer logged) :
    s.Outstanding peer logged ∨ receiver = peer ∧ sent = logged := by
  cases outcome with
  | confirmed =>
    cases h with
    | call h hpeer hlogged => exact Or.inl (.call h hpeer hlogged)
    | queued h => exact Or.inl (.queued h)
    | draining h => exact Or.inl (.draining h)
    | onTheWay h => exact Or.inl (.onTheWay h)
  | failed onTheWay =>
    cases onTheWay with
    | false => exact Or.inl h
    | true =>
      cases h with
      | call h hpeer hlogged => exact Or.inl (.call h hpeer hlogged)
      | queued h => exact Or.inl (.queued h)
      | draining h => exact Or.inl (.draining h)
      | onTheWay h =>
        rcases List.mem_append.mp h with hold | hnew
        · exact Or.inl (.onTheWay hold)
        · obtain ⟨rfl, rfl⟩ := Prod.mk.inj (List.mem_singleton.mp hnew)
          exact Or.inr ⟨rfl, rfl⟩

/-- Sending what is left to its peer, if it is the oldest or gets lost. -/
theorem moves_send (hs : s.Ordered) {outcome : SendOutcome} (hout : s.Outstanding peer logged)
    (hturn : outcome.Survives → s.NothingOlder peer logged) :
    Moves s (s.send peer logged outcome) where
  log := by
    cases outcome with
    | confirmed => exact le_rfl
    | failed onTheWay => cases onTheWay <;> exact le_rfl
  outstanding := by
    intro receiver sent h
    rcases outstanding_send h with hold | ⟨rfl, rfl⟩
    · exact Or.inl hold
    · exact Or.inl hout
  delivered := by
    intro receiver
    cases outcome with
    | confirmed =>
      show Function.update s.delivered peer _ receiver = _ ∨ ∃ _, _ ∧ _ ∧
        Function.update s.delivered peer _ receiver = _
      by_cases hpeer : receiver = peer
      · subst hpeer
        refine Or.inr ⟨logged, hout, hturn (fun h ↦ by nomatch h), ?_⟩
        rw [Function.update_self]
      · left
        rw [Function.update_of_ne hpeer]
    | failed onTheWay =>
      left
      cases onTheWay <;> rfl
  onTheWay := by
    intro receiver sent hmem
    have hwas (h : (receiver, sent) ∈ s.onTheWay) :
        s.Outstanding receiver sent ∧ s.NothingOlder receiver sent :=
      ⟨.onTheWay h, hs.onTheWay_le receiver sent h⟩
    cases outcome with
    | confirmed => exact hwas hmem
    | failed onTheWay =>
      cases onTheWay with
      | false => exact hwas hmem
      | true =>
        rcases List.mem_append.mp hmem with hold | hnew
        · exact hwas hold
        · obtain ⟨rfl, rfl⟩ := Prod.mk.inj (List.mem_singleton.mp hnew)
          exact ⟨hout, hturn fun h ↦ by nomatch h⟩

omit [DecidableEq ι] in
/-- What is left, or to be sent again, may be kept elsewhere. -/
theorem Moves.congr {moved : HyperReplicationCoordinator ι Op} (h : Moves s moved)
    (hlog : next.log = moved.log) (hdelivered : next.delivered = moved.delivered)
    (honTheWay : ∀ request ∈ next.onTheWay, request ∈ moved.onTheWay)
    (hout : ∀ peer logged, next.Outstanding peer logged →
      s.Outstanding peer logged ∨ moved.Outstanding peer logged) : Moves s next where
  log := hlog ▸ h.log
  outstanding := by
    intro peer logged hleft
    rw [hlog]
    rcases hout peer logged hleft with hold | hmoved
    · exact Or.inl hold
    · exact h.outstanding peer logged hmoved
  delivered := hdelivered ▸ h.delivered
  onTheWay := fun peer logged hmem ↦ h.onTheWay peer logged (honTheWay _ hmem)

omit [DecidableEq ι] in
theorem moves_refl (hs : s.Ordered) : Moves s s where
  log := le_rfl
  outstanding := fun _ _ h ↦ Or.inl h
  delivered := fun _ ↦ Or.inl rfl
  onTheWay := fun peer logged h ↦ ⟨.onTheWay h, hs.onTheWay_le peer logged h⟩

omit [DecidableEq ι] in
/-- The peers that are left are peers of the call. -/
theorem mem_of_toPeers {remaining : List ι} {sending : Sending ι Op}
    (h : Sending.toPeers logged remaining = some sending)
    (hpeer : peer ∈ sending.peer :: sending.remaining) :
    sending.logged = logged ∧ peer ∈ remaining := by
  cases remaining with
  | nil => exact absurd h.symm (Option.some_ne_none _)
  | cons first rest =>
    obtain rfl := Option.some.inj h
    exact ⟨rfl, hpeer⟩

theorem moves_attempt (hs : s.Ordered) {c : ℕ} {call : Sending ι Op} (hcall : s.calls c = some call)
    {outcome : SendOutcome} (hturn : outcome.Survives → s.NothingOlder call.peer call.logged) :
    Moves s (s.attempt c call outcome) := by
  have hpeers : ∀ peer ∈ call.peer :: call.remaining, s.Outstanding peer call.logged :=
    fun peer hpeer ↦ .call hcall hpeer rfl
  have hsend := moves_send hs (hpeers _ List.mem_cons_self) hturn
  have hrest {peer : ι} {logged : LoggedOperation Op} {sending : Sending ι Op}
      (h : Sending.toPeers call.logged call.remaining = some sending)
      (hpeer : peer ∈ sending.peer :: sending.remaining) (hlogged : sending.logged = logged) :
      s.Outstanding peer logged := by
    obtain ⟨hsame, hmem⟩ := mem_of_toPeers h hpeer
    rw [← hlogged, hsame]
    exact hpeers _ (List.mem_cons_of_mem _ hmem)
  cases outcome with
  | confirmed =>
    refine hsend.congr rfl rfl (fun _ h ↦ h) fun peer logged hleft ↦ ?_
    rcases outstanding_setCall hleft with hmoved | ⟨sending, h, hpeer, hlogged⟩
    · exact Or.inr hmoved
    · exact Or.inl (hrest h hpeer hlogged)
  | failed onTheWay =>
    unfold attempt
    dsimp only
    split_ifs with hlast
    · refine hsend.congr rfl rfl (fun _ h ↦ h) fun peer logged hleft ↦ ?_
      rcases outstanding_setCall hleft with hqueue | ⟨sending, h, hpeer, hlogged⟩
      · rcases outstanding_enqueue hqueue with hmoved | ⟨rfl, rfl⟩
        · exact Or.inr hmoved
        · exact Or.inl (hpeers _ List.mem_cons_self)
      · exact Or.inl (hrest h hpeer hlogged)
    · refine hsend.congr rfl rfl (fun _ h ↦ h) fun peer logged hleft ↦ ?_
      rcases outstanding_setCall hleft with hmoved | ⟨sending, h, hpeer, hlogged⟩
      · exact Or.inr hmoved
      · obtain rfl := Option.some.inj h
        exact Or.inl (hlogged ▸ hpeers _ hpeer)

omit [DecidableEq ι] in
theorem outstanding_of_draining {request : QueuedRequest ι Op} (h : request ∈ s.draining) :
    s.Outstanding request.peer request.logged :=
  .draining h

theorem moves_drainAttempt (hs : s.Ordered) {request : QueuedRequest ι Op}
    {rest : List (QueuedRequest ι Op)} (hdraining : s.draining = request :: rest)
    {outcome : SendOutcome}
    (hturn : outcome.Survives → s.NothingOlder request.peer request.logged) :
    Moves s (s.drainAttempt request rest outcome) := by
  have hout : s.Outstanding request.peer request.logged :=
    outstanding_of_draining (hdraining ▸ List.mem_cons_self)
  have hsend := moves_send hs hout hturn
  -- what the task still holds, it held
  have hkept {peer : ι} {logged : LoggedOperation Op}
      (h : { s.send request.peer request.logged outcome with draining := rest }.Outstanding
        peer logged) :
      s.Outstanding peer logged ∨
        (s.send request.peer request.logged outcome).Outstanding peer logged := by
    cases h with
    | call h hpeer hlogged => exact Or.inr (.call h hpeer hlogged)
    | queued h => exact Or.inr (.queued h)
    | draining h =>
      have hheld := List.mem_cons_of_mem request h
      rw [← hdraining] at hheld
      exact Or.inl (.draining hheld)
    | onTheWay h => exact Or.inr (.onTheWay h)
  cases outcome with
  | confirmed => exact hsend.congr rfl rfl (fun _ h ↦ h) fun peer logged hleft ↦ hkept hleft
  | failed onTheWay =>
    refine hsend.congr rfl rfl (fun _ h ↦ h) fun peer logged hleft ↦ ?_
    rcases outstanding_enqueue hleft with hmoved | ⟨rfl, rfl⟩
    · exact hkept hmoved
    · exact Or.inl hout

omit [DecidableEq ι] in
theorem moves_replicate (hs : s.Ordered) (c : ℕ) (operation : Op) :
    Moves s { s.setCall c (Sending.toPeers ⟨s.log.length, operation⟩ peers) with
      log := s.log ++ [operation] } where
  log := by
    rw [List.length_append]
    exact Nat.le_add_right _ _
  outstanding := by
    intro peer logged hleft
    have hcall : (s.setCall c (Sending.toPeers ⟨s.log.length, operation⟩ peers)).Outstanding
        peer logged := by
      cases hleft with
      | call h hpeer hlogged => exact .call h hpeer hlogged
      | queued h => exact .queued h
      | draining h => exact .draining h
      | onTheWay h => exact .onTheWay h
    rcases outstanding_setCall hcall with hold | ⟨sending, h, hpeer, hlogged⟩
    · exact Or.inl hold
    · right
      rw [← hlogged, (mem_of_toPeers h hpeer).1, List.length_append, List.length_singleton]
      exact ⟨le_rfl, Nat.lt_succ_self _⟩
  delivered := fun _ ↦ Or.inl rfl
  onTheWay := fun peer logged h ↦ ⟨.onTheWay h, hs.onTheWay_le peer logged h⟩

omit [DecidableEq ι] in
theorem moves_drain (hs : s.Ordered) :
    Moves s { s with pendingQueue := [], draining := s.pendingQueue } := by
  refine (moves_refl hs).congr rfl rfl (fun _ h ↦ h) fun peer logged hleft ↦ Or.inl ?_
  cases hleft with
  | call h hpeer hlogged => exact .call h hpeer hlogged
  | queued h => exact absurd h List.not_mem_nil
  | draining h => exact .queued h
  | onTheWay h => exact .onTheWay h

omit [DecidableEq ι] in
theorem moves_lose (hs : s.Ordered) (i : ℕ) :
    Moves s { s with onTheWay := s.onTheWay.eraseIdx i } := by
  refine (moves_refl hs).congr rfl rfl (fun _ h ↦ List.mem_of_mem_eraseIdx h)
    fun peer logged hleft ↦ Or.inl ?_
  cases hleft with
  | call h hpeer hlogged => exact .call h hpeer hlogged
  | queued h => exact .queued h
  | draining h => exact .draining h
  | onTheWay h => exact .onTheWay (List.mem_of_mem_eraseIdx h)

/-- A request that arrives is the oldest that is left for its peer. -/
theorem moves_arrive (hs : s.Ordered) {i : ℕ} (h : s.onTheWay[i]? = some (peer, logged)) :
    Moves s { s.deliver peer logged with onTheWay := s.onTheWay.eraseIdx i } := by
  have hmem : (peer, logged) ∈ s.onTheWay := List.mem_of_getElem? h
  have hsend : Moves s (s.send peer logged .confirmed) :=
    moves_send hs (.onTheWay hmem) fun _ ↦ hs.onTheWay_le peer logged hmem
  refine hsend.congr rfl rfl (fun _ h ↦ List.mem_of_mem_eraseIdx h) fun peer logged hleft ↦ ?_
  cases hleft with
  | call h hpeer hlogged => exact Or.inl (.call h hpeer hlogged)
  | queued h => exact Or.inl (.queued h)
  | draining h => exact Or.inl (.draining h)
  | onTheWay h => exact Or.inl (.onTheWay (List.mem_of_mem_eraseIdx h))

theorem moves_step (hs : s.Ordered) {action : DeliveryAction ι Op} (hturn : s.SentInTurn action)
    (hnext : step peers s action = some next) : Moves s next := by
  cases action with
  | replicate c operation =>
    simp only [step, Option.ite_none_right_eq_some, Option.some.injEq] at hnext
    obtain ⟨-, rfl⟩ := hnext
    exact moves_replicate peers hs c operation
  | attempt c outcome =>
    obtain ⟨call, hcall, rfl⟩ := Option.map_eq_some_iff.mp hnext
    exact moves_attempt hs hcall fun hsurvives ↦ hturn hsurvives call hcall
  | drain =>
    cases hdraining : s.draining with
    | nil =>
      simp only [step, hdraining, Option.some.injEq] at hnext
      exact hnext ▸ moves_drain hs
    | cons request rest => simp [step, hdraining] at hnext
  | drainAttempt outcome =>
    cases hdraining : s.draining with
    | nil => simp [step, hdraining] at hnext
    | cons request rest =>
      simp only [step, hdraining, Option.some.injEq] at hnext
      subst hnext
      refine moves_drainAttempt hs hdraining fun hsurvives ↦ hturn hsurvives request ?_
      rw [hdraining]
      rfl
  | arrive i =>
    obtain ⟨⟨peer, logged⟩, hrequest, rfl⟩ := Option.map_eq_some_iff.mp hnext
    exact moves_arrive hs hrequest
  | lose i =>
    simp only [step, Option.ite_none_right_eq_some, Option.some.injEq] at hnext
    obtain ⟨-, rfl⟩ := hnext
    exact moves_lose hs i

/-- The operations get to each peer in the order of the log in all runs in which requests are sent
in turn. -/
theorem inOrder_of_sentInTurn (peers : List ι) (actions : List (DeliveryAction ι Op))
    (h : EachStep (step peers) SentInTurn new actions) :
    Always (step peers) InOrder (new : HyperReplicationCoordinator ι Op) actions := by
  have hordered : Always (step peers) Ordered (new : HyperReplicationCoordinator ι Op) actions :=
    EachStep.always
      (fun s action next hs hturn hnext ↦ (moves_step peers hs hturn hnext).ordered hs)
      ordered_new h
  exact hordered.mono fun s hs ↦ hs.inOrder

/-! ### What is sent out of turn -/

/-- The peer can still get the operation, after whatever it has. -/
def CanGet (peers : List ι) (s : HyperReplicationCoordinator ι Op) (peer : ι)
    (logged : LoggedOperation Op) : Prop :=
  ∃ more t between, exec (step peers) s more = some t ∧
    t.delivered peer = s.delivered peer ++ between ++ [logged]

theorem delivered_deliver (s : HyperReplicationCoordinator ι Op) (receiver peer : ι)
    (sent : LoggedOperation Op) :
    ∃ between, (s.deliver receiver sent).delivered peer = s.delivered peer ++ between := by
  show ∃ _, Function.update s.delivered receiver _ peer = _
  by_cases hpeer : peer = receiver
  · subst hpeer
    exact ⟨[sent], Function.update_self ..⟩
  · exact ⟨[], by rw [Function.update_of_ne hpeer, List.append_nil]⟩

variable {peers}

/-- A step does not stand in the way. -/
theorem CanGet.of_step {action : DeliveryAction ι Op} (hnext : step peers s action = some next)
    (hdelivered : ∃ between, next.delivered peer = s.delivered peer ++ between)
    (h : next.CanGet peers peer logged) : s.CanGet peers peer logged := by
  obtain ⟨first, hfirst⟩ := hdelivered
  obtain ⟨more, t, between, hexec, ht⟩ := h
  refine ⟨action :: more, t, first ++ between, exec_cons_eq_some.mpr ⟨next, hnext, hexec⟩, ?_⟩
  rw [ht, hfirst, List.append_assoc (s.delivered peer)]

theorem canGet_of_deliver {action : DeliveryAction ι Op} (hnext : step peers s action = some next)
    (hdelivered : next.delivered = (s.deliver peer logged).delivered) :
    s.CanGet peers peer logged := by
  refine ⟨[action], next, [], exec_cons_eq_some.mpr ⟨next, hnext, rfl⟩, ?_⟩
  rw [hdelivered, List.append_nil]
  exact Function.update_self ..

/-- A call gets to each of its peers if the others confirm. -/
theorem canGet_of_call {c : ℕ} {call : Sending ι Op} (hcall : s.calls c = some call)
    (hpeer : peer ∈ call.peer :: call.remaining) : s.CanGet peers peer call.logged := by
  obtain ⟨logged, current, remaining, attempts⟩ := call
  induction remaining generalizing s current attempts with
  | nil =>
    obtain rfl := List.mem_singleton.mp hpeer
    have hnext : step peers s (.attempt c .confirmed) =
        some (s.attempt c ⟨logged, peer, [], attempts⟩ .confirmed) := by
      simp only [step, hcall, Option.map_some]
    exact canGet_of_deliver hnext rfl
  | cons first rest ih =>
    have hnext : step peers s (.attempt c .confirmed) =
        some (s.attempt c ⟨logged, current, first :: rest, attempts⟩ .confirmed) := by
      simp only [step, hcall, Option.map_some]
    rcases List.mem_cons.mp hpeer with rfl | hrest
    · exact canGet_of_deliver hnext rfl
    · refine CanGet.of_step hnext (delivered_deliver s current peer logged) ?_
      exact ih first 0 (Function.update_self ..) hrest

theorem canGet_of_draining {request : QueuedRequest ι Op} (h : request ∈ s.draining) :
    s.CanGet peers request.peer request.logged := by
  induction hdraining : s.draining generalizing s with
  | nil => exact absurd (hdraining ▸ h) List.not_mem_nil
  | cons first rest ih =>
    have hnext : step peers s (.drainAttempt .confirmed) =
        some (s.drainAttempt first rest .confirmed) := by
      simp only [step, hdraining]
    rw [hdraining] at h
    rcases List.mem_cons.mp h with rfl | hrest
    · exact canGet_of_deliver hnext rfl
    · refine CanGet.of_step hnext (delivered_deliver s first.peer request.peer first.logged) ?_
      exact ih hrest rfl

/-- The background task gets to the queue when it is through with what it holds. -/
theorem canGet_of_queued {request : QueuedRequest ι Op} (h : request ∈ s.pendingQueue) :
    s.CanGet peers request.peer request.logged := by
  induction hdraining : s.draining generalizing s with
  | nil =>
    have hnext : step peers s .drain =
        some { s with pendingQueue := [], draining := s.pendingQueue } := by
      simp only [step, hdraining]
    refine CanGet.of_step hnext ⟨[], (List.append_nil _).symm⟩ ?_
    exact canGet_of_draining h
  | cons first rest ih =>
    have hnext : step peers s (.drainAttempt .confirmed) =
        some (s.drainAttempt first rest .confirmed) := by
      simp only [step, hdraining]
    refine CanGet.of_step hnext (delivered_deliver s first.peer request.peer first.logged) ?_
    exact ih h rfl

theorem canGet_of_onTheWay (h : (peer, logged) ∈ s.onTheWay) : s.CanGet peers peer logged := by
  obtain ⟨i, hi⟩ := List.mem_iff_getElem?.mp h
  have hnext : step peers s (.arrive i) =
      some { s.deliver peer logged with onTheWay := s.onTheWay.eraseIdx i } := by
    simp only [step, hi, Option.map_some]
  exact canGet_of_deliver hnext rfl

/-- What is left for a peer can get there. -/
theorem canGet_of_outstanding (h : s.Outstanding peer logged) : s.CanGet peers peer logged := by
  cases h with
  | call h hpeer hlogged => exact hlogged ▸ canGet_of_call h hpeer
  | queued h => exact canGet_of_queued h
  | draining h => exact canGet_of_draining h
  | onTheWay h => exact canGet_of_onTheWay h

omit [DecidableEq ι] in
/-- What is left of an operation stays left when nothing that carries it is taken away. -/
theorem Outstanding.mono (h : s.Outstanding peer logged)
    (hcalls : ∀ c call, s.calls c = some call → call.logged = logged → next.calls c = some call)
    (hqueue : ∀ request ∈ s.pendingQueue, request ∈ next.pendingQueue)
    (hdraining : ∀ request ∈ s.draining, request.logged = logged → request ∈ next.draining)
    (honTheWay : ∀ request ∈ s.onTheWay, request.2 = logged → request ∈ next.onTheWay) :
    next.Outstanding peer logged := by
  cases h with
  | call h hpeer hlogged => exact .call (hcalls _ _ h hlogged) hpeer hlogged
  | queued h => exact .queued (hqueue _ h)
  | draining h => exact .draining (hdraining _ h rfl)
  | onTheWay h => exact .onTheWay (honTheWay _ h rfl)

/-- Sending changes the peer or the network only. -/
theorem send_fields (s : HyperReplicationCoordinator ι Op) (receiver : ι)
    (sent : LoggedOperation Op) (outcome : SendOutcome) :
    (s.send receiver sent outcome).calls = s.calls ∧
      (s.send receiver sent outcome).pendingQueue = s.pendingQueue ∧
      (s.send receiver sent outcome).draining = s.draining ∧
      ∀ request ∈ s.onTheWay, request ∈ (s.send receiver sent outcome).onTheWay := by
  cases outcome with
  | confirmed => exact ⟨rfl, rfl, rfl, fun _ h ↦ h⟩
  | failed onTheWay =>
    cases onTheWay with
    | false => exact ⟨rfl, rfl, rfl, fun _ h ↦ h⟩
    | true => exact ⟨rfl, rfl, rfl, fun _ h ↦ List.mem_append_left _ h⟩

/-- A request that does not get lost is at the peer, or on its way. -/
theorem send_survives (s : HyperReplicationCoordinator ι Op) (receiver : ι)
    (sent : LoggedOperation Op) {outcome : SendOutcome} (h : outcome.Survives) :
    sent ∈ (s.send receiver sent outcome).delivered receiver ∨
      (receiver, sent) ∈ (s.send receiver sent outcome).onTheWay := by
  cases outcome with
  | confirmed =>
    left
    show sent ∈ Function.update s.delivered receiver _ receiver
    rw [Function.update_self]
    exact List.mem_append_right _ (List.mem_singleton_self sent)
  | failed onTheWay =>
    cases onTheWay with
    | false => exact absurd rfl h
    | true => exact Or.inr (List.mem_append_right _ (List.mem_singleton_self _))

/-- A newer operation that a peer has, or that is on its way there, and an older one that is
left. -/
theorem exists_not_inOrder {older : LoggedOperation Op}
    (hnewer : logged ∈ s.delivered peer ∨ (peer, logged) ∈ s.onTheWay)
    (holder : s.Outstanding peer older) (hlt : older.index < logged.index) :
    ∃ more, ¬ Always (step peers) InOrder s more := by
  have hthere {t : HyperReplicationCoordinator ι Op} (hmem : logged ∈ t.delivered peer)
      (hleft : t.Outstanding peer older) : ∃ more, ¬ Always (step peers) InOrder t more := by
    have hcan : t.CanGet peers peer older := canGet_of_outstanding hleft
    obtain ⟨more, final, between, hexec, hfinal⟩ := hcan
    refine ⟨more, fun h ↦ ?_⟩
    have hpairs := h.exec hexec peer
    rw [hfinal, List.pairwise_append] at hpairs
    have hle := hpairs.2.2 logged (List.mem_append_left _ hmem) older
      (List.mem_singleton_self older)
    omega
  rcases hnewer with hmem | hmem
  · exact hthere hmem holder
  · obtain ⟨i, hi⟩ := List.mem_iff_getElem?.mp hmem
    have hnext : step peers s (.arrive i) =
        some { s.deliver peer logged with onTheWay := s.onTheWay.eraseIdx i } := by
      simp only [step, hi, Option.map_some]
    have hne : older ≠ logged := fun heq ↦ absurd hlt (heq ▸ lt_irrefl _)
    have hother : ∀ request ∈ s.onTheWay, request.2 = older → request ∈ s.onTheWay.eraseIdx i := by
      intro request h hrequest
      obtain ⟨k, hk⟩ := List.mem_iff_getElem?.mp h
      refine List.mem_eraseIdx_iff_getElem?.mpr ⟨k, ?_, hk⟩
      rintro rfl
      rw [hi, Option.some.injEq] at hk
      exact hne (hrequest.symm.trans (congrArg Prod.snd hk.symm))
    have harrived : logged ∈ (s.deliver peer logged).delivered peer := by simp [deliver]
    obtain ⟨more, hmore⟩ := hthere
      (t := { s.deliver peer logged with onTheWay := s.onTheWay.eraseIdx i }) harrived
      (holder.mono (fun _ _ h _ ↦ h) (fun _ h ↦ h) (fun _ h _ ↦ h) hother)
    exact ⟨.arrive i :: more, fun h ↦ hmore (h.2 _ hnext)⟩

/-- An attempt changes its own call, and may add to the queue. -/
theorem attempt_fields (s : HyperReplicationCoordinator ι Op) (c : ℕ) (call : Sending ι Op)
    (outcome : SendOutcome) :
    let sent := s.send call.peer call.logged outcome
    ∃ call', (s.attempt c call outcome).calls = Function.update s.calls c call' ∧
      (∀ request ∈ s.pendingQueue, request ∈ (s.attempt c call outcome).pendingQueue) ∧
      (s.attempt c call outcome).draining = s.draining ∧
      (s.attempt c call outcome).onTheWay = sent.onTheWay ∧
      (s.attempt c call outcome).delivered = sent.delivered := by
  obtain ⟨hcalls, hqueue, hdraining, -⟩ := send_fields s call.peer call.logged outcome
  dsimp only
  cases outcome with
  | confirmed => exact ⟨_, rfl, fun _ h ↦ h, rfl, rfl, rfl⟩
  | failed onTheWay =>
    unfold attempt
    dsimp only
    split_ifs
    · refine ⟨_, congrArg (Function.update · c _) hcalls, fun request h ↦ ?_, hdraining, rfl, rfl⟩
      exact List.mem_append_left _ (hqueue ▸ h)
    · exact ⟨_, congrArg (Function.update · c _) hcalls, fun _ h ↦ hqueue ▸ h, hdraining, rfl, rfl⟩

theorem drainAttempt_fields (s : HyperReplicationCoordinator ι Op) (request : QueuedRequest ι Op)
    (rest : List (QueuedRequest ι Op)) (outcome : SendOutcome) :
    let sent := s.send request.peer request.logged outcome
    (s.drainAttempt request rest outcome).calls = s.calls ∧
      (∀ queued ∈ s.pendingQueue, queued ∈ (s.drainAttempt request rest outcome).pendingQueue) ∧
      (s.drainAttempt request rest outcome).draining = rest ∧
      (s.drainAttempt request rest outcome).onTheWay = sent.onTheWay ∧
      (s.drainAttempt request rest outcome).delivered = sent.delivered := by
  obtain ⟨hcalls, hqueue, -, -⟩ := send_fields s request.peer request.logged outcome
  dsimp only
  cases outcome with
  | confirmed => exact ⟨rfl, fun _ h ↦ h, rfl, rfl, rfl⟩
  | failed onTheWay =>
    exact ⟨hcalls, fun queued h ↦ List.mem_append_left _ (hqueue ▸ h), rfl, rfl, rfl⟩

/-- What is sent out of turn can be followed by an older operation. -/
theorem exists_not_inOrder_of_not_sentInTurn {action : DeliveryAction ι Op}
    (hnext : step peers s action = some next) (hturn : ¬ s.SentInTurn action) :
    ∃ more, ¬ Always (step peers) InOrder next more := by
  cases action with
  | replicate | drain | arrive | lose => exact absurd trivial hturn
  | attempt c outcome =>
    obtain ⟨call, hcall, rfl⟩ := Option.map_eq_some_iff.mp hnext
    simp only [SentInTurn, hcall, NothingOlder] at hturn
    push Not at hturn
    obtain ⟨hsurvives, _, hsame, older, holder, hlt⟩ := hturn
    obtain rfl := Option.some.inj hsame
    obtain ⟨call', hcalls, hqueue, hdraining, honTheWay, hdelivered⟩ :=
      attempt_fields s c call outcome
    have hkept := (send_fields s call.peer call.logged outcome).2.2.2
    have hsent := send_survives s call.peer call.logged hsurvives
    rw [← honTheWay, ← hdelivered] at hsent
    refine exists_not_inOrder hsent (holder.mono ?_ hqueue ?_ ?_) hlt
    · intro c' other hother hlogged
      rw [hcalls]
      refine (Function.update_of_ne ?_ _ _).trans hother
      rintro rfl
      rw [hcall, Option.some.injEq] at hother
      rw [hother, hlogged] at hlt
      exact lt_irrefl _ hlt
    · exact fun request h _ ↦ hdraining ▸ h
    · exact fun request h _ ↦ honTheWay ▸ hkept request h
  | drainAttempt outcome =>
    cases hdraining : s.draining with
    | nil => simp [step, hdraining] at hnext
    | cons request rest =>
      simp only [step, hdraining, Option.some.injEq] at hnext
      subst hnext
      simp only [SentInTurn, hdraining, NothingOlder] at hturn
      push Not at hturn
      obtain ⟨hsurvives, _, hhead, older, holder, hlt⟩ := hturn
      obtain rfl := Option.some.inj hhead
      obtain ⟨hcalls, hqueue, hrest, honTheWay, hdelivered⟩ :=
        drainAttempt_fields s request rest outcome
      have hkept := (send_fields s request.peer request.logged outcome).2.2.2
      have hsent := send_survives s request.peer request.logged hsurvives
      rw [← honTheWay, ← hdelivered] at hsent
      refine exists_not_inOrder hsent (holder.mono ?_ hqueue ?_ ?_) hlt
      · exact fun c call hcall _ ↦ hcalls ▸ hcall
      · intro held h hlogged
        rw [hdraining] at h
        rw [hrest]
        refine (List.mem_cons.mp h).resolve_left ?_
        rintro rfl
        rw [hlogged] at hlt
        exact lt_irrefl _ hlt
      · exact fun request h _ ↦ honTheWay ▸ hkept request h

/-- The operations get to each peer in the order of the log in all runs in which requests are sent
in turn, and a request that is sent out of turn and does not get lost can be followed by an older
one. -/
theorem inOrder_exactly_in_turn (peers : List ι) :
    (∀ actions : List (DeliveryAction ι Op), EachStep (step peers) SentInTurn new actions →
      Always (step peers) InOrder new actions) ∧
    ∀ (s next : HyperReplicationCoordinator ι Op) (action : DeliveryAction ι Op),
      step peers s action = some next → ¬ s.SentInTurn action →
        ∃ more, ¬ Always (step peers) InOrder next more :=
  ⟨inOrder_of_sentInTurn peers, fun _ _ _ ↦ exists_not_inOrder_of_not_sentInTurn⟩

end HyperReplicationCoordinator

/-! ### An update that comes before what it updates -/

section OnePeer

open HyperReplicationCoordinator

/-- The first operation is confirmed in no attempt, and the second in its first. Then the queue is
sent. -/
def createFails : List (DeliveryAction Unit String) :=
  [.replicate 0 "create", .attempt 0 (.failed false), .attempt 0 (.failed false),
    .attempt 0 (.failed false), .attempt 0 (.failed false), .attempt 0 (.failed false),
    .replicate 1 "update", .attempt 1 .confirmed, .drain, .drainAttempt .confirmed]

/-- The peer gets the older operation last. -/
theorem create_after_update :
    (∃ final, exec (step [()]) new createFails = some final ∧
      (final.delivered ()).map LoggedOperation.operation = ["update", "create"]) ∧
    ¬ Always (step [()]) InOrder new createFails := by
  refine ⟨⟨_, rfl, rfl⟩, fun h ↦ ?_⟩
  have hpairs := h.exec rfl ()
  exact absurd hpairs (by decide)

end OnePeer

end Lithair.Consensus
