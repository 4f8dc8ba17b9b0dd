import Lithair.Http.AccessLog
import Lithair.Lib.Rfc3339
import Lithair.Lib.Run

/-!
# The buffer of the access log

`log_access_ip` and `AccessLogBuffer` of `http/utils.rs`, for any number of calls at once. A call
reads the clock and makes its entry, and only then waits for the lock under which the entry is
pushed; between the two other calls can push theirs. `entries_since` takes the buffer to be in the
order of its time stamps and looks for the first that is not in front of the given text.

`correct_iff`: the buffer answers each of the texts that a time is written as exactly when it is in
order. `always_correct_iff`: a run keeps it so exactly when each entry that is pushed has room and
is not older than those that stay.
-/

namespace Lithair.Http.AccessLog

open Lib.Rfc3339 Lib.Run

/-! ### The buffer -/

/-- An entry with the time of which its time stamp was written. -/
structure LoggedEntry where
  entry : AccessLogEntry
  time : Utc
  noLeap : time.civil.second < 60
  timestamp_eq : entry.timestamp = String.ofList time.text

/-- What `partition_point` promises: the length of the part in front, on a list with all elements
that satisfy the predicate in front of those that do not. -/
def PartitionPoint (partition_point : (LoggedEntry → Bool) → List LoggedEntry → ℕ) : Prop :=
  ∀ p front back, (∀ e ∈ front, p e = true) → (∀ e ∈ back, p e = false) →
    partition_point p (front ++ back) = front.length

structure AccessLogBuffer where
  entries : List LoggedEntry
  capacity : ℕ

namespace AccessLogBuffer

variable (partition_point : (LoggedEntry → Bool) → List LoggedEntry → ℕ)

def new (capacity : ℕ) : AccessLogBuffer where
  entries := []
  capacity

/-- The entries that stay when another one is pushed. -/
def kept (buf : AccessLogBuffer) : List LoggedEntry :=
  if buf.entries.length ≥ buf.capacity then buf.entries.tail else buf.entries

def push (buf : AccessLogBuffer) (entry : LoggedEntry) : AccessLogBuffer :=
  { buf with entries := buf.kept ++ [entry] }

def snapshot (buf : AccessLogBuffer) : List AccessLogEntry := buf.entries.map LoggedEntry.entry

def entriesSince (buf : AccessLogBuffer) (since : String) : List LoggedEntry :=
  buf.entries.drop (partition_point (fun e ↦ decide (e.entry.timestamp < since)) buf.entries)

def clear (buf : AccessLogBuffer) : AccessLogBuffer := { buf with entries := [] }

/-- No entry is older than one in front of it. -/
def InOrder (buf : AccessLogBuffer) : Prop :=
  buf.entries.Pairwise fun e later ↦ e.time.instant ≤ later.time.instant

/-- A time as `to_rfc3339` writes it in Coordinated Universal Time. -/
def Canonical (since : Stamp) : Prop :=
  ∃ time : Utc, (time.civil.second < 60 ∨ time.nanos = 0) ∧ since = time.stamp

/-- No more entries than the capacity, and for every canonical text the entries that are at or
after its time. -/
def Correct (buf : AccessLogBuffer) : Prop :=
  buf.entries.length ≤ buf.capacity ∧
    ∀ since : Stamp, Canonical since →
      buf.entriesSince partition_point (String.ofList since.text) =
        buf.entries.filter fun e ↦ decide (since.instant ≤ e.time.instant)

end AccessLogBuffer

/-! ### Lists that a predicate divides -/

theorem filter_eq_drop_iff {α : Type*} (p : α → Bool) (l : List α) (n : ℕ) :
    l.drop n = l.filter p ↔ (∀ x ∈ l.take n, p x = false) ∧ ∀ x ∈ l.drop n, p x = true := by
  have hsplit : l.filter p = (l.take n).filter p ++ (l.drop n).filter p := by
    rw [← List.filter_append, List.take_append_drop]
  constructor
  · intro h
    have hdrop : ∀ x ∈ l.drop n, p x = true := fun x hx ↦ (List.mem_filter.mp (h ▸ hx)).2
    rw [hsplit, List.filter_eq_self.mpr hdrop, List.self_eq_append_left,
      List.filter_eq_nil_iff] at h
    exact ⟨fun x hx ↦ Bool.eq_false_iff.mpr (h x hx), hdrop⟩
  · rintro ⟨htake, hdrop⟩
    rw [hsplit, List.filter_eq_self.mpr hdrop,
      List.filter_eq_nil_iff.mpr fun x hx ↦ Bool.eq_false_iff.mp (htake x hx), List.nil_append]

/-- An ordered list has what is in front of a bound in front. -/
theorem exists_divided {α : Type*} {r : α → α → Prop} {p : α → Bool}
    (hp : ∀ x y, r x y → p y = true → p x = true) {l : List α} (h : l.Pairwise r) :
    ∃ front back, l = front ++ back ∧ (∀ x ∈ front, p x = true) ∧ ∀ x ∈ back, p x = false := by
  induction l with
  | nil => exact ⟨[], [], rfl, nofun, nofun⟩
  | cons x l ih =>
    obtain ⟨hx, hl⟩ := List.pairwise_cons.mp h
    by_cases hpx : p x = true
    · obtain ⟨front, back, rfl, hfront, hback⟩ := ih hl
      exact ⟨x :: front, back, rfl, List.forall_mem_cons.mpr ⟨hpx, hfront⟩, hback⟩
    · refine ⟨[], x :: l, rfl, nofun, List.forall_mem_cons.mpr ⟨Bool.eq_false_iff.mpr hpx, ?_⟩⟩
      exact fun y hy ↦ Bool.eq_false_iff.mpr fun hpy ↦ hpx (hp x y (hx y hy) hpy)

namespace AccessLogBuffer

variable {partition_point : (LoggedEntry → Bool) → List LoggedEntry → ℕ}

theorem timestamp_lt_iff (e : LoggedEntry) {time : Utc}
    (h : time.civil.second < 60 ∨ time.nanos = 0) :
    e.entry.timestamp < String.ofList time.stamp.text ↔ e.time.instant < time.stamp.instant := by
  rw [e.timestamp_eq, String.lt_iff, String.toList_ofList, String.toList_ofList]
  exact Utc.text_lt_iff e.time time e.noLeap h

/-- The buffer answers every canonical text exactly when it is in order. -/
theorem correct_iff (hpoint : PartitionPoint partition_point) (buf : AccessLogBuffer) :
    buf.Correct partition_point ↔ buf.entries.length ≤ buf.capacity ∧ buf.InOrder := by
  refine and_congr_right fun _ ↦ ⟨fun h ↦ ?_, ?_⟩
  · -- An entry in front of an older one is asked for by its own time stamp.
    rw [InOrder, List.pairwise_iff_getElem]
    intro i j hi hj hij
    by_contra hlater
    have hsince := h _ ⟨buf.entries[i].time, .inl buf.entries[i].noLeap, rfl⟩
    rw [entriesSince, filter_eq_drop_iff] at hsince
    obtain ⟨htake, hdrop⟩ := hsince
    set n := partition_point (fun e ↦ decide (e.entry.timestamp <
      String.ofList buf.entries[i].time.stamp.text)) buf.entries
    rcases Nat.lt_or_ge i n with hin | hni
    · have hmem : buf.entries[i] ∈ buf.entries.take n :=
        List.mem_take_iff_getElem.mpr ⟨i, by omega, rfl⟩
      exact of_decide_eq_false (htake _ hmem) le_rfl
    · have hmem : buf.entries[j] ∈ buf.entries.drop n :=
        List.mem_drop_iff_getElem.mpr ⟨j - n, by omega, by congr 1; omega⟩
      exact hlater (of_decide_eq_true (hdrop _ hmem))
  · rintro horder since ⟨time, htime, rfl⟩
    have hmono : ∀ e later : LoggedEntry, e.time.instant ≤ later.time.instant →
        decide (later.entry.timestamp < String.ofList time.stamp.text) = true →
        decide (e.entry.timestamp < String.ofList time.stamp.text) = true := by
      intro e later hle hlt
      rw [decide_eq_true_iff, timestamp_lt_iff _ htime] at hlt ⊢
      exact lt_of_le_of_lt hle hlt
    obtain ⟨front, back, hentries, hfront, hback⟩ := exists_divided hmono horder
    rw [entriesSince, filter_eq_drop_iff, hentries, hpoint _ front back hfront hback,
      List.take_left, List.drop_left]
    constructor
    · intro e he
      have hlt := of_decide_eq_true (hfront e he)
      rw [timestamp_lt_iff _ htime] at hlt
      exact decide_eq_false (not_le.mpr hlt)
    · intro e he
      have hnot := of_decide_eq_false (hback e he)
      rw [timestamp_lt_iff _ htime] at hnot
      exact decide_eq_true (not_lt.mp hnot)

end AccessLogBuffer

/-! ### Calls -/

/-- The arguments of a call of `log_access_ip`, with the milliseconds since its start. -/
structure LogAccessCall where
  remote_ip : String
  method : String
  path : String
  resp : Response
  dur_ms : ℕ

/-- The entry of a call that reads the clock. -/
def LogAccessCall.logged (call : LogAccessCall) (now : Utc) (hnow : now.civil.second < 60) :
    LoggedEntry where
  entry := accessLogEntry call.remote_ip call.method call.path call.resp (String.ofList now.text)
    call.dur_ms
  time := now
  noLeap := hnow
  timestamp_eq := rfl

/-- The buffer, and the entries of the calls that wait for its lock. -/
structure LogState where
  buffer : AccessLogBuffer
  waiting : List LoggedEntry

inductive LogAction
  /-- a call makes its entry -/
  | make (call : LogAccessCall) (now : Utc) (hnow : now.civil.second < 60)
  /-- the call of the entry has the lock -/
  | push (i : ℕ)
  | clear

namespace LogState

variable (partition_point : (LoggedEntry → Bool) → List LoggedEntry → ℕ)

def start (capacity : ℕ) : LogState where
  buffer := .new capacity
  waiting := []

def step (s : LogState) : LogAction → Option LogState
  | .make call now hnow => some { s with waiting := s.waiting ++ [call.logged now hnow] }
  | .push i =>
    s.waiting[i]?.map fun entry ↦
      { buffer := s.buffer.push entry
        waiting := s.waiting.eraseIdx i }
  | .clear => some { s with buffer := s.buffer.clear }

/-- An entry that is pushed has room, and no entry that stays is younger. -/
def PushesInOrder (s : LogState) : LogAction → Prop
  | .push i => ∀ entry ∈ s.waiting[i]?, 0 < s.buffer.capacity ∧
      ∀ e ∈ s.buffer.kept, e.time.instant ≤ entry.time.instant
  | _ => True

end LogState

theorem AccessLogBuffer.length_push_le_iff {buf : AccessLogBuffer}
    (h : buf.entries.length ≤ buf.capacity) (entry : LoggedEntry) :
    (buf.push entry).entries.length ≤ buf.capacity ↔ 0 < buf.capacity := by
  rw [push, kept, List.length_append, List.length_singleton]
  split_ifs
  · rw [List.length_tail]
    omega
  · omega

theorem AccessLogBuffer.InOrder.kept {buf : AccessLogBuffer} (h : buf.InOrder) :
    buf.kept.Pairwise fun e later ↦ e.time.instant ≤ later.time.instant := by
  unfold AccessLogBuffer.kept
  split_ifs
  · exact h.sublist (List.tail_sublist _)
  · exact h

/-- A step keeps the buffer correct exactly when what it pushes has room and is in order. -/
theorem step_correct_iff {partition_point : (LoggedEntry → Bool) → List LoggedEntry → ℕ}
    (hpoint : PartitionPoint partition_point) {s next : LogState} {a : LogAction}
    (hs : s.buffer.Correct partition_point) (hnext : s.step a = some next) :
    next.buffer.Correct partition_point ↔ s.PushesInOrder a := by
  obtain ⟨hlength, horder⟩ := (AccessLogBuffer.correct_iff hpoint s.buffer).mp hs
  cases a with
  | make call now hnow =>
    obtain rfl := Option.some.inj hnext
    exact iff_of_true hs trivial
  | clear =>
    obtain rfl := Option.some.inj hnext
    refine iff_of_true ((AccessLogBuffer.correct_iff hpoint _).mpr ?_) trivial
    exact ⟨Nat.zero_le _, List.Pairwise.nil⟩
  | push i =>
    obtain ⟨entry, hentry, rfl⟩ := Option.map_eq_some_iff.mp hnext
    have hpush : (s.buffer.push entry).InOrder ↔
        ∀ e ∈ s.buffer.kept, e.time.instant ≤ entry.time.instant := by
      rw [AccessLogBuffer.InOrder, AccessLogBuffer.push, List.pairwise_append]
      exact ⟨fun h e he ↦ h.2.2 e he entry List.mem_cons_self,
        fun h ↦ ⟨horder.kept, List.pairwise_singleton _ _,
          fun e he later hlater ↦ List.mem_singleton.mp hlater ▸ h e he⟩⟩
    rw [AccessLogBuffer.correct_iff hpoint, hpush, LogState.PushesInOrder]
    rw [show (s.buffer.push entry).capacity = s.buffer.capacity from rfl,
      AccessLogBuffer.length_push_le_iff hlength, hentry]
    exact ⟨fun h _ heq ↦ Option.some.inj heq ▸ h, fun h ↦ h entry rfl⟩

/-- In every run, the buffer is within its capacity and answers every canonical text with the
entries at or after its time in each state that is reached, exactly when each entry that is pushed
has room and is not older than those that stay. -/
theorem always_correct_iff {partition_point : (LoggedEntry → Bool) → List LoggedEntry → ℕ}
    (hpoint : PartitionPoint partition_point) (capacity : ℕ) (actions : List LogAction) :
    Always LogState.step (fun s ↦ s.buffer.Correct partition_point) (.start capacity) actions ↔
      EachStep LogState.step LogState.PushesInOrder (.start capacity) actions := by
  have hstart : (LogState.start capacity).buffer.Correct partition_point :=
    (AccessLogBuffer.correct_iff hpoint _).mpr ⟨Nat.zero_le _, List.Pairwise.nil⟩
  rw [always_iff_and_eachStep fun s a next hs hnext ↦ step_correct_iff hpoint hs hnext]
  exact and_iff_right hstart

/-! ### Two calls in a second -/

/-- The search from the front. -/
def firstAfter (p : LoggedEntry → Bool) (l : List LoggedEntry) : ℕ := (l.takeWhile p).length

theorem partitionPoint_firstAfter : PartitionPoint firstAfter := by
  intro p front back hfront hback
  have hstop : back.takeWhile p = [] := by
    cases back with
    | nil => rfl
    | cons e back => exact List.takeWhile_cons_of_neg (by simp [hback e List.mem_cons_self])
  rw [firstAfter, List.takeWhile_append_of_pos hfront, hstop, List.append_nil]

/-- Ten o'clock. -/
def tenOClock : Civil := (Civil.ofFields 2024 5 1 10 0 0).get (by decide)

/-- A second after ten, in milliseconds. -/
def afterTen (millis : ℕ) (h : millis < 1000) : Utc where
  civil := tenOClock
  nanos := millis * 10 ^ 6
  nanos_lt := by omega

theorem afterTen_le_iff {m n : ℕ} (hm : m < 1000) (hn : n < 1000) :
    (afterTen m hm).instant ≤ (afterTen n hn).instant ↔ m ≤ n := by
  have hticks {m : ℕ} (h : m < 1000) :
      (afterTen m h).ticks = tenOClock.seconds * 10 ^ 9 + m * 10 ^ 6 := rfl
  rw [← not_lt, Utc.instant_lt_iff, hticks, hticks]
  omega

def health : LogAccessCall where
  remote_ip := "10.0.0.1"
  method := "GET"
  path := "/health"
  resp := ⟨200, []⟩
  dur_ms := 1

/-- Two calls that make their entries and push them in turn. -/
theorem always_correct_in_turn :
    Always LogState.step (fun s ↦ s.buffer.Correct firstAfter) (.start 2)
      [.make health (afterTen 500 (by decide)) (by decide), .push 0,
        .make health (afterTen 600 (by decide)) (by decide), .push 0] := by
  refine (always_correct_iff partitionPoint_firstAfter 2 _).mpr ?_
  refine .cons rfl trivial (.cons rfl ?_ (.cons rfl trivial (.cons rfl ?_ trivial)))
  · rintro entry -
    exact ⟨by decide, nofun⟩
  · intro entry hentry
    obtain rfl := Option.some.inj hentry
    refine ⟨by decide, List.forall_mem_singleton.mpr ?_⟩
    exact (afterTen_le_iff (by decide) (by decide)).mpr (by decide)

/-- Of two calls at once the second may be first to push its entry. -/
theorem not_always_correct :
    ¬ ∀ (capacity : ℕ) (actions : List LogAction),
      Always LogState.step (fun s ↦ s.buffer.entries.length ≤ s.buffer.capacity ∧
        ∀ since : Stamp, s.buffer.entriesSince firstAfter (String.ofList since.text) =
          s.buffer.entries.filter fun e ↦ decide (since.instant ≤ e.time.instant))
        (.start capacity) actions := by
  intro h
  have hboth := h 2 [.make health (afterTen 500 (by decide)) (by decide),
    .make health (afterTen 600 (by decide)) (by decide), .push 1, .push 0]
  have hlast := Always.exec hboth rfl
  have hcorrect := (AccessLogBuffer.correct_iff partitionPoint_firstAfter _).mp
    ⟨hlast.1, fun since _ ↦ hlast.2 since⟩
  have horder := (List.pairwise_cons.mp hcorrect.2).1 _ List.mem_cons_self
  exact absurd ((afterTen_le_iff (by decide) (by decide)).mp horder) (by decide)

end Lithair.Http.AccessLog
