import Lithair.Lib.Run

/-!
# The circuit breaker

A breaker is closed, open or half-open. It opens when the failures since the last success reach the
threshold, is half-open from when a call asks that may go through again, and a success closes it.
The three fields are changed one after the other, and the time of the last failure is behind a lock
that nobody waits for: a failure that does not get it leaves no time, a call that does not get it is
denied. The system is the calls, each before one of its accesses to the fields.

What the breaker promises speaks of what the calls did (`Told`): `promised_of_guarded` proves it for
the runs in which no call asks while the breaker is half-open, a call that makes it half-open finds
it still open, and every failure leaves its time and, when the breaker is half-open, reaches the
threshold. The half-open breaker lets every call through, not one (`not_promised`).
-/

namespace Lithair.Security.Breaker

open Lib.Run

structure CircuitBreaker where
  failure_count : ℕ
  /-- On a clock of nanoseconds. -/
  last_failure_time : Option ℕ
  /-- 0 is closed, 1 open, 2 half-open. -/
  state : ℕ
  threshold : ℕ

def CircuitBreaker.new (threshold : ℕ) : CircuitBreaker := ⟨0, none, 0, threshold⟩

/-- A minute. -/
def openTime : ℕ := 60 * 1000000000

/-- What the calls did: whether the breaker was opened and no success recorded since, when the last
failure was recorded, and how many calls were let through since a success or a failure was. -/
structure Told where
  opened : Bool
  failed_at : Option ℕ
  let_through : ℕ

/-- What the calls share; `lock` is the number of the call that has the lock. -/
structure Shared where
  breaker : CircuitBreaker
  lock : Option ℕ
  told : Told

/-- Where a call is. `is_allowed` begins at `load`, `record_success` at `storeCount` and
`record_failure` at `fetchAdd`. -/
inductive Stage
  | load
  | tryLock
  | elapsed
  | storeHalfOpen
  | allowed
  | denied
  | storeCount
  | storeClosed
  | succeeded
  | fetchAdd
  | tryStamp (failures : ℕ)
  | stamp (failures : ℕ)
  | compare (failures : ℕ)
  | failed
  deriving DecidableEq

namespace Shared

variable (sh : Shared)

def letThrough : Shared :=
  { sh with told := { sh.told with let_through := sh.told.let_through + 1 } }

/-- The call has the lock, reads how long the last failure is ago, and gives the lock up unless the
breaker is to be half-open. -/
def checkElapsed (clock : ℕ) : Stage × Shared :=
  match sh.breaker.last_failure_time with
  | some last_time =>
    if openTime < clock - last_time then (.storeHalfOpen, sh)
    else (.denied, { sh with lock := none })
  | none => (.denied, { sh with lock := none })

def storeState (state : ℕ) : Shared := { sh with breaker := { sh.breaker with state := state } }

/-- The failure is recorded; the breaker opens at the threshold. -/
def compareFailures (failures : ℕ) : Shared :=
  if sh.breaker.threshold ≤ failures then
    { sh.storeState 1 with told := { sh.told with opened := true, let_through := 0 } }
  else { sh with told := { sh.told with let_through := 0 } }

end Shared

/-- What a call does next. -/
def advanceCall (clock i : ℕ) (sh : Shared) : Stage → Option (Stage × Shared)
  | .load =>
    match sh.breaker.state with
    | 0 => some (.allowed, sh.letThrough)
    | 1 => some (.tryLock, sh)
    | 2 => some (.allowed, sh.letThrough)
    | _ => some (.denied, sh)
  | .tryLock =>
    match sh.lock with
    | none => some (.elapsed, { sh with lock := some i })
    | some _ => some (.denied, sh)
  | .elapsed => some (sh.checkElapsed clock)
  -- The lock is given up on return.
  | .storeHalfOpen => some (.allowed, { (sh.storeState 2).letThrough with lock := none })
  | .storeCount =>
    some (.storeClosed, { sh with breaker := { sh.breaker with failure_count := 0 } })
  | .storeClosed =>
    some (.succeeded,
      { sh.storeState 0 with told := { sh.told with opened := false, let_through := 0 } })
  | .fetchAdd =>
    some (.tryStamp (sh.breaker.failure_count + 1),
      { sh with
        breaker := { sh.breaker with failure_count := sh.breaker.failure_count + 1 } })
  | .tryStamp failures =>
    match sh.lock with
    | none => some (.stamp failures, { sh with lock := some i })
    | some _ =>
      some (.compare failures, { sh with told := { sh.told with failed_at := some clock } })
  | .stamp failures =>
    some (.compare failures,
      { breaker := { sh.breaker with last_failure_time := some clock },
        lock := none,
        told := { sh.told with failed_at := some clock } })
  | .compare failures => some (.failed, sh.compareFailures failures)
  | .allowed | .denied | .succeeded | .failed => none

structure State where
  clock : ℕ
  shared : Shared
  calls : List Stage

def init (threshold : ℕ) : State := ⟨0, ⟨.new threshold, none, ⟨false, none, 0⟩⟩, []⟩

inductive Action
  | isAllowed
  | recordSuccess
  | recordFailure
  /-- The call with this number goes on. -/
  | advance (i : ℕ)
  | tick (time : ℕ)

def step (s : State) : Action → Option State
  | .isAllowed => some { s with calls := s.calls ++ [.load] }
  | .recordSuccess => some { s with calls := s.calls ++ [.storeCount] }
  | .recordFailure => some { s with calls := s.calls ++ [.fetchAdd] }
  | .advance i =>
    s.calls[i]?.bind fun stage ↦ (advanceCall s.clock i s.shared stage).map fun (stage', sh) ↦
      { s with calls := s.calls.set i stage', shared := sh }
  | .tick time => some { s with clock := s.clock + time }

/-! ### What the breaker promises -/

/-- The step lets a call through. -/
def LetsThrough (s next : State) : Prop :=
  ∃ i : ℕ, s.calls[i]? ≠ some Stage.allowed ∧ next.calls[i]? = some Stage.allowed

/-- A call that is let through while the breaker is opened comes a minute after the last failure,
and is the only one since. -/
def OneProbe (s next : State) : Prop :=
  LetsThrough s next → s.shared.told.opened = true →
    (∀ t, s.shared.told.failed_at = some t → t + openTime ≤ s.clock) ∧
    s.shared.told.let_through = 0

/-- A failure that is recorded while the breaker is half-open opens it. -/
def Reopens (s next : State) : Prop :=
  ∀ i : ℕ, s.calls[i]? ≠ some Stage.failed → next.calls[i]? = some Stage.failed →
    s.shared.breaker.state = 2 → next.shared.breaker.state = 1

/-- What the breaker promises of a step. -/
def Promised (s : State) (a : Action) : Prop :=
  ∀ next, step s a = some next → OneProbe s next ∧ Reopens s next

/-- After a success the breaker is closed until it is opened. -/
def ClosedBySuccess (s : State) : Prop :=
  s.shared.told.opened = false → s.shared.breaker.state = 0

/-- The half-open breaker is not asked, a call that makes it half-open finds it open, a failure gets
the lock, and one that comes to the half-open breaker reaches the threshold. -/
def Guarded (s : State) : Action → Prop
  | .advance i =>
    (s.calls[i]? = some Stage.load → s.shared.breaker.state ≠ 2) ∧
    (s.calls[i]? = some Stage.storeHalfOpen → s.shared.breaker.state = 1) ∧
    ∀ failures, (s.calls[i]? = some (Stage.tryStamp failures) → s.shared.lock = none) ∧
      (s.calls[i]? = some (Stage.compare failures) → s.shared.breaker.state = 2 →
        s.shared.breaker.threshold ≤ failures)
  | _ => True

/-! ### The invariant -/

/-- The call has the lock. -/
def Stage.Holds : Stage → Prop
  | .elapsed | .storeHalfOpen | .stamp _ => True
  | _ => False

structure Inv (s : State) : Prop where
  opened : s.shared.told.opened = true ↔ s.shared.breaker.state ≠ 0
  stamped : s.shared.breaker.last_failure_time = s.shared.told.failed_at
  no_probe : s.shared.breaker.state = 1 → s.shared.told.let_through = 0
  holder : ∀ (i : ℕ) stage, s.calls[i]? = some stage → stage.Holds → s.shared.lock = some i
  waited : ∀ i : ℕ, s.calls[i]? = some Stage.storeHalfOpen →
    ∀ t, s.shared.told.failed_at = some t → t + openTime ≤ s.clock

theorem inv_init (threshold : ℕ) : Inv (init threshold) :=
  ⟨iff_of_false nofun (absurd rfl), rfl, fun h ↦ absurd h nofun, nofun, nofun⟩

section Steps

variable {s : State}

/-- Nobody else has the lock that a call has, or that is free. -/
theorem Inv.alone (h : Inv s) {i j : ℕ} {stage other : Stage} (hi : s.calls[i]? = some stage)
    (hfree : stage.Holds ∨ s.shared.lock = none) (hji : j ≠ i) (hj : s.calls[j]? = some other) :
    ¬ other.Holds := by
  intro hother
  have hlock : s.shared.lock = some j := h.holder j other hj hother
  rcases hfree with hholds | hnone
  · exact hji (Option.some.inj (hlock.symm.trans (h.holder i stage hi hholds)))
  · exact absurd (hlock.symm.trans hnone) nofun

/-- What a call must see to for the invariant. The lock and the time of the last failure are for
the call that has the lock to change. -/
theorem Inv.moved (h : Inv s) {i : ℕ} {stage stage' : Stage} {sh : Shared}
    (hi : s.calls[i]? = some stage)
    (hshared : (sh.lock = s.shared.lock ∧ sh.told.failed_at = s.shared.told.failed_at) ∨
      stage.Holds ∨ s.shared.lock = none)
    (hopened : sh.told.opened = true ↔ sh.breaker.state ≠ 0)
    (hstamped : sh.breaker.last_failure_time = sh.told.failed_at)
    (hprobe : sh.breaker.state = 1 → sh.told.let_through = 0)
    (hholder : stage'.Holds → sh.lock = some i)
    (hwaited : stage' = .storeHalfOpen →
      ∀ t, sh.told.failed_at = some t → t + openTime ≤ s.clock) :
    Inv { s with calls := s.calls.set i stage', shared := sh } := by
  refine ⟨hopened, hstamped, hprobe, fun j other hj hother ↦ ?_, fun j hj t ht ↦ ?_⟩
  · rcases getElem?_set_eq_some hj with ⟨rfl, rfl⟩ | ⟨hji, hold⟩
    · exact hholder hother
    · rcases hshared with ⟨hlock, -⟩ | hfree
      · exact hlock.trans (h.holder j other hold hother)
      · exact absurd hother (h.alone hi hfree hji hold)
  · rcases getElem?_set_eq_some hj with ⟨-, hstage⟩ | ⟨hji, hold⟩
    · exact hwaited hstage.symm t ht
    · rcases hshared with ⟨-, hfailed⟩ | hfree
      · exact h.waited j hold t (hfailed.symm.trans ht)
      · exact absurd trivial (h.alone hi hfree hji hold)

/-- A new call. -/
theorem Inv.started (h : Inv s) {stage : Stage} (hstage : ¬ stage.Holds) :
    Inv { s with calls := s.calls ++ [stage] } := by
  have hold {j : ℕ} {other : Stage} (hj : (s.calls ++ [stage])[j]? = some other)
      (hother : other.Holds) : s.calls[j]? = some other := by
    rcases getElem?_concat_eq_some hj with hj | rfl
    · exact hj
    · exact absurd hother hstage
  exact ⟨h.opened, h.stamped, h.no_probe, fun j other hj hother ↦ h.holder j other (hold hj hother)
    hother, fun j hj ↦ h.waited j (hold hj trivial)⟩

theorem step_advance {i : ℕ} {next : State} (hstep : step s (.advance i) = some next) :
    ∃ stage stage' sh, s.calls[i]? = some stage ∧
      advanceCall s.clock i s.shared stage = some (stage', sh) ∧
      next = { s with calls := s.calls.set i stage', shared := sh } := by
  obtain ⟨stage, hi, hmap⟩ := Option.bind_eq_some_iff.mp hstep
  obtain ⟨⟨stage', sh⟩, hcall, rfl⟩ := Option.map_eq_some_iff.mp hmap
  exact ⟨stage, stage', sh, hi, hcall, rfl⟩

theorem Inv.step {a : Action} {next : State} (h : Inv s) (hguarded : Guarded s a)
    (hstep : step s a = some next) : Inv next := by
  cases a with
  | isAllowed =>
    obtain rfl := Option.some.inj hstep
    exact h.started id
  | recordSuccess =>
    obtain rfl := Option.some.inj hstep
    exact h.started id
  | recordFailure =>
    obtain rfl := Option.some.inj hstep
    exact h.started id
  | tick time =>
    obtain rfl := Option.some.inj hstep
    refine ⟨h.opened, h.stamped, h.no_probe, h.holder, fun i hi t ht ↦ ?_⟩
    exact Nat.le_trans (h.waited i hi t ht) (Nat.le_add_right s.clock time)
  | advance i =>
    obtain ⟨stage, stage', sh, hi, hcall, rfl⟩ := step_advance hstep
    obtain ⟨hload, hhalf, hfailure⟩ := hguarded
    cases stage with
    | load =>
      simp only [advanceCall] at hcall
      split at hcall
      case h_1 hstate =>
        obtain ⟨rfl, rfl⟩ := Prod.mk.inj (Option.some.inj hcall)
        refine h.moved hi (.inl ⟨rfl, rfl⟩) h.opened h.stamped (fun hopen ↦ ?_) nofun nofun
        exact absurd (hstate.symm.trans hopen) nofun
      case h_2 hstate =>
        obtain ⟨rfl, rfl⟩ := Prod.mk.inj (Option.some.inj hcall)
        exact h.moved hi (.inl ⟨rfl, rfl⟩) h.opened h.stamped h.no_probe nofun nofun
      case h_3 hstate => exact absurd hstate (hload hi)
      case h_4 =>
        obtain ⟨rfl, rfl⟩ := Prod.mk.inj (Option.some.inj hcall)
        exact h.moved hi (.inl ⟨rfl, rfl⟩) h.opened h.stamped h.no_probe nofun nofun
    | tryLock =>
      simp only [advanceCall] at hcall
      split at hcall
      case h_1 hfree =>
        obtain ⟨rfl, rfl⟩ := Prod.mk.inj (Option.some.inj hcall)
        exact h.moved hi (.inr (.inr hfree)) h.opened h.stamped h.no_probe (fun _ ↦ rfl) nofun
      case h_2 =>
        obtain ⟨rfl, rfl⟩ := Prod.mk.inj (Option.some.inj hcall)
        exact h.moved hi (.inl ⟨rfl, rfl⟩) h.opened h.stamped h.no_probe nofun nofun
    | elapsed =>
      have hlock := h.holder i .elapsed hi trivial
      simp only [advanceCall, Shared.checkElapsed] at hcall
      split at hcall
      case h_1 last_time hlast =>
        split_ifs at hcall with hlong
        · obtain ⟨rfl, rfl⟩ := Prod.mk.inj (Option.some.inj hcall)
          refine h.moved hi (.inl ⟨rfl, rfl⟩) h.opened h.stamped h.no_probe (fun _ ↦ hlock) ?_
          intro _ t ht
          obtain rfl := Option.some.inj (hlast.symm.trans (h.stamped.trans ht))
          omega
        · obtain ⟨rfl, rfl⟩ := Prod.mk.inj (Option.some.inj hcall)
          exact h.moved hi (.inr (.inl trivial)) h.opened h.stamped h.no_probe nofun nofun
      case h_2 =>
        obtain ⟨rfl, rfl⟩ := Prod.mk.inj (Option.some.inj hcall)
        exact h.moved hi (.inr (.inl trivial)) h.opened h.stamped h.no_probe nofun nofun
    | storeHalfOpen =>
      obtain ⟨rfl, rfl⟩ := Prod.mk.inj (Option.some.inj hcall)
      have hopened : s.shared.told.opened = true := h.opened.mpr (hhalf hi ▸ nofun)
      exact h.moved hi (.inr (.inl trivial)) (iff_of_true hopened nofun) h.stamped nofun nofun nofun
    | allowed => exact absurd hcall nofun
    | denied => exact absurd hcall nofun
    | storeCount =>
      obtain ⟨rfl, rfl⟩ := Prod.mk.inj (Option.some.inj hcall)
      exact h.moved hi (.inl ⟨rfl, rfl⟩) h.opened h.stamped h.no_probe nofun nofun
    | storeClosed =>
      obtain ⟨rfl, rfl⟩ := Prod.mk.inj (Option.some.inj hcall)
      exact h.moved hi (.inl ⟨rfl, rfl⟩) (iff_of_false nofun (absurd rfl)) h.stamped nofun nofun
        nofun
    | succeeded => exact absurd hcall nofun
    | fetchAdd =>
      obtain ⟨rfl, rfl⟩ := Prod.mk.inj (Option.some.inj hcall)
      exact h.moved hi (.inl ⟨rfl, rfl⟩) h.opened h.stamped h.no_probe nofun nofun
    | tryStamp failures =>
      have hfree := (hfailure failures).1 hi
      simp only [advanceCall] at hcall
      rw [hfree] at hcall
      obtain ⟨rfl, rfl⟩ := Prod.mk.inj (Option.some.inj hcall)
      exact h.moved hi (.inr (.inr hfree)) h.opened h.stamped h.no_probe (fun _ ↦ rfl) nofun
    | stamp failures =>
      obtain ⟨rfl, rfl⟩ := Prod.mk.inj (Option.some.inj hcall)
      exact h.moved hi (.inr (.inl trivial)) h.opened rfl h.no_probe nofun nofun
    | compare failures =>
      obtain ⟨rfl, rfl⟩ := Prod.mk.inj (Option.some.inj hcall)
      unfold Shared.compareFailures
      split_ifs
      · exact h.moved hi (.inl ⟨rfl, rfl⟩) (iff_of_true rfl nofun) h.stamped (fun _ ↦ rfl) nofun
          nofun
      · exact h.moved hi (.inl ⟨rfl, rfl⟩) h.opened h.stamped (fun _ ↦ rfl) nofun nofun
    | failed => exact absurd hcall nofun

/-- Who is let through found the breaker closed or half-open, or makes it half-open; a failure is
recorded last when it is compared with the threshold. -/
theorem advanceCall_returns {clock i : ℕ} {sh sh' : Shared} {stage target : Stage}
    (h : advanceCall clock i sh stage = some (target, sh')) :
    (target = .allowed →
      (stage = .load ∧ (sh.breaker.state = 0 ∨ sh.breaker.state = 2)) ∨ stage = .storeHalfOpen) ∧
    (target = .failed →
      ∃ failures, stage = .compare failures ∧ sh' = sh.compareFailures failures) := by
  cases stage with
  | load =>
    simp only [advanceCall] at h
    split at h
    case h_1 hstate =>
      obtain ⟨rfl, -⟩ := Prod.mk.inj (Option.some.inj h)
      exact ⟨fun _ ↦ .inl ⟨rfl, .inl hstate⟩, nofun⟩
    case h_3 hstate =>
      obtain ⟨rfl, -⟩ := Prod.mk.inj (Option.some.inj h)
      exact ⟨fun _ ↦ .inl ⟨rfl, .inr hstate⟩, nofun⟩
    all_goals
      obtain ⟨rfl, -⟩ := Prod.mk.inj (Option.some.inj h)
      exact ⟨nofun, nofun⟩
  | storeHalfOpen =>
    obtain ⟨rfl, -⟩ := Prod.mk.inj (Option.some.inj h)
    exact ⟨fun _ ↦ .inr rfl, nofun⟩
  | compare failures =>
    obtain ⟨rfl, rfl⟩ := Prod.mk.inj (Option.some.inj h)
    exact ⟨nofun, fun _ ↦ ⟨failures, rfl, rfl⟩⟩
  | elapsed =>
    simp only [advanceCall, Shared.checkElapsed] at h
    split at h
    case h_1 last_time hlast =>
      split_ifs at h
      all_goals
        obtain ⟨rfl, -⟩ := Prod.mk.inj (Option.some.inj h)
        exact ⟨nofun, nofun⟩
    case h_2 =>
      obtain ⟨rfl, -⟩ := Prod.mk.inj (Option.some.inj h)
      exact ⟨nofun, nofun⟩
  | tryLock | tryStamp =>
    simp only [advanceCall] at h
    split at h
    all_goals
      obtain ⟨rfl, -⟩ := Prod.mk.inj (Option.some.inj h)
      exact ⟨nofun, nofun⟩
  | storeCount | storeClosed | fetchAdd | stamp =>
    obtain ⟨rfl, -⟩ := Prod.mk.inj (Option.some.inj h)
    exact ⟨nofun, nofun⟩
  | allowed | denied | succeeded | failed => exact absurd h nofun

/-- A call comes to a stage in which it was not by taking the step itself, or by starting there. -/
theorem advance_of_entered {a : Action} {next : State} (hstep : step s a = some next) {j : ℕ}
    {target : Stage} (hbefore : s.calls[j]? ≠ some target) (hafter : next.calls[j]? = some target)
    (htarget : target ≠ .load ∧ target ≠ .storeCount ∧ target ≠ .fetchAdd) :
    ∃ stage, a = .advance j ∧ s.calls[j]? = some stage ∧
      advanceCall s.clock j s.shared stage = some (target, next.shared) := by
  have hstarted {stage : Stage} (hnew : target ≠ stage)
      (h : (s.calls ++ [stage])[j]? = some target) : False := by
    rcases getElem?_concat_eq_some h with h | h
    · exact hbefore h
    · exact hnew h
  cases a with
  | isAllowed =>
    obtain rfl := Option.some.inj hstep
    exact (hstarted htarget.1 hafter).elim
  | recordSuccess =>
    obtain rfl := Option.some.inj hstep
    exact (hstarted htarget.2.1 hafter).elim
  | recordFailure =>
    obtain rfl := Option.some.inj hstep
    exact (hstarted htarget.2.2 hafter).elim
  | tick time =>
    obtain rfl := Option.some.inj hstep
    exact absurd hafter hbefore
  | advance i =>
    obtain ⟨stage, stage', sh, hi, hcall, rfl⟩ := step_advance hstep
    rcases getElem?_set_eq_some hafter with ⟨rfl, rfl⟩ | ⟨-, hold⟩
    · exact ⟨stage, rfl, hi, hcall⟩
    · exact absurd hold hbefore

theorem Inv.promised {a : Action} (h : Inv s) (hguarded : Guarded s a) : Promised s a := by
  intro next hstep
  constructor
  · rintro ⟨j, hbefore, hafter⟩ hopened
    obtain ⟨stage, rfl, hj, hcall⟩ :=
      advance_of_entered hstep hbefore hafter ⟨nofun, nofun, nofun⟩
    rcases (advanceCall_returns hcall).1 rfl with ⟨rfl, hclosed | hhalf⟩ | rfl
    · exact absurd hclosed (h.opened.mp hopened)
    · exact absurd hhalf (hguarded.1 hj)
    · exact ⟨h.waited j hj, h.no_probe (hguarded.2.1 hj)⟩
  · intro j hbefore hafter hhalf
    obtain ⟨stage, rfl, hj, hcall⟩ :=
      advance_of_entered hstep hbefore hafter ⟨nofun, nofun, nofun⟩
    obtain ⟨failures, rfl, hshared⟩ := (advanceCall_returns hcall).2 rfl
    have hreached := (hguarded.2.2 failures).2 hj hhalf
    rw [hshared, Shared.compareFailures, if_pos hreached]
    rfl

theorem Inv.closedBySuccess (h : Inv s) : ClosedBySuccess s := by
  intro hclosed
  by_contra hopen
  exact absurd (h.opened.mpr hopen) (Bool.eq_false_iff.mp hclosed)

end Steps

/-- Every run whose steps are guarded keeps what the breaker promises. -/
theorem promised_of_guarded (threshold : ℕ) (actions : List Action)
    (hguarded : EachStep step Guarded (init threshold) actions) :
    EachStep step Promised (init threshold) actions ∧
      Always step ClosedBySuccess (init threshold) actions := by
  have hkept (s : State) (a : Action) (next : State) (h : Inv s) (hC : Guarded s a)
      (hstep : step s a = some next) : Inv next := h.step hC hstep
  exact ⟨hguarded.imp hkept (fun s a next h hC _ ↦ h.promised hC) (inv_init threshold),
    Always.mono (fun s h ↦ h.closedBySuccess) (hguarded.always hkept (inv_init threshold))⟩

/-- A failure that opens the breaker, a minute and a bit, and a call that is let through. -/
def probed : List Action :=
  [.recordFailure, .advance 0, .advance 0, .advance 0, .advance 0, .tick (openTime + 1),
    .isAllowed, .advance 1, .advance 1, .advance 1, .advance 1]

/-- The call that was let through fails, and so the breaker opens again; then a success. -/
def reopened : List Action :=
  probed ++ [.recordFailure, .advance 2, .advance 2, .advance 2, .advance 2, .recordSuccess,
    .advance 3, .advance 3]

theorem promised_of_guarded_reopened :
    EachStep step Promised (init 1) reopened ∧ Always step ClosedBySuccess (init 1) reopened := by
  refine promised_of_guarded 1 reopened ?_
  repeat' refine EachStep.cons rfl ?_ ?_
  all_goals try trivial
  all_goals
    refine ⟨fun h ↦ ?_, fun h ↦ ?_, fun failures ↦ ⟨fun h ↦ ?_, fun h hhalf ↦ ?_⟩⟩
  all_goals cases h
  all_goals decide

/-- A second call is let through after the one that made the breaker half-open. -/
theorem not_promised :
    ¬ EachStep step Promised (init 1) (probed ++ [.isAllowed, .advance 2]) := by
  intro h
  obtain ⟨-, hlast⟩ := eachStep_append.mp h
  obtain ⟨-, hsecond⟩ := hlast _ rfl _ rfl
  obtain ⟨hpromised, -⟩ := hsecond _ rfl
  obtain ⟨hprobe, -⟩ := hpromised _ rfl
  exact absurd (hprobe ⟨2, nofun, rfl⟩ rfl).2 nofun

end Lithair.Security.Breaker
