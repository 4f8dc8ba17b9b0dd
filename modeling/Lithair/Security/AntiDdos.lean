import Lithair.Lib.Net
import Lithair.Lib.Run

/-!
# Counting connections

A connection is registered when the limits allow it, first with the counter of all connections and
then with the tracker of its address, and unregistered in the same order. A call gives the counters
up between its steps, so the system is the connections, each at one of these points, and a cleanup
that drops the trackers of addresses from which no connection was registered for a while.

`accounts_iff` says when the counters are those of the connections and stay within their limits: a
registration must still find room when it counts, which it did when it looked, and the cleanup must
find no tracker with a connection. Neither is seen to (`not_accounts`).
-/

namespace Lithair.Security.AntiDdos

open Lib.Net Lib.Run

/-- The limits on connections; a time is in the ticks of the clock. -/
structure AntiDDoSConfig where
  max_connections_per_ip : UInt64
  max_global_connections : UInt64
  connection_timeout : ℕ

structure ConnectionTracker where
  count : UInt64
  last_activity : ℕ

namespace ConnectionTracker

def new (now : ℕ) : ConnectionTracker := ⟨0, now⟩

def add_connection (t : ConnectionTracker) (now : ℕ) : ConnectionTracker := ⟨t.count + 1, now⟩

/-- What remains, which is none also where none was, and the tracker after it. -/
def remove_connection (t : ConnectionTracker) : UInt64 × ConnectionTracker :=
  (if t.count = 0 then 0 else t.count - 1, { t with count := t.count - 1 })

end ConnectionTracker

structure AntiDDoSProtection where
  connections : IpAddr → Option ConnectionTracker
  global_connections : UInt64

namespace AntiDDoSProtection

def new : AntiDDoSProtection := ⟨fun _ ↦ none, 0⟩

variable (config : AntiDDoSConfig) (p : AntiDDoSProtection) (ip : IpAddr) (now : ℕ)

/-- The first half of `is_connection_allowed`. -/
def globalAllowed : Bool := p.global_connections < config.max_global_connections

/-- The second half of `is_connection_allowed`. -/
def ipAllowed : Bool :=
  match p.connections ip with
  | some tracker => tracker.count < config.max_connections_per_ip
  | none => true

def addGlobal : AntiDDoSProtection := { p with global_connections := p.global_connections + 1 }

def addTracked : AntiDDoSProtection :=
  { p with
    connections := Function.update p.connections ip
      (some (((p.connections ip).getD (.new now)).add_connection now)) }

def removeGlobal : AntiDDoSProtection := { p with global_connections := p.global_connections - 1 }

def removeTracked : AntiDDoSProtection :=
  match p.connections ip with
  | some tracker =>
    match tracker.remove_connection with
    | (remaining, tracker) =>
      { p with
        connections := Function.update p.connections ip
          (if remaining = 0 then none else some tracker) }
  | none => p

/-- What `cleanup_old_entries` does to the trackers. -/
def cleanupConnections : AntiDDoSProtection :=
  { p with
    connections := fun ip ↦ (p.connections ip).filter fun tracker ↦
      now - tracker.last_activity < config.connection_timeout }

/-- How many connections are counted for the address. -/
def tracked : UInt64 := ((p.connections ip).map ConnectionTracker.count).getD 0

end AntiDDoSProtection

/-! ### Connections -/

/-- Where a connection is. Up to `addTracked` it is in `register_connection`, which returns at
`registered` or `refused`; in `removeTracked` it is in `unregister_connection`. -/
inductive Stage
  | checkGlobal
  | checkIp
  | addGlobal
  | addTracked
  | registered
  | removeTracked
  | unregistered
  | refused
  deriving DecidableEq

structure Connection where
  ip : IpAddr
  stage : Stage

structure State where
  clock : ℕ
  protection : AntiDDoSProtection
  conns : List Connection

def init : State := ⟨0, .new, []⟩

inductive Action
  | register (ip : IpAddr)
  /-- The connection with this number goes on to its next point; one that is registered is
  unregistered. -/
  | advance (i : ℕ)
  | cleanup
  | tick (time : ℕ)

section Steps

variable (config : AntiDDoSConfig)

/-- What a connection does next. -/
def advanceConn (clock : ℕ) (p : AntiDDoSProtection) (c : Connection) :
    Option (Stage × AntiDDoSProtection) :=
  match c.stage with
  | .checkGlobal => some (if p.globalAllowed config then .checkIp else .refused, p)
  | .checkIp => some (if p.ipAllowed config c.ip then .addGlobal else .refused, p)
  | .addGlobal => some (.addTracked, p.addGlobal)
  | .addTracked => some (.registered, p.addTracked c.ip clock)
  | .registered => some (.removeTracked, p.removeGlobal)
  | .removeTracked => some (.unregistered, p.removeTracked c.ip)
  | .unregistered | .refused => none

def step (s : State) : Action → Option State
  | .register ip => some { s with conns := s.conns ++ [⟨ip, .checkGlobal⟩] }
  | .advance i =>
    s.conns[i]?.bind fun c ↦ (advanceConn config s.clock s.protection c).map fun (stage, p) ↦
      { s with conns := s.conns.set i { c with stage := stage }, protection := p }
  | .cleanup => some { s with protection := s.protection.cleanupConnections config s.clock }
  | .tick time => some { s with clock := s.clock + time }

end Steps

/-! ### What the counters promise -/

/-- The connection has come past the counter of all and has not left it. -/
def Stage.inGlobal : Stage → Bool
  | .addTracked | .registered => true
  | _ => false

/-- The connection has come past the tracker of its address and has not left it. -/
def Stage.inTracker : Stage → Bool
  | .registered | .removeTracked => true
  | _ => false

def liveGlobal (conns : List Connection) : ℕ := conns.countP fun c ↦ c.stage.inGlobal

def liveIp (conns : List Connection) (ip : IpAddr) : ℕ :=
  conns.countP fun c ↦ c.ip = ip && c.stage.inTracker

/-- The counters are those of the connections, and within their limits. -/
structure Accounts (config : AntiDDoSConfig) (s : State) : Prop where
  global : s.protection.global_connections.toNat = liveGlobal s.conns
  tracked : ∀ ip, (s.protection.tracked ip).toNat = liveIp s.conns ip
  global_le : liveGlobal s.conns ≤ config.max_global_connections.toNat
  ip_le : ∀ ip, liveIp s.conns ip ≤ config.max_connections_per_ip.toNat

/-- No counter is taken below nothing. -/
def NoUnderflow (s : State) : Action → Prop
  | .advance i => ∀ c, s.conns[i]? = some c →
      (c.stage = .registered → s.protection.global_connections ≠ 0) ∧
      (c.stage = .removeTracked →
        ∀ tracker, s.protection.connections c.ip = some tracker → tracker.count ≠ 0)
  | _ => True

/-- A registration that comes to a counter finds room there, and the cleanup drops no tracker with
a connection. -/
def Guarded (config : AntiDDoSConfig) (s : State) : Action → Prop
  | .advance i => ∀ c, s.conns[i]? = some c →
      (c.stage = .addGlobal → s.protection.globalAllowed config = true) ∧
      (c.stage = .addTracked →
        s.protection.tracked c.ip < config.max_connections_per_ip)
  | .cleanup => ∀ ip tracker, s.protection.connections ip = some tracker →
      config.connection_timeout ≤ s.clock - tracker.last_activity → tracker.count = 0
  | _ => True

/-! ### One step -/

theorem toNat_add_one {n m : UInt64} (h : n < m) : (n + 1).toNat = n.toNat + 1 := by
  have hlt : n.toNat < m.toNat := UInt64.lt_iff_toNat_lt.mp h
  have hmax := m.toNat_lt
  rw [UInt64.toNat_add, UInt64.toNat_one]
  omega

theorem toNat_sub_one {n : UInt64} (h : n ≠ 0) : (n - 1).toNat + 1 = n.toNat := by
  have hpos : 0 < n.toNat := Nat.pos_of_ne_zero fun hzero ↦ h (UInt64.toNat_inj.mp hzero)
  have hle : 1 ≤ n := UInt64.le_iff_toNat_le.mpr hpos
  rw [UInt64.toNat_sub_of_le _ _ hle, UInt64.toNat_one]
  exact Nat.sub_add_cancel hpos

namespace AntiDDoSProtection

variable {config : AntiDDoSConfig} {p : AntiDDoSProtection} {ip other : IpAddr} {now : ℕ}

theorem tracked_addTracked :
    (p.addTracked ip now).tracked ip = p.tracked ip + 1 := by
  simp only [addTracked, tracked, Function.update_self]
  cases p.connections ip with
  | none => rfl
  | some tracker => rfl

theorem tracked_addTracked_of_ne (h : other ≠ ip) :
    (p.addTracked ip now).tracked other = p.tracked other := by
  simp only [addTracked, tracked, Function.update_of_ne h]

/-- Removing a tracker in which nothing remains does not change what it counts. -/
theorem tracked_removeTracked (h : p.tracked ip ≠ 0) :
    (p.removeTracked ip).tracked ip = p.tracked ip - 1 := by
  unfold removeTracked
  cases htracker : p.connections ip with
  | none =>
    unfold tracked at h
    rw [htracker] at h
    exact absurd rfl h
  | some tracker =>
    have hcount : p.tracked ip = tracker.count := by
      unfold tracked
      rw [htracker]
      rfl
    rw [hcount] at h ⊢
    unfold tracked ConnectionTracker.remove_connection
    simp only [if_neg h, Function.update_self]
    split_ifs with hremaining
    · exact hremaining.symm
    · rfl

theorem tracked_removeTracked_of_ne (h : other ≠ ip) :
    (p.removeTracked ip).tracked other = p.tracked other := by
  unfold removeTracked
  cases p.connections ip with
  | none => rfl
  | some tracker => simp only [tracked, Function.update_of_ne h]

theorem global_removeTracked : (p.removeTracked ip).global_connections = p.global_connections := by
  unfold removeTracked
  split <;> rfl

theorem tracked_cleanupConnections_iff :
    (p.cleanupConnections config now).tracked ip = p.tracked ip ↔
      ∀ tracker, p.connections ip = some tracker →
        config.connection_timeout ≤ now - tracker.last_activity → tracker.count = 0 := by
  simp only [cleanupConnections, tracked]
  cases p.connections ip with
  | none => simp
  | some tracker =>
    rw [Option.filter_some]
    split_ifs with hkept
    · have hkept' := of_decide_eq_true hkept
      refine iff_of_true rfl fun t ht hold ↦ ?_
      obtain rfl := Option.some.inj ht
      omega
    · have hdropped : config.connection_timeout ≤ now - tracker.last_activity :=
        Nat.le_of_not_lt fun hlt ↦ hkept (decide_eq_true hlt)
      constructor
      · intro h t ht _
        obtain rfl := Option.some.inj ht
        exact h.symm
      · intro h
        exact (h tracker rfl hdropped).symm

end AntiDDoSProtection

section Steps

variable {conns : List Connection} {i : ℕ} {c : Connection}

theorem liveGlobal_set (hi : conns[i]? = some c) (stage : Stage) :
    liveGlobal (conns.set i { c with stage := stage }) + (if c.stage.inGlobal then 1 else 0) =
      liveGlobal conns + if stage.inGlobal then 1 else 0 :=
  countP_set_add hi _ _

theorem liveIp_set (hi : conns[i]? = some c) (stage : Stage) :
    liveIp (conns.set i { c with stage := stage }) c.ip + (if c.stage.inTracker then 1 else 0) =
      liveIp conns c.ip + if stage.inTracker then 1 else 0 := by
  have hcount := countP_set_add hi { c with stage := stage }
    fun x ↦ x.ip = c.ip && x.stage.inTracker
  simp only [decide_true, Bool.true_and] at hcount
  exact hcount

theorem liveIp_set_of_ne (hi : conns[i]? = some c) (stage : Stage) {ip : IpAddr}
    (hne : ip ≠ c.ip) : liveIp (conns.set i { c with stage := stage }) ip = liveIp conns ip :=
  countP_set_eq hi (by simp [Ne.symm hne])

end Steps

section Accounts

variable {config : AntiDDoSConfig} {s : State} {i : ℕ} {c : Connection}

/-- A connection that is counted as before leaves the counters right. -/
theorem Accounts.unmoved (h : Accounts config s) (hi : s.conns[i]? = some c) {stage : Stage}
    (hglobal : stage.inGlobal = c.stage.inGlobal) (htracker : stage.inTracker = c.stage.inTracker) :
    Accounts config { s with conns := s.conns.set i { c with stage := stage } } := by
  have hG : liveGlobal (s.conns.set i { c with stage := stage }) = liveGlobal s.conns :=
    countP_set_eq hi hglobal
  have hT (ip : IpAddr) : liveIp (s.conns.set i { c with stage := stage }) ip = liveIp s.conns ip :=
    countP_set_eq hi (congrArg (decide (c.ip = ip) && ·) htracker)
  exact ⟨h.global.trans hG.symm, fun ip ↦ (h.tracked ip).trans (hT ip).symm, hG ▸ h.global_le,
    fun ip ↦ hT ip ▸ h.ip_le ip⟩

theorem Accounts.addGlobal_iff (h : Accounts config s) (hi : s.conns[i]? = some c)
    (hstage : c.stage = .addGlobal) :
    Accounts config { s with
      conns := s.conns.set i { c with stage := .addTracked },
      protection := s.protection.addGlobal } ↔
      s.protection.globalAllowed config = true := by
  have hG := liveGlobal_set hi .addTracked
  have hT (ip : IpAddr) :
      liveIp (s.conns.set i { c with stage := .addTracked }) ip = liveIp s.conns ip :=
    countP_set_eq hi (by rw [hstage]; rfl)
  simp only [hstage, Stage.inGlobal, Bool.false_eq_true, if_true, if_false] at hG
  have hold := h.global
  unfold AntiDDoSProtection.globalAllowed
  rw [decide_eq_true_iff, UInt64.lt_iff_toNat_lt]
  constructor
  · intro hnext
    have hle := hnext.global_le
    dsimp only at hle
    omega
  · intro hroom
    refine ⟨?_, fun ip ↦ (h.tracked ip).trans (hT ip).symm, ?_, fun ip ↦ hT ip ▸ h.ip_le ip⟩
    · have hadd := toNat_add_one (UInt64.lt_iff_toNat_lt.mpr hroom)
      show (s.protection.global_connections + 1).toNat = _
      dsimp only
      omega
    · dsimp only
      omega

theorem Accounts.addTracked_iff (h : Accounts config s) (hi : s.conns[i]? = some c)
    (hstage : c.stage = .addTracked) (now : ℕ) :
    Accounts config { s with
      conns := s.conns.set i { c with stage := .registered },
      protection := s.protection.addTracked c.ip now } ↔
      s.protection.tracked c.ip < config.max_connections_per_ip := by
  have hG : liveGlobal (s.conns.set i { c with stage := .registered }) = liveGlobal s.conns :=
    countP_set_eq hi (by rw [hstage]; rfl)
  have hT := liveIp_set hi .registered
  simp only [hstage, Stage.inTracker, Bool.false_eq_true, if_true, if_false] at hT
  have hold := h.tracked c.ip
  rw [UInt64.lt_iff_toNat_lt]
  constructor
  · intro hnext
    have hle := hnext.ip_le c.ip
    dsimp only at hle
    omega
  · intro hroom
    have hadd := toNat_add_one (UInt64.lt_iff_toNat_lt.mpr hroom)
    refine ⟨h.global.trans hG.symm, fun ip ↦ ?_, hG ▸ h.global_le, fun ip ↦ ?_⟩
    · by_cases hip : ip = c.ip
      · subst hip
        dsimp only
        rw [AntiDDoSProtection.tracked_addTracked]
        omega
      · dsimp only
        rw [AntiDDoSProtection.tracked_addTracked_of_ne hip, liveIp_set_of_ne hi _ hip]
        exact h.tracked ip
    · by_cases hip : ip = c.ip
      · subst hip
        dsimp only
        omega
      · dsimp only
        rw [liveIp_set_of_ne hi _ hip]
        exact h.ip_le ip

/-- Who is counted by all is among those that the counter of all counts. -/
theorem Accounts.global_ne_zero (h : Accounts config s) (hi : s.conns[i]? = some c)
    (hstage : c.stage.inGlobal = true) : s.protection.global_connections ≠ 0 := by
  intro hzero
  have hpos : 0 < liveGlobal s.conns := List.countP_pos_iff.mpr ⟨c, List.mem_of_getElem? hi, hstage⟩
  rw [← h.global, hzero] at hpos
  exact absurd hpos (by decide)

theorem Accounts.tracked_ne_zero (h : Accounts config s) (hi : s.conns[i]? = some c)
    (hstage : c.stage.inTracker = true) : s.protection.tracked c.ip ≠ 0 := by
  intro hzero
  have hpos : 0 < liveIp s.conns c.ip :=
    List.countP_pos_iff.mpr ⟨c, List.mem_of_getElem? hi, by simp [hstage]⟩
  rw [← h.tracked c.ip, hzero] at hpos
  exact absurd hpos (by decide)

theorem Accounts.removeGlobal (h : Accounts config s) (hi : s.conns[i]? = some c)
    (hstage : c.stage = .registered) :
    Accounts config { s with
      conns := s.conns.set i { c with stage := .removeTracked },
      protection := s.protection.removeGlobal } := by
  have hG := liveGlobal_set hi .removeTracked
  have hT (ip : IpAddr) :
      liveIp (s.conns.set i { c with stage := .removeTracked }) ip = liveIp s.conns ip :=
    countP_set_eq hi (by rw [hstage]; rfl)
  simp only [hstage, Stage.inGlobal, Bool.false_eq_true, if_true, if_false] at hG
  have hold := h.global
  have hle := h.global_le
  have hsub := toNat_sub_one (h.global_ne_zero hi (hstage ▸ rfl))
  refine ⟨?_, fun ip ↦ (h.tracked ip).trans (hT ip).symm, ?_, fun ip ↦ hT ip ▸ h.ip_le ip⟩
  · show (s.protection.global_connections - 1).toNat = _
    dsimp only
    omega
  · dsimp only
    omega

theorem Accounts.removeTracked (h : Accounts config s) (hi : s.conns[i]? = some c)
    (hstage : c.stage = .removeTracked) :
    Accounts config { s with
      conns := s.conns.set i { c with stage := .unregistered },
      protection := s.protection.removeTracked c.ip } := by
  have hG : liveGlobal (s.conns.set i { c with stage := .unregistered }) = liveGlobal s.conns :=
    countP_set_eq hi (by rw [hstage]; rfl)
  have hT := liveIp_set hi .unregistered
  simp only [hstage, Stage.inTracker, Bool.false_eq_true, if_true, if_false] at hT
  have hold := h.tracked c.ip
  have hle := h.ip_le c.ip
  have hne := h.tracked_ne_zero hi (hstage ▸ rfl)
  have hsub := toNat_sub_one hne
  refine ⟨?_, fun ip ↦ ?_, hG ▸ h.global_le, fun ip ↦ ?_⟩
  · dsimp only
    rw [AntiDDoSProtection.global_removeTracked, hG]
    exact h.global
  · by_cases hip : ip = c.ip
    · subst hip
      dsimp only
      rw [AntiDDoSProtection.tracked_removeTracked hne]
      omega
    · dsimp only
      rw [AntiDDoSProtection.tracked_removeTracked_of_ne hip, liveIp_set_of_ne hi _ hip]
      exact h.tracked ip
  · by_cases hip : ip = c.ip
    · subst hip
      dsimp only
      omega
    · dsimp only
      rw [liveIp_set_of_ne hi _ hip]
      exact h.ip_le ip

theorem Accounts.cleanup_iff (h : Accounts config s) :
    Accounts config { s with
      protection := s.protection.cleanupConnections config s.clock } ↔
      Guarded config s .cleanup := by
  constructor
  · intro hnext ip
    refine AntiDDoSProtection.tracked_cleanupConnections_iff.mp (UInt64.toNat_inj.mp ?_)
    exact (hnext.tracked ip).trans (h.tracked ip).symm
  · intro hguard
    refine ⟨h.global, fun ip ↦ ?_, h.global_le, h.ip_le⟩
    rw [AntiDDoSProtection.tracked_cleanupConnections_iff.mpr (hguard ip)]
    exact h.tracked ip

/-- No counter that is right is taken below nothing. -/
theorem Accounts.noUnderflow (h : Accounts config s) (a : Action) : NoUnderflow s a := by
  cases a with
  | advance i =>
    intro c hi
    refine ⟨fun hstage ↦ h.global_ne_zero hi (hstage ▸ rfl), fun hstage tracker htracker ↦ ?_⟩
    have hne := h.tracked_ne_zero hi (hstage ▸ rfl)
    unfold AntiDDoSProtection.tracked at hne
    rw [htracker] at hne
    exact hne
  | register ip => trivial
  | cleanup => trivial
  | tick time => trivial

/-- The counters stay right exactly when a registration still finds room and the cleanup no
connection. -/
theorem accounts_step_iff (h : Accounts config s) {a : Action} {next : State}
    (hstep : step config s a = some next) : Accounts config next ↔ Guarded config s a := by
  cases a with
  | register ip =>
    obtain rfl := Option.some.inj hstep
    refine iff_of_true ⟨?_, fun other ↦ ?_, ?_, fun other ↦ ?_⟩ trivial
    · simpa [liveGlobal, Stage.inGlobal] using h.global
    · simpa [liveIp, Stage.inTracker] using h.tracked other
    · simpa [liveGlobal, Stage.inGlobal] using h.global_le
    · simpa [liveIp, Stage.inTracker] using h.ip_le other
  | cleanup =>
    obtain rfl := Option.some.inj hstep
    exact h.cleanup_iff
  | tick time =>
    obtain rfl := Option.some.inj hstep
    exact iff_of_true ⟨h.global, h.tracked, h.global_le, h.ip_le⟩ trivial
  | advance i =>
    obtain ⟨c, hi, hmap⟩ := Option.bind_eq_some_iff.mp hstep
    obtain ⟨⟨stage, p⟩, hconn, rfl⟩ := Option.map_eq_some_iff.mp hmap
    have hguarded : Guarded config s (.advance i) ↔
        (c.stage = .addGlobal → s.protection.globalAllowed config = true) ∧
        (c.stage = .addTracked → s.protection.tracked c.ip < config.max_connections_per_ip) :=
      ⟨fun hall ↦ hall c hi, fun hc c' hi' ↦ Option.some.inj (hi.symm.trans hi') ▸ hc⟩
    rw [hguarded]
    unfold advanceConn at hconn
    cases hstage : c.stage with
    | checkGlobal =>
      rw [hstage] at hconn
      obtain ⟨rfl, rfl⟩ := Prod.mk.inj (Option.some.inj hconn)
      refine iff_of_true (h.unmoved hi ?_ ?_) ⟨nofun, nofun⟩
      all_goals
        rw [hstage]
        split <;> rfl
    | checkIp =>
      rw [hstage] at hconn
      obtain ⟨rfl, rfl⟩ := Prod.mk.inj (Option.some.inj hconn)
      refine iff_of_true (h.unmoved hi ?_ ?_) ⟨nofun, nofun⟩
      all_goals
        rw [hstage]
        split <;> rfl
    | addGlobal =>
      rw [hstage] at hconn
      obtain ⟨rfl, rfl⟩ := Prod.mk.inj (Option.some.inj hconn)
      exact (h.addGlobal_iff hi hstage).trans (by simp)
    | addTracked =>
      rw [hstage] at hconn
      obtain ⟨rfl, rfl⟩ := Prod.mk.inj (Option.some.inj hconn)
      exact (h.addTracked_iff hi hstage s.clock).trans (by simp)
    | registered =>
      rw [hstage] at hconn
      obtain ⟨rfl, rfl⟩ := Prod.mk.inj (Option.some.inj hconn)
      exact iff_of_true (h.removeGlobal hi hstage) ⟨nofun, nofun⟩
    | removeTracked =>
      rw [hstage] at hconn
      obtain ⟨rfl, rfl⟩ := Prod.mk.inj (Option.some.inj hconn)
      exact iff_of_true (h.removeTracked hi hstage) ⟨nofun, nofun⟩
    | unregistered =>
      rw [hstage] at hconn
      exact absurd hconn nofun
    | refused =>
      rw [hstage] at hconn
      exact absurd hconn nofun

end Accounts

theorem accounts_init (config : AntiDDoSConfig) : Accounts config init :=
  ⟨rfl, fun _ ↦ rfl, Nat.zero_le _, fun _ ↦ Nat.zero_le _⟩

/-- In which runs the counters are those of the connections, stay within their limits and are never
taken below nothing. -/
theorem accounts_iff (config : AntiDDoSConfig) (actions : List Action) :
    Always (step config) (Accounts config) init actions ∧
        EachStep (step config) NoUnderflow init actions ↔
      EachStep (step config) (Guarded config) init actions := by
  refine always_and_eachStep_iff (I := fun _ ↦ True) (fun _ _ _ _ _ ↦ trivial) ?_ trivial
    (accounts_init config) actions
  intro s a next _ h hstep
  exact (and_iff_left (h.noUnderflow a)).trans (accounts_step_iff h hstep)

/-- One connection at a time, and a second for a connection to be idle. -/
def single : AntiDDoSConfig := ⟨1, 1, 1⟩

def localhost : IpAddr := .v4 ⟨127, 0, 0, 1⟩

/-- Two registrations look before either counts. -/
def race : List Action :=
  [.register localhost, .register localhost, .advance 0, .advance 0, .advance 1, .advance 1,
    .advance 0, .advance 1]

/-- A connection that is there for longer than a connection may be idle. -/
def idle : List Action :=
  [.register localhost, .advance 0, .advance 0, .advance 0, .advance 0, .tick 1, .cleanup]

theorem not_accounts :
    ¬ (Always (step single) (Accounts single) init race ∧
        EachStep (step single) NoUnderflow init race) ∧
    ¬ (Always (step single) (Accounts single) init idle ∧
        EachStep (step single) NoUnderflow init idle) := by
  refine ⟨fun h ↦ ?_, fun h ↦ ?_⟩
  · exact absurd (h.1.exec rfl).global_le (by decide)
  · exact absurd ((h.1.exec rfl).tracked localhost) (by decide)

end Lithair.Security.AntiDdos
