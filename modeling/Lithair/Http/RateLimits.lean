import Lithair.Http.Firewall
import Lithair.Lib.Run

/-!
# Limits on the requests of a second, under concurrency

A call reads the clock, and then waits for the window that it is counted in; the window belongs to
the second of the last call that came to it. The system is the calls in flight, each at one of the
points where another can go on before it, a clock that does not go back, and the two kinds of
windows.

A window counts right as long as no call comes to it with a reading from before its second
(`Fits.take`), and `limits_of_inOrder` carries this to runs. A late call starts the window anew, and
with it the count of a second that has been counted before. What the limit of an address rejects has
been counted in the global window by then, in every run (`not_limits`).
-/

namespace Lithair.Http.RateLimits

open Traffic Lib.Run

/-! ### A window -/

/-- The window counts what was taken in its second, nothing was taken in a later one, and never more
than the limit in any. -/
structure Fits (win : Window) (limit : ℕ) (taken : ℕ → ℕ) : Prop where
  within : ∀ second, taken second ≤ limit
  count : taken win.second = win.count
  later : ∀ second, win.second < second → taken second = 0

theorem Fits.roll {win : Window} {limit : ℕ} {taken : ℕ → ℕ} (h : Fits win limit taken) {now : ℕ}
    (hnow : win.second ≤ now) : Fits (win.roll now) limit taken ∧ (win.roll now).second = now := by
  unfold Window.roll
  split_ifs with hsecond
  · have hlt : win.second < now := Nat.lt_of_le_of_ne hnow hsecond
    exact ⟨⟨h.within, h.later now hlt, fun second hlater ↦ h.later second (hlt.trans hlater)⟩, rfl⟩
  · exact ⟨h, not_not.mp hsecond⟩

/-- A request that comes with a reading not before the second of the window is counted right. -/
theorem Fits.take {win : Window} {limit : ℕ} {taken : ℕ → ℕ} (h : Fits win limit taken) {now : ℕ}
    (hnow : win.second ≤ now) :
    ((win.take limit now).1 = false → Fits (win.take limit now).2 limit taken) ∧
      ((win.take limit now).1 = true → ∀ taken' : ℕ → ℕ,
        (∀ second, taken' second = taken second + if second = now then 1 else 0) →
          Fits (win.take limit now).2 limit taken') := by
  obtain ⟨hroll, hsecond⟩ := h.roll hnow
  unfold Window.take
  split_ifs with hfull
  · exact ⟨fun _ ↦ hroll, nofun⟩
  · refine ⟨nofun, fun _ taken' htaken' ↦ ⟨fun second ↦ ?_, ?_, fun second hlater ↦ ?_⟩⟩
    · rw [htaken']
      split_ifs with hsame
      · have hcount : taken second = (win.roll now).count := by
          rw [hsame, ← hroll.count, hsecond]
        omega
      · exact hroll.within second
    · show taken' (win.roll now).second = (win.roll now).count + 1
      rw [htaken', hroll.count, if_pos hsecond]
    · have hlater' : (win.roll now).second < second := hlater
      rw [htaken', hroll.later second hlater', if_neg (by omega)]

theorem fits_nothing (limit now : ℕ) : Fits ⟨now, 0⟩ limit fun _ ↦ 0 :=
  ⟨fun _ ↦ Nat.zero_le limit, rfl, fun _ _ ↦ rfl⟩

/-! ### Calls -/

/-- Where a call is: `lockGlobal now` and `lockIp ip now` have read the clock and not yet come to
the window. -/
inductive Stage
  | checkGlobal
  | lockGlobal (now : ℕ)
  | checkIp
  | lockIp (ip : String) (now : ℕ)
  | admitted
  | rejectedGlobal
  | rejectedIp
  deriving DecidableEq

/-- A call that the lists let through. The slots are the readings with which it was counted. -/
structure Call where
  ip : Option String
  stage : Stage
  global_slot : Option ℕ
  ip_slot : Option (String × ℕ)

structure State where
  clock : ℕ
  windows : Windows
  calls : List Call

/-- A firewall that has not been asked yet. -/
def init (clock : ℕ) : State := ⟨clock, .default, []⟩

inductive Action
  | start (ip : Option String)
  /-- The clock goes on. -/
  | tick (seconds : ℕ)
  /-- The call with this number goes on to its next point. -/
  | advance (i : ℕ)

section Steps

variable (fw : Firewall)

/-- What a call does next. -/
def advanceCall (clock : ℕ) (windows : Windows) (c : Call) : Option (Call × Windows) :=
  match c.stage with
  | .checkGlobal =>
    match fw.cfg.global_qps with
    | some _ => some ({ c with stage := .lockGlobal clock }, windows)
    | none => some ({ c with stage := .checkIp }, windows)
  | .lockGlobal now =>
    match fw.checkGlobalQps windows now with
    | (.ok _, windows) => some ({ c with stage := .checkIp, global_slot := some now }, windows)
    | (.error _, windows) => some ({ c with stage := .rejectedGlobal }, windows)
  | .checkIp =>
    match fw.cfg.per_ip_qps, c.ip with
    | some _, some ip => some ({ c with stage := .lockIp ip clock }, windows)
    | _, _ => some ({ c with stage := .admitted }, windows)
  | .lockIp ip now =>
    match fw.checkPerIpQps windows (some ip) now with
    | (.ok _, windows) => some ({ c with stage := .admitted, ip_slot := some (ip, now) }, windows)
    | (.error _, windows) => some ({ c with stage := .rejectedIp }, windows)
  | .admitted | .rejectedGlobal | .rejectedIp => none

def step (s : State) : Action → Option State
  | .start ip => some { s with calls := s.calls ++ [⟨ip, .checkGlobal, none, none⟩] }
  | .tick seconds => some { s with clock := s.clock + seconds }
  | .advance i =>
    s.calls[i]?.bind fun c ↦ (advanceCall fw s.clock s.windows c).map fun (c', windows) ↦
      { s with calls := s.calls.set i c', windows := windows }

/-! ### What the limits promise -/

/-- No more calls are admitted than the global limit allows for the second of their readings. -/
def WithinGlobal (s : State) : Prop :=
  ∀ limit, fw.cfg.global_qps = some limit → ∀ second,
    (s.calls.countP fun c ↦ c.stage = .admitted ∧ c.global_slot = some second) ≤ limit

/-- No more calls from an address are admitted than its limit allows for the second of their
readings. -/
def WithinIp (ip : String) (s : State) : Prop :=
  ∀ limit, fw.cfg.per_ip_qps = some limit → ∀ second,
    (s.calls.countP fun c ↦ c.stage = .admitted ∧ c.ip_slot = some (ip, second)) ≤ limit

/-- What the limit of an address rejects is not counted in the global window. -/
def RejectedUncounted (s : State) : Prop :=
  ∀ c ∈ s.calls, c.stage = .rejectedIp → c.global_slot = none

/-- What the limit of an address rejects is counted in the global window, if there is one. -/
def RejectedCounted (s : State) : Prop :=
  fw.cfg.global_qps ≠ none → ∀ c ∈ s.calls, c.stage = .rejectedIp → c.global_slot ≠ none

end Steps

/-- No call comes to the global window with a reading from before its second. -/
def InGlobalOrder (s : State) : Action → Prop
  | .advance i => ∀ c now, s.calls[i]? = some c → c.stage = .lockGlobal now →
      s.windows.global_win.second ≤ now
  | _ => True

/-- No call comes to the window of the address with a reading from before its second. -/
def InIpOrder (ip : String) (s : State) : Action → Prop
  | .advance i => ∀ c now win, s.calls[i]? = some c → c.stage = .lockIp ip now →
      s.windows.per_ip_win ip = some win → win.second ≤ now
  | _ => True

/-! ### One step -/

/-- The global window has not been asked yet. -/
def Stage.BeforeGlobal : Stage → Prop
  | .checkGlobal | .lockGlobal _ => True
  | _ => False

section Steps

variable {fw : Firewall} {clock : ℕ} {windows windows' : Windows} {c c' : Call}

theorem checkGlobalQps_of_limit {limit : ℕ} (hlimit : fw.cfg.global_qps = some limit) (now : ℕ) :
    fw.checkGlobalQps windows now =
      (if (windows.global_win.take limit now).1 then .ok ()
        else .error (jsonError 429 "rate_limited" "Global QPS limit exceeded"),
      { windows with global_win := (windows.global_win.take limit now).2 }) := by
  unfold Firewall.checkGlobalQps
  rw [hlimit]
  dsimp only
  cases windows.global_win.take limit now with
  | mk taken win => cases taken <;> rfl

theorem checkPerIpQps_of_limit {limit : ℕ} (hlimit : fw.cfg.per_ip_qps = some limit) (ip : String)
    (now : ℕ) :
    fw.checkPerIpQps windows (some ip) now =
      (if (((windows.per_ip_win ip).getD ⟨now, 0⟩).take limit now).1 then .ok ()
        else .error (jsonError 429 "ip_rate_limited" "Per-IP QPS limit exceeded"),
      { windows with
        per_ip_win := Function.update windows.per_ip_win ip
          (some (((windows.per_ip_win ip).getD ⟨now, 0⟩).take limit now).2) }) := by
  unfold Firewall.checkPerIpQps
  rw [hlimit]
  dsimp only
  cases ((windows.per_ip_win ip).getD ⟨now, 0⟩).take limit now with
  | mk taken win => cases taken <;> rfl

variable (fw) in
theorem checkGlobalQps_per_ip_win (windows : Windows) (now : ℕ) :
    (fw.checkGlobalQps windows now).2.per_ip_win = windows.per_ip_win := by
  unfold Firewall.checkGlobalQps
  split
  · rfl
  · split <;> rfl

variable (fw) in
theorem checkPerIpQps_global_win (windows : Windows) (ip : Option String) (now : ℕ) :
    (fw.checkPerIpQps windows ip now).2.global_win = windows.global_win := by
  unfold Firewall.checkPerIpQps
  split
  · split <;> rfl
  · rfl

/-- What a step of a call does to the global window. -/
theorem advanceCall_global {limit : ℕ} (hlimit : fw.cfg.global_qps = some limit)
    (h : advanceCall fw clock windows c = some (c', windows')) :
    (windows'.global_win = windows.global_win ∧ c'.global_slot = c.global_slot ∧
      (c'.stage.BeforeGlobal → c.stage.BeforeGlobal)) ∨
    ∃ now, c.stage = .lockGlobal now ∧ ¬ c'.stage.BeforeGlobal ∧
      windows'.global_win = (windows.global_win.take limit now).2 ∧
      c'.global_slot =
        if (windows.global_win.take limit now).1 then some now else c.global_slot := by
  unfold advanceCall at h
  split at h
  case h_1 hstage =>
    rw [hlimit] at h
    obtain ⟨rfl, rfl⟩ := Prod.mk.inj (Option.some.inj h)
    exact .inl ⟨rfl, rfl, fun _ ↦ hstage ▸ trivial⟩
  case h_2 now hstage =>
    refine .inr ⟨now, hstage, ?_⟩
    rw [checkGlobalQps_of_limit hlimit] at h
    cases htaken : (windows.global_win.take limit now).1 with
    | true =>
      simp only [htaken, if_true] at h
      obtain ⟨rfl, rfl⟩ := Prod.mk.inj (Option.some.inj h)
      exact ⟨nofun, rfl, rfl⟩
    | false =>
      simp only [htaken, Bool.false_eq_true, if_false] at h
      obtain ⟨rfl, rfl⟩ := Prod.mk.inj (Option.some.inj h)
      exact ⟨nofun, rfl, rfl⟩
  case h_3 hstage =>
    split at h
    all_goals
      obtain ⟨rfl, rfl⟩ := Prod.mk.inj (Option.some.inj h)
      exact .inl ⟨rfl, rfl, nofun⟩
  case h_4 ip now hstage =>
    have hwin := checkPerIpQps_global_win fw windows (some ip) now
    split at h
    all_goals
      rename_i heq
      obtain ⟨rfl, rfl⟩ := Prod.mk.inj (Option.some.inj h)
      rw [heq] at hwin
      exact .inl ⟨hwin, rfl, nofun⟩
  all_goals exact absurd h nofun

/-- What a step of a call does to the window of an address. -/
theorem advanceCall_ip {limit : ℕ} (hlimit : fw.cfg.per_ip_qps = some limit)
    (h : advanceCall fw clock windows c = some (c', windows')) :
    c.stage ≠ .admitted ∧
    ((windows'.per_ip_win = windows.per_ip_win ∧ c'.ip_slot = c.ip_slot) ∨
    ∃ ip now, c.stage = .lockIp ip now ∧
      windows'.per_ip_win = Function.update windows.per_ip_win ip
        (some (((windows.per_ip_win ip).getD ⟨now, 0⟩).take limit now).2) ∧
      ((((windows.per_ip_win ip).getD ⟨now, 0⟩).take limit now).1 = true →
        c'.stage = .admitted ∧ c'.ip_slot = some (ip, now)) ∧
      ((((windows.per_ip_win ip).getD ⟨now, 0⟩).take limit now).1 = false →
        c'.ip_slot = c.ip_slot)) := by
  unfold advanceCall at h
  split at h
  case h_1 hstage =>
    refine ⟨hstage ▸ nofun, .inl ?_⟩
    split at h
    all_goals
      obtain ⟨rfl, rfl⟩ := Prod.mk.inj (Option.some.inj h)
      exact ⟨rfl, rfl⟩
  case h_2 now hstage =>
    refine ⟨hstage ▸ nofun, .inl ?_⟩
    have hwin := checkGlobalQps_per_ip_win fw windows now
    split at h
    all_goals
      rename_i heq
      obtain ⟨rfl, rfl⟩ := Prod.mk.inj (Option.some.inj h)
      rw [heq] at hwin
      exact ⟨hwin, rfl⟩
  case h_3 hstage =>
    refine ⟨hstage ▸ nofun, .inl ?_⟩
    split at h
    all_goals
      obtain ⟨rfl, rfl⟩ := Prod.mk.inj (Option.some.inj h)
      exact ⟨rfl, rfl⟩
  case h_4 ip now hstage =>
    refine ⟨hstage ▸ nofun, .inr ⟨ip, now, hstage, ?_⟩⟩
    rw [checkPerIpQps_of_limit hlimit] at h
    cases htaken : (((windows.per_ip_win ip).getD ⟨now, 0⟩).take limit now).1 with
    | true =>
      simp only [htaken, if_true] at h
      obtain ⟨rfl, rfl⟩ := Prod.mk.inj (Option.some.inj h)
      exact ⟨rfl, fun _ ↦ ⟨rfl, rfl⟩, nofun⟩
    | false =>
      simp only [htaken, Bool.false_eq_true, if_false] at h
      obtain ⟨rfl, rfl⟩ := Prod.mk.inj (Option.some.inj h)
      exact ⟨rfl, nofun, fun _ ↦ rfl⟩
  all_goals exact absurd h nofun

theorem step_advance {s next : State} {i : ℕ} (h : step fw s (.advance i) = some next) :
    ∃ c c' windows', s.calls[i]? = some c ∧
      advanceCall fw s.clock s.windows c = some (c', windows') ∧
      next = { s with calls := s.calls.set i c', windows := windows' } := by
  obtain ⟨c, hi, hmap⟩ := Option.bind_eq_some_iff.mp h
  obtain ⟨⟨c', windows'⟩, hcall, rfl⟩ := Option.map_eq_some_iff.mp hmap
  exact ⟨c, c', windows', hi, hcall, rfl⟩

end Steps

/-- A window counts right after a call that was not counted before has come to it in order. -/
theorem Fits.advance {win : Window} {limit now : ℕ} {p : ℕ → Call → Bool} {calls : List Call}
    (hfits : Fits win limit fun second ↦ calls.countP (p second)) {i : ℕ} {c c' : Call}
    (hi : calls[i]? = some c) (hnow : win.second ≤ now) (hnew : ∀ second, p second c = false)
    (htaken : (win.take limit now).1 = true → ∀ second, p second c' = decide (second = now))
    (hfull : (win.take limit now).1 = false → ∀ second, p second c' = false) :
    Fits (win.take limit now).2 limit fun second ↦ (calls.set i c').countP (p second) := by
  cases hroom : (win.take limit now).1 with
  | true =>
    refine (hfits.take hnow).2 hroom _ fun second ↦ ?_
    have hcount := countP_set_add hi c' (p second)
    simpa [hnew second, htaken hroom second] using hcount
  | false =>
    have hsame (second : ℕ) : (calls.set i c').countP (p second) = calls.countP (p second) :=
      countP_set_eq hi ((hfull hroom second).trans (hnew second).symm)
    simp only [hsame]
    exact (hfits.take hnow).1 hroom

/-! ### The global window -/

/-- Calls are counted when they come to the window, and it counts right. -/
structure GlobalInv (limit : ℕ) (s : State) : Prop where
  pending : ∀ c ∈ s.calls, c.stage.BeforeGlobal → c.global_slot = none
  fits : Fits s.windows.global_win limit fun second ↦
    s.calls.countP fun c ↦ c.global_slot = some second

section Runs

variable {fw : Firewall}

theorem GlobalInv.step {limit : ℕ} (hlimit : fw.cfg.global_qps = some limit) {s next : State}
    {a : Action} (h : GlobalInv limit s) (horder : InGlobalOrder s a)
    (hstep : step fw s a = some next) : GlobalInv limit next := by
  cases a with
  | start ip =>
    obtain rfl := Option.some.inj hstep
    refine ⟨fun c hc hbefore ↦ ?_, ?_⟩
    · rcases List.mem_append.mp hc with hold | hnew
      · exact h.pending c hold hbefore
      · rw [List.mem_singleton.mp hnew]
    · simpa using h.fits
  | tick seconds =>
    obtain rfl := Option.some.inj hstep
    exact ⟨h.pending, h.fits⟩
  | advance i =>
    obtain ⟨c, c', windows', hi, hcall, rfl⟩ := step_advance hstep
    have hpending := h.pending c (List.mem_of_getElem? hi)
    rcases advanceCall_global hlimit hcall with
      ⟨hwin, hslot, hbefore⟩ | ⟨now, hstage, hbefore, hwin, hslot⟩
    · refine ⟨forall_mem_set h.pending fun hc' ↦ hslot.trans (hpending (hbefore hc')), ?_⟩
      have hsame (second : ℕ) := countP_set_eq hi
        (p := fun c ↦ c.global_slot = some second)
        (congrArg (fun g ↦ decide (g = some second)) hslot)
      simpa only [hwin, hsame] using h.fits
    · have hnone : c.global_slot = none := hpending (hstage ▸ trivial)
      refine ⟨forall_mem_set h.pending fun hc' ↦ absurd hc' hbefore, ?_⟩
      rw [hwin]
      refine h.fits.advance hi (horder c now hi hstage) (fun second ↦ ?_) (fun htaken second ↦ ?_)
        fun hfull second ↦ ?_
      · simp [hnone]
      · simp [hslot, htaken, eq_comm]
      · simp [hslot, hfull, hnone]

theorem GlobalInv.withinGlobal {limit : ℕ} (hlimit : fw.cfg.global_qps = some limit) {s : State}
    (h : GlobalInv limit s) : WithinGlobal fw s := by
  intro limit' hlimit' second
  obtain rfl := Option.some.inj (hlimit.symm.trans hlimit')
  refine (List.countP_mono_left fun c _ hc ↦ ?_).trans (h.fits.within second)
  exact decide_eq_true (of_decide_eq_true hc).2

/-! ### The window of an address -/

/-- `GlobalInv` for the window of an address, which is made when the first call comes to it. -/
structure IpInv (ip : String) (limit : ℕ) (s : State) : Prop where
  pending : ∀ c ∈ s.calls, c.stage ≠ .admitted → c.ip_slot = none
  fits : ∀ now, Fits ((s.windows.per_ip_win ip).getD ⟨now, 0⟩) limit fun second ↦
    s.calls.countP fun c ↦ c.ip_slot = some (ip, second)

theorem IpInv.step {ip : String} {limit : ℕ} (hlimit : fw.cfg.per_ip_qps = some limit)
    {s next : State} {a : Action} (h : IpInv ip limit s) (horder : InIpOrder ip s a)
    (hstep : step fw s a = some next) : IpInv ip limit next := by
  cases a with
  | start remote =>
    obtain rfl := Option.some.inj hstep
    refine ⟨fun c hc hstage ↦ ?_, ?_⟩
    · rcases List.mem_append.mp hc with hold | hnew
      · exact h.pending c hold hstage
      · rw [List.mem_singleton.mp hnew]
    · simpa using h.fits
  | tick seconds =>
    obtain rfl := Option.some.inj hstep
    exact ⟨h.pending, h.fits⟩
  | advance i =>
    obtain ⟨c, c', windows', hi, hcall, rfl⟩ := step_advance hstep
    obtain ⟨hstage, hmove⟩ := advanceCall_ip hlimit hcall
    have hnone : c.ip_slot = none := h.pending c (List.mem_of_getElem? hi) hstage
    rcases hmove with ⟨hwin, hslot⟩ | ⟨ip', now, hlock, hwin, htaken, hfull⟩
    · refine ⟨forall_mem_set h.pending fun _ ↦ hslot.trans hnone, ?_⟩
      have hsame (second : ℕ) := countP_set_eq hi (p := fun c ↦ c.ip_slot = some (ip, second))
        (congrArg (fun slot ↦ decide (slot = some (ip, second))) hslot)
      simpa only [hwin, hsame] using h.fits
    · have hpending : c'.stage ≠ .admitted → c'.ip_slot = none := by
        intro hstage'
        cases hroom : (((s.windows.per_ip_win ip').getD ⟨now, 0⟩).take limit now).1 with
        | true => exact absurd (htaken hroom).1 hstage'
        | false => exact (hfull hroom).trans hnone
      refine ⟨forall_mem_set h.pending hpending, fun now' ↦ ?_⟩
      rw [hwin]
      by_cases hip : ip' = ip
      · subst hip
        rw [Function.update_self, Option.getD_some]
        have hnow : ((s.windows.per_ip_win ip').getD ⟨now, 0⟩).second ≤ now := by
          cases hcurrent : s.windows.per_ip_win ip' with
          | none => exact Nat.le_refl now
          | some win => exact horder c now win hi hlock hcurrent
        refine (h.fits now).advance hi hnow (fun second ↦ ?_) (fun hroom second ↦ ?_)
          fun hroom second ↦ ?_
        · simp [hnone]
        · simp [(htaken hroom).2, eq_comm]
        · simp [hfull hroom, hnone]
      · rw [Function.update_of_ne (Ne.symm hip)]
        have hother (second : ℕ) : c'.ip_slot ≠ some (ip, second) := by
          cases hroom : (((s.windows.per_ip_win ip').getD ⟨now, 0⟩).take limit now).1 with
          | true => simp [(htaken hroom).2, hip]
          | false => simp [hfull hroom, hnone]
        have hsame (second : ℕ) :
            (s.calls.set i c').countP (fun c ↦ c.ip_slot = some (ip, second)) =
              s.calls.countP fun c ↦ c.ip_slot = some (ip, second) :=
          countP_set_eq hi (by simp [hother second, hnone])
        simpa only [hsame] using h.fits now'

theorem IpInv.withinIp {ip : String} {limit : ℕ} (hlimit : fw.cfg.per_ip_qps = some limit)
    {s : State} (h : IpInv ip limit s) : WithinIp fw ip s := by
  intro limit' hlimit' second
  obtain rfl := Option.some.inj (hlimit.symm.trans hlimit')
  refine (List.countP_mono_left fun c _ hc ↦ ?_).trans ((h.fits 0).within second)
  exact decide_eq_true (of_decide_eq_true hc).2

/-! ### What an address's limit rejects -/

/-- The global window let the call through. -/
def Stage.AfterGlobal : Stage → Prop
  | .checkGlobal | .lockGlobal _ | .rejectedGlobal => False
  | _ => True

theorem advanceCall_counted {clock : ℕ} {windows windows' : Windows} {c c' : Call}
    (hglobal : fw.cfg.global_qps ≠ none) (h : advanceCall fw clock windows c = some (c', windows'))
    (hcounted : c.stage.AfterGlobal → c.global_slot ≠ none) :
    c'.stage.AfterGlobal → c'.global_slot ≠ none := by
  unfold advanceCall at h
  split at h
  case h_1 hstage =>
    split at h
    case h_1 => exact (Prod.mk.inj (Option.some.inj h)).1 ▸ nofun
    case h_2 hnone => exact absurd hnone hglobal
  case h_2 now hstage =>
    split at h
    all_goals exact (Prod.mk.inj (Option.some.inj h)).1 ▸ nofun
  case h_3 hstage =>
    have hslot := hcounted (hstage ▸ trivial)
    split at h
    all_goals exact (Prod.mk.inj (Option.some.inj h)).1 ▸ fun _ ↦ hslot
  case h_4 ip now hstage =>
    have hslot := hcounted (hstage ▸ trivial)
    split at h
    all_goals exact (Prod.mk.inj (Option.some.inj h)).1 ▸ fun _ ↦ hslot
  all_goals exact absurd h nofun

theorem kept_counted (hglobal : fw.cfg.global_qps ≠ none) :
    Kept (step fw) fun s ↦ ∀ c ∈ s.calls, c.stage.AfterGlobal → c.global_slot ≠ none := by
  intro s a next h hstep
  cases a with
  | start remote =>
    obtain rfl := Option.some.inj hstep
    intro c hc hafter
    rcases List.mem_append.mp hc with hold | hnew
    · exact h c hold hafter
    · rw [List.mem_singleton.mp hnew] at hafter
      exact absurd hafter id
  | tick seconds =>
    obtain rfl := Option.some.inj hstep
    exact h
  | advance i =>
    obtain ⟨c, c', windows', hi, hcall, rfl⟩ := step_advance hstep
    exact forall_mem_set h (advanceCall_counted hglobal hcall (h c (List.mem_of_getElem? hi)))

/-! ### Runs -/

theorem always_rejectedCounted (clock : ℕ) (actions : List Action) :
    Always (step fw) (RejectedCounted fw) (init clock) actions := by
  by_cases hglobal : fw.cfg.global_qps = none
  · exact always_of_forall (fun _ h ↦ absurd hglobal h) (init clock) actions
  · refine Always.mono (fun s h _ c hc hstage ↦ ?_)
      ((kept_counted hglobal).always (s := init clock) nofun actions)
    exact h c hc (hstage ▸ trivial)

theorem always_withinGlobal {clock : ℕ} {actions : List Action}
    (horder : EachStep (step fw) InGlobalOrder (init clock) actions) :
    Always (step fw) (WithinGlobal fw) (init clock) actions := by
  cases hlimit : fw.cfg.global_qps with
  | none =>
    have hwithin (s : State) : WithinGlobal fw s := fun limit h ↦
      absurd (hlimit.symm.trans h) nofun
    exact always_of_forall hwithin (init clock) actions
  | some limit =>
    have hinit : GlobalInv limit (init clock) := ⟨nofun, fits_nothing limit 0⟩
    exact Always.mono (fun s ↦ GlobalInv.withinGlobal hlimit)
      (horder.always (fun s a next h hC hstep ↦ h.step hlimit hC hstep) hinit)

theorem always_withinIp {ip : String} {clock : ℕ} {actions : List Action}
    (horder : EachStep (step fw) (InIpOrder ip) (init clock) actions) :
    Always (step fw) (WithinIp fw ip) (init clock) actions := by
  cases hlimit : fw.cfg.per_ip_qps with
  | none =>
    have hwithin (s : State) : WithinIp fw ip s := fun limit h ↦
      absurd (hlimit.symm.trans h) nofun
    exact always_of_forall hwithin (init clock) actions
  | some limit =>
    have hinit : IpInv ip limit (init clock) := ⟨nofun, fun now ↦ fits_nothing limit now⟩
    exact Always.mono (fun s ↦ IpInv.withinIp hlimit)
      (horder.always (fun s a next h hC hstep ↦ h.step hlimit hC hstep) hinit)

end Runs

/-- A window keeps its limit in every run whose calls come to it in the order of their readings;
what the limit of an address rejects has been counted in the global window in every run. -/
theorem limits_of_inOrder (fw : Firewall) (clock : ℕ) (actions : List Action) :
    (EachStep (step fw) InGlobalOrder (init clock) actions →
      Always (step fw) (WithinGlobal fw) (init clock) actions) ∧
    (∀ ip, EachStep (step fw) (InIpOrder ip) (init clock) actions →
      Always (step fw) (WithinIp fw ip) (init clock) actions) ∧
    Always (step fw) (RejectedCounted fw) (init clock) actions :=
  ⟨always_withinGlobal, fun _ ↦ always_withinIp, always_rejectedCounted clock actions⟩

/-- A firewall with no lists and these limits. -/
def limited (global_qps per_ip_qps : Option ℕ) : Firewall :=
  ⟨⟨true, [], [], global_qps, per_ip_qps, [], []⟩, [], []⟩

/-- One call after the other, the second in the next second. -/
def inTurn : List Action :=
  [.start (some "::1"), .advance 0, .advance 0, .advance 0, .advance 0, .tick 1,
    .start (some "::1"), .advance 1, .advance 1, .advance 1, .advance 1]

/-- The third call reads the clock a second later than the first two, and comes to the window
between them. -/
def late : List Action :=
  [.advance 0, .advance 1, .tick 1, .advance 2, .advance 0, .advance 2, .advance 1]

def starts : List Action := [.start (some "::1"), .start (some "::1"), .start (some "::1")]

theorem limits_of_inOrder_inTurn :
    Always (step (limited (some 1) (some 1))) (WithinGlobal (limited (some 1) (some 1))) (init 5)
      inTurn ∧
    Always (step (limited (some 1) (some 1))) (WithinIp (limited (some 1) (some 1)) "::1") (init 5)
      inTurn := by
  have hlimits := limits_of_inOrder (limited (some 1) (some 1)) 5 inTurn
  refine ⟨hlimits.1 ?_, hlimits.2.1 "::1" ?_⟩
  · repeat' refine EachStep.cons rfl ?_ ?_
    all_goals try trivial
    all_goals rintro c now ⟨⟩ ⟨⟩
    all_goals decide
  · repeat' refine EachStep.cons rfl ?_ ?_
    all_goals try trivial
    all_goals rintro c now win ⟨⟩ ⟨⟩ ⟨⟩
    all_goals decide

/-- A late call lets more through than the limit of the second, in either kind of window, and a call
that its address's limit rejects takes its part of the global limit. -/
theorem not_limits :
    (¬ ∀ fw clock actions, Always (step fw) (WithinGlobal fw) (init clock) actions) ∧
    (¬ ∀ fw ip clock actions, Always (step fw) (WithinIp fw ip) (init clock) actions) ∧
    ¬ ∀ fw clock actions, Always (step fw) RejectedUncounted (init clock) actions := by
  refine ⟨fun h ↦ ?_, fun h ↦ ?_, fun h ↦ ?_⟩
  · have hlast := (h (limited (some 1) none) 5
      (starts ++ late ++ [.advance 0, .advance 1])).exec rfl 1 rfl 5
    exact absurd hlast (by decide)
  · have hlast := (h (limited none (some 1)) "::1" 5
      (starts ++ [.advance 0, .advance 1, .advance 2] ++ late)).exec rfl 1 rfl 5
    exact absurd hlast (by decide)
  · have hlast := (h (limited (some 5) (some 0)) 5 (inTurn.take 5)).exec rfl
    exact absurd (hlast _ (List.mem_singleton_self _) rfl) nofun

end Lithair.Http.RateLimits
