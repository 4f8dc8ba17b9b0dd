import Mathlib.Tactic.Linarith
import Mathlib.Tactic.Ring

/-!
# Times of RFC 3339

A date and a time of day in the proleptic Gregorian calendar, and the number of seconds that it
stands for (`Civil.seconds_lt_iff`). A text of RFC 3339 has such a time, perhaps with a fraction,
and an offset, and there are many for one instant. Of the texts that are written for times of
Coordinated Universal Time, with the offset `+00:00` and a fraction of three, six or nine digits if
one is needed, the order of the texts is the order of the instants (`Utc.text_lt_iff`).
-/

namespace Lithair.Lib.Rfc3339

/-! ### Numbers of a fixed width -/

/-- The last decimal digits of a number. -/
def decimals : ℕ → ℕ → List Char
  | 0, _ => []
  | width + 1, n => decimals width (n / 10) ++ [Nat.digitChar (n % 10)]

theorem length_decimals (width n : ℕ) : (decimals width n).length = width := by
  induction width generalizing n with
  | zero => rfl
  | succ width ih => rw [decimals, List.length_append, ih, List.length_singleton]

theorem append_lt_append_iff {first second : List Char} (h : first.length = second.length)
    (u v : List Char) :
    first ++ u < second ++ v ↔ first < second ∨ first = second ∧ u < v := by
  induction first generalizing second with
  | nil =>
    obtain rfl := List.length_eq_zero_iff.mp h.symm
    simp
  | cons c first ih =>
    cases second with
    | nil => exact absurd h (Nat.succ_ne_zero _)
    | cons d second =>
      rw [List.cons_append, List.cons_append, List.cons_lt_cons_iff, List.cons_lt_cons_iff,
        ih (Nat.succ.inj h), List.cons.injEq]
      tauto

theorem digitChar_lt_iff : ∀ m < 10, ∀ n < 10, Nat.digitChar m < Nat.digitChar n ↔ m < n := by
  decide

theorem digitChar_inj : ∀ m < 10, ∀ n < 10, Nat.digitChar m = Nat.digitChar n ↔ m = n := by
  decide

/-- Numbers of one width are in the order of their digits. -/
theorem decimals_spec {width m n : ℕ} (hm : m < 10 ^ width) (hn : n < 10 ^ width) :
    (decimals width m < decimals width n ↔ m < n) ∧
      (decimals width m = decimals width n ↔ m = n) := by
  induction width generalizing m n with
  | zero =>
    obtain rfl : m = 0 := by omega
    obtain rfl : n = 0 := by omega
    exact ⟨iff_of_false (List.lt_irrefl _) (Nat.lt_irrefl 0), iff_of_true rfl rfl⟩
  | succ width ih =>
    rw [pow_succ] at hm hn
    obtain ⟨hlt, heq⟩ := ih (Nat.div_lt_of_lt_mul (by omega)) (Nat.div_lt_of_lt_mul (by omega))
      (m := m / 10) (n := n / 10)
    have hlength : (decimals width (m / 10)).length = (decimals width (n / 10)).length := by
      rw [length_decimals, length_decimals]
    have hsingle : [Nat.digitChar (m % 10)] < [Nat.digitChar (n % 10)] ↔ m % 10 < n % 10 := by
      rw [List.cons_lt_cons_iff,
        digitChar_lt_iff _ (Nat.mod_lt _ (by decide)) _ (Nat.mod_lt _ (by decide))]
      simp
    have hequal : decimals width (m / 10) ++ [Nat.digitChar (m % 10)] =
        decimals width (n / 10) ++ [Nat.digitChar (n % 10)] ↔
          m / 10 = n / 10 ∧ m % 10 = n % 10 := by
      have hdigit := digitChar_inj (m % 10) (Nat.mod_lt _ (by decide)) (n % 10)
        (Nat.mod_lt _ (by decide))
      rw [← heq, ← hdigit]
      constructor
      · intro h
        obtain ⟨hleft, hright⟩ := List.append_inj h hlength
        exact ⟨hleft, (List.cons.inj hright).1⟩
      · rintro ⟨hleft, hright⟩
        rw [hleft, hright]
    rw [decimals, decimals, append_lt_append_iff hlength, hlt, heq, hsingle, hequal]
    omega

theorem decimals_add (first second n : ℕ) :
    decimals (first + second) n = decimals first (n / 10 ^ second) ++ decimals second n := by
  induction second generalizing n with
  | zero => simp [decimals]
  | succ second ih =>
    rw [← Nat.add_assoc, decimals, decimals, ih, List.append_assoc, Nat.div_div_eq_div_mul,
      pow_succ, Nat.mul_comm]

/-- A number of a fixed width in front of other texts. -/
theorem decimals_append_lt_iff {width m n : ℕ} (hm : m < 10 ^ width) (hn : n < 10 ^ width)
    (u v : List Char) :
    decimals width m ++ u < decimals width n ++ v ↔ m < n ∨ m = n ∧ u < v := by
  rw [append_lt_append_iff (by rw [length_decimals, length_decimals]), (decimals_spec hm hn).1,
    (decimals_spec hm hn).2]

/-! ### Dates -/

def isLeap (year : ℕ) : Bool := year % 4 = 0 && (year % 100 ≠ 0 || year % 400 = 0)

def daysIn (year month : ℕ) : ℕ :=
  if month = 2 then if isLeap year then 29 else 28
  else if month = 4 ∨ month = 6 ∨ month = 9 ∨ month = 11 then 30
  else 31

/-- The days of the months in front of a month. -/
def daysBeforeMonth (year : ℕ) : ℕ → ℕ
  | 0 => 0
  | 1 => 0
  | month + 2 => daysBeforeMonth year (month + 1) + daysIn year (month + 1)

/-- The days of the years in front of a year. -/
def daysBeforeYear : ℕ → ℕ
  | 0 => 0
  | year + 1 => daysBeforeYear year + if isLeap year then 366 else 365

/-- A date and a time of day; the last second may be a leap second. -/
@[ext]
structure Civil where
  year : ℕ
  month : ℕ
  day : ℕ
  hour : ℕ
  minute : ℕ
  second : ℕ
  year_lt : year < 10000
  month_mem : 1 ≤ month ∧ month ≤ 12
  day_mem : 1 ≤ day ∧ day ≤ daysIn year month
  hour_lt : hour < 24
  minute_lt : minute < 60
  second_le : second ≤ 60

namespace Civil

/-- The date and the time of day with these fields, if there is one. -/
def ofFields (year month day hour minute second : ℕ) : Option Civil :=
  if h : year < 10000 ∧ (1 ≤ month ∧ month ≤ 12) ∧ (1 ≤ day ∧ day ≤ daysIn year month) ∧
      hour < 24 ∧ minute < 60 ∧ second ≤ 60 then
    some ⟨year, month, day, hour, minute, second, h.1, h.2.1, h.2.2.1, h.2.2.2.1, h.2.2.2.2.1,
      h.2.2.2.2.2⟩
  else none

def days (t : Civil) : ℕ := daysBeforeYear t.year + daysBeforeMonth t.year t.month + (t.day - 1)

/-- The seconds since the year zero. -/
def seconds (t : Civil) : ℕ := ((t.days * 24 + t.hour) * 60 + t.minute) * 60 + t.second

/-- The order of the fields, the year first. -/
def Before (s t : Civil) : Prop :=
  s.year < t.year ∨ s.year = t.year ∧ (s.month < t.month ∨ s.month = t.month ∧
    (s.day < t.day ∨ s.day = t.day ∧ (s.hour < t.hour ∨ s.hour = t.hour ∧
      (s.minute < t.minute ∨ s.minute = t.minute ∧ s.second < t.second))))

end Civil

theorem daysBeforeMonth_succ {year month : ℕ} (h : 1 ≤ month) :
    daysBeforeMonth year (month + 1) = daysBeforeMonth year month + daysIn year month := by
  obtain ⟨m, rfl⟩ : ∃ m, month = m + 1 := ⟨month - 1, by omega⟩
  rfl

theorem daysBeforeMonth_le {year month later : ℕ} (h : 1 ≤ month) (hle : month < later) :
    daysBeforeMonth year month + daysIn year month ≤ daysBeforeMonth year later := by
  induction later, hle using Nat.le_induction with
  | base => rw [daysBeforeMonth_succ h]
  | succ later hlater ih =>
    have hlater : month < later := hlater
    rw [daysBeforeMonth_succ (by omega)]
    omega

/-- The months have the days of the year. -/
theorem daysBeforeMonth_thirteen (year : ℕ) :
    daysBeforeMonth year 13 = if isLeap year then 366 else 365 := by
  cases h : isLeap year <;> simp [daysBeforeMonth, daysIn, h]

theorem daysBeforeYear_le {year later : ℕ} (h : year < later) :
    daysBeforeYear year + daysBeforeMonth year 13 ≤ daysBeforeYear later := by
  rw [daysBeforeMonth_thirteen]
  induction later, h using Nat.le_induction with
  | base => rw [daysBeforeYear]
  | succ later hlater ih =>
    rw [daysBeforeYear]
    omega

namespace Civil

variable {s t : Civil}

theorem dayOfYear_lt (t : Civil) :
    daysBeforeMonth t.year t.month + (t.day - 1) < daysBeforeMonth t.year 13 := by
  have hlater : daysBeforeMonth t.year t.month + daysIn t.year t.month ≤
      daysBeforeMonth t.year 13 :=
    daysBeforeMonth_le t.month_mem.1 (by have := t.month_mem; omega)
  have hday := t.day_mem
  omega

/-- A later date has more days in front of it. -/
theorem days_lt (h : s.year < t.year ∨ s.year = t.year ∧ (s.month < t.month ∨
    s.month = t.month ∧ s.day < t.day)) : s.days < t.days := by
  have hs := dayOfYear_lt s
  have hday := s.day_mem
  have hlater := t.day_mem
  unfold days
  rcases h with hyear | ⟨hyear, hmonth | ⟨hmonth, hless⟩⟩
  · have hyears := daysBeforeYear_le hyear
    omega
  · have hmonths : daysBeforeMonth s.year s.month + daysIn s.year s.month ≤
        daysBeforeMonth s.year t.month := daysBeforeMonth_le s.month_mem.1 hmonth
    rw [← hyear]
    omega
  · rw [← hyear, ← hmonth]
    omega

theorem seconds_lt (h : s.Before t) (hs : s.second < 60) : s.seconds < t.seconds := by
  have hhour := s.hour_lt
  have hminute := s.minute_lt
  unfold seconds
  rcases h with hyear | ⟨hyear, hmonth | ⟨hmonth, hday | ⟨hday, htime⟩⟩⟩
  · have hdays := days_lt (Or.inl hyear)
    omega
  · have hdays := days_lt (Or.inr ⟨hyear, Or.inl hmonth⟩)
    omega
  · have hdays := days_lt (Or.inr ⟨hyear, Or.inr ⟨hmonth, hday⟩⟩)
    omega
  · have hdays : s.days = t.days := by
      unfold days
      rw [hyear, hmonth, hday]
    omega

/-- Of two times one is before the other, or they are the same. -/
theorem before_trichotomy (s t : Civil) : s.Before t ∨ s = t ∨ t.Before s := by
  unfold Before
  rw [Civil.ext_iff]
  omega

theorem seconds_le (h : s.Before t) : s.seconds ≤ t.seconds := by
  have hsecond := s.second_le
  have hhour := s.hour_lt
  have hminute := s.minute_lt
  unfold seconds
  rcases h with hyear | ⟨hyear, hmonth | ⟨hmonth, hday | ⟨hday, htime⟩⟩⟩
  · have hdays := days_lt (Or.inl hyear)
    omega
  · have hdays := days_lt (Or.inr ⟨hyear, Or.inl hmonth⟩)
    omega
  · have hdays := days_lt (Or.inr ⟨hyear, Or.inr ⟨hmonth, hday⟩⟩)
    omega
  · have hdays : s.days = t.days := by
      unfold days
      rw [hyear, hmonth, hday]
    omega

/-- The order of the fields is that of the seconds. -/
theorem seconds_lt_iff (hs : s.second < 60) : s.seconds < t.seconds ↔ s.Before t := by
  refine ⟨fun h ↦ ?_, fun h ↦ seconds_lt h hs⟩
  rcases before_trichotomy s t with hbefore | rfl | hafter
  · exact hbefore
  · exact absurd h (Nat.lt_irrefl _)
  · exact absurd h (Nat.not_lt.mpr (seconds_le hafter))

theorem seconds_inj (hs : s.second < 60) (ht : t.second < 60) : s.seconds = t.seconds ↔ s = t := by
  refine ⟨fun h ↦ ?_, fun h ↦ h ▸ rfl⟩
  rcases before_trichotomy s t with hbefore | hsame | hafter
  · exact absurd (seconds_lt hbefore hs) (h ▸ Nat.lt_irrefl _)
  · exact hsame
  · exact absurd (seconds_lt hafter ht) (h ▸ Nat.lt_irrefl _)

end Civil

/-! ### Texts -/

/-- The date and the time of day, with a mark between them. -/
def Civil.text (t : Civil) (mark : Char) : List Char :=
  decimals 4 t.year ++ '-' :: (decimals 2 t.month ++ '-' :: (decimals 2 t.day ++
    mark :: (decimals 2 t.hour ++ ':' :: (decimals 2 t.minute ++ ':' :: decimals 2 t.second))))

/-- The digits behind the point. -/
structure Fraction where
  width : ℕ
  value : ℕ
  width_pos : 0 < width
  value_lt : value < 10 ^ width

def Fraction.text (fraction : Fraction) : List Char :=
  '.' :: decimals fraction.width fraction.value

/-- The time ahead of Coordinated Universal Time, or behind it. -/
inductive Offset
  | utc (lower : Bool)
  | ahead (hours minutes : ℕ) (hhours : hours < 24) (hminutes : minutes < 60)
  | behind (hours minutes : ℕ) (hhours : hours < 24) (hminutes : minutes < 60)

def Offset.text : Offset → List Char
  | utc lower => [if lower then 'z' else 'Z']
  | ahead hours minutes _ _ => '+' :: (decimals 2 hours ++ ':' :: decimals 2 minutes)
  | behind hours minutes _ _ => '-' :: (decimals 2 hours ++ ':' :: decimals 2 minutes)

def Offset.seconds : Offset → ℤ
  | utc _ => 0
  | ahead hours minutes _ _ => (hours * 60 + minutes) * 60
  | behind hours minutes _ _ => -((hours * 60 + minutes) * 60)

/-- A time as RFC 3339 lets it be written. -/
structure Stamp where
  civil : Civil
  lower : Bool
  fraction : Option Fraction
  offset : Offset

namespace Stamp

def text (stamp : Stamp) : List Char :=
  stamp.civil.text (if stamp.lower then 't' else 'T') ++
    (stamp.fraction.elim [] Fraction.text ++ stamp.offset.text)

/-- The seconds since the year zero began, in Coordinated Universal Time. -/
def instant (stamp : Stamp) : ℚ :=
  (stamp.civil.seconds : ℚ) + stamp.fraction.elim 0 (fun f ↦ (f.value : ℚ) / 10 ^ f.width) -
    stamp.offset.seconds

end Stamp

/-- A time of Coordinated Universal Time, in nanoseconds. -/
structure Utc where
  civil : Civil
  nanos : ℕ
  nanos_lt : nanos < 10 ^ 9

namespace Utc

/-- The fraction in milliseconds, in microseconds or in nanoseconds, whichever is enough. -/
def fraction (time : Utc) : Option Fraction :=
  if time.nanos = 0 then none
  else if time.nanos % 10 ^ 6 = 0 then
    some ⟨3, time.nanos / 10 ^ 6, by decide, Nat.div_lt_of_lt_mul time.nanos_lt⟩
  else if time.nanos % 10 ^ 3 = 0 then
    some ⟨6, time.nanos / 10 ^ 3, by decide, Nat.div_lt_of_lt_mul time.nanos_lt⟩
  else some ⟨9, time.nanos, by decide, time.nanos_lt⟩

/-- The stamp that is written for a time. -/
def stamp (time : Utc) : Stamp where
  civil := time.civil
  lower := false
  fraction := time.fraction
  offset := .ahead 0 0 (by decide) (by decide)

def text (time : Utc) : List Char := time.stamp.text

def instant (time : Utc) : ℚ := time.stamp.instant

/-- The nanoseconds since the year zero began. -/
def ticks (time : Utc) : ℕ := time.civil.seconds * 10 ^ 9 + time.nanos

theorem instant_eq (time : Utc) : time.instant = (time.ticks : ℚ) / 10 ^ 9 := by
  have hwhole : time.instant = (time.civil.seconds : ℚ) +
      time.fraction.elim 0 (fun f ↦ (f.value : ℚ) / 10 ^ f.width) := by
    simp [instant, Stamp.instant, stamp, Offset.seconds]
  have hmul {unit : ℕ} (h : time.nanos % unit = 0) :
      ((time.nanos / unit : ℕ) : ℚ) * (unit : ℚ) = (time.nanos : ℚ) := by
    rw [← Nat.cast_mul, Nat.div_mul_cancel (Nat.dvd_of_mod_eq_zero h)]
  have hpart : time.fraction.elim (0 : ℚ) (fun f ↦ (f.value : ℚ) / 10 ^ f.width) =
      (time.nanos : ℚ) / 10 ^ 9 := by
    unfold fraction
    split_ifs with hzero hmilli hmicro
    · simp [hzero]
    · rw [Option.elim_some, ← hmul hmilli]
      push_cast
      ring
    · rw [Option.elim_some, ← hmul hmicro]
      push_cast
      ring
    · rfl
  rw [hwhole, hpart, ticks]
  push_cast
  ring

theorem instant_lt_iff (a b : Utc) : a.instant < b.instant ↔ a.ticks < b.ticks := by
  rw [instant_eq, instant_eq, div_lt_div_iff_of_pos_right (by positivity), Nat.cast_lt]

end Utc

theorem cons_lt_cons_self (c : Char) (u v : List Char) : c :: u < c :: v ↔ u < v := by
  rw [List.cons_lt_cons_iff]
  exact ⟨fun h ↦ h.elim (fun h ↦ absurd h (Char.lt_irrefl c)) And.right, fun h ↦ .inr ⟨rfl, h⟩⟩

theorem Civil.text_append_lt_iff (s t : Civil) (mark : Char) (u v : List Char) :
    s.text mark ++ u < t.text mark ++ v ↔ s.Before t ∨ s = t ∧ u < v := by
  have hmonth (t : Civil) : t.month < 10 ^ 2 := Nat.lt_of_le_of_lt t.month_mem.2 (by decide)
  have hday (t : Civil) : t.day < 10 ^ 2 := by
    have hmost : daysIn t.year t.month ≤ 31 := by
      unfold daysIn
      split_ifs <;> decide
    have := t.day_mem
    omega
  have hhour (t : Civil) : t.hour < 10 ^ 2 := Nat.lt_trans t.hour_lt (by decide)
  have hminute (t : Civil) : t.minute < 10 ^ 2 := Nat.lt_trans t.minute_lt (by decide)
  have hsecond (t : Civil) : t.second < 10 ^ 2 := Nat.lt_of_le_of_lt t.second_le (by decide)
  simp only [text, List.append_assoc, List.cons_append]
  rw [decimals_append_lt_iff s.year_lt t.year_lt, cons_lt_cons_self,
    decimals_append_lt_iff (hmonth s) (hmonth t), cons_lt_cons_self,
    decimals_append_lt_iff (hday s) (hday t), cons_lt_cons_self,
    decimals_append_lt_iff (hhour s) (hhour t), cons_lt_cons_self,
    decimals_append_lt_iff (hminute s) (hminute t), cons_lt_cons_self,
    decimals_append_lt_iff (hsecond s) (hsecond t), Before, Civil.ext_iff]
  tauto

/-- A text that is in front of every digit, and of every text that begins with a digit. -/
def BeforeDigits (rest : List Char) : Prop :=
  ∀ digit < 10, ∀ more : List Char, rest < Nat.digitChar digit :: more

theorem decimals_succ_cons (width n : ℕ) :
    ∃ digit < 10, ∃ more, decimals (width + 1) n = Nat.digitChar digit :: more := by
  induction width generalizing n with
  | zero => exact ⟨n % 10, Nat.mod_lt _ (by decide), [], rfl⟩
  | succ width ih =>
    obtain ⟨digit, hdigit, more, hmore⟩ := ih (n / 10)
    exact ⟨digit, hdigit, more ++ [Nat.digitChar (n % 10)], by rw [decimals, hmore]; rfl⟩

theorem BeforeDigits.lt_decimals {rest : List Char} (h : BeforeDigits rest) {width : ℕ}
    (hwidth : 0 < width) (n : ℕ) (more : List Char) : rest < decimals width n ++ more := by
  obtain ⟨width, rfl⟩ := Nat.exists_eq_succ_of_ne_zero hwidth.ne'
  obtain ⟨digit, hdigit, digits, hdigits⟩ := decimals_succ_cons width n
  rw [hdigits]
  exact h digit hdigit _

/-- Digits with fewer digits than others: the shorter is first if it begins like the longer. -/
theorem BeforeDigits.decimals_lt_iff {rest : List Char} (h : BeforeDigits rest)
    {width more m n : ℕ} (hmore : 0 < more) (hm : m < 10 ^ width)
    (hn : n < 10 ^ (width + more)) :
    (decimals width m ++ rest < decimals (width + more) n ++ rest ↔ m ≤ n / 10 ^ more) ∧
      (decimals (width + more) n ++ rest < decimals width m ++ rest ↔ n / 10 ^ more < m) := by
  have hfront : n / 10 ^ more < 10 ^ width := by
    rw [Nat.div_lt_iff_lt_mul (by positivity), ← pow_add]
    exact hn
  have hlt := h.lt_decimals hmore n rest
  rw [decimals_add, List.append_assoc, decimals_append_lt_iff hm hfront,
    decimals_append_lt_iff hfront hm, Nat.le_iff_lt_or_eq]
  exact ⟨by simp [hlt], by simp [List.lt_asymm hlt]⟩

namespace Utc

/-- What stands behind the seconds. -/
def tail (time : Utc) : List Char :=
  time.fraction.elim [] Fraction.text ++ '+' :: (decimals 2 0 ++ ':' :: decimals 2 0)

theorem text_eq (time : Utc) : time.text = time.civil.text 'T' ++ time.tail := rfl

theorem tail_lt_iff (a b : Utc) : a.tail < b.tail ↔ a.nanos < b.nanos := by
  have ha := a.nanos_lt
  have hb := b.nanos_lt
  have hbefore : BeforeDigits ('+' :: (decimals 2 0 ++ ':' :: decimals 2 0)) := by
    have hplus : ∀ digit < 10, '+' < Nat.digitChar digit := by decide
    exact fun digit hdigit more ↦ List.cons_lt_cons_iff.mpr (.inl (hplus digit hdigit))
  have hpoint (digits : List Char) :
      '+' :: (decimals 2 0 ++ ':' :: decimals 2 0) < '.' :: digits :=
    List.cons_lt_cons_iff.mpr (.inl (by decide))
  have hlater (digits : List Char) :
      ¬ '.' :: digits < '+' :: (decimals 2 0 ++ ':' :: decimals 2 0) :=
    List.lt_asymm (hpoint digits)
  unfold tail fraction
  generalize '+' :: (decimals 2 0 ++ ':' :: decimals 2 0) = offset at *
  have hmilli (time : Utc) : time.nanos / 10 ^ 6 < 10 ^ 3 := Nat.div_lt_of_lt_mul time.nanos_lt
  have hmicro (time : Utc) : time.nanos / 10 ^ 3 < 10 ^ 6 := Nat.div_lt_of_lt_mul time.nanos_lt
  have hsame {width m n : ℕ} (hm : m < 10 ^ width) (hn : n < 10 ^ width) :
      decimals width m ++ offset < decimals width n ++ offset ↔ m < n := by
    rw [decimals_append_lt_iff hm hn]
    simp
  have hthree (s t : Utc) := hbefore.decimals_lt_iff (by decide : 0 < 3) (hmilli s) (hmicro t)
  have hsix (s t : Utc) := hbefore.decimals_lt_iff (by decide : 0 < 3) (hmicro s) t.nanos_lt
  have hboth (s t : Utc) := hbefore.decimals_lt_iff (by decide : 0 < 6) (hmilli s) t.nanos_lt
  simp only [Nat.reduceAdd] at hthree hsix hboth
  -- A time without a fraction, or with digits to the milli-, micro- or nanosecond.
  split_ifs with ha0 hb0 hb6 hb3 ha6 hb0 hb6 hb3 ha3 hb0 hb6 hb3 hb0 hb6 hb3 <;>
    simp only [Option.elim_none, Option.elim_some, Fraction.text, List.nil_append, List.cons_append,
      cons_lt_cons_self, hpoint, hlater, true_iff, false_iff, List.lt_irrefl, hsame (hmilli a)
      (hmilli b), hsame (hmicro a) (hmicro b), hsame a.nanos_lt b.nanos_lt, hthree a b, hthree b a,
      hsix a b, hsix b a, hboth a b, hboth b a] <;>
    omega

/-- The order of the texts is that of the instants, also if the second begins with a leap
second. -/
theorem text_lt_iff (a b : Utc) (ha : a.civil.second < 60)
    (hb : b.civil.second < 60 ∨ b.nanos = 0) : a.text < b.text ↔ a.instant < b.instant := by
  have haNanos := a.nanos_lt
  have hbNanos := b.nanos_lt
  rw [text_eq, text_eq, Civil.text_append_lt_iff, tail_lt_iff, instant_lt_iff,
    ← Civil.seconds_lt_iff ha, ticks, ticks]
  rcases hb with hb | hb
  · rw [← Civil.seconds_inj ha hb]
    omega
  · rw [hb]
    omega

end Utc

end Lithair.Lib.Rfc3339
