/-
  File:      Library/Calendar.lean
  Subject:   THE PROLEPTIC GREGORIAN CALENDAR: dates, the numbers of their days, and their order.

  * `isLeap`, `monthLength`, `Date` -- a date is a day that its month has;
  * `daysBefore`, `daysBeforeMonth`, `Date.dayNumber` -- the days since the first of the year 0,
    counted year by year and month by month;
  * `marchDay`, `daysBefore_march` -- years counted from March: the closed form;
  * `Date.dayNumber_lt` -- **later dates have larger numbers**, and so a number has one date;
  * `Time`, `Time.number_lt_iff` -- the same for a second of a day.
-/
import Mathlib.Tactic.Common

namespace Library

/-! ## 1. Years and months -/

/-- **A leap year.** -/
def isLeap (y : Nat) : Bool := y % 4 = 0 && (y % 100 ≠ 0 || y % 400 = 0)

/-- The leap day of a year, 1 or 0. -/
def leapDay (y : Nat) : Nat := if isLeap y then 1 else 0

/-- The days of a month. -/
def monthLength (y m : Nat) : Nat :=
  if m = 2 then 28 + leapDay y
  else if m = 4 ∨ m = 6 ∨ m = 9 ∨ m = 11 then 30
  else 31

/-- The days of a year before its month `m`. -/
def daysBeforeMonth (y : Nat) : Nat → Nat
  | 0 => 0
  | 1 => 0
  | m + 2 => daysBeforeMonth y (m + 1) + monthLength y (m + 1)

/-- The days of a year. -/
def yearLength (y : Nat) : Nat := daysBeforeMonth y 13

/-- The days of all years before `y`. -/
def daysBefore : Nat → Nat
  | 0 => 0
  | y + 1 => daysBefore y + yearLength y

theorem yearLength_eq (y : Nat) : yearLength y = 365 + leapDay y := by
  have h : yearLength y =
      0 + 31 + (28 + leapDay y) + 31 + 30 + 31 + 30 + 31 + 31 + 30 + 31 + 30 + 31 := rfl
  omega

theorem leapDay_le (y : Nat) : leapDay y ≤ 1 := by
  unfold leapDay
  split <;> decide

/-- From one month to a later one. -/
theorem daysBeforeMonth_le {y m m' : Nat} (hm : 1 ≤ m) (h : m < m') :
    daysBeforeMonth y m + monthLength y m ≤ daysBeforeMonth y m' := by
  induction m' with
  | zero => omega
  | succ n ih =>
    obtain ⟨k, rfl⟩ : ∃ k, n = k + 1 := ⟨n - 1, by omega⟩
    rw [daysBeforeMonth]
    by_cases he : m = k + 1
    · exact Nat.le_of_eq (by rw [he])
    · exact Nat.le_trans (ih (by omega)) (Nat.le_add_right _ _)

theorem daysBefore_le {y y' : Nat} (h : y < y') : daysBefore y + yearLength y ≤ daysBefore y' := by
  induction y' with
  | zero => omega
  | succ n ih =>
    rw [daysBefore]
    by_cases he : y = n
    · exact Nat.le_of_eq (by rw [he])
    · exact Nat.le_trans (ih (by omega)) (Nat.le_add_right _ _)

/-! ## 2. Years from March -/

/-- **The days from the first of March of the year 0** to that of the year `y`. -/
def marchDay (y : Nat) : Nat := 365 * y + y / 4 - y / 100 + y / 400

/-- A quotient and the next one. -/
theorem succ_div_eq (y n : Nat) :
    (y + 1) / n = y / n + if (y + 1) % n = 0 then 1 else 0 := by
  rw [Nat.succ_div]
  simp only [Nat.dvd_iff_mod_eq_zero]

theorem marchDay_succ (y : Nat) : marchDay (y + 1) = marchDay y + 365 + leapDay (y + 1) := by
  have hle : y / 100 ≤ y / 4 := Nat.div_le_div_left (by decide) (by decide)
  have h100 : (y + 1) % 100 = 0 → (y + 1) % 4 = 0 := by omega
  have h400 : (y + 1) % 400 = 0 → (y + 1) % 100 = 0 := by omega
  simp only [marchDay, leapDay, isLeap, succ_div_eq, Bool.and_eq_true, Bool.or_eq_true,
    decide_eq_true_eq]
  split_ifs <;> omega

/-- Before the first of March lie all earlier years, January and February. -/
theorem daysBefore_march (y : Nat) : daysBefore y + 59 + leapDay y = marchDay y + 60 := by
  induction y with
  | zero => decide
  | succ y ih =>
    rw [daysBefore, yearLength_eq, marchDay_succ]
    omega

/-- A day of some 400 years is one of a year from March. -/
theorem exists_marchYear {n d : Nat} (h : d < marchDay n) :
    ∃ y, y < n ∧ marchDay y ≤ d ∧ d < marchDay (y + 1) := by
  induction n with
  | zero => exact absurd h (Nat.not_lt_zero d)
  | succ n ih =>
    by_cases hd : d < marchDay n
    · obtain ⟨y, hy, hle, hlt⟩ := ih hd
      exact ⟨y, Nat.lt_succ_of_lt hy, hle, hlt⟩
    · exact ⟨n, Nat.lt_succ_self n, Nat.le_of_not_lt hd, h⟩

/-- The calendar repeats every 400 years. -/
theorem marchDay_era (e y : Nat) : marchDay (400 * e + y) = 146097 * e + marchDay y := by
  unfold marchDay
  omega

theorem leapDay_era (e y : Nat) : leapDay (400 * e + y) = leapDay y := by
  have h4 : (400 * e + y) % 4 = y % 4 := by omega
  have h100 : (400 * e + y) % 100 = y % 100 := by omega
  have h400 : (400 * e + y) % 400 = y % 400 := by omega
  rw [leapDay, leapDay, isLeap, isLeap, h4, h100, h400]

/-! ## 3. Dates -/

/-- **A date.** -/
@[ext]
structure Date where
  year : Nat
  month : Nat
  day : Nat
  month_pos : 1 ≤ month
  month_le : month ≤ 12
  day_pos : 1 ≤ day
  day_le : day ≤ monthLength year month

namespace Date

/-- **The number of its day**, from the first of January of the year 0. -/
def dayNumber (d : Date) : Nat :=
  daysBefore d.year + daysBeforeMonth d.year d.month + (d.day - 1)

/-- **Chronological order.** -/
def Before (d e : Date) : Prop :=
  d.year < e.year ∨ d.year = e.year ∧ (d.month < e.month ∨ d.month = e.month ∧ d.day < e.day)

theorem before_or (d e : Date) : d.Before e ∨ d = e ∨ e.Before d := by
  unfold Before
  by_cases hy : d.year = e.year
  · by_cases hm : d.month = e.month
    · by_cases hd : d.day = e.day
      · exact .inr (.inl (Date.ext hy hm hd))
      · omega
    · omega
  · omega

/-- The days of a year up to a date. -/
theorem day_lt (d : Date) : daysBeforeMonth d.year d.month + (d.day - 1) < yearLength d.year := by
  have h : daysBeforeMonth d.year d.month + monthLength d.year d.month ≤
      daysBeforeMonth d.year 13 :=
    daysBeforeMonth_le d.month_pos (Nat.lt_succ_of_le d.month_le)
  have hd := d.day_le
  have hp := d.day_pos
  rw [yearLength]
  omega

/-- **Later dates have larger numbers.** -/
theorem dayNumber_lt {d e : Date} (h : d.Before e) : d.dayNumber < e.dayNumber := by
  unfold dayNumber
  have hd := d.day_lt
  have hp := d.day_pos
  have hl := d.day_le
  rcases h with hy | ⟨hy, hm | ⟨hm, hday⟩⟩
  · have := daysBefore_le hy
    omega
  · have := daysBeforeMonth_le (y := d.year) d.month_pos hm
    rw [← hy]
    omega
  · rw [← hy, ← hm]
    omega

theorem dayNumber_inj {d e : Date} (h : d.dayNumber = e.dayNumber) : d = e := by
  rcases before_or d e with hb | he | hb
  · exact absurd (dayNumber_lt hb) (Nat.not_lt_of_ge (Nat.le_of_eq h.symm))
  · exact he
  · exact absurd (dayNumber_lt hb) (Nat.not_lt_of_ge (Nat.le_of_eq h))

end Date

/-! ## 4. Times -/

/-- **A second of a date.** -/
@[ext]
structure Time where
  date : Date
  hour : Nat
  minute : Nat
  second : Nat
  hour_lt : hour < 24
  minute_lt : minute < 60
  second_lt : second < 60

namespace Time

/-- The seconds of the day that are over. -/
def secondOfDay (t : Time) : Nat := t.hour * 3600 + t.minute * 60 + t.second

/-- **The number of the second**, from the first of January of the year 0. -/
def number (t : Time) : Nat := t.date.dayNumber * 86400 + t.secondOfDay

/-- **Chronological order.** -/
def Before (t u : Time) : Prop :=
  t.date.Before u.date ∨ t.date = u.date ∧ (t.hour < u.hour ∨ t.hour = u.hour ∧
    (t.minute < u.minute ∨ t.minute = u.minute ∧ t.second < u.second))

theorem secondOfDay_lt (t : Time) : t.secondOfDay < 86400 := by
  have hh := t.hour_lt
  have hm := t.minute_lt
  have hs := t.second_lt
  unfold secondOfDay
  omega

/-- **Later times have larger numbers.** -/
theorem number_lt_iff {t u : Time} : t.number < u.number ↔ t.Before u := by
  have ht := t.secondOfDay_lt
  have hu := u.secondOfDay_lt
  unfold number Before
  rcases Date.before_or t.date u.date with hb | he | hb
  · have hlt := Date.dayNumber_lt hb
    exact ⟨fun _ => .inl hb, fun _ => by omega⟩
  · have hirr : ¬t.date.Before u.date := by
      rw [he]
      exact fun hb => absurd (Date.dayNumber_lt hb) (Nat.lt_irrefl _)
    have hm := t.minute_lt
    have hm' := u.minute_lt
    have hs := t.second_lt
    have hs' := u.second_lt
    rw [he, secondOfDay, secondOfDay, or_iff_right (by rwa [he] at hirr), and_iff_right rfl]
    omega
  · have hlt := Date.dayNumber_lt hb
    have hno : ¬t.date.Before u.date := fun hb' => absurd (Date.dayNumber_lt hb') (by omega)
    have hne : t.date ≠ u.date := fun he => absurd hlt (by rw [he]; exact Nat.lt_irrefl _)
    constructor
    · intro h
      omega
    · intro h
      rcases h with h | h
      · exact absurd h hno
      · exact absurd h.1 hne

theorem number_inj {t u : Time} (h : t.number = u.number) : t = u := by
  have ht := t.secondOfDay_lt
  have hu := u.secondOfDay_lt
  unfold number at h
  have hdate : t.date = u.date := Date.dayNumber_inj (by omega)
  have hday : t.secondOfDay = u.secondOfDay := by
    rw [hdate] at h
    omega
  have hm := t.minute_lt
  have hm' := u.minute_lt
  have hs := t.second_lt
  have hs' := u.second_lt
  rw [secondOfDay, secondOfDay] at hday
  exact Time.ext hdate (by omega) (by omega) (by omega)

end Time

end Library
