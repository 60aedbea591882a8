/-
  File:      Update/Utc.lean
  Subject:   THE TIMES OF THE JOURNAL: a Unix time as a civil date.

  * `civilFromDays`, `formatUtc` -- the source, with every operation on `i64` checked;
  * `yearOfEra_eq`, `month_spec` -- the year and the month that its divisions find;
  * `civilFromDays_spec` -- the date of a day;
  * `timeText`, `timeText_inj` -- the text of a time, which no two times share;
  * `formatUtc_civil` -- **the text is that of the civil time**, and later times have later texts.
-/
import Mathlib.Order.Monotone.Basic
import Mathlib.Tactic.IntervalCases
import Sn46Validator.Library.Calendar
import Sn46Validator.Library.Text

namespace Sn46Validator.Update

open Library

/-! ## 1. The source -/

/-- A result of type `i64`: `none` where it overflows. -/
def i64 (x : ℤ) : Option ℤ := if -2 ^ 63 ≤ x ∧ x < 2 ^ 63 then some x else none

/-- The year of an era, from the day of the era. -/
def yearOfEra (doe : ℤ) : Option ℤ := do
  let rest ← i64 ((← i64 ((← i64 (doe - doe.tdiv 1460)) + doe.tdiv 36524)) - doe.tdiv 146096)
  return rest.tdiv 365

/-- The day of that year, which starts in March. -/
def dayOfYear (doe yoe : ℤ) : Option ℤ := do
  i64 (doe - (← i64 ((← i64 ((← i64 (365 * yoe)) + yoe.tdiv 4)) - yoe.tdiv 100)))

/-- The month and its day. -/
def monthAndDay (doy : ℤ) : Option (ℤ × ℤ) := do
  let mp := (← i64 ((← i64 (5 * doy)) + 2)).tdiv 153
  let day ← i64 ((← i64 (doy - (← i64 ((← i64 (153 * mp)) + 2)).tdiv 5)) + 1)
  let month ← if mp < 10 then i64 (mp + 3) else i64 (mp - 9)
  return (month, day)

/-- Howard Hinnant's `civil_from_days`: the year, the month and the day. -/
def civilFromDays (days : ℤ) : Option (ℤ × ℤ × ℤ) := do
  let z ← i64 (days + 719468)
  -- `div_euclid`
  let era := z / 146097
  let doe ← i64 (z - (← i64 (era * 146097)))
  let yoe ← yearOfEra doe
  let doy ← dayOfYear doe yoe
  let (month, day) ← monthAndDay doy
  let year ← i64 ((← i64 (yoe + (← i64 (era * 400)))) + if month ≤ 2 then 1 else 0)
  return (year, month, day)

/-- A number with zeros in front up to a width, as `{:04}` and `{:02}` write it. -/
def padded (width : ℕ) (n : ℤ) : List Char :=
  let digits := Nat.toDigits 10 n.natAbs
  if n < 0 then '-' :: (List.replicate (width - 1 - digits.length) '0' ++ digits)
  else List.replicate (width - digits.length) '0' ++ digits

/-- `YYYY-MM-DDTHH:MM:SSZ`. -/
def stamp (year month day : ℤ) (hour minute second : ℕ) : String :=
  String.ofList (padded 4 year ++ '-' :: (padded 2 month ++ '-' :: (padded 2 day ++
    'T' :: (padded 2 hour ++ ':' :: (padded 2 minute ++ ':' :: (padded 2 second ++ ['Z']))))))

/-- **`format_utc`**: `none` where an operation on `i64` overflows. -/
def formatUtc (ms : U64) : Option String := do
  let seconds := ms.val / 1000
  let days ← i64 ((seconds / 86400 : ℕ) : ℤ)
  let rest := seconds % 86400
  let (year, month, day) ← civilFromDays days
  return stamp year month day (rest / 3600) (rest / 60 % 60) (rest % 60)

example : formatUtc 951782400000 = some "2000-02-29T00:00:00Z" := by decide +kernel

/-! ## 2. The divisions -/

/-- What the source divides by 365. -/
def elapsed (doe : ℕ) : ℕ := doe - doe / 1460 + doe / 36524 - doe / 146096

theorem elapsed_succ (d : ℕ) : elapsed d ≤ elapsed (d + 1) := by
  unfold elapsed
  omega

theorem elapsed_mono {d e : ℕ} (h : d ≤ e) : elapsed d ≤ elapsed e :=
  monotone_nat_of_le_succ elapsed_succ h

/-- The first and the last day of each year of an era. -/
theorem elapsed_bounds : ∀ y, y < 400 → 365 * y ≤ elapsed (marchDay y) ∧
    elapsed (marchDay (y + 1) - 1) < 365 * (y + 1) := by
  decide +kernel

/-- **The year of the era.** -/
theorem yearOfEra_eq {doe y : ℕ} (hy : y < 400) (hle : marchDay y ≤ doe)
    (hlt : doe < marchDay (y + 1)) : elapsed doe / 365 = y := by
  obtain ⟨hfirst, hlast⟩ := elapsed_bounds y hy
  have h₁ := elapsed_mono hle
  have h₂ : elapsed doe ≤ elapsed (marchDay (y + 1) - 1) := elapsed_mono (by omega)
  omega

/-- The month, counted from March. -/
def marchMonth (doy : ℕ) : ℕ := (5 * doy + 2) / 153

/-- The day of that month. -/
def dayOfMonth (doy : ℕ) : ℕ := doy - (153 * marchMonth doy + 2) / 5 + 1

/-- The days from March on: the month is one of this year. -/
theorem month_spec {doy : ℕ} (y : ℕ) (h : marchMonth doy < 10) :
    1 ≤ dayOfMonth doy ∧ dayOfMonth doy ≤ monthLength y (marchMonth doy + 3) ∧
      daysBeforeMonth y (marchMonth doy + 3) + (dayOfMonth doy - 1) = 59 + leapDay y + doy := by
  unfold dayOfMonth
  generalize hm : marchMonth doy = mp at h ⊢
  unfold marchMonth at hm
  interval_cases mp <;> simp [daysBeforeMonth, monthLength] <;> omega

/-- January and February: the month is one of the next year. -/
theorem month_spec' {doy : ℕ} (y : ℕ) (h : 10 ≤ marchMonth doy) (hlt : doy < 365 + leapDay y) :
    marchMonth doy - 9 ≤ 2 ∧ 1 ≤ marchMonth doy - 9 ∧ 1 ≤ dayOfMonth doy ∧
      dayOfMonth doy ≤ monthLength y (marchMonth doy - 9) ∧
      daysBeforeMonth y (marchMonth doy - 9) + (dayOfMonth doy - 1) + 306 = doy := by
  have hleap := leapDay_le y
  have hle : marchMonth doy ≤ 11 := by
    unfold marchMonth
    omega
  unfold dayOfMonth
  generalize hm : marchMonth doy = mp at h hle ⊢
  unfold marchMonth at hm
  interval_cases mp <;> simp [daysBeforeMonth, monthLength] <;> omega

/-! ## 3. The date of a day -/

theorem i64_of {x : ℤ} (n : ℕ) (hx : x = n) (hn : n < 2 ^ 63) : i64 x = some (n : ℤ) := by
  rw [hx, i64, if_pos]
  omega

theorem tdiv_nat (n k : ℕ) : (n : ℤ).tdiv k = ((n / k : ℕ) : ℤ) := (Int.ofNat_tdiv n k).symm

theorem marchDay_of_lt {y : ℕ} (hy : y < 400) : marchDay y = 365 * y + y / 4 - y / 100 := by
  unfold marchDay
  omega

theorem yearOfEra_nat {doe : ℕ} (h : doe < 146097) :
    yearOfEra doe = some ((elapsed doe / 365 : ℕ) : ℤ) := by
  have d₁ : (doe : ℤ).tdiv 1460 = ((doe / 1460 : ℕ) : ℤ) := tdiv_nat doe 1460
  have d₂ : (doe : ℤ).tdiv 36524 = ((doe / 36524 : ℕ) : ℤ) := tdiv_nat doe 36524
  have d₃ : (doe : ℤ).tdiv 146096 = ((doe / 146096 : ℕ) : ℤ) := tdiv_nat doe 146096
  rw [yearOfEra, d₁, d₂, d₃, i64_of (doe - doe / 1460) (by omega) (by omega),
    Option.bind_eq_bind, Option.bind_some,
    i64_of (doe - doe / 1460 + doe / 36524) (by omega) (by omega), Option.bind_some,
    i64_of (elapsed doe) (by unfold elapsed; omega) (by unfold elapsed; omega), Option.bind_some]
  exact congrArg some (tdiv_nat (elapsed doe) 365)

theorem dayOfYear_nat {doe y doy : ℕ} (hy : y < 400) (h : marchDay y + doy = doe)
    (hlt : doe < 146097) : dayOfYear doe y = some (doy : ℤ) := by
  have hmarch := marchDay_of_lt hy
  have d₁ : (y : ℤ).tdiv 4 = ((y / 4 : ℕ) : ℤ) := tdiv_nat y 4
  have d₂ : (y : ℤ).tdiv 100 = ((y / 100 : ℕ) : ℤ) := tdiv_nat y 100
  rw [dayOfYear, d₁, d₂, i64_of (365 * y) (by omega) (by omega), Option.bind_eq_bind,
    Option.bind_some, i64_of (365 * y + y / 4) (by omega) (by omega), Option.bind_some,
    i64_of (marchDay y) (by omega) (by omega), Option.bind_some, i64_of doy (by omega) (by omega)]

theorem monthAndDay_nat {doy : ℕ} (h : doy < 366) : monthAndDay doy =
    some (((if marchMonth doy < 10 then marchMonth doy + 3 else marchMonth doy - 9 : ℕ) : ℤ),
      (dayOfMonth doy : ℤ)) := by
  have hmp : marchMonth doy ≤ 11 ∧ (153 * marchMonth doy + 2) / 5 ≤ doy := by
    unfold marchMonth
    omega
  have d₁ : ((5 * doy + 2 : ℕ) : ℤ).tdiv 153 = (marchMonth doy : ℤ) := tdiv_nat (5 * doy + 2) 153
  rw [monthAndDay, i64_of (5 * doy) (by omega) (by omega), Option.bind_eq_bind, Option.bind_some,
    i64_of (5 * doy + 2) (by omega) (by omega), Option.bind_some, d₁]
  have hday : dayOfMonth doy = doy - (153 * marchMonth doy + 2) / 5 + 1 := rfl
  generalize marchMonth doy = mp at hmp hday ⊢
  have d₂ : ((153 * mp + 2 : ℕ) : ℤ).tdiv 5 = (((153 * mp + 2) / 5 : ℕ) : ℤ) :=
    tdiv_nat (153 * mp + 2) 5
  dsimp only
  rw [i64_of (153 * mp) (by omega) (by omega), Option.bind_some,
    i64_of (153 * mp + 2) (by omega) (by omega), Option.bind_some, d₂,
    i64_of (doy - (153 * mp + 2) / 5) (by omega) (by omega), Option.bind_some,
    i64_of (dayOfMonth doy) (by omega) (by omega), Option.bind_some]
  by_cases hm : mp < 10
  · rw [if_pos (by omega), if_pos hm, i64_of (mp + 3) (by omega) (by omega)]
    rfl
  · rw [if_neg (by omega), if_neg hm, i64_of (mp - 9) (by omega) (by omega)]
    rfl

/-- **The source on a day of a March year**: era, year of the era and day of that year are found by
    its divisions. -/
theorem civilFromDays_eq {n era y doy : ℕ} (hn : n < 2 ^ 40) (hy : y < 400)
    (hz : n + 719468 = 146097 * era + (marchDay y + doy)) (hlt : marchDay y + doy < marchDay (y + 1)) :
    civilFromDays n = some (((400 * era + y + if marchMonth doy < 10 then 0 else 1 : ℕ) : ℤ),
      ((if marchMonth doy < 10 then marchMonth doy + 3 else marchMonth doy - 9 : ℕ) : ℤ),
      (dayOfMonth doy : ℤ)) := by
  have hyear := yearOfEra_eq hy (Nat.le_add_right _ doy) hlt
  have hmarch := marchDay_of_lt hy
  have hnext := marchDay_succ y
  have hleap := leapDay_le (y + 1)
  generalize hdoe : marchDay y + doy = doe at hz hlt hyear
  have hbound : doe < 146097 ∧ doy < 366 := by omega
  have hera : ((n + 719468 : ℕ) : ℤ) / 146097 = (era : ℤ) := by omega
  rw [civilFromDays, i64_of (n + 719468) (by omega) (by omega), Option.bind_eq_bind,
    Option.bind_some]
  dsimp only
  rw [hera, i64_of (era * 146097) (by omega) (by omega), Option.bind_some,
    i64_of doe (by omega) (by omega), Option.bind_some, yearOfEra_nat hbound.1, hyear,
    Option.bind_some, dayOfYear_nat hy hdoe hbound.1, Option.bind_some,
    monthAndDay_nat hbound.2, Option.bind_eq_bind, Option.bind_some,
    i64_of (era * 400) (by omega) (by omega), Option.bind_some,
    i64_of (400 * era + y) (by omega) (by omega), Option.bind_some]
  have hmp : marchMonth doy ≤ 11 := by
    unfold marchMonth
    omega
  by_cases hm : marchMonth doy < 10
  · rw [if_pos hm, if_pos hm, if_neg (by omega), i64_of (400 * era + y + 0) (by omega) (by omega)]
    rfl
  · rw [if_neg hm, if_neg hm, if_pos (by omega), i64_of (400 * era + y + 1) (by omega) (by omega)]
    rfl

/-- **The source finds the date of every day**: as many days after the first of January 1970. -/
theorem civilFromDays_spec {n : ℕ} (hn : n < 2 ^ 40) : ∃ d : Date,
    civilFromDays n = some ((d.year : ℤ), (d.month : ℤ), (d.day : ℤ)) ∧
      d.dayNumber = n + 719528 := by
  have hlast : marchDay 400 = 146097 := by decide
  obtain ⟨y, hy, hle, hlt⟩ := exists_marchYear (n := 400) (d := (n + 719468) % 146097)
    (by rw [hlast]; exact Nat.mod_lt _ (by decide))
  obtain ⟨doy, hdoy⟩ := Nat.exists_eq_add_of_le hle
  have hz : n + 719468 = 146097 * ((n + 719468) / 146097) + (marchDay y + doy) := by omega
  generalize (n + 719468) / 146097 = era at hz
  rw [hdoy] at hlt
  have heq := civilFromDays_eq hn hy hz hlt
  have hera := marchDay_era era y
  have hnext := marchDay_succ y
  have hleap := leapDay_era era (y + 1)
  by_cases hm : marchMonth doy < 10
  · obtain ⟨hpos, hday, hmonth⟩ := month_spec (400 * era + y) hm
    have hbefore := daysBefore_march (400 * era + y)
    rw [if_pos hm, if_pos hm] at heq
    refine ⟨⟨400 * era + y, marchMonth doy + 3, dayOfMonth doy, by omega, by omega, hpos, hday⟩,
      heq, ?_⟩
    simp only [Date.dayNumber]
    omega
  · have hlong : doy < 365 + leapDay (400 * era + y + 1) := by
      rw [Nat.add_assoc, hleap]
      omega
    obtain ⟨htwo, hone, hpos, hday, hmonth⟩ := month_spec' (400 * era + y + 1) (by omega) hlong
    have hbefore := daysBefore_march (400 * era + y)
    have hlength := yearLength_eq (400 * era + y)
    rw [if_neg hm, if_neg hm] at heq
    refine ⟨⟨400 * era + y + 1, marchMonth doy - 9, dayOfMonth doy, hone, by omega, hpos, hday⟩,
      heq, ?_⟩
    have hyears : daysBefore (400 * era + y + 1) =
        daysBefore (400 * era + y) + yearLength (400 * era + y) := by rw [daysBefore]
    rw [Date.dayNumber]
    dsimp only
    omega

/-! ## 4. The text of a time -/

/-- The first of January 1970. -/
def epoch : Date where
  year := 1970
  month := 1
  day := 1
  month_pos := by decide
  month_le := by decide
  day_pos := by decide
  day_le := by decide

/-- By the closed form: the years are not counted one by one. -/
theorem epoch_dayNumber : epoch.dayNumber = 719528 := by
  have hbefore := daysBefore_march 1970
  have hleap : leapDay 1970 = 0 := by decide
  have hmarch : marchDay 1970 = 719527 := by decide
  have hmonths : daysBeforeMonth 1970 1 = 0 := by rw [daysBeforeMonth]
  rw [Date.dayNumber, epoch]
  dsimp only
  omega

/-- **The text of a time.** -/
def timeText (t : Time) : String :=
  stamp t.date.year t.date.month t.date.day t.hour t.minute t.second

theorem padded_nat (width n : ℕ) : padded width n =
    List.replicate (width - (Nat.toDigits 10 n).length) '0' ++ Nat.toDigits 10 n := by
  rw [padded, if_neg (Int.not_lt.mpr (Int.natCast_nonneg n))]
  rfl

/-- A padded number is read back. -/
theorem padded_inj {width m n : ℕ} (h : padded width m = padded width n) : m = n := by
  have hread : ∀ k : ℕ, Nat.ofDigitChars 10 (padded width k) 0 = k := by
    intro k
    rw [padded_nat, Nat.ofDigitChars_append, Nat.ofDigitChars_replicate_zero, Nat.mul_zero,
      Nat.ofDigitChars_ten_toDigits]
  rw [← hread m, h, hread n]

/-- Padded numbers hold digits only: no separator. -/
theorem not_mem_padded {width n : ℕ} {c : Char} (hc : c.isDigit = false) :
    c ∉ padded width n := by
  rw [padded_nat, List.mem_append]
  intro h
  rcases h with h | h
  · rw [List.eq_of_mem_replicate h] at hc
    exact absurd hc (by decide)
  · rw [Nat.isDigit_of_mem_toDigits (by decide) (by decide) h] at hc
    exact absurd hc (by decide)

/-- Up to the separator, two texts agree. -/
theorem padded_append_inj {width m n : ℕ} {c : Char} {r r' : List Char} (hc : c.isDigit = false)
    (h : padded width m ++ c :: r = padded width n ++ c :: r') : m = n ∧ r = r' := by
  obtain ⟨hpad, hrest⟩ := append_cons_inj (not_mem_padded hc) (not_mem_padded hc) h
  exact ⟨padded_inj hpad, hrest⟩

/-- **No two times share a text.** -/
theorem timeText_inj {t u : Time} (h : timeText t = timeText u) : t = u := by
  have h₀ := String.ofList_injective h
  obtain ⟨hyear, h₁⟩ := padded_append_inj (by decide) h₀
  obtain ⟨hmonth, h₂⟩ := padded_append_inj (by decide) h₁
  obtain ⟨hday, h₃⟩ := padded_append_inj (by decide) h₂
  obtain ⟨hhour, h₄⟩ := padded_append_inj (by decide) h₃
  obtain ⟨hminute, h₅⟩ := padded_append_inj (by decide) h₄
  obtain ⟨hsecond, -⟩ := padded_append_inj (by decide) h₅
  exact Time.ext (Date.ext hyear hmonth hday) hhour hminute hsecond

/-! ## 5. The source -/

/-- The time of a Unix time. -/
theorem formatUtc_eq (ms : U64) : ∃ t : Time, formatUtc ms = some (timeText t) ∧
    t.date.dayNumber = epoch.dayNumber + ms.val / 86400000 ∧
    t.secondOfDay = ms.val / 1000 % 86400 := by
  have hms := ms.isLt
  have hday : ms.val / 86400000 = ms.val / 1000 / 86400 := by omega
  obtain ⟨d, hd, hnumber⟩ := civilFromDays_spec (n := ms.val / 1000 / 86400) (by omega)
  have hrest : ms.val / 1000 % 86400 < 86400 := Nat.mod_lt _ (by decide)
  refine ⟨⟨d, ms.val / 1000 % 86400 / 3600, ms.val / 1000 % 86400 / 60 % 60,
    ms.val / 1000 % 86400 % 60, by omega, by omega, by omega⟩, ?_, ?_, ?_⟩
  · rw [formatUtc]
    dsimp only
    rw [i64_of _ rfl (by omega), Option.bind_eq_bind, Option.bind_some, hd,
      Option.bind_eq_bind, Option.bind_some]
    rfl
  · rw [hnumber, epoch_dayNumber, hday, Nat.add_comm]
  · rw [Time.secondOfDay]
    dsimp only
    omega

/-- A Unix time in seconds. -/
theorem number_eq {ms : U64} {t : Time} (hd : t.date.dayNumber = epoch.dayNumber + ms.val / 86400000)
    (hs : t.secondOfDay = ms.val / 1000 % 86400) :
    t.number = epoch.dayNumber * 86400 + ms.val / 1000 := by
  rw [Time.number, hd, hs]
  omega

/-- **The text is that of the civil time.** For every `u64`, no operation on `i64` overflows, and
    the text names the day that is as many days after the first of January 1970 as the milliseconds
    hold, and the second of that day. Of two Unix times, the one with the larger second has the
    later time, and only times of one second share a text. -/
theorem formatUtc_civil :
    (∀ ms : U64, ∃ t : Time, formatUtc ms = some (timeText t) ∧
      t.date.dayNumber = epoch.dayNumber + ms.val / 86400000 ∧
      t.secondOfDay = ms.val / 1000 % 86400) ∧
    (∀ (ms ms' : U64) (t t' : Time), formatUtc ms = some (timeText t) →
      formatUtc ms' = some (timeText t') → (ms.val / 1000 < ms'.val / 1000 ↔ t.Before t')) ∧
    ∀ ms ms' : U64, formatUtc ms = formatUtc ms' ↔ ms.val / 1000 = ms'.val / 1000 := by
  -- the text determines the time, and so every time of the text is the one that was found
  have hnumber : ∀ (ms : U64) (t : Time), formatUtc ms = some (timeText t) →
      t.number = epoch.dayNumber * 86400 + ms.val / 1000 := by
    intro ms t ht
    obtain ⟨u, hu, hd, hs⟩ := formatUtc_eq ms
    rw [ht] at hu
    rw [timeText_inj (Option.some.inj hu)]
    exact number_eq hd hs
  refine ⟨formatUtc_eq, ?_, ?_⟩
  · intro ms ms' t t' ht ht'
    rw [← Time.number_lt_iff, hnumber ms t ht, hnumber ms' t' ht', Nat.add_lt_add_iff_left]
  · intro ms ms'
    obtain ⟨t, ht, -⟩ := formatUtc_eq ms
    obtain ⟨t', ht', -⟩ := formatUtc_eq ms'
    have hn := hnumber ms t ht
    have hn' := hnumber ms' t' ht'
    constructor
    · intro h
      rw [ht, ht'] at h
      rw [timeText_inj (Option.some.inj h)] at hn
      omega
    · intro h
      have he : t = t' := Time.number_inj (by rw [hn, hn', h])
      rw [ht, ht', he]

end Sn46Validator.Update
