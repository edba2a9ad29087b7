import Mathlib.Algebra.BigOperators.Intervals
import Mathlib.Algebra.Order.BigOperators.Group.Finset
import Mathlib.Data.Prod.Lex

/-!
# The proleptic Gregorian calendar

A date is counted in days from the first day of the year zero: the lengths of the years before it, the lengths
of the months before it, and the days before it in its month (`Civil.days`). A civil time is counted in
seconds from there (`Civil.seconds`). The count respects the order of year, month, day, hour, minute and
second (`Civil.seconds_lt`), so it is greater exactly at later civil times (`Civil.seconds_lt_iff`). The days
before a year and before the first of March of a year have closed forms (`daysBeforeYear_succ`,
`daysBeforeMarch_eq`).
-/

set_option autoImplicit false
set_option relaxedAutoImplicit false

namespace Calendar

open Finset

/-! ### Years and months -/

/-- Every fourth year is a leap year, except for the centuries that no multiple of four hundred is. -/
def IsLeap (year : ℕ) : Prop := 4 ∣ year ∧ (¬ 100 ∣ year ∨ 400 ∣ year)

instance (year : ℕ) : Decidable (IsLeap year) := inferInstanceAs (Decidable (_ ∧ _))

/-- One in a leap year, and zero in any other. -/
def leapDay (year : ℕ) : ℕ := if IsLeap year then 1 else 0

def yearLength (year : ℕ) : ℕ := 365 + leapDay year

/-- The length of a month, counted from January as the first. -/
def monthLength (year : ℕ) : ℕ → ℕ
  | 2 => 28 + leapDay year
  | 4 | 6 | 9 | 11 => 30
  | _ => 31

def daysBeforeYear (year : ℕ) : ℕ := ∑ y ∈ range year, yearLength y

def daysBeforeMonth (year month : ℕ) : ℕ := ∑ m ∈ Ico 1 month, monthLength year m

theorem leapDay_le_one (year : ℕ) : leapDay year ≤ 1 := by
  unfold leapDay
  split_ifs <;> omega

/-- The leap rule, for arithmetic. -/
theorem leapDay_eq (year : ℕ) :
    leapDay year = if year % 4 = 0 ∧ (year % 100 ≠ 0 ∨ year % 400 = 0) then 1 else 0 := by
  simp only [leapDay, IsLeap, Nat.dvd_iff_mod_eq_zero, ne_eq]

theorem daysBeforeYear_step (year : ℕ) :
    daysBeforeYear (year + 1) = daysBeforeYear year + yearLength year :=
  Finset.sum_range_succ _ _

theorem daysBeforeMonth_step (year : ℕ) {month : ℕ} (h : 1 ≤ month) :
    daysBeforeMonth year (month + 1) = daysBeforeMonth year month + monthLength year month :=
  Finset.sum_Ico_succ_top h _

theorem daysBeforeYear_mono : Monotone daysBeforeYear := fun _ _ h ↦
  Finset.sum_le_sum_of_subset (Finset.range_subset_range.mpr h)

theorem daysBeforeMonth_mono (year : ℕ) : Monotone (daysBeforeMonth year) := fun _ _ h ↦
  Finset.sum_le_sum_of_subset (Finset.Ico_subset_Ico_right h)

/-- The months of a year make up the year. -/
theorem daysBeforeMonth_thirteen (year : ℕ) : daysBeforeMonth year 13 = yearLength year := by
  simp only [daysBeforeMonth, Finset.sum_Ico_succ_top, Nat.reduceLeDiff, monthLength,
    Finset.Ico_self, Finset.sum_empty, yearLength]
  omega

/-- The number of leap years from the year one to a year: every fourth one, but not every hundredth, but
every four hundredth. -/
def leapYears (year : ℕ) : ℕ := year / 4 - year / 100 + year / 400

theorem leapYears_succ (year : ℕ) : leapYears (year + 1) = leapYears year + leapDay (year + 1) := by
  unfold leapYears
  rw [leapDay_eq]
  split_ifs with hleap <;> omega

/-- The days before a year after the year zero, which is a leap year. -/
theorem daysBeforeYear_succ (year : ℕ) :
    daysBeforeYear (year + 1) = 366 + 365 * year + leapYears year := by
  induction year with
  | zero => rfl
  | succ year ih =>
    rw [daysBeforeYear_step, ih, yearLength, leapYears_succ]
    omega

/-- The days before the first of March of a year. -/
theorem daysBeforeMarch_eq (year : ℕ) :
    daysBeforeYear year + daysBeforeMonth year 3 = 60 + 365 * year + leapYears year := by
  have hmarch : daysBeforeMonth year 3 = 59 + leapDay year := by
    simp only [daysBeforeMonth, Finset.sum_Ico_succ_top, Nat.reduceLeDiff, monthLength,
      Finset.Ico_self, Finset.sum_empty]
    omega
  rw [hmarch]
  cases year with
  | zero => rfl
  | succ year =>
    rw [daysBeforeYear_succ, leapYears_succ]
    omega

/-! ### Civil times -/

/-- A date and a time of day. -/
structure Civil where
  year : ℕ
  month : ℕ
  day : ℕ
  hour : ℕ
  minute : ℕ
  second : ℕ
deriving DecidableEq, Repr

namespace Civil

/-- The month is one of the year, the day is one of the month, and the time is one of the day. -/
structure Valid (c : Civil) : Prop where
  month_pos : 1 ≤ c.month
  month_le : c.month ≤ 12
  day_pos : 1 ≤ c.day
  day_le : c.day ≤ monthLength c.year c.month
  hour_lt : c.hour < 24
  minute_lt : c.minute < 60
  second_lt : c.second < 60

/-- The components in the order in which they are compared. -/
def key (c : Civil) : ℕ ×ₗ ℕ ×ₗ ℕ ×ₗ ℕ ×ₗ ℕ ×ₗ ℕ :=
  toLex (c.year, toLex (c.month, toLex (c.day, toLex (c.hour, toLex (c.minute, c.second)))))

/-- The days from the first day of the year zero to a date. -/
def days (c : Civil) : ℕ :=
  daysBeforeYear c.year + daysBeforeMonth c.year c.month + (c.day - 1)

/-- The seconds from the start of the year zero to a civil time. -/
def seconds (c : Civil) : ℕ := 86400 * c.days + 3600 * c.hour + 60 * c.minute + c.second

theorem key_injective : Function.Injective key := by
  rintro ⟨y, mo, d, h, mi, s⟩ ⟨y', mo', d', h', mi', s'⟩ heq
  simp only [key, toLex_inj, Prod.mk.injEq] at heq
  obtain ⟨rfl, rfl, rfl, rfl, rfl, rfl⟩ := heq
  rfl

/-- The days of a month are over before the next one starts. -/
theorem Valid.days_lt_month {c : Civil} (hc : c.Valid) :
    daysBeforeMonth c.year c.month + (c.day - 1) < daysBeforeMonth c.year (c.month + 1) := by
  have := hc.day_pos
  have := hc.day_le
  rw [daysBeforeMonth_step c.year hc.month_pos]
  omega

/-- The days of a year are over before the next one starts. -/
theorem Valid.days_lt_year {c : Civil} (hc : c.Valid) : c.days < daysBeforeYear (c.year + 1) := by
  have hmonth := hc.days_lt_month
  have hyear : daysBeforeMonth c.year (c.month + 1) ≤ yearLength c.year := by
    rw [← daysBeforeMonth_thirteen]
    exact daysBeforeMonth_mono c.year (Nat.succ_le_succ hc.month_le)
  rw [daysBeforeYear_step, days]
  omega

/-- A later date has a greater count of days. -/
theorem days_lt {c c' : Civil} (hc : c.Valid)
    (h : c.year < c'.year ∨ c.year = c'.year ∧
      (c.month < c'.month ∨ c.month = c'.month ∧ c.day < c'.day)) : c.days < c'.days := by
  rcases h with hyear | ⟨hyear, hmonth | ⟨hmonth, hday⟩⟩
  · calc c.days < daysBeforeYear (c.year + 1) := hc.days_lt_year
      _ ≤ daysBeforeYear c'.year := daysBeforeYear_mono hyear
      _ ≤ c'.days := (Nat.le_add_right _ _).trans (Nat.le_add_right _ _)
  · have hlt := hc.days_lt_month
    have hle : daysBeforeMonth c.year (c.month + 1) ≤ daysBeforeMonth c.year c'.month :=
      daysBeforeMonth_mono c.year hmonth
    unfold days
    rw [← hyear]
    omega
  · have hpos := hc.day_pos
    unfold days
    rw [← hyear, ← hmonth]
    omega

/-- The time of a day is over before the next one starts. -/
theorem Valid.time_lt {c : Civil} (hc : c.Valid) :
    3600 * c.hour + 60 * c.minute + c.second < 86400 := by
  have := hc.hour_lt
  have := hc.minute_lt
  have := hc.second_lt
  omega

/-- A later civil time has a greater count of seconds. -/
theorem seconds_lt {c c' : Civil} (hc : c.Valid) (h : c.key < c'.key) :
    c.seconds < c'.seconds := by
  simp only [key, Prod.Lex.toLex_lt_toLex] at h
  have hdate : c.days < c'.days → c.seconds < c'.seconds := by
    intro hdays
    have htime := hc.time_lt
    unfold seconds
    omega
  rcases h with hyear | ⟨hyear, hmonth | ⟨hmonth, hday | ⟨hday, htime⟩⟩⟩
  · exact hdate (days_lt hc (Or.inl hyear))
  · exact hdate (days_lt hc (Or.inr ⟨hyear, Or.inl hmonth⟩))
  · exact hdate (days_lt hc (Or.inr ⟨hyear, Or.inr ⟨hmonth, hday⟩⟩))
  · have hdays : c.days = c'.days := by
      unfold days
      rw [hyear, hmonth, hday]
    have := hc.minute_lt
    have := hc.second_lt
    unfold seconds
    rw [hdays]
    rcases htime with hhour | ⟨hhour, hminute | ⟨hminute, hsecond⟩⟩ <;> omega

/-- The count of seconds is greater exactly at later civil times. -/
theorem seconds_lt_iff {c c' : Civil} (hc : c.Valid) (hc' : c'.Valid) :
    c.seconds < c'.seconds ↔ c.key < c'.key := by
  refine ⟨fun h ↦ ?_, seconds_lt hc⟩
  by_contra hnot
  rcases (not_lt.mp hnot).lt_or_eq with hlt | heq
  · exact lt_asymm h (seconds_lt hc' hlt)
  · exact h.ne (congrArg seconds (key_injective heq.symm))

end Civil

end Calendar
