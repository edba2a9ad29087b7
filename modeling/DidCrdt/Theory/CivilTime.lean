import DidCrdt.Core.Delta
import DidCrdt.Library.Calendar

/-!
# Times as text

The date of a time is computed with divisions of machine words: a day is counted from the first of March of
the year zero, in eras of four hundred years, and the year of an era is found with one division, which is
right on the last day of a leap year and of a century as on any other (`yearOfEra_spec`). The conversion is
exact: it gives the civil time of the proleptic Gregorian calendar that counts the same seconds since the
epoch (`secsToCivil_spec`), and none of its operations leaves the 64-bit words (`secsToCivilWords_eq`).
-/

set_option autoImplicit false
set_option relaxedAutoImplicit false

namespace DidCrdt

open Calendar

/-! ### The year of an era -/

/-- A day of an era is in a century, in a span of four years of it, and in a year of that; the last century
of the era and the last year of the span have one day more. -/
structure EraDay (doe century span day year : ℕ) : Prop where
  century_le : century ≤ 3
  span_le : span ≤ 24
  day_lt : day < 1461
  year_le : year ≤ 3
  le_day : 365 * year ≤ day
  day_lt_next : day < 365 * (year + 1) ∨ year = 3
  century_lt : century < 3 → 1461 * span + day < 36524
  doe_eq : doe = 36524 * century + 1461 * span + day

theorem exists_eraDay {doe : ℕ} (h : doe < 146097) :
    ∃ century span day year, EraDay doe century span day year ∧ doe / 36524 = century + doe / 146096 := by
  obtain ⟨century, hcentury⟩ : ∃ century, century = doe / 36524 - doe / 146096 := ⟨_, rfl⟩
  have hdays : 36524 * century ≤ doe ∧ doe - 36524 * century < 36525 ∧
      (century < 3 → doe - 36524 * century < 36524) ∧ century ≤ 3 := by omega
  refine ⟨century, (doe - 36524 * century) / 1461, (doe - 36524 * century) % 1461,
    min ((doe - 36524 * century) % 1461 / 365) 3, ?_, by omega⟩
  constructor <;> omega

/-- The division that finds the year of an era. -/
theorem EraDay.yearOfEra {doe century span day year : ℕ} (hday : EraDay doe century span day year)
    (hdoe : doe / 36524 = century + doe / 146096) :
    (doe - doe / 1460 + doe / 36524 - doe / 146096) / 365 = 100 * century + 4 * span + year := by
  obtain ⟨hcentury, hspan, hlt, hyear, hle, hnext, -, heq⟩ := hday
  -- the days counted too many by the spans are those of the last days of the spans
  obtain ⟨extra, hextra⟩ : ∃ extra, extra = (24 * century + span + day) / 1460 := ⟨_, rfl⟩
  have hspans : doe / 1460 = 25 * century + span + extra := by omega
  have hlast : extra = 0 ∧ day < 1460 ∨ extra = 1 ∧ 1364 ≤ day := by omega
  have hdays : doe - doe / 1460 + doe / 36524 - doe / 146096 =
      36500 * century + 1460 * span + (day - extra) := by
    rw [hspans, hdoe, heq]
    clear hspans hdoe heq hextra
    omega
  rw [hdays, Nat.div_eq_iff (by norm_num)]
  clear hdays hspans hdoe heq hextra
  omega

/-- The year of an era that a day is in starts before the day, and the next one after it. -/
theorem yearOfEra_spec {doe yoe : ℕ} (h : doe < 146097)
    (hyoe : yoe = (doe - doe / 1460 + doe / 36524 - doe / 146096) / 365) :
    yoe < 400 ∧ 365 * yoe + yoe / 4 - yoe / 100 ≤ doe ∧
      doe - (365 * yoe + yoe / 4 - yoe / 100) < 365 + leapDay (yoe + 1) := by
  obtain ⟨century, span, day, year, hday, hdoe⟩ := exists_eraDay h
  rw [hday.yearOfEra hdoe] at hyoe
  obtain ⟨hcentury, hspan, hlt, hyear, hle, hnext, hshort, heq⟩ := hday
  have hfour : yoe / 4 = 25 * century + span := by omega
  have hhundred : yoe / 100 = century := by omega
  have hstart : 365 * yoe + yoe / 4 - yoe / 100 = 36524 * century + 1461 * span + 365 * year := by omega
  refine ⟨by omega, by omega, ?_⟩
  have hleap : year = 3 → day < 1460 + leapDay (yoe + 1) := by
    rintro rfl
    rw [leapDay_eq]
    split_ifs with hnot
    · exact hlt
    · omega
  omega

/-- The leap rule has a period of four hundred years. -/
theorem leapDay_add_eras (year era : ℕ) : leapDay (year + era * 400) = leapDay year := by
  have hfour : (year + era * 400) % 4 = year % 4 := by omega
  have hhundred : (year + era * 400) % 100 = year % 100 := by omega
  rw [leapDay_eq, leapDay_eq, hfour, hhundred, Nat.add_mul_mod_self_right]

theorem leapYears_add_eras {year : ℕ} (h : year < 400) (era : ℕ) :
    leapYears (year + era * 400) = year / 4 - year / 100 + 97 * era := by
  unfold leapYears
  omega

/-! ### The month of a year -/

/-- The month that a day counted from the first of March is in. -/
theorem monthOfYear_spec {doy mp : ℕ} (h : doy < 366) (hmp : mp = (5 * doy + 2) / 153) :
    mp ≤ 11 ∧ (153 * mp + 2) / 5 ≤ doy ∧ doy < (153 * (mp + 1) + 2) / 5 := by
  omega

/-- The days from the first of March to a later month, and to the next first of January. -/
theorem daysBeforeMonth_march (year : ℕ) {mp : ℕ} (h : mp ≤ 10) :
    daysBeforeMonth year (mp + 3) = daysBeforeMonth year 3 + (153 * mp + 2) / 5 := by
  induction mp with
  | zero => rfl
  | succ mp ih =>
    have hlength : (153 * mp + 2) / 5 + monthLength year (mp + 3) = (153 * (mp + 1) + 2) / 5 := by
      have hlt : mp < 10 := h
      interval_cases mp <;> rfl
    rw [Nat.succ_add, daysBeforeMonth_step year (by omega), ih (Nat.le_of_succ_le h), Nat.add_assoc,
      hlength]

/-! ### The civil time -/

/-- The components of a civil time. -/
def civil (c : ℕ × ℕ × ℕ × ℕ × ℕ × ℕ) : Civil :=
  ⟨c.1, c.2.1, c.2.2.1, c.2.2.2.1, c.2.2.2.2.1, c.2.2.2.2.2⟩

/-- The date that a day counted from the first of March of a year is. -/
theorem civil_date {y doy mp : ℕ} (hdoy : doy < 365 + leapDay (y + 1)) (hmp : mp = (5 * doy + 2) / 153) :
    let month := if mp < 10 then mp + 3 else mp - 9
    let year := if month ≤ 2 then y + 1 else y
    let day := doy - (153 * mp + 2) / 5 + 1
    1 ≤ month ∧ month ≤ 12 ∧ 1 ≤ day ∧ day ≤ monthLength year month ∧
      daysBeforeYear year + daysBeforeMonth year month + (day - 1) = 60 + 365 * y + leapYears y + doy := by
  have hleap := leapDay_le_one (y + 1)
  obtain ⟨hle, hstart, hnext⟩ := monthOfYear_spec (by omega) hmp
  have hmarch := daysBeforeMarch_eq y
  clear hmp
  rcases Nat.lt_or_ge mp 10 with hlt | hge
  · have hmonth : ¬ mp + 3 ≤ 2 := by omega
    have hlength : (153 * mp + 2) / 5 + monthLength y (mp + 3) = (153 * (mp + 1) + 2) / 5 := by
      interval_cases mp <;> rfl
    have hdays := daysBeforeMonth_march y hlt.le
    simp only [hlt, hmonth, if_true, if_false]
    omega
  · have hjanuary : daysBeforeYear (y + 1) = daysBeforeYear y + daysBeforeMonth y 3 + 306 := by
      rw [daysBeforeYear_step, ← daysBeforeMonth_thirteen, Nat.add_assoc,
        show 13 = 10 + 3 from rfl, daysBeforeMonth_march y le_rfl]
    obtain rfl | rfl : mp = 10 ∨ mp = 11 := by omega
    · have hdays : daysBeforeMonth (y + 1) 1 = 0 := rfl
      simp only [monthLength, Nat.reduceLT, Nat.reduceSub, Nat.reduceLeDiff, if_true, if_false,
        true_and]
      omega
    · have hdays : daysBeforeMonth (y + 1) 2 = 31 := rfl
      simp only [monthLength, Nat.reduceLT, Nat.reduceSub, Nat.reduceLeDiff, if_true, if_false,
        true_and]
      omega

/-- The start of the epoch. -/
def epoch : Civil := ⟨1970, 1, 1, 0, 0, 0⟩

theorem epoch_seconds : epoch.seconds = 86400 * 719528 := by
  have hyear : daysBeforeYear 1970 = 719528 := daysBeforeYear_succ 1969
  have hmonth : daysBeforeMonth 1970 1 = 0 := rfl
  simp only [Civil.seconds, Civil.days, epoch, hyear, hmonth]

/-- The conversion gives the civil time that counts the seconds since the epoch. -/
theorem secsToCivil_spec (secs : ℕ) :
    (civil (secsToCivil secs)).Valid ∧ (civil (secsToCivil secs)).seconds = epoch.seconds + secs := by
  obtain ⟨era, hera⟩ : ∃ era, era = (secs / 86400 + 719468) / 146097 := ⟨_, rfl⟩
  obtain ⟨doe, hdoe⟩ : ∃ doe, doe = secs / 86400 + 719468 - era * 146097 := ⟨_, rfl⟩
  obtain ⟨yoe, hyoe⟩ : ∃ yoe, yoe = (doe - doe / 1460 + doe / 36524 - doe / 146096) / 365 := ⟨_, rfl⟩
  obtain ⟨doy, hdoy⟩ : ∃ doy, doy = doe - (365 * yoe + yoe / 4 - yoe / 100) := ⟨_, rfl⟩
  have hdoe_lt : doe < 146097 := by omega
  obtain ⟨hyoe_lt, hstart, hday⟩ := yearOfEra_spec hdoe_lt hyoe
  have hleap : doy < 365 + leapDay (yoe + era * 400 + 1) := by
    rw [hdoy, Nat.add_right_comm, leapDay_add_eras]
    exact hday
  obtain ⟨hmonth, hmonth_le, hday_pos, hday_le, hdays⟩ := civil_date hleap rfl
  have hcount : 60 + 365 * (yoe + era * 400) + leapYears (yoe + era * 400) + doy =
      secs / 86400 + 719528 := by
    rw [leapYears_add_eras hyoe_lt]
    omega
  have hcivil : secsToCivil secs = (_, _, _, _, _, _) := rfl
  rw [← hera, ← hdoe, ← hyoe, ← hdoy] at hcivil
  rw [hcivil]
  refine ⟨⟨hmonth, hmonth_le, hday_pos, hday_le, ?_, ?_, ?_⟩, ?_⟩
  · change secs % 86400 / 3600 < 24
    omega
  · change secs % 86400 % 3600 / 60 < 60
    omega
  · change secs % 86400 % 60 < 60
    omega
  · rw [epoch_seconds]
    unfold Civil.seconds Civil.days civil
    dsimp only
    rw [hdays, hcount]
    omega

/-! ### In machine words -/

namespace Word64

/-- Addition of 64-bit words, unless it overflows. -/
def add (a b : ℕ) : Option ℕ := if a + b < 2 ^ 64 then some (a + b) else none

/-- Subtraction of 64-bit words, unless it underflows. -/
def sub (a b : ℕ) : Option ℕ := if b ≤ a then some (a - b) else none

/-- Multiplication of 64-bit words, unless it overflows. -/
def mul (a b : ℕ) : Option ℕ := if a * b < 2 ^ 64 then some (a * b) else none

variable {α : Type} {a b : ℕ} (f : ℕ → Option α)

theorem add_bind (h : a + b < 2 ^ 64) : (add a b >>= f) = f (a + b) := by
  rw [add, if_pos h]
  rfl

theorem sub_bind (h : b ≤ a) : (sub a b >>= f) = f (a - b) := by
  rw [sub, if_pos h]
  rfl

theorem mul_bind (h : a * b < 2 ^ 64) : (mul a b >>= f) = f (a * b) := by
  rw [mul, if_pos h]
  rfl

end Word64

/-- The conversion in 64-bit words, stopping where an operation overflows or underflows. -/
def secsToCivilWords (secs : ℕ) : Option (ℕ × ℕ × ℕ × ℕ × ℕ × ℕ) := do
  let days := secs / 86400
  let time := secs % 86400
  let h := time / 3600
  let mi := (time % 3600) / 60
  let s := time % 60
  let z ← Word64.add days 719468
  let era := z / 146097
  let doe ← Word64.sub z (← Word64.mul era 146097)
  let yoe := (← Word64.sub (← Word64.add (← Word64.sub doe (doe / 1460)) (doe / 36524)) (doe / 146096)) / 365
  let y ← Word64.add yoe (← Word64.mul era 400)
  let doy ← Word64.sub doe
    (← Word64.sub (← Word64.add (← Word64.mul 365 yoe) (yoe / 4)) (yoe / 100))
  let mp := (← Word64.add (← Word64.mul 5 doy) 2) / 153
  let day ← Word64.add (← Word64.sub doy ((← Word64.add (← Word64.mul 153 mp) 2) / 5)) 1
  let month ← (if mp < 10 then Word64.add mp 3 else Word64.sub mp 9 : Option ℕ)
  let year ← (if month ≤ 2 then Word64.add y 1 else some y : Option ℕ)
  some (year, month, day, h, mi, s)

/-- The text of a time in milliseconds, in 64-bit words. -/
def msToIso8601Words (wallMs : U64) : Option String := do
  let secs := wallMs.val / 1000
  let ms := wallMs.val % 1000
  let (y, mo, d, h, mi, s) ← secsToCivilWords secs
  some (s!"{zeroPadded 4 y}-{zeroPadded 2 mo}-{zeroPadded 2 d}T{zeroPadded 2 h}:{zeroPadded 2 mi}:" ++
    s!"{zeroPadded 2 s}.{zeroPadded 3 ms}Z")

/-- No operation of the conversion of a 64-bit number of seconds leaves the words. -/
theorem secsToCivilWords_eq {secs : ℕ} (h : secs < 2 ^ 64) :
    secsToCivilWords secs = some (secsToCivil secs) := by
  obtain ⟨z, hz⟩ : ∃ z, z = secs / 86400 + 719468 := ⟨_, rfl⟩
  obtain ⟨era, hera⟩ : ∃ era, era = z / 146097 := ⟨_, rfl⟩
  obtain ⟨doe, hdoe⟩ : ∃ doe, doe = z - era * 146097 := ⟨_, rfl⟩
  obtain ⟨yoe, hyoe⟩ : ∃ yoe, yoe = (doe - doe / 1460 + doe / 36524 - doe / 146096) / 365 := ⟨_, rfl⟩
  obtain ⟨doy, hdoy⟩ : ∃ doy, doy = doe - (365 * yoe + yoe / 4 - yoe / 100) := ⟨_, rfl⟩
  obtain ⟨mp, hmp⟩ : ∃ mp, mp = (5 * doy + 2) / 153 := ⟨_, rfl⟩
  have hdoe_lt : doe < 146097 := by omega
  obtain ⟨hyoe_lt, hstart, hday⟩ := yearOfEra_spec hdoe_lt hyoe
  have hdoy_lt : doy < 366 := by
    have hleap := leapDay_le_one (yoe + 1)
    omega
  obtain ⟨hmp_le, hmonth, -⟩ := monthOfYear_spec hdoy_lt hmp
  have hcivil : secsToCivil secs = (_, _, _, _, _, _) := rfl
  rw [← hz, ← hera, ← hdoe, ← hyoe, ← hdoy, ← hmp] at hcivil
  rw [hcivil]
  unfold secsToCivilWords
  dsimp only
  rw [Word64.add_bind _ (by omega), ← hz, ← hera, Word64.mul_bind _ (by omega), Word64.sub_bind _ (by omega),
    ← hdoe, Word64.sub_bind _ (by omega), Word64.add_bind _ (by omega), Word64.sub_bind _ (by omega), ← hyoe,
    Word64.mul_bind _ (by omega), Word64.add_bind _ (by omega), Word64.mul_bind _ (by omega),
    Word64.add_bind _ (by omega), Word64.sub_bind _ (by omega), Word64.sub_bind _ (by omega), ← hdoy,
    Word64.mul_bind _ (by omega), Word64.add_bind _ (by omega), ← hmp, Word64.mul_bind _ (by omega),
    Word64.add_bind _ (by omega), Word64.sub_bind _ (by omega), Word64.add_bind _ (by omega)]
  rcases Nat.lt_or_ge mp 10 with hlt | hge
  · have hyear : ¬ mp + 3 ≤ 2 := by omega
    rw [if_pos hlt, Word64.add_bind _ (by omega), if_neg hyear, if_pos hlt, if_neg hyear]
    rfl
  · have hyear : mp - 9 ≤ 2 := by omega
    rw [if_neg hge.not_gt, Word64.sub_bind _ (by omega), if_pos hyear, if_neg hge.not_gt, if_pos hyear,
      Word64.add_bind _ (by omega)]

/-- The text of a time in milliseconds is written without leaving the words. -/
theorem msToIso8601Words_eq (wallMs : U64) : msToIso8601Words wallMs = some (msToIso8601 wallMs) := by
  have hsecs : wallMs.val / 1000 < 2 ^ 64 := (Nat.div_le_self _ _).trans_lt wallMs.isLt
  unfold msToIso8601Words
  dsimp only
  rw [secsToCivilWords_eq hsecs]
  rfl

/-- The text of every time in milliseconds is written without an overflow or underflow, from the civil time of
the proleptic Gregorian calendar that counts its seconds since the epoch; so different seconds have different
civil times, and later ones have later civil times. -/
theorem msToIso8601_civil :
    (∀ wallMs : U64, msToIso8601Words wallMs = some (msToIso8601 wallMs)) ∧
    (∀ secs : U64, secsToCivilWords secs = some (secsToCivil secs) ∧
      (civil (secsToCivil secs)).Valid ∧
      (civil (secsToCivil secs)).seconds - epoch.seconds = secs ∧
      epoch.seconds ≤ (civil (secsToCivil secs)).seconds) ∧
    (∀ secs secs' : U64, secsToCivil secs = secsToCivil secs' → secs = secs') ∧
    ∀ secs secs' : U64, secs < secs' ↔
      (civil (secsToCivil secs)).key < (civil (secsToCivil secs')).key := by
  refine ⟨msToIso8601Words_eq, fun secs ↦ ?_, fun secs secs' heq ↦ ?_, fun secs secs' ↦ ?_⟩
  · obtain ⟨hvalid, hseconds⟩ := secsToCivil_spec secs
    refine ⟨secsToCivilWords_eq secs.isLt, hvalid, ?_, ?_⟩ <;> omega
  · have hseconds := (secsToCivil_spec secs).2
    rw [heq, (secsToCivil_spec secs').2] at hseconds
    exact Fin.ext (Nat.add_left_cancel hseconds).symm
  · obtain ⟨hvalid, hseconds⟩ := secsToCivil_spec secs
    obtain ⟨hvalid', hseconds'⟩ := secsToCivil_spec secs'
    rw [← Civil.seconds_lt_iff hvalid hvalid', hseconds, hseconds', Nat.add_lt_add_iff_left, Fin.lt_def]

end DidCrdt
