import AmlaSandbox.Library.Calendar

/-!
# date

The date of a number of nanoseconds. The code subtracts the lengths of years and then of months,
from 1970 on, until what is left lies within one.
-/

namespace AmlaSandbox.Commands.Date

open Library.Calendar

/-- A number cast to an unsigned type of this width, or counted up in it; `none` where it is out of
range. -/
def fits (bits n : ℕ) : Option ℕ := if n < 2 ^ bits then some n else none

def isLeapYear (year : ℤ) : Bool := (year % 4 = 0 && year % 100 ≠ 0) || year % 400 = 0

def daysInYear (year : ℤ) : ℕ := if isLeapYear year then 366 else 365

lemma daysInYear_pos (year : ℤ) : 0 < daysInYear year := by
  unfold daysInYear
  split_ifs <;> simp

/-- The loop over the years: the days that are left, and the year. `none` is an overflow of the
`i32` that counts the years. -/
def yearLoop (days : ℕ) (year : ℤ) : Option (ℕ × ℤ) :=
  if _h : days < daysInYear year then some (days, year)
  else if year + 1 < 2 ^ 31 then yearLoop (days - daysInYear year) (year + 1)
  else none
termination_by days
decreasing_by
  have hpos := daysInYear_pos year
  exact Nat.sub_lt (hpos.trans_le (not_lt.mp _h)) hpos

/-- The loop over the months: the days that are left, and the month. -/
def monthLoop : List ℕ → ℕ → ℕ → Option (ℕ × ℕ)
  | [], days, month => some (days, month)
  | daysInMonth :: lengths, days, month =>
    if days < daysInMonth then some (days, month)
    else (fits 8 (month + 1)).bind (monthLoop lengths (days - daysInMonth))

def daysInMonths (year : ℤ) : List ℕ :=
  if isLeapYear year then [31, 29, 31, 30, 31, 30, 31, 31, 30, 31, 30, 31]
  else [31, 28, 31, 30, 31, 30, 31, 31, 30, 31, 30, 31]

/-- Year, month, day, hour, minute, second and nanoseconds. -/
def nanosToDate (nanos : UInt64) : Option (ℤ × ℕ × ℕ × ℕ × ℕ × ℕ × ℕ) := do
  let secs := nanos.toNat / 10 ^ 9
  let nanosPart ← fits 32 (nanos.toNat % 10 ^ 9)
  let daySecs ← fits 32 (secs % 86400)
  let hour ← fits 8 (daySecs / 3600)
  let minute ← fits 8 (daySecs % 3600 / 60)
  let second ← fits 8 (daySecs % 60)
  let (days, year) ← yearLoop (secs / 86400) 1970
  let (days, month) ← monthLoop (daysInMonths year) days 1
  let day ← fits 8 (days + 1)
  return (year, month, day, hour, minute, second, nanosPart)

variable {year : ℤ} {lengths : List ℕ}

lemma fits_eq {bits n : ℕ} (h : n < 2 ^ bits) : fits bits n = some n := if_pos h

lemma isLeapYear_iff : isLeapYear year = true ↔ IsLeap year := by
  simp only [isLeapYear, IsLeap, Bool.or_eq_true, Bool.and_eq_true, decide_eq_true_eq]
  omega

lemma daysInYear_eq : daysInYear year = yearLength year := by
  simp only [daysInYear, isLeapYear_iff, yearLength]

lemma daysInMonths_eq : daysInMonths year = monthLengths year := by
  simp only [daysInMonths, isLeapYear_iff, monthLengths]
  split_ifs <;> rfl

/-! ### The loops -/

/-- The days before the year and the days that are left are the days there were. -/
lemma exists_yearLoop (days : ℕ) (year : ℤ) (h : year + days < 2 ^ 31) : ∃ left last,
    yearLoop days year = some (left, last) ∧ left < yearLength last ∧
      daysBeforeYear last + left = daysBeforeYear year + days := by
  induction days using Nat.strong_induction_on generalizing year with
  | _ days ih =>
    have hpos := daysInYear_pos year
    rw [yearLoop]
    by_cases hlt : days < daysInYear year
    · exact ⟨days, year, dif_pos hlt, daysInYear_eq ▸ hlt, rfl⟩
    · have hle := not_lt.mp hlt
      obtain ⟨left, last, hloop, hleft, hsum⟩ :=
        ih (days - daysInYear year) (by omega) (year + 1) (by omega)
      refine ⟨left, last, ?_, hleft, ?_⟩
      · rw [dif_neg hlt, if_pos (by omega), hloop]
      · rw [hsum, daysBeforeYear_succ, ← daysInYear_eq]
        omega

/-- The loop stops in the month of the day. -/
lemma exists_monthLoop (days month : ℕ) (hdays : days < lengths.sum)
    (hmonth : month + lengths.length < 2 ^ 8) :
    ∃ front length back left, lengths = front ++ length :: back ∧ left < length ∧
      front.sum + left = days ∧
        monthLoop lengths days month = some (left, month + front.length) := by
  induction lengths generalizing days month with
  | nil => simp at hdays
  | cons daysInMonth lengths ih =>
    rw [monthLoop]
    by_cases hlt : days < daysInMonth
    · exact ⟨[], daysInMonth, lengths, days, rfl, hlt, by simp, by rw [if_pos hlt]; rfl⟩
    · rw [List.length_cons] at hmonth
      rw [List.sum_cons] at hdays
      obtain ⟨front, length, back, left, rfl, hleft, hsum, hloop⟩ :=
        ih (days - daysInMonth) (month + 1) (by omega) (by omega)
      refine ⟨daysInMonth :: front, length, back, left, rfl, hleft, ?_, ?_⟩
      · rw [List.sum_cons]
        omega
      · rw [if_neg hlt, fits_eq (by omega), Option.bind_some, hloop, List.length_cons]
        congr 2
        omega

/-! ### The date -/

/-- The loops find the date of a number of days. -/
lemma exists_date (days : ℕ) (hdays : days < 2 ^ 30) :
    ∃ (d : Library.Calendar.Date) (left daysLeft : ℕ), yearLoop days 1970 = some (left, d.year) ∧
      monthLoop (daysInMonths d.year) left 1 = some (daysLeft, d.month) ∧ d.day = daysLeft + 1 ∧
      d.dayNumber = daysBeforeYear 1970 + days := by
  obtain ⟨left, year, hyear, hleft, hsum⟩ := exists_yearLoop days 1970 (by omega)
  rw [← sum_monthLengths] at hleft
  obtain ⟨front, length, back, daysLeft, hsplit, hlt, hfront, hmonth⟩ :=
    exists_monthLoop left 1 hleft (by rw [length_monthLengths]; decide)
  have hlength : front.length < 12 := by
    have hlen := length_monthLengths year
    rw [hsplit, List.length_append, List.length_cons] at hlen
    omega
  let d : Library.Calendar.Date :=
    { year
      month := 1 + front.length
      day := daysLeft + 1
      month_pos := Nat.le_add_right 1 _
      month_le := by omega
      day_pos := Nat.le_add_left 1 _
      day_le := by
        rw [hsplit, Nat.add_sub_cancel_left]
        simpa using hlt }
  refine ⟨d, left, daysLeft, hyear, ?_, rfl, ?_⟩
  · rw [daysInMonths_eq]
    exact hmonth
  · have hmonths : daysBeforeMonth year (1 + front.length) = front.sum := by
      rw [daysBeforeMonth, hsplit, Nat.add_sub_cancel_left, List.take_left]
    rw [Date.dayNumber, Date.dayOfYear]
    change daysBeforeYear year + ((daysBeforeMonth year (1 + front.length) + daysLeft : ℕ) : ℤ) = _
    rw [hmonths, hfront, hsum]

/-- Every number of nanoseconds has a date, which is the only one with this number, and nothing is
out of range on the way. -/
theorem nanosToDate_eq (nanos : UInt64) : ∃ d : DateTime,
    nanosToDate nanos =
      some (d.year, d.month, d.day, d.hour, d.minute, d.second, d.nanosecond) ∧
    ∀ e : DateTime, e.nanosSinceEpoch = nanos.toNat ↔ e = d := by
  have hlt := nanos.toNat_lt
  obtain ⟨date, left, daysLeft, hyear, hmonth, hday, hnumber⟩ :=
    exists_date (nanos.toNat / 10 ^ 9 / 86400) (by omega)
  let d : DateTime :=
    { date with
      hour := nanos.toNat / 10 ^ 9 % 86400 / 3600
      minute := nanos.toNat / 10 ^ 9 % 86400 % 3600 / 60
      second := nanos.toNat / 10 ^ 9 % 86400 % 60
      nanosecond := nanos.toNat % 10 ^ 9
      hour_lt := by omega
      minute_lt := by omega
      second_lt := by omega
      nanosecond_lt := by omega }
  have hd : d.nanosSinceEpoch = nanos.toNat := by
    have hdate : d.dayNumber = date.dayNumber := rfl
    rw [DateTime.nanosSinceEpoch, DateTime.secondOfDay, hdate, hnumber]
    simp only [d]
    omega
  refine ⟨d, ?_, fun e => ⟨fun he => DateTime.nanosSinceEpoch_injective (he.trans hd.symm), ?_⟩⟩
  · have hnanos : fits 32 (nanos.toNat % 10 ^ 9) = some d.nanosecond := fits_eq (by omega)
    have hsecs : fits 32 (nanos.toNat / 10 ^ 9 % 86400) = some (nanos.toNat / 10 ^ 9 % 86400) :=
      fits_eq (by omega)
    have hhour : fits 8 (nanos.toNat / 10 ^ 9 % 86400 / 3600) = some d.hour := fits_eq (by omega)
    have hminute : fits 8 (nanos.toNat / 10 ^ 9 % 86400 % 3600 / 60) = some d.minute :=
      fits_eq (by omega)
    have hsecond : fits 8 (nanos.toNat / 10 ^ 9 % 86400 % 60) = some d.second := fits_eq (by omega)
    have hmonthDay : fits 8 (daysLeft + 1) = some d.day := by
      have hle := date.day_le.trans (monthLength_le _ _)
      rw [← hday]
      exact fits_eq (by omega)
    simp only [nanosToDate, Option.bind_eq_bind, hnanos, hsecs, hhour, hminute, hsecond, hyear,
      hmonth, hmonthDay, Option.bind_some]
    rfl
  · rintro rfl
    exact hd

end AmlaSandbox.Commands.Date
