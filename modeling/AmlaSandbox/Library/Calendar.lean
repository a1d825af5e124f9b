import Mathlib.Algebra.Order.BigOperators.Group.List
import Mathlib.Algebra.Order.Group.Nat
import Mathlib.Algebra.Order.SuccPred
import Mathlib.Data.Int.ConditionallyCompleteOrder
import Mathlib.Data.Int.SuccPred
import Mathlib.Tactic.Common
import Mathlib.Tactic.Ring

/-!
# The Gregorian calendar

The proleptic Gregorian calendar: dates by year, month and day, and the number of days before them.
A number of days is that of one date only, since years and months are blocks of days without gaps.
-/

namespace AmlaSandbox.Library.Calendar

/-! ### Blocks of days -/

/-- What lies in two blocks lies in one. -/
lemma eq_of_between {ι : Type*} [LinearOrder ι] [Add ι] [One ι] [SuccAddOrder ι] {f : ι → ℤ}
    (hf : Monotone f) {i j : ι} {x : ℤ} (hi : f i ≤ x) (hi' : x < f (i + 1)) (hj : f j ≤ x)
    (hj' : x < f (j + 1)) : i = j := by
  rcases lt_trichotomy i j with hlt | heq | hlt
  · have hle := hf (Order.add_one_le_of_lt hlt)
    exact absurd (hi'.trans_le (hle.trans hj)) (lt_irrefl x)
  · exact heq
  · have hle := hf (Order.add_one_le_of_lt hlt)
    exact absurd (hj'.trans_le (hle.trans hi)) (lt_irrefl x)

/-! ### Years -/

def IsLeap (year : ℤ) : Prop := 4 ∣ year ∧ (100 ∣ year → 400 ∣ year)

instance : DecidablePred IsLeap :=
  fun year => inferInstanceAs (Decidable (4 ∣ year ∧ (100 ∣ year → 400 ∣ year)))

def yearLength (year : ℤ) : ℕ := if IsLeap year then 366 else 365

/-- The days from the beginning of the year 1 to the beginning of a year. -/
def daysBeforeYear (year : ℤ) : ℤ :=
  365 * (year - 1) + (year - 1) / 4 - (year - 1) / 100 + (year - 1) / 400

example : daysBeforeYear 1970 = 719162 := rfl

variable {year : ℤ}

lemma daysBeforeYear_succ (year : ℤ) :
    daysBeforeYear (year + 1) = daysBeforeYear year + yearLength year := by
  have hlength : (yearLength year : ℤ) = if IsLeap year then 366 else 365 := by
    simp [yearLength, apply_ite]
  rw [hlength]
  unfold daysBeforeYear IsLeap
  split_ifs with h <;> omega

lemma daysBeforeYear_mono : Monotone daysBeforeYear := by
  apply monotone_int_of_le_succ
  intro year
  rw [daysBeforeYear_succ]
  exact Int.le_add_of_nonneg_right (Int.natCast_nonneg _)

/-! ### Months -/

/-- The lengths of the months of a year. -/
def monthLengths (year : ℤ) : List ℕ :=
  [31, if IsLeap year then 29 else 28, 31, 30, 31, 30, 31, 31, 30, 31, 30, 31]

/-- The days of a year before a month. -/
def daysBeforeMonth (year : ℤ) (month : ℕ) : ℕ := ((monthLengths year).take (month - 1)).sum

lemma sum_monthLengths (year : ℤ) : (monthLengths year).sum = yearLength year := by
  unfold monthLengths yearLength
  split_ifs <;> rfl

lemma length_monthLengths (year : ℤ) : (monthLengths year).length = 12 := rfl

lemma monthLength_le (year : ℤ) (i : ℕ) : (monthLengths year).getD i 0 ≤ 31 := by
  have hall : ∀ n ∈ monthLengths year, n ≤ 31 := by
    unfold monthLengths
    split_ifs <;> decide
  rw [List.getD_eq_getElem?_getD]
  cases hget : (monthLengths year)[i]? with
  | none => exact Nat.zero_le _
  | some n => exact hall n (List.mem_of_getElem? hget)

lemma daysBeforeMonth_mono (year : ℤ) : Monotone fun month => (daysBeforeMonth year month : ℤ) := by
  intro m n hmn
  have hsum := List.monotone_sum_take (monthLengths year) (Nat.sub_le_sub_right hmn 1)
  exact Int.ofNat_le.mpr hsum

lemma daysBeforeMonth_succ {month : ℕ} (hpos : 1 ≤ month) (hle : month ≤ 12) :
    daysBeforeMonth year (month + 1) =
      daysBeforeMonth year month + (monthLengths year).getD (month - 1) 0 := by
  obtain ⟨m, rfl⟩ := Nat.exists_eq_add_of_le' hpos
  have hlt : m < (monthLengths year).length := by
    rw [length_monthLengths]
    exact hle
  simp only [daysBeforeMonth, Nat.add_sub_cancel]
  rw [List.sum_take_succ _ m hlt, List.getD_eq_getElem?_getD, List.getElem?_eq_getElem hlt]
  rfl

/-! ### Dates -/

@[ext]
structure Date where
  year : ℤ
  month : ℕ
  day : ℕ
  month_pos : 1 ≤ month
  month_le : month ≤ 12
  day_pos : 1 ≤ day
  day_le : day ≤ (monthLengths year).getD (month - 1) 0

namespace Date

variable (d : Date)

/-- The day of the year, from 0. -/
def dayOfYear : ℕ := daysBeforeMonth d.year d.month + (d.day - 1)

/-- The days before a date, from the beginning of the year 1. -/
def dayNumber : ℤ := daysBeforeYear d.year + d.dayOfYear

lemma daysBeforeMonth_le : daysBeforeMonth d.year d.month ≤ d.dayOfYear := Nat.le_add_right _ _

lemma dayOfYear_lt_month : d.dayOfYear < daysBeforeMonth d.year (d.month + 1) := by
  have hpos := d.day_pos
  have hle := d.day_le
  rw [daysBeforeMonth_succ d.month_pos d.month_le, dayOfYear]
  omega

lemma dayOfYear_lt : d.dayOfYear < yearLength d.year := by
  have hend : daysBeforeMonth d.year (12 + 1) = yearLength d.year := by
    rw [← sum_monthLengths]
    rfl
  rw [← hend]
  have hmono := daysBeforeMonth_mono d.year (Nat.succ_le_succ d.month_le)
  exact d.dayOfYear_lt_month.trans_le (Int.ofNat_le.mp hmono)

lemma daysBeforeYear_le : daysBeforeYear d.year ≤ d.dayNumber :=
  Int.le_add_of_nonneg_right (Int.natCast_nonneg _)

lemma dayNumber_lt : d.dayNumber < daysBeforeYear (d.year + 1) := by
  rw [daysBeforeYear_succ]
  exact Int.add_lt_add_left (Int.ofNat_lt.mpr d.dayOfYear_lt) _

/-- A number of days is that of one date only. -/
theorem dayNumber_injective : Function.Injective dayNumber := by
  intro d e h
  have hyear : d.year = e.year :=
    eq_of_between daysBeforeYear_mono d.daysBeforeYear_le d.dayNumber_lt (h ▸ e.daysBeforeYear_le)
      (h ▸ e.dayNumber_lt)
  have hday : d.dayOfYear = e.dayOfYear := by
    rw [dayNumber, dayNumber, hyear] at h
    exact Int.ofNat_inj.mp (Int.add_left_cancel h)
  have hmonth : d.month = e.month := by
    apply eq_of_between (daysBeforeMonth_mono d.year) (x := d.dayOfYear)
    · exact Int.ofNat_le.mpr d.daysBeforeMonth_le
    · exact Int.ofNat_lt.mpr d.dayOfYear_lt_month
    · rw [hday, hyear]
      exact Int.ofNat_le.mpr e.daysBeforeMonth_le
    · rw [hday, hyear]
      exact Int.ofNat_lt.mpr e.dayOfYear_lt_month
  have hd := d.day_pos
  have he := e.day_pos
  rw [dayOfYear, dayOfYear, hyear, hmonth] at hday
  exact Date.ext hyear hmonth (by omega)

end Date

/-! ### Dates with a time -/

@[ext]
structure DateTime extends Date where
  hour : ℕ
  minute : ℕ
  second : ℕ
  nanosecond : ℕ
  hour_lt : hour < 24
  minute_lt : minute < 60
  second_lt : second < 60
  nanosecond_lt : nanosecond < 10 ^ 9

namespace DateTime

variable (d : DateTime)

/-- The seconds before the time of a day. -/
def secondOfDay : ℕ := d.hour * 3600 + d.minute * 60 + d.second

/-- The nanoseconds since 1970-01-01 00:00:00. -/
def nanosSinceEpoch : ℤ :=
  ((d.dayNumber - daysBeforeYear 1970) * 86400 + d.secondOfDay) * 10 ^ 9 + d.nanosecond

lemma secondOfDay_lt : d.secondOfDay < 86400 := by
  have hhour := d.hour_lt
  have hminute := d.minute_lt
  have hsecond := d.second_lt
  unfold secondOfDay
  omega

/-- A number of nanoseconds is that of one date and time only. -/
theorem nanosSinceEpoch_injective : Function.Injective nanosSinceEpoch := by
  intro d e h
  have hd := d.nanosecond_lt
  have he := e.nanosecond_lt
  have hseconds : (d.dayNumber - daysBeforeYear 1970) * 86400 + d.secondOfDay =
      (e.dayNumber - daysBeforeYear 1970) * 86400 + e.secondOfDay := by
    unfold nanosSinceEpoch at h
    omega
  have hnanosecond : d.nanosecond = e.nanosecond := by
    rw [nanosSinceEpoch, nanosSinceEpoch, hseconds] at h
    exact Int.ofNat_inj.mp (Int.add_left_cancel h)
  have hday : d.dayNumber = e.dayNumber := by
    have hd := d.secondOfDay_lt
    have he := e.secondOfDay_lt
    omega
  have htime : d.secondOfDay = e.secondOfDay := by
    rw [hday] at hseconds
    exact Int.ofNat_inj.mp (Int.add_left_cancel hseconds)
  have hminute := d.minute_lt
  have hsecond := d.second_lt
  have hminute' := e.minute_lt
  have hsecond' := e.second_lt
  unfold secondOfDay at htime
  have hdate := Date.dayNumber_injective hday
  have hyear := congrArg Date.year hdate
  have hmonth := congrArg Date.month hdate
  have hmday := congrArg Date.day hdate
  exact DateTime.ext hyear hmonth hmday (by omega) (by omega) (by omega) hnanosecond

end DateTime

end AmlaSandbox.Library.Calendar
