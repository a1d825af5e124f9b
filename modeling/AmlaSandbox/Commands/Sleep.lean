import AmlaSandbox.Text.Numbers
import AmlaSandbox.Timer.Basic
import Mathlib.Algebra.BigOperators.Ring.Finset
import Mathlib.Algebra.Order.BigOperators.Group.List
import Mathlib.Data.Rat.Floor

/-!
# sleep

The intervals of the arguments are added up, and the sum is added to the time of the clock. An
interval is any number that fits a double, but a `Duration` has 64 bits of seconds, and the clock
has 64 bits of nanoseconds.
-/

namespace AmlaSandbox.Commands.Sleep

open Library Text Timer

/-! ### Intervals -/

def decimalValue (n : ℕ) (exponent : ℤ) : ℚ := n * 10 ^ exponent.toNat / 10 ^ (-exponent).toNat

/-- The least number that is rounded to an infinity. -/
def f64Limit : ℚ := 2 ^ 1024 - 2 ^ 970

/-- `str::parse::<f64>`, without rounding; the number is `none` where it is infinite or not a
number. A negative number that rounds to zero is not below zero. -/
def parseF64 (s : Text) : Option (Option ℚ) :=
  let body := if s.head? = some '-' ∨ s.head? = some '+' then s.tail else s
  let lower := body.map Char.toLower
  if lower = "inf".toList ∨ lower = "infinity".toList ∨ lower = "nan".toList then some none
  else (parseDecimal body).map fun (n, exponent) =>
    let value := decimalValue n exponent
    if f64Limit ≤ value then none
    else if s.head? = some '-' then some (if value * 2 ^ 1075 ≤ 1 then 0 else -value)
    else some value

/-- The number and the seconds of its unit. -/
def splitUnit (s : Text) : Text × ℚ :=
  match s.getLast? with
  | some 's' => (s.dropLast, 1)
  | some 'm' => (s.dropLast, 60)
  | some 'h' => (s.dropLast, 3600)
  | some 'd' => (s.dropLast, 86400)
  | _ => (s, 1)

/-- The seconds of an interval, if the text is one. -/
def parseSeconds (s : Text) : Option ℚ :=
  let s := trim s
  if s = [] then none
  else
    let (numPart, multiplier) := splitUnit s
    match parseF64 numPart with
    | some (some value) => if value < 0 then none else some (value * multiplier)
    | some none | none => none

/-! ### Durations -/

/-- The nearest integer, where a number between two of them goes to the even one. -/
def roundHalfEven (x : ℚ) : ℤ :=
  if Int.fract x < 1 - Int.fract x ∨ (Int.fract x = 1 - Int.fract x ∧ Even ⌊x⌋) then ⌊x⌋
  else ⌊x⌋ + 1

/-- The nanoseconds of a duration are below this number. -/
def durationLimit : ℕ := 2 ^ 64 * 10 ^ 9

/-- `std::time::Duration`: 64 bits of seconds, and nanoseconds. -/
structure Duration where
  nanos : ℕ
  nanos_lt : nanos < durationLimit
deriving DecidableEq

/-- The nanoseconds nearest to a number of seconds. -/
def nearestNanos (secs : ℚ) : ℕ := (roundHalfEven (secs * 10 ^ 9)).toNat

namespace Duration

def zero : Duration := ⟨0, by decide⟩

/-- `Duration::from_secs_f64`; `none` is a panic. -/
def fromSecsF64 (secs : ℚ) : Option Duration :=
  if h : 0 ≤ secs ∧ nearestNanos secs < durationLimit then some ⟨nearestNanos secs, h.2⟩ else none

/-- `a + b`; `none` is a panic. -/
def add (a b : Duration) : Option Duration :=
  if h : a.nanos + b.nanos < durationLimit then some ⟨a.nanos + b.nanos, h⟩ else none

/-- `duration_to_nanos` -/
def toNanos (d : Duration) : TimeNanos := UInt64.ofNat (min d.nanos (2 ^ 64 - 1))

end Duration

/-! ### The command -/

/-- The command fails with a message, waits for a time, or panics. -/
inductive Outcome
  | failed (message : Text)
  | sleeping (deadline : TimeNanos)
  | panicked
deriving DecidableEq

def missingOperand : Text := "sleep: missing operand".toList

def invalidInterval (arg : Text) : Text := "sleep: invalid time interval '".toList ++ arg ++ ['\'']

/-- `none` is a panic. -/
def parseDuration (s : Text) : Option (Option Duration) :=
  match parseSeconds s with
  | none => some none
  | some totalSecs => (Duration.fromSecsF64 totalSecs).map some

/-- The loop over the arguments. -/
def sumDurations : Duration → List Text → Except Outcome Duration
  | total, [] => .ok total
  | total, arg :: args =>
    match parseDuration arg with
    | none => .error .panicked
    | some none => .error (.failed (invalidInterval arg))
    | some (some dur) =>
      match total.add dur with
      | none => .error .panicked
      | some total => sumDurations total args

/-- `CmdContext::sleep`. The addition panics, or wraps around where overflows are not checked. -/
def sleep (overflowChecks : Bool) (now : TimeNanos) (duration : Duration) : Outcome :=
  if overflowChecks ∧ 2 ^ 64 ≤ now.toNat + duration.toNanos.toNat then .panicked
  else .sleeping (now + duration.toNanos)

def run (overflowChecks : Bool) (now : TimeNanos) (args : List Text) : Outcome :=
  if args = [] then .failed missingOperand
  else
    match sumDurations Duration.zero args with
    | .ok total => sleep overflowChecks now total
    | .error outcome => outcome

/-! ### What should happen -/

/-- The intervals of the arguments before the first that is none. -/
def intervals : List Text → List ℚ
  | [] => []
  | arg :: args =>
    match parseSeconds arg with
    | some secs => secs :: intervals args
    | none => []

/-- All arguments are intervals. -/
def AllIntervals (args : List Text) : Prop := ∀ arg ∈ args, (parseSeconds arg).isSome

/-- The nanoseconds of the intervals, each rounded to a whole number of them. -/
def nearestTotal (args : List Text) : ℕ := ((intervals args).map nearestNanos).sum

/-- The nanoseconds of the intervals, which need not be a whole number. -/
def exactTotal (args : List Text) : ℚ := ((intervals args).map (· * 10 ^ 9)).sum

/-- The command reports an argument that is no interval, or sleeps for the total of the intervals;
times are bounded by the greatest one. -/
def Sleeps (now : TimeNanos) (args : List Text) (total : ℚ) : Outcome → Prop
  | .failed message => (args = [] ∧ message = missingOperand) ∨
    ∃ arg ∈ args, parseSeconds arg = none ∧ message = invalidInterval arg
  | .sleeping deadline => AllIntervals args ∧ min (now.toNat + total) (2 ^ 64 - 1) ≤ deadline.toNat
  | .panicked => False

/-- The total fits a `Duration`, and, where the command sleeps, the clock. -/
def Fits (now : TimeNanos) (args : List Text) : Prop :=
  nearestTotal args < durationLimit ∧
    (AllIntervals args → now = 0 ∨ now.toNat + nearestTotal args < 2 ^ 64)

/-- Where the command sleeps, rounding does not make the sleep shorter. -/
def LosesNothing (now : TimeNanos) (args : List Text) : Prop :=
  AllIntervals args → min (now.toNat + exactTotal args) (2 ^ 64 - 1) ≤
    min (now.toNat + nearestTotal args : ℚ) (2 ^ 64 - 1)

/-! ### Sums -/

variable {arg s : Text} {args : List Text} {secs total : ℚ} {sum d : Duration} {now : TimeNanos}
  {overflowChecks : Bool}

lemma parseSeconds_nonneg (h : parseSeconds s = some secs) : 0 ≤ secs := by
  have hunit : ∀ s : Text, 0 ≤ (splitUnit s).2 := by
    intro s
    rw [splitUnit]
    split <;> simp
  rw [parseSeconds] at h
  simp only at h
  split_ifs at h
  split at h
  · split_ifs at h with hneg
    obtain rfl := Option.some.inj h
    exact mul_nonneg (not_lt.mp hneg) (hunit _)
  · cases h
  · cases h

lemma nearestTotal_of_some (h : parseSeconds arg = some secs) :
    nearestTotal (arg :: args) = nearestNanos secs + nearestTotal args := by
  simp [nearestTotal, intervals, h]

lemma nearestTotal_of_none (h : parseSeconds arg = none) : nearestTotal (arg :: args) = 0 := by
  simp [nearestTotal, intervals, h]

/-- A step of the loop panics where the sum does not fit. -/
lemma sumDurations_of_some (h : parseSeconds arg = some secs) : sumDurations sum (arg :: args) =
    if hfit : sum.nanos + nearestNanos secs < durationLimit then
      sumDurations ⟨sum.nanos + nearestNanos secs, hfit⟩ args
    else .error .panicked := by
  have hnonneg := parseSeconds_nonneg h
  by_cases hlt : nearestNanos secs < durationLimit
  · have hparse : parseDuration arg = some (some ⟨nearestNanos secs, hlt⟩) := by
      simp [parseDuration, h, Duration.fromSecsF64, hnonneg, hlt]
    simp only [sumDurations, hparse, Duration.add]
    split_ifs <;> rfl
  · have hparse : parseDuration arg = none := by
      simp [parseDuration, h, Duration.fromSecsF64, hlt]
    have hnot : ¬ sum.nanos + nearestNanos secs < durationLimit :=
      fun hfit => hlt ((Nat.le_add_left _ _).trans_lt hfit)
    simp only [sumDurations, hparse, dif_neg hnot]

lemma sumDurations_of_none (h : parseSeconds arg = none) :
    sumDurations sum (arg :: args) = .error (.failed (invalidInterval arg)) := by
  have hparse : parseDuration arg = some none := by simp [parseDuration, h]
  simp only [sumDurations, hparse]

/-- Where the total fits, the loop ends with it, or at the first argument that is no interval. -/
lemma sumDurations_of_lt (sum : Duration) (h : sum.nanos + nearestTotal args < durationLimit) :
    (AllIntervals args ∧ sumDurations sum args = .ok ⟨sum.nanos + nearestTotal args, h⟩) ∨
      ∃ arg ∈ args, parseSeconds arg = none ∧
        sumDurations sum args = .error (.failed (invalidInterval arg)) := by
  induction args generalizing sum with
  | nil => exact .inl ⟨by simp [AllIntervals], rfl⟩
  | cons arg args ih =>
    cases hsecs : parseSeconds arg with
    | none => exact .inr ⟨arg, List.mem_cons_self, hsecs, sumDurations_of_none hsecs⟩
    | some secs =>
      have htotal : nearestTotal (arg :: args) = nearestNanos secs + nearestTotal args :=
        nearestTotal_of_some hsecs
      have hrest : sum.nanos + nearestNanos secs + nearestTotal args < durationLimit := by
        rw [htotal] at h
        omega
      rw [sumDurations_of_some hsecs, dif_pos ((Nat.le_add_right _ _).trans_lt hrest)]
      rcases ih ⟨_, (Nat.le_add_right _ _).trans_lt hrest⟩ hrest with
        ⟨hall, hok⟩ | ⟨bad, hmem, hbad, herror⟩
      · refine .inl ⟨?_, ?_⟩
        · rw [AllIntervals, List.forall_mem_cons]
          exact ⟨by simp [hsecs], hall⟩
        · rw [hok]
          congr 2
          rw [htotal, ← Nat.add_assoc]
      · exact .inr ⟨bad, List.mem_cons_of_mem _ hmem, hbad, herror⟩

/-- Where it does not fit, the loop panics. -/
lemma sumDurations_of_not_lt (h : ¬ sum.nanos + nearestTotal args < durationLimit) :
    sumDurations sum args = .error .panicked := by
  induction args generalizing sum with
  | nil => exact absurd sum.nanos_lt h
  | cons arg args ih =>
    cases hsecs : parseSeconds arg with
    | none =>
      rw [nearestTotal_of_none hsecs] at h
      exact absurd sum.nanos_lt h
    | some secs =>
      rw [nearestTotal_of_some hsecs, ← Nat.add_assoc] at h
      rw [sumDurations_of_some hsecs]
      split_ifs with hfit
      · exact ih h
      · rfl

/-! ### The deadline -/

lemma toNat_toNanos (d : Duration) : d.toNanos.toNat = min d.nanos (2 ^ 64 - 1) := by
  rw [Duration.toNanos, UInt64.toNat_ofNat_of_lt']
  exact lt_of_le_of_lt (min_le_right _ _) (by decide)

lemma sleep_of_lt (overflowChecks : Bool) (h : now.toNat + d.toNanos.toNat < 2 ^ 64) :
    sleep overflowChecks now d = .sleeping (now + d.toNanos) ∧
      (now + d.toNanos).toNat = now.toNat + d.toNanos.toNat := by
  refine ⟨if_neg fun hpanic => absurd h (not_lt.mpr hpanic.2), ?_⟩
  rw [UInt64.toNat_add, Nat.mod_eq_of_lt h]

/-- An addition that wraps around ends before the time of the clock. -/
lemma sleep_of_not_lt (overflowChecks : Bool) (h : ¬ now.toNat + d.toNanos.toNat < 2 ^ 64) :
    sleep overflowChecks now d = .panicked ∨
      ∃ deadline, sleep overflowChecks now d = .sleeping deadline ∧ deadline.toNat < now.toNat := by
  rw [sleep]
  split_ifs
  · exact .inl rfl
  · refine .inr ⟨_, rfl, ?_⟩
    have hnow := now.toNat_lt
    have hnanos := d.toNanos.toNat_lt
    rw [UInt64.toNat_add]
    omega

lemma clock_iff : now.toNat + d.toNanos.toNat < 2 ^ 64 ↔
    now = 0 ∨ now.toNat + d.nanos < 2 ^ 64 := by
  have hnow := now.toNat_lt
  rw [toNat_toNanos, ← UInt64.toNat_inj]
  change _ ↔ now.toNat = 0 ∨ _
  omega

/-- The deadline, as a number that is bounded by the greatest time. -/
lemma deadline_eq (h : now.toNat + d.toNanos.toNat < 2 ^ 64) :
    ((now.toNat + d.toNanos.toNat : ℕ) : ℚ) = min (now.toNat + d.nanos : ℚ) (2 ^ 64 - 1) := by
  have hmin : now.toNat + d.toNanos.toNat = min (now.toNat + d.nanos) (2 ^ 64 - 1) := by
    rw [toNat_toNanos] at h ⊢
    omega
  rw [hmin]
  push_cast
  norm_num

lemma toNat_le_min (htotal : 0 ≤ total) :
    (now.toNat : ℚ) ≤ min (now.toNat + total) (2 ^ 64 - 1) := by
  apply le_min
  · exact le_add_of_nonneg_right htotal
  · have hle : now.toNat ≤ 2 ^ 64 - 1 := Nat.le_sub_one_of_lt now.toNat_lt
    have hcast : ((2 ^ 64 - 1 : ℕ) : ℚ) = 2 ^ 64 - 1 := by norm_num
    rw [← hcast]
    exact Nat.cast_le.mpr hle

/-- Where all arguments are intervals and their total fits, the clock decides. -/
lemma sleeps_sleep_iff (hall : AllIntervals args) (htotal : 0 ≤ total)
    (hd : d.nanos = nearestTotal args) :
    Sleeps now args total (sleep overflowChecks now d) ↔
      (now = 0 ∨ now.toNat + nearestTotal args < 2 ^ 64) ∧
        min (now.toNat + total) (2 ^ 64 - 1) ≤
          min (now.toNat + nearestTotal args : ℚ) (2 ^ 64 - 1) := by
  rw [← hd, ← clock_iff]
  by_cases hclock : now.toNat + d.toNanos.toNat < 2 ^ 64
  · obtain ⟨hsleep, hdeadline⟩ := sleep_of_lt overflowChecks hclock
    rw [hsleep, Sleeps, hdeadline, deadline_eq hclock, and_iff_right hall, and_iff_right hclock]
  · refine iff_of_false ?_ fun h => hclock h.1
    rcases sleep_of_not_lt overflowChecks hclock with hpanic | ⟨deadline, hsleep, hlt⟩
    · rw [hpanic]
      exact id
    · rw [hsleep]
      rintro ⟨-, hle⟩
      exact absurd (Nat.cast_le.mp ((toNat_le_min htotal).trans hle)) (not_le.mpr hlt)

/-- For any total that the intervals may have. -/
lemma sleeps_iff (htotal : 0 ≤ total) (hnil : args = [] → total = 0) :
    Sleeps now args total (run overflowChecks now args) ↔
      Fits now args ∧ (AllIntervals args →
        min (now.toNat + total) (2 ^ 64 - 1) ≤
          min (now.toNat + nearestTotal args : ℚ) (2 ^ 64 - 1)) := by
  rw [run]
  split_ifs with hargs
  · subst hargs
    have hzero := hnil rfl
    have hnow := now.toNat_lt
    refine iff_of_true (.inl ⟨rfl, rfl⟩) ⟨⟨by decide, fun _ => .inr hnow⟩, fun _ => ?_⟩
    simp [hzero, nearestTotal, intervals]
  · by_cases hlt : nearestTotal args < durationLimit
    · have hsum : Duration.zero.nanos + nearestTotal args < durationLimit := by
        rwa [Duration.zero, Nat.zero_add]
      rcases sumDurations_of_lt Duration.zero hsum with ⟨hall, hok⟩ | ⟨arg, hmem, hbad, herror⟩
      · rw [hok, sleeps_sleep_iff hall htotal (Nat.zero_add _), Fits, and_iff_right hlt,
          forall_prop_of_true hall, forall_prop_of_true hall]
      · have hnot : ¬ AllIntervals args := fun hall => by simpa [hbad] using hall arg hmem
        rw [herror]
        exact iff_of_true (.inr ⟨arg, hmem, hbad, rfl⟩)
          ⟨⟨hlt, fun hall => absurd hall hnot⟩, fun hall => absurd hall hnot⟩
    · have hpanic : sumDurations Duration.zero args = .error .panicked := by
        apply sumDurations_of_not_lt
        rwa [Duration.zero, Nat.zero_add]
      rw [hpanic]
      exact iff_of_false id fun h => hlt h.1.1

lemma nonneg_of_mem_intervals (h : secs ∈ intervals args) : 0 ≤ secs := by
  induction args with
  | nil => cases h
  | cons arg args ih =>
    cases hsecs : parseSeconds arg with
    | none => simp [intervals, hsecs] at h
    | some head =>
      simp only [intervals, hsecs, List.mem_cons] at h
      rcases h with rfl | h
      · exact parseSeconds_nonneg hsecs
      · exact ih h

lemma exactTotal_nonneg (args : List Text) : 0 ≤ exactTotal args := by
  apply List.sum_nonneg
  intro x hx
  obtain ⟨secs, hmem, rfl⟩ := List.mem_map.mp hx
  exact mul_nonneg (nonneg_of_mem_intervals hmem) (by norm_num)

/-- The command does what it should if and only if the total fits; as for the nanoseconds that the
intervals have before they are rounded, if and only if nothing is lost besides. -/
theorem run_sleeps_iff (overflowChecks : Bool) (now : TimeNanos) (args : List Text) :
    (Sleeps now args (nearestTotal args) (run overflowChecks now args) ↔ Fits now args) ∧
      (Sleeps now args (exactTotal args) (run overflowChecks now args) ↔
        Fits now args ∧ LosesNothing now args) := by
  constructor
  · rw [sleeps_iff (Nat.cast_nonneg _) fun hnil => by rw [hnil]; rfl]
    exact and_iff_left fun _ => le_rfl
  · exact sleeps_iff (exactTotal_nonneg args) fun hnil => by rw [hnil]; rfl

/-- A number of seconds beyond 64 bits, whether overflows are checked or not. -/
theorem not_run_sleeps :
    run true 0 ["1e20".toList] = .panicked ∧ run false 0 ["1e20".toList] = .panicked ∧
      ¬ Sleeps 0 ["1e20".toList] (nearestTotal ["1e20".toList]) (run false 0 ["1e20".toList]) := by
  have hpanic : ∀ checks, run checks 0 ["1e20".toList] = .panicked := by decide +kernel
  refine ⟨hpanic true, hpanic false, ?_⟩
  rw [hpanic false]
  exact id

-- the addition to the clock wraps around: there is no sleep at all
example : run false 1 ["18446744073.709551615".toList] = .sleeping 0 := by decide +kernel

end AmlaSandbox.Commands.Sleep
