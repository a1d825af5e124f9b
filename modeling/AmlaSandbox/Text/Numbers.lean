import AmlaSandbox.Text.Basic
import Mathlib.Algebra.Group.Nat.Defs
import Mathlib.Algebra.Ring.Int.Defs
import Mathlib.Tactic.Common

/-!
# Numbers in decimal notation

What `str::parse` reads, by the type of the number.
-/

namespace AmlaSandbox.Text

/-- The value of decimal digits. -/
def digitsValue (digits : Text) : ℕ := Nat.ofDigitChars 10 digits 0

/-! ### Integers -/

/-- `str::parse::<usize>` -/
def parseUsize (usizeMax : ℕ) (s : Text) : Option ℕ :=
  let digits := if s.head? = some '+' then s.tail else s
  if digits ≠ [] ∧ digits.all Char.isDigit ∧ digitsValue digits ≤ usizeMax then
    some (digitsValue digits)
  else none

/-- `str::parse::<i32>` of digits. -/
def parseI32 (digits : Text) : Option ℕ :=
  if digits ≠ [] ∧ digitsValue digits < 2147483648 then some (digitsValue digits) else none

/-- `str::parse::<i64>`. -/
def parseI64 (s : Text) : Option ℤ :=
  let digits := if s.head? = some '-' ∨ s.head? = some '+' then s.tail else s
  let n : ℤ := if s.head? = some '-' then -digitsValue digits else digitsValue digits
  if digits ≠ [] ∧ digits.all Char.isDigit ∧ -2 ^ 63 ≤ n ∧ n < 2 ^ 63 then some n else none

/-! ### Numbers with a point -/

/-- The exponent of a number, if the text is one. -/
def parseExponent : Text → Option ℤ
  | [] => some 0
  | c :: s =>
    let digits := if s.head? = some '-' ∨ s.head? = some '+' then s.tail else s
    if (c = 'e' ∨ c = 'E') ∧ digits ≠ [] ∧ digits.all Char.isDigit then
      some (if s.head? = some '-' then -digitsValue digits else digitsValue digits)
    else none

/-- The digits of a number without a sign, as one number, and the power of ten they are to be
multiplied with. -/
def parseDecimal (s : Text) : Option (ℕ × ℤ) :=
  let whole := s.takeWhile Char.isDigit
  let behind := s.dropWhile Char.isDigit
  let hasPoint := behind.head? = some '.'
  let fraction := if hasPoint then behind.tail.takeWhile Char.isDigit else []
  let behind := if hasPoint then behind.tail.dropWhile Char.isDigit else behind
  if whole ++ fraction = [] then none
  else (parseExponent behind).map fun exponent =>
    (digitsValue (whole ++ fraction), exponent - fraction.length)

/-- `n / d` in units of `2 ^ (-1074)`, rounded to a binary64 number, ties to even. An infinity is
`2 ^ 2098`, above all finite numbers. -/
def roundQuotient (n d : ℕ) : ℕ :=
  let num := n * 2 ^ 1074
  let step := 2 ^ ((num / d).log2 - 52)
  let q := num / (d * step)
  let r := num % (d * step)
  let q := if d * step < 2 * r ∨ (d * step = 2 * r ∧ q % 2 = 1) then q + 1 else q
  min (q * step) (2 ^ 2098)

end AmlaSandbox.Text
