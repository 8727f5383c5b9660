import ListPress.Number.Binary64

/-! # Number literals

An optional sign, digits with an optional point among them, and an optional exponent. A literal is
read as the number nearest to it, but for exponents far out of range, which stop growing. -/

namespace ListPress
namespace Literal

def isDigit (c : Char) : Bool := '0' ≤ c && c ≤ '9'

def digitValue (c : Char) : Nat := c.toNat - '0'.toNat

def digitsValue (digits : List Char) : Nat :=
  digits.foldl (fun n c => 10 * n + digitValue c) 0

/-- The value of digits in some radix, which stops growing once it has reached a bound. -/
def boundedValue (radix bound : Nat) (digits : List Nat) : Nat :=
  digits.foldl (fun n digit => if bound ≤ n then n else radix * n + digit) 0

/-- Take an optional sign off; `true` is minus. -/
def sign : List Char → Bool × List Char
  | '-' :: cs => (true, cs)
  | '+' :: cs => (false, cs)
  | cs => (false, cs)

theorem sign_rest_le (cs : List Char) : (sign cs).2.length ≤ cs.length := by
  fun_cases sign cs with
  | case1 | case2 => exact Nat.le_succ _
  | case3 => exact Nat.le_refl _

/-! ## Exponents -/

/-- An exponent that has reached this bound stops growing. -/
def exponentBound : Nat := 65536

def exponentValue (negative : Bool) (digits : List Char) : Int :=
  let size := boundedValue 10 exponentBound (digits.map digitValue)
  if negative then -size else size

/-- The exponent part, which ends the literal: nothing, or a mark, a sign and digits. -/
def exponent? : List Char → Option Int
  | [] => some 0
  | c :: cs =>
    let (negative, digits) := sign cs
    if (c = 'e' ∨ c = 'E') ∧ digits ≠ [] ∧ digits.all isDigit then
      some (exponentValue negative digits)
    else none

/-! ## Rounding -/

/-- Of a longer literal these many digits are looked at, and whether one of the others is not zero.
No number half way between two neighbours has as many digits. -/
def maxDigits : Nat := 800

/-- The number nearest to the decimal of some digits and an exponent of ten. -/
def rounded (negative : Bool) (digits : List Char) (exponent : Int) : Binary64 :=
  if digits.length ≤ maxDigits then .ofDecimal negative (digitsValue digits) exponent
  else
    let digits := digits.dropWhile (· == '0')
    let others := digits.drop maxDigits
    let mark := if others.all (· == '0') then 0 else 1
    .ofDecimal negative (10 * digitsValue (digits.take maxDigits) + mark)
      (exponent + others.length - 1)

/-- The point and the digits after it. -/
def fraction : List Char → List Char × List Char
  | '.' :: cs => (cs.takeWhile isDigit, cs.dropWhile isDigit)
  | cs => ([], cs)

/-- Take a point off the front. -/
def point : List Char → List Char
  | '.' :: cs => cs
  | cs => cs

/-- Behind an optional sign and an optional point the text goes on with a digit. Words such as `inf`,
`NaN` and `-` do not look like a number. -/
def looksNumeric (literal : List Char) : Bool :=
  (point (sign literal).2).head?.any isDigit

/-- The number a whole literal stands for. -/
def number? (literal : List Char) : Option Binary64 :=
  let (negative, cs) := sign literal
  let whole := cs.takeWhile isDigit
  let (places, cs) := fraction (cs.dropWhile isDigit)
  if whole = [] ∧ places = [] then none
  else (exponent? cs).map fun e =>
    rounded negative (whole ++ places) (e - places.length)

end Literal
end ListPress
