import ListPress.Number.Binary64

/-! # The fewest digits that read back

The reals that round to a number form an interval around it, its ends included when the significand
is even. `shortest` looks for the coarsest grid of multiples of a power of ten that has a point in
the interval, and takes the point nearest to the number. -/

namespace ListPress

/-- The value `digits * 10^exponent`. -/
structure Decimal where
  digits : Nat
  exponent : Int
deriving DecidableEq

/-- Which of two equally near grid points is taken. -/
inductive Tie where
  | up
  | toEven
deriving DecidableEq

namespace Binary64

/-! The ends of the interval of reals that round to `x`, times four and the denominator. The gap below
a power of two is half the gap above, but for the least normal number. -/

def lowerEnd (x : Binary64) : Nat :=
  let gap := if x.significand = hiddenBit ∧ 0 < x.shift then 1 else 2
  (4 * x.significand - gap) * twoPow (x.shift - 1074)

def upperEnd (x : Binary64) : Nat := (4 * x.significand + 2) * twoPow (x.shift - 1074)

/-- How a point of the interval of `x` and an end of it are ordered. -/
def inOrder (x : Binary64) (a b : Nat) : Bool :=
  if x.significand % 2 = 0 then a ≤ b else a < b

/-- The multiple of `10^exponent` nearest to `x`, of those that round to `x`. The one just below `x`
has to lie above the lower end, and the one just above `x` below the upper end. -/
def gridPoint? (tie : Tie) (x : Binary64) (exponent : Int) : Option Decimal :=
  let scale := tenPow (-exponent).toNat
  let step := 4 * x.denominator * tenPow exponent.toNat
  let value := 4 * x.numerator * scale
  let digits := value / step
  let below := digits * step
  let above := below + step
  match x.inOrder (x.lowerEnd * scale) below, x.inOrder above (x.upperEnd * scale) with
  | true, true =>
    if 2 * value < below + above then some ⟨digits, exponent⟩
    else if below + above < 2 * value then some ⟨digits + 1, exponent⟩
    else match tie with
      | .up => some ⟨digits + 1, exponent⟩
      | .toEven => some ⟨digits + digits % 2, exponent⟩
  | true, false => some ⟨digits, exponent⟩
  | false, true => some ⟨digits + 1, exponent⟩
  | false, false => none

/-- Try `grids` grids from `10^exponent` down; the exact value reads back when none of them has a
point that does. -/
def searchGrids (tie : Tie) (x : Binary64) : (grids : Nat) → (exponent : Int) → Decimal
  | 0, _ => ⟨x.numerator * Nat.pow 5 (1074 - x.shift), -((1074 - x.shift : Nat) : Int)⟩
  | grids + 1, exponent =>
    match gridPoint? tie x exponent with
    | some decimal => decimal
    | none => searchGrids tie x grids (exponent - 1)

/-- The shortest decimal that reads back as the finite, non-zero number `x`, the nearest one of that
length. The first grid is as coarse as the place of the leading digit of `x`: `1233 / 4096` is just
below `log₁₀ 2`. -/
def shortest (tie : Tie) (x : Binary64) : Decimal :=
  let scale : Int := ((x.significand.log2 + x.shift : Nat) - 1074) * 1233 / 4096
  searchGrids tie x 24 (scale + 1)

end Binary64
end ListPress
