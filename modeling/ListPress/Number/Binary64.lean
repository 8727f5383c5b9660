/-! # Numbers as binary64 bit patterns

A number is held as its IEEE 754 encoding, so that reading, printing and comparing it are exact
arithmetic on natural numbers. Every finite absolute value is a whole multiple of the least positive
one, `2^-1074`; `numerator` and `denominator` give it as a fraction, and `ofRatio` rounds a fraction to
the nearest magnitude, a half going to the even significand. -/

namespace ListPress

def twoPow (n : Nat) : Nat := Nat.pow 2 n

def tenPow (n : Nat) : Nat := Nat.pow 10 n

/-- Round a fraction to the nearest natural number, a half to the even one. -/
def roundHalfEven (num den : Nat) : Nat :=
  let q := num / den
  let r := num % den
  if 2 * r < den then q else if den < 2 * r then q + 1 else q + q % 2

/-- A number, held as the bits of its encoding. -/
structure Binary64 where
  bits : UInt64
deriving DecidableEq, Inhabited

namespace Binary64

def signBit : Nat := 0x8000000000000000

/-- The least normal significand, and the number of magnitudes from a power of two to the next. -/
def hiddenBit : Nat := 0x10000000000000

/-- The magnitude of the infinities. Larger magnitudes are not numbers. -/
def infinityBits : Nat := 0x7FF0000000000000

def ofMagnitude (negative : Bool) (magnitude : Nat) : Binary64 :=
  ⟨UInt64.ofNat (if negative then signBit + magnitude else magnitude)⟩

def negative (x : Binary64) : Bool := signBit ≤ x.bits.toNat

/-- All bits but the sign. Magnitudes are ordered as the absolute values they stand for. -/
def magnitude (x : Binary64) : Nat := x.bits.toNat % signBit

def isNaN (x : Binary64) : Bool := infinityBits < x.magnitude

def isFinite (x : Binary64) : Bool := x.magnitude < infinityBits

/-- Numeric equality: the two zeros are equal, and what is not a number equals nothing. -/
def equal (x y : Binary64) : Bool :=
  !x.isNaN && !y.isNaN && (x.bits == y.bits || x.magnitude == 0 && y.magnitude == 0)

/-! ## Finite magnitudes -/

def significand (x : Binary64) : Nat :=
  if x.magnitude < hiddenBit then x.magnitude else hiddenBit + x.magnitude % hiddenBit

/-- The significand counts steps of `2^shift` times the least positive number. -/
def shift (x : Binary64) : Nat := x.magnitude / hiddenBit - 1

/-- The absolute value is `numerator / denominator`. -/
def numerator (x : Binary64) : Nat := x.significand * twoPow (x.shift - 1074)

def denominator (x : Binary64) : Nat := twoPow (1074 - x.shift)

/-! ## Rounding -/

/-- The number nearest to `num / den`, infinity beyond the largest finite one. -/
def ofRatio (negative : Bool) (num den : Nat) : Binary64 :=
  let scaled := num * twoPow 1074
  let shift := (scaled / den).log2 - 52
  ofMagnitude negative <|
    min (shift * hiddenBit + roundHalfEven scaled (den * twoPow shift)) infinityBits

def ofNat (n : Nat) : Binary64 := ofRatio false n 1

/-- The number nearest to `digits * 10^exponent`. An exponent outside the bounds below rounds to
zero or infinity, and so does the bound. -/
def ofDecimal (negative : Bool) (digits : Nat) (exponent : Int) : Binary64 :=
  let e := max (min exponent 400) (-(401 + digits.log2 : Nat))
  ofRatio negative (digits * tenPow e.toNat) (tenPow (-e).toNat)

/-- The rounded product of two finite numbers' absolute values. -/
def mulAbs (x y : Binary64) : Binary64 :=
  ofRatio false (x.numerator * y.numerator) (x.denominator * y.denominator)

/-- The rounded quotient of two finite numbers' absolute values. -/
def divAbs (x y : Binary64) : Binary64 :=
  ofRatio false (x.numerator * y.denominator) (x.denominator * y.numerator)

end Binary64
end ListPress
