import ListPress.Number.Shortest

/-! # Layouts of numbers

How the shortest digits of a number are written down: positionally, or with an exponent. -/

namespace ListPress

/-- The decisions of a number format. -/
structure NumberLayout where
  /-- Leading-digit exponents from `leastPlain` to `mostPlain` are written positionally. -/
  leastPlain : Int
  mostPlain : Int
  /-- Whole numbers written positionally end in `.0`. -/
  keepPoint : Bool
  /-- A negative zero keeps its sign. -/
  signedZero : Bool
  tie : Tie

namespace NumberLayout

def fraction (layout : NumberLayout) (digits : List Char) : List Char :=
  if digits.isEmpty then if layout.keepPoint then ['.', '0'] else [] else '.' :: digits

/-- The decimal `digits * 10^exponent` without an exponent mark. -/
def plain (layout : NumberLayout) (digits : List Char) (exponent : Int) : List Char :=
  if 0 ≤ exponent then
    digits ++ List.replicate exponent.toNat '0' ++ layout.fraction []
  else
    let places := (-exponent).toNat
    if places < digits.length then
      digits.take (digits.length - places) ++
        layout.fraction (digits.drop (digits.length - places))
    else
      '0' :: '.' :: List.replicate (places - digits.length) '0' ++ digits

/-- Scientific notation; the exponent always has a sign. -/
def scientific (digits : List Char) (leading : Int) : List Char :=
  let mantissa := match digits with
    | [] => []
    | [d] => [d]
    | d :: rest => d :: '.' :: rest
  mantissa ++ 'e' :: (if leading < 0 then '-' else '+') :: Nat.toDigits 10 leading.natAbs

def decimal (layout : NumberLayout) (d : Decimal) : List Char :=
  let digits := Nat.toDigits 10 d.digits
  let leading := d.exponent + digits.length - 1
  if layout.leastPlain ≤ leading ∧ leading ≤ layout.mostPlain then
    layout.plain digits d.exponent
  else
    scientific digits leading

/-- The text of a finite number. -/
def finite (layout : NumberLayout) (x : Binary64) : List Char :=
  if x.magnitude = 0 then
    (if x.negative && layout.signedZero then ['-'] else []) ++ '0' :: layout.fraction []
  else
    (if x.negative then ['-'] else []) ++ layout.decimal (x.shortest layout.tie)

end NumberLayout
end ListPress
