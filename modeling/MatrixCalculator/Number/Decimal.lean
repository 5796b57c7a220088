namespace MatrixCalculator

structure Decimal where
  coefficient : Nat
  unit : Int
  deriving DecidableEq, Repr

namespace Decimal

def digits (d : Decimal) : List Char := Nat.toDigits 10 d.coefficient

def exponent (d : Decimal) : Int := d.unit + d.digits.length - 1

/-- How decimals are written: positionally for exponents from -4 up to `limit`, and with
`wholeMark` after a positional number that has no fraction. -/
structure Style where
  limit : Int
  wholeMark : List Char

def dropTrailingZeros (cs : List Char) : List Char := (cs.reverse.dropWhile (· == '0')).reverse

def positional (wholeMark digits : List Char) (exponent : Int) : List Char :=
  if exponent < 0 then
    '0' :: '.' :: List.replicate (-exponent - 1).toNat '0' ++ digits
  else
    let count := exponent.toNat + 1
    let whole := digits.take count ++ List.replicate (count - digits.length) '0'
    let fraction := digits.drop count
    if fraction.isEmpty then whole ++ wholeMark else whole ++ '.' :: fraction

def exponentDigits (n : Nat) : List Char :=
  if n < 10 then '0' :: Nat.toDigits 10 n else Nat.toDigits 10 n

def scientific (digits : List Char) (exponent : Int) : List Char :=
  let fraction := digits.drop 1
  let mantissa := if fraction.isEmpty then digits else digits.take 1 ++ '.' :: fraction
  let sign := if exponent < 0 then '-' else '+'
  mantissa ++ 'e' :: sign :: exponentDigits exponent.natAbs

def layout (style : Style) (d : Decimal) : List Char :=
  if d.coefficient = 0 then '0' :: style.wholeMark
  else
    let digits := dropTrailingZeros d.digits
    if -4 ≤ d.exponent ∧ d.exponent < style.limit then
      positional style.wholeMark digits d.exponent
    else scientific digits d.exponent

def roundDiv (num den : Nat) : Nat :=
  let quotient := num / den
  let rest := num % den
  if den < 2 * rest ∨ (2 * rest = den ∧ quotient % 2 = 1) then quotient + 1 else quotient

/-- Numerator and denominator of `num / den` counted in units of `10 ^ unit`. -/
def inUnits (unit : Int) (num den : Nat) : Nat × Nat :=
  if 0 ≤ unit then (num, den * Nat.pow 10 unit.toNat) else (num * Nat.pow 10 (-unit).toNat, den)

def leadingExponent (num den : Nat) : Int :=
  let guess : Int := (Nat.toDigits 10 num).length - (Nat.toDigits 10 den).length
  let (n, d) := inUnits guess num den
  if d ≤ n then guess else guess - 1

/-- `num / den` rounded to `count` significant digits, a half to the even neighbour. -/
def significant (count num den : Nat) : Decimal :=
  if num = 0 then ⟨0, 0⟩
  else
    let unit := leadingExponent num den - count + 1
    let (n, d) := inUnits unit num den
    ⟨roundDiv n d, unit⟩

end Decimal
end MatrixCalculator
