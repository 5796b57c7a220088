import MatrixCalculator.Number.Double
import MatrixCalculator.Text.Digit

namespace MatrixCalculator

structure Numeral where
  whole : List Char
  fraction : List Char
  exponent : Int
  deriving DecidableEq, Repr

namespace Numeral

def exponent? : List Char → Option Int
  | [] => some 0
  | mark :: rest =>
    if mark == 'e' || mark == 'E' then
      let (negative, ds) := match rest with
        | '+' :: ds => (false, ds)
        | '-' :: ds => (true, ds)
        | ds => (false, ds)
      if ds.isEmpty || !ds.all Text.isDigit then none
      else some (if negative then -(Text.digitsValue ds : Int) else Text.digitsValue ds)
    else none

/-- Reads a whole text of the form `digits[.[digits]]` or `.digits`, with an optional exponent. -/
def ofChars? (cs : List Char) : Option Numeral := do
  let whole := cs.takeWhile Text.isDigit
  let rest := cs.dropWhile Text.isDigit
  let (fraction, rest) := match rest with
    | '.' :: rest => (rest.takeWhile Text.isDigit, rest.dropWhile Text.isDigit)
    | rest => ([], rest)
  if whole.isEmpty && fraction.isEmpty then none
  else
    let exponent ← exponent? rest
    return ⟨whole, fraction, exponent⟩

def coefficient (n : Numeral) : Nat := Text.digitsValue (n.whole ++ n.fraction)

def unit (n : Numeral) : Int := n.exponent - n.fraction.length

/-- The double nearest to `coefficient · 10 ^ unit`. Numbers of 10 ^ 400 and more are beyond the
largest double, numbers below 10 ^ -400 are nearest to zero. -/
def nearest (coefficient : Nat) (unit : Int) : Float :=
  let size : Int := (Nat.toDigits 10 coefficient).length + unit
  if coefficient = 0 ∨ size < -400 then 0
  else if 400 < size then Double.infinity
  else Float.ofScientific coefficient (unit < 0) unit.natAbs

def value (n : Numeral) : Float := nearest n.coefficient n.unit

end Numeral
end MatrixCalculator
