import MatrixCalculator.Failure
import MatrixCalculator.Number.Double

namespace MatrixCalculator.Checked

def div (x y : Float) : Except Failure Float :=
  if y == 0 then fault .zeroPivot else .ok (x / y)

def sqrt (x : Float) : Except Failure Float := if x < 0 then fault .mathDomain else .ok x.sqrt

def log (x : Float) : Except Failure Float := if x ≤ 0 then fault .mathDomain else .ok x.log

def logBase (x b : Float) : Except Failure Float := do
  let numerator ← log x
  let denominator ← log b
  div numerator denominator

def exp (x : Float) : Except Failure Float :=
  if x.isFinite && !x.exp.isFinite then fault .mathRange else .ok x.exp

/-- Real powers are those of the machine, unless others are given. Finite numbers have none if the
base is zero and the exponent negative, or the base negative and the exponent no integer. -/
def pow (x y : Float) (machine : Float → Float → Float := Float.pow) : Except Failure Float :=
  if x.isFinite && y.isFinite then
    if (x == 0 && y < 0) || (x < 0 && (Double.integer? y).isNone) then fault .mathDomain
    else if (machine x y).isFinite then .ok (machine x y)
    else fault .mathRange
  else .ok (machine x y)

/-- From here on an integer is rounded to no finite double. -/
@[irreducible] def countLimit : Nat := Nat.pow 2 1024 - Nat.pow 2 970

def ofCount (n : Nat) : Except Failure Float :=
  if countLimit ≤ n then fault .hugeCount else .ok (Float.ofNat n)

end MatrixCalculator.Checked
