import MatrixCalculator.Number.Decimal
import MatrixCalculator.Number.Double

namespace MatrixCalculator.Double

/-- The numbers that round to a double lie between two bounds, which belong to them or not. The
bounds are counted in quarters of the last place. -/
structure Interval where
  low : Nat
  high : Nat
  closed : Bool
  exponent : Int

/-- Below a power of two the doubles are twice as dense. -/
def Parts.interval (p : Parts) : Interval where
  low := if p.mantissa = Nat.pow 2 52 ∧ -1074 < p.exponent then 4 * p.mantissa - 1
    else 4 * p.mantissa - 2
  high := 4 * p.mantissa + 2
  closed := p.mantissa % 2 == 0
  exponent := p.exponent - 2

def Interval.holds (i : Interval) (d : Decimal) : Bool :=
  let (twosUp, twosDown) := (Nat.pow 2 i.exponent.toNat, Nat.pow 2 (-i.exponent).toNat)
  let (tensUp, tensDown) := (Nat.pow 10 d.unit.toNat, Nat.pow 10 (-d.unit).toNat)
  let low := i.low * twosUp * tensDown
  let high := i.high * twosUp * tensDown
  let value := d.coefficient * tensUp * twosDown
  if i.closed then low ≤ value && value ≤ high else low < value && value < high

def Parts.within? (p : Parts) (count : Nat) : Option Decimal :=
  let (num, den) := p.ratio
  let nearest := Decimal.significant count num den
  let (n, d) := Decimal.inUnits nearest.unit num den
  let other := { nearest with coefficient := if nearest.coefficient * d ≤ n then
    nearest.coefficient + 1 else nearest.coefficient - 1 }
  [nearest, other].find? p.interval.holds

def Parts.shortest (p : Parts) : Decimal :=
  if p.mantissa = 0 then ⟨0, 0⟩
  else
    -- Seventeen digits always suffice.
    ((List.range 16).findSome? fun k => p.within? (k + 1)).getD
      (Decimal.significant 17 p.ratio.1 p.ratio.2)

end MatrixCalculator.Double
