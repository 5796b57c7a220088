namespace MatrixCalculator.Double

structure Parts where
  negative : Bool
  mantissa : Nat
  exponent : Int
  deriving DecidableEq, Repr

/-- The parts of a finite double, with the exponent of its format. -/
def parts? (x : Float) : Option Parts :=
  let bits : Nat := x.toBits.toNat
  let fraction := bits % Nat.pow 2 52
  let biased : Nat := bits / Nat.pow 2 52 % Nat.pow 2 11
  let negative := bits / Nat.pow 2 63 == 1
  if biased = 2047 then none
  else if biased = 0 then some ⟨negative, fraction, -1074⟩
  else some ⟨negative, Nat.pow 2 52 + fraction, biased - 1075⟩

def Parts.ratio (p : Parts) : Nat × Nat :=
  if 0 ≤ p.exponent then (p.mantissa * Nat.pow 2 p.exponent.toNat, 1)
  else (p.mantissa, Nat.pow 2 (-p.exponent).toNat)

def integer? (x : Float) : Option Int := do
  let p ← parts? x
  let (num, den) := p.ratio
  if num % den = 0 then
    some (if p.negative then -(num / den : Nat) else (num / den : Nat))
  else none

def infinity : Float := Float.ofBits 0x7ff0000000000000

end MatrixCalculator.Double
