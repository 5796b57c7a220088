import MatrixCalculator.Number.ExactSum

namespace MatrixCalculator

/-- Entries with the four operations, magnitudes that can be compared, and sums of products that
may leave the range of the numbers. -/
class Arithmetic (α : Type) extends Zero α, One α, Add α, Sub α, Mul α, Div α, Neg α where
  abs : α → α
  below : α → α → Bool
  isZero : α → Bool
  sum? : List α → Option α

instance : Arithmetic Float where
  zero := 0
  one := 1
  abs := Float.abs
  below x y := x < y
  isZero x := x == 0
  sum? := ExactSum.sum?

end MatrixCalculator
