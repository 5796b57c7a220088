import MatrixCalculator.Number.Shortest

namespace MatrixCalculator.Double

def text (style : Decimal.Style) (decimal : Parts → Decimal) (x : Float) : String :=
  match parts? x with
  | some p =>
    let body := Decimal.layout style (decimal p)
    String.ofList (if p.negative then '-' :: body else body)
  | none => if x.isNaN then "nan" else if x < 0 then "-inf" else "inf"

/-- The number of significant digits past which the digits of every double are zeros. -/
def exactDigits : Nat := 767

/-- Text with `max 1 precision` significant digits, a half to the even neighbour, without trailing
zeros. -/
def significantText (precision : Nat) (x : Float) : String :=
  let count := min (max 1 precision) exactDigits
  text ⟨max 1 precision, []⟩ (fun p => Decimal.significant count p.ratio.1 p.ratio.2) x

def shortestText (x : Float) : String := text ⟨16, ['.', '0']⟩ Parts.shortest x

end MatrixCalculator.Double

namespace MatrixCalculator

def defaultPrecision : Nat := 12

def numberText (precision : Nat) (x : Float) : String :=
  Double.significantText precision (if x == 0 then 0 else x)

end MatrixCalculator
