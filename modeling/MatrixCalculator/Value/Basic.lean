import MatrixCalculator.Matrix.Dense
import MatrixCalculator.Number.Text

namespace MatrixCalculator

inductive Value where
  | scalar (x : Float)
  | matrix (m : DenseMatrix Float)

/-- A pivot of smaller magnitude counts as zero, unless a session sets another bound. -/
def defaultTolerance : Float := 1e-10

namespace DenseMatrix

def render (precision : Nat) (m : DenseMatrix Float) : String :=
  "[" ++ "; ".intercalate (m.toRows.map fun row =>
    ", ".intercalate (row.map (numberText precision))) ++ "]"

/-- Shape and entries, the entries in the shortest text that reads back. -/
def listing (m : DenseMatrix Float) : String :=
  let entries := ", ".intercalate (m.data.map Double.shortestText)
  s!"Matrix({m.rows}, {m.cols}, [{entries}])"

end DenseMatrix

namespace Value

def shape? : Value → Option Shape
  | .scalar _ => none
  | .matrix m => some m.shape

def toMatrix : Value → DenseMatrix Float
  | .scalar x => DenseMatrix.single x
  | .matrix m => m

/-- The number that the value is or, as a matrix, has as its only entry. -/
def number? : Value → Option Float
  | .scalar x => some x
  | .matrix m => m.only?

def entries : Value → List Float
  | .scalar x => [x]
  | .matrix m => m.data

def isFinite (v : Value) : Bool := v.entries.all Float.isFinite

/-- Whether shapes are the same and entries equal; a number equals a matrix that has it as its only
entry. -/
def equals : Value → Value → Bool
  | .scalar x, b => b.number?.any fun y => x == y
  | .matrix m, .scalar y => m.only?.any fun x => x == y
  | .matrix m, .matrix k => m.shape == k.shape && m.data == k.data

def map (f : Float → Float) : Value → Value
  | .scalar x => .scalar (f x)
  | .matrix m => .matrix (m.map f)

def mapM (f : Float → Except Failure Float) : Value → Except Failure Value
  | .scalar x => (f x).map .scalar
  | .matrix m => (m.mapM f).map .matrix

def neg (v : Value) : Value := v.map fun x => -x

def render (precision : Nat) : Value → String
  | .scalar x => numberText precision x
  | .matrix m => m.render precision

def maxPrecision : Nat := Nat.pow 2 31 - 1

def render? (precision : Int) (v : Value) : Except Fault String :=
  if precision < 0 ∨ maxPrecision < precision then .error (.digitCount precision)
  else .ok (v.render precision.toNat)

end Value
end MatrixCalculator
