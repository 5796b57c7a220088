import MatrixCalculator.Value.Operation

namespace MatrixCalculator

/-- What a function does with its arguments and the pivot tolerance. -/
inductive Builtin.Body where
  | one (run : Value → Float → Except Failure Value)
  | two (run : Value → Value → Float → Except Failure Value)
  | three (run : Value → Value → Value → Float → Except Failure Value)

structure Builtin where
  name : String
  help : String
  body : Builtin.Body

namespace Builtin

def Body.arity : Body → Nat
  | .one _ => 1
  | .two _ => 2
  | .three _ => 3

def arity (b : Builtin) : Nat := b.body.arity

def label (name : String) : String := name ++ "()"

def invalid {α : Type} (name reason : String) : Except Failure α :=
  fail (.invalid (label name) reason)

def matrixArg (name : String) : Value → Except Failure (DenseMatrix Float)
  | .matrix m => .ok m
  | .scalar _ => invalid name "expects a matrix"

def numberArg (name : String) (v : Value) : Except Failure Float :=
  match v.number? with
  | some x => .ok x
  | none => invalid name "expects a number"

def indexArg (name : String) (v : Value) : Except Failure Int := do
  match Double.integer? (← numberArg name v) with
  | some i => return i
  | none => invalid name "indices must be integers"

def countArg (name : String) (v : Value) : Except Failure Int := do
  match Double.integer? (← numberArg name v) with
  | some n => if 1 ≤ n then return n else invalid name "expects a positive integer"
  | none => invalid name "expects a positive integer"

def inverse (v : Value) (tolerance : Float) : Except Failure Value :=
  match v with
  | .matrix m => (m.inverse tolerance).map .matrix
  | .scalar _ => Value.div (.scalar 1) v tolerance

def transpose : Value → Value
  | .matrix m => .matrix m.transpose
  | .scalar x => .scalar x

def squareRoot (v : Value) : Except Failure Value := do
  let x ← numberArg "sqrt" v
  if x < 0 then invalid "sqrt" "argument must not be negative"
  else return .scalar (← Checked.sqrt x)

def exponential (v : Value) : Except Failure Value := do
  let x ← numberArg "exp" v
  return .scalar (← Value.reportRange (label "exp") (Checked.exp x))

def logarithm (base v : Value) : Except Failure Value := do
  let b ← numberArg "log" base
  let x ← numberArg "log" v
  if b ≤ 0 || b == 1 || x ≤ 0 then
    invalid "log" "needs a positive base other than 1 and a positive argument"
  else return .scalar (← Checked.logBase x b)

/-- All functions, in the order in which help lists them. -/
def all : List Builtin := [
  { name := "det"
    help := "Calculate the determinant of a square matrix."
    body := .one fun a tolerance => do
      return .scalar (← (← matrixArg "det" a).determinant tolerance) },
  { name := "inv"
    help := "Calculate the inverse of an invertible matrix, or 1/x for a number."
    body := .one inverse },
  { name := "transpose"
    help := "Transpose a matrix."
    body := .one fun a _ => .ok (transpose a) },
  { name := "trace"
    help := "Calculate the trace of a square matrix."
    body := .one fun a _ => do return .scalar (← (← matrixArg "trace" a).trace) },
  { name := "rank"
    help := "Calculate the rank of a matrix."
    body := .one fun a tolerance => do
      return .scalar (← Checked.ofCount (← (← matrixArg "rank" a).rank tolerance)) },
  { name := "rref"
    help := "Calculate the reduced row echelon form of a matrix."
    body := .one fun a tolerance => do
      return .matrix (← (← matrixArg "rref" a).rref tolerance) },
  { name := "solve"
    help := "Usage: solve(A, b). Solve the linear equation A x = b for a unique x."
    body := .two fun a b tolerance => do
      return .matrix (← (← matrixArg "solve" a).solve b.toMatrix tolerance) },
  { name := "nullspace"
    help := "Return a basis of the null space of a matrix as columns, " ++
      "or a zero column if it is \x7b0\x7d."
    body := .one fun a tolerance => do
      return .matrix (← (← matrixArg "nullspace" a).nullspace tolerance) },
  { name := "hcat"
    help := "Usage: hcat(A, B). Place B to the right of A; numbers count as 1x1."
    body := .two fun a b _ => do return .matrix (← a.toMatrix.hcat b.toMatrix) },
  { name := "vcat"
    help := "Usage: vcat(A, B). Place B below A; numbers count as 1x1."
    body := .two fun a b _ => do return .matrix (← a.toMatrix.vcat b.toMatrix) },
  { name := "identity"
    help := "Usage: identity(n). Return the n x n identity matrix."
    body := .one fun n _ => do
      return .matrix (← DenseMatrix.identity? (← countArg "identity" n)) },
  { name := "zeros"
    help := "Usage: zeros(r, c). Return an r x c matrix of zeros."
    body := .two fun r c _ => do
      let rows ← countArg "zeros" r
      let cols ← countArg "zeros" c
      return .matrix (← DenseMatrix.zeros? rows cols) },
  { name := "get"
    help := "Usage: get(m, i, j). Get the (i, j) element of m, counting from 0."
    body := .three fun a i j _ => do
      let m ← matrixArg "get" a
      let row ← indexArg "get" i
      let col ← indexArg "get" j
      return .scalar (← m.get row col) },
  { name := "rows"
    help := "Return the number of rows of a matrix."
    body := .one fun a _ => do
      return .scalar (← Checked.ofCount (← matrixArg "rows" a).rows) },
  { name := "cols"
    help := "Return the number of columns of a matrix."
    body := .one fun a _ => do
      return .scalar (← Checked.ofCount (← matrixArg "cols" a).cols) },
  { name := "abs"
    help := "Absolute value of a number, or of every element of a matrix."
    body := .one fun a _ => .ok (a.map Float.abs) },
  { name := "sqrt"
    help := "Square root of a non-negative number."
    body := .one fun a _ => squareRoot a },
  { name := "exp"
    help := "e raised to a number."
    body := .one fun a _ => exponential a },
  { name := "log"
    help := "Usage: log(b, x). Logarithm of x in base b."
    body := .two fun b x _ => logarithm b x },
  { name := "pow"
    help := "Usage: pow(x, n). Same as x ^ n."
    body := .two fun a b tolerance => a.power b tolerance }]

def find? (name : String) : Option Builtin := all.find? fun b => b.name == name

/-- Applies the function and rejects results that are not finite. -/
def call (b : Builtin) (args : List Value) (tolerance : Float) : Except Failure Value := do
  let result ← match b.body, args with
    | .one run, [x] => run x tolerance
    | .two run, [x, y] => run x y tolerance
    | .three run, [x, y, z] => run x y z tolerance
    | _, _ => fail (.arity b.name b.arity args.length)
  result.checkFinite (label b.name)

def constants : List (String × Float) := [("e", 2.718281828459045), ("pi", 3.141592653589793)]

def helpText : String :=
  let entry (b : Builtin) : List String :=
    let params := ", ".intercalate (["x", "y", "z"].take b.arity)
    [s!"    {b.name}({params})", s!"        {b.help}"]
  let names := ", ".intercalate (constants.map Prod.fst)
  "\n".intercalate
    ("BUILT-IN FUNCTIONS" :: all.flatMap entry ++ ["", "CONSTANTS", s!"    {names}"])

end Builtin
end MatrixCalculator
