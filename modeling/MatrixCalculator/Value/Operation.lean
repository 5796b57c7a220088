import MatrixCalculator.Language.Operator
import MatrixCalculator.Number.Checked
import MatrixCalculator.Value.Basic

namespace MatrixCalculator.Value

def addSigned (verb : String) (sign : Float) (a b : Value) : Except Failure Value :=
  match a, b with
  | .scalar x, .scalar y => .ok (.scalar (x + sign * y))
  | _, _ =>
    let combined :=
      if (a.shape?.isSome ∧ b.shape?.isSome) ∨ (a.number?.isSome ∧ b.number?.isSome) then
        a.toMatrix.combine? (fun x y => x + sign * y) b.toMatrix
      else none
    match combined with
    | some m => .ok (.matrix m)
    | none => fail (.mismatch verb a.shape? b.shape?)

def mul (a b : Value) : Except Failure Value :=
  match a, b with
  | .scalar x, .scalar y => .ok (.scalar (x * y))
  | .scalar x, .matrix m => .ok (.matrix (m.map fun v => x * v))
  | .matrix m, .scalar y => .ok (.matrix (m.map fun v => v * y))
  | .matrix m, .matrix k =>
    match m.only?, k.only? with
    | some x, none => .ok (.matrix (k.map fun v => x * v))
    | none, some y => .ok (.matrix (m.map fun v => v * y))
    | _, _ => (m.mul k).map .matrix

def divByNumber (a : Value) (y : Float) : Except Failure Value :=
  if y == 0 then fail .divisionByZero else a.mapM fun v => Checked.div v y

/-- Division by a matrix multiplies by its inverse. -/
def div (a b : Value) (tolerance : Float) : Except Failure Value :=
  match b with
  | .scalar y => a.divByNumber y
  | .matrix m =>
    match m.only? with
    | some y => do
      let quotient ← a.divByNumber y
      return .matrix quotient.toMatrix
    | none => do
      let inverse ← m.inverse tolerance
      a.mul (.matrix inverse)

/-- A result out of range is an error, and other faults stay. -/
def reportRange (subject : String) : Except Failure Float → Except Failure Float
  | .error (.fault .mathRange) => fail (DenseMatrix.tooLarge subject)
  | r => r

def numberPower (x y : Float) (pow : Float → Float → Float := Float.pow) : Except Failure Float :=
  if x == 0 && y < 0 then fail .divisionByZero
  else if x < 0 && (Double.integer? y).isNone then
    fail (.invalid "^" "negative base needs an integer exponent")
  else reportRange "^" (Checked.pow x y pow)

def powerByNumber (base : Value) (y tolerance : Float)
    (pow : Float → Float → Float := Float.pow) : Except Failure Value :=
  match base with
  | .scalar x => (numberPower x y pow).map .scalar
  | .matrix m =>
    match m.only?, Double.integer? y with
    | some x, _ => do
      let result ← numberPower x y pow
      return .matrix (DenseMatrix.single result)
    | none, some n => (m.power n tolerance).map .matrix
    | none, none => do
      discard (m.square "raise to a power")
      fail (.invalid "^" "matrix exponent must be an integer")

def power (base exponent : Value) (tolerance : Float)
    (pow : Float → Float → Float := Float.pow) : Except Failure Value :=
  match exponent with
  | .scalar y => base.powerByNumber y tolerance pow
  | .matrix m =>
    match m.only? with
    | some y => do
      let result ← base.powerByNumber y tolerance pow
      return .matrix result.toMatrix
    | none => fail (.invalid "^" "exponent must be a scalar")

def checkFinite (subject : String) (v : Value) : Except Failure Value :=
  if v.isFinite then .ok v else fail (DenseMatrix.tooLarge subject)

def operate (op : BinaryOp) (a b : Value) (tolerance : Float)
    (pow : Float → Float → Float := Float.pow) : Except Failure Value :=
  match op with
  | .add => a.addSigned "add" 1 b
  | .sub => a.addSigned "subtract" (-1) b
  | .mul => a.mul b
  | .div => a.div b tolerance
  | .pow => a.power b tolerance pow

def binary (op : BinaryOp) (a b : Value) (tolerance : Float)
    (pow : Float → Float → Float := Float.pow) : Except Failure Value := do
  let result ← operate op a b tolerance pow
  result.checkFinite op.symbol

def binaryNamed (name : String) (a b : Value) (tolerance : Float) : Except Failure Value :=
  match BinaryOp.ofName? name with
  | some op => binary op a b tolerance
  | none => fault (.unknownOperator name)

end MatrixCalculator.Value
