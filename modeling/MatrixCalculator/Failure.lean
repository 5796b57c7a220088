import MatrixCalculator.Language.Cursor
import MatrixCalculator.Text.Quoted

namespace MatrixCalculator

structure Shape where
  rows : Nat
  cols : Nat
  deriving DecidableEq, Repr

def Shape.text (s : Shape) : String := s!"{s.rows}x{s.cols}"

def shapeText : Option Shape → String
  | some s => s.text
  | none => "scalar"

inductive Cause where
  | unreadable (reason : String) (line column : Option Nat)
  | unbound (name : String)
  | unknownFunction (name : String)
  | mismatch (verb : String) (left right : Option Shape)
  | misfit (message : String)
  | singular (verb : String)
  | notSquare (verb : String) (shape : Option Shape)
  | divisionByZero
  | arity (name : String) (expected got : Nat)
  | invalid (subject reason : String)
  | outOfRange (indices : List Int) (shape : Option Shape)
  | tooDeep
  | general (message : String)
  deriving DecidableEq, Repr

namespace Cause

def kind : Cause → String
  | .unreadable _ _ _ => "SyntaxError"
  | .unbound _ => "UnboundVariable"
  | .unknownFunction _ => "UnknownFunction"
  | .mismatch _ _ _ => "DimensionMismatch"
  | .misfit _ => "DimensionMismatch"
  | .singular _ => "SingularMatrix"
  | .notSquare _ _ => "NotSquare"
  | .divisionByZero => "DivisionByZero"
  | .arity _ _ _ => "ArityMismatch"
  | .invalid _ _ => "InvalidArgument"
  | .outOfRange _ _ => "IndexOutOfRange"
  | .tooDeep => "RecursionError"
  | .general _ => "Error"

def text : Cause → String
  | .unreadable reason (some line) (some column) => s!"{reason} (line {line}, column {column})"
  | .unreadable reason _ _ => reason
  | .unbound name => s!"Undefined variable '{name}'"
  | .unknownFunction name => s!"Unknown function '{name}'"
  | .mismatch verb left right => s!"Can't {verb} {shapeText left} and {shapeText right}"
  | .misfit message => message
  | .singular verb => s!"Can't {verb} a singular matrix"
  | .notSquare verb shape => s!"Can't {verb} a non-square {shapeText shape} matrix"
  | .divisionByZero => "Division by zero"
  | .arity name expected got =>
    let plural := if expected = 1 then "" else "s"
    s!"{name}() expects {expected} argument{plural}, got {got}"
  | .invalid subject reason => s!"{subject}: {reason}"
  | .outOfRange indices shape =>
    let shown := ", ".intercalate (indices.map fun i => toString i)
    s!"Index [{shown}] out of range for {shapeText shape} matrix"
  | .tooDeep => "Expression nested too deeply to evaluate"
  | .general message => message

def ownLine? : Cause → Option Nat
  | .unreadable _ line _ => line
  | _ => none

end Cause

/-- A cause and the line attached to it. -/
structure Error where
  cause : Cause
  attached : Option Nat
  deriving DecidableEq, Repr

namespace Error

def line? (e : Error) : Option Nat := e.cause.ownLine? <|> e.attached

/-- Attaches a line, unless the error has one. -/
def atLine (e : Error) (line : Nat) : Error :=
  if e.line?.isSome then e else { e with attached := some line }

def message (e : Error) : String :=
  match e.attached with
  | some line => s!"{e.cause.text} on line {line}"
  | none => e.cause.text

def report (e : Error) : String := s!"{e.cause.kind}: {e.message}"

end Error

/-- A demand that no statement of the language makes under sound settings. It ends the evaluation
without an answer. -/
inductive Fault where
  | wrongShape (rows cols : Int) (count : Nat)
  | zeroPivot
  | tooManyEntries
  | mathDomain
  | mathRange
  | hugeCount
  | noRows
  | unknownOperator (name : String)
  | malformedNode (listing : String)
  | indexCount (count : Nat)
  | digitCount (precision : Int)
  | unknownOutcome (text : String)
  | nestedEvaluation
  | nestedListing (atOperator : Bool)
  | nullInPath
  | breakdown (b : Breakdown)
  deriving DecidableEq, Repr

def Fault.message : Fault → String
  | .wrongShape rows cols count => s!"Matrix of shape {rows}x{cols} can't hold {count} elements"
  | .zeroPivot => "float division by zero"
  | .tooManyEntries => "cannot fit 'int' into an index-sized integer"
  | .mathDomain => "math domain error"
  | .mathRange => "math range error"
  | .hugeCount => "int too large to convert to float"
  | .noRows => "list index out of range"
  | .unknownOperator name => s!"Unknown binary operator '{name}'"
  | .malformedNode listing => s!"Malformed AST node {listing}"
  | .indexCount 0 => "not enough values to unpack (expected 1, got 0)"
  | .indexCount _ => "too many values to unpack (expected 1)"
  | .digitCount precision =>
    if precision < 0 then "Format specifier missing precision"
    else if precision < Int.pow 2 63 then "precision too big"
    else "Too many decimal digits in format string"
  | .unknownOutcome text => s!"Unknown parse outcome {Text.quoted text}"
  | .nestedEvaluation => "maximum recursion depth exceeded"
  | .nestedListing true => "maximum recursion depth exceeded while calling a Python object"
  | .nestedListing false =>
    "maximum recursion depth exceeded while getting the repr of an object"
  | .nullInPath => "embedded null byte"
  | .breakdown .notOpen => "pop from empty list"
  | .breakdown _ => "list index out of range"

/-- Why an evaluation gave no value. -/
inductive Failure where
  | error (e : Error)
  | fault (f : Fault)
  deriving DecidableEq, Repr

namespace Failure

def atLine (line : Nat) : Failure → Failure
  | .error e => .error (e.atLine line)
  | .fault f => .fault f

end Failure

/-- Fails for a cause whose line is not known yet. -/
def fail {α : Type} (cause : Cause) : Except Failure α := .error (.error ⟨cause, none⟩)

def fault {α : Type} (f : Fault) : Except Failure α := .error (.fault f)

end MatrixCalculator
