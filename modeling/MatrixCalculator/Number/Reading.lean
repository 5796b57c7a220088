import MatrixCalculator.Number.Numeral
import MatrixCalculator.Text.Blank

namespace MatrixCalculator.Reading

/-- What may stand around a number: the blanks without the separators. -/
def isMargin (c : Char) : Bool := Text.isBlank c && !Text.isSeparator c

def core (s : String) : List Char := Text.trimChars isMargin s.toList

/-- The text without its underscores, each of which has to stand between two digits. -/
def dropUnderscores? : Bool → List Char → Option (List Char)
  | _, [] => some []
  | afterDigit, '_' :: rest =>
    match rest with
    | c :: _ => if afterDigit && Text.isDigit c then dropUnderscores? false rest else none
    | [] => none
  | _, c :: rest => (dropUnderscores? (Text.isDigit c) rest).map (c :: ·)

def sign : List Char → Bool × List Char
  | '-' :: rest => (true, rest)
  | '+' :: rest => (false, rest)
  | rest => (false, rest)

def digitRun? (cs : List Char) : Option (List Char × List Char) :=
  let run := cs.takeWhile fun c => Text.isDigit c || c == '_'
  (dropUnderscores? false run).map fun ds => (ds, cs.drop run.length)

inductive IntegerText where
  | value (n : Int)
  | tooLong (digits : Nat)
  | unreadable
  deriving DecidableEq, Repr

def maxDigits : Nat := 4300

/-- Digits are counted before it is seen whether anything else follows them. -/
def integer (s : String) : IntegerText :=
  let (negative, cs) := sign (core s)
  match digitRun? cs with
  | some (ds, rest) =>
    if maxDigits < ds.length then .tooLong ds.length
    else if ds.isEmpty || !rest.isEmpty then .unreadable
    else .value (if negative then -(Text.digitsValue ds : Int) else Text.digitsValue ds)
  | none => .unreadable

def magnitude? (cs : List Char) : Option Float :=
  let word := String.ofList (cs.map Char.toLower)
  if word == "inf" || word == "infinity" then some Double.infinity
  else if word == "nan" then some (0 / 0)
  else (Numeral.ofChars? cs).map Numeral.value

def double? (s : String) : Option Float := do
  let (negative, cs) := sign (← dropUnderscores? false (core s))
  let x ← magnitude? cs
  return if negative then -x else x

end MatrixCalculator.Reading
