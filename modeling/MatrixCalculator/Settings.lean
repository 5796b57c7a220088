import MatrixCalculator.Number.Reading
import MatrixCalculator.Text.Quoted
import MatrixCalculator.Value.Basic

namespace MatrixCalculator

/-- At least one digit is shown, and the pivot tolerance is not negative. -/
structure Settings where
  precision : Nat
  tolerance : Float
  debug : Bool
  precision_pos : 0 < precision
  tolerance_nonneg : ¬ tolerance < 0

inductive SettingsError where
  | badInteger (text : String)
  | longInteger (digits : Nat)
  | badNumber (text : String)
  | lowPrecision (n : Int)
  | negativeTolerance (x : Float)

/-- The characters that a complaint about an integer quotes at most, quotation marks included. -/
def maxQuoted : Nat := 200

def SettingsError.message : SettingsError → String
  | .badInteger text =>
    let shown := String.ofList ((Text.quoted text).toList.take maxQuoted)
    s!"invalid literal for int() with base 10: {shown}"
  | .longInteger digits =>
    s!"Exceeds the limit ({Reading.maxDigits} digits) for integer string conversion: value has " ++
      s!"{digits} digits; use sys.set_int_max_str_digits() to increase the limit"
  | .badNumber text => s!"could not convert string to float: {Text.quoted text}"
  | .lowPrecision n => s!"precision must be at least 1, got {n}"
  | .negativeTolerance x => s!"pivot_tolerance must not be negative, got {Double.shortestText x}"

namespace Settings

def make? (precision : Int) (tolerance : Float) (debug : Bool) : Except SettingsError Settings :=
  if hp : precision < 1 then .error (.lowPrecision precision)
  else if ht : tolerance < 0 then .error (.negativeTolerance tolerance)
  else .ok ⟨precision.toNat, tolerance, debug, by omega, ht⟩

theorem defaultTolerance_nonneg : ¬ defaultTolerance < 0 := by decide

def default : Settings := ⟨defaultPrecision, defaultTolerance, false, by decide,
  defaultTolerance_nonneg⟩

def readPrecision (text : String) : Except SettingsError Int :=
  match Reading.integer text with
  | .value n => .ok n
  | .tooLong digits => .error (.longInteger digits)
  | .unreadable => .error (.badInteger text)

def readTolerance (text : String) : Except SettingsError Float :=
  match Reading.double? text with
  | some x => .ok x
  | none => .error (.badNumber text)

def variableNames : List String :=
  ["MATCALC_PRECISION", "MATCALC_PIVOT_TOLERANCE", "MATCALC_DEBUG"]

/-- The settings that variables give; an empty variable counts as not set. -/
def ofVariables (lookup : String → Option String) : Except SettingsError Settings := do
  let text (name : String) : String := (lookup name).getD ""
  let precisionText := text "MATCALC_PRECISION"
  let toleranceText := text "MATCALC_PIVOT_TOLERANCE"
  let precision ←
    if precisionText.isEmpty then pure (defaultPrecision : Int) else readPrecision precisionText
  let tolerance ←
    if toleranceText.isEmpty then pure defaultTolerance else readTolerance toleranceText
  make? precision tolerance (!(text "MATCALC_DEBUG").isEmpty)

end Settings
end MatrixCalculator
