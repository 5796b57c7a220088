import MatrixCalculator.Language.Token
import MatrixCalculator.Number.Numeral

namespace MatrixCalculator

namespace Lexeme

def isBlank (c : Char) : Bool := c == ' ' || c == '\t' || c == '\r'

def isWordChar (c : Char) : Bool := c.isAlphanum || c == '_'

/-- What may stand in the tail that spoils a numeral, as in `1.2.3` or `2x`. -/
def isTailChar (c : Char) : Bool := isWordChar c || c == '.'

def isTailStart (c : Char) : Bool := c.isAlpha || c == '_' || c == '.'

def digitsLength (cs : List Char) : Nat := (cs.takeWhile Text.isDigit).length

def mantissaLength (cs : List Char) : Nat :=
  let whole := digitsLength cs
  match cs.drop whole with
  | '.' :: rest =>
    let fraction := digitsLength rest
    if whole + fraction = 0 then 0 else whole + 1 + fraction
  | _ => whole

def exponentLength : List Char → Nat
  | [] => 0
  | mark :: rest =>
    if mark == 'e' || mark == 'E' then
      let sign := match rest with
        | '+' :: _ => 1
        | '-' :: _ => 1
        | _ => 0
      let digits := digitsLength (rest.drop sign)
      if digits = 0 then 0 else 1 + sign + digits
    else 0

def tailLength : List Char → Nat
  | [] => 0
  | c :: rest => if isTailStart c then 1 + (rest.takeWhile isTailChar).length else 0

/-- Length of the numeral at the start, its tail included; zero when no digit stands there. -/
def numeralLength (cs : List Char) : Nat :=
  let mantissa := mantissaLength cs
  if mantissa = 0 then 0
  else
    let body := mantissa + exponentLength (cs.drop mantissa)
    body + tailLength (cs.drop body)

end Lexeme

inductive Piece.Form where
  | numeral
  | word
  | symbol (s : Symbol)
  | newline
  | blank
  | comment
  | unknown
  deriving DecidableEq, Repr

structure Piece where
  form : Piece.Form
  first : Char
  others : List Char
  deriving Repr

namespace Piece

def text (p : Piece) : List Char := p.first :: p.others

/-- The form of the piece that starts with `c`, and how many of the following characters it has. -/
def extent (c : Char) (rest : List Char) : Form × Nat :=
  let numeral := Lexeme.numeralLength (c :: rest)
  if 0 < numeral then (.numeral, numeral - 1)
  else if c.isAlpha then (.word, (rest.takeWhile Lexeme.isWordChar).length)
  else if c == '#' then (.comment, (rest.takeWhile (· != '\n')).length)
  else if c == '\n' then (.newline, 0)
  else if Lexeme.isBlank c then (.blank, (rest.takeWhile Lexeme.isBlank).length)
  else
    match Symbol.ofChar? c with
    | some s => (.symbol s, 0)
    | none => (.unknown, 0)

/-- The pieces of a text, each as long as its form allows. -/
def cut : List Char → List Piece
  | [] => []
  | c :: rest =>
    let (form, count) := extent c rest
    ⟨form, c, rest.take count⟩ :: cut (rest.drop count)
termination_by cs => cs.length
decreasing_by
  rw [List.length_drop, List.length_cons]
  omega

/-- Nothing of the text is lost. -/
theorem flatMap_text_cut (cs : List Char) : (cut cs).flatMap text = cs := by
  induction cs using cut.induct with
  | case1 => simp [cut]
  | case2 c rest form count h ih => simp [cut, h, text, ih]

def numeralKind (cs : List Char) : Kind :=
  match Numeral.ofChars? cs with
  | some n => if n.value.isFinite then .number n.value else .invalid (String.ofList cs)
  | none => .invalid (String.ofList cs)

def kind? (p : Piece) : Option Kind :=
  match p.form with
  | .numeral => some (numeralKind p.text)
  | .word => some (.name (String.ofList p.text))
  | .symbol s => some (.symbol s)
  | .newline => some .newline
  | .unknown => some (.unknown p.first)
  | .blank => none
  | .comment => none

def next (line column : Nat) (p : Piece) : Nat × Nat :=
  if p.form = .newline then (line + 1, 1) else (line, column + p.text.length)

/-- The tokens of the pieces, the first of which starts at the given line and column. -/
def place (line column : Nat) : List Piece → List Token
  | [] => [⟨.endOfInput, line, column⟩]
  | p :: ps =>
    let (line', column') := p.next line column
    match p.kind? with
    | some kind => ⟨kind, line, column⟩ :: place line' column' ps
    | none => place line' column' ps

end Piece

def tokenize (text : String) : List Token := Piece.place 1 1 (Piece.cut text.toList)

end MatrixCalculator
