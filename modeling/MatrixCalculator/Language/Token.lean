import MatrixCalculator.Number.Text

namespace MatrixCalculator

inductive Symbol where
  | assign
  | leftParen
  | rightParen
  | leftBracket
  | rightBracket
  | comma
  | semicolon
  | plus
  | minus
  | times
  | slash
  | caret
  deriving DecidableEq, Repr

namespace Symbol

def all : List Symbol :=
  [.assign, .leftParen, .rightParen, .leftBracket, .rightBracket, .comma, .semicolon, .plus,
    .minus, .times, .slash, .caret]

def char : Symbol → Char
  | .assign => '='
  | .leftParen => '('
  | .rightParen => ')'
  | .leftBracket => '['
  | .rightBracket => ']'
  | .comma => ','
  | .semicolon => ';'
  | .plus => '+'
  | .minus => '-'
  | .times => '*'
  | .slash => '/'
  | .caret => '^'

def label : Symbol → String
  | .assign => "ASSIGN"
  | .leftParen => "LPAREN"
  | .rightParen => "RPAREN"
  | .leftBracket => "LBRACKET"
  | .rightBracket => "RBRACKET"
  | .comma => "COMMA"
  | .semicolon => "SEMICOLON"
  | .plus => "PLUS"
  | .minus => "MINUS"
  | .times => "MUL"
  | .slash => "DIV"
  | .caret => "CARET"

def text (s : Symbol) : String := String.singleton s.char

def ofChar? (c : Char) : Option Symbol := all.find? fun s => s.char == c

theorem ofChar?_char (s : Symbol) : ofChar? s.char = some s := by
  cases s <;> decide

end Symbol

/-- What a token is. A numeral that writes no finite double is `invalid`; a character that the
language does not use is `unknown`. -/
inductive Kind where
  | number (value : Float)
  | invalid (text : String)
  | name (text : String)
  | symbol (s : Symbol)
  | newline
  | unknown (c : Char)
  | endOfInput

namespace Kind

def label : Kind → String
  | .number _ => "NUMBER"
  | .invalid _ => "INVALID"
  | .name _ => "ID"
  | .symbol s => s.label
  | .newline => "NEWLINE"
  | .unknown _ => "UNKNOWN"
  | .endOfInput => "EOF"

def content : Kind → String
  | .number value => Double.shortestText value
  | .invalid text => text
  | .name text => text
  | .symbol s => s.text
  | .newline => "\n"
  | .unknown c => String.singleton c
  | .endOfInput => "None"

/-- The token as messages name it; numbers with six digits. -/
def describe : Kind → String
  | .number value => s!"number {Double.significantText 6 value}"
  | .name text => s!"identifier '{text}'"
  | .newline => "newline"
  | .endOfInput => "end of input"
  | k => s!"'{k.content}'"

def isNewline : Kind → Bool
  | .newline => true
  | _ => false

/-- Between statements, and between the rows of a matrix. -/
def isSeparator : Kind → Bool
  | .newline => true
  | .symbol .semicolon => true
  | _ => false

def isEnd : Kind → Bool
  | .endOfInput => true
  | _ => false

def isSymbol (s : Symbol) : Kind → Bool
  | .symbol s' => s == s'
  | _ => false

end Kind

structure Token where
  kind : Kind
  line : Nat
  column : Nat

namespace Token

def listing (t : Token) : String :=
  s!"Token({t.kind.label}, {t.kind.content}, line={t.line}, col={t.column})"

end Token
end MatrixCalculator
