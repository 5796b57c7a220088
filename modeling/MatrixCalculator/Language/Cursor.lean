import MatrixCalculator.Language.Token

namespace MatrixCalculator

/-- Inside round brackets, argument lists and indices newlines mean nothing; inside a matrix they
end a row. -/
inductive Enclosure where
  | round
  | matrix
  deriving DecidableEq, Repr

/-- `passed` tokens lie behind, `rest` starts with the current one. The innermost enclosure comes
first; `depth` counts the statements and unary expressions being read. -/
structure Cursor where
  passed : Nat
  rest : List Token
  enclosures : List Enclosure
  depth : Nat

inductive Reason where
  | expected (wanted : Symbol) (got : Kind)
  | noOperand (got : Kind)
  | rowUnfinished (got : Kind)
  | trailing (got : Kind)
  | badNumeral (text : String)
  | badCharacter (c : Char)
  | unmatched (s : Symbol)
  | emptyMatrix
  | badTarget
  | tooDeep
  | remark (text : String)

def Reason.text : Reason → String
  | .expected wanted got => s!"Expected '{wanted.text}' but got {got.describe}"
  | .noOperand got => s!"Expected an operand but got {got.describe}"
  | .rowUnfinished got => s!"Expected ',', ';' or ']' in matrix but got {got.describe}"
  | .trailing got => s!"Unexpected {got.describe} after expression"
  | .badNumeral text => s!"Invalid number literal '{text}'"
  | .badCharacter c => s!"Unexpected character '{c}'"
  | .unmatched s => s!"Unmatched '{s.text}'"
  | .emptyMatrix => "Empty matrix"
  | .badTarget => "Can only assign to a bare identifier"
  | .tooDeep => "Expression nested too deeply"
  | .remark text => text

/-- What reading never does: go past the last token, close an enclosure that is not open, or go
round a loop without moving. -/
inductive Breakdown where
  | pastEnd
  | notOpen
  | endless
  deriving DecidableEq, Repr

inductive Stop where
  | incomplete
  | malformed (line column : Nat) (reason : Reason)
  | broken (b : Breakdown)

/-- A reader moves the cursor and yields a value, or stops where it stands. -/
abbrev Reader := EStateM Stop Cursor

namespace Cursor

def ofTokens (tokens : List Token) : Cursor := ⟨0, tokens, [], 0⟩

def peek? (c : Cursor) (offset : Nat) : Option Token := c.rest[min offset (c.rest.length - 1)]?

end Cursor

namespace Reader

def broken {α : Type} (b : Breakdown) : Reader α := throw (.broken b)

def current : Reader Token := do
  match (← get).rest with
  | t :: _ => return t
  | [] => broken .pastEnd

def rejectAt {α : Type} (t : Token) (reason : Reason) : Reader α :=
  throw (.malformed t.line t.column reason)

def reject {α : Type} (reason : Reason) : Reader α := do rejectAt (← current) reason

/-- Tokens from the first on that is not of the kinds to skip, and how many lie before them. -/
def skipRun (p : Kind → Bool) : Nat → List Token → Option (Nat × List Token)
  | _, [] => none
  | n, t :: rest => if p t.kind then skipRun p (n + 1) rest else some (n, t :: rest)

def skip (p : Kind → Bool) : Reader Unit := do
  let c ← get
  match skipRun p c.passed c.rest with
  | some (passed, rest) => set { c with passed, rest }
  | none => broken .pastEnd

def advance : Reader Unit := do
  let c ← get
  match c.rest with
  | _ :: next :: rest =>
    set { c with passed := c.passed + 1, rest := next :: rest }
    if c.enclosures.head? = some .round then skip Kind.isNewline
  | _ => broken .pastEnd

def take : Reader Token := do
  let t ← current
  advance
  return t

def eat (s : Symbol) : Reader Token := do
  let t ← current
  if t.kind.isSymbol s then take
  else if t.kind.isEnd then throw .incomplete
  else rejectAt t (.expected s t.kind)

def expectOperand : Reader Unit := do
  skip Kind.isNewline
  if (← current).kind.isEnd then throw .incomplete

def enter (e : Enclosure) : Reader Unit := do
  modify fun c => { c with enclosures := e :: c.enclosures }
  if e = .round then skip Kind.isNewline

def leave : Reader Unit := do
  let c ← get
  match c.enclosures with
  | _ :: outer => set { c with enclosures := outer }
  | [] => broken .notOpen

/-- Reads one level deeper; the level is closed again also when reading stops. -/
def nested {α : Type} (body : Reader α) : Reader α := fun c =>
  match body { c with depth := c.depth + 1 } with
  | .ok a c' => .ok a { c' with depth := c'.depth - 1 }
  | .error stop c' => .error stop { c' with depth := c'.depth - 1 }

/-- As many rounds as a loop can make that consumes a token in each. -/
def rounds : Reader Nat := return (← get).rest.length

end Reader
end MatrixCalculator
