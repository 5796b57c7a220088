import MatrixCalculator.Language.Expression
import MatrixCalculator.Language.Piece

namespace MatrixCalculator

inductive Outcome (α : Type) where
  | complete (result : α) (remaining : List Token)
  | incomplete
  | malformed (line column : Nat) (reason : Reason)
  | broken (b : Breakdown)

namespace Reader

/-- A statement over readers for the statement behind a name and for `unary`. -/
def statementOver (statement unary : Reader Node) : Reader Node := do
  expectOperand
  let t ← current
  let assigned := match (← get).peek? 1 with
    | some next => next.kind.isSymbol .assign
    | none => false
  match t.kind, assigned with
  | .name name, true =>
    advance
    discard (eat .assign)
    return .assign name (← statement) t.line
  | _, _ =>
    let node ← expression unary
    if (← current).kind.isSymbol .assign then reject .badTarget
    return node

/-- A statement when so many levels may still be opened. -/
def statement : Nat → Reader Node
  | 0 => nested (reject .tooDeep)
  | levels + 1 => nested (statementOver (statement levels) (unary levels))

/-- Why a statement does not end before a token of this kind; `none` if it does. -/
def trailingReason? : Kind → Option Reason
  | .newline => none
  | .endOfInput => none
  | .symbol .semicolon => none
  | .symbol .rightParen => some (.unmatched .rightParen)
  | .symbol .rightBracket => some (.unmatched .rightBracket)
  | .invalid text => some (.badNumeral text)
  | .unknown c => some (.badCharacter c)
  | kind => some (.trailing kind)

def expectTerminator : Reader Unit := do
  match trailingReason? (← current).kind with
  | some reason => reject reason
  | none => return

def terminatedStatement : Reader Node := do
  let node ← statement maxNesting
  expectTerminator
  return node

end Reader

namespace Cursor

/-- Reads one statement. Where input is wanting the cursor goes back to the start of the statement;
where the text is malformed it stays. -/
def statement (c : Cursor) : Outcome Node × Cursor :=
  match Reader.terminatedStatement c with
  | .ok node c' => (.complete node c'.rest, c')
  | .error .incomplete c' =>
    (.incomplete, { c' with passed := c.passed, rest := c.rest, enclosures := [] })
  | .error (.malformed line column reason) c' => (.malformed line column reason, c')
  | .error (.broken b) c' => (.broken b, c')

def skipSeparators (c : Cursor) : Except Breakdown Cursor :=
  match Reader.skipRun Kind.isSeparator c.passed c.rest with
  | some (passed, rest) => .ok { c with passed, rest }
  | none => .error .pastEnd

/-- The statements up to the end of input, behind `nodes`, which are kept backwards. -/
def programFrom : Nat → List Node → Cursor → Outcome (List Node) × Cursor
  | 0, _, c => (.broken .endless, c)
  | n + 1, nodes, c =>
    match c.skipSeparators with
    | .error b => (.broken b, c)
    | .ok c' =>
      if c'.rest.head?.any (·.kind.isEnd) then (.complete nodes.reverse [], c')
      else
        match c'.statement with
        | (.complete node _, c'') => programFrom n (node :: nodes) c''
        | (.incomplete, c'') => (.incomplete, c'')
        | (.malformed line column reason, c'') => (.malformed line column reason, c'')
        | (.broken b, c'') => (.broken b, c'')

def program (c : Cursor) : Outcome (List Node) × Cursor := programFrom c.rest.length [] c

end Cursor

def parseProgram (tokens : List Token) : Outcome (List Node) :=
  (Cursor.ofTokens tokens).program.1

def parse (text : String) : Outcome (List Node) := parseProgram (tokenize text)

end MatrixCalculator
