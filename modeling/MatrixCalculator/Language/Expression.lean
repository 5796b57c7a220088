import MatrixCalculator.Language.Cursor
import MatrixCalculator.Language.Node

namespace MatrixCalculator

/-- The statements and unary expressions that may be open at once. -/
def maxNesting : Nat := 32

def additive? : Kind → Option BinaryOp
  | .symbol .plus => some .add
  | .symbol .minus => some .sub
  | _ => none

def multiplicative? : Kind → Option BinaryOp
  | .symbol .times => some .mul
  | .symbol .slash => some .div
  | _ => none

namespace Reader

def chainFrom (op? : Kind → Option BinaryOp) (operand : Reader Node) : Nat → Node → Reader Node
  | 0, _ => broken .endless
  | n + 1, left => do
    match op? (← current).kind with
    | some op =>
      let t ← take
      let right ← operand
      chainFrom op? operand n (.binary op left right t.line)
    | none => return left

def chain (op? : Kind → Option BinaryOp) (operand : Reader Node) : Reader Node := do
  let first ← operand
  chainFrom op? operand (← rounds) first

/-- Expressions over a reader for `unary`:

    expression := term (('+' | '-') term)*
    term       := unary (('*' | '/') unary)*
    unary      := '-' unary | power
    power      := postfix ('^' unary)?
    postfix    := primary ('[' expression (',' expression)? ']')*
    primary    := number | name | name '(' arguments ')' | '(' expression ')' | matrix -/
def expression (unary : Reader Node) : Reader Node := chain additive? (chain multiplicative? unary)

/-- Further items after commas, behind `items`, which are kept backwards. -/
def itemsFrom (item : Reader Node) : Nat → List Node → Reader (List Node)
  | 0, _ => broken .endless
  | n + 1, items => do
    if (← current).kind.isSymbol .comma then
      discard (eat .comma)
      itemsFrom item n ((← item) :: items)
    else return items.reverse

def items (item : Reader Node) : Reader (List Node) := do
  let first ← item
  itemsFrom item (← rounds) [first]

def arguments (expr : Reader Node) : Reader (List Node) := do
  discard (eat .leftParen)
  enter .round
  let args ← if (← current).kind.isSymbol .rightParen then pure [] else items expr
  leave
  discard (eat .rightParen)
  return args

/-- The rows up to the closing bracket, behind `rows`, which are kept backwards. Where the input
ends after a row, the next round misses its operand. -/
def rowsFrom (expr : Reader Node) : Nat → List (List Node) → Reader (List (List Node))
  | 0, _ => broken .endless
  | n + 1, rows => do
    if (← current).kind.isSymbol .rightBracket then return rows.reverse
    else
      let row ← items expr
      let kind := (← current).kind
      if kind.isSeparator then skip Kind.isSeparator
      else if !(kind.isSymbol .rightBracket || kind.isEnd) then reject (.rowUnfinished kind)
      rowsFrom expr n (row :: rows)

/-- Runs of semicolons and newlines separate the rows of a matrix, commas its columns. -/
def matrix (expr : Reader Node) : Reader Node := do
  let start ← eat .leftBracket
  enter .matrix
  skip Kind.isSeparator
  let rows ← rowsFrom expr (← rounds) []
  if rows.isEmpty then rejectAt start .emptyMatrix
  leave
  discard (eat .rightBracket)
  return .matrix rows start.line

def operandReason (kind : Kind) (enclosures : List Enclosure) : Reason :=
  match kind with
  | .invalid text => .badNumeral text
  | .unknown c => .badCharacter c
  | .symbol s =>
    if (s = .rightParen ∨ s = .rightBracket) ∧ enclosures = [] then .unmatched s
    else .noOperand kind
  | _ => .noOperand kind

def primary (expr : Reader Node) : Reader Node := do
  expectOperand
  let t ← current
  match t.kind with
  | .number value =>
    advance
    return .number value t.line
  | .name name =>
    advance
    if (← current).kind.isSymbol .leftParen then return .call name (← arguments expr) t.line
    else return .ident name t.line
  | .symbol .leftParen =>
    advance
    enter .round
    let node ← expr
    leave
    discard (eat .rightParen)
    return node
  | .symbol .leftBracket => matrix expr
  | kind => reject (operandReason kind (← get).enclosures)

def index (expr : Reader Node) : Reader (List Node) := do
  enter .round
  let first ← expr
  let indices ←
    if (← current).kind.isSymbol .comma then
      discard (eat .comma)
      pure [first, ← expr]
    else pure [first]
  leave
  discard (eat .rightBracket)
  return indices

def postfixFrom (expr : Reader Node) : Nat → Node → Reader Node
  | 0, _ => broken .endless
  | n + 1, target => do
    if (← current).kind.isSymbol .leftBracket then
      let t ← eat .leftBracket
      let indices ← index expr
      postfixFrom expr n (.index target indices t.line)
    else return target

def indexed (expr : Reader Node) : Reader Node := do
  let target ← primary expr
  postfixFrom expr (← rounds) target

/-- Exponents associate to the right and may be negated. -/
def power (unary : Reader Node) : Reader Node := do
  let base ← indexed (expression unary)
  if (← current).kind.isSymbol .caret then
    let t ← eat .caret
    return .binary .pow base (← unary) t.line
  else return base

/-- A sign binds looser than an exponent. -/
def signed (unary : Reader Node) : Reader Node := do
  expectOperand
  let t ← current
  if t.kind.isSymbol .minus then
    discard (eat .minus)
    return .neg (← unary) t.line
  else power unary

/-- A unary expression when so many levels may still be opened. All recursion of the grammar goes
through here. -/
def unary : Nat → Reader Node
  | 0 => nested (reject .tooDeep)
  | levels + 1 => nested (signed (unary levels))

end Reader
end MatrixCalculator
