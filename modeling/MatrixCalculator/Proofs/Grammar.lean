import MatrixCalculator.Language.Program

namespace MatrixCalculator

structure Place where
  line : Nat
  column : Nat

def Place.token (p : Place) (kind : Kind) : Token := ⟨kind, p.line, p.column⟩

def Place.mark (p : Place) (s : Symbol) : Token := p.token (.symbol s)

def Token.place (t : Token) : Place := ⟨t.line, t.column⟩

theorem Token.place_token {t : Token} {kind : Kind} (h : t.kind = kind) :
    t.place.token kind = t := by
  subst h
  rfl

theorem Token.place_mark {t : Token} {s : Symbol} (h : t.kind = .symbol s) :
    t.place.mark s = t :=
  Token.place_token h

inductive Additive where
  | plus
  | minus

def Additive.symbol : Additive → Symbol
  | .plus => .plus
  | .minus => .minus

def Additive.op : Additive → BinaryOp
  | .plus => .add
  | .minus => .sub

inductive Multiplicative where
  | times
  | slash

def Multiplicative.symbol : Multiplicative → Symbol
  | .times => .times
  | .slash => .slash

def Multiplicative.op : Multiplicative → BinaryOp
  | .times => .mul
  | .slash => .div

inductive Separator where
  | newline (p : Place)
  | semicolon (p : Place)

def Separator.token : Separator → Token
  | .newline p => p.token .newline
  | .semicolon p => p.mark .semicolon

abbrev Gap := List Separator

def Gap.yield (gap : Gap) : List Token := gap.map Separator.token

inductive Category where
  | expression
  | term
  | unary
  | power
  | indexed
  | primary
  | items
  | rows
  | statement
  | statements
  | program

/-- Derivations of each category. -/
inductive Phrase : Category → Type where
  | ofTerm (t : Phrase .term) : Phrase .expression
  | sum (left : Phrase .expression) (op : Additive) (p : Place) (right : Phrase .term) :
      Phrase .expression
  | ofUnary (u : Phrase .unary) : Phrase .term
  | product (left : Phrase .term) (op : Multiplicative) (p : Place) (right : Phrase .unary) :
      Phrase .term
  | negated (p : Place) (operand : Phrase .unary) : Phrase .unary
  | ofPower (x : Phrase .power) : Phrase .unary
  | ofIndexed (x : Phrase .indexed) : Phrase .power
  | raised (base : Phrase .indexed) (p : Place) (exponent : Phrase .unary) : Phrase .power
  | ofPrimary (x : Phrase .primary) : Phrase .indexed
  | part (target : Phrase .indexed) (l : Place) (i : Phrase .expression) (r : Place) :
      Phrase .indexed
  | entry (target : Phrase .indexed) (l : Place) (i : Phrase .expression) (comma : Place)
      (j : Phrase .expression) (r : Place) : Phrase .indexed
  | number (value : Float) (p : Place) : Phrase .primary
  | ident (name : String) (p : Place) : Phrase .primary
  | bareCall (name : String) (p l r : Place) : Phrase .primary
  | call (name : String) (p l : Place) (args : Phrase .items) (r : Place) : Phrase .primary
  | group (l : Place) (inner : Phrase .expression) (r : Place) : Phrase .primary
  | matrix (l : Place) (rows : Phrase .rows) (gap : Gap) (r : Place) : Phrase .primary
  | item (e : Phrase .expression) : Phrase .items
  | more (items : Phrase .items) (comma : Place) (e : Phrase .expression) : Phrase .items
  | firstRow (gap : Gap) (row : Phrase .items) : Phrase .rows
  | nextRow (rows : Phrase .rows) (sep : Separator) (gap : Gap) (row : Phrase .items) :
      Phrase .rows
  | assign (name : String) (p equals : Place) (value : Phrase .statement) : Phrase .statement
  | bare (e : Phrase .expression) : Phrase .statement
  | firstStatement (gap : Gap) (s : Phrase .statement) : Phrase .statements
  | nextStatement (before : Phrase .statements) (sep : Separator) (gap : Gap)
      (s : Phrase .statement) : Phrase .statements
  | blank (gap : Gap) : Phrase .program
  | full (statements : Phrase .statements) (gap : Gap) : Phrase .program

namespace Phrase

@[simp] def yield : {c : Category} → Phrase c → List Token
  | _, .ofTerm t => t.yield
  | _, .sum left op p right => left.yield ++ p.mark op.symbol :: right.yield
  | _, .ofUnary u => u.yield
  | _, .product left op p right => left.yield ++ p.mark op.symbol :: right.yield
  | _, .negated p operand => p.mark .minus :: operand.yield
  | _, .ofPower x => x.yield
  | _, .ofIndexed x => x.yield
  | _, .raised base p exponent => base.yield ++ p.mark .caret :: exponent.yield
  | _, .ofPrimary x => x.yield
  | _, .part target l i r =>
    target.yield ++ l.mark .leftBracket :: i.yield ++ [r.mark .rightBracket]
  | _, .entry target l i comma j r =>
    target.yield ++ l.mark .leftBracket :: i.yield ++ comma.mark .comma :: j.yield ++
      [r.mark .rightBracket]
  | _, .number value p => [p.token (.number value)]
  | _, .ident name p => [p.token (.name name)]
  | _, .bareCall name p l r => [p.token (.name name), l.mark .leftParen, r.mark .rightParen]
  | _, .call name p l args r =>
    p.token (.name name) :: l.mark .leftParen :: args.yield ++ [r.mark .rightParen]
  | _, .group l inner r => l.mark .leftParen :: inner.yield ++ [r.mark .rightParen]
  | _, .matrix l rows gap r =>
    l.mark .leftBracket :: rows.yield ++ gap.yield ++ [r.mark .rightBracket]
  | _, .item e => e.yield
  | _, .more items comma e => items.yield ++ comma.mark .comma :: e.yield
  | _, .firstRow gap row => gap.yield ++ row.yield
  | _, .nextRow rows sep gap row => rows.yield ++ sep.token :: gap.yield ++ row.yield
  | _, .assign name p equals value => p.token (.name name) :: equals.mark .assign :: value.yield
  | _, .bare e => e.yield
  | _, .firstStatement gap s => gap.yield ++ s.yield
  | _, .nextStatement before sep gap s => before.yield ++ sep.token :: gap.yield ++ s.yield
  | _, .blank gap => gap.yield
  | _, .full statements gap => statements.yield ++ gap.yield

end Phrase

abbrev Category.Meaning : Category → Type
  | .items => List Node
  | .rows => List (List Node)
  | .statements => List Node
  | .program => List Node
  | _ => Node

/-- The meaning with a change to each tree that it is made of. -/
def Category.map (f : Node → Node) : (c : Category) → c.Meaning → c.Meaning
  | .expression => f
  | .term => f
  | .unary => f
  | .power => f
  | .indexed => f
  | .primary => f
  | .items => List.map f
  | .rows => List.map (List.map f)
  | .statement => f
  | .statements => List.map f
  | .program => List.map f

/-- All expressions and all statements that the meaning is made of are such. -/
def Category.All (expression statement : Node → Prop) : (c : Category) → c.Meaning → Prop
  | .expression, node => expression node
  | .term, node => expression node
  | .unary, node => expression node
  | .power, node => expression node
  | .indexed, node => expression node
  | .primary, node => expression node
  | .items, nodes => ∀ node ∈ nodes, expression node
  | .rows, lists => ∀ nodes ∈ lists, ∀ node ∈ nodes, expression node
  | .statement, node => statement node
  | .statements, nodes => ∀ node ∈ nodes, statement node
  | .program, nodes => ∀ node ∈ nodes, statement node

namespace Phrase

@[simp] def tree : {c : Category} → Phrase c → c.Meaning
  | _, .ofTerm t => t.tree
  | _, .sum left op p right => .binary op.op left.tree right.tree p.line
  | _, .ofUnary u => u.tree
  | _, .product left op p right => .binary op.op left.tree right.tree p.line
  | _, .negated p operand => .neg operand.tree p.line
  | _, .ofPower x => x.tree
  | _, .ofIndexed x => x.tree
  | _, .raised base p exponent => .binary .pow base.tree exponent.tree p.line
  | _, .ofPrimary x => x.tree
  | _, .part target l i _ => .index target.tree [i.tree] l.line
  | _, .entry target l i _ j _ => .index target.tree [i.tree, j.tree] l.line
  | _, .number value p => .number value p.line
  | _, .ident name p => .ident name p.line
  | _, .bareCall name p _ _ => .call name [] p.line
  | _, .call name p _ args _ => .call name args.tree p.line
  | _, .group _ inner _ => inner.tree
  | _, .matrix l rows _ _ => .matrix rows.tree l.line
  | _, .item e => [e.tree]
  | _, .more items _ e => items.tree ++ [e.tree]
  | _, .firstRow _ row => [row.tree]
  | _, .nextRow rows _ _ row => rows.tree ++ [row.tree]
  | _, .assign name p _ value => .assign name value.tree p.line
  | _, .bare e => e.tree
  | _, .firstStatement _ s => [s.tree]
  | _, .nextStatement before _ _ s => before.tree ++ [s.tree]
  | _, .blank _ => []
  | _, .full statements _ => statements.tree

/-- How many statement and unary productions are open at once, at most. -/
@[simp] def depth : {c : Category} → Phrase c → Nat
  | _, .ofTerm t => t.depth
  | _, .sum left _ _ right => max left.depth right.depth
  | _, .ofUnary u => u.depth
  | _, .product left _ _ right => max left.depth right.depth
  | _, .negated _ operand => operand.depth + 1
  | _, .ofPower x => x.depth + 1
  | _, .ofIndexed x => x.depth
  | _, .raised base _ exponent => max base.depth exponent.depth
  | _, .ofPrimary x => x.depth
  | _, .part target _ i _ => max target.depth i.depth
  | _, .entry target _ i _ j _ => max (max target.depth i.depth) j.depth
  | _, .number _ _ => 0
  | _, .ident _ _ => 0
  | _, .bareCall _ _ _ _ => 0
  | _, .call _ _ _ args _ => args.depth
  | _, .group _ inner _ => inner.depth
  | _, .matrix _ rows _ _ => rows.depth
  | _, .item e => e.depth
  | _, .more items _ e => max items.depth e.depth
  | _, .firstRow _ row => row.depth
  | _, .nextRow rows _ _ row => max rows.depth row.depth
  | _, .assign _ _ _ value => value.depth + 1
  | _, .bare e => e.depth + 1
  | _, .firstStatement _ s => s.depth
  | _, .nextStatement before _ _ s => max before.depth s.depth
  | _, .blank _ => 0
  | _, .full statements _ => statements.depth

end Phrase

/-- What the last token that counts leaves behind: the start of a statement or row, a place where
an operand is wanted, or an operand that has been read. -/
inductive Standing where
  | start
  | wanting
  | ended
  deriving DecidableEq

/-- The brackets open at a place, the innermost first, and the standing there. -/
structure Layout where
  enclosures : List Enclosure
  standing : Standing

namespace Layout

def initial : Layout := ⟨[], .start⟩

/-- A newline is dropped inside round brackets, argument lists and indices, and wherever an operand
is wanted. -/
def drops (l : Layout) : Bool := l.enclosures.head? = some .round || l.standing = .wanting

/-- The layout after a token. A square bracket opens an index behind an operand and a matrix
elsewhere. -/
def next (l : Layout) : Kind → Layout
  | .symbol .leftParen => ⟨.round :: l.enclosures, .wanting⟩
  | .symbol .leftBracket =>
    if l.standing = .ended then ⟨.round :: l.enclosures, .wanting⟩
    else ⟨.matrix :: l.enclosures, .start⟩
  | .symbol .rightParen => ⟨l.enclosures.tail, .ended⟩
  | .symbol .rightBracket => ⟨l.enclosures.tail, .ended⟩
  | .symbol .semicolon => ⟨l.enclosures, .start⟩
  | .newline => ⟨l.enclosures, .start⟩
  | .symbol _ => ⟨l.enclosures, .wanting⟩
  | _ => ⟨l.enclosures, .ended⟩

end Layout

/-- The tokens without the newlines that are dropped. -/
def significant : Layout → List Token → List Token
  | _, [] => []
  | l, t :: ts =>
    if t.kind.isNewline && l.drops then significant l ts
    else t :: significant (l.next t.kind) ts

/-- The phrase derives the tokens, newlines that are dropped aside. -/
def Phrase.Derives (p : Phrase .program) (ts : List Token) : Prop :=
  p.yield = significant .initial ts

end MatrixCalculator
