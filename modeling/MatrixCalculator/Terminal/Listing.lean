import MatrixCalculator.Failure
import MatrixCalculator.Language.Program
import MatrixCalculator.Text.Lines

namespace MatrixCalculator

/-- The first node so many levels below the root. -/
def Node.below? : Nat → Node → Option Node
  | 0, node => some node
  | depth + 1, node =>
    match node with
    | .neg operand _ => operand.below? depth
    | .binary _ left right _ => left.below? depth <|> right.below? depth
    | .assign _ value _ => value.below? depth
    | .matrix rows _ => rows.findSome? fun row => row.findSome? (below? depth)
    | .call _ args _ => args.findSome? (below? depth)
    | .index target indices _ => target.below? depth <|> indices.findSome? (below? depth)
    | _ => none

def Node.startsWithOperator : Node → Bool
  | .neg _ _ => true
  | .binary _ _ _ _ => true
  | _ => false

namespace Terminal

/-- The levels of a tree that can be listed, unless a caller leaves room for another number. -/
def maxListed : Nat := 975

def treeLines (node : Node) (listed : Nat := maxListed) : Except Fault (List String) :=
  match node.below? listed with
  | some deep => .error (.nestedListing deep.startsWithOperator)
  | none => .ok [node.listing, "    " ++ node.render]

def tokenLines (tokens : List Token) : List String :=
  ["\nTokens:\n", listItems (tokens.map Token.listing)]

def outcomeListing {α : Type} : Outcome α → String
  | .malformed line column reason =>
    s!"Malformed(position=({line}, {column}), reason={Text.quoted reason.text})"
  | _ => "Incomplete()"

/-- The lines of a script, without those that start with `#`. -/
def scriptLines (source : String) : List String :=
  (Text.lines source).filter fun line => line.toList.head? != some '#'

end Terminal
end MatrixCalculator
