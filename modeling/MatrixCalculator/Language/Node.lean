import MatrixCalculator.Language.Operator
import MatrixCalculator.Number.Text
import MatrixCalculator.Text.Quoted

namespace MatrixCalculator

inductive Datum where
  | text (s : String)
  | integer (n : Int)
  | list (items : List Datum)

/-- Statements and expressions. The language itself puts assignments only at the top of a statement
and builds no `foreign` nodes, but a host may hand over such trees. -/
inductive Node where
  | number (value : Float) (line : Nat)
  | ident (name : String) (line : Nat)
  | matrix (rows : List (List Node)) (line : Nat)
  | neg (operand : Node) (line : Nat)
  | binary (op : BinaryOp) (left right : Node) (line : Nat)
  | call (name : String) (args : List Node) (line : Nat)
  | index (target : Node) (indices : List Node) (line : Nat)
  | assign (name : String) (value : Node) (line : Nat)
  | foreign (tag : String) (fields : List Datum)

structure Link where
  op : BinaryOp
  right : Node
  line : Nat

namespace Node

def line : Node → Nat
  | .number _ line => line
  | .ident _ line => line
  | .matrix _ line => line
  | .neg _ line => line
  | .binary _ _ _ line => line
  | .call _ _ line => line
  | .index _ _ line => line
  | .assign _ _ line => line
  | .foreign _ _ => 0

/-- Unfolds a chain of binary operators nested in their left operands: the innermost left operand
and the links in the order of evaluation, in front of the links given. -/
def spine : Node → List Link → Node × List Link
  | .binary op left right line, links => spine left (⟨op, right, line⟩ :: links)
  | node, links => (node, links)

theorem sizeOf_spine_fst (node : Node) (links : List Link) :
    sizeOf (node.spine links).1 ≤ sizeOf node := by
  fun_induction spine node links with
  | case1 op left right line links ih =>
    have h : sizeOf left ≤ sizeOf (binary op left right line) := by simp; omega
    exact Nat.le_trans ih h
  | case2 => exact Nat.le_refl _

theorem sizeOf_right_of_mem_spine (node : Node) (links : List Link) (link : Link)
    (h : link ∈ (node.spine links).2) : link ∈ links ∨ sizeOf link.right < sizeOf node := by
  fun_induction spine node links with
  | case1 op left right line links ih =>
    rcases ih h with hmem | hlt
    · rcases List.mem_cons.mp hmem with rfl | hlinks
      · exact Or.inr (by simp; omega)
      · exact Or.inl hlinks
    · exact Or.inr (by simp; omega)
  | case2 => exact Or.inl h

/-- What stands directly below a node; of a chain of operators also its first operand and its right
operands. -/
inductive Child : Node → Node → Prop where
  | cell {rows : List (List Node)} {row : List Node} {e : Node} {line : Nat} (hrow : row ∈ rows)
      (he : e ∈ row) : Child e (.matrix rows line)
  | operand {operand : Node} {line : Nat} : Child operand (.neg operand line)
  | left {op : BinaryOp} {left right : Node} {line : Nat} :
      Child left (.binary op left right line)
  | right {op : BinaryOp} {left right : Node} {line : Nat} :
      Child right (.binary op left right line)
  | first {op : BinaryOp} {left right : Node} {line : Nat} :
      Child (left.spine [⟨op, right, line⟩]).1 (.binary op left right line)
  | link {op : BinaryOp} {left right : Node} {line : Nat} {link : Link}
      (h : link ∈ (left.spine [⟨op, right, line⟩]).2) :
      Child link.right (.binary op left right line)
  | argument {name : String} {args : List Node} {e : Node} {line : Nat} (he : e ∈ args) :
      Child e (.call name args line)
  | target {target : Node} {indices : List Node} {line : Nat} :
      Child target (.index target indices line)
  | position {target e : Node} {indices : List Node} {line : Nat} (he : e ∈ indices) :
      Child e (.index target indices line)
  | value {name : String} {value : Node} {line : Nat} : Child value (.assign name value line)

theorem Child.sizeOf_lt {e node : Node} (h : Child e node) : sizeOf e < sizeOf node := by
  cases h with
  | cell hrow he =>
    have := List.sizeOf_lt_of_mem hrow
    have := List.sizeOf_lt_of_mem he
    simp only [matrix.sizeOf_spec]
    omega
  | @first op left right line =>
    have := sizeOf_spine_fst left [⟨op, right, line⟩]
    simp only [binary.sizeOf_spec]
    omega
  | @link op left right line link h =>
    rcases sizeOf_right_of_mem_spine left [⟨op, right, line⟩] link h with hmem | hlt
    · rw [List.mem_singleton.mp hmem]
      simp only [binary.sizeOf_spec]
      omega
    · simp only [binary.sizeOf_spec]
      omega
  | argument he =>
    have := List.sizeOf_lt_of_mem he
    simp only [call.sizeOf_spec]
    omega
  | position he =>
    have := List.sizeOf_lt_of_mem he
    simp only [index.sizeOf_spec]
    omega
  | operand => simp only [neg.sizeOf_spec]; omega
  | left => simp only [binary.sizeOf_spec]; omega
  | right => simp only [binary.sizeOf_spec]; omega
  | target => simp only [index.sizeOf_spec]; omega
  | value => simp only [assign.sizeOf_spec]; omega

/-- The tree in the language's own spelling, fully parenthesized. -/
def render : Node → String
  | .number value _ => numberText defaultPrecision value
  | .ident name _ => name
  | .matrix rows _ => "[" ++ "; ".intercalate (rows.map fun row =>
      ", ".intercalate (row.map fun e => render e)) ++ "]"
  | .neg operand _ => "(-" ++ render operand ++ ")"
  | .binary op left right line =>
    let chain := spine left [⟨op, right, line⟩]
    chain.2.attach.foldl
      (fun text link => "(" ++ text ++ " " ++ link.1.op.symbol ++ " " ++ render link.1.right ++ ")")
      (render chain.1)
  | .call name args _ => name ++ "(" ++ ", ".intercalate (args.map fun e => render e) ++ ")"
  | .index target indices _ =>
    render target ++ "[" ++ ", ".intercalate (indices.map fun e => render e) ++ "]"
  | .assign name value _ => name ++ " = " ++ render value
  | .foreign tag _ => "<expr " ++ tag ++ ">"
termination_by node => sizeOf node
decreasing_by
  all_goals
    apply Child.sizeOf_lt
    constructor <;> first | assumption | exact Subtype.property _

end Node

def listTuple : List String → String
  | [item] => "(" ++ item ++ ",)"
  | items => "(" ++ ", ".intercalate items ++ ")"

def listItems (items : List String) : String := "[" ++ ", ".intercalate items ++ "]"

def BinaryOp.listing (op : BinaryOp) : String :=
  "<Op." ++ op.name.toUpper ++ ": '" ++ op.name ++ "'>"

def Datum.listing : Datum → String
  | .text s => Text.quoted s
  | .integer n => toString n
  | .list items => listItems (items.map fun d => d.listing)

namespace Node

/-- The fields of the tree, tag first and line last. -/
def listing : Node → String
  | .number value line => listTuple ["'number'", Double.shortestText value, toString line]
  | .ident name line => listTuple ["'ident'", Text.quoted name, toString line]
  | .matrix rows line =>
    listTuple ["'matrix'", listItems (rows.map fun row => listItems (row.map fun e => e.listing)),
      toString line]
  | .neg operand line =>
    listTuple ["'unary'", "<Op.NEG: 'neg'>", operand.listing, toString line]
  | .binary op left right line =>
    listTuple [op.listing, left.listing, right.listing, toString line]
  | .call name args line =>
    listTuple ["'func_call'", Text.quoted name, listItems (args.map fun e => e.listing),
      toString line]
  | .index target indices line =>
    listTuple ["'index'", target.listing, listItems (indices.map fun e => e.listing),
      toString line]
  | .assign name value line =>
    listTuple ["'assign'", Text.quoted name, value.listing, toString line]
  | .foreign tag fields => listTuple (Text.quoted tag :: fields.map fun d => d.listing)
termination_by node => sizeOf node
decreasing_by all_goals exact Child.sizeOf_lt (by constructor <;> assumption)

end Node
end MatrixCalculator
