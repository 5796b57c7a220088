import MatrixCalculator.Builtin
import MatrixCalculator.Environment
import MatrixCalculator.Language.Node

namespace MatrixCalculator

def attachLine {α : Type} (line : Nat) (r : Except Failure α) : Except Failure α :=
  r.mapError (Failure.atLine line)

namespace Evaluation

/-- The evaluations that may be open inside one another, unless a caller leaves room for another
number of them. -/
def maxDepth : Nat := 490

def element (line : Nat) (v : Value) : Except Failure Float :=
  match v with
  | .scalar x => .ok x
  | .matrix m =>
    match m.only? with
    | some x => .ok x
    | none =>
      attachLine line
        (fail (.misfit s!"Matrix element must be a number, got a {m.shape.text} matrix"))

def pick (text : String) (target : Value) (indices : List Value) : Except Failure Value :=
  match target with
  | .scalar _ => fail (.invalid text "only matrices can be indexed")
  | .matrix m => do
    let positions ← indices.mapM fun v =>
      match v.number?.bind Double.integer? with
      | some i => pure i
      | none => fail (.invalid text "indices must be integers")
    match positions with
    | [i] =>
      match ← m.select i with
      | .inl x => return .scalar x
      | .inr row => return .matrix row
    | [i, j] => return .scalar (← m.get i j)
    | _ => fault (.indexCount positions.length)

/-- The value of an expression when so many evaluations may still be opened. -/
def eval (env : Environment) (tolerance : Float) : Nat → Node → Except Failure Value
  | 0, _ => fault .nestedEvaluation
  | depth + 1, node =>
    match node with
    | .number value _ => .ok (.scalar value)
    | .ident name line => env.get name (some line)
    | .matrix rows line => do
      let entries ← rows.mapM fun row => row.mapM fun e => do
        element line (← eval env tolerance depth e)
      return .matrix (← attachLine line (DenseMatrix.ofRows? entries))
    | .neg operand _ => do return (← eval env tolerance depth operand).neg
    | .binary op left right line => do
      let chain := left.spine [⟨op, right, line⟩]
      let first ← eval env tolerance depth chain.1
      chain.2.foldlM (fun value link => do
        let right ← eval env tolerance depth link.right
        attachLine link.line (Value.binary link.op value right tolerance)) first
    | .call name args line =>
      match Builtin.find? name with
      | none => attachLine line (fail (.unknownFunction name))
      | some b =>
        if args.length = b.arity then do
          let values ← args.mapM (eval env tolerance depth)
          attachLine line (b.call values tolerance)
        else attachLine line (fail (.arity name b.arity args.length))
    | .index target indices line => do
      let v ← eval env tolerance depth target
      let positions ← indices.mapM (eval env tolerance depth)
      attachLine line (pick node.render v positions)
    | _ => fault (.malformedNode node.listing)

theorem eval_zero (env : Environment) (tolerance : Float) (node : Node) :
    eval env tolerance 0 node = fault .nestedEvaluation := by
  rw [eval]

/-- The value of a statement and the variables after it. An assignment evaluates its right side
before it binds, so a failing statement binds nothing. -/
def execute (env : Environment) (tolerance : Float) :
    Nat → Node → Except Failure (Value × Environment)
  | 0, _ => fault .nestedEvaluation
  | depth + 1, node =>
    match node with
    | .assign name value _ => do
      let (v, env') ← execute env tolerance depth value
      return (v, env'.set name v)
    | _ => do
      let v ← eval env tolerance depth node
      return (v, env)

end Evaluation
end MatrixCalculator
