import Mathlib
import MatrixCalculator.Proofs.Trees

namespace MatrixCalculator

namespace Node

def plainText : Node → String
  | .number value _ => numberText defaultPrecision value
  | .ident name _ => name
  | .matrix rows _ => "[" ++ "; ".intercalate (rows.map fun row =>
      ", ".intercalate (row.map fun e => plainText e)) ++ "]"
  | .neg operand _ => "(-" ++ plainText operand ++ ")"
  | .binary op left right _ =>
    "(" ++ plainText left ++ " " ++ op.symbol ++ " " ++ plainText right ++ ")"
  | .call name args _ => name ++ "(" ++ ", ".intercalate (args.map fun e => plainText e) ++ ")"
  | .index target indices _ =>
    plainText target ++ "[" ++ ", ".intercalate (indices.map fun e => plainText e) ++ "]"
  | .assign name value _ => name ++ " = " ++ plainText value
  | .foreign tag _ => "<expr " ++ tag ++ ">"
termination_by node => sizeOf node
decreasing_by all_goals exact Child.sizeOf_lt (by constructor <;> assumption)

theorem render_eq_plainText (node : Node) : node.render = node.plainText := by
  induction node using plainText.induct with
  | case3 rows line ih =>
    have hrows : (rows.map fun row => ", ".intercalate (row.map fun e => e.render)) =
        rows.map fun row => ", ".intercalate (row.map fun e => e.plainText) := by
      refine List.map_congr_left fun row hrow => ?_
      rw [List.map_congr_left (ih row hrow)]
    rw [render, plainText, hrows]
  | case5 op left right line ihl ihr => rw [render_binary, plainText, ihl, ihr]
  | case6 name args line ih => rw [render, plainText, List.map_congr_left ih]
  | case7 target indices line iht ih => rw [render, plainText, iht, List.map_congr_left ih]
  | _ => simp_all only [render, plainText]

/-- How many evaluations are open inside one another when the tree is evaluated, where a chain of
operators takes one. -/
def nesting : Node → Nat
  | .matrix rows _ =>
    (rows.map fun row => (row.map fun e => nesting e).foldr max 0).foldr max 0 + 1
  | .neg operand _ => nesting operand + 1
  | .binary _ left right _ =>
    max (if left.isBinary then nesting left else nesting left + 1) (nesting right + 1)
  | .call _ args _ => (args.map fun e => nesting e).foldr max 0 + 1
  | .index target indices _ =>
    max (nesting target) ((indices.map fun e => nesting e).foldr max 0) + 1
  | _ => 1
termination_by node => sizeOf node
decreasing_by all_goals exact Child.sizeOf_lt (by constructor <;> assumption)

theorem nesting_pos (node : Node) : 0 < node.nesting := by
  cases node <;> simp [nesting]

theorem nesting_lt_matrix {rows : List (List Node)} {row : List Node} {e : Node}
    (hrow : row ∈ rows) (he : e ∈ row) (line : Nat) :
    e.nesting < (Node.matrix rows line).nesting := by
  have hcell : e.nesting ≤ (row.map fun e => e.nesting).foldr max 0 :=
    List.le_max_of_le (List.mem_map_of_mem he) (le_refl _)
  have hline : (row.map fun e => e.nesting).foldr max 0 ≤
      (rows.map fun row => (row.map fun e => e.nesting).foldr max 0).foldr max 0 :=
    List.le_max_of_le (List.mem_map.mpr ⟨row, hrow, rfl⟩) (le_refl _)
  rw [nesting]
  omega

/-- A chain stays on its level, so its left operand may be evaluated there. -/
theorem nesting_lt_binary {left right : Node} {depth : Nat}
    (h : (if left.isBinary then depth + 1 else depth) < left.nesting) (op : BinaryOp) (line : Nat) :
    depth + 1 < (Node.binary op left right line).nesting := by
  rw [nesting]
  split at h
  · rename_i hleft
    rw [if_pos hleft]
    omega
  · rename_i hleft
    rw [if_neg hleft]
    omega

theorem nesting_lt_call {args : List Node} {e : Node} (he : e ∈ args) (name : String)
    (line : Nat) : e.nesting < (Node.call name args line).nesting := by
  have hargument : e.nesting ≤ (args.map fun e => e.nesting).foldr max 0 :=
    List.le_max_of_le (List.mem_map_of_mem he) (le_refl _)
  rw [nesting]
  omega

theorem nesting_lt_index {target : Node} {indices : List Node} {e : Node}
    (he : e = target ∨ e ∈ indices) (line : Nat) :
    e.nesting < (Node.index target indices line).nesting := by
  rw [nesting]
  rcases he with rfl | he
  · omega
  · have hposition : e.nesting ≤ (indices.map fun e => e.nesting).foldr max 0 :=
      List.le_max_of_le (List.mem_map_of_mem he) (le_refl _)
    omega

end Node

namespace Evaluation

/-- The value of an expression by recursion on the tree: an operator evaluates its left operand,
then its right one, and its own failure is on its own line. -/
def direct (env : Environment) (tolerance : Float) : Node → Except Failure Value
  | .number value _ => .ok (.scalar value)
  | .ident name line => env.get name (some line)
  | .matrix rows line => do
    let entries ← rows.mapM fun row => row.mapM fun e => do
      element line (← direct env tolerance e)
    return .matrix (← attachLine line (DenseMatrix.ofRows? entries))
  | .neg operand _ => do return (← direct env tolerance operand).neg
  | .binary op left right line => do
    let a ← direct env tolerance left
    let b ← direct env tolerance right
    attachLine line (Value.binary op a b tolerance)
  | .call name args line =>
    match Builtin.find? name with
    | none => attachLine line (fail (.unknownFunction name))
    | some b =>
      if args.length = b.arity then do
        let values ← args.mapM fun e => direct env tolerance e
        attachLine line (b.call values tolerance)
      else attachLine line (fail (.arity name b.arity args.length))
  | .index target indices line => do
    let v ← direct env tolerance target
    let positions ← indices.mapM fun e => direct env tolerance e
    attachLine line (pick (Node.index target indices line).plainText v positions)
  | .assign name value line => fault (.malformedNode (Node.assign name value line).listing)
  | .foreign tag fields => fault (.malformedNode (Node.foreign tag fields).listing)
termination_by node => sizeOf node
decreasing_by all_goals exact Node.Child.sizeOf_lt (by constructor <;> assumption)

/-- The results are the same, unless the first one ran out of levels, for which there was cause. -/
def Matches {α : Type} (deep : Prop) (r r' : Except Failure α) : Prop :=
  r = r' ∨ deep ∧ r = fault .nestedEvaluation

namespace Matches

variable {α β : Type} {deep deep' : Prop} {r r' : Except Failure α}

theorem refl (r : Except Failure α) : Matches deep r r := .inl rfl

theorem mono (h : Matches deep r r') (hdeep : deep → deep') : Matches deep' r r' :=
  h.imp id fun h => ⟨hdeep h.1, h.2⟩

theorem bind {f f' : α → Except Failure β} (h : Matches deep r r')
    (hf : ∀ a, Matches deep (f a) (f' a)) : Matches deep (r >>= f) (r' >>= f') := by
  rcases h with rfl | ⟨hdeep, rfl⟩
  · cases r with
    | ok a => exact hf a
    | error e => exact .refl _
  · exact .inr ⟨hdeep, rfl⟩

theorem mapM {f f' : α → Except Failure β} {xs : List α}
    (h : ∀ x ∈ xs, Matches deep (f x) (f' x)) : Matches deep (xs.mapM f) (xs.mapM f') := by
  induction xs with
  | nil => exact .refl _
  | cons x xs ih =>
    obtain ⟨hx, hxs⟩ := List.forall_mem_cons.mp h
    rw [List.mapM_cons, List.mapM_cons]
    exact hx.bind fun y => (ih hxs).bind fun ys => .refl _

theorem foldlM {f f' : β → α → Except Failure β} {xs : List α}
    (h : ∀ b, ∀ x ∈ xs, Matches deep (f b x) (f' b x)) (b : β) :
    Matches deep (xs.foldlM f b) (xs.foldlM f' b) := by
  induction xs generalizing b with
  | nil => exact .refl _
  | cons x xs ih =>
    rw [List.foldlM_cons, List.foldlM_cons]
    exact (h b x List.mem_cons_self).bind
      fun b => ih (fun b y hy => h b y (List.mem_cons_of_mem x hy)) b

end Matches

/-- The loop comes to what the recursion does, or runs out of levels on a tree that takes more. -/
def Follows (env : Environment) (tolerance : Float) (depth : Nat) (node : Node) : Prop :=
  Matches (depth < node.nesting) (eval env tolerance depth node) (direct env tolerance node)

section

variable {env : Environment} {tolerance : Float}

theorem follows_of_succ {node : Node} (h : ∀ depth, Follows env tolerance (depth + 1) node)
    (depth : Nat) : Follows env tolerance depth node := by
  cases depth with
  | zero => exact .inr ⟨node.nesting_pos, eval_zero env tolerance node⟩
  | succ depth => exact h depth

theorem Follows.lift {depth depth' : Nat} {part node : Node} (h : Follows env tolerance depth part)
    (hlevel : depth < part.nesting → depth' < node.nesting) :
    Matches (depth' < node.nesting) (eval env tolerance depth part) (direct env tolerance part) :=
  h.mono hlevel

theorem follows_succ (node : Node) (depth : Nat) : Follows env tolerance (depth + 1) node := by
  -- An operator in the left operand stays on the level of the chain, so the depth is general.
  induction node using direct.induct generalizing depth with
  | case1 value line =>
    rw [Follows, eval, direct]
    exact .refl _
  | case2 name line =>
    rw [Follows, eval, direct]
    exact .refl _
  | case3 rows line ih =>
    rw [Follows, eval, direct]
    refine .bind (.mapM fun row hrow => .mapM fun e he => ?_) fun entries => .refl _
    have hlevel := Node.nesting_lt_matrix hrow he line
    have he := follows_of_succ (ih row hrow e he) depth
    exact (he.lift fun h => by omega).bind fun v => .refl _
  | case4 operand line ih =>
    rw [Follows, eval, direct]
    refine ((follows_of_succ ih depth).lift fun h => ?_).bind fun v => .refl _
    rw [Node.nesting]
    omega
  | case5 op left right line ihl ihr =>
    rw [Follows, eval_binary, direct]
    have hleft := follows_of_succ ihl (if left.isBinary then depth + 1 else depth)
    refine (hleft.lift fun h => Node.nesting_lt_binary h op line).bind fun a => ?_
    refine ((follows_of_succ ihr depth).lift fun h => ?_).bind fun b => .refl _
    rw [Node.nesting]
    omega
  | case6 name args line hnone =>
    rw [Follows, eval, direct, hnone]
    exact .refl _
  | case7 name args line b hb harity ih =>
    rw [Follows, eval, direct, hb]
    dsimp only
    rw [if_pos harity, if_pos harity]
    refine .bind (.mapM fun e he => ?_) fun values => .refl _
    have hlevel := Node.nesting_lt_call he name line
    exact (follows_of_succ (ih e he) depth).lift fun h => by omega
  | case8 name args line b hb harity =>
    rw [Follows, eval, direct, hb]
    dsimp only
    rw [if_neg harity, if_neg harity]
    exact .refl _
  | case9 target indices line iht ih =>
    rw [Follows, eval, direct, Node.render_eq_plainText]
    have htarget : target.nesting < (Node.index target indices line).nesting :=
      Node.nesting_lt_index (.inl rfl) line
    refine ((follows_of_succ iht depth).lift fun h => by omega).bind fun v => ?_
    refine .bind (.mapM fun e he => ?_) fun positions => .refl _
    have hlevel : e.nesting < (Node.index target indices line).nesting :=
      Node.nesting_lt_index (.inr he) line
    exact (follows_of_succ (ih e he) depth).lift fun h => by omega
  | case10 name value line =>
    rw [Follows, eval, direct]
    · exact .refl _
    all_goals simp
  | case11 tag fields =>
    rw [Follows, eval, direct]
    · exact .refl _
    all_goals simp

/-- One level more changes nothing, unless the evaluation ran out of levels. -/
theorem matches_succ (depth : Nat) (node : Node) :
    Matches True (eval env tolerance depth node) (eval env tolerance (depth + 1) node) := by
  induction depth generalizing node with
  | zero => exact .inr ⟨trivial, eval_zero env tolerance node⟩
  | succ depth ih =>
    cases node with
    | number value line | ident name line =>
      rw [eval, eval]
      exact .refl _
    | matrix rows line =>
      rw [eval, eval]
      refine .bind (.mapM fun row hrow => .mapM fun e he => ?_) fun entries => .refl _
      exact (ih e).bind fun v => .refl _
    | neg operand line =>
      rw [eval, eval]
      exact (ih operand).bind fun v => .refl _
    | binary op left right line =>
      rw [eval, eval]
      refine (ih _).bind fun first => .foldlM (fun value link hlink => ?_) first
      exact (ih link.right).bind fun b => .refl _
    | call name args line =>
      rw [eval, eval]
      cases Builtin.find? name with
      | none => exact .refl _
      | some b =>
        dsimp only
        split
        · exact .bind (.mapM fun e he => ih e) fun values => .refl _
        · exact .refl _
    | index target indices line =>
      rw [eval, eval]
      refine (ih target).bind fun v => ?_
      exact .bind (.mapM fun e he => ih e) fun positions => .refl _
    | _ =>
      rw [eval, eval]
      · exact .refl _
      all_goals simp

theorem matches_of_le {depth depth' : Nat} (hdepth : depth ≤ depth') (node : Node) :
    Matches True (eval env tolerance depth node) (eval env tolerance depth' node) := by
  induction hdepth with
  | refl => exact .refl _
  | @step depth' _ ih =>
    rcases ih with heq | hfault
    · rw [heq]
      exact matches_succ depth' node
    · exact .inr hfault

theorem eval_of_le {depth depth' : Nat} {node : Node} {v : Value}
    (h : eval env tolerance depth node = .ok v) (hdepth : depth ≤ depth') :
    eval env tolerance depth' node = .ok v := by
  rcases matches_of_le hdepth node with heq | ⟨-, hfault⟩
  · exact heq.symm.trans h
  · exact absurd (h.symm.trans hfault) (by simp [fault])

end

/-- At every depth an expression comes to the value of the recursion, or to its failure with the
line of it, unless there are fewer levels than the tree takes; and it is printed as the recursion
prints it. -/
theorem eval_eq_direct (env : Environment) (tolerance : Float) (depth : Nat) (node : Node) :
    (eval env tolerance depth node = direct env tolerance node ∨
      depth < node.nesting ∧ eval env tolerance depth node = fault .nestedEvaluation) ∧
    node.render = node.plainText :=
  ⟨follows_of_succ (follows_succ node) depth, node.render_eq_plainText⟩

end Evaluation

end MatrixCalculator
