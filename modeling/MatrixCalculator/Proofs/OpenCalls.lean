import Mathlib
import MatrixCalculator.Proofs.Chains
import MatrixCalculator.Proofs.Runs

namespace MatrixCalculator

/-- A result, and the most calls that were open inside one another on the way to it. -/
structure Metered (α : Type) where
  calls : Nat
  result : Except Failure α

namespace Metered

variable {α β γ : Type}

def call (x : Metered α) : Metered α := ⟨x.calls + 1, x.result⟩

/-- One after the other, unless the first fails; the calls of the first are closed by then. -/
instance : Monad Metered where
  pure a := ⟨0, .ok a⟩
  bind x f :=
    match x.result with
    | .ok a => ⟨max x.calls (f a).calls, (f a).result⟩
    | .error e => ⟨x.calls, .error e⟩

/-- Operations on values make no calls that count. -/
instance : MonadLift (Except Failure) Metered where
  monadLift r := ⟨0, r⟩

theorem ok_bind (n : Nat) (a : α) (f : α → Metered β) :
    (⟨n, .ok a⟩ : Metered α) >>= f = ⟨max n (f a).calls, (f a).result⟩ := rfl

theorem error_bind (n : Nat) (e : Failure) (f : α → Metered β) :
    (⟨n, .error e⟩ : Metered α) >>= f = ⟨n, .error e⟩ := rfl

protected theorem id_map (x : Metered α) : id <$> x = x := by
  obtain ⟨n, r⟩ := x
  cases r with
  | ok a => exact congrArg (Metered.mk · _) (Nat.max_zero n)
  | error e => rfl

protected theorem pure_bind (a : α) (f : α → Metered β) : pure a >>= f = f a :=
  congrArg (Metered.mk · _) (Nat.zero_max _)

protected theorem bind_assoc (x : Metered α) (f : α → Metered β) (g : β → Metered γ) :
    x >>= f >>= g = x >>= fun a => f a >>= g := by
  obtain ⟨n, r⟩ := x
  cases r with
  | error e => rfl
  | ok a =>
    rw [ok_bind, ok_bind]
    generalize f a = y
    obtain ⟨m, s⟩ := y
    cases s with
    | error e => rfl
    | ok b => rw [ok_bind, ok_bind, Nat.max_assoc]

instance : LawfulMonad Metered :=
  .mk' Metered Metered.id_map Metered.pure_bind Metered.bind_assoc

/-- The result when so many calls may be opened. -/
def within (depth : Nat) (x : Metered α) : Except Failure α :=
  if x.calls ≤ depth then x.result else fault .nestedEvaluation

theorem within_lift (depth : Nat) (r : Except Failure α) :
    within depth (liftM r : Metered α) = r :=
  if_pos (Nat.zero_le depth)

theorem within_pure (depth : Nat) (a : α) : within depth (pure a) = pure a :=
  if_pos (Nat.zero_le depth)

theorem within_call_zero (x : Metered α) : within 0 x.call = fault .nestedEvaluation :=
  if_neg (Nat.not_succ_le_zero _)

theorem within_call_succ (depth : Nat) (x : Metered α) :
    within (depth + 1) x.call = within depth x := by
  simp only [within, call, Nat.add_le_add_iff_right]

theorem within_bind (depth : Nat) (x : Metered α) (f : α → Metered β) :
    within depth (x >>= f) = within depth x >>= fun a => within depth (f a) := by
  obtain ⟨n, r⟩ := x
  by_cases hn : n ≤ depth
  · -- The first part keeps to the limit, so the whole does if the second part does.
    cases r with
    | error e =>
      rw [error_bind, within, within, if_pos hn, if_pos hn]
      rfl
    | ok a =>
      have hmax : max n (f a).calls ≤ depth ↔ (f a).calls ≤ depth := by omega
      rw [ok_bind, within, within, if_pos hn]
      simp only [hmax]
      rfl
  · have hcalls : ¬ ((⟨n, r⟩ : Metered α) >>= f).calls ≤ depth := by
      cases r with
      | error e => exact hn
      | ok a => exact fun h => hn (le_trans (le_max_left _ _) h)
    rw [within, within, if_neg hcalls, if_neg hn]
    rfl

theorem within_mapM (depth : Nat) (f : α → Metered β) (xs : List α) :
    within depth (xs.mapM f) = xs.mapM fun x => within depth (f x) := by
  induction xs with
  | nil => exact within_pure depth []
  | cons x xs ih => simp only [List.mapM_cons, within_bind, within_pure, ih]

theorem within_foldlM (depth : Nat) (f : β → α → Metered β) (xs : List α) (b : β) :
    within depth (xs.foldlM f b) = xs.foldlM (fun b x => within depth (f b x)) b := by
  induction xs generalizing b with
  | nil => exact within_pure depth b
  | cons x xs ih => simp only [List.foldlM_cons, within_bind, ih]

variable {n : Nat}

theorem calls_bind_le {x : Metered α} {f : α → Metered β} (hx : x.calls ≤ n)
    (hf : ∀ a, (f a).calls ≤ n) : (x >>= f).calls ≤ n := by
  obtain ⟨m, r⟩ := x
  cases r with
  | error e => exact hx
  | ok a => exact max_le hx (hf a)

theorem calls_mapM_le {f : α → Metered β} {xs : List α} (h : ∀ x ∈ xs, (f x).calls ≤ n) :
    (xs.mapM f).calls ≤ n := by
  induction xs with
  | nil => exact Nat.zero_le n
  | cons x xs ih =>
    obtain ⟨hx, hxs⟩ := List.forall_mem_cons.mp h
    rw [List.mapM_cons]
    exact calls_bind_le hx fun y => calls_bind_le (ih hxs) fun ys => Nat.zero_le n

theorem calls_foldlM_le {f : β → α → Metered β} {xs : List α}
    (h : ∀ b, ∀ x ∈ xs, (f b x).calls ≤ n) (b : β) : (xs.foldlM f b).calls ≤ n := by
  induction xs generalizing b with
  | nil => exact Nat.zero_le n
  | cons x xs ih =>
    rw [List.foldlM_cons]
    exact calls_bind_le (h b x List.mem_cons_self)
      fun b => ih (fun b y hy => h b y (List.mem_cons_of_mem x hy)) b

end Metered

namespace Evaluation

/-- The value of an expression with as many calls as it takes. -/
def metered (env : Environment) (tolerance : Float) : Node → Metered Value
  | .number value _ => .call (pure (.scalar value))
  | .ident name line => .call (env.get name (some line))
  | .matrix rows line => .call do
    let entries ← rows.mapM fun row => row.mapM fun e => do
      element line (← metered env tolerance e)
    return .matrix (← attachLine line (DenseMatrix.ofRows? entries))
  | .neg operand _ => .call do return (← metered env tolerance operand).neg
  | .binary op left right line => .call do
    let chain := left.spine [⟨op, right, line⟩]
    let first ← metered env tolerance chain.1
    chain.2.attach.foldlM (fun value link => do
      let right ← metered env tolerance link.1.right
      attachLine link.1.line (Value.binary link.1.op value right tolerance)) first
  | .call name args line => .call <|
    match Builtin.find? name with
    | none => attachLine line (fail (.unknownFunction name))
    | some b =>
      if args.length = b.arity then do
        let values ← args.mapM fun e => metered env tolerance e
        attachLine line (b.call values tolerance)
      else attachLine line (fail (.arity name b.arity args.length))
  | .index target indices line => .call do
    let v ← metered env tolerance target
    let positions ← indices.mapM fun e => metered env tolerance e
    attachLine line (pick (Node.index target indices line).render v positions)
  | .assign name value line => .call (fault (.malformedNode (Node.assign name value line).listing))
  | .foreign tag fields => .call (fault (.malformedNode (Node.foreign tag fields).listing))
termination_by node => sizeOf node
decreasing_by
  all_goals
    apply Node.Child.sizeOf_lt
    constructor <;> first | assumption | exact Subtype.property _

/-- The value of a statement and the variables after it with as many calls as it takes. -/
def meteredStatement (env : Environment) (tolerance : Float) :
    Node → Metered (Value × Environment)
  | .assign name value _ => .call do
    let (v, env') ← meteredStatement env tolerance value
    return (v, env'.set name v)
  | node => .call do
    let v ← metered env tolerance node
    return (v, env)

section

open Metered

variable (env : Environment) (tolerance : Float)

theorem metered_binary (op : BinaryOp) (left right : Node) (line : Nat) :
    metered env tolerance (.binary op left right line) = .call (
      metered env tolerance (left.spine [⟨op, right, line⟩]).1 >>= fun first =>
        (left.spine [⟨op, right, line⟩]).2.foldlM (fun value link =>
          metered env tolerance link.right >>= fun right =>
            attachLine link.line (Value.binary link.op value right tolerance)) first) := by
  rw [metered]
  refine congrArg Metered.call (bind_congr fun first => ?_)
  conv_rhs => rw [← List.attach_map_subtype_val (left.spine _).2, List.foldlM_map]

/-- With a limit, evaluation runs out of levels exactly if it takes more calls than that. -/
theorem within_metered (depth : Nat) (node : Node) :
    within depth (metered env tolerance node) = eval env tolerance depth node := by
  induction depth generalizing node with
  | zero => cases node <;> rw [metered, within_call_zero, eval_zero]
  | succ depth ih =>
    cases node with
    | number value line =>
      rw [metered, eval, within_call_succ]
      exact within_pure depth _
    | ident name line =>
      rw [metered, eval, within_call_succ]
      exact within_lift depth _
    | matrix rows line =>
      rw [metered, eval, within_call_succ]
      simp only [within_bind, within_mapM, within_lift, within_pure, ih]
    | neg operand line =>
      rw [metered, eval, within_call_succ]
      simp only [within_bind, within_pure, ih]
    | binary op left right line =>
      rw [metered_binary, eval, within_call_succ]
      simp only [within_bind, within_foldlM, within_lift, ih]
    | call name args line =>
      rw [metered, eval, within_call_succ]
      cases Builtin.find? name with
      | none => exact within_lift depth _
      | some b =>
        dsimp only
        split
        · simp only [within_bind, within_mapM, within_lift, ih]
        · exact within_lift depth _
    | index target indices line =>
      rw [metered, eval, within_call_succ]
      simp only [within_bind, within_mapM, within_lift, ih]
    | assign name value line | foreign tag fields =>
      rw [metered, eval, within_call_succ]
      · exact within_lift depth _
      all_goals simp

theorem within_meteredStatement (depth : Nat) (node : Node) :
    within depth (meteredStatement env tolerance node) = execute env tolerance depth node := by
  induction depth generalizing node with
  | zero => cases node <;> rw [meteredStatement, within_call_zero, execute] <;> simp
  | succ depth ih =>
    cases node with
    | assign name value line =>
      rw [meteredStatement, execute, within_call_succ]
      simp only [within_bind, within_pure, ih]
    | _ =>
      rw [meteredStatement, execute, within_call_succ]
      · simp only [within_bind, within_pure, within_metered]
      all_goals simp

end

end Evaluation

namespace Node

/-- The levels of a tree as the left operand of an operator, those of the operator included. -/
def leftNesting (node : Node) : Nat := if node.isBinary then node.nesting else node.nesting + 1

theorem nesting_binary (op : BinaryOp) (left right : Node) (line : Nat) :
    (Node.binary op left right line).nesting = max left.leftNesting (right.nesting + 1) := by
  rw [nesting, leftNesting]

theorem leftNesting_binary (op : BinaryOp) (left right : Node) (line : Nat) :
    (Node.binary op left right line).leftNesting = max left.leftNesting (right.nesting + 1) := by
  rw [leftNesting, isBinary, if_pos rfl, nesting_binary]

theorem nesting_le_leftNesting (node : Node) : node.nesting ≤ node.leftNesting := by
  unfold leftNesting
  split <;> omega

theorem leftNesting_le (node : Node) : node.leftNesting ≤ node.nesting + 1 := by
  unfold leftNesting
  split <;> omega

theorem nesting_spine_lt {node : Node} {links : List Link} {n : Nat} (hnode : node.leftNesting ≤ n)
    (hlinks : ∀ link ∈ links, link.right.nesting < n) :
    (node.spine links).1.nesting < n ∧ ∀ link ∈ (node.spine links).2, link.right.nesting < n := by
  fun_induction spine node links with
  | case1 op left right line links ih =>
    rw [leftNesting_binary] at hnode
    exact ih (by omega) (List.forall_mem_cons.mpr ⟨by dsimp only; omega, hlinks⟩)
  | case2 node links hbinary =>
    have hnode : node.nesting < n := by
      cases node with
      | binary op left right line => exact absurd rfl (hbinary op left right line)
      | _ => exact hnode
    exact ⟨hnode, hlinks⟩

/-- The levels of a statement: one for each name, one for the expression as a statement, and those
of the expression. -/
def statementNesting (node : Node) : Nat := node.targets.length + node.body.nesting + 1

end Node

namespace Evaluation

open Metered

variable (env : Environment) (tolerance : Float)

theorem calls_metered_le {n : Nat} {node : Node} (h : node.nesting ≤ n) :
    (metered env tolerance node).calls ≤ n := by
  -- By induction on the levels and not on the tree: a chain calls operands deep inside it.
  induction n generalizing node with
  | zero => exact absurd h (Nat.not_le.mpr node.nesting_pos)
  | succ n ih =>
    have hpart {part : Node} (hlt : part.nesting < node.nesting) :
        (metered env tolerance part).calls ≤ n := ih (by omega)
    cases node with
    | number value line | ident name line | assign name value line | foreign tag fields =>
      rw [metered]
      exact Nat.succ_le_succ (Nat.zero_le n)
    | matrix rows line =>
      rw [metered]
      refine Nat.succ_le_succ (calls_bind_le ?_ fun entries => ?_)
      · exact calls_mapM_le fun row hrow => calls_mapM_le fun e he =>
          calls_bind_le (hpart (Node.nesting_lt_matrix hrow he line)) fun v => Nat.zero_le n
      · exact calls_bind_le (Nat.zero_le n) fun m => Nat.zero_le n
    | neg operand line =>
      have hoperand : operand.nesting < (Node.neg operand line).nesting := by
        rw [Node.nesting]
        omega
      rw [metered]
      exact Nat.succ_le_succ (calls_bind_le (hpart hoperand) fun v => Nat.zero_le n)
    | binary op left right line =>
      obtain ⟨hfirst, hlinks⟩ : (left.spine [⟨op, right, line⟩]).1.nesting <
          (Node.binary op left right line).nesting ∧
          ∀ link ∈ (left.spine [⟨op, right, line⟩]).2,
            link.right.nesting < (Node.binary op left right line).nesting := by
        rw [Node.nesting_binary]
        exact Node.nesting_spine_lt (le_max_left _ _)
          (List.forall_mem_singleton.mpr (lt_max_of_lt_right (Nat.lt_succ_self _)))
      rw [metered_binary]
      refine Nat.succ_le_succ (calls_bind_le (hpart hfirst) fun first => ?_)
      exact calls_foldlM_le (fun value link hlink =>
        calls_bind_le (hpart (hlinks link hlink)) fun b => Nat.zero_le n) first
    | call name args line =>
      rw [metered]
      refine Nat.succ_le_succ ?_
      cases Builtin.find? name with
      | none => exact Nat.zero_le n
      | some b =>
        dsimp only
        split
        · exact calls_bind_le (calls_mapM_le fun e he => hpart (Node.nesting_lt_call he name line))
            fun values => Nat.zero_le n
        · exact Nat.zero_le n
    | index target indices line =>
      rw [metered]
      refine Nat.succ_le_succ (calls_bind_le ?_ fun v => calls_bind_le ?_ fun positions => ?_)
      · exact hpart (Node.nesting_lt_index (.inl rfl) line)
      · exact calls_mapM_le fun e he => hpart (Node.nesting_lt_index (.inr he) line)
      · exact Nat.zero_le n

theorem calls_meteredStatement_le (node : Node) :
    (meteredStatement env tolerance node).calls ≤ node.statementNesting := by
  unfold Node.statementNesting
  induction node using Node.body.induct with
  | case1 name value line ih =>
    rw [meteredStatement, Node.targets, Node.body, List.length_cons, Nat.add_right_comm _ 1]
    exact Nat.succ_le_succ (calls_bind_le ih fun r => Nat.zero_le _)
  | case2 node hassign =>
    rw [meteredStatement, Node.targets, Node.body, List.length_nil, Nat.zero_add]
    · exact Nat.succ_le_succ (calls_bind_le (calls_metered_le env tolerance (le_refl _))
        fun v => Nat.zero_le _)
    all_goals exact hassign

end Evaluation

namespace Node

/-- How many indices stand behind operands in the tree. -/
def indexings : Node → Nat
  | .matrix rows _ => (rows.map fun row => (row.map fun e => indexings e).sum).sum
  | .neg operand _ => indexings operand
  | .binary _ left right _ => indexings left + indexings right
  | .call _ args _ => (args.map fun e => indexings e).sum
  | .index target indices _ => indexings target + (indices.map fun e => indexings e).sum + 1
  | .assign _ value _ => indexings value
  | _ => 0
termination_by node => sizeOf node
decreasing_by all_goals exact Child.sizeOf_lt (by constructor <;> assumption)

/-- The calls that are granted to a tree for whose reading so many levels were opened. -/
def grant (depth : Nat) (node : Node) : Nat := 4 * depth + node.indexings

theorem grant_le_grant {depth depth' : Nat} {part node : Node} (hdepth : depth ≤ depth')
    (hpart : part.indexings ≤ node.indexings) : part.grant depth ≤ node.grant depth' := by
  unfold grant
  omega

theorem indexings_le_matrix {rows : List (List Node)} {row : List Node} {e : Node}
    (hrow : row ∈ rows) (he : e ∈ row) (line : Nat) :
    e.indexings ≤ (Node.matrix rows line).indexings := by
  rw [indexings]
  calc e.indexings ≤ (row.map fun e => e.indexings).sum :=
        List.single_le_sum (fun _ _ => Nat.zero_le _) _ (List.mem_map_of_mem he)
    _ ≤ _ := List.single_le_sum (fun _ _ => Nat.zero_le _) _ (List.mem_map.mpr ⟨row, hrow, rfl⟩)

theorem indexings_le_call {args : List Node} {e : Node} (he : e ∈ args) (name : String)
    (line : Nat) : e.indexings ≤ (Node.call name args line).indexings := by
  rw [indexings]
  exact List.single_le_sum (fun _ _ => Nat.zero_le _) _ (List.mem_map_of_mem he)

theorem nesting_matrix_le {rows : List (List Node)} {n : Nat}
    (h : ∀ row ∈ rows, ∀ e ∈ row, e.nesting < n) (line : Nat) :
    (Node.matrix rows line).nesting ≤ max 1 n := by
  have hrows : (rows.map fun row => (row.map fun e => e.nesting).foldr max 0).foldr max 0 ≤
      n - 1 := by
    refine List.max_le_of_forall_le _ _ (List.forall_mem_map.mpr fun row hrow => ?_)
    refine List.max_le_of_forall_le _ _ (List.forall_mem_map.mpr fun e he => ?_)
    exact Nat.le_sub_one_of_lt (h row hrow e he)
  rw [nesting]
  omega

theorem nesting_call_le {args : List Node} {n : Nat} (h : ∀ e ∈ args, e.nesting < n)
    (name : String) (line : Nat) : (Node.call name args line).nesting ≤ max 1 n := by
  have hargs : (args.map fun e => e.nesting).foldr max 0 ≤ n - 1 :=
    List.max_le_of_forall_le _ _ (List.forall_mem_map.mpr fun e he => Nat.le_sub_one_of_lt (h e he))
  rw [nesting]
  omega

end Node

/-- What is read takes no more calls than it is granted. Of the four calls for each level one goes
to a sum, one to a product, one to a power and one to a matrix or function; what a phrase leaves of
them is there for the phrases around it in the same level. -/
def Category.Granted (depth : Nat) : (c : Category) → c.Meaning → Prop
  | .expression, node => node.leftNesting + 1 ≤ node.grant depth
  | .term, node => node.leftNesting + 2 ≤ node.grant depth
  | .unary, node => node.nesting + 3 ≤ node.grant depth
  | .power, node => node.nesting ≤ node.grant depth + 1
  | .indexed, node => node.nesting ≤ max 1 (node.grant depth)
  | .primary, node => node.nesting ≤ max 1 (node.grant depth)
  | .items, nodes => ∀ node ∈ nodes, node.nesting < node.grant depth
  | .rows, lists => ∀ nodes ∈ lists, ∀ node ∈ nodes, node.nesting < node.grant depth
  | .statement, node => node.statementNesting ≤ node.grant depth
  | .statements, nodes => ∀ node ∈ nodes, node.statementNesting ≤ node.grant depth
  | .program, nodes => ∀ node ∈ nodes, node.statementNesting ≤ node.grant depth

theorem Phrase.granted {c : Category} (p : Phrase c) : c.Granted p.depth p.tree := by
  induction p with
  | ofTerm t ih => exact (Nat.le_succ _).trans ih
  | sum left op p right ihl ihr =>
    have hright := right.tree.nesting_le_leftNesting
    simp only [Category.Granted, Node.grant] at ihl ihr
    simp only [Category.Granted, Node.grant, depth, tree, Node.leftNesting_binary, Node.indexings]
    omega
  | ofUnary u ih =>
    exact (Nat.add_le_add_right u.tree.leftNesting_le 2).trans ih
  | product left op p right ihl ihr =>
    simp only [Category.Granted, Node.grant] at ihl ihr
    simp only [Category.Granted, Node.grant, depth, tree, Node.leftNesting_binary, Node.indexings]
    omega
  | negated p operand ih =>
    simp only [Category.Granted, Node.grant] at ih
    simp only [Category.Granted, Node.grant, depth, tree, Node.nesting, Node.indexings]
    omega
  | ofPower x ih =>
    simp only [Category.Granted, Node.grant] at ih
    simp only [Category.Granted, Node.grant, depth, tree]
    omega
  | ofIndexed x ih =>
    simp only [Category.Granted] at ih
    simp only [Category.Granted, depth, tree]
    omega
  | raised base p exponent ihb ihe =>
    have hbase := base.tree.leftNesting_le
    simp only [Category.Granted, Node.grant] at ihb ihe
    simp only [Category.Granted, Node.grant, depth, tree, Node.nesting_binary, Node.indexings]
    omega
  | ofPrimary x ih => exact ih
  | part target l i r iht ihi =>
    have hi := i.tree.nesting_le_leftNesting
    simp only [Category.Granted, Node.grant] at iht ihi
    simp only [Category.Granted, Node.grant, depth, tree, Node.nesting, Node.indexings,
      List.map_cons, List.map_nil, List.sum_cons, List.sum_nil, List.foldr_cons, List.foldr_nil]
    omega
  | entry target l i comma j r iht ihi ihj =>
    have hi := i.tree.nesting_le_leftNesting
    have hj := j.tree.nesting_le_leftNesting
    simp only [Category.Granted, Node.grant] at iht ihi ihj
    simp only [Category.Granted, Node.grant, depth, tree, Node.nesting, Node.indexings,
      List.map_cons, List.map_nil, List.sum_cons, List.sum_nil, List.foldr_cons, List.foldr_nil]
    omega
  | number value p | ident name p =>
    simp only [Category.Granted, tree, Node.nesting]
    exact le_max_left _ _
  | bareCall name p l r =>
    exact Node.nesting_call_le (fun e he => absurd he List.not_mem_nil) name p.line
  | call name p l args r ih =>
    refine Node.nesting_call_le (fun e he => ?_) name p.line
    exact (ih e he).trans_le
      (Node.grant_le_grant (le_refl _) (Node.indexings_le_call he name p.line))
  | group l inner r ih =>
    have hinner := inner.tree.nesting_le_leftNesting
    simp only [Category.Granted] at ih
    simp only [Category.Granted, depth, tree]
    omega
  | matrix l rows gap r ih =>
    refine Node.nesting_matrix_le (fun row hrow e he => ?_) l.line
    exact (ih row hrow e he).trans_le
      (Node.grant_le_grant (le_refl _) (Node.indexings_le_matrix hrow he l.line))
  | item e ih => exact List.forall_mem_singleton.mpr (e.tree.nesting_le_leftNesting.trans_lt ih)
  | more items comma e ihi ihe =>
    refine List.forall_mem_append.mpr ⟨fun node hnode => ?_, List.forall_mem_singleton.mpr ?_⟩
    · exact (ihi node hnode).trans_le (Node.grant_le_grant (le_max_left _ _) (le_refl _))
    · exact (e.tree.nesting_le_leftNesting.trans_lt ihe).trans_le
        (Node.grant_le_grant (le_max_right _ _) (le_refl _))
  | firstRow gap row ih => exact List.forall_mem_singleton.mpr ih
  | nextRow rows sep gap row ihr ih =>
    refine List.forall_mem_append.mpr ⟨fun nodes hnodes node hnode => ?_,
      List.forall_mem_singleton.mpr fun node hnode => ?_⟩
    · exact (ihr nodes hnodes node hnode).trans_le
        (Node.grant_le_grant (le_max_left _ _) (le_refl _))
    · exact (ih node hnode).trans_le (Node.grant_le_grant (le_max_right _ _) (le_refl _))
  | assign name p equals value ih =>
    simp only [Category.Granted, Node.grant, Node.statementNesting] at ih
    simp only [Category.Granted, Node.grant, Node.statementNesting, depth, tree, Node.targets,
      Node.body, Node.indexings, List.length_cons]
    omega
  | bare e ih =>
    have he := e.tree.nesting_le_leftNesting
    obtain ⟨htargets, hbody⟩ := Node.targets_of_isAssign_eq_false e.proper
    simp only [Category.Granted, Node.grant] at ih
    simp only [Category.Granted, Node.grant, Node.statementNesting, depth, tree, htargets, hbody,
      List.length_nil]
    omega
  | firstStatement gap s ih => exact List.forall_mem_singleton.mpr ih
  | nextStatement before sep gap s ihb ih =>
    refine List.forall_mem_append.mpr ⟨fun node hnode => ?_, List.forall_mem_singleton.mpr ?_⟩
    · exact (ihb node hnode).trans (Node.grant_le_grant (le_max_left _ _) (le_refl _))
    · exact ih.trans (Node.grant_le_grant (le_max_right _ _) (le_refl _))
  | blank gap => exact fun node hnode => absurd hnode List.not_mem_nil
  | full statements gap ih => exact ih

namespace Evaluation

/-- However long a text is, a statement of it takes no more calls inside one another than four for
each level that reading allows and one for each index in it. The count is that of the calls of the
statement's execution, which runs out of levels exactly where fewer are allowed. -/
theorem execute_calls_le {text : String} {nodes : List Node} {rest : List Token}
    (h : parse text = .complete nodes rest) {node : Node} (hnode : node ∈ nodes)
    (env : Environment) (tolerance : Float) :
    (meteredStatement env tolerance node).calls ≤ 4 * maxNesting + node.indexings ∧
    ∀ depth, execute env tolerance depth node =
      if (meteredStatement env tolerance node).calls ≤ depth then
        (meteredStatement env tolerance node).result
      else fault .nestedEvaluation := by
  obtain ⟨p, rfl, hdepth, -⟩ := exists_phrase_of_parse h
  refine ⟨?_, fun depth => (within_meteredStatement env tolerance depth node).symm⟩
  calc (meteredStatement env tolerance node).calls
      ≤ node.statementNesting := calls_meteredStatement_le env tolerance node
    _ ≤ node.grant p.depth := p.granted node hnode
    _ ≤ node.grant maxNesting := Node.grant_le_grant hdepth (le_refl _)

/-- Under one name a sum, a product, a sign, a power, a matrix and two indices, each in the last. -/
theorem execute_calls_le_nested : ∃ node,
    parse "a = x - x * -x ^ [x[x][x]]" = .complete [node] [] ∧ node.indexings = 2 ∧
    (meteredStatement ⟨[("x", .scalar 1)]⟩ 0 node).calls = 10 ∧ 10 ≤ 4 * maxNesting + 2 ∧
    execute ⟨[("x", .scalar 1)]⟩ 0 9 node = fault .nestedEvaluation := by
  obtain ⟨node, hnode⟩ : ∃ node : Node, node = .assign "a" (.binary .sub (.ident "x" 1)
      (.binary .mul (.ident "x" 1) (.neg (.binary .pow (.ident "x" 1) (.matrix [[.index (.index
        (.ident "x" 1) [.ident "x" 1] 1) [.ident "x" 1] 1]] 1) 1) 1) 1) 1) 1 := ⟨_, rfl⟩
  have hparse : parse "a = x - x * -x ^ [x[x][x]]" = .complete [node] [] := by
    rw [hnode]
    rw [parse_eq]
    cbv
  have hindexings : node.indexings = 2 := by
    rw [hnode]
    cbv
  have hcalls : (meteredStatement ⟨[("x", .scalar 1)]⟩ 0 node).calls = 10 := by
    rw [hnode]
    cbv
  obtain ⟨hle, hexecute⟩ :=
    execute_calls_le hparse (List.mem_singleton_self node) ⟨[("x", .scalar 1)]⟩ 0
  rw [hcalls, hindexings] at hle
  refine ⟨node, hparse, hindexings, hcalls, hle, ?_⟩
  rw [hexecute, hcalls]
  exact if_neg (by decide)

end Evaluation

end MatrixCalculator
