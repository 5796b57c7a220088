import Mathlib.Data.List.Forall2
import MatrixCalculator.Proofs.Grammar
import MatrixCalculator.Session

namespace MatrixCalculator

section Results

variable {ε α β : Type}

theorem eq_ok_of_toOption {r : Except ε α} {a : α} (h : r.toOption = some a) :
    r = .ok a := by
  cases r with
  | error e => contradiction
  | ok b => rw [Option.some.inj h]

theorem toOption_bind (x : Except ε α) (f : α → Except ε β) :
    (x >>= f).toOption = x.toOption.bind fun a => (f a).toOption := by
  cases x <;> rfl

theorem toOption_mapM (f : α → Except ε β) (xs : List α) :
    (xs.mapM f).toOption = xs.mapM fun x => (f x).toOption := by
  induction xs with
  | nil => rfl
  | cons x xs ih =>
    rw [List.mapM_cons, List.mapM_cons, toOption_bind]
    congr 1
    funext y
    rw [toOption_bind, ih]
    rfl

@[simp] theorem toOption_attachLine (line : Nat) (r : Except Failure α) :
    (attachLine line r).toOption = r.toOption := by
  cases r <;> rfl

theorem mapM_congr_of_forall₂ {r : α → α → Prop} {f : α → Option β} {xs ys : List α}
    (h : List.Forall₂ r xs ys) (hf : ∀ x y, r x y → f x = f y) : xs.mapM f = ys.mapM f := by
  induction h with
  | nil => rfl
  | cons hxy _ ih => rw [List.mapM_cons, List.mapM_cons, hf _ _ hxy, ih]

theorem exists_of_mapM_eq_some {f : α → Option β} {xs : List α} {ys : List β}
    (h : xs.mapM f = some ys) : ∀ x ∈ xs, ∃ y, f x = some y := by
  induction xs generalizing ys with
  | nil => simp
  | cons x xs ih =>
    rw [List.mapM_cons] at h
    obtain ⟨y, hy, h⟩ := Option.bind_eq_some_iff.mp h
    obtain ⟨ys', hys, _⟩ := Option.bind_eq_some_iff.mp h
    intro z hz
    rcases List.mem_cons.mp hz with rfl | hz
    · exact ⟨y, hy⟩
    · exact ih hys z hz

end Results

namespace Node

def isBinary : Node → Bool
  | .binary _ _ _ _ => true
  | _ => false

def isAssign : Node → Bool
  | .assign _ _ _ => true
  | _ => false

theorem spine_of_isBinary_eq_false {node : Node} (h : node.isBinary = false) (links : List Link) :
    node.spine links = (node, links) := by
  cases node with
  | binary op left right line => contradiction
  | _ => rfl

theorem spine_append (node : Node) (links more : List Link) :
    node.spine (links ++ more) = ((node.spine links).1, (node.spine links).2 ++ more) := by
  fun_induction spine node links with
  | case1 op left right line links ih => exact ih
  | case2 node links h =>
    cases node with
    | binary op left right line => exact absurd rfl (h op left right line)
    | _ => rfl

end Node

namespace Evaluation

variable (env : Environment) (tolerance : Float) (depth : Nat)

def value? (node : Node) : Option Value := (eval env tolerance depth node).toOption

/-- The number that an element of a matrix comes to, if it is one. -/
def cell? (node : Node) : Option Float :=
  (value? env tolerance depth node).bind fun v => (element 0 v).toOption

theorem value?_ident (name : String) (line : Nat) :
    value? env tolerance (depth + 1) (.ident name line) = env.get? name := by
  rw [value?, eval, Environment.get]
  cases env.get? name <;> rfl

theorem value?_neg (operand : Node) (line : Nat) :
    value? env tolerance (depth + 1) (.neg operand line) =
      (value? env tolerance depth operand).bind fun v => some v.neg := by
  rw [value?, eval, toOption_bind]
  rfl

/-- A chain of operators nests only in the right operands. -/
theorem eval_binary (op : BinaryOp) (left right : Node) (line : Nat) :
    eval env tolerance (depth + 1) (.binary op left right line) =
      eval env tolerance (if left.isBinary then depth + 1 else depth) left >>= fun a =>
        eval env tolerance depth right >>= fun b =>
          attachLine line (Value.binary op a b tolerance) := by
  cases left with
  | binary op' left' right' line' =>
    -- The chain of the whole is that of the left operand with one link more, on the same level.
    have hspine := left'.spine_append [⟨op', right', line'⟩] [⟨op, right, line⟩]
    rw [eval, Node.spine, ← List.singleton_append, hspine, Node.isBinary, if_pos rfl, eval]
    simp only [List.foldlM_append, List.foldlM_cons, List.foldlM_nil, bind_assoc, bind_pure]
  | _ =>
    rw [eval, Node.spine_of_isBinary_eq_false rfl]
    simp only [List.foldlM_cons, List.foldlM_nil, bind_pure, Node.isBinary, Bool.false_eq_true,
      if_false]

theorem value?_binary (op : BinaryOp) (left right : Node) (line : Nat) :
    value? env tolerance (depth + 1) (.binary op left right line) =
      (value? env tolerance (if left.isBinary then depth + 1 else depth) left).bind fun a =>
        (value? env tolerance depth right).bind fun b =>
          (Value.binary op a b tolerance).toOption := by
  rw [value?, eval_binary]
  simp only [toOption_bind, toOption_attachLine, value?]

theorem toOption_element (line : Nat) (v : Value) :
    (element line v).toOption = (element 0 v).toOption := by
  unfold element
  split
  · rfl
  · split <;> rfl

theorem value?_matrix (rows : List (List Node)) (line : Nat) :
    value? env tolerance (depth + 1) (.matrix rows line) =
      (rows.mapM fun row : List Node => row.mapM (cell? env tolerance depth)).bind fun entries =>
        (DenseMatrix.ofRows? entries).toOption.bind fun m => some (.matrix m) := by
  rw [value?, eval, toOption_bind, toOption_mapM]
  simp only [toOption_mapM, toOption_bind, toOption_element, toOption_attachLine]
  rfl

theorem value?_call (name : String) (args : List Node) (line : Nat) :
    value? env tolerance (depth + 1) (.call name args line) =
      (Builtin.find? name).bind fun b =>
        if args.length = b.arity then
          (args.mapM (value? env tolerance depth)).bind fun values =>
            (b.call values tolerance).toOption
        else none := by
  rw [value?, eval]
  cases Builtin.find? name with
  | none => rfl
  | some b =>
    dsimp only [Option.bind_some]
    split
    · rw [toOption_bind, toOption_mapM]
      simp only [toOption_attachLine]
      rfl
    · rfl

theorem toOption_pick (text : String) (target : Value) (indices : List Value) :
    (pick text target indices).toOption = (pick "" target indices).toOption := by
  cases target with
  | scalar x => rfl
  | matrix m =>
    simp only [pick, toOption_bind, toOption_mapM]
    congr 2
    funext v
    split <;> rfl

theorem value?_index (target : Node) (indices : List Node) (line : Nat) :
    value? env tolerance (depth + 1) (.index target indices line) =
      (value? env tolerance depth target).bind fun v =>
        (indices.mapM (value? env tolerance depth)).bind fun positions =>
          (pick "" v positions).toOption := by
  rw [value?, eval, toOption_bind]
  congr 1
  funext v
  rw [toOption_bind, toOption_mapM]
  congr 1
  funext positions
  rw [toOption_attachLine, toOption_pick]

def execute? (node : Node) : Option (Value × Environment) :=
  (execute env tolerance depth node).toOption

theorem execute?_assign (name : String) (value : Node) (line : Nat) :
    execute? env tolerance (depth + 1) (.assign name value line) =
      (execute? env tolerance depth value).bind fun r => some (r.1, r.2.set name r.1) := by
  rw [execute?, execute, toOption_bind]
  rfl

theorem execute?_of_isAssign_eq_false {node : Node} (h : node.isAssign = false) :
    execute? env tolerance (depth + 1) node =
      (value? env tolerance depth node).bind fun v => some (v, env) := by
  cases node with
  | assign name value line => contradiction
  | _ =>
    rw [execute?, execute, toOption_bind]
    · rfl
    · simp

end Evaluation

namespace Node

open Evaluation

/-- The expression has a value somewhere. -/
def Evaluates (node : Node) : Prop :=
  ∃ env tolerance depth v, value? env tolerance depth node = some v

/-- The statement can be executed somewhere. -/
def Executes (node : Node) : Prop :=
  ∃ env tolerance depth r, execute? env tolerance depth node = some r

section Evaluates

variable {line : Nat}

theorem Evaluates.neg {operand : Node} (h : (Node.neg operand line).Evaluates) :
    operand.Evaluates := by
  obtain ⟨env, tolerance, _ | depth, v, h⟩ := h
  · contradiction
  · rw [value?_neg] at h
    obtain ⟨a, ha, _⟩ := Option.bind_eq_some_iff.mp h
    exact ⟨env, tolerance, depth, a, ha⟩

theorem Evaluates.binary {op : BinaryOp} {left right : Node}
    (h : (Node.binary op left right line).Evaluates) : left.Evaluates ∧ right.Evaluates := by
  obtain ⟨env, tolerance, _ | depth, v, h⟩ := h
  · contradiction
  · rw [value?_binary] at h
    obtain ⟨a, ha, h⟩ := Option.bind_eq_some_iff.mp h
    obtain ⟨b, hb, _⟩ := Option.bind_eq_some_iff.mp h
    exact ⟨⟨env, tolerance, _, a, ha⟩, env, tolerance, depth, b, hb⟩

theorem Evaluates.matrix {rows : List (List Node)} (h : (Node.matrix rows line).Evaluates) :
    ∀ row ∈ rows, ∀ node ∈ row, node.Evaluates := by
  obtain ⟨env, tolerance, _ | depth, v, h⟩ := h
  · contradiction
  · rw [value?_matrix] at h
    obtain ⟨entries, hentries, _⟩ := Option.bind_eq_some_iff.mp h
    intro row hrow node hnode
    obtain ⟨xs, hxs⟩ := exists_of_mapM_eq_some hentries row hrow
    obtain ⟨x, hx⟩ := exists_of_mapM_eq_some hxs node hnode
    obtain ⟨v, hv, _⟩ := Option.bind_eq_some_iff.mp hx
    exact ⟨env, tolerance, depth, v, hv⟩

theorem Evaluates.call {name : String} {args : List Node}
    (h : (Node.call name args line).Evaluates) : args ≠ [] ∧ ∀ node ∈ args, node.Evaluates := by
  obtain ⟨env, tolerance, _ | depth, v, h⟩ := h
  · contradiction
  · rw [value?_call] at h
    obtain ⟨b, _, h⟩ := Option.bind_eq_some_iff.mp h
    split at h
    · rename_i harity
      obtain ⟨values, hvalues, _⟩ := Option.bind_eq_some_iff.mp h
      refine ⟨?_, fun node hnode => ?_⟩
      · rintro rfl
        have hpos : 0 < b.arity := by
          rw [Builtin.arity]
          cases b.body <;> simp [Builtin.Body.arity]
        simp at harity
        omega
      · obtain ⟨v, hv⟩ := exists_of_mapM_eq_some hvalues node hnode
        exact ⟨env, tolerance, depth, v, hv⟩
    · contradiction

theorem Evaluates.index {target : Node} {indices : List Node}
    (h : (Node.index target indices line).Evaluates) :
    target.Evaluates ∧ ∀ node ∈ indices, node.Evaluates := by
  obtain ⟨env, tolerance, _ | depth, v, h⟩ := h
  · contradiction
  · rw [value?_index] at h
    obtain ⟨a, ha, h⟩ := Option.bind_eq_some_iff.mp h
    obtain ⟨positions, hpositions, _⟩ := Option.bind_eq_some_iff.mp h
    refine ⟨⟨env, tolerance, depth, a, ha⟩, fun node hnode => ?_⟩
    obtain ⟨v, hv⟩ := exists_of_mapM_eq_some hpositions node hnode
    exact ⟨env, tolerance, depth, v, hv⟩

theorem Executes.assign {name : String} {value : Node}
    (h : (Node.assign name value line).Executes) : value.Executes := by
  obtain ⟨env, tolerance, _ | depth, v, h⟩ := h
  · contradiction
  · rw [execute?_assign] at h
    obtain ⟨r, hr, _⟩ := Option.bind_eq_some_iff.mp h
    exact ⟨env, tolerance, depth, r, hr⟩

theorem Executes.evaluates {node : Node} (h : node.Executes) (hnode : node.isAssign = false) :
    node.Evaluates := by
  obtain ⟨env, tolerance, _ | depth, v, h⟩ := h
  · contradiction
  · rw [execute?_of_isAssign_eq_false _ _ _ hnode] at h
    obtain ⟨a, ha, _⟩ := Option.bind_eq_some_iff.mp h
    exact ⟨env, tolerance, depth, a, ha⟩

end Evaluates

/-- The expressions have the same value wherever they have one. -/
structure Agree (a b : Node) : Prop where
  form : a.isBinary = b.isBinary
  value : ∀ env tolerance depth, value? env tolerance depth a = value? env tolerance depth b

/-- The statements come to the same wherever they can be executed. -/
def ExecuteAlike (a b : Node) : Prop :=
  ∀ env tolerance depth, execute? env tolerance depth a = execute? env tolerance depth b

section Agree

variable {line line' : Nat}

theorem Agree.number (value : Float) : Agree (.number value line) (.number value line') := by
  refine ⟨rfl, fun env tolerance depth => ?_⟩
  cases depth <;> rfl

theorem Agree.ident (name : String) : Agree (.ident name line) (.ident name line') := by
  refine ⟨rfl, fun env tolerance depth => ?_⟩
  cases depth with
  | zero => rfl
  | succ depth => rw [value?_ident, value?_ident]

theorem Agree.neg {a b : Node} (h : Agree a b) : Agree (.neg a line) (.neg b line') := by
  refine ⟨rfl, fun env tolerance depth => ?_⟩
  cases depth with
  | zero => rfl
  | succ depth => rw [value?_neg, value?_neg, h.value]

theorem Agree.binary (op : BinaryOp) {a b c d : Node} (hleft : Agree a b) (hright : Agree c d) :
    Agree (.binary op a c line) (.binary op b d line') := by
  refine ⟨rfl, fun env tolerance depth => ?_⟩
  cases depth with
  | zero => rfl
  | succ depth => simp only [value?_binary, hleft.form, hleft.value, hright.value]

theorem Agree.matrix {rows rows' : List (List Node)}
    (h : List.Forall₂ (List.Forall₂ Agree) rows rows') :
    Agree (.matrix rows line) (.matrix rows' line') := by
  refine ⟨rfl, fun env tolerance depth => ?_⟩
  cases depth with
  | zero => rfl
  | succ depth =>
    have hentry : ∀ a b, Agree a b → cell? env tolerance depth a = cell? env tolerance depth b :=
      fun a b hab => by rw [cell?, cell?, hab.value]
    rw [value?_matrix, value?_matrix,
      mapM_congr_of_forall₂ h fun row row' hrow => mapM_congr_of_forall₂ hrow hentry]

theorem Agree.call (name : String) {args args' : List Node} (h : List.Forall₂ Agree args args') :
    Agree (.call name args line) (.call name args' line') := by
  refine ⟨rfl, fun env tolerance depth => ?_⟩
  cases depth with
  | zero => rfl
  | succ depth =>
    rw [value?_call, value?_call, h.length_eq,
      mapM_congr_of_forall₂ h fun a b hab => hab.value env tolerance depth]

theorem Agree.index {target target' : Node} (htarget : Agree target target')
    {indices indices' : List Node} (h : List.Forall₂ Agree indices indices') :
    Agree (.index target indices line) (.index target' indices' line') := by
  refine ⟨rfl, fun env tolerance depth => ?_⟩
  cases depth with
  | zero => rfl
  | succ depth =>
    rw [value?_index, value?_index, htarget.value,
      mapM_congr_of_forall₂ h fun a b hab => hab.value env tolerance depth]

theorem ExecuteAlike.assign (name : String) {a b : Node} (h : ExecuteAlike a b) :
    ExecuteAlike (.assign name a line) (.assign name b line') := by
  intro env tolerance depth
  cases depth with
  | zero => rfl
  | succ depth => rw [execute?_assign, execute?_assign, h]

theorem Agree.executeAlike {a b : Node} (h : Agree a b) (ha : a.isAssign = false)
    (hb : b.isAssign = false) : ExecuteAlike a b := by
  intro env tolerance depth
  cases depth with
  | zero => rfl
  | succ depth =>
    rw [execute?_of_isAssign_eq_false _ _ _ ha, execute?_of_isAssign_eq_false _ _ _ hb, h.value]

end Agree

end Node

/-- Only statements are assignments. -/
def Category.Proper : (c : Category) → c.Meaning → Prop
  | .expression, node => node.isAssign = false
  | .term, node => node.isAssign = false
  | .unary, node => node.isAssign = false
  | .power, node => node.isAssign = false
  | .indexed, node => node.isAssign = false
  | .primary, node => node.isAssign = false
  | _, _ => True

theorem Phrase.proper {c : Category} (p : Phrase c) : c.Proper p.tree := by
  induction p <;> first | assumption | trivial

end MatrixCalculator
