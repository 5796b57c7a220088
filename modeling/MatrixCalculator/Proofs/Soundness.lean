import MatrixCalculator.Proofs.Layout
import MatrixCalculator.Proofs.Operations
import MatrixCalculator.Proofs.Trees

namespace MatrixCalculator

namespace Value

/-- A finite number, or a matrix with rows and columns and as many entries, all finite, as they ask
for. -/
def Sound : Value → Prop
  | .scalar x => x.isFinite = true
  | .matrix m => 1 ≤ m.rows ∧ 1 ≤ m.cols ∧ m.data.length = m.rows * m.cols ∧
    ∀ x ∈ m.data, x.isFinite = true

theorem sound_of_data {m : DenseMatrix Float} :
    (Value.matrix m).Sound ↔ ∀ x ∈ m.data, x.isFinite = true :=
  ⟨fun h => h.2.2.2, fun h => ⟨m.rows_pos, m.cols_pos, m.length_data, h⟩⟩

theorem sound_matrix {m : DenseMatrix Float} :
    (Value.matrix m).Sound ↔ ∀ i j, (m.grid.get i j).isFinite = true := by
  rw [sound_of_data]
  constructor
  · exact fun h i j => h _ (DenseMatrix.mem_data.mpr ⟨i, j, rfl⟩)
  · intro h x hx
    obtain ⟨i, j, rfl⟩ := DenseMatrix.mem_data.mp hx
    exact h i j

theorem sound_iff {v : Value} : v.Sound ↔ v.isFinite = true := by
  cases v with
  | scalar x =>
    show x.isFinite = true ↔ [x].all Float.isFinite = true
    simp
  | matrix m =>
    rw [sound_of_data]
    exact List.all_eq_true.symm

theorem Sound.neg {v : Value} (h : v.Sound) : v.neg.Sound := by
  cases v with
  | scalar x =>
    show (-x).isFinite = true
    rw [isFinite_neg]
    exact h
  | matrix m =>
    refine sound_of_data.mpr fun x hx => ?_
    rw [DenseMatrix.data_map] at hx
    obtain ⟨y, hy, rfl⟩ := List.mem_map.mp hx
    rw [isFinite_neg]
    exact sound_of_data.mp h y hy

end Value

def Environment.Sound (env : Environment) : Prop := ∀ b ∈ env.bindings, b.2.Sound

theorem Environment.Sound.of_get? {env : Environment} (h : env.Sound) {name : String} {v : Value}
    (hv : env.get? name = some v) : v.Sound := by
  obtain ⟨b, hb, rfl⟩ := Option.map_eq_some_iff.mp hv
  exact h b (List.mem_of_find?_eq_some hb)

section

variable {zero : Prop} {large : Excess → Prop}

theorem Environment.yields_get {env : Environment} {name : String} (hname : OneLine name)
    (line : Option Nat) :
    Yields (fun v => env.Sound → v.Sound) (Failure.Foreseen zero large) (env.get name line) := by
  unfold get
  split
  · rename_i v hv
    exact fun h => h.of_get? hv
  · exact Failure.Foreseen.error (Cause.isLine_unbound hname)

namespace DenseMatrix

theorem yields_ofRows? {rows : List (List Float)} (hrows : rows ≠ [])
    (hrow : ∀ row ∈ rows, row ≠ []) :
    Yields (fun m => m.data = rows.flatten) (Failure.Raised zero large) (ofRows? rows) := by
  unfold ofRows?
  split
  · contradiction
  · rename_i first later
    split
    · exact Failure.Raised.error (Cause.isLine_mismatch _ _ (by decide)) rfl
    · rename_i hlength
      have hsame : ∀ row ∈ first :: later, row.length = first.length := by
        simpa using List.find?_eq_none.mp hlength
      have hcount : (first :: later).flatten.length = (first :: later).length * first.length := by
        rw [List.length_flatten, List.map_congr_left hsame, List.map_const', List.sum_replicate_nat]
      have hfirst : 0 < first.length := List.length_pos_of_ne_nil (hrow first List.mem_cons_self)
      rw [ofData?_eq_ofList (List.length_pos_of_ne_nil hrows) hfirst hcount]
      exact data_ofList

theorem yields_get (m : DenseMatrix Float) (i j : Int) :
    Yields (fun x => (Value.matrix m).Sound → x.isFinite = true) (Failure.Raised zero large)
      (m.get i j) := by
  unfold get
  split
  · rw [entry_eq]
    exact fun h => Value.sound_matrix.mp h _ _
  · exact Failure.Raised.error (Cause.isLine_outOfRange _ _) rfl

theorem yields_row (m : DenseMatrix Float) (i : Int) :
    Yields (fun row => (Value.matrix m).Sound → (Value.matrix row).Sound)
      (Failure.Raised zero large) (m.row i) := by
  by_cases hrange : 0 ≤ i ∧ i < m.rows
  · obtain ⟨k, rfl⟩ := Int.eq_ofNat_of_zero_le hrange.1
    have hk : k < m.rows := by omega
    rw [m.row_eq_rowAt ⟨k, hk⟩]
    intro h
    refine Value.sound_matrix.mpr fun z j => ?_
    rw [m.get_rowAt ⟨k, hk⟩ z j]
    exact Value.sound_matrix.mp h _ j
  · rw [row, if_neg hrange]
    exact Failure.Raised.error (Cause.isLine_outOfRange _ _) rfl

theorem yields_select (m : DenseMatrix Float) (i : Int) :
    Yields (fun part => (Value.matrix m).Sound → (part.elim Value.scalar Value.matrix).Sound)
      (Failure.Raised zero large) (m.select i) := by
  unfold select
  split
  · exact (m.yields_get 0 i).map fun x hx => hx
  · split
    · exact (m.yields_get i 0).map fun x hx => hx
    · exact (m.yields_row i).map fun row hrow => hrow

end DenseMatrix

namespace Evaluation

theorem yields_element (line : Nat) (v : Value) :
    Yields (fun x => v.Sound → x.isFinite = true) (Failure.Foreseen zero large)
      (element line v) := by
  unfold element
  split
  · exact fun h => h
  · rename_i m
    split
    · rename_i x hx
      intro h
      unfold DenseMatrix.only? at hx
      split at hx
      · rw [← Option.some.inj hx, DenseMatrix.entry_eq]
        exact Value.sound_matrix.mp h _ _
      · contradiction
    · refine Failure.Foreseen.atLine _ line (.error ?_)
      have hshape : OneLine m.shape.text := oneLine_shapeText (some m.shape)
      show OneLine s!"Matrix element must be a number, got a {m.shape.text} matrix"
      simp only [oneLine_append, oneLine_toString, hshape, and_true]
      decide

/-- One index or two pick a finite part of a finite matrix, if any. -/
theorem yields_pick {text : String} (htext : OneLine text) (v : Value) {indices : List Value}
    (hcount : indices.length = 1 ∨ indices.length = 2) :
    Yields (fun w => v.Sound → w.Sound) (Failure.Raised zero large) (pick text v indices) := by
  unfold pick
  split
  · exact Failure.Raised.error (Cause.isLine_invalid htext (by decide)) rfl
  · rename_i m
    refine Yields.bind (P := fun positions : List Int => positions.length = indices.length ∧
        ∀ i ∈ positions, True) (Yields.mapM fun before x after _ _ => ?_)
      fun positions _ hlength => ?_
    · split
      · trivial
      · exact Failure.Raised.error (Cause.isLine_invalid htext (by decide)) rfl
    · split
      · rename_i i _
        refine (m.yields_select i).bind fun part _ hpart => ?_
        split <;> exact hpart
      · rename_i i j _
        exact (m.yields_get i j).bind fun x _ hx => hx
      · rename_i hone htwo
        rw [← hlength.1] at hcount
        rcases hcount with hcount | hcount
        · obtain ⟨i, rfl⟩ := List.length_eq_one_iff.mp hcount
          exact absurd rfl (hone i)
        · obtain ⟨i, j, rfl⟩ := List.length_eq_two.mp hcount
          exact absurd rfl (htwo i j)

end Evaluation

end

theorem exists_of_bind_eq_ok {α β : Type} {r : Except Failure α} {f : α → Except Failure β} {b : β}
    (h : r >>= f = .ok b) : ∃ a, r = .ok a ∧ f a = .ok b := by
  cases r with
  | ok a => exact ⟨a, rfl, h⟩
  | error e => contradiction

theorem forall₂_of_mapM {α β : Type} {f : α → Except Failure β} {xs : List α} {ys : List β}
    (h : xs.mapM f = .ok ys) : List.Forall₂ (fun x y => f x = .ok y) xs ys := by
  induction xs generalizing ys with
  | nil =>
    obtain rfl := Except.ok.inj h
    exact .nil
  | cons x xs ih =>
    rw [List.mapM_cons] at h
    obtain ⟨y, hy, h⟩ := exists_of_bind_eq_ok h
    obtain ⟨ys', hys, h⟩ := exists_of_bind_eq_ok h
    obtain rfl := Except.ok.inj h
    exact .cons hy (ih hys)

namespace Evaluation

variable {env : Environment} {tolerance : Float}

/-- The number that an element of a matrix comes to. -/
def entry (env : Environment) (tolerance : Float) (depth line : Nat) (e : Node) :
    Except Failure Float :=
  eval env tolerance depth e >>= element line

/-- The evaluation gets as far as a call that asks for too much. -/
inductive ComesTo (env : Environment) (tolerance : Float) (x : Excess) : Nat → Node → Prop where
  | call {depth line : Nat} {name : String} {b : Builtin} {args : List Node} {values : List Value}
      (hname : Builtin.find? name = some b) (harity : args.length = b.arity)
      (hargs : args.mapM (eval env tolerance depth) = .ok values)
      (h : Builtin.Exceeds name values tolerance x) :
      ComesTo env tolerance x (depth + 1) (.call name args line)
  | cell {depth line : Nat} {rows later : List (List Node)} {before after : List Node} {e : Node}
      (hrows : ∀ row ∈ rows, ∃ xs, row.mapM (entry env tolerance depth line) = .ok xs)
      (hbefore : ∀ e ∈ before, ∃ x, entry env tolerance depth line e = .ok x)
      (h : ComesTo env tolerance x depth e) :
      ComesTo env tolerance x (depth + 1)
        (.matrix (rows ++ (before ++ e :: after) :: later) line)
  | operand {depth line : Nat} {operand : Node} (h : ComesTo env tolerance x depth operand) :
      ComesTo env tolerance x (depth + 1) (.neg operand line)
  | left {depth line : Nat} {op : BinaryOp} {left right : Node}
      (h : ComesTo env tolerance x (if left.isBinary then depth + 1 else depth) left) :
      ComesTo env tolerance x (depth + 1) (.binary op left right line)
  | right {depth line : Nat} {op : BinaryOp} {left right : Node} {a : Value}
      (hleft : eval env tolerance (if left.isBinary then depth + 1 else depth) left = .ok a)
      (h : ComesTo env tolerance x depth right) :
      ComesTo env tolerance x (depth + 1) (.binary op left right line)
  | argument {depth line : Nat} {name : String} {b : Builtin} {before after : List Node} {e : Node}
      (hname : Builtin.find? name = some b) (harity : (before ++ e :: after).length = b.arity)
      (hbefore : ∀ e ∈ before, ∃ v, eval env tolerance depth e = .ok v)
      (h : ComesTo env tolerance x depth e) :
      ComesTo env tolerance x (depth + 1) (.call name (before ++ e :: after) line)
  | target {depth line : Nat} {target : Node} {indices : List Node}
      (h : ComesTo env tolerance x depth target) :
      ComesTo env tolerance x (depth + 1) (.index target indices line)
  | position {depth line : Nat} {target e : Node} {before after : List Node} {v : Value}
      (htarget : eval env tolerance depth target = .ok v)
      (hbefore : ∀ e ∈ before, ∃ v, eval env tolerance depth e = .ok v)
      (h : ComesTo env tolerance x depth e) :
      ComesTo env tolerance x (depth + 1) (.index target (before ++ e :: after) line)

/-- What the evaluation of a tree may come to. -/
def Foreseen (env : Environment) (tolerance : Float) (depth : Nat) (node : Node) : Failure → Prop :=
  Failure.Foreseen (ZeroCounts tolerance ∨ LogVanishes) fun x => ComesTo env tolerance x depth node

/-- A failure of a part is one of the whole when evaluation gets to the part. -/
theorem Foreseen.lift {depth depth' : Nat} {part node : Node} {e : Failure}
    (h : Foreseen env tolerance depth part e)
    (hlift : ∀ x, ComesTo env tolerance x depth part → ComesTo env tolerance x depth' node) :
    Foreseen env tolerance depth' node e :=
  Failure.Foreseen.mono h id hlift

/-- Over sound variables a tree comes to a sound value, if to any. -/
def Behaves (env : Environment) (tolerance : Float) (depth : Nat) (node : Node) : Prop :=
  Yields (fun v => env.Sound → v.Sound) (Foreseen env tolerance depth node)
    (eval env tolerance depth node)

theorem Behaves.lift {depth depth' : Nat} {part node : Node}
    (h : Behaves env tolerance depth part)
    (hlift : ∀ x, ComesTo env tolerance x depth part → ComesTo env tolerance x depth' node) :
    Yields (fun v => env.Sound → v.Sound) (Foreseen env tolerance depth' node)
      (eval env tolerance depth part) :=
  h.mono (fun _ hv => hv) fun _ he => he.lift hlift

theorem yields_values {depth depth' : Nat} {parts : List Node} {node : Node}
    (h : ∀ e ∈ parts, Behaves env tolerance depth e)
    (hlift : ∀ before e after, parts = before ++ e :: after →
      (∀ e ∈ before, ∃ v, eval env tolerance depth e = .ok v) →
      ∀ x, ComesTo env tolerance x depth e → ComesTo env tolerance x depth' node) :
    Yields (fun values => values.length = parts.length ∧ ∀ v ∈ values, env.Sound → v.Sound)
      (Foreseen env tolerance depth' node) (parts.mapM (eval env tolerance depth)) := by
  refine Yields.mapM fun before e after hsplit hbefore => ?_
  have he : e ∈ parts := hsplit ▸ List.mem_append_cons_self
  exact (h e he).lift (hlift before e after hsplit hbefore)

section

variable {depth line : Nat}

theorem behaves_neg {operand : Node} (h : Behaves env tolerance depth operand) :
    Behaves env tolerance (depth + 1) (.neg operand line) := by
  rw [Behaves, eval]
  exact (h.lift fun _ => .operand).bind fun v _ hv henv => (hv henv).neg

theorem behaves_binary {op : BinaryOp} {left right : Node}
    (hleft : Behaves env tolerance (if left.isBinary then depth + 1 else depth) left)
    (hright : Behaves env tolerance depth right) :
    Behaves env tolerance (depth + 1) (.binary op left right line) := by
  rw [Behaves, eval_binary]
  refine (hleft.lift fun _ => .left).bind fun a ha _ => ?_
  refine (hright.lift fun _ => .right ha).bind fun b _ _ => ?_
  have hoperate : Yields (fun v => env.Sound → v.Sound)
      (Foreseen env tolerance (depth + 1) (.binary op left right line))
      (Value.binary op a b tolerance) :=
    (Value.yields_binary op a b).mono (fun v hv _ => Value.sound_iff.mpr hv)
      fun e he => (he.mono Or.inl fun _ => False.elim).foreseen
  exact hoperate.attachLine Failure.Foreseen.atLine line

theorem yields_entry {depth' : Nat} {e node : Node} (h : Behaves env tolerance depth e)
    (hlift : ∀ x, ComesTo env tolerance x depth e → ComesTo env tolerance x depth' node) :
    Yields (fun x => env.Sound → x.isFinite = true) (Foreseen env tolerance depth' node)
      (entry env tolerance depth line e) :=
  (h.lift hlift).bind fun v _ hv =>
    (yields_element line v).mono (fun _ hx henv => hx (hv henv)) fun _ he => he

theorem yields_entries {rows : List (List Node)} (hrow : ∀ row ∈ rows, row ≠ [])
    (h : ∀ row ∈ rows, ∀ e ∈ row, Behaves env tolerance depth e) :
    Yields (fun entries : List (List Float) => entries.length = rows.length ∧
        ∀ xs ∈ entries, xs ≠ [] ∧ (env.Sound → ∀ x ∈ xs, x.isFinite = true))
      (Foreseen env tolerance (depth + 1) (.matrix rows line))
      (rows.mapM fun row => row.mapM (entry env tolerance depth line)) := by
  refine Yields.mapM fun before row after hsplit hbefore => ?_
  have hmem : row ∈ rows := hsplit ▸ List.mem_append_cons_self
  refine Yields.mono (Yields.mapM (Q := fun x => env.Sound → x.isFinite = true)
    fun front e back hcells hfront => ?_) (fun xs hxs => ⟨?_, ?_⟩) fun _ he => he
  · refine yields_entry (h row hmem e (hcells ▸ List.mem_append_cons_self)) fun x hx => ?_
    rw [hsplit, hcells]
    exact .cell hbefore hfront hx
  · exact List.ne_nil_of_length_pos (hxs.1 ▸ List.length_pos_of_ne_nil (hrow row hmem))
  · exact fun henv x hx => hxs.2 x hx henv

theorem behaves_matrix {rows : List (List Node)} (hrows : rows ≠ []) (hrow : ∀ row ∈ rows, row ≠ [])
    (h : ∀ row ∈ rows, ∀ e ∈ row, Behaves env tolerance depth e) :
    Behaves env tolerance (depth + 1) (.matrix rows line) := by
  rw [Behaves, eval]
  refine (yields_entries hrow h).bind fun entries _ hfinite => ?_
  have hne : entries ≠ [] :=
    List.ne_nil_of_length_pos (hfinite.1 ▸ List.length_pos_of_ne_nil hrows)
  have hmatrix : Yields (fun m : DenseMatrix Float => m.data = entries.flatten)
      (Foreseen env tolerance (depth + 1) (.matrix rows line)) (DenseMatrix.ofRows? entries) :=
    (DenseMatrix.yields_ofRows? hne fun xs hxs => (hfinite.2 xs hxs).1).mono (fun _ hm => hm)
      fun _ he => he.foreseen
  refine (hmatrix.attachLine Failure.Foreseen.atLine line).bind fun m _ hm henv => ?_
  refine Value.sound_of_data.mpr fun x hx => ?_
  rw [hm] at hx
  obtain ⟨xs, hxs, hx⟩ := List.mem_flatten.mp hx
  exact (hfinite.2 xs hxs).2 henv x hx

theorem behaves_call {name : String} {args : List Node} (hname : IsWord name)
    (h : ∀ e ∈ args, Behaves env tolerance depth e) :
    Behaves env tolerance (depth + 1) (.call name args line) := by
  rw [Behaves, eval]
  split
  · exact Failure.Foreseen.atLine _ line (.error (Cause.isLine_unknownFunction hname.oneLine))
  · rename_i b hb
    obtain ⟨hall, rfl⟩ := Builtin.find?_eq_some hb
    split
    · rename_i harity
      refine (yields_values h fun before e after hsplit hbefore x hx => ?_).bind
        fun values hmap _ => ?_
      · rw [hsplit] at harity ⊢
        exact .argument hb harity hbefore hx
      have hcall : Yields (fun v => env.Sound → v.Sound)
          (Foreseen env tolerance (depth + 1) (.call b.name args line))
          (b.call values tolerance) :=
        (Builtin.yields_call hall values tolerance).mono (fun v hv _ => Value.sound_iff.mpr hv)
          fun e he => (he.mono id fun x hx => .call hb harity hmap hx).foreseen
      exact hcall.attachLine Failure.Foreseen.atLine line
    · exact Failure.Foreseen.atLine _ line (.error (Cause.isLine_arity hname.oneLine _ _))

theorem behaves_index {target : Node} {indices : List Node}
    (htext : OneLine (Node.index target indices line).render)
    (hcount : indices.length = 1 ∨ indices.length = 2)
    (htarget : Behaves env tolerance depth target)
    (h : ∀ e ∈ indices, Behaves env tolerance depth e) :
    Behaves env tolerance (depth + 1) (.index target indices line) := by
  rw [Behaves, eval]
  refine (htarget.lift fun _ => .target).bind fun v hv hsound => ?_
  refine (yields_values h fun before e after hsplit hbefore x hx => ?_).bind
    fun positions _ hlength => ?_
  · rw [hsplit]
    exact .position hv hbefore hx
  rw [← hlength.1] at hcount
  have hpick : Yields (fun w => v.Sound → w.Sound)
      (Foreseen env tolerance (depth + 1) (.index target indices line))
      (pick (Node.index target indices line).render v positions) :=
    (yields_pick htext v hcount).mono (fun _ hw => hw) fun _ he => he.foreseen
  exact (hpick.attachLine Failure.Foreseen.atLine line).mono (fun w hw henv => hw (hsound henv))
    fun _ he => he

end

theorem behaves_of_succ {node : Node} (h : ∀ depth, Behaves env tolerance (depth + 1) node)
    (depth : Nat) : Behaves env tolerance depth node := by
  cases depth with
  | zero => exact Failure.Foreseen.nestedEvaluation
  | succ depth => exact h depth

/-- Every expression that reading gives behaves, at every depth. -/
theorem behaves {node : Node} (h : node.IsExpression) (depth : Nat) :
    Behaves env tolerance depth node := by
  -- A chain of operators stays on its level, so the induction is on the tree and not on the depth.
  induction h generalizing depth with
  | number h =>
    refine behaves_of_succ (fun depth => ?_) depth
    rw [Behaves, eval]
    exact fun _ => h
  | ident h =>
    refine behaves_of_succ (fun depth => ?_) depth
    rw [Behaves, eval]
    exact Environment.yields_get h.oneLine _
  | matrix hrows hrow h ih =>
    refine behaves_of_succ (fun depth => ?_) depth
    exact behaves_matrix hrows hrow fun row hmem e he => ih row hmem e he depth
  | neg h ih => exact behaves_of_succ (fun depth => behaves_neg (ih depth)) depth
  | binary hleft hright ihl ihr =>
    exact behaves_of_succ (fun depth => behaves_binary (ihl _) (ihr depth)) depth
  | call hname hargs ih =>
    exact behaves_of_succ (fun depth => behaves_call hname fun e he => ih e he depth) depth
  | index htarget hcount hindices iht ih =>
    refine behaves_of_succ (fun depth => ?_) depth
    refine behaves_index ?_ hcount (iht depth) fun e he => ih e he depth
    exact (Node.IsExpression.index htarget hcount hindices).oneLine_render

end Evaluation

end MatrixCalculator
