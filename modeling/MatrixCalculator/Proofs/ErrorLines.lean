import Mathlib
import MatrixCalculator.Proofs.Composition
import MatrixCalculator.Proofs.Positions
import MatrixCalculator.Proofs.Runs

namespace MatrixCalculator

/-- All lines that the tree stores have the property. -/
def Node.LinesIn (s : Nat → Prop) (node : Node) : Prop := ∀ part, Part part node → s part.line

namespace Node.LinesIn

variable {s : Nat → Prop} {left right operand target value : Node} {args : List Node}
  {name : String} {line : Nat}

@[simp] theorem number {x : Float} (hline : s line) : (Node.number x line).LinesIn s := by
  intro part h
  cases h with
  | whole => exact hline

@[simp] theorem ident (hline : s line) : (Node.ident name line).LinesIn s := by
  intro part h
  cases h with
  | whole => exact hline

@[simp] theorem matrix {rows : List (List Node)} (hline : s line)
    (hrows : ∀ row ∈ rows, ∀ e ∈ row, e.LinesIn s) : (Node.matrix rows line).LinesIn s := by
  intro part h
  cases h with
  | whole => exact hline
  | cell hrow he h => exact hrows _ hrow _ he part h

@[simp] theorem neg (hline : s line) (hoperand : operand.LinesIn s) :
    (Node.neg operand line).LinesIn s := by
  intro part h
  cases h with
  | whole => exact hline
  | operand h => exact hoperand part h

@[simp] theorem binary {op : BinaryOp} (hline : s line) (hleft : left.LinesIn s)
    (hright : right.LinesIn s) : (Node.binary op left right line).LinesIn s := by
  intro part h
  cases h with
  | whole => exact hline
  | left h => exact hleft part h
  | right h => exact hright part h

@[simp] theorem call (hline : s line) (hargs : ∀ e ∈ args, e.LinesIn s) :
    (Node.call name args line).LinesIn s := by
  intro part h
  cases h with
  | whole => exact hline
  | argument he h => exact hargs _ he part h

@[simp] theorem index (hline : s line) (htarget : target.LinesIn s)
    (hindices : ∀ e ∈ args, e.LinesIn s) : (Node.index target args line).LinesIn s := by
  intro part h
  cases h with
  | whole => exact hline
  | target h => exact htarget part h
  | position he h => exact hindices _ he part h

@[simp] theorem assign (hline : s line) (hvalue : value.LinesIn s) :
    (Node.assign name value line).LinesIn s := by
  intro part h
  cases h with
  | whole => exact hline
  | value h => exact hvalue part h

end Node.LinesIn

/-- A node stands on the line of one of its tokens. -/
theorem Phrase.linesIn {s : Nat → Prop} {c : Category} (p : Phrase c)
    (h : ∀ t ∈ p.yield, s t.line) : c.All (Node.LinesIn s) (Node.LinesIn s) p.tree := by
  induction p with
  | matrix l rows gap r ih =>
    simp only [yield, List.forall_mem_append, List.forall_mem_cons] at h
    exact .matrix h.1.1.1 (ih h.1.1.2)
  | nextRow rows sep gap row ihr ih =>
    simp only [yield, List.forall_mem_append, List.forall_mem_cons] at h
    exact List.forall_mem_append.mpr ⟨ihr h.1.1, List.forall_mem_singleton.mpr (ih h.2)⟩
  | _ => simp_all [Category.All, Place.mark, Place.token, or_imp, forall_and]

theorem line_of_mem_tokenize {text : String} {t : Token} (h : t ∈ tokenize text) :
    1 ≤ t.line ∧ t.line ≤ endLine text := by
  obtain ⟨ts, l, c, -, htokens, -⟩ := exists_tokenize text
  have hstart : ¬t.place.Before ⟨1, 1⟩ := Piece.not_before_of_mem_place t h
  have hascend := pairwise_tokenize text
  rw [htokens] at h hascend
  have hlast : (⟨.endOfInput, l, c⟩ : Token).line = endLine text := eq_endLine htokens
  refine ⟨?_, ?_⟩
  · unfold Place.Before at hstart
    dsimp only [Token.place] at hstart
    omega
  · rcases List.mem_append.mp h with hmem | hmem
    · have hbefore : t.place.Before ⟨l, c⟩ :=
        (List.pairwise_append.mp hascend).2.2 t hmem _ (List.mem_singleton_self _)
      unfold Place.Before at hbefore
      dsimp only [Token.place] at hbefore
      dsimp only at hlast
      omega
    · rw [List.mem_singleton.mp hmem]
      exact hlast.le

/-- Every part of a statement that is read stands on a line of the text. -/
theorem line_of_parse {text : String} {nodes : List Node} {rest : List Token}
    (h : parse text = .complete nodes rest) {node part : Node} (hnode : node ∈ nodes)
    (hpart : Node.Part part node) : 1 ≤ part.line ∧ part.line ≤ endLine text := by
  obtain ⟨p, rfl, -, htokens⟩ := exists_phrase_of_parse h
  have hlines := p.linesIn (s := fun line => 1 ≤ line ∧ line ≤ endLine text) fun t ht =>
    line_of_mem_tokenize (htokens t ht)
  exact hlines node hnode part hpart

namespace Evaluation

variable (env : Environment) (tolerance : Float)

def HasValue (node : Node) (v : Value) : Prop := ∃ depth, eval env tolerance depth node = .ok v

def HasNumber (node : Node) (x : Float) : Prop :=
  ∃ v, HasValue env tolerance node v ∧ v.number? = some x

/-- The node itself fails for the cause: what it evaluates has values, and what it does with them
fails. -/
inductive FailsItself : Node → Cause → Prop where
  | unbound {name : String} {line : Nat} (h : env.get? name = none) :
      FailsItself (.ident name line) (.unbound name)
  | element {before after : List (List Node)} {front back : List Node} {e : Node}
      {m : DenseMatrix Float} {line : Nat}
      (hbefore : ∀ row ∈ before, ∀ c ∈ row, ∃ x, HasNumber env tolerance c x)
      (hfront : ∀ c ∈ front, ∃ x, HasNumber env tolerance c x)
      (he : HasValue env tolerance e (.matrix m)) (hm : m.only? = none) :
      FailsItself (.matrix (before ++ (front ++ e :: back) :: after) line)
        (.misfit s!"Matrix element must be a number, got a {m.shape.text} matrix")
  | rows {rows : List (List Node)} {entries : List (List Float)} {line : Nat} {cause : Cause}
      (hrows : List.Forall₂ (List.Forall₂ (HasNumber env tolerance)) rows entries)
      (h : DenseMatrix.ofRows? entries = fail cause) : FailsItself (.matrix rows line) cause
  | operator {op : BinaryOp} {left right : Node} {a b : Value} {line : Nat} {cause : Cause}
      (hleft : HasValue env tolerance left a) (hright : HasValue env tolerance right b)
      (h : Value.binary op a b tolerance = fail cause) :
      FailsItself (.binary op left right line) cause
  | unknown {name : String} {args : List Node} {line : Nat} (h : Builtin.find? name = none) :
      FailsItself (.call name args line) (.unknownFunction name)
  | arity {name : String} {args : List Node} {b : Builtin} {line : Nat}
      (hb : Builtin.find? name = some b) (h : args.length ≠ b.arity) :
      FailsItself (.call name args line) (.arity name b.arity args.length)
  | function {name : String} {args : List Node} {values : List Value} {b : Builtin} {line : Nat}
      {cause : Cause} (hb : Builtin.find? name = some b) (harity : args.length = b.arity)
      (hargs : List.Forall₂ (HasValue env tolerance) args values)
      (h : b.call values tolerance = fail cause) : FailsItself (.call name args line) cause
  | index {target : Node} {indices : List Node} {v : Value} {positions : List Value} {line : Nat}
      {cause : Cause} (htarget : HasValue env tolerance target v)
      (hindices : List.Forall₂ (HasValue env tolerance) indices positions)
      (h : pick (Node.index target indices line).render v positions = fail cause) :
      FailsItself (.index target indices line) cause

/-- The failure, if it is an error, is on the line of a part that fails itself. -/
def Located (node : Node) : Failure → Prop
  | .error e => ∃ part cause, Node.Part part node ∧ FailsItself env tolerance part cause ∧
      cause.ownLine? = none ∧ e = ⟨cause, some part.line⟩
  | .fault _ => True

variable {env tolerance}

theorem Located.lift {part node : Node} {failure : Failure}
    (h : Located env tolerance part failure)
    (hpart : ∀ {leaf : Node}, Node.Part leaf part → Node.Part leaf node) :
    Located env tolerance node failure := by
  cases failure with
  | error e =>
    obtain ⟨leaf, cause, hleaf, hfails⟩ := h
    exact ⟨leaf, cause, hpart hleaf, hfails⟩
  | fault f => trivial

theorem located_atLine {node : Node} {cause : Cause} (hline : cause.ownLine? = none)
    (h : FailsItself env tolerance node cause) :
    Located env tolerance node (.atLine node.line (.error ⟨cause, none⟩)) := by
  refine ⟨node, cause, .whole, h, hline, ?_⟩
  simp [Error.atLine, Error.line?, hline]

theorem located_attachLine {α : Type} {P : α → Prop} {zero : Prop} {large : Excess → Prop}
    {node : Node} {r : Except Failure α} (h : Yields P (Failure.Raised zero large) r)
    (hfails : ∀ cause, r = fail cause → FailsItself env tolerance node cause) :
    Yields (fun _ => True) (Located env tolerance node) (attachLine node.line r) := by
  cases r with
  | ok a => trivial
  | error e =>
    cases h with
    | error h hline => exact located_atLine hline (hfails _ rfl)
    | zeroPivot h => trivial
    | excess h => trivial

/-- Every error of the expression is on the line of a part that fails itself. -/
def Traced (env : Environment) (tolerance : Float) (depth : Nat) (node : Node) : Prop :=
  Yields (fun _ => True) (Located env tolerance node) (eval env tolerance depth node)

theorem Traced.lift {depth : Nat} {part node : Node} (h : Traced env tolerance depth part)
    (hpart : ∀ {leaf : Node}, Node.Part leaf part → Node.Part leaf node) :
    Yields (fun _ => True) (Located env tolerance node) (eval env tolerance depth part) :=
  h.mono (fun _ _ => trivial) fun _ he => he.lift hpart

theorem traced_of_succ {node : Node} (h : ∀ depth, Traced env tolerance (depth + 1) node)
    (depth : Nat) : Traced env tolerance depth node := by
  cases depth with
  | zero => exact trivial
  | succ depth => exact h depth

theorem element_cases (line : Nat) (v : Value) :
    (∃ x, v.number? = some x ∧ element line v = .ok x) ∨
    ∃ m, v = .matrix m ∧ m.only? = none ∧ element line v = attachLine line
      (fail (.misfit s!"Matrix element must be a number, got a {m.shape.text} matrix")) := by
  cases v with
  | scalar x => exact .inl ⟨x, rfl, rfl⟩
  | matrix m =>
    cases hm : m.only? with
    | some x => exact .inl ⟨x, hm, by rw [element, hm]⟩
    | none => exact .inr ⟨m, rfl, hm, by rw [element, hm]⟩

theorem hasNumber_of_entry {depth line : Nat} {e : Node} {x : Float}
    (h : entry env tolerance depth line e = .ok x) : HasNumber env tolerance e x := by
  obtain ⟨v, hv, hx⟩ := exists_of_bind_eq_ok h
  rcases element_cases line v with ⟨y, hy, helement⟩ | ⟨m, rfl, hm, helement⟩
  · rw [helement] at hx
    exact ⟨v, ⟨depth, hv⟩, Except.ok.inj hx ▸ hy⟩
  · rw [helement] at hx
    contradiction

theorem hasNumber_of_mapM {depth line : Nat} {row : List Node} {xs : List Float}
    (h : row.mapM (entry env tolerance depth line) = .ok xs) :
    List.Forall₂ (HasNumber env tolerance) row xs :=
  (forall₂_of_mapM h).imp fun _ _ => hasNumber_of_entry

theorem traced_values {depth : Nat} {parts : List Node} {node : Node}
    (h : ∀ e ∈ parts, Traced env tolerance depth e)
    (hpart : ∀ e ∈ parts, ∀ {leaf : Node}, Node.Part leaf e → Node.Part leaf node) :
    Yields (fun values => values.length = parts.length ∧ ∀ v ∈ values, True)
      (Located env tolerance node) (parts.mapM (eval env tolerance depth)) := by
  refine Yields.mapM fun before e after hsplit _ => ?_
  have he : e ∈ parts := hsplit ▸ List.mem_append_cons_self
  exact (h e he).lift (hpart e he)

theorem hasValue_of_mapM {depth : Nat} {parts : List Node} {values : List Value}
    (h : parts.mapM (eval env tolerance depth) = .ok values) :
    List.Forall₂ (HasValue env tolerance) parts values :=
  (forall₂_of_mapM h).imp fun _ _ hv => ⟨depth, hv⟩

section

variable {depth line : Nat}

theorem traced_binary {op : BinaryOp} {left right : Node}
    (hleft : Traced env tolerance (if left.isBinary then depth + 1 else depth) left)
    (hright : Traced env tolerance depth right) :
    Traced env tolerance (depth + 1) (.binary op left right line) := by
  rw [Traced, eval_binary]
  refine (hleft.lift .left).bind fun a ha _ => ?_
  refine (hright.lift .right).bind fun b hb _ => ?_
  have hoperate : Yields (fun v => v.isFinite = true)
      (Failure.Raised (ZeroCounts tolerance) ⊥) (Value.binary op a b tolerance) :=
    Value.yields_binary op a b
  exact located_attachLine hoperate fun cause h => .operator ⟨_, ha⟩ ⟨_, hb⟩ h

/-- The elements come to numbers in order, up to the first that does not. -/
theorem traced_entries {rows : List (List Node)} (hrow : ∀ row ∈ rows, row ≠ [])
    (h : ∀ row ∈ rows, ∀ e ∈ row, Traced env tolerance depth e) :
    Yields (fun entries : List (List Float) => entries.length = rows.length ∧
        ∀ xs ∈ entries, xs ≠ [])
      (Located env tolerance (.matrix rows line))
      (rows.mapM fun row => row.mapM (entry env tolerance depth line)) := by
  refine Yields.mapM fun before row after hsplit hbefore => ?_
  have hmem : row ∈ rows := hsplit ▸ List.mem_append_cons_self
  refine Yields.mono (Yields.mapM (Q := fun _ => True) fun front e back hcells hfront => ?_)
    (fun xs hxs => ?_) fun _ he => he
  · have he : e ∈ row := hcells ▸ List.mem_append_cons_self
    refine ((h row hmem e he).lift (.cell hmem he)).bind fun v hv _ => ?_
    rcases element_cases line v with ⟨x, _, helement⟩ | ⟨m, rfl, hm, helement⟩
    · rw [helement]
      trivial
    · rw [helement]
      refine located_atLine rfl ?_
      rw [hsplit, hcells]
      refine .element (fun row hrow c hc => ?_) (fun c hc => ?_) ⟨depth, hv⟩ hm
      · obtain ⟨xs, hxs⟩ := hbefore row hrow
        have hnumbers : List.Forall₂ (fun c x => (∃ y, HasNumber env tolerance c y) ∧
            HasNumber env tolerance c x) row xs :=
          (hasNumber_of_mapM hxs).imp fun c x hx => ⟨⟨x, hx⟩, hx⟩
        exact ((List.forall₂_and_left _ _).mp hnumbers).1 c hc
      · obtain ⟨x, hx⟩ := hfront c hc
        exact ⟨x, hasNumber_of_entry hx⟩
  · exact List.ne_nil_of_length_pos (hxs.1 ▸ List.length_pos_of_ne_nil (hrow row hmem))

theorem traced_matrix {rows : List (List Node)} (hrows : rows ≠ []) (hrow : ∀ row ∈ rows, row ≠ [])
    (h : ∀ row ∈ rows, ∀ e ∈ row, Traced env tolerance depth e) :
    Traced env tolerance (depth + 1) (.matrix rows line) := by
  rw [Traced, eval]
  refine (traced_entries hrow h).bind fun entries hmap hentries => ?_
  have hne : entries ≠ [] :=
    List.ne_nil_of_length_pos (hentries.1 ▸ List.length_pos_of_ne_nil hrows)
  have hmatrix : Yields (fun m : DenseMatrix Float => m.data = entries.flatten)
      (Failure.Raised False ⊥) (DenseMatrix.ofRows? entries) :=
    DenseMatrix.yields_ofRows? hne hentries.2
  have hnumbers : List.Forall₂ (List.Forall₂ (HasNumber env tolerance)) rows entries :=
    (forall₂_of_mapM hmap).imp fun _ _ => hasNumber_of_mapM
  exact (located_attachLine hmatrix fun cause hfail => .rows hnumbers hfail).bind
    fun m _ _ => trivial

theorem traced_call {name : String} {args : List Node}
    (h : ∀ e ∈ args, Traced env tolerance depth e) :
    Traced env tolerance (depth + 1) (.call name args line) := by
  rw [Traced, eval]
  split
  · rename_i hnone
    exact located_atLine rfl (.unknown hnone)
  · rename_i b hb
    split
    · rename_i harity
      refine (traced_values h fun e he => .argument he).bind fun values hmap _ => ?_
      have hcall := Builtin.yields_call (Builtin.find?_eq_some hb).1 values tolerance
      exact located_attachLine hcall fun cause hfail =>
        .function hb harity (hasValue_of_mapM hmap) hfail
    · rename_i harity
      exact located_atLine rfl (.arity hb harity)

theorem traced_index {target : Node} {indices : List Node}
    (htext : OneLine (Node.index target indices line).render)
    (hcount : indices.length = 1 ∨ indices.length = 2)
    (htarget : Traced env tolerance depth target)
    (h : ∀ e ∈ indices, Traced env tolerance depth e) :
    Traced env tolerance (depth + 1) (.index target indices line) := by
  rw [Traced, eval]
  refine (htarget.lift .target).bind fun v hv _ => ?_
  refine (traced_values h fun e he => .position he).bind fun positions hmap hlength => ?_
  rw [← hlength.1] at hcount
  have hpick : Yields (fun w => v.Sound → w.Sound) (Failure.Raised False ⊥)
      (pick (Node.index target indices line).render v positions) := yields_pick htext v hcount
  exact located_attachLine hpick fun cause hfail =>
    .index ⟨_, hv⟩ (hasValue_of_mapM hmap) hfail

end

theorem traced {node : Node} (h : node.IsExpression) (depth : Nat) :
    Traced env tolerance depth node := by
  -- A chain of operators stays on its level, so the induction is on the tree and not on the depth.
  induction h generalizing depth with
  | number h =>
    refine traced_of_succ (fun depth => ?_) depth
    rw [Traced, eval]
    trivial
  | @ident name line h =>
    refine traced_of_succ (fun depth => ?_) depth
    rw [Traced, eval, Environment.get]
    cases hname : env.get? name with
    | some v => trivial
    | none => exact ⟨_, _, .whole, .unbound hname, rfl, rfl⟩
  | matrix hrows hrow hcells ih =>
    exact traced_of_succ (fun depth => traced_matrix hrows hrow fun row hmem e he =>
      ih row hmem e he depth) depth
  | neg hoperand ih =>
    refine traced_of_succ (fun depth => ?_) depth
    rw [Traced, eval]
    exact ((ih depth).lift .operand).bind fun v _ _ => trivial
  | binary hleft hright ihl ihr =>
    exact traced_of_succ (fun depth => traced_binary (ihl _) (ihr depth)) depth
  | call hname hargs ih =>
    exact traced_of_succ (fun depth => traced_call fun e he => ih e he depth) depth
  | index htarget hcount hindices iht ih =>
    exact traced_of_succ (fun depth => traced_index
      (Node.IsExpression.index htarget hcount hindices).oneLine_render hcount (iht depth)
      fun e he => ih e he depth) depth

/-- An error of a statement comes from the expression behind its names. -/
theorem located_of_execute {node : Node} (h : node.IsStatement) {depth : Nat} {e : Error}
    (he : execute env tolerance depth node = .error (.error e)) :
    Located env tolerance node (.error e) := by
  rw [execute_eq, result] at he
  split at he
  · cases hbody : eval env tolerance (depth - 1 - node.targets.length) node.body with
    | ok v =>
      rw [hbody] at he
      contradiction
    | error failure =>
      rw [hbody] at he
      obtain rfl : failure = .error e := Except.error.inj he
      have htraced : Traced env tolerance (depth - 1 - node.targets.length) node.body :=
        traced h.body _
      rw [Traced, hbody] at htraced
      exact Located.lift htraced Node.Part.of_body
  · cases he

/-- An error of a statement has one line, which is that of a part of the statement that fails itself
and a line of the text. The message is what the failure of that part says, with the line behind it
once. -/
theorem execute_error_line {text : String} {nodes : List Node} {rest : List Token}
    (h : parse text = .complete nodes rest) {node : Node} (hnode : node ∈ nodes)
    {env : Environment} {tolerance : Float} {depth : Nat} {e : Error}
    (he : execute env tolerance depth node = .error (.error e)) :
    ∃ part, Node.Part part node ∧ FailsItself env tolerance part e.cause ∧
      e.cause.ownLine? = none ∧ e.line? = some part.line ∧
      1 ≤ part.line ∧ part.line ≤ endLine text ∧
      e.message = e.cause.text ++ " on line " ++ toString part.line ∧
      ∀ line, e.atLine line = e := by
  obtain ⟨part, cause, hpart, hfails, hline, rfl⟩ :=
    located_of_execute (isStatement_of_parse h node hnode) he
  obtain ⟨hfirst, hlast⟩ := line_of_parse h hnode hpart
  refine ⟨part, hpart, hfails, hline, ?_, hfirst, hlast, rfl, fun line => ?_⟩
  · simp [Error.line?, hline]
  · simp [Error.atLine, Error.line?]

/-- The error passes through a sign, a matrix, another function and an assignment. -/
theorem execute_error_line_nested : ∃ node part,
    parse "a = trace([x,\n-det(x)])" = .complete [node] [] ∧
    execute ⟨[("x", .scalar 3)]⟩ 0 maxDepth node =
      .error (.error ⟨.invalid "det()" "expects a matrix", some 2⟩) ∧
    Node.Part part node ∧ FailsItself ⟨[("x", .scalar 3)]⟩ 0 part
      (.invalid "det()" "expects a matrix") ∧ part.line = 2 := by
  have hparse : parse "a = trace([x,\n-det(x)])" =
      .complete [.assign "a" (.call "trace" [.matrix [[.ident "x" 1,
        .neg (.call "det" [.ident "x" 2] 2) 2]] 1] 1) 1] [] := by cbv
  have hexecute : execute ⟨[("x", .scalar 3)]⟩ 0 maxDepth
      (.assign "a" (.call "trace" [.matrix [[.ident "x" 1,
        .neg (.call "det" [.ident "x" 2] 2) 2]] 1] 1) 1) =
      .error (.error ⟨.invalid "det()" "expects a matrix", some 2⟩) := by rfl
  obtain ⟨part, hpart, hfails, -, hline, -⟩ :=
    execute_error_line hparse (List.mem_singleton_self _) hexecute
  exact ⟨_, part, hparse, hexecute, hpart, hfails, (Option.some.inj hline).symm⟩

end Evaluation

end MatrixCalculator
