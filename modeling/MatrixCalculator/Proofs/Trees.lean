import MatrixCalculator.Proofs.Lines
import MatrixCalculator.Proofs.Values
import MatrixCalculator.Proofs.Verdicts

namespace MatrixCalculator

def IsWord (s : String) : Prop :=
  ∃ c cs, s = String.ofList (c :: cs) ∧ c.isAlpha = true ∧ ∀ d ∈ cs, Lexeme.isWordChar d = true

theorem IsWord.oneLine {s : String} (h : IsWord s) : OneLine s := by
  obtain ⟨c, cs, rfl, hc, hcs⟩ := h
  refine spelled_ofList.mpr (List.forall_mem_cons.mpr ⟨?_, fun d hd => ?_⟩)
  · rintro rfl
    exact absurd hc (by decide)
  · rintro rfl
    exact absurd (hcs _ hd) (by decide)

/-- What cutting a text grants of a token. -/
def Token.Lexed (t : Token) : Prop :=
  (∀ value, t.kind = .number value → value.isFinite = true) ∧
    ∀ name, t.kind = .name name → IsWord name

namespace Piece

def Cut (p : Piece) : Prop :=
  p.form = .word → p.first.isAlpha = true ∧ ∀ c ∈ p.others, Lexeme.isWordChar c = true

theorem cut_cut (cs : List Char) : ∀ p ∈ cut cs, p.Cut := by
  rintro ⟨form, c, others⟩ hp hword
  obtain rfl : form = .word := hword
  obtain ⟨rest, hmaximal⟩ := exists_maximal hp
  obtain ⟨hfirst, hrun⟩ : c.isAlpha = true ∧ Lexeme.Run Lexeme.isWordChar others rest := hmaximal
  exact ⟨hfirst, hrun.1⟩

theorem numeralKind_number {cs : List Char} {value : Float} (h : numeralKind cs = .number value) :
    value.isFinite = true := by
  rcases numeralKind_cases cs with ⟨n, -, hfinite, hkind⟩ | ⟨-, hkind⟩
  · obtain rfl := Kind.number.inj (hkind.symm.trans h)
    exact hfinite
  · rw [hkind] at h
    contradiction

theorem lexed_of_kind? {p : Piece} (hp : p.Cut) {kind : Kind} (h : p.kind? = some kind)
    (line column : Nat) : Token.Lexed ⟨kind, line, column⟩ := by
  unfold kind? at h
  split at h
  · obtain rfl := Option.some.inj h
    refine ⟨fun value => numeralKind_number, fun name hname => ?_⟩
    rcases numeralKind_cases p.text with ⟨n, -, -, hkind⟩ | ⟨-, hkind⟩
    · exact absurd (hkind.symm.trans hname) (by simp)
    · exact absurd (hkind.symm.trans hname) (by simp)
  · rename_i hform
    obtain rfl := Option.some.inj h
    refine ⟨nofun, fun name hname => ?_⟩
    obtain ⟨hfirst, hothers⟩ := hp hform
    exact ⟨p.first, p.others, (Kind.name.inj hname).symm, hfirst, hothers⟩
  · obtain rfl := Option.some.inj h
    exact ⟨nofun, nofun⟩
  · obtain rfl := Option.some.inj h
    exact ⟨nofun, nofun⟩
  · obtain rfl := Option.some.inj h
    exact ⟨nofun, nofun⟩
  · contradiction
  · contradiction

theorem lexed_place {line column : Nat} {ps : List Piece} (hps : ∀ p ∈ ps, p.Cut) :
    ∀ t ∈ place line column ps, t.Lexed := by
  induction ps generalizing line column with
  | nil => exact List.forall_mem_cons.mpr ⟨⟨nofun, nofun⟩, nofun⟩
  | cons p ps ih =>
    obtain ⟨hp, hps⟩ := List.forall_mem_cons.mp hps
    rw [place]
    cases hk : p.kind? with
    | none => exact ih hps
    | some kind => exact List.forall_mem_cons.mpr ⟨lexed_of_kind? hp hk line column, ih hps⟩

end Piece

theorem lexed_tokenize (text : String) : ∀ t ∈ tokenize text, t.Lexed :=
  Piece.lexed_place (Piece.cut_cut text.toList)

namespace Node

/-- An expression as reading gives it. -/
inductive IsExpression : Node → Prop where
  | number {value : Float} {line : Nat} (h : value.isFinite = true) :
      IsExpression (.number value line)
  | ident {name : String} {line : Nat} (h : IsWord name) : IsExpression (.ident name line)
  | matrix {rows : List (List Node)} {line : Nat} (hrows : rows ≠ [])
      (hrow : ∀ row ∈ rows, row ≠ []) (h : ∀ row ∈ rows, ∀ e ∈ row, IsExpression e) :
      IsExpression (.matrix rows line)
  | neg {operand : Node} {line : Nat} (h : IsExpression operand) : IsExpression (.neg operand line)
  | binary {op : BinaryOp} {left right : Node} {line : Nat} (hleft : IsExpression left)
      (hright : IsExpression right) : IsExpression (.binary op left right line)
  | call {name : String} {args : List Node} {line : Nat} (hname : IsWord name)
      (hargs : ∀ e ∈ args, IsExpression e) : IsExpression (.call name args line)
  | index {target : Node} {indices : List Node} {line : Nat} (htarget : IsExpression target)
      (hcount : indices.length = 1 ∨ indices.length = 2)
      (hindices : ∀ e ∈ indices, IsExpression e) : IsExpression (.index target indices line)

inductive IsStatement : Node → Prop where
  | assign {name : String} {value : Node} {line : Nat} (hname : IsWord name)
      (hvalue : IsStatement value) : IsStatement (.assign name value line)
  | bare {node : Node} (h : IsExpression node) : IsStatement node

/-- The first tree stands in the second, or is the second. -/
inductive Part (part : Node) : Node → Prop where
  | whole : Part part part
  | cell {rows : List (List Node)} {row : List Node} {e : Node} {line : Nat} (hrow : row ∈ rows)
      (he : e ∈ row) (h : Part part e) : Part part (.matrix rows line)
  | operand {operand : Node} {line : Nat} (h : Part part operand) : Part part (.neg operand line)
  | left {op : BinaryOp} {left right : Node} {line : Nat} (h : Part part left) :
      Part part (.binary op left right line)
  | right {op : BinaryOp} {left right : Node} {line : Nat} (h : Part part right) :
      Part part (.binary op left right line)
  | argument {name : String} {args : List Node} {e : Node} {line : Nat} (he : e ∈ args)
      (h : Part part e) : Part part (.call name args line)
  | target {target : Node} {indices : List Node} {line : Nat} (h : Part part target) :
      Part part (.index target indices line)
  | position {target e : Node} {indices : List Node} {line : Nat} (he : e ∈ indices)
      (h : Part part e) : Part part (.index target indices line)
  | value {name : String} {value : Node} {line : Nat} (h : Part part value) :
      Part part (.assign name value line)

theorem IsExpression.part {node part : Node} (hnode : node.IsExpression) (h : Part part node) :
    part.IsExpression := by
  induction hnode with
  | number hvalue => cases h with | whole => exact .number hvalue
  | ident hname => cases h with | whole => exact .ident hname
  | matrix hrows hrow hcells ih =>
    cases h with
    | whole => exact .matrix hrows hrow hcells
    | cell hrow he h => exact ih _ hrow _ he h
  | neg hoperand ih =>
    cases h with
    | whole => exact .neg hoperand
    | operand h => exact ih h
  | binary hleft hright ihl ihr =>
    cases h with
    | whole => exact .binary hleft hright
    | left h => exact ihl h
    | right h => exact ihr h
  | call hname hargs ih =>
    cases h with
    | whole => exact .call hname hargs
    | argument he h => exact ih _ he h
  | index htarget hcount hindices iht ih =>
    cases h with
    | whole => exact .index htarget hcount hindices
    | target h => exact iht h
    | position he h => exact ih _ he h

theorem IsStatement.part {node part : Node} (hnode : node.IsStatement) (h : Part part node) :
    part.IsStatement := by
  induction hnode with
  | assign hname hvalue ih =>
    cases h with
    | whole => exact .assign hname hvalue
    | value h => exact ih h
  | bare hexpression => exact .bare (hexpression.part h)

end Node

/-- What the phrase stands for is as it should be. -/
def Category.IsTree : (c : Category) → c.Meaning → Prop
  | .expression, node => node.IsExpression
  | .term, node => node.IsExpression
  | .unary, node => node.IsExpression
  | .power, node => node.IsExpression
  | .indexed, node => node.IsExpression
  | .primary, node => node.IsExpression
  | .items, nodes => nodes ≠ [] ∧ ∀ node ∈ nodes, node.IsExpression
  | .rows, lists => lists ≠ [] ∧ ∀ nodes ∈ lists, nodes ≠ [] ∧ ∀ node ∈ nodes, node.IsExpression
  | .statement, node => node.IsStatement
  | .statements, nodes => ∀ node ∈ nodes, node.IsStatement
  | .program, nodes => ∀ node ∈ nodes, node.IsStatement

/-- Trees of lexed tokens are well-formed; every production asks for what its parts grant. -/
theorem Phrase.isTree {c : Category} (p : Phrase c) (h : ∀ t ∈ p.yield, t.Lexed) :
    c.IsTree p.tree := by
  induction p with
  | ofTerm x ih => exact ih h
  | sum left op p right ihl ihr =>
    simp only [yield, List.forall_mem_append, List.forall_mem_cons] at h
    exact .binary (ihl h.1) (ihr h.2.2)
  | ofUnary u ih => exact ih h
  | product left op p right ihl ihr =>
    simp only [yield, List.forall_mem_append, List.forall_mem_cons] at h
    exact .binary (ihl h.1) (ihr h.2.2)
  | negated p operand ih => exact .neg (ih (List.forall_mem_cons.mp h).2)
  | ofPower x ih => exact ih h
  | ofIndexed x ih => exact ih h
  | raised base p exponent ihb ihe =>
    simp only [yield, List.forall_mem_append, List.forall_mem_cons] at h
    exact .binary (ihb h.1) (ihe h.2.2)
  | ofPrimary x ih => exact ih h
  | part target l i r iht ihi =>
    simp only [yield, List.forall_mem_append, List.forall_mem_cons] at h
    exact .index (iht h.1.1) (.inl rfl) (List.forall_mem_singleton.mpr (ihi h.1.2.2))
  | entry target l i comma j r iht ihi ihj =>
    simp only [yield, List.forall_mem_append, List.forall_mem_cons] at h
    obtain ⟨⟨⟨htarget, _, hi⟩, _, hj⟩, _⟩ := h
    exact .index (iht htarget) (.inr rfl)
      (List.forall_mem_cons.mpr ⟨ihi hi, List.forall_mem_singleton.mpr (ihj hj)⟩)
  | number value p => exact .number ((h _ List.mem_cons_self).1 value rfl)
  | ident name p => exact .ident ((h _ List.mem_cons_self).2 name rfl)
  | bareCall name p l r => exact .call ((h _ List.mem_cons_self).2 name rfl) nofun
  | call name p l args r ih =>
    simp only [yield, List.forall_mem_append, List.forall_mem_cons] at h
    exact .call (h.1.1.2 name rfl) (ih h.1.2.2).2
  | group l inner r ih =>
    simp only [yield, List.forall_mem_append, List.forall_mem_cons] at h
    exact ih h.1.2
  | matrix l rows gap r ih =>
    simp only [yield, List.forall_mem_append, List.forall_mem_cons] at h
    obtain ⟨hrows, hrow⟩ := ih h.1.1.2
    exact .matrix hrows (fun row hmem => (hrow row hmem).1) fun row hmem => (hrow row hmem).2
  | item e ih => exact ⟨List.cons_ne_nil _ _, List.forall_mem_singleton.mpr (ih h)⟩
  | more items comma e ihi ihe =>
    simp only [yield, List.forall_mem_append, List.forall_mem_cons] at h
    exact ⟨List.append_ne_nil_of_right_ne_nil _ (List.cons_ne_nil _ _), List.forall_mem_append.mpr
      ⟨(ihi h.1).2, List.forall_mem_singleton.mpr (ihe h.2.2)⟩⟩
  | firstRow gap row ih =>
    exact ⟨List.cons_ne_nil _ _, List.forall_mem_singleton.mpr (ih (List.forall_mem_append.mp h).2)⟩
  | nextRow rows sep gap row ihr ih =>
    simp only [yield, List.forall_mem_append, List.forall_mem_cons] at h
    exact ⟨List.append_ne_nil_of_right_ne_nil _ (List.cons_ne_nil _ _), List.forall_mem_append.mpr
      ⟨(ihr h.1.1).2, List.forall_mem_singleton.mpr (ih h.2)⟩⟩
  | assign name p equals value ih =>
    simp only [yield, List.forall_mem_cons] at h
    exact .assign (h.1.2 name rfl) (ih h.2.2)
  | bare e ih => exact .bare (ih h)
  | firstStatement gap s ih =>
    exact List.forall_mem_singleton.mpr (ih (List.forall_mem_append.mp h).2)
  | nextStatement before sep gap s ihb ih =>
    simp only [yield, List.forall_mem_append, List.forall_mem_cons] at h
    exact List.forall_mem_append.mpr ⟨ihb h.1.1, List.forall_mem_singleton.mpr (ih h.2)⟩
  | blank gap => exact nofun
  | full statements gap ih => exact ih (List.forall_mem_append.mp h).1

theorem mem_of_mem_significant {l : Layout} {ts : List Token} {t : Token}
    (h : t ∈ significant l ts) : t ∈ ts := by
  induction ts generalizing l with
  | nil => exact h
  | cons u ts ih =>
    rw [significant] at h
    split at h
    · exact List.mem_cons_of_mem u (ih h)
    · rcases List.mem_cons.mp h with rfl | h
      · exact List.mem_cons_self
      · exact List.mem_cons_of_mem u (ih h)

/-- What is read is the tree of a phrase that consists of tokens of the text and opens no more
levels than are allowed. -/
theorem exists_phrase_of_parse {text : String} {nodes : List Node} {rest : List Token}
    (h : parse text = .complete nodes rest) :
    ∃ p : Phrase .program,
      p.tree = nodes ∧ p.depth ≤ maxNesting ∧ ∀ t ∈ p.yield, t ∈ tokenize text := by
  obtain ⟨ts, l, c, hts, htokens, _⟩ := exists_tokenize text
  rw [parse, htokens, parseProgram_eq (.append hts rfl)] at h
  obtain ⟨p, hp, rfl, _⟩ := Assembly.outcome_eq_complete h
  obtain ⟨hyield, hdepth⟩ : p.yield = significant .initial ts ∧ p.depth ≤ maxNesting :=
    (accepted_iff hts rfl).mp hp
  refine ⟨p, rfl, hdepth, fun t ht => ?_⟩
  rw [hyield] at ht
  rw [htokens]
  exact List.mem_append_left _ (mem_of_mem_significant ht)

theorem isStatement_of_parse {text : String} {nodes : List Node} {rest : List Token}
    (h : parse text = .complete nodes rest) : ∀ node ∈ nodes, node.IsStatement := by
  obtain ⟨p, rfl, -, htokens⟩ := exists_phrase_of_parse h
  exact p.isTree fun t ht => lexed_tokenize text t (htokens t ht)

namespace Node

/-- A link of a chain around the text of what stands before it. -/
def linkText (text : String) (link : Link) : String :=
  "(" ++ text ++ " " ++ link.op.symbol ++ " " ++ link.right.render ++ ")"

theorem render_eq_foldl (op : BinaryOp) (left right : Node) (line : Nat) :
    (Node.binary op left right line).render =
      (left.spine [⟨op, right, line⟩]).2.foldl linkText
        (left.spine [⟨op, right, line⟩]).1.render := by
  rw [render]
  exact List.foldl_attach (f := linkText)

theorem render_binary (op : BinaryOp) (left right : Node) (line : Nat) :
    (Node.binary op left right line).render =
      "(" ++ left.render ++ " " ++ op.symbol ++ " " ++ right.render ++ ")" := by
  rw [render_eq_foldl]
  cases left with
  | binary op' left' right' line' =>
    have hspine := left'.spine_append [⟨op', right', line'⟩] [⟨op, right, line⟩]
    rw [spine, ← List.singleton_append, hspine, List.foldl_append, ← render_eq_foldl]
    rfl
  | _ =>
    rw [spine_of_isBinary_eq_false rfl]
    rfl

theorem oneLine_list {nodes : List Node} (h : ∀ node ∈ nodes, OneLine node.render) :
    OneLine (", ".intercalate (nodes.map fun node => node.render)) := by
  refine spelled_intercalate (by decide) fun part hpart => ?_
  obtain ⟨node, hnode, rfl⟩ := List.mem_map.mp hpart
  exact h node hnode

theorem IsExpression.oneLine_render {node : Node} (h : node.IsExpression) :
    OneLine node.render := by
  induction h with
  | number h =>
    rw [render]
    exact oneLine_numberText _ _
  | ident h =>
    rw [render]
    exact h.oneLine
  | matrix hrows hrow h ih =>
    rw [render, oneLine_append, oneLine_append]
    refine ⟨⟨by decide, spelled_intercalate (by decide) fun part hpart => ?_⟩, by decide⟩
    obtain ⟨row, hmem, rfl⟩ := List.mem_map.mp hpart
    exact oneLine_list (ih row hmem)
  | neg h ih =>
    rw [render, oneLine_append, oneLine_append]
    exact ⟨⟨by decide, ih⟩, by decide⟩
  | @binary op left right line hleft hright ihl ihr =>
    have hop : OneLine op.symbol := by
      cases op <;> decide
    rw [render_binary]
    simp only [oneLine_append, ihl, ihr, hop, and_true]
    decide
  | call hname hargs ih =>
    rw [render]
    simp only [oneLine_append, hname.oneLine, oneLine_list ih, and_true, true_and]
    decide
  | index htarget hcount hindices iht ih =>
    rw [render]
    simp only [oneLine_append, iht, oneLine_list ih, and_true, true_and]
    decide

end Node

end MatrixCalculator
