import Mathlib
import MatrixCalculator.Proofs.Phrasing
import MatrixCalculator.Proofs.Significant

namespace MatrixCalculator

/-- The double that the text of a number is read as. -/
def reread (x : Float) : Float :=
  ((Numeral.ofChars? (numberText defaultPrecision x).toList).map Numeral.value).getD x

theorem reread_eq {x : Float} {f : Figures} (h : (numberText defaultPrecision x).toList = f.chars) :
    reread x = f.numeral.value := by
  rw [reread, h, f.ofChars?_chars]
  rfl

namespace Node

def literals : Node → List Float
  | .number x _ => [x]
  | .ident _ _ => []
  | .matrix rows _ => rows.flatMap fun row => row.flatMap fun e => literals e
  | .neg operand _ => literals operand
  | .binary _ left right _ => literals left ++ literals right
  | .call _ args _ => args.flatMap fun e => literals e
  | .index target indices _ => literals target ++ indices.flatMap fun e => literals e
  | .assign _ value _ => literals value
  | .foreign _ _ => []
termination_by node => sizeOf node
decreasing_by all_goals exact Child.sizeOf_lt (by constructor <;> assumption)

end Node

def Token.number? (t : Token) : Option Float :=
  match t.kind with
  | .number x => some x
  | _ => none

def Category.literals : (c : Category) → c.Meaning → List Float
  | .expression => Node.literals
  | .term => Node.literals
  | .unary => Node.literals
  | .power => Node.literals
  | .indexed => Node.literals
  | .primary => Node.literals
  | .items => List.flatMap Node.literals
  | .rows => List.flatMap (List.flatMap Node.literals)
  | .statement => Node.literals
  | .statements => List.flatMap Node.literals
  | .program => List.flatMap Node.literals

section Tokens

variable (p : Place)

@[simp] theorem Place.number?_mark (s : Symbol) : (p.mark s).number? = none := rfl

@[simp] theorem Place.number?_name (name : String) : (p.token (.name name)).number? = none := rfl

@[simp] theorem Place.number?_number (x : Float) : (p.token (.number x)).number? = some x := rfl

@[simp] theorem Separator.number?_token (s : Separator) : s.token.number? = none := by
  cases s <;> rfl

@[simp] theorem Gap.filterMap_number? (gap : Gap) : gap.yield.filterMap Token.number? = [] := by
  simp [Gap.yield]

end Tokens

theorem Phrase.literals_tree {c : Category} (p : Phrase c) :
    c.literals p.tree = p.yield.filterMap Token.number? := by
  induction p <;> simp_all [Category.literals, Node.literals, List.filterMap_cons]

theorem Piece.plain_of_numeralKind {cs : List Char} {x : Float}
    (h : numeralKind cs = .number x) : Double.Plain x := by
  refine ⟨numeralKind_number h, ?_⟩
  rcases numeralKind_cases cs with ⟨n, -, -, hkind⟩ | ⟨-, hkind⟩
  · obtain rfl := Kind.number.inj (hkind.symm.trans h)
    exact Numeral.unsigned_nearest _ _
  · rw [hkind] at h
    contradiction

theorem Piece.plain_of_mem_kindsOf {cs : List Char} {x : Float}
    (h : Kind.number x ∈ kindsOf cs) : Double.Plain x := by
  obtain ⟨p, _, hkind⟩ := List.mem_filterMap.mp h
  unfold kind? at hkind
  split at hkind
  · exact plain_of_numeralKind (Option.some.inj hkind)
  all_goals simp at hkind

theorem plain_of_parse {text : String} {nodes : List Node} {rest : List Token}
    (h : parse text = .complete nodes rest) {node : Node} (hnode : node ∈ nodes) :
    ∀ x ∈ node.literals, Double.Plain x := by
  obtain ⟨p, rfl, -, htokens⟩ := exists_phrase_of_parse h
  intro x hx
  -- The numbers of the tree are found among the tokens, and those come from numerals.
  have hmem : x ∈ p.yield.filterMap Token.number? := by
    rw [← p.literals_tree]
    exact List.mem_flatMap.mpr ⟨node, hnode, hx⟩
  obtain ⟨t, ht, hnumber⟩ := List.mem_filterMap.mp hmem
  have hkind : t.kind = .number x := by
    unfold Token.number? at hnumber
    split at hnumber
    · rename_i heq
      rw [heq, Option.some.inj hnumber]
    · contradiction
  have hkinds : t.kind ∈ Piece.kindsOf text.toList ++ [.endOfInput] := by
    rw [Piece.kindsOf, ← Piece.kinds_place 1 1]
    exact List.mem_map_of_mem (htokens t ht)
  rw [hkind] at hkinds
  exact Piece.plain_of_mem_kindsOf (by simpa using hkinds)

namespace Node

/-- How many levels the tree takes as an operand when it is written out. -/
def levels : Node → Nat
  | .number _ _ => 1
  | .ident _ _ => 1
  | .matrix rows _ =>
    (rows.map fun row => (row.map fun e => levels e).foldl max 0).foldl max 0 + 1
  | .neg operand _ => levels operand + 2
  | .binary .pow left right _ => max (levels left) (levels right + 1) + 1
  | .binary _ left right _ => max (levels left) (levels right) + 1
  | .call _ args _ => (args.map fun e => levels e).foldl max 0 + 1
  | .index target indices _ =>
    max (levels target) ((indices.map fun e => levels e).foldl max 0 + 1)
  | .assign _ value _ => levels value + 1
  | .foreign _ _ => 0
termination_by node => sizeOf node
decreasing_by all_goals exact Child.sizeOf_lt (by constructor <;> assumption)

def printed (node : Node) : Node := node.revise reread fun _ => 1

theorem revise_revise (f f' : Float → Float) (g g' : Nat → Nat) (node : Node) :
    (node.revise f g).revise f' g' = node.revise (f' ∘ f) (g' ∘ g) := by
  induction node using revise.induct with
  | case3 rows line ih => simpa [revise] using ih
  | _ => simp_all [revise]

theorem unlined_printed (node : Node) : node.printed.unlined = node.printed :=
  revise_revise _ _ _ _ node

/-- The text spells the tree as an operand. -/
def SpelledBy (text : String) (node : Node) : Prop :=
  ∃ q : Phrase .indexed, Prints text q ∧ q.tree = node.printed ∧ q.depth + 1 = node.levels

end Node

/-- What holds of the parts of a text between marks holds of the text. -/
theorem intercalate_induction {α : Type} {P : String → α → Prop} {Q : String → List α → Prop}
    {mark : String} (hone : ∀ s a, P s a → Q s [a])
    (hmore : ∀ s s' as a, Q s as → P s' a → Q (s ++ mark ++ s') (as ++ [a])) {text : α → String}
    {as : List α} (hne : as ≠ []) (h : ∀ a ∈ as, P (text a) a) :
    Q (mark.intercalate (as.map text)) as := by
  induction as using List.reverseRecOn with
  | nil => contradiction
  | append_singleton as a ih =>
    obtain ⟨has, ha⟩ := List.forall_mem_append.mp h
    have ha := ha a List.mem_cons_self
    by_cases hnil : as = []
    · subst hnil
      simpa using hone _ _ ha
    · rw [List.map_append, String.intercalate_append_of_ne_nil (by simpa using hnil) (by simp)]
      simpa using hmore _ _ _ _ (ih hnil has) ha

namespace Node

theorem exists_items {nodes : List Node} (hne : nodes ≠ [])
    (h : ∀ e ∈ nodes, e.SpelledBy e.render) :
    ∃ items : Phrase .items, Prints (", ".intercalate (nodes.map fun e => e.render)) items ∧
      items.tree = nodes.map printed ∧ items.depth = (nodes.map levels).foldl max 0 := by
  refine intercalate_induction (P := fun text e => e.SpelledBy text)
    (Q := fun text nodes => ∃ items : Phrase .items, Prints text items ∧
      items.tree = nodes.map printed ∧ items.depth = (nodes.map levels).foldl max 0) ?_ ?_ hne h
  · rintro text e ⟨q, hprints, htree, hdepth⟩
    exact ⟨.item q.whole, hprints, by simp [Phrase.whole, Phrase.operand, htree],
      by simp [Phrase.whole, Phrase.operand, hdepth]⟩
  · rintro text text' nodes e ⟨items, hitems, htrees, hdepths⟩ ⟨q, hprints, htree, hdepth⟩
    exact ⟨_, hitems.more (e := q.whole) hprints,
      by simp [Phrase.whole, Phrase.operand, htrees, htree],
      by simp [Phrase.whole, Phrase.operand, hdepths, hdepth]⟩

theorem exists_rows {rows : List (List Node)} (hne : rows ≠ []) (hrow : ∀ row ∈ rows, row ≠ [])
    (h : ∀ row ∈ rows, ∀ e ∈ row, e.SpelledBy e.render) :
    ∃ q : Phrase .rows, Prints ("; ".intercalate (rows.map fun row =>
        ", ".intercalate (row.map fun e => e.render))) q ∧
      q.tree = rows.map (List.map printed) ∧
      q.depth = (rows.map fun row => (row.map levels).foldl max 0).foldl max 0 := by
  refine intercalate_induction (P := fun text row => ∃ items : Phrase .items, Prints text items ∧
      items.tree = row.map printed ∧ items.depth = (row.map levels).foldl max 0)
    (Q := fun text rows => ∃ q : Phrase .rows, Prints text q ∧
      q.tree = rows.map (List.map printed) ∧
      q.depth = (rows.map fun row => (row.map levels).foldl max 0).foldl max 0) ?_ ?_ hne
    fun row hmem => exists_items (hrow row hmem) (h row hmem)
  · rintro text row ⟨items, hprints, htree, hdepth⟩
    exact ⟨.firstRow [] items, hprints, by simp [htree], by simp [hdepth]⟩
  · rintro text text' rows row ⟨q, hq, htrees, hdepths⟩ ⟨items, hprints, htree, hdepth⟩
    exact ⟨_, hq.nextRow hprints, by simp [htrees, htree], by simp [hdepths, hdepth]⟩

theorem IsExpression.spelledBy_render {node : Node} (h : node.IsExpression)
    (hplain : ∀ x ∈ node.literals, Double.Plain x) : node.SpelledBy node.render := by
  -- Parentheses make every operator an operand again, so no case looks at what stands around it.
  induction h with
  | @number x line h =>
    rw [literals, List.forall_mem_singleton] at hplain
    obtain ⟨f, hchars, hvalue⟩ := exists_figures_numberText hplain
    rw [render]
    exact ⟨_, .number hchars hvalue, by simp [printed, revise, reread_eq hchars, Place.origin],
      by simp [levels]⟩
  | ident h =>
    rw [render]
    exact ⟨_, .ident h, by simp [printed, revise, Place.origin], by simp [levels]⟩
  | matrix hrows hrow h ih =>
    simp only [literals, List.mem_flatMap] at hplain
    obtain ⟨q, hprints, htree, hdepth⟩ := exists_rows hrows hrow fun row hmem e he =>
      ih row hmem e he fun x hx => hplain x ⟨row, hmem, e, he, hx⟩
    rw [render]
    refine ⟨_, .matrix hprints, ?_, ?_⟩
    · simp [htree, printed, revise, Place.origin]
    · simp [hdepth, levels]
  | neg h ih =>
    rw [literals] at hplain
    obtain ⟨q, hprints, htree, hdepth⟩ := ih hplain
    rw [render]
    refine ⟨_, hprints.neg, ?_, ?_⟩
    · simp [Phrase.grouped, Phrase.operand, htree, printed, revise, Place.origin]
    · simp [Phrase.grouped, Phrase.operand, levels, ← hdepth]
  | @binary op left right line hleft hright ihl ihr =>
    rw [literals, List.forall_mem_append] at hplain
    obtain ⟨x, hx, htreex, hdepthx⟩ := ihl hplain.1
    obtain ⟨y, hy, htreey, hdepthy⟩ := ihr hplain.2
    rw [render_binary]
    refine ⟨_, .binary op hx hy, ?_, ?_⟩
    · simp [Phrase.grouped, Phrase.tree_operation, htreex, htreey, printed, revise]
    · cases op <;> simp [Phrase.grouped, Phrase.operation, Phrase.whole, Phrase.operand, levels,
        ← hdepthx, ← hdepthy]
  | @call name args line hname hargs ih =>
    simp only [literals, List.mem_flatMap] at hplain
    rw [render]
    by_cases hnil : args = []
    · subst hnil
      exact ⟨_, .bareCall hname, by simp [printed, revise, Place.origin], by simp [levels]⟩
    · obtain ⟨items, hprints, htree, hdepth⟩ := exists_items hnil fun e he =>
        ih e he fun x hx => hplain x ⟨e, he, hx⟩
      refine ⟨_, .call hname hprints, ?_, ?_⟩
      · simp [htree, printed, revise, Place.origin]
      · simp [hdepth, levels]
  | @index target indices line htarget hcount hindices iht ih =>
    rw [literals, List.forall_mem_append] at hplain
    simp only [List.mem_flatMap] at hplain
    obtain ⟨x, hx, htreex, hdepthx⟩ := iht hplain.1
    have hposition : ∀ e ∈ indices, e.SpelledBy e.render := fun e he =>
      ih e he fun x hx => hplain.2 x ⟨e, he, hx⟩
    rw [render]
    rcases hcount with hone | htwo
    · obtain ⟨i, rfl⟩ := List.length_eq_one_iff.mp hone
      obtain ⟨y, hy, htreey, hdepthy⟩ := hposition i List.mem_cons_self
      refine ⟨_, hx.part (by simpa using hy), ?_, ?_⟩
      · simp [Phrase.whole, Phrase.operand, htreex, htreey, printed, revise, Place.origin]
      · simp [Phrase.whole, Phrase.operand, levels, ← hdepthx, ← hdepthy]
    · obtain ⟨i, j, rfl⟩ := List.length_eq_two.mp htwo
      obtain ⟨y, hy, htreey, hdepthy⟩ := hposition i List.mem_cons_self
      obtain ⟨z, hz, htreez, hdepthz⟩ := hposition j (List.mem_cons_of_mem _ List.mem_cons_self)
      have htext : ", ".intercalate ([i, j].map fun e => e.render) =
          i.render ++ ", " ++ j.render := by
        simp [String.intercalate_cons_cons]
      rw [htext]
      refine ⟨_, hx.entry hy hz, ?_, ?_⟩
      · simp [Phrase.whole, Phrase.operand, htreex, htreey, htreez, printed, revise, Place.origin]
      · simp [Phrase.whole, Phrase.operand, levels, ← hdepthx, ← hdepthy, ← hdepthz]

/-- The text of a statement spells it, one level below the expression in it. -/
theorem IsStatement.exists_prints_render {node : Node} (h : node.IsStatement)
    (hplain : ∀ x ∈ node.literals, Double.Plain x) :
    ∃ s : Phrase .statement, Prints node.render s ∧ s.tree = node.printed ∧
      s.depth = node.levels + 1 := by
  induction h with
  | assign hname hvalue ih =>
    rw [literals] at hplain
    obtain ⟨s, hprints, htree, hdepth⟩ := ih hplain
    rw [render]
    refine ⟨_, .assign hname hprints, ?_, ?_⟩
    · simp [htree, printed, revise, Place.origin]
    · simp [hdepth, levels]
  | bare h =>
    obtain ⟨q, hprints, htree, hdepth⟩ := h.spelledBy_render hplain
    refine ⟨.bare q.whole, hprints, ?_, ?_⟩
    · simp [Phrase.whole, Phrase.operand, htree]
    · simp [Phrase.whole, Phrase.operand, hdepth]

theorem IsStatement.oneLine_render {node : Node} (h : node.IsStatement) :
    OneLine node.render := by
  induction h with
  | assign hname hvalue ih =>
    rw [render, oneLine_append, oneLine_append]
    exact ⟨⟨hname.oneLine, by decide⟩, ih⟩
  | bare h => exact h.oneLine_render

end Node

/-- A statement that was read is read again from its text, on one line and with its numbers as they
are written, exactly if it leaves a level for the statement itself. -/
theorem parse_render {text : String} {nodes : List Node} {rest : List Token}
    (h : parse text = .complete nodes rest) {node : Node} (hnode : node ∈ nodes) :
    (node.levels < maxNesting ∧ parse node.render = .complete [node.printed] [] ∨
      maxNesting ≤ node.levels ∧
        ∃ line column, parse node.render = .malformed line column .tooDeep) ∧
    ∀ x ∈ node.literals, ∃ n, Numeral.ofChars? (numberText defaultPrecision x).toList = some n ∧
      reread x = n.value ∧ n.value.isFinite = true := by
  have hstatement := isStatement_of_parse h node hnode
  have hplain := plain_of_parse h hnode
  obtain ⟨s, hprints, htree, hdepth⟩ := hstatement.exists_prints_render hplain
  have hparse := parse_of_prints hstatement.oneLine_render hprints
  rw [hdepth, htree, node.unlined_printed, Nat.lt_succ_iff] at hparse
  refine ⟨hparse, fun x hx => ?_⟩
  obtain ⟨f, hchars, hvalue⟩ := exists_figures_numberText (hplain x hx)
  exact ⟨f.numeral, by rw [hchars, f.ofChars?_chars], reread_eq hchars, hvalue⟩

theorem parse_render_power : ∃ node, parse "y=-a^0.1" = .complete [node] [] ∧
    parse node.render = .complete [node.printed] [] ∧
    ∃ n, Numeral.ofChars? (numberText defaultPrecision 0.1).toList = some n ∧
      reread 0.1 = n.value ∧ n.value.isFinite = true := by
  have hcut : Piece.cut "y=-a^0.1".toList = [⟨.word, 'y', []⟩, ⟨.symbol .assign, '=', []⟩,
      ⟨.symbol .minus, '-', []⟩, ⟨.word, 'a', []⟩, ⟨.symbol .caret, '^', []⟩,
      ⟨.numeral, '0', ['.', '1']⟩] := by
    cbv
  have htokens : tokenize "y=-a^0.1" = [⟨.name "y", 1, 1⟩, ⟨.symbol .assign, 1, 2⟩,
      ⟨.symbol .minus, 1, 3⟩, ⟨.name "a", 1, 4⟩, ⟨.symbol .caret, 1, 5⟩, ⟨.number 0.1, 1, 6⟩,
      ⟨.endOfInput, 1, 9⟩] := by
    rw [tokenize, hcut]
    rfl
  have hread : ∀ x : Float, parseProgram [⟨.name "y", 1, 1⟩, ⟨.symbol .assign, 1, 2⟩,
      ⟨.symbol .minus, 1, 3⟩, ⟨.name "a", 1, 4⟩, ⟨.symbol .caret, 1, 5⟩, ⟨.number x, 1, 6⟩,
      ⟨.endOfInput, 1, 9⟩] = .complete [.assign "y"
        (.neg (.binary .pow (.ident "a" 1) (.number x 1) 1) 1) 1] [] := by
    intro x
    cbv
  have hparse := hread 0.1
  rw [← htokens] at hparse
  obtain ⟨hround, hliterals⟩ := parse_render hparse List.mem_cons_self
  refine ⟨_, hparse, ?_, hliterals 0.1 (by simp [Node.literals])⟩
  exact (hround.resolve_right fun hdeep => absurd hdeep.1 (by simp [Node.levels, maxNesting])).2

end MatrixCalculator
