import Mathlib
import MatrixCalculator.Proofs.Completion
import MatrixCalculator.Proofs.Numerals
import MatrixCalculator.Proofs.Outlines

namespace MatrixCalculator

namespace Piece

def kindsOf (cs : List Char) : List Kind := (cut cs).filterMap kind?

theorem kindsOf_nil : kindsOf [] = [] := by
  rw [kindsOf, cut]
  rfl

theorem kindsOf_symbol (s : Symbol) (rest : List Char) :
    kindsOf (s.char :: rest) = .symbol s :: kindsOf rest := by
  rw [kindsOf, cut, extent_symbol]
  rfl

theorem kindsOf_of_extent {c : Char} {others rest : List Char} (form : Form) {kind : Kind}
    (hextent : extent c (others ++ rest) = (form, others.length))
    (hkind : kind? ⟨form, c, others⟩ = some kind) :
    kindsOf (c :: others ++ rest) = kind :: kindsOf rest := by
  rw [kindsOf, List.cons_append, cut, hextent]
  dsimp only
  rw [List.take_left, List.drop_left, List.filterMap_cons_some hkind]
  rfl

theorem kindsOf_blank {c : Char} (hc : Lexeme.isBlank c = true) (rest : List Char) :
    kindsOf (c :: rest) = kindsOf rest := by
  -- A blank takes all blanks behind it into its piece.
  have hrun : ∀ {c : Char}, Lexeme.isBlank c = true → ∀ rest,
      kindsOf (c :: rest) = kindsOf (rest.dropWhile Lexeme.isBlank) := by
    intro c hc rest
    rw [kindsOf, cut, extent_blank hc]
    dsimp only
    rw [List.filterMap_cons_none rfl, drop_length_takeWhile]
    rfl
  rw [hrun hc]
  cases rest with
  | nil => rfl
  | cons d rest =>
    by_cases hd : Lexeme.isBlank d = true
    · rw [List.dropWhile_cons_of_pos hd, hrun hd]
    · rw [List.dropWhile_cons_of_neg hd]

theorem kindsOf_word {name : String} (h : IsWord name) {rest : List Char}
    (hrest : Lexeme.Closed rest) : kindsOf (name.toList ++ rest) = .name name :: kindsOf rest := by
  obtain ⟨c, cs, rfl, hc, hcs⟩ := h
  rw [String.toList_ofList]
  refine kindsOf_of_extent .word ?_ rfl
  have hrun := (takeWhile_run hcs fun d hd => by
    have hd := (hrest d hd).1
    simp only [Lexeme.isTailChar, Bool.or_eq_false_iff] at hd
    exact hd.1).1
  rw [extent_word hc, hrun]

theorem kindsOf_figures (f : Figures) {rest : List Char} (hrest : Lexeme.Closed rest) :
    kindsOf (f.chars ++ rest) = numeralKind f.chars :: kindsOf rest := by
  have hlength := f.numeralLength_chars hrest
  have hne : f.chars ≠ [] := by simp [Figures.chars, f.whole_ne]
  obtain ⟨c, cs, hchars⟩ := List.exists_cons_of_ne_nil hne
  rw [hchars] at hlength ⊢
  refine kindsOf_of_extent .numeral ?_ rfl
  rw [List.cons_append] at hlength
  simp [extent, hlength]

end Piece

/-- The text spells the phrase, wherever no letter, digit, underscore or point follows. -/
def Prints (text : String) {c : Category} (q : Phrase c) : Prop :=
  ∀ rest, Lexeme.Closed rest →
    Piece.kindsOf (text.toList ++ rest) = q.yield.map Token.kind ++ Piece.kindsOf rest

theorem Lexeme.closed_symbol (s : Symbol) (rest : List Char) : Closed (s.char :: rest) := by
  rw [closed_cons]
  cases s <;> decide

theorem Lexeme.closed_blank (rest : List Char) : Closed (' ' :: rest) := by
  rw [closed_cons]
  decide

def Phrase.operand (x : Phrase .indexed) : Phrase .unary := .ofPower (.ofIndexed x)

def Phrase.whole (x : Phrase .indexed) : Phrase .expression := .ofTerm (.ofUnary x.operand)

def Phrase.grouped (e : Phrase .expression) : Phrase .indexed :=
  .ofPrimary (.group .origin e .origin)

def BinaryOp.mark : BinaryOp → Symbol
  | .add => .plus
  | .sub => .minus
  | .mul => .times
  | .div => .slash
  | .pow => .caret

/-- The operation between two operands. -/
def Phrase.operation (op : BinaryOp) (x y : Phrase .indexed) : Phrase .expression :=
  match op with
  | .add => .sum x.whole .plus .origin (.ofUnary y.operand)
  | .sub => .sum x.whole .minus .origin (.ofUnary y.operand)
  | .mul => .ofTerm (.product (.ofUnary x.operand) .times .origin y.operand)
  | .div => .ofTerm (.product (.ofUnary x.operand) .slash .origin y.operand)
  | .pow => .ofTerm (.ofUnary (.ofPower (.raised x .origin y.operand)))

theorem Phrase.kinds_operation (op : BinaryOp) (x y : Phrase .indexed) :
    (operation op x y).yield.map Token.kind =
      x.yield.map Token.kind ++ .symbol op.mark :: y.yield.map Token.kind := by
  cases op <;> simp [operation, whole, operand] <;> rfl

theorem Phrase.tree_operation (op : BinaryOp) (x y : Phrase .indexed) :
    (operation op x y).tree = .binary op x.tree y.tree 1 := by
  cases op <;> rfl

namespace Prints

open Piece Lexeme

variable {text text' name : String} {x y : Phrase .indexed} {items : Phrase .items}
  {rows : Phrase .rows}

theorem number {f : Figures} (htext : text.toList = f.chars)
    (h : f.numeral.value.isFinite = true) :
    Prints text (Phrase.ofPrimary (.number f.numeral.value .origin)) := by
  intro rest hrest
  rw [htext, kindsOf_figures f hrest, numeralKind, f.ofChars?_chars]
  dsimp only
  rw [if_pos h]
  rfl

theorem ident (h : IsWord name) : Prints name (Phrase.ofPrimary (.ident name .origin)) := by
  intro rest hrest
  rw [kindsOf_word h hrest]
  rfl

theorem neg (h : Prints text x) :
    Prints ("(-" ++ text ++ ")")
      (Phrase.grouped (.ofTerm (.ofUnary (.negated .origin x.operand)))) := by
  intro rest hrest
  have htext : ("(-" ++ text ++ ")").toList ++ rest =
      Symbol.leftParen.char :: Symbol.minus.char ::
        (text.toList ++ Symbol.rightParen.char :: rest) := by
    simp [Symbol.char]
  rw [htext, kindsOf_symbol, kindsOf_symbol, h _ (closed_symbol _ _), kindsOf_symbol]
  simp [Phrase.grouped, Phrase.operand]

theorem negated {u : Phrase .unary} (h : Prints text u) :
    Prints ("-" ++ text) (Phrase.negated .origin u) := by
  intro rest hrest
  have htext : ("-" ++ text).toList ++ rest = Symbol.minus.char :: (text.toList ++ rest) := by
    simp [Symbol.char]
  rw [htext, kindsOf_symbol, h _ hrest]
  simp

theorem binary (op : BinaryOp) (hx : Prints text x) (hy : Prints text' y) :
    Prints ("(" ++ text ++ " " ++ op.symbol ++ " " ++ text' ++ ")")
      (Phrase.grouped (.operation op x y)) := by
  intro rest hrest
  have hsymbol : op.symbol.toList = [op.mark.char] := by
    cases op <;> rfl
  have htext : ("(" ++ text ++ " " ++ op.symbol ++ " " ++ text' ++ ")").toList ++ rest =
      Symbol.leftParen.char :: (text.toList ++ ' ' :: op.mark.char :: ' ' ::
        (text'.toList ++ Symbol.rightParen.char :: rest)) := by
    simp [hsymbol, Symbol.char]
  rw [htext, kindsOf_symbol, hx _ (closed_blank _), kindsOf_blank rfl, kindsOf_symbol,
    kindsOf_blank rfl, hy _ (closed_symbol _ _), kindsOf_symbol]
  simp [Phrase.grouped, Phrase.kinds_operation]

theorem more {e : Phrase .expression} (hitems : Prints text items) (he : Prints text' e) :
    Prints (text ++ ", " ++ text') (Phrase.more items .origin e) := by
  intro rest hrest
  have htext : (text ++ ", " ++ text').toList ++ rest =
      text.toList ++ Symbol.comma.char :: ' ' :: (text'.toList ++ rest) := by
    simp [Symbol.char]
  rw [htext, hitems _ (closed_symbol _ _), kindsOf_symbol, kindsOf_blank rfl, he _ hrest]
  simp

theorem nextRow (hrows : Prints text rows) (hrow : Prints text' items) :
    Prints (text ++ "; " ++ text') (Phrase.nextRow rows (.semicolon .origin) [] items) := by
  intro rest hrest
  have htext : (text ++ "; " ++ text').toList ++ rest =
      text.toList ++ Symbol.semicolon.char :: ' ' :: (text'.toList ++ rest) := by
    simp [Symbol.char]
  rw [htext, hrows _ (closed_symbol _ _), kindsOf_symbol, kindsOf_blank rfl, hrow _ hrest]
  simp [Gap.yield, Separator.token]

theorem matrix (h : Prints text rows) :
    Prints ("[" ++ text ++ "]") (Phrase.ofPrimary (.matrix .origin rows [] .origin)) := by
  intro rest hrest
  have htext : ("[" ++ text ++ "]").toList ++ rest =
      Symbol.leftBracket.char :: (text.toList ++ Symbol.rightBracket.char :: rest) := by
    simp [Symbol.char]
  rw [htext, kindsOf_symbol, h _ (closed_symbol _ _), kindsOf_symbol]
  simp [Gap.yield]

theorem call (hname : IsWord name) (h : Prints text items) :
    Prints (name ++ "(" ++ text ++ ")")
      (Phrase.ofPrimary (.call name .origin .origin items .origin)) := by
  intro rest hrest
  have htext : (name ++ "(" ++ text ++ ")").toList ++ rest = name.toList ++
      Symbol.leftParen.char :: (text.toList ++ Symbol.rightParen.char :: rest) := by
    simp [Symbol.char]
  rw [htext, kindsOf_word hname (closed_symbol _ _), kindsOf_symbol, h _ (closed_symbol _ _),
    kindsOf_symbol]
  simp

theorem bareCall (hname : IsWord name) :
    Prints (name ++ "(" ++ "" ++ ")")
      (Phrase.ofPrimary (.bareCall name .origin .origin .origin)) := by
  intro rest hrest
  have htext : (name ++ "(" ++ "" ++ ")").toList ++ rest =
      name.toList ++ Symbol.leftParen.char :: Symbol.rightParen.char :: rest := by
    simp [Symbol.char]
  rw [htext, kindsOf_word hname (closed_symbol _ _), kindsOf_symbol, kindsOf_symbol]
  simp

theorem part (hx : Prints text x) (hy : Prints text' y) :
    Prints (text ++ "[" ++ text' ++ "]") (Phrase.part x .origin y.whole .origin) := by
  intro rest hrest
  have htext : (text ++ "[" ++ text' ++ "]").toList ++ rest = text.toList ++
      Symbol.leftBracket.char :: (text'.toList ++ Symbol.rightBracket.char :: rest) := by
    simp [Symbol.char]
  rw [htext, hx _ (closed_symbol _ _), kindsOf_symbol, hy _ (closed_symbol _ _), kindsOf_symbol]
  simp [Phrase.whole, Phrase.operand]

theorem entry {text'' : String} {z : Phrase .indexed} (hx : Prints text x) (hy : Prints text' y)
    (hz : Prints text'' z) : Prints (text ++ "[" ++ (text' ++ ", " ++ text'') ++ "]")
      (Phrase.entry x .origin y.whole .origin z.whole .origin) := by
  intro rest hrest
  have htext : (text ++ "[" ++ (text' ++ ", " ++ text'') ++ "]").toList ++ rest = text.toList ++
      Symbol.leftBracket.char :: (text'.toList ++ Symbol.comma.char :: ' ' ::
        (text''.toList ++ Symbol.rightBracket.char :: rest)) := by
    simp [Symbol.char]
  rw [htext, hx _ (closed_symbol _ _), kindsOf_symbol, hy _ (closed_symbol _ _), kindsOf_symbol,
    kindsOf_blank rfl, hz _ (closed_symbol _ _), kindsOf_symbol]
  simp [Phrase.whole, Phrase.operand]

theorem assign {s : Phrase .statement} (hname : IsWord name) (h : Prints text s) :
    Prints (name ++ " = " ++ text) (Phrase.assign name .origin .origin s) := by
  intro rest hrest
  have htext : (name ++ " = " ++ text).toList ++ rest =
      name.toList ++ ' ' :: Symbol.assign.char :: ' ' :: (text.toList ++ rest) := by
    simp [Symbol.char]
  rw [htext, kindsOf_word hname (closed_blank _), kindsOf_blank rfl, kindsOf_symbol,
    kindsOf_blank rfl, h _ hrest]
  simp

end Prints

namespace Assembly

variable {limit limit' : Nat}

/-- With fewer levels a token does the same, or finds no level. -/
theorem step_cases_of_le (h : limit ≤ limit') (a : Assembly) (t : Token) :
    step limit a t = step limit' a t ∨ ∃ p, step limit a t = reject p .tooDeep := by
  have hstart : ∀ ctx, start limit ctx t = start limit' ctx t ∨
      ∃ p, start limit ctx t = reject p .tooDeep := by
    intro ctx
    by_cases hfull : limit ≤ ctx.used
    · exact .inr ⟨t.place, by rw [start, if_pos hfull]⟩
    · rw [start, if_neg hfull, start]
      by_cases hfull' : limit' ≤ ctx.used
      · exact absurd (h.trans hfull') hfull
      · exact .inl (by rw [if_neg hfull'])
  have hstatement : ∀ ctx, startStatement limit ctx t = startStatement limit' ctx t ∨
      ∃ p, startStatement limit ctx t = reject p .tooDeep := by
    intro ctx
    by_cases hfull : limit ≤ ctx.targets.length
    · exact .inr ⟨t.place, by rw [startStatement, if_pos hfull]⟩
    · rw [startStatement, if_neg hfull, startStatement, if_neg (by omega)]
      split
      · exact .inl rfl
      · exact .inl rfl
      · exact .inl rfl
      · exact hstart ctx
  cases a with
  | between lead =>
    rw [step, step, startLine, startLine]
    split
    · exact .inl rfl
    · exact .inl rfl
    · exact .inl rfl
    · exact hstatement _
  | accepted p => exact .inl rfl
  | stopped stop => exact .inl rfl
  | inside ctx mode =>
    cases mode with
    | statement => exact hstatement ctx
    | target name p =>
      rw [step, step, afterTarget, afterTarget]
      split
      · exact .inl rfl
      · by_cases hfull : limit ≤ ctx.used
        · exact .inr ⟨p, by rw [if_pos hfull]⟩
        · exact .inl (by rw [if_neg hfull, if_neg (by omega)])
    | operand =>
      rw [step, step]
      split
      · exact .inl rfl
      · exact hstart ctx
    | argument name p l =>
      rw [step, step, startArguments, startArguments]
      split
      · exact .inl rfl
      · exact .inl rfl
      · exact hstart _
    | row l lead =>
      rw [step, step, startRow.eq_def, startRow.eq_def]
      split
      · exact .inl rfl
      · exact .inl rfl
      · exact .inl rfl
      · exact .inl rfl
      · exact .inl rfl
      · exact hstart _
    | name name p => exact .inl rfl
    | value x => exact .inl rfl

theorem run_cases_of_le (h : limit ≤ limit') (a : Assembly) (ts : List Token) :
    run limit a ts = run limit' a ts ∨ ∃ p, run limit a ts = reject p .tooDeep := by
  induction ts generalizing a with
  | nil => exact .inl rfl
  | cons t ts ih =>
    rw [run_cons, run_cons]
    rcases step_cases_of_le h a t with hstep | ⟨p, hstep⟩
    · rw [hstep]
      exact ih _
    · exact .inr ⟨p, by rw [hstep, reject, run_stopped]⟩

end Assembly

namespace Piece

theorem form_ne_newline {cs : List Char} (h : '\n' ∉ cs) : ∀ p ∈ cut cs, p.form ≠ .newline := by
  intro p hp hform
  obtain ⟨rest, hmaximal⟩ := exists_maximal hp
  have hmem : '\n' ∈ (cut cs).flatMap text := by
    refine List.mem_flatMap.mpr ⟨p, hp, ?_⟩
    rw [text_of_newline hmaximal hform]
    exact List.mem_singleton_self _
  rw [flatMap_text_cut] at hmem
  exact h hmem

theorem kind?_ne_newline {p : Piece} (h : p.form ≠ .newline) : p.kind? ≠ some .newline := by
  unfold kind?
  split
  · rcases numeralKind_cases p.text with ⟨n, -, -, hkind⟩ | ⟨-, hkind⟩ <;> simp [hkind]
  all_goals simp_all

theorem line_place {ps : List Piece} (h : ∀ p ∈ ps, p.form ≠ .newline) (line column : Nat) :
    ∀ t ∈ place line column ps, t.line = line ∧ t.kind ≠ .newline := by
  induction ps generalizing column with
  | nil => simp [place]
  | cons p ps ih =>
    obtain ⟨hp, hps⟩ := List.forall_mem_cons.mp h
    have hnext : p.next line column = (line, column + p.text.length) := if_neg hp
    rw [place, hnext]
    dsimp only
    cases hkind : p.kind? with
    | none => exact ih hps _
    | some kind =>
      refine List.forall_mem_cons.mpr ⟨⟨rfl, ?_⟩, ih hps _⟩
      rintro rfl
      exact kind?_ne_newline hp hkind

end Piece

theorem line_tokenize {text : String} (h : OneLine text) :
    ∀ t ∈ tokenize text, t.line = 1 ∧ t.kind ≠ .newline :=
  Piece.line_place (Piece.form_ne_newline fun hmem => h _ hmem rfl) 1 1

theorem significant_eq_self {ts : List Token} (h : ∀ t ∈ ts, t.kind ≠ .newline) (l : Layout) :
    significant l ts = ts := by
  induction ts generalizing l with
  | nil => rfl
  | cons t ts ih =>
    obtain ⟨ht, hts⟩ := List.forall_mem_cons.mp h
    have hkind : t.kind.isNewline = false := by
      cases hk : t.kind <;> simp_all [Kind.isNewline]
    rw [significant, hkind, Bool.false_and, if_neg Bool.false_ne_true, ih hts]

namespace Phrase

variable {c : Category}

theorem depth_outline (p : Phrase c) : p.outline.depth = p.depth := by
  induction p <;> simp_all

/-- A phrase on the first line stands for a tree on it. -/
theorem tree_outline_of_line (p : Phrase c) (h : ∀ t ∈ p.yield, t.line = 1) :
    p.outline.tree = p.tree := by
  induction p <;>
    simp_all [Place.mark, Place.token, Place.origin, or_imp, forall_and]

end Phrase

/-- The program of one statement. -/
def Phrase.program (s : Phrase .statement) : Phrase .program := .full (.firstStatement [] s) []

/-- The tokens of a line, the end of input aside, have the kinds of the phrase that it spells. -/
theorem exists_tokenize_of_prints {c : Category} {text : String} {q : Phrase c}
    (hline : OneLine text) (h : Prints text q) : ∃ (ts : List Token) (e : Token),
      tokenize text = ts ++ [e] ∧ e.kind = .endOfInput ∧
      (∀ t ∈ ts, t.line = 1 ∧ t.kind ≠ .newline ∧ t.kind ≠ .endOfInput) ∧
      ts.map Token.kind = q.yield.map Token.kind := by
  obtain ⟨ts, l, column, hts, htokens, _⟩ := exists_tokenize text
  refine ⟨ts, _, htokens, rfl, fun t ht => ?_, ?_⟩
  · obtain ⟨hone, hkind⟩ := line_tokenize hline t (by rw [htokens]; exact List.mem_append_left _ ht)
    exact ⟨hone, hkind, hts t ht⟩
  · have hplace := Piece.kinds_place 1 1 (Piece.cut text.toList)
    have hspelled := h [] Lexeme.closed_nil
    rw [Piece.kindsOf_nil, List.append_nil, List.append_nil, Piece.kindsOf] at hspelled
    rw [hspelled, ← tokenize, htokens, List.map_append] at hplace
    exact List.append_cancel_right hplace

namespace Assembly

/-- With room for its levels a statement is read from all tokens of its kinds. -/
theorem exists_accepted {limit : Nat} {ts : List Token} {e : Token} {s : Phrase .statement}
    (hts : ∀ t ∈ ts, t.kind ≠ .newline ∧ t.kind ≠ .endOfInput) (he : e.kind = .endOfInput)
    (hkinds : ts.map Token.kind = s.yield.map Token.kind) (hlimit : s.depth ≤ limit) :
    ∃ p, run limit empty (ts ++ [e]) = .accepted p ∧ p.outline = s.program.outline := by
  have hyield : ∀ t ∈ s.yield, t.kind ≠ .newline ∧ t.kind ≠ .endOfInput := by
    intro t ht
    have hmem : t.kind ∈ ts.map Token.kind := hkinds ▸ List.mem_map_of_mem ht
    obtain ⟨u, hu, hkind⟩ := List.mem_map.mp hmem
    exact hkind ▸ hts u hu
  have hderives : s.program.Derives s.yield := by
    rw [Phrase.Derives, significant_eq_self fun t ht => (hyield t ht).1]
    simp [Phrase.program, Gap.yield]
  -- The tokens of the phrase itself are accepted, and those of the text have the same outlines.
  have hrun : run limit empty (s.yield ++ [e]) = .accepted s.program :=
    (accepted_iff (fun t ht => (hyield t ht).2) he).mpr ⟨hderives, hlimit⟩
  have houtline : (ts ++ [e]).map Token.outline = (s.yield ++ [e]).map Token.outline := by
    have hmap := congrArg (List.map Place.origin.token) hkinds
    rw [List.map_map, List.map_map] at hmap
    rw [List.map_append, List.map_append]
    exact congrArg (· ++ _) hmap
  have hsame := outline_run_congr limit (a := empty) rfl houtline
  rw [hrun] at hsame
  cases hresult : run limit empty (ts ++ [e]) with
  | accepted p =>
    rw [hresult] at hsame
    exact ⟨p, rfl, Assembly.accepted.inj hsame⟩
  | _ =>
    rw [hresult] at hsame
    contradiction

end Assembly

open Assembly in
/-- A line that spells a statement is read as it, or its levels are too many. -/
theorem parse_of_prints {text : String} {s : Phrase .statement} (hline : OneLine text)
    (h : Prints text s) :
    s.depth ≤ maxNesting ∧ parse text = .complete [s.tree.unlined] [] ∨
      maxNesting < s.depth ∧ ∃ line column, parse text = .malformed line column .tooDeep := by
  obtain ⟨ts, e, htokens, he, hts, hkinds⟩ := exists_tokenize_of_prints hline h
  have hend : ∀ t ∈ ts, t.kind ≠ .endOfInput := fun t ht => (hts t ht).2.2
  have hread : ∀ {limit}, s.depth ≤ limit → _ :=
    exists_accepted (fun t ht => (hts t ht).2) he hkinds
  rw [parse_eq, htokens]
  by_cases hdepth : s.depth ≤ maxNesting
  · obtain ⟨p, hp, houtline⟩ := hread hdepth
    have hyield : p.yield = ts := by
      rw [((accepted_iff hend he).mp hp).1, significant_eq_self fun t ht => (hts t ht).2.1]
    have htree : p.tree = [s.tree.unlined] := by
      rw [← p.tree_outline_of_line fun t ht => (hts t (hyield ▸ ht)).1, houtline,
        Phrase.tree_outline]
      rfl
    exact .inl ⟨hdepth, by rw [hp, outcome, htree]⟩
  · refine .inr ⟨not_le.mp hdepth, ?_⟩
    rcases run_cases_of_le (not_le.mp hdepth).le empty (ts ++ [e]) with hsame | ⟨p, hdeep⟩
    · -- What fits into the limit would be no deeper than it.
      obtain ⟨p, hp, houtline⟩ := hread (le_refl s.depth)
      have hfits := ((accepted_iff hend he).mp (hsame.trans hp)).2
      rw [← p.depth_outline, houtline, Phrase.depth_outline] at hfits
      exact absurd hfits hdepth
    · exact ⟨p.line, p.column, by rw [hdeep]; rfl⟩

end MatrixCalculator
