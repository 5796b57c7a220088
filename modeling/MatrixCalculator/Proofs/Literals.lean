import Mathlib
import MatrixCalculator.Proofs.Printing
import MatrixCalculator.Proofs.Runs

namespace MatrixCalculator

theorem Text.trimChars_eq_self {p : Char → Bool} {cs : List Char} (h : ∀ c ∈ cs, p c = false) :
    Text.trimChars p cs = cs := by
  have hdrop : ∀ cs : List Char, (∀ c ∈ cs, p c = false) → cs.dropWhile p = cs := by
    intro cs h
    cases cs with
    | nil => rfl
    | cons c cs =>
      rw [List.dropWhile_cons_of_neg]
      rw [h c List.mem_cons_self]
      exact Bool.false_ne_true
  have hreverse : ∀ c ∈ cs.reverse, p c = false := fun c hc => h c (List.mem_reverse.mp hc)
  rw [trimChars, hdrop cs h, hdrop _ hreverse, List.reverse_reverse]

theorem OfNumber.isMargin_eq_false {c : Char} (h : OfNumber c) : Reading.isMargin c = false := by
  rcases h with hdigit | hmark
  · obtain ⟨hlow, hhigh⟩ := toNat_of_isDigit hdigit
    rw [Reading.isMargin, Text.isBlank, Bool.and_eq_false_iff]
    left
    simp only [Bool.or_eq_false_iff, Bool.and_eq_false_iff, decide_eq_false_iff_not,
      beq_eq_false_iff_ne]
    omega
  · simp only [List.mem_cons, List.not_mem_nil, or_false] at hmark
    rcases hmark with rfl | rfl | rfl | rfl <;> decide

theorem Figures.exists_chars (f : Figures) :
    ∃ d ds, f.chars = d :: ds ∧ d.isDigit = true := by
  obtain ⟨d, ds, hwhole⟩ := List.exists_cons_of_ne_nil f.whole_ne
  refine ⟨d, ds ++ (f.fractionChars ++ f.exponentChars), ?_, ?_⟩
  · rw [chars, hwhole, List.cons_append]
  · exact f.whole_digits d (hwhole ▸ List.mem_cons_self)

namespace Reading

theorem dropUnderscores?_eq_self {cs : List Char} (h : ∀ c ∈ cs, c ≠ '_') (afterDigit : Bool) :
    dropUnderscores? afterDigit cs = some cs := by
  induction cs generalizing afterDigit with
  | nil => rfl
  | cons c cs ih =>
    obtain ⟨hc, hcs⟩ := List.forall_mem_cons.mp h
    rw [dropUnderscores?, ih hcs]
    · rfl
    · exact hc

theorem sign_of_isDigit {c : Char} (h : c.isDigit = true) (cs : List Char) :
    sign (c :: cs) = (false, c :: cs) := by
  unfold sign
  split
  · rename_i heq
    rw [(List.cons.inj heq).1] at h
    contradiction
  · rename_i heq
    rw [(List.cons.inj heq).1] at h
    contradiction
  · rfl

/-- What starts with a digit is none of the words for numbers that are not finite. -/
theorem magnitude?_of_isDigit {c : Char} (h : c.isDigit = true) (cs : List Char) :
    magnitude? (c :: cs) = (Numeral.ofChars? (c :: cs)).map Numeral.value := by
  have hlower : c.toLower = c := by
    rw [Char.toLower, dif_neg]
    rintro ⟨hupper, -⟩
    have hlow : 65 ≤ c.toNat := UInt32.le_iff_toNat_le.mp hupper
    have hhigh := (toNat_of_isDigit h).2
    omega
  have hword : ∀ (d : Char) (ds : List Char), d.isDigit = false →
      (String.ofList ((c :: cs).map Char.toLower) == String.ofList (d :: ds)) = false := by
    intro d ds hd
    rw [beq_eq_false_iff_ne]
    intro heq
    rw [String.ofList_inj, List.map_cons, hlower] at heq
    rw [(List.cons.inj heq).1] at h
    exact Bool.false_ne_true (hd.symm.trans h)
  have hinf : (_ == "inf") = false := hword 'i' ['n', 'f'] rfl
  have hinfinity : (_ == "infinity") = false := hword 'i' ['n', 'f', 'i', 'n', 'i', 't', 'y'] rfl
  have hnan : (_ == "nan") = false := hword 'n' ['a', 'n'] rfl
  rw [magnitude?, hinf, hinfinity, hnan]
  rfl

section

variable {text : String} {negative : Bool} {f : Figures}

theorem sign_figures (h : text.toList = if negative then '-' :: f.chars else f.chars) :
    sign text.toList = (negative, f.chars) := by
  rw [h]
  cases negative with
  | true => rfl
  | false =>
    obtain ⟨d, ds, hchars, hdigit⟩ := f.exists_chars
    rw [hchars]
    exact sign_of_isDigit hdigit ds

/-- Figures are read as their value, and after a minus as its opposite. -/
theorem double?_figures (htext : Spelled OfNumber text)
    (h : text.toList = if negative then '-' :: f.chars else f.chars) :
    double? text = some (if negative then -f.numeral.value else f.numeral.value) := by
  have hcore : core text = text.toList :=
    Text.trimChars_eq_self fun c hc => (htext c hc).isMargin_eq_false
  have hplain : dropUnderscores? false text.toList = some text.toList :=
    dropUnderscores?_eq_self (fun c hc => (htext c hc).ne (by decide)) false
  have hmagnitude : magnitude? f.chars = some f.numeral.value := by
    obtain ⟨d, ds, hchars, hdigit⟩ := f.exists_chars
    rw [hchars, magnitude?_of_isDigit hdigit, ← hchars, f.ofChars?_chars]
    rfl
  rw [double?, hcore, hplain]
  dsimp only [Option.bind_eq_bind, Option.bind_some]
  rw [sign_figures h, hmagnitude]
  rfl

end

end Reading

/-- The double that the text of a number denotes. -/
def Double.denoted (x : Float) : Float := (Reading.double? (numberText defaultPrecision x)).getD x

/-- The tree of the text of a number: a numeral, or the opposite of one. -/
def Node.ofNumber (x : Float) : Node :=
  let (negative, cs) := Reading.sign (numberText defaultPrecision x).toList
  let numeral : Node := .number (((Numeral.ofChars? cs).map Numeral.value).getD x) 1
  if negative then .neg numeral 1 else numeral

/-- The tree of the text of a value. -/
def Value.literal : Value → Node
  | .scalar x => .ofNumber x
  | .matrix m => .matrix (m.toRows.map (List.map Node.ofNumber)) 1

section

variable {x : Float} {negative : Bool} {f : Figures}

theorem Node.ofNumber_eq
    (h : (numberText defaultPrecision x).toList = if negative then '-' :: f.chars else f.chars) :
    ofNumber x = if negative then .neg (.number f.numeral.value 1) 1 else
      .number f.numeral.value 1 := by
  rw [ofNumber, Reading.sign_figures h]
  dsimp only
  rw [f.ofChars?_chars]
  rfl

theorem Double.denoted_eq (hx : x.isFinite = true)
    (h : (numberText defaultPrecision x).toList = if negative then '-' :: f.chars else f.chars) :
    denoted x = if negative then -f.numeral.value else f.numeral.value := by
  rw [denoted, Reading.double?_figures (spelled_numberText _ hx) h]
  rfl

end

theorem exists_prints_number {x : Float} (h : x.isFinite = true) : ∃ u : Phrase .unary,
    Prints (numberText defaultPrecision x) u ∧ u.tree = .ofNumber x ∧ u.depth ≤ 2 := by
  obtain ⟨negative, f, htext, hvalue, -⟩ := exists_signed_figures h
  have hfigures : Prints (String.ofList f.chars)
      (Phrase.operand (.ofPrimary (.number f.numeral.value .origin))) :=
    Prints.number String.toList_ofList hvalue
  cases negative with
  | false =>
    have hplain : numberText defaultPrecision x = String.ofList f.chars := by
      rw [← String.toList_inj, htext, String.toList_ofList]
      rfl
    refine ⟨_, hplain ▸ hfigures, ?_, ?_⟩
    · rw [Node.ofNumber_eq htext]
      rfl
    · simp [Phrase.operand]
  | true =>
    have hsigned : numberText defaultPrecision x = "-" ++ String.ofList f.chars := by
      rw [← String.toList_inj, htext, String.toList_append, String.toList_ofList,
        String.toList_ofList]
      rfl
    refine ⟨_, hsigned ▸ hfigures.negated, ?_, ?_⟩
    · rw [Node.ofNumber_eq htext]
      rfl
    · simp [Phrase.operand]

theorem exists_prints_row {xs : List Float} (hne : xs ≠ [])
    (h : ∀ x ∈ xs, x.isFinite = true) : ∃ items : Phrase .items,
      Prints (", ".intercalate (xs.map (numberText defaultPrecision))) items ∧
      items.tree = xs.map .ofNumber ∧ items.depth ≤ 2 := by
  refine intercalate_induction (P := fun text x => ∃ u : Phrase .unary,
      Prints text u ∧ u.tree = .ofNumber x ∧ u.depth ≤ 2)
    (Q := fun text xs => ∃ items : Phrase .items,
      Prints text items ∧ items.tree = xs.map .ofNumber ∧ items.depth ≤ 2) ?_ ?_ hne
    fun x hx => exists_prints_number (h x hx)
  · rintro text x ⟨u, hprints, htree, hdepth⟩
    exact ⟨.item (.ofTerm (.ofUnary u)), hprints, by simp [htree], hdepth⟩
  · rintro text text' xs x ⟨items, hitems, htrees, hdepths⟩ ⟨u, hprints, htree, hdepth⟩
    exact ⟨_, hitems.more (e := .ofTerm (.ofUnary u)) hprints, by simp [htrees, htree],
      max_le hdepths hdepth⟩

theorem exists_prints_rows {rows : List (List Float)} (hne : rows ≠ [])
    (hrow : ∀ xs ∈ rows, xs ≠ []) (h : ∀ xs ∈ rows, ∀ x ∈ xs, x.isFinite = true) :
    ∃ q : Phrase .rows, Prints ("; ".intercalate (rows.map fun xs =>
        ", ".intercalate (xs.map (numberText defaultPrecision)))) q ∧
      q.tree = rows.map (List.map .ofNumber) ∧ q.depth ≤ 2 := by
  refine intercalate_induction (P := fun text xs => ∃ items : Phrase .items,
      Prints text items ∧ items.tree = xs.map .ofNumber ∧ items.depth ≤ 2)
    (Q := fun text rows => ∃ q : Phrase .rows,
      Prints text q ∧ q.tree = rows.map (List.map .ofNumber) ∧ q.depth ≤ 2) ?_ ?_ hne
    fun xs hxs => exists_prints_row (hrow xs hxs) (h xs hxs)
  · rintro text xs ⟨items, hprints, htree, hdepth⟩
    exact ⟨.firstRow [] items, hprints, by simp [htree], hdepth⟩
  · rintro text text' rows xs ⟨q, hq, htrees, hdepths⟩ ⟨items, hprints, htree, hdepth⟩
    exact ⟨_, hq.nextRow hprints, by simp [htrees, htree], max_le hdepths hdepth⟩

namespace Value

theorem exists_prints_render {v : Value} (h : v.isFinite = true) : ∃ s : Phrase .statement,
    Prints (v.render defaultPrecision) s ∧ s.tree = v.literal ∧ s.depth ≤ maxNesting := by
  have hfinite : ∀ x ∈ v.entries, x.isFinite = true := List.all_eq_true.mp h
  cases v with
  | scalar x =>
    obtain ⟨u, hprints, htree, hdepth⟩ := exists_prints_number (hfinite x List.mem_cons_self)
    refine ⟨.bare (.ofTerm (.ofUnary u)), hprints, htree, ?_⟩
    have hlimit : maxNesting = 32 := rfl
    simp only [Phrase.depth]
    omega
  | matrix m =>
    have hne : m.toRows ≠ [] := List.ne_nil_of_length_pos (m.length_toRows ▸ m.rows_pos)
    have hrow : ∀ xs ∈ m.toRows, xs ≠ [] := fun xs hxs =>
      List.ne_nil_of_length_pos (DenseMatrix.length_of_mem_toRows hxs ▸ m.cols_pos)
    obtain ⟨q, hprints, htree, hdepth⟩ := exists_prints_rows hne hrow fun xs hxs x hx =>
      hfinite x (DenseMatrix.mem_data_of_mem_toRows hxs hx)
    refine ⟨.bare (Phrase.whole (.ofPrimary (.matrix .origin q [] .origin))), hprints.matrix,
      ?_, ?_⟩
    · simp [Phrase.whole, Phrase.operand, htree, literal, Place.origin]
    · have hlimit : maxNesting = 32 := rfl
      simp only [Phrase.whole, Phrase.operand, Phrase.depth]
      omega

theorem entries_map (f : Float → Float) (v : Value) : (v.map f).entries = v.entries.map f := by
  cases v with
  | scalar x => rfl
  | matrix m => exact m.data_map f

theorem isAssign_literal (v : Value) : v.literal.isAssign = false := by
  cases v with
  | scalar x =>
    unfold literal Node.ofNumber
    dsimp only
    split <;> rfl
  | matrix m => rfl

theorem unlined_literal (v : Value) : v.literal.unlined = v.literal := by
  have hnumber : ∀ x, (Node.ofNumber x).unlined = Node.ofNumber x := by
    intro x
    unfold Node.ofNumber
    dsimp only
    split <;> simp [Node.unlined, Node.revise]
  cases v with
  | scalar x => exact hnumber x
  | matrix m =>
    have hrow : Node.unlined ∘ Node.ofNumber = Node.ofNumber := funext hnumber
    have hrows : (m.toRows.map (List.map Node.ofNumber)).map (List.map Node.unlined) =
        m.toRows.map (List.map Node.ofNumber) := by
      rw [List.map_map, List.map_comp_map, hrow]
    rw [literal, Node.unlined, Node.revise]
    exact congrArg (Node.matrix · 1) hrows

end Value

namespace Evaluation

variable (env : Environment) (tolerance : Float)

/-- The tree of the text of a number comes to the double that the text denotes. -/
theorem eval_ofNumber {x : Float} (h : x.isFinite = true) (depth : Nat) :
    eval env tolerance (depth + 2) (.ofNumber x) = .ok (.scalar (Double.denoted x)) := by
  obtain ⟨negative, f, htext, hvalue, -⟩ := exists_signed_figures h
  rw [Node.ofNumber_eq htext, Double.denoted_eq h htext]
  cases negative with
  | false => rfl
  | true => rfl

theorem mapM_eq_ok {α β γ : Type} {f : α → Except Failure β} {g : γ → α} {k : γ → β} {xs : List γ}
    (h : ∀ x ∈ xs, f (g x) = .ok (k x)) : (xs.map g).mapM f = .ok (xs.map k) := by
  induction xs with
  | nil => rfl
  | cons x xs ih =>
    obtain ⟨hx, hxs⟩ := List.forall_mem_cons.mp h
    rw [List.map_cons, List.mapM_cons, hx, ih hxs]
    rfl

theorem eval_literal {v : Value} (h : v.isFinite = true) (depth : Nat) :
    eval env tolerance (depth + 3) v.literal = .ok (v.map Double.denoted) := by
  have hfinite : ∀ x ∈ v.entries, x.isFinite = true := List.all_eq_true.mp h
  cases v with
  | scalar x => exact eval_ofNumber env tolerance (hfinite x List.mem_cons_self) (depth + 1)
  | matrix m =>
    have hentries : (m.toRows.map (List.map Node.ofNumber)).mapM (fun row => row.mapM fun e => do
        element 1 (← eval env tolerance (depth + 2) e)) =
          .ok (m.toRows.map (List.map Double.denoted)) := by
      refine mapM_eq_ok fun xs hxs => mapM_eq_ok fun x hx => ?_
      rw [eval_ofNumber env tolerance (hfinite x (DenseMatrix.mem_data_of_mem_toRows hxs hx)) depth]
      rfl
    rw [Value.literal, eval, hentries, ← DenseMatrix.toRows_map]
    dsimp only [bind, Except.bind]
    rw [DenseMatrix.ofRows?_toRows]
    rfl

theorem execute_literal {v : Value} (h : v.isFinite = true) (depth : Nat) :
    execute env tolerance (depth + 4) v.literal = .ok (v.map Double.denoted, env) := by
  have hwrites : v.literal.writes (v.map Double.denoted) = [] := by
    rw [Node.writes, (Node.targets_of_isAssign_eq_false v.isAssign_literal).1]
    rfl
  rw [execute_eq, result_of_isAssign_eq_false _ _ v.isAssign_literal, eval_literal _ _ h]
  dsimp only [Except.map]
  rw [hwrites]
  rfl

end Evaluation

theorem Double.double?_numberText {x : Float} (h : x.isFinite = true) :
    Reading.double? (numberText defaultPrecision x) = some (denoted x) ∧
      (denoted x).isFinite = true := by
  obtain ⟨negative, f, htext, hvalue, -⟩ := exists_signed_figures h
  rw [Reading.double?_figures (spelled_numberText _ h) htext, denoted_eq h htext]
  refine ⟨rfl, ?_⟩
  cases negative with
  | false => exact hvalue
  | true => exact (isFinite_neg _).trans hvalue

/-- A finite value is read back from its text: the text is one statement, which comes in all
variables to a value of the same shape, and each entry is the number that its text denotes. -/
theorem Value.render_read_back {v : Value} (h : v.isFinite = true) : ∃ node w,
    parse (v.render defaultPrecision) = .complete [node] [] ∧
    (∀ env tolerance,
      Evaluation.execute env tolerance Evaluation.maxDepth node = .ok (w, env)) ∧
    w.shape? = v.shape? ∧
    List.Forall₂ (fun x y => Reading.double? (numberText defaultPrecision x) = some y ∧
      y.isFinite = true) v.entries w.entries := by
  obtain ⟨s, hprints, htree, hdepth⟩ := v.exists_prints_render h
  refine ⟨v.literal, v.map Double.denoted, ?_, fun env tolerance => ?_, ?_, ?_⟩
  · have hparse := parse_of_prints (v.oneLine_render _) hprints
    rw [htree, unlined_literal] at hparse
    exact (hparse.resolve_right fun hdeep => absurd hdepth (not_le.mpr hdeep.1)).2
  · exact Evaluation.execute_literal env tolerance h 486
  · cases v <;> rfl
  · rw [entries_map, List.forall₂_map_right_iff, List.forall₂_same]
    exact fun x hx => Double.double?_numberText (List.all_eq_true.mp h x hx)

theorem Value.render_read_back_signed : ∃ m : DenseMatrix Float, m.data = [1.5, -1e-5] ∧
    (Value.matrix m).render defaultPrecision = "[1.5, -1e-05]" ∧ ∃ node w,
    parse "[1.5, -1e-05]" = .complete [node] [] ∧
    (∀ env tolerance,
      Evaluation.execute env tolerance Evaluation.maxDepth node = .ok (w, env)) ∧
    w.shape? = some ⟨1, 2⟩ ∧
    List.Forall₂ (fun x y => Reading.double? (numberText defaultPrecision x) = some y ∧
      y.isFinite = true) [1.5, -1e-5] w.entries := by
  obtain ⟨m, hshape, hdata, htext⟩ : ∃ m : DenseMatrix Float, m.shape = ⟨1, 2⟩ ∧
      m.data = [1.5, -1e-5] ∧ (Value.matrix m).render defaultPrecision = "[1.5, -1e-05]" :=
    ⟨DenseMatrix.ofList 1 2 [1.5, -1e-5] (by decide) (by decide) rfl, rfl, rfl,
      by decide +kernel⟩
  have hentries : (Value.matrix m).entries = [1.5, -1e-5] := hdata
  have hfinite : (Value.matrix m).isFinite = true := by
    rw [Value.isFinite, hentries]
    decide
  have hback := Value.render_read_back hfinite
  rw [htext, Value.shape?, hshape, hentries] at hback
  exact ⟨m, hdata, htext, hback⟩

end MatrixCalculator
