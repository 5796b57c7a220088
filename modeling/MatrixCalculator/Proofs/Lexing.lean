import MatrixCalculator.Proofs.Parsing
import MatrixCalculator.Proofs.Pieces

namespace MatrixCalculator

namespace Piece

def newlinePiece : Piece := ⟨.newline, '\n', []⟩

theorem Tiles.cut_newline {ps : List Piece} (h : Tiles ps) (b : List Char) :
    cut (ps.flatMap text ++ '\n' :: b) = ps ++ newlinePiece :: cut b := by
  induction h with
  | nil =>
    have hnewline : newlinePiece.Maximal b := ⟨rfl, rfl⟩
    exact cut_of_maximal hnewline
  | @cons p ps hp hps ih =>
    have hnext : p.Maximal (ps.flatMap text ++ '\n' :: b) :=
      hp.append (by decide) (fun _ _ => rfl) (fun _ _ => rfl) b
    rw [List.flatMap_cons, List.append_assoc, cut_of_maximal hnext, ih, List.cons_append]

theorem cut_newline (a b : List Char) : cut (a ++ '\n' :: b) = cut a ++ newlinePiece :: cut b := by
  rw [← (tiles_cut a).cut_newline, flatMap_text_cut]

end Piece

def Token.lower (d : Nat) (t : Token) : Token := { t with line := t.line + d }

namespace Piece

theorem place_lower (d line column : Nat) (ps : List Piece) :
    place (line + d) column ps = (place line column ps).map (Token.lower d) := by
  induction ps generalizing line column with
  | nil => rfl
  | cons p ps ih =>
    have hnext : p.next (line + d) column =
        ((p.next line column).1 + d, (p.next line column).2) := by
      unfold next
      split
      · simp only [Prod.mk.injEq, and_true]
        omega
      · rfl
    rw [place, place, hnext]
    dsimp only
    split
    · rw [List.map_cons, ih]
      rfl
    · exact ih _ _

theorem kind?_ne_end (p : Piece) : p.kind? ≠ some .endOfInput := by
  unfold kind?
  split
  · rcases numeralKind_cases p.text with ⟨n, -, -, hkind⟩ | ⟨-, hkind⟩ <;> simp [hkind]
  all_goals simp

/-- The tokens of pieces end where the pieces do; more pieces behind a newline go on from there. -/
theorem exists_place (line column : Nat) (ps : List Piece) : ∃ (ts : List Token) (l c : Nat),
    (∀ t ∈ ts, t.kind ≠ .endOfInput) ∧ place line column ps = ts ++ [⟨.endOfInput, l, c⟩] ∧
    ∀ qs, place line column (ps ++ newlinePiece :: qs) =
      ts ++ ⟨.newline, l, c⟩ :: place (l + 1) 1 qs := by
  induction ps generalizing line column with
  | nil => exact ⟨[], line, column, by simp, rfl, fun qs => rfl⟩
  | cons p ps ih =>
    obtain ⟨ts, l, c, hts, hplace, happend⟩ := ih (p.next line column).1 (p.next line column).2
    cases hk : p.kind? with
    | none =>
      refine ⟨ts, l, c, hts, ?_, fun qs => ?_⟩
      · rw [place, hk]
        exact hplace
      · rw [List.cons_append, place, hk]
        exact happend qs
    | some kind =>
      refine ⟨⟨kind, line, column⟩ :: ts, l, c, ?_, ?_, fun qs => ?_⟩
      · rintro t ht
        rcases List.mem_cons.mp ht with rfl | ht
        · rintro rfl
          exact kind?_ne_end p hk
        · exact hts t ht
      · rw [place, hk]
        exact congrArg _ hplace
      · rw [List.cons_append, place, hk]
        exact congrArg _ (happend qs)

end Piece

/-- The place behind a text: one line for each newline, and one column for each character behind the
last newline. -/
def Place.behind (cs : List Char) : Place :=
  ⟨1 + cs.count '\n', 1 + (cs.rtakeWhile (· != '\n')).length⟩

theorem Place.behind_newline (cs : List Char) :
    behind (cs ++ ['\n']) = ⟨(behind cs).line + 1, 1⟩ := by
  rw [behind, List.rtakeWhile_concat_neg _ _ _ (by decide), List.count_append,
    List.count_singleton_self]
  rfl

theorem Place.behind_append (cs : List Char) {ds : List Char} (h : '\n' ∉ ds) :
    behind (cs ++ ds) = ⟨(behind cs).line, (behind cs).column + ds.length⟩ := by
  have hds : ∀ c ∈ ds.reverse, (c != '\n') = true := by
    intro c hc
    exact bne_iff_ne.mpr fun hc' => h (hc' ▸ List.mem_reverse.mp hc)
  have hcolumn : ((cs ++ ds).rtakeWhile (· != '\n')).length =
      (cs.rtakeWhile (· != '\n')).length + ds.length := by
    rw [List.rtakeWhile, List.rtakeWhile, List.reverse_append, List.takeWhile_append_of_pos hds]
    simp only [List.length_reverse, List.length_append]
    omega
  rw [behind, behind, hcolumn, List.count_append, List.count_eq_zero.mpr h, Nat.add_zero,
    Nat.add_assoc]

namespace Piece

/-- Behind a piece the place is the one behind the text up to there. -/
theorem Maximal.next_behind {p : Piece} {rest : List Char} (h : p.Maximal rest) (cs : List Char) :
    p.next (Place.behind cs).line (Place.behind cs).column =
      ((Place.behind (cs ++ p.text)).line, (Place.behind (cs ++ p.text)).column) := by
  by_cases hform : p.form = .newline
  · rw [next, if_pos hform, text_of_newline h hform, Place.behind_newline]
  · rw [next, if_neg hform, Place.behind_append cs (newline_not_mem_text h hform)]

theorem Tiles.getLast?_place {ps : List Piece} (h : Tiles ps) (cs : List Char) :
    (place (Place.behind cs).line (Place.behind cs).column ps).getLast? =
      some ((Place.behind (cs ++ ps.flatMap text)).token .endOfInput) := by
  induction h generalizing cs with
  | nil =>
    rw [List.flatMap_nil, List.append_nil]
    rfl
  | @cons p ps hp hps ih =>
    have hlast := ih (cs ++ p.text)
    rw [List.append_assoc] at hlast
    rw [place, hp.next_behind, List.flatMap_cons]
    dsimp only
    split
    · rw [List.getLast?_cons, hlast]
      rfl
    · exact hlast

end Piece

theorem getLast?_tokenize (text : String) :
    (tokenize text).getLast? = some ((Place.behind text.toList).token .endOfInput) := by
  have hlast := (Piece.tiles_cut text.toList).getLast?_place []
  rwa [Piece.flatMap_text_cut] at hlast

/-- The line on which a text ends. -/
def endLine (text : String) : Nat := 1 + text.toList.count '\n'

theorem eq_endLine {text : String} {ts : List Token} {e : Token} (h : tokenize text = ts ++ [e]) :
    e.line = endLine text := by
  have hlast := getLast?_tokenize text
  rw [h, List.getLast?_concat, Option.some.injEq] at hlast
  rw [hlast]
  rfl

theorem exists_tokenize (a : String) : ∃ (ts : List Token) (l c : Nat),
    (∀ t ∈ ts, t.kind ≠ .endOfInput) ∧ tokenize a = ts ++ [⟨.endOfInput, l, c⟩] ∧
    ∀ b, tokenize (a ++ "\n" ++ b) =
      ts ++ ⟨.newline, l, c⟩ :: (tokenize b).map (Token.lower l) := by
  obtain ⟨ts, l, c, hts, hplace, happend⟩ := Piece.exists_place 1 1 (Piece.cut a.toList)
  refine ⟨ts, l, c, hts, hplace, fun b => ?_⟩
  have htext : (a ++ "\n" ++ b).toList = a.toList ++ '\n' :: b.toList := by
    simp
  rw [tokenize, htext, Piece.cut_newline, happend, Nat.add_comm, Piece.place_lower]
  rfl

theorem tokenize_ended (text : String) : Ended (tokenize text) := by
  obtain ⟨ts, l, c, hts, htokens, _⟩ := exists_tokenize text
  rw [htokens]
  exact .append hts rfl

/-- Reading a text is running the empty assembly on its tokens. -/
theorem parse_eq (text : String) :
    parse text = (Assembly.run maxNesting Assembly.empty (tokenize text)).outcome :=
  parseProgram_eq (tokenize_ended text)

/-- Lexing composes at a newline. Between the tokens of the two texts the newline stands where the
first text ends, and the tokens of the second keep their columns on lines that are counted from
there. -/
theorem tokenize_compose (a b : String) : ∃ e : Token,
    (tokenize a).getLast? = some e ∧ e.kind = .endOfInput ∧
    tokenize (a ++ "\n" ++ b) = (tokenize a).dropLast ++ ⟨.newline, e.line, e.column⟩ ::
      (tokenize b).map (Token.lower (1 + a.toList.count '\n')) := by
  obtain ⟨ts, l, c, -, htokens, happend⟩ := exists_tokenize a
  have hline : l = 1 + a.toList.count '\n' := eq_endLine htokens
  refine ⟨⟨.endOfInput, l, c⟩, ?_, rfl, ?_⟩
  · rw [htokens, List.getLast?_concat]
  · rw [happend, htokens, List.dropLast_concat, ← hline]

end MatrixCalculator
