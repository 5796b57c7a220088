import Mathlib
import MatrixCalculator.Proofs.Joining
import MatrixCalculator.Proofs.Moves
import MatrixCalculator.Proofs.Outlines

namespace MatrixCalculator

section Lower

variable (d : Nat)

def Place.lower (p : Place) : Place := ⟨p.line + d, p.column⟩

theorem Token.move_lower : Token.move (Place.lower d) = Token.lower d := rfl

/-- The tree with all its nodes so many lines further down. -/
def Node.lower (node : Node) : Node := node.revise id fun line => line + d

theorem Phrase.tree_lower {c : Category} (p : Phrase c) :
    (p.move (Place.lower d)).tree = c.map (Node.lower d) p.tree := by
  induction p <;> simp_all [Category.map, Node.lower, Node.revise, Place.lower]

def Outcome.lower : Outcome (List Node) → Outcome (List Node)
  | .complete nodes rest => .complete (nodes.map (Node.lower d)) (rest.map (Token.lower d))
  | .incomplete => .incomplete
  | .malformed line column reason => .malformed (line + d) column reason
  | .broken b => .broken b

theorem Assembly.outcome_lower (a : Assembly) :
    (a.move (Place.lower d)).outcome = a.outcome.lower d := by
  cases a with
  | between lead => rfl
  | inside ctx mode => rfl
  | accepted p => exact congrArg (Outcome.complete · []) (p.tree_lower d)
  | stopped stop => cases stop <;> rfl

/-- A program on lower lines is read as it is on the first ones. -/
theorem parseProgram_lower {ts : List Token} (h : Ended ts) :
    parseProgram (ts.map (Token.lower d)) = (parseProgram ts).lower d := by
  rw [parseProgram_eq (h.lower d), parseProgram_eq h, ← Assembly.outcome_lower, Assembly.move_run,
    Token.move_lower]
  rfl

end Lower

/-- Behind a program and a newline, a text comes to what it comes to on its own, further down. -/
theorem parse_join {a : String} {first : List Node} {rest : List Token}
    (ha : parse a = .complete first rest) (b : String) :
    parse (a ++ "\n" ++ b) = ((parse b).lower (endLine a)).prepend first := by
  obtain ⟨ts, l, c, htokens, hjoin⟩ := exists_parse_join ha
  rw [hjoin, parseProgram_lower l (tokenize_ended b), ← eq_endLine htokens, parse]

theorem rest_of_parse {text : String} {nodes : List Node} {rest : List Token}
    (h : parse text = .complete nodes rest) : rest = [] := by
  rw [parse_eq] at h
  obtain ⟨p, _, _, hrest⟩ := Assembly.outcome_eq_complete h
  exact hrest

/-- Parsing composes at a newline behind a program: the second text is complete, incomplete or
malformed there as it is on its own, with all its lines counted from where the first text ends. -/
theorem parse_compose {a : String} {first : List Node} {rest : List Token}
    (ha : parse a = .complete first rest) (b : String) :
    (∀ nodes rest', parse b = .complete nodes rest' → parse (a ++ "\n" ++ b) =
      .complete (first ++ nodes.map (Node.lower (endLine a))) []) ∧
    (parse b = .incomplete → parse (a ++ "\n" ++ b) = .incomplete) ∧
    ∀ line column reason, parse b = .malformed line column reason →
      parse (a ++ "\n" ++ b) = .malformed (line + endLine a) column reason := by
  refine ⟨fun nodes rest' hb => ?_, fun hb => ?_, fun line column reason hb => ?_⟩
  · obtain rfl := rest_of_parse hb
    rw [parse_join ha, hb]
    rfl
  · rw [parse_join ha, hb]
    rfl
  · rw [parse_join ha, hb]
    rfl

/-- Behind two lines, a call and its argument land on the third and the fourth, an open bracket
keeps the whole open, and a stray one is found on the fourth. -/
theorem parse_compose_two_lines :
    parse "x = e # base\n" = .complete [.assign "x" (.ident "e" 1) 1] [] ∧
    parse ("x = e # base\n" ++ "\n" ++ "log(\nx)") =
      .complete [.assign "x" (.ident "e" 1) 1, .call "log" [.ident "x" 4] 3] [] ∧
    parse ("x = e # base\n" ++ "\n" ++ "[x,") = .incomplete ∧
    parse ("x = e # base\n" ++ "\n" ++ "\nx ]") = .malformed 4 3 (.unmatched .rightBracket) := by
  have ha : parse "x = e # base\n" = .complete [.assign "x" (.ident "e" 1) 1] [] := by
    rw [parse_eq]
    cbv
  have hline : endLine "x = e # base\n" = 2 := by cbv
  have hcall : parse "log(\nx)" = .complete [.call "log" [.ident "x" 2] 1] [] := by
    rw [parse_eq]
    cbv
  have hopen : parse "[x," = .incomplete := by
    rw [parse_eq]
    cbv
  have hstray : parse "\nx ]" = .malformed 2 3 (.unmatched .rightBracket) := by
    rw [parse_eq]
    cbv
  refine ⟨ha, ?_, (parse_compose ha _).2.1 hopen, ?_⟩
  · rw [(parse_compose ha _).1 _ _ hcall, hline]
    simp [Node.lower, Node.revise]
  · rw [(parse_compose ha _).2.2 _ _ _ hstray, hline]

end MatrixCalculator
