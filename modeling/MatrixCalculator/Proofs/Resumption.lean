import Mathlib
import MatrixCalculator.Proofs.Progress

namespace MatrixCalculator

namespace Cursor

/-- At a position of the tokens, in no bracket. -/
def standing (tokens : List Token) (position : Nat) : Cursor :=
  ⟨position, tokens.drop position, [], 0⟩

/-- The same cursor where `k` more tokens lie behind. -/
def farther (k : Nat) (c : Cursor) : Cursor := { c with passed := k + c.passed }

inductive Request where
  | statement
  | separators
  | program

inductive Reply where
  | statement (out : Outcome Node)
  | separators (broken : Option Breakdown)
  | program (out : Outcome (List Node))

def serve (c : Cursor) : Request → Reply × Cursor
  | .statement => (.statement c.statement.1, c.statement.2)
  | .separators =>
    match c.skipSeparators with
    | .ok c' => (.separators none, c')
    | .error b => (.separators (some b), c)
  | .program => (.program c.program.1, c.program.2)

def serveAll (c : Cursor) : List Request → List Reply × Cursor
  | [] => ([], c)
  | request :: requests =>
    let rest := (c.serve request).2.serveAll requests
    ((c.serve request).1 :: rest.1, rest.2)

theorem exists_serve (request : Request) (es : List Enclosure) {ts : List Token} (hts : Ended ts) :
    ∃ reply us gs, us <:+ ts ∧ Ended us ∧ ∀ p d, serve ⟨p, ts, es, d⟩ request =
      (reply, ⟨p + (ts.length - us.length), us, gs, d⟩) := by
  cases request with
  | statement =>
    rcases statement_cases es hts with ⟨node, us, hus, -, hended, h⟩ | h |
      ⟨line, column, reason, us, gs, hus, hended, h⟩
    · exact ⟨.statement (.complete node us), us, es, hus, hended, fun p d => by rw [serve, h]⟩
    · refine ⟨.statement .incomplete, ts, [], List.suffix_refl ts, hts, fun p d => ?_⟩
      rw [serve, h, Nat.sub_self, Nat.add_zero]
    · exact ⟨.statement (.malformed line column reason), us, gs, hus, hended,
        fun p d => by rw [serve, h]⟩
  | separators =>
    refine ⟨.separators none, ts.dropWhile fun t => t.kind.isSeparator, es,
      List.dropWhile_suffix _, hts.dropWhile rfl, fun p d => ?_⟩
    rw [serve, skipSeparators_eq hts]
    rfl
  | program =>
    obtain ⟨out, us, gs, -, hus, hended, h⟩ := exists_programFrom es [] hts
    refine ⟨.program out, us, gs, hus, hended, fun p d => ?_⟩
    rw [serve, program, h _ _ _ (le_refl _)]

theorem serve_farther {c : Cursor} (hc : Ended c.rest) (k : Nat) (request : Request) :
    (c.farther k).serve request = ((c.serve request).1, (c.serve request).2.farther k) ∧
      Ended (c.serve request).2.rest := by
  obtain ⟨p, ts, es, d⟩ := c
  obtain ⟨reply, us, gs, -, hended, h⟩ := exists_serve request es hc
  rw [farther, h, h, farther, Nat.add_assoc]
  exact ⟨rfl, hended⟩

theorem serveAll_farther {c : Cursor} (hc : Ended c.rest) (k : Nat) (requests : List Request) :
    (c.farther k).serveAll requests =
      ((c.serveAll requests).1, (c.serveAll requests).2.farther k) := by
  induction requests generalizing c with
  | nil => rfl
  | cons request requests ih =>
    obtain ⟨hserve, hended⟩ := serve_farther hc k request
    rw [serveAll, serveAll, hserve, ih hended]

theorem trailingReason?_eq_none_iff {k : Kind} : Reader.trailingReason? k = none ↔
    k = .newline ∨ k = .symbol .semicolon ∨ k = .endOfInput := by
  unfold Reader.trailingReason?
  split <;> simp_all

theorem exists_cons_of_complete {c c' : Cursor} {node : Node} {remaining : List Token}
    (hc : c.enclosures = []) (hended : Ended c.rest)
    (h : c.statement = (.complete node remaining, c')) :
    ∃ t ts, remaining = t :: ts ∧
      (t.kind = .newline ∨ t.kind = .symbol .semicolon ∨ t.kind = .endOfInput) := by
  rcases Reader.terminatedStatement_reads (.initial []) hc hended with
    ⟨s, t, ts, hread, -, -, ht, -⟩ | ⟨stop, c'', hread, hs, -⟩
  · rw [statement, hread] at h
    cases h
    exact ⟨t, ts, rfl, trailingReason?_eq_none_iff.mp ht⟩
  · rw [statement, hread] at h
    cases stop <;> cases h

/-- Reading one statement leaves the cursor clean, at any position of tokens where the end of input
comes last and only there. For want of input the cursor is as it was before. Behind a statement it
is in no bracket and at depth zero, a separator or the end of input follows, and all further
requests are answered as by a new cursor on the tokens that are left. Where the text is malformed
the depth is zero again. -/
theorem statement_clean {tokens : List Token} (h : Ended tokens) {position : Nat}
    (hposition : position < tokens.length) :
    (∀ c', (standing tokens position).statement = (.incomplete, c') →
      c' = standing tokens position) ∧
    (∀ node remaining c', (standing tokens position).statement = (.complete node remaining, c') →
      c'.enclosures = [] ∧ c'.depth = 0 ∧ c' = standing tokens c'.passed ∧
      c'.rest = remaining ∧
      (∃ t ts, remaining = t :: ts ∧
        (t.kind = .newline ∨ t.kind = .symbol .semicolon ∨ t.kind = .endOfInput)) ∧
      ∀ requests, c'.serveAll requests =
        (((ofTokens remaining).serveAll requests).1,
          ((ofTokens remaining).serveAll requests).2.farther c'.passed)) ∧
    (∀ line column reason c',
      (standing tokens position).statement = (.malformed line column reason, c') →
      c'.depth = 0) ∧
    ∀ b c', (standing tokens position).statement ≠ (.broken b, c') := by
  have hrest : Ended (tokens.drop position) :=
    h.of_suffix (List.drop_suffix position tokens) (by simpa using hposition)
  rcases statement_cases [] hrest with ⟨node, us, hus, -, hended, hread⟩ | hread |
    ⟨line, column, reason, us, gs, -, -, hread⟩
  · have hstatement : (standing tokens position).statement = _ := hread position 0
    rw [hstatement]
    refine ⟨by simp, ?_, by simp, by simp⟩
    intro node' remaining c' heq
    cases heq
    refine ⟨rfl, rfl, ?_, rfl, exists_cons_of_complete rfl hrest hstatement, fun requests => ?_⟩
    · rw [standing, ← List.drop_drop, ← List.suffix_iff_eq_drop.mp hus]
    · exact serveAll_farther (c := ofTokens us) hended _ requests
  · have hstatement : (standing tokens position).statement = _ := hread position 0
    rw [hstatement]
    exact ⟨fun c' heq => (Prod.mk.inj heq).2.symm, by simp, by simp, by simp⟩
  · have hstatement : (standing tokens position).statement = _ := hread position 0
    rw [hstatement]
    refine ⟨by simp, by simp, ?_, by simp⟩
    intro line' column' reason' c' heq
    cases heq
    rfl

/-- A name, and behind it a bracket that is never closed. -/
theorem statement_clean_open :
    ∃ (tokens remaining : List Token) (node : Node) (c c' : Cursor), Ended tokens ∧
      tokens.map (·.kind) = [.name "a", .symbol .semicolon, .symbol .leftParen, .name "b",
        .endOfInput] ∧
      (standing tokens 0).statement = (.complete node remaining, c) ∧
      c.serveAll [.separators, .statement] =
        (((ofTokens remaining).serveAll [.separators, .statement]).1,
          ((ofTokens remaining).serveAll [.separators, .statement]).2.farther c.passed) ∧
      (standing tokens 2).statement = (.incomplete, c') ∧ c' = standing tokens 2 := by
  have hended : Ended [⟨.name "a", 1, 1⟩, ⟨.symbol .semicolon, 1, 2⟩, ⟨.symbol .leftParen, 1, 3⟩,
      ⟨.name "b", 1, 4⟩, ⟨.endOfInput, 1, 5⟩] :=
    .cons (by simp) (.cons (by simp) (.cons (by simp) (.cons (by simp) (.last rfl))))
  have hname : (standing [⟨.name "a", 1, 1⟩, ⟨.symbol .semicolon, 1, 2⟩,
      ⟨.symbol .leftParen, 1, 3⟩, ⟨.name "b", 1, 4⟩, ⟨.endOfInput, 1, 5⟩] 0).statement =
      (.complete (.ident "a" 1) [⟨.symbol .semicolon, 1, 2⟩, ⟨.symbol .leftParen, 1, 3⟩,
        ⟨.name "b", 1, 4⟩, ⟨.endOfInput, 1, 5⟩],
        ⟨1, [⟨.symbol .semicolon, 1, 2⟩, ⟨.symbol .leftParen, 1, 3⟩, ⟨.name "b", 1, 4⟩,
          ⟨.endOfInput, 1, 5⟩], [], 0⟩) := by
    cbv
  have hopen : (standing [⟨.name "a", 1, 1⟩, ⟨.symbol .semicolon, 1, 2⟩,
      ⟨.symbol .leftParen, 1, 3⟩, ⟨.name "b", 1, 4⟩, ⟨.endOfInput, 1, 5⟩] 2).statement =
      (.incomplete, ⟨2, [⟨.symbol .leftParen, 1, 3⟩, ⟨.name "b", 1, 4⟩, ⟨.endOfInput, 1, 5⟩], [],
        0⟩) := by
    set_option maxRecDepth 1024 in cbv
  obtain ⟨-, -, -, -, -, hrequests⟩ := (statement_clean hended (by decide)).2.1 _ _ _ hname
  exact ⟨_, _, _, _, _, hended, rfl, hname, hrequests _, hopen,
    (statement_clean hended (by decide)).1 _ hopen⟩

end Cursor

end MatrixCalculator
