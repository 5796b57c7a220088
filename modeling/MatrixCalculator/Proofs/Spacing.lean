import Mathlib
import MatrixCalculator.Proofs.Completion
import MatrixCalculator.Proofs.Joining
import MatrixCalculator.Proofs.Outlines

namespace MatrixCalculator

namespace Assembly

section Newlines

variable {limit : Nat} {a : Assembly} {ctx : Context} {t : Token}

/-- Newlines add nothing to the assembly. -/
def Spaced (limit : Nat) (a : Assembly) : Prop :=
  ∀ t : Token, t.kind = .newline → (step limit a t).outline = a.outline

theorem Spaced.of_step (h : ∀ t : Token, t.kind = .newline → step limit a t = a) :
    Spaced limit a :=
  fun t ht => congrArg outline (h t ht)

theorem spaced_between (lead : Lead .statements) : Spaced limit (.between lead) := by
  intro t ht
  rw [step, startLine, ht]
  simp [outline]

theorem spaced_row (ctx : Context) (l : Place) (lead : Lead .rows) :
    Spaced limit (.inside ctx (.row l lead)) := by
  intro t ht
  rw [step, startRow.eq_def, ht]
  simp [outline, Mode.outline]

theorem spaced_argument (ctx : Context) (name : String) (p l : Place) :
    Spaced limit (.inside ctx (.argument name p l)) := by
  refine .of_step fun t ht => ?_
  rw [step, startArguments, ht]

theorem spaced_stopped (stop : Stop) : Spaced limit (.stopped stop) := fun _ _ => rfl

theorem spaced_reject (p : Place) (reason : Reason) : Spaced limit (reject p reason) :=
  spaced_stopped _

theorem spaced_lacking (s : Symbol) (t : Token) : Spaced limit (lacking s t) := by
  unfold lacking
  split <;> exact spaced_stopped _

theorem spaced_closeWith (s : Symbol) (x : Place → Phrase .indexed) (ht : t.kind = .newline) :
    Spaced limit (closeWith ctx s x t) := by
  rw [closeWith, ht, if_neg (by simp [Kind.isSymbol])]
  exact spaced_lacking s t

theorem spaced_close (e : Phrase .expression) (ht : t.kind = .newline) :
    Spaced limit (close ctx e t) := by
  unfold close
  split
  · rw [endStatement, ht]
    dsimp only
    rw [finish, terminate, ht]
    exact spaced_between _
  · rename_i g level outer _
    cases g with
    | paren l =>
      rw [endGroup]
      exact spaced_closeWith _ _ ht
    | call name p l args =>
      rw [endGroup, endArguments, ht]
      exact spaced_closeWith _ _ ht
    | index target l first =>
      cases first with
      | none =>
        rw [endGroup, endIndex, ht]
        exact spaced_closeWith _ _ ht
      | some first => exact spaced_closeWith _ _ ht
    | matrix l lead row =>
      rw [endGroup, endRow, ht]
      dsimp only
      rw [closeRow, ht]
      exact spaced_row _ _ _

theorem spaced_afterIndexed (x : Phrase .indexed) (ht : t.kind = .newline) :
    Spaced limit (afterIndexed ctx x t) := by
  rw [afterIndexed_eq_close ctx x (by simp [ht])]
  exact spaced_close _ ht

theorem spaced_afterName (name : String) (p : Place) (ht : t.kind = .newline) :
    Spaced limit (afterName ctx name p t) := by
  rw [afterName_of_ne (by simp [ht])]
  exact spaced_afterIndexed _ ht

/-- Behind a newline a newline adds nothing. -/
theorem spaced_step (a : Assembly) (ht : t.kind = .newline) : Spaced limit (step limit a t) := by
  have hnewline : ∀ b, (t.kind.isNewline && b) = b := by simp [ht, Kind.isNewline]
  cases a with
  | between lead =>
    rw [step, startLine, ht]
    exact spaced_between _
  | accepted p => exact fun _ _ => rfl
  | stopped stop => exact spaced_stopped _
  | inside ctx mode =>
    cases mode with
    | statement =>
      rw [step, startStatement]
      split
      · exact spaced_reject _ _
      · rename_i hroom
        rw [ht]
        refine .of_step fun u hu => ?_
        rw [step, startStatement, if_neg hroom, hu]
    | target name p =>
      rw [step, afterTarget, ht]
      dsimp only
      split
      · exact spaced_reject _ _
      · exact spaced_afterName name p ht
    | operand =>
      rw [step, hnewline]
      split
      · rename_i hround
        refine .of_step fun u hu => ?_
        rw [step, if_pos (by simp [hu, hround, Kind.isNewline])]
      · rename_i hround
        rw [start]
        split
        · exact spaced_reject _ _
        · rename_i hroom
          rw [ht]
          refine .of_step fun u hu => ?_
          rw [step, if_neg (by simp [hround]), start, if_neg hroom, hu]
    | argument name p l =>
      rw [step, startArguments, ht]
      exact spaced_argument _ _ _ _
    | row l lead =>
      rw [step, startRow.eq_def, ht]
      exact spaced_row _ _ _
    | name name p =>
      rw [step, hnewline]
      split
      · rename_i hround
        refine .of_step fun u hu => ?_
        rw [step, if_pos (by simp [hu, hround, Kind.isNewline])]
      · exact spaced_afterName name p ht
    | value x =>
      rw [step, hnewline]
      split
      · rename_i hround
        refine .of_step fun u hu => ?_
        rw [step, if_pos (by simp [hu, hround, Kind.isNewline])]
      · exact spaced_afterIndexed x ht

theorem close_newline_end {e : Token} (x : Phrase .expression) (hctx : ctx.isRound = false)
    (ht : t.kind = .newline) (he : e.kind = .endOfInput) :
    (step limit (close ctx x t) e).outline = (close ctx x e).outline := by
  obtain ⟨lead, targets, groups, level⟩ := ctx
  cases groups with
  | nil =>
    rw [close_newline rfl x ht, close_end he, if_pos rfl, step, startLine, he]
    simp [outline, Lead.program]
  | cons g outer =>
    obtain ⟨g, level'⟩ := g
    cases g with
    | matrix l lead row =>
      rw [close_end he, if_neg (by simp)]
      show (step limit (endRow _ l lead (row.close x) t) e).outline = _
      rw [endRow, ht]
      dsimp only
      rw [closeRow, ht]
      dsimp only
      rw [step, startRow.eq_def, he]
    | _ => contradiction

theorem afterIndexed_newline_end {e : Token} (x : Phrase .indexed) (hctx : ctx.isRound = false)
    (ht : t.kind = .newline) (he : e.kind = .endOfInput) :
    (step limit (afterIndexed ctx x t) e).outline = (afterIndexed ctx x e).outline := by
  rw [afterIndexed_eq_close ctx x (by simp [ht]), afterIndexed_eq_close ctx x (by simp [he]),
    close_newline_end _ hctx ht he]

theorem afterName_newline_end {e : Token} (name : String) (p : Place) (hctx : ctx.isRound = false)
    (ht : t.kind = .newline) (he : e.kind = .endOfInput) :
    (step limit (afterName ctx name p t) e).outline = (afterName ctx name p e).outline := by
  rw [afterName_of_ne (by simp [ht]), afterName_of_ne (by simp [he]),
    afterIndexed_newline_end _ hctx ht he]

theorem Spaced.step_end {e : Token} (h : Spaced limit a) (ht : t.kind = .newline) :
    (step limit (step limit a t) e).outline = (step limit a e).outline := by
  rw [outline_step, h t ht, ← outline_step]

theorem step_newline_end {e : Token} (ha : a.Regular) (ht : t.kind = .newline)
    (he : e.kind = .endOfInput) :
    (step limit (step limit a t) e).outline = (step limit a e).outline := by
  have hnewline : ∀ b, (t.kind.isNewline && b) = b := by simp [ht, Kind.isNewline]
  have hend : ∀ b, (e.kind.isNewline && b) = false := by simp [he, Kind.isNewline]
  cases a with
  | between lead => exact (spaced_between lead).step_end ht
  | accepted p => exact ha.elim
  | stopped stop => exact ha.elim
  | inside ctx mode =>
    cases mode with
    | statement =>
      rw [step, step, startStatement, startStatement]
      split
      · rfl
      · rename_i hroom
        rw [ht, step, startStatement, if_neg hroom]
    | target name p =>
      have hround : ctx.isRound = false := by
        simp [Context.isRound, Context.enclosures, Context.Clear.groups ha]
      rw [step, step, afterTarget, afterTarget, ht, he]
      dsimp only
      split
      · rfl
      · exact afterName_newline_end name p hround ht he
    | operand =>
      rw [step, hnewline]
      split
      · rfl
      · rename_i hround
        rw [step, hend, if_neg Bool.false_ne_true, start, start]
        split
        · rfl
        · rename_i hroom
          rw [ht, step, hend, if_neg Bool.false_ne_true, start, if_neg hroom]
    | argument name p l => exact (spaced_argument ctx name p l).step_end ht
    | row l lead => exact (spaced_row ctx l lead).step_end ht
    | name name p =>
      rw [step, hnewline]
      split
      · rfl
      · rename_i hround
        rw [step, hend, if_neg Bool.false_ne_true]
        exact afterName_newline_end name p (Bool.eq_false_of_not_eq_true hround) ht he
    | value x =>
      rw [step, hnewline]
      split
      · rfl
      · rename_i hround
        rw [step, hend, if_neg Bool.false_ne_true]
        exact afterIndexed_newline_end x (Bool.eq_false_of_not_eq_true hround) ht he

end Newlines

end Assembly

namespace Outcome

def outline : Outcome (List Node) → Outcome (List Node)
  | .complete nodes _ => .complete (nodes.map Node.unlined) []
  | .malformed _ _ reason => .malformed 1 1 reason
  | .incomplete => .incomplete
  | .broken b => .broken b

end Outcome

theorem Assembly.outcome_outline (a : Assembly) : a.outline.outcome = a.outcome.outline := by
  cases a with
  | accepted p => simp [Assembly.outline, outcome, Outcome.outline, Phrase.tree_outline,
      Category.map]
  | stopped stop => cases stop <;> rfl
  | _ => rfl

def newlineToken : Token := Place.origin.token .newline

def endToken : Token := Place.origin.token .endOfInput

/-- The outlines of the tokens of a text, without the end of input. -/
def bodyTokens (s : String) : List Token := (tokenize s).dropLast.map Token.outline

theorem outline_tokenize (s : String) :
    (tokenize s).map Token.outline = bodyTokens s ++ [endToken] := by
  obtain ⟨ts, l, c, _, hs, _⟩ := exists_tokenize s
  rw [bodyTokens, hs, List.dropLast_concat, List.map_append]
  rfl

theorem bodyTokens_append (a b : String) :
    bodyTokens (a ++ "\n" ++ b) = bodyTokens a ++ newlineToken :: bodyTokens b := by
  obtain ⟨ts, l, c, _, hts, happend⟩ := exists_tokenize a
  obtain ⟨us, l', c', _, hus, _⟩ := exists_tokenize b
  simp only [bodyTokens, happend, hts, hus, List.map_append, List.map_cons, List.map_nil,
    ← List.cons_append, ← List.append_assoc, List.dropLast_concat, List.map_map]
  rfl

theorem ne_endOfInput_bodyTokens (s : String) : ∀ t ∈ bodyTokens s, t.kind ≠ .endOfInput := by
  obtain ⟨ts, l, c, hts, hs, _⟩ := exists_tokenize s
  rw [bodyTokens, hs, List.dropLast_concat]
  intro t ht
  obtain ⟨u, hu, rfl⟩ := List.mem_map.mp ht
  exact hts u hu

/-- The tokens of lines, each behind a newline, and the end of input. -/
def followingTokens (lines : List String) : List Token :=
  lines.flatMap (fun line => newlineToken :: bodyTokens line) ++ [endToken]

theorem followingTokens_cons (line : String) (lines : List String) :
    followingTokens (line :: lines) =
      newlineToken :: bodyTokens line ++ followingTokens lines := by
  simp [followingTokens]

def Silent (line : String) : Prop := bodyTokens line = []

/-- Some lines without tokens are left out. -/
inductive Thinned : List String → List String → Prop where
  | nil : Thinned [] []
  | keep (line : String) {ls ms : List String} (h : Thinned ls ms) :
    Thinned (line :: ls) (line :: ms)
  | drop {line : String} {ls ms : List String} (hline : Silent line) (h : Thinned ls ms) :
    Thinned (line :: ls) ms

namespace Assembly

variable {limit : Nat} {a : Assembly}

/-- The assembly takes tokens in order, or none at all. -/
def Ordered (a : Assembly) : Prop := a.Regular ∨ ∃ stop, a = .stopped stop

theorem Ordered.run {ts : List Token} (h : a.Ordered) (hts : ∀ t ∈ ts, t.kind ≠ .endOfInput) :
    (run limit a ts).Ordered := by
  rcases h with hregular | ⟨stop, rfl⟩
  · rcases run_spells limit hregular hts with ⟨p, reason, hrun⟩ | ⟨hrun, _⟩
    · exact .inr ⟨_, hrun⟩
    · exact .inl hrun
  · exact .inr ⟨stop, run_stopped ..⟩

/-- A newline before other lines or the end of input makes no difference. -/
theorem run_newline_following (h : a.Ordered) (lines : List String) :
    (run limit a (newlineToken :: followingTokens lines)).outline =
      (run limit a (followingTokens lines)).outline := by
  rcases h with hregular | ⟨stop, rfl⟩
  · cases lines with
    | nil => exact step_newline_end hregular rfl rfl
    | cons line lines =>
      rw [followingTokens_cons, List.cons_append, run_cons, run_cons, run_cons]
      exact outline_run_congr limit (spaced_step a rfl newlineToken rfl) rfl
  · rw [run_stopped, run_stopped]

theorem run_thinned {ls ms : List String} (h : Thinned ls ms) (ha : a.Ordered) :
    (run limit a (followingTokens ls)).outline = (run limit a (followingTokens ms)).outline := by
  induction h generalizing a with
  | nil => rfl
  | @keep line ls ms h ih =>
    have hline : ∀ t ∈ newlineToken :: bodyTokens line, t.kind ≠ .endOfInput :=
      List.forall_mem_cons.mpr ⟨by simp [newlineToken, Place.token], ne_endOfInput_bodyTokens line⟩
    rw [followingTokens_cons, followingTokens_cons, run_append, run_append]
    exact ih (ha.run hline)
  | @drop line ls ms hline h ih =>
    rw [followingTokens_cons, hline, List.cons_append, List.nil_append, run_newline_following ha]
    exact ih ha

end Assembly

open Assembly in
theorem outline_parse (lines : List String) : (parse ("\n".intercalate lines)).outline =
    (run maxNesting empty (followingTokens lines)).outline.outcome := by
  have hbody : ∀ (line : String) (lines : List String),
      bodyTokens ("\n".intercalate (line :: lines)) ++ [endToken] =
        bodyTokens line ++ followingTokens lines := by
    intro line lines
    induction lines generalizing line with
    | nil => simp [followingTokens]
    | cons next lines ih =>
      rw [String.intercalate_cons_of_ne_nil (by simp), bodyTokens_append, List.append_assoc,
        List.cons_append, ih, followingTokens_cons, List.cons_append]
  rw [parse_eq, ← outcome_outline]
  congr 1
  cases lines with
  | nil => exact outline_run_congr _ rfl (by cbv)
  | cons line lines =>
    rw [followingTokens_cons, List.cons_append, run_cons]
    refine outline_run_congr _ (spaced_between _ _ rfl).symm ?_
    have htokens := outline_tokenize ("\n".intercalate (line :: lines))
    rw [hbody] at htokens
    rw [← htokens, List.map_map]
    rfl

/-- Lines without tokens can be left out. -/
theorem outline_parse_thinned {ls ms : List String} (h : Thinned ls ms) :
    (parse ("\n".intercalate ls)).outline = (parse ("\n".intercalate ms)).outline := by
  have hempty : Assembly.empty.Ordered := .inl trivial
  rw [outline_parse, outline_parse, Assembly.run_thinned h hempty]

theorem Node.alike_of_map_unlined {first second : List Node}
    (hfirst : ∀ node ∈ first, node.IsStatement) (hsecond : ∀ node ∈ second, node.IsStatement)
    (h : first.map unlined = second.map unlined) : List.Forall₂ ExecuteAlike first second := by
  induction first generalizing second with
  | nil =>
    obtain rfl := List.map_eq_nil_iff.mp h.symm
    exact .nil
  | cons a first ih =>
    obtain ⟨b, second, rfl, hb, hlater⟩ := List.map_eq_cons_iff.mp h.symm
    obtain ⟨ha, hfirst⟩ := List.forall_mem_cons.mp hfirst
    obtain ⟨hb', hsecond⟩ := List.forall_mem_cons.mp hsecond
    exact .cons (alike_of_unlined ha hb' hb.symm) (ih hfirst hsecond hlater.symm)

/-- What is left of a program without some lines that have no tokens does the same. -/
theorem complete_of_thinned {ls ms : List String} {nodes : List Node} {rest : List Token}
    (h : Thinned ls ms) (hparse : parse ("\n".intercalate ls) = .complete nodes rest) :
    ∃ nodes' rest', parse ("\n".intercalate ms) = .complete nodes' rest' ∧
      List.Forall₂ Node.ExecuteAlike nodes nodes' := by
  have houtline := outline_parse_thinned h
  rw [hparse] at houtline
  cases hparse' : parse ("\n".intercalate ms) with
  | complete nodes' rest' =>
    rw [hparse'] at houtline
    refine ⟨nodes', rest', rfl, Node.alike_of_map_unlined ?_ ?_ (Outcome.complete.inj houtline).1⟩
    · exact isStatement_of_parse hparse
    · exact isStatement_of_parse hparse'
  | _ =>
    rw [hparse'] at houtline
    contradiction

theorem silent_empty : Silent "" := by
  rw [Silent, bodyTokens]
  cbv

theorem silent_comment {line : String} (hmark : line.toList.head? = some '#')
    (hline : '\n' ∉ line.toList) : Silent line := by
  obtain ⟨rest, hrest⟩ := List.head?_eq_some_iff.mp hmark
  rw [hrest] at hline
  have hall : rest.takeWhile (· != '\n') = rest := by
    rw [List.takeWhile_eq_self_iff]
    intro c hc
    exact bne_iff_ne.mpr fun h => hline (List.mem_cons_of_mem _ (h ▸ hc))
  have hextent : Piece.extent '#' rest = (.comment, rest.length) := by
    rw [Piece.extent_comment, hall]
  rw [Silent, bodyTokens, tokenize, hrest, Piece.cut, hextent]
  simp [Piece.cut, Piece.place, Piece.kind?]

end MatrixCalculator
