import Mathlib
import MatrixCalculator.Proofs.Verdicts

namespace MatrixCalculator

def Place.Before (p q : Place) : Prop :=
  p.line < q.line ∨ p.line = q.line ∧ p.column < q.column

namespace Piece

variable {line column : Nat}

theorem not_before_of_mem_place {ps : List Piece} :
    ∀ t ∈ place line column ps, ¬t.place.Before ⟨line, column⟩ := by
  induction ps generalizing line column with
  | nil => simp [place, Token.place, Place.Before]
  | cons p ps ih =>
    have hlater : ∀ t ∈ place (p.next line column).1 (p.next line column).2 ps,
        ¬t.place.Before ⟨line, column⟩ := by
      intro t ht hbefore
      refine ih t ht ?_
      unfold next Place.Before at *
      split
      · dsimp only at *
        omega
      · dsimp only at *
        omega
    rw [place]
    dsimp only
    split
    · exact List.forall_mem_cons.mpr ⟨by simp [Token.place, Place.Before], hlater⟩
    · exact hlater

theorem before_of_mem_place (p : Piece) {ps : List Piece} :
    ∀ t ∈ place (p.next line column).1 (p.next line column).2 ps,
      Place.Before ⟨line, column⟩ t.place := by
  intro t ht
  have hstart := not_before_of_mem_place t ht
  have hlength : 0 < p.text.length := by simp [text]
  unfold next Place.Before at *
  split at hstart
  · dsimp only at *
    omega
  · dsimp only at *
    omega

theorem pairwise_place (ps : List Piece) :
    (place line column ps).Pairwise fun t u => t.place.Before u.place := by
  induction ps generalizing line column with
  | nil => exact List.pairwise_singleton _ _
  | cons p ps ih =>
    rw [place]
    dsimp only
    split
    · exact List.pairwise_cons.mpr ⟨before_of_mem_place p, ih⟩
    · exact ih

end Piece

theorem pairwise_tokenize (text : String) :
    (tokenize text).Pairwise fun t u => t.place.Before u.place :=
  Piece.pairwise_place _

namespace Assembly

variable {limit : Nat} {ctx : Context} {t : Token} {p : Place}

/-- The end of input does not make the assembly malformed. -/
def Viable (limit : Nat) (a : Assembly) : Prop :=
  ∀ (p : Place) (line column : Nat) (reason : Reason),
    a.atEnd limit p ≠ .stopped (.malformed line column reason)

/-- The assembly has been stopped at the place, but not for want of levels, or it would be by a
closing bracket: a matrix opens at the place and has no row so far. -/
def Blames (p : Place) : Assembly → Prop
  | .stopped (.malformed line column reason) => reason ≠ .tooDeep ∧ p = ⟨line, column⟩
  | .inside _ (.row l (.initial _)) => p = l
  | _ => False

theorem place_of_lacking {s : Symbol} (h : (lacking s t).Blames p) : p = t.place := by
  unfold lacking at h
  split at h
  · exact h.elim
  · exact h.2

theorem place_of_terminate {ss : Phrase .statements} (h : (terminate ss t).Blames p) :
    p = t.place := by
  unfold terminate at h
  split at h
  · exact h.elim
  · exact h.elim
  · exact h.elim
  · exact h.2

theorem place_of_closeWith {s : Symbol} {x : Place → Phrase .indexed}
    (h : (closeWith ctx s x t).Blames p) : p = t.place := by
  unfold closeWith at h
  split at h
  · exact h.elim
  · exact place_of_lacking h

theorem place_of_closeRow {l : Place} {rows : Phrase .rows} (h : (closeRow ctx l rows t).Blames p) :
    p = t.place := by
  unfold closeRow at h
  split at h
  · exact h.elim
  · exact h.elim
  · exact h.elim
  · exact h.elim
  · exact h.2

theorem place_of_endGroup {e : Phrase .expression} {g : Group}
    (h : (endGroup ctx e t g).Blames p) : p = t.place := by
  cases g with
  | paren l =>
    rw [endGroup] at h
    exact place_of_closeWith h
  | call name q l args =>
    rw [endGroup, endArguments] at h
    split at h
    · exact h.elim
    · exact place_of_closeWith h
  | matrix l lead row =>
    rw [endGroup, endRow] at h
    split at h
    · exact h.elim
    · exact place_of_closeRow h
  | index target l first =>
    cases first with
    | none =>
      rw [endGroup, endIndex] at h
      split at h
      · exact h.elim
      · exact place_of_closeWith h
    | some first => exact place_of_closeWith h

theorem place_of_close {e : Phrase .expression} (h : (close ctx e t).Blames p) : p = t.place := by
  unfold close at h
  split at h
  · unfold endStatement at h
    split at h
    · exact h.2
    · exact place_of_terminate h
  · exact place_of_endGroup h

theorem place_of_afterIndexed {x : Phrase .indexed} (h : (afterIndexed ctx x t).Blames p) :
    p = t.place := by
  -- An operator, an exponent or an index goes on; every other token closes the expression.
  unfold afterIndexed at h
  split at h
  · exact h.elim
  · unfold afterBase at h
    split at h
    · exact h.elim
    · unfold afterUnary afterTerm at h
      split at h
      · exact h.elim
      · exact h.elim
      · unfold afterExpression at h
        split at h
        · exact h.elim
        · exact h.elim
        · exact place_of_close h

theorem place_of_afterName {name : String} {q : Place} (h : (afterName ctx name q t).Blames p) :
    p = t.place := by
  unfold afterName at h
  split at h
  · exact h.elim
  · exact place_of_afterIndexed h

theorem room_of_start (h : (start limit ctx t).Blames p) : ctx.used < limit ∧ p = t.place := by
  unfold start at h
  split at h
  · exact absurd rfl h.1
  · rename_i hroom
    refine ⟨Nat.lt_of_not_le hroom, ?_⟩
    split at h
    · exact h.elim
    · exact h.elim
    · exact h.elim
    · exact h.elim
    · exact h.elim
    · exact h.elim
    · exact h
    · exact h.2

theorem room_of_startStatement (h : (startStatement limit ctx t).Blames p) :
    ctx.targets.length < limit ∧ p = t.place := by
  unfold startStatement at h
  split at h
  · exact absurd rfl h.1
  · rename_i hroom
    refine ⟨Nat.lt_of_not_le hroom, ?_⟩
    split at h
    · exact h.elim
    · exact h.elim
    · exact h.elim
    · exact (room_of_start h).2

theorem wanting_ne_malformed {levels : Nat} (h : levels < limit) (q : Place) {line column : Nat}
    {reason : Reason} : wanting limit levels q ≠ .stopped (.malformed line column reason) := by
  intro hwanting
  have hfull := (full_of_wanting hwanting).1
  omega

/-- The place was blamed before the token, or it is that of the token, and the end of input in its
stead would have been in order. -/
theorem blames_step {a : Assembly} (h : (step limit a t).Blames p) :
    a.Blames p ∨ p = t.place ∧ a.Viable limit := by
  cases a with
  | stopped stop => exact .inl h
  | accepted q => exact h.elim
  | between lead =>
    rw [step, startLine] at h
    split at h
    · exact h.elim
    · exact h.elim
    · exact h.elim
    · exact .inr ⟨(room_of_startStatement h).2, fun _ _ _ _ => by simp [atEnd]⟩
  | inside ctx mode =>
    cases mode with
    | statement =>
      obtain ⟨hroom, hplace⟩ := room_of_startStatement h
      exact .inr ⟨hplace, fun q _ _ _ => wanting_ne_malformed hroom q⟩
    | target name q =>
      rw [step, afterTarget] at h
      split at h
      · exact h.elim
      · split at h
        · exact absurd rfl h.1
        · rename_i hroom
          refine .inr ⟨place_of_afterName h, fun _ _ _ _ => ?_⟩
          rw [atEnd, if_neg hroom]
          exact Context.atEnd_ne_malformed _ _
    | operand =>
      rw [step] at h
      split at h
      · exact h.elim
      · obtain ⟨hroom, hplace⟩ := room_of_start h
        exact .inr ⟨hplace, fun q _ _ _ => wanting_ne_malformed hroom q⟩
    | argument name q l =>
      rw [step, startArguments] at h
      split at h
      · exact h.elim
      · exact h.elim
      · obtain ⟨hroom, hplace⟩ := room_of_start h
        rw [Context.used_push] at hroom
        exact .inr ⟨hplace, fun q _ _ _ => wanting_ne_malformed hroom q⟩
    | row l lead =>
      cases lead with
      | initial gap =>
        rw [step, startRow.eq_def] at h
        split at h
        · exact .inl h
        · exact .inl h
        · exact .inl h.2
        · contradiction
        · contradiction
        · obtain ⟨hroom, hplace⟩ := room_of_start h
          rw [Context.used_push] at hroom
          exact .inr ⟨hplace, fun q _ _ _ => wanting_ne_malformed hroom q⟩
      | following rows sep gap =>
        rw [step, startRow.eq_def] at h
        split at h
        · exact h.elim
        · exact h.elim
        · contradiction
        · exact h.elim
        · exact h.elim
        · exact .inr ⟨(room_of_start h).2, fun _ _ _ _ => by simp [atEnd]⟩
    | name name q =>
      rw [step] at h
      split at h
      · exact h.elim
      · exact .inr ⟨place_of_afterName h, fun _ _ _ _ => Context.atEnd_ne_malformed _ _⟩
    | value x =>
      rw [step] at h
      split at h
      · exact h.elim
      · exact .inr ⟨place_of_afterIndexed h, fun _ _ _ _ => Context.atEnd_ne_malformed _ _⟩

/-- The place that is blamed is that of a token, and up to this token nothing is wrong. -/
theorem exists_of_blames {ts : List Token} (h : (run limit empty ts).Blames p) :
    ∃ before t after, ts = before ++ t :: after ∧ t.place = p ∧
      (run limit empty before).Viable limit := by
  -- From the end back to the token at which the place was blamed first.
  induction ts using List.reverseRecOn with
  | nil => exact h.elim
  | append_singleton ts t ih =>
    rw [run_append, run_cons, run_nil] at h
    rcases blames_step h with hearlier | ⟨hplace, hviable⟩
    · obtain ⟨before, u, after, rfl, hu, hviable⟩ := ih hearlier
      exact ⟨before, u, after ++ [t], by simp, hu, hviable⟩
    · exact ⟨ts, t, [], rfl, hplace.symm, hviable⟩

/-- Behind tokens with which nothing is wrong, the end of input completes a program or comes too
early. -/
theorem Viable.outcome {ts : List Token} (h : (run maxNesting empty ts).Viable maxNesting)
    (hts : ∀ t ∈ ts, t.kind ≠ .endOfInput) {e : Token} (he : e.kind = .endOfInput) :
    (∃ nodes, parseProgram (ts ++ [e]) = .complete nodes []) ∨
      parseProgram (ts ++ [e]) = .incomplete := by
  cases hout : parseProgram (ts ++ [e]) with
  | complete nodes rest =>
    rw [parseProgram_eq (.append hts he)] at hout
    obtain ⟨q, _, _, rfl⟩ := outcome_eq_complete hout
    exact .inl ⟨nodes, rfl⟩
  | incomplete => exact .inr rfl
  | malformed line column reason =>
    rw [parseProgram_append hts he, outcome_eq_malformed] at hout
    exact absurd hout (h _ _ _ _)
  | broken b => exact absurd hout (parseProgram_ne_broken hts he b)

end Assembly

open Assembly

/-- A text that is malformed, but not for want of levels, is reported at the first point of failure:
at a token of it, and not at its end, such that the tokens before this one are a program or the
start of one. The places of tokens ascend, so no other token stands at the place reported. -/
theorem parse_malformed_position {text : String} {line column : Nat} {reason : Reason}
    (h : parse text = .malformed line column reason) (hreason : reason ≠ .tooDeep) :
    ∃ before t after, tokenize text = before ++ t :: after ∧ t.kind ≠ .endOfInput ∧
      t.line = line ∧ t.column = column ∧
      (∀ u ∈ before, u.place.Before ⟨line, column⟩) ∧
      (∀ u ∈ after, Place.Before ⟨line, column⟩ u.place) ∧
      ∀ e : Token, e.kind = .endOfInput →
        (∃ nodes, parseProgram (before ++ [e]) = .complete nodes []) ∨
          parseProgram (before ++ [e]) = .incomplete := by
  obtain ⟨ts, l, c, hts, htokens, _⟩ := exists_tokenize text
  rw [parse, htokens] at h
  have hrun := run_of_malformed hts rfl hreason h
  have hblames : (run maxNesting empty ts).Blames ⟨line, column⟩ := by
    rw [hrun]
    exact ⟨hreason, rfl⟩
  obtain ⟨before, t, after, rfl, hplace, hviable⟩ := exists_of_blames hblames
  obtain ⟨hbefore, ht⟩ := List.forall_mem_append.mp hts
  have hascend := pairwise_tokenize text
  rw [htokens, List.append_assoc, List.cons_append] at hascend
  obtain ⟨_, hafter, hcross⟩ := List.pairwise_append.mp hascend
  refine ⟨before, t, after ++ [⟨.endOfInput, l, c⟩], ?_, ht t List.mem_cons_self,
    congrArg Place.line hplace, congrArg Place.column hplace, fun u hu => ?_, fun u hu => ?_,
    fun e he => hviable.outcome hbefore he⟩
  · rw [htokens, List.append_assoc, List.cons_append]
  · rw [← hplace]
    exact hcross u hu t List.mem_cons_self
  · rw [← hplace]
    exact (List.pairwise_cons.mp hafter).1 u hu

/-- A matrix that turns out to be empty on the next line is reported where it opens, and up to there
the call lacks input. -/
theorem parse_malformed_position_empty :
    parse "f(x, [;\n])" = .malformed 1 6 .emptyMatrix ∧
      ∃ before t after, tokenize "f(x, [;\n])" = before ++ t :: after ∧ t.kind ≠ .endOfInput ∧
        t.line = 1 ∧ t.column = 6 ∧ (∀ u ∈ before, u.place.Before ⟨1, 6⟩) ∧
        (∀ u ∈ after, Place.Before ⟨1, 6⟩ u.place) ∧
        ∀ e : Token, e.kind = .endOfInput →
          (∃ nodes, parseProgram (before ++ [e]) = .complete nodes []) ∨
            parseProgram (before ++ [e]) = .incomplete := by
  have h : parse "f(x, [;\n])" = .malformed 1 6 .emptyMatrix := by
    rw [parse_eq]
    cbv
  have hreason : Reason.emptyMatrix ≠ .tooDeep := by simp
  exact ⟨h, parse_malformed_position h hreason⟩

end MatrixCalculator
