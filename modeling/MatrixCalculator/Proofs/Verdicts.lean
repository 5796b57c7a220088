import Mathlib
import MatrixCalculator.Proofs.Acceptance
import MatrixCalculator.Proofs.Lexing

namespace MatrixCalculator

open Assembly

def Level.complete (l : Level) (x : Phrase .indexed) : Phrase .expression :=
  l.closeSum (l.closeProduct (l.closeSigns (.ofPower (.ofIndexed x))))

/-- The end of input behind an operand: a bracket is missing, or the last statement is whole. -/
def Context.atEnd (ctx : Context) (x : Phrase .indexed) : Assembly :=
  if ctx.groups = [] then .accepted (.full (ctx.closeStatement (.bare (ctx.level.complete x))) [])
  else .stopped .incomplete

theorem Context.atEnd_ne_malformed (ctx : Context) (x : Phrase .indexed) {line column : Nat}
    {reason : Reason} : ctx.atEnd x ≠ .stopped (.malformed line column reason) := by
  unfold Context.atEnd
  split <;> simp

namespace Assembly

variable {limit : Nat} {t e : Token}

/-- The end of input where so many levels are wanted. -/
def wanting (limit levels : Nat) (p : Place) : Assembly :=
  if limit ≤ levels then reject p .tooDeep else .stopped .incomplete

/-- What the end of input, at the place, makes of an assembly. -/
def atEnd (limit : Nat) (p : Place) : Assembly → Assembly
  | .between lead => .accepted lead.program
  | .inside ctx .statement => wanting limit ctx.targets.length p
  | .inside ctx (.target name q) =>
    if limit ≤ ctx.used then reject q .tooDeep else ctx.atEnd (.ofPrimary (.ident name q))
  | .inside ctx .operand => wanting limit ctx.used p
  | .inside ctx (.argument _ _ _) => wanting limit (ctx.used + 1) p
  | .inside ctx (.row _ (.initial _)) => wanting limit (ctx.used + 1) p
  | .inside _ (.row _ (.following _ _ _)) => .stopped .incomplete
  | .inside ctx (.name name q) => ctx.atEnd (.ofPrimary (.ident name q))
  | .inside ctx (.value x) => ctx.atEnd x
  | a => a

/-- A token that does not go on with an expression is left to what stands around it. -/
theorem afterIndexed_eq_close (ctx : Context) (x : Phrase .indexed)
    (ht : ∀ s ∈ Category.items.continuing, t.kind ≠ .symbol s) :
    afterIndexed ctx x t = close ctx (ctx.level.complete x) t := by
  have hleaves : t.Leaves .items (.start (.initial [])) := ⟨Bool.and_false _, ht⟩
  rw [afterIndexed_of_ne (ht _ (by simp [Category.continuing])),
    afterBase_of_ne (ht _ (by simp [Category.continuing])), afterUnary,
    afterTerm_of_none (hleaves.eq_none multiplicative?_cases (by simp [Category.continuing])),
    afterExpression_of_none (hleaves.eq_none additive?_cases (by simp [Category.continuing]))]
  rfl

section EndOfInput

variable (he : e.kind = .endOfInput)
include he

theorem close_end (ctx : Context) (x : Phrase .expression) : close ctx x e =
    if ctx.groups = [] then .accepted (.full (ctx.closeStatement (.bare x)) [])
    else .stopped .incomplete := by
  obtain ⟨lead, targets, groups, level⟩ := ctx
  cases groups with
  | nil => simp [close, endStatement, finish, terminate, he]
  | cons g outer =>
    rcases g with ⟨g, level'⟩
    cases g with
    | index target l first =>
      cases first <;>
        simp [close, endGroup, endIndex, closeWith, lacking, he, Kind.isSymbol, Kind.isEnd]
    | _ =>
      simp [close, endGroup, endArguments, endRow, closeRow, closeWith, lacking, he, Kind.isSymbol,
        Kind.isEnd]

theorem afterIndexed_end (ctx : Context) (x : Phrase .indexed) :
    afterIndexed ctx x e = ctx.atEnd x := by
  rw [afterIndexed_eq_close ctx x (by simp [he]), close_end he]
  rfl

theorem afterName_end (ctx : Context) (name : String) (p : Place) :
    afterName ctx name p e = ctx.atEnd (.ofPrimary (.ident name p)) := by
  rw [afterName_of_ne (by simp [he]), afterIndexed_end he]

theorem start_end (ctx : Context) : start limit ctx e = wanting limit ctx.used e.place := by
  rw [start, he]
  rfl

theorem step_end (a : Assembly) : step limit a e = a.atEnd limit e.place := by
  have hnewline : ∀ b : Bool, (e.kind.isNewline && b) = false := by simp [he, Kind.isNewline]
  cases a with
  | between lead => rw [step, startLine, he]; rfl
  | accepted p => rfl
  | stopped stop => rfl
  | inside ctx mode =>
    cases mode with
    | statement => rw [step, startStatement, he]; rfl
    | target name p =>
      rw [step, afterTarget, he]
      dsimp only
      rw [afterName_end he]
      rfl
    | operand =>
      rw [step, hnewline, if_neg Bool.false_ne_true, start_end he]
      rfl
    | argument name p l =>
      rw [step, startArguments, he]
      dsimp only
      rw [start_end he, Context.used_push]
      rfl
    | row l lead =>
      cases lead with
      | initial gap =>
        rw [step, startRow.eq_def, he]
        dsimp only
        rw [start_end he, Context.used_push]
        rfl
      | following rows sep gap => rw [step, startRow.eq_def, he]; rfl
    | name name p =>
      rw [step, hnewline, if_neg Bool.false_ne_true, afterName_end he]
      rfl
    | value x =>
      rw [step, hnewline, if_neg Bool.false_ne_true, afterIndexed_end he]
      rfl

end EndOfInput

theorem full_of_wanting {levels line column : Nat} {p : Place} {reason : Reason}
    (h : wanting limit levels p = .stopped (.malformed line column reason)) :
    limit ≤ levels ∧ reason = .tooDeep := by
  unfold wanting at h
  split at h
  · rename_i hfull
    exact ⟨hfull, (Stop.malformed.inj (Assembly.stopped.inj h)).2.2.symm⟩
  · simp at h

/-- The end of input makes nothing malformed, save for want of levels. -/
theorem eq_of_atEnd_malformed {a : Assembly} {p : Place} {line column : Nat} {reason : Reason}
    (h : a.atEnd limit p = .stopped (.malformed line column reason)) (hreason : reason ≠ .tooDeep) :
    a = .stopped (.malformed line column reason) := by
  -- At the end input is lacking or accepted; all that can go wrong is that no level is left.
  unfold atEnd at h
  split at h
  · contradiction
  · exact absurd (full_of_wanting h).2 hreason
  · split at h
    · simp [reject, Ne.symm hreason] at h
    · exact absurd h (Context.atEnd_ne_malformed _ _)
  · exact absurd (full_of_wanting h).2 hreason
  · exact absurd (full_of_wanting h).2 hreason
  · exact absurd (full_of_wanting h).2 hreason
  · simp at h
  · exact absurd h (Context.atEnd_ne_malformed _ _)
  · exact absurd h (Context.atEnd_ne_malformed _ _)
  · exact h

theorem outcome_eq_malformed {a : Assembly} {line column : Nat} {reason : Reason} :
    a.outcome = .malformed line column reason ↔ a = .stopped (.malformed line column reason) := by
  unfold outcome
  split <;> simp_all

theorem atEnd_cases (limit : Nat) (p : Place) (a : Assembly) :
    (∃ q, a.atEnd limit p = .accepted q) ∨ ∃ stop, a.atEnd limit p = .stopped stop := by
  have hctx : ∀ (ctx : Context) (x : Phrase .indexed),
      (∃ q, ctx.atEnd x = .accepted q) ∨ ∃ stop, ctx.atEnd x = .stopped stop := by
    intro ctx x
    unfold Context.atEnd
    split
    · exact .inl ⟨_, rfl⟩
    · exact .inr ⟨_, rfl⟩
  have hwanting : ∀ n, ∃ stop, wanting limit n p = .stopped stop := by
    intro n
    unfold wanting
    split <;> exact ⟨_, rfl⟩
  cases a with
  | between lead => exact .inl ⟨_, rfl⟩
  | accepted q => exact .inl ⟨_, rfl⟩
  | stopped stop => exact .inr ⟨_, rfl⟩
  | inside ctx mode =>
    cases mode with
    | statement => exact .inr (hwanting _)
    | target name q =>
      rw [atEnd]
      split
      · exact .inr ⟨_, rfl⟩
      · exact hctx ctx _
    | operand => exact .inr (hwanting _)
    | argument name q l => exact .inr (hwanting _)
    | row l lead =>
      cases lead with
      | initial gap => exact .inr (hwanting _)
      | following rows sep gap => exact .inr ⟨_, rfl⟩
    | name name q => exact hctx ctx _
    | value x => exact hctx ctx x

theorem atEnd_eq_incomplete {a : Assembly} {p : Place}
    (h : (a.atEnd limit p).outcome = .incomplete) : a.atEnd limit p = .stopped .incomplete := by
  rcases atEnd_cases limit p a with ⟨q, hq⟩ | ⟨stop, hstop⟩
  · rw [hq] at h
    contradiction
  · rw [hstop] at h ⊢
    cases stop with
    | incomplete => rfl
    | malformed line column reason => contradiction
    | broken b => contradiction

/-- The verdict on tokens is what the end of input makes of the assembly they lead to. -/
theorem parseProgram_append {ts : List Token} (hts : ∀ t ∈ ts, t.kind ≠ .endOfInput)
    (he : e.kind = .endOfInput) :
    parseProgram (ts ++ [e]) = ((run maxNesting empty ts).atEnd maxNesting e.place).outcome := by
  rw [parseProgram_eq (.append hts he), run_append, run_cons, run_nil, step_end he]

/-- What makes an input malformed stands in it, and not behind it. -/
theorem run_of_malformed {ts : List Token} {line column : Nat} {reason : Reason}
    (hts : ∀ t ∈ ts, t.kind ≠ .endOfInput) (he : e.kind = .endOfInput) (hreason : reason ≠ .tooDeep)
    (h : parseProgram (ts ++ [e]) = .malformed line column reason) :
    run maxNesting empty ts = .stopped (.malformed line column reason) := by
  rw [parseProgram_append hts he, outcome_eq_malformed] at h
  exact eq_of_atEnd_malformed h hreason

end Assembly

theorem parseProgram_ne_broken {ts : List Token} {e : Token}
    (hts : ∀ t ∈ ts, t.kind ≠ .endOfInput) (he : e.kind = .endOfInput) (b : Breakdown) :
    parseProgram (ts ++ [e]) ≠ .broken b := by
  rw [parseProgram_eq (.append hts he), run_append, run_cons, run_nil]
  rcases run_spells maxNesting (a := empty) trivial hts with ⟨_, _, hreject⟩ | ⟨hregular, _⟩
  · rw [hreject]
    rintro ⟨⟩
  · rcases step_follows maxNesting e hregular with ⟨hdrop, _⟩ |
      ⟨_, ⟨_, _, hreject⟩ | ⟨_, hlacks | ⟨q, hq, _⟩⟩ | ⟨hne, _⟩⟩
    · simp [he, Kind.isNewline] at hdrop
    · rw [hreject]
      rintro ⟨⟩
    · rw [hlacks]
      rintro ⟨⟩
    · rw [hq]
      rintro ⟨⟩
    · exact absurd he hne

theorem parse_ne_broken (s : String) (b : Breakdown) : parse s ≠ .broken b := by
  obtain ⟨ts, l, c, hts, hs, _⟩ := exists_tokenize s
  rw [parse, hs]
  exact parseProgram_ne_broken hts rfl b

/-- A malformed verdict is final, on tokens and on texts joined by a newline: whatever follows, the
place and the reason stay. Only the verdict of too deep nesting may be taken back. -/
theorem parseProgram_malformed_append {line column : Nat} {reason : Reason}
    (hreason : reason ≠ .tooDeep) :
    (∀ (ts us : List Token) (e e' : Token), (∀ t ∈ ts, t.kind ≠ .endOfInput) →
      (∀ t ∈ us, t.kind ≠ .endOfInput) → e.kind = .endOfInput → e'.kind = .endOfInput →
      parseProgram (ts ++ [e]) = .malformed line column reason →
      parseProgram (ts ++ us ++ [e']) = .malformed line column reason) ∧
    ∀ s t : String, parse s = .malformed line column reason →
      parse (s ++ "\n" ++ t) = .malformed line column reason := by
  constructor
  · intro ts us e e' hts hus he he' h
    have hrun := run_of_malformed hts he hreason h
    have hended : Ended (ts ++ us ++ [e']) :=
      .append (fun t ht => (List.mem_append.mp ht).elim (hts t) (hus t)) he'
    rw [parseProgram_eq hended, List.append_assoc, run_append, hrun, run_stopped]
    rfl
  · intro s t h
    obtain ⟨ts, l, c, hts, hs, happend⟩ := exists_tokenize s
    rw [parse, hs] at h
    have hrun := run_of_malformed hts rfl hreason h
    rw [parse_eq, happend, run_append, hrun, run_stopped]
    rfl

theorem parseProgram_malformed_append_target :
    parse "(a) = [" = .malformed 1 5 .badTarget ∧
      parse ("(a) = [" ++ "\n" ++ "b]") = .malformed 1 5 .badTarget := by
  have hreason : Reason.badTarget ≠ .tooDeep := nofun
  have h : parse "(a) = [" = .malformed 1 5 .badTarget := by
    rw [parse_eq]
    cbv
  exact ⟨h, (parseProgram_malformed_append hreason).2 _ _ h⟩

end MatrixCalculator
