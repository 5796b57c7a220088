import MatrixCalculator.Proofs.Reading

namespace MatrixCalculator

section Yields

def Lead.yield {c : Category} : Lead c → List Token
  | .initial gap => gap.yield
  | .following before sep gap => before.yield ++ sep.token :: gap.yield

def Sign.yield : Sign → List Token
  | .minus p => [p.mark .minus]
  | .caret base p => base.yield ++ [p.mark .caret]

namespace Level

def sumYield (l : Level) : List Token :=
  match l.sum with
  | none => []
  | some (left, op, p) => left.yield ++ [p.mark op.symbol]

def productYield (l : Level) : List Token :=
  match l.product with
  | none => []
  | some (left, op, p) => left.yield ++ [p.mark op.symbol]

def yield (l : Level) : List Token :=
  l.sumYield ++ l.productYield ++ l.signs.reverse.flatMap Sign.yield

end Level

def Started.yield : Started → List Token
  | none => []
  | some (items, comma) => items.yield ++ [comma.mark .comma]

def Group.yield : Group → List Token
  | .paren l => [l.mark .leftParen]
  | .call name p l args => p.token (.name name) :: l.mark .leftParen :: args.yield
  | .matrix l lead row => l.mark .leftBracket :: lead.yield ++ row.yield
  | .index target l none => target.yield ++ [l.mark .leftBracket]
  | .index target l (some (i, comma)) =>
    target.yield ++ l.mark .leftBracket :: i.yield ++ [comma.mark .comma]

def Target.yield (t : Target) : List Token := [t.place.token (.name t.name), t.equals.mark .assign]

namespace Context

/-- All but the operands that wait in the innermost expression. -/
def outerYield (ctx : Context) : List Token :=
  ctx.lead.yield ++ ctx.targets.reverse.flatMap Target.yield ++
    ctx.groups.reverse.flatMap fun g => g.2.yield ++ g.1.yield

def yield (ctx : Context) : List Token := ctx.outerYield ++ ctx.level.yield

end Context

def Mode.yield : Mode → List Token
  | .statement => []
  | .target text p => [p.token (.name text)]
  | .operand => []
  | .argument text p l => [p.token (.name text), l.mark .leftParen]
  | .row l lead => l.mark .leftBracket :: lead.yield
  | .name text p => [p.token (.name text)]
  | .value x => x.yield

def Assembly.yield : Assembly → List Token
  | .between lead => lead.yield
  | .inside ctx mode => ctx.yield ++ mode.yield
  | .accepted p => p.yield
  | .stopped _ => []

end Yields

section Layouts

def Mode.layout (es : List Enclosure) : Mode → Layout
  | .statement => ⟨es, .wanting⟩
  | .target _ _ => ⟨es, .ended⟩
  | .operand => ⟨es, .wanting⟩
  | .argument _ _ _ => ⟨.round :: es, .wanting⟩
  | .row _ _ => ⟨.matrix :: es, .start⟩
  | .name _ _ => ⟨es, .ended⟩
  | .value _ => ⟨es, .ended⟩

def Assembly.layout : Assembly → Layout
  | .inside ctx mode => mode.layout ctx.enclosures
  | _ => .initial

/-- No bracket is open and no operand waits. -/
structure Context.Clear (ctx : Context) : Prop where
  groups : ctx.groups = []
  level : ctx.level = .fresh

/-- More may follow, and statements start in the clear. -/
def Assembly.Regular : Assembly → Prop
  | .inside ctx .statement => ctx.Clear
  | .inside ctx (.target _ _) => ctx.Clear
  | .accepted _ => False
  | .stopped _ => False
  | _ => True

end Layouts

section Closing

@[simp] theorem Gap.yield_append (gap : Gap) (s : Separator) :
    Gap.yield (gap ++ [s]) = gap.yield ++ [s.token] := by
  simp [Gap.yield]

theorem Lead.yield_add {c : Category} (lead : Lead c) (s : Separator) :
    (lead.add s).yield = lead.yield ++ [s.token] := by
  cases lead <;> simp [Lead.add, Lead.yield]

theorem Lead.yield_row (lead : Lead .rows) (row : Phrase .items) :
    (lead.row row).yield = lead.yield ++ row.yield := by
  cases lead <;> simp [Lead.row, Lead.yield, Phrase.yield]

theorem Lead.yield_statement (lead : Lead .statements) (s : Phrase .statement) :
    (lead.statement s).yield = lead.yield ++ s.yield := by
  cases lead <;> simp [Lead.statement, Lead.yield, Phrase.yield]

theorem Lead.yield_program (lead : Lead .statements) : lead.program.yield = lead.yield := by
  cases lead <;> simp [Lead.program, Lead.yield, Phrase.yield, Gap.yield]

theorem Level.yield_closeSigns (l : Level) (u : Phrase .unary) :
    (l.closeSigns u).yield = l.signs.reverse.flatMap Sign.yield ++ u.yield := by
  unfold closeSigns
  induction l.signs generalizing u with
  | nil => rfl
  | cons s signs ih =>
    rw [List.foldl_cons, ih]
    cases s <;> simp [Sign.close, Sign.yield, Phrase.yield]

theorem Level.yield_closeProduct (l : Level) (u : Phrase .unary) :
    (l.closeProduct u).yield = l.productYield ++ u.yield := by
  unfold closeProduct productYield
  cases l.product <;> simp [Phrase.yield]

theorem Level.yield_closeSum (l : Level) (x : Phrase .term) :
    (l.closeSum x).yield = l.sumYield ++ x.yield := by
  unfold closeSum sumYield
  cases l.sum <;> simp [Phrase.yield]

theorem Started.yield_close (s : Started) (e : Phrase .expression) :
    (s.close e).yield = s.yield ++ e.yield := by
  cases s <;> simp [Started.close, Started.yield, Phrase.yield]

theorem Context.yield_closeStatement (ctx : Context) (s : Phrase .statement) :
    (ctx.closeStatement s).yield =
      ctx.lead.yield ++ ctx.targets.reverse.flatMap Target.yield ++ s.yield := by
  unfold closeStatement
  rw [Lead.yield_statement, List.append_assoc]
  congr 1
  induction ctx.targets generalizing s with
  | nil => rfl
  | cons tgt targets ih =>
    rw [List.foldl_cons, ih]
    simp [Target.assign, Target.yield, Phrase.yield]

@[simp] theorem Level.yield_fresh : Level.fresh.yield = [] := rfl

theorem Context.yield_push (ctx : Context) (g : Group) :
    (ctx.push g).yield = ctx.yield ++ g.yield := by
  simp [yield, outerYield, push]

theorem Context.clear_start (lead : Lead .statements) : (Context.start lead).Clear := ⟨rfl, rfl⟩

theorem Context.yield_start (lead : Lead .statements) :
    (Context.start lead).yield = lead.yield := by
  simp [yield, outerYield, start]

theorem Context.yield_sign (ctx : Context) (s : Sign) :
    (ctx.sign s).yield = ctx.yield ++ s.yield := by
  simp [yield, outerYield, sign, Level.yield, Level.sumYield, Level.productYield]

end Closing

namespace Assembly

/-- What may become of an assembly that spells `xs` in the layout `l` at a token that is not
dropped. -/
def Follows (l : Layout) (xs : List Token) (t : Token) (b : Assembly) : Prop :=
  (∃ p reason, b = reject p reason) ∨
    (t.kind = .endOfInput ∧ (b = .stopped .incomplete ∨ ∃ p, b = .accepted p ∧ p.yield = xs)) ∨
    (t.kind ≠ .endOfInput ∧ b.Regular ∧ b.layout = l.next t.kind ∧ b.yield = xs ++ [t])

section Follows

variable {limit : Nat} {ctx : Context} {t : Token}

theorem Follows.rejected {l : Layout} {xs : List Token} {p : Place} {reason : Reason} :
    Follows l xs t (reject p reason) :=
  .inl ⟨p, reason, rfl⟩

theorem Follows.incomplete {l : Layout} {xs : List Token} (ht : t.kind = .endOfInput) :
    Follows l xs t (.stopped .incomplete) :=
  .inr (.inl ⟨ht, .inl rfl⟩)

theorem Follows.next {l : Layout} {xs : List Token} {b : Assembly} (ht : t.kind ≠ .endOfInput)
    (hb : b.Regular) (hlayout : b.layout = l.next t.kind) (hyield : b.yield = xs ++ [t]) :
    Follows l xs t b :=
  .inr (.inr ⟨ht, hb, hlayout, hyield⟩)

theorem lacking_follows (s : Symbol) (l : Layout) (xs : List Token) :
    Follows l xs t (lacking s t) := by
  unfold lacking
  split
  · rename_i hend
    exact .incomplete (Reader.isEnd_iff.mp hend)
  · exact .rejected

theorem start_follows (limit : Nat) (ctx : Context) {s : Standing} (hs : s ≠ .ended)
    (hnewline : t.kind.isNewline = false) :
    Follows ⟨ctx.enclosures, s⟩ ctx.yield t (start limit ctx t) := by
  unfold start
  split
  · exact .rejected
  · split <;> rename_i hk
    · simp_all [Kind.isNewline]
    · exact .incomplete hk
    · refine .next (by simp [hk]) trivial (by rw [hk]; rfl) ?_
      simp [Assembly.yield, Context.yield_sign, Sign.yield, Mode.yield, Token.place_mark hk]
    · refine .next (by simp [hk]) trivial (by rw [hk]; rfl) ?_
      simp [Assembly.yield, Mode.yield, Phrase.yield, Token.place_token hk]
    · refine .next (by simp [hk]) trivial (by rw [hk]; rfl) ?_
      simp [Assembly.yield, Mode.yield, Token.place_token hk]
    · refine .next (by simp [hk]) trivial (by rw [hk]; rfl) ?_
      simp [Assembly.yield, Context.yield_push, Group.yield, Mode.yield, Token.place_mark hk]
    · refine .next (by simp [hk]) trivial (by simp [hk, layout, Mode.layout, Layout.next, hs]) ?_
      simp [Assembly.yield, Mode.yield, Lead.yield, Gap.yield, Token.place_mark hk]
    · exact .rejected

theorem startStatement_follows (limit : Nat) (hctx : ctx.Clear) {s : Standing} (hs : s ≠ .ended)
    (hnewline : t.kind.isNewline = false) :
    Follows ⟨ctx.enclosures, s⟩ ctx.yield t (startStatement limit ctx t) := by
  unfold startStatement
  split
  · exact .rejected
  · split <;> rename_i hk
    · simp_all [Kind.isNewline]
    · exact .incomplete hk
    · refine .next (by simp [hk]) hctx (by rw [hk]; rfl) ?_
      simp [Assembly.yield, Mode.yield, Token.place_token hk]
    · exact start_follows limit ctx hs hnewline

theorem finish_follows (hgroups : ctx.groups = []) (s : Phrase .statement) :
    Follows ⟨ctx.enclosures, .ended⟩ (ctx.outerYield ++ s.yield) t (finish ctx s t) := by
  have hes : ctx.enclosures = [] := by simp [Context.enclosures, hgroups]
  have houter : ctx.outerYield ++ s.yield = (ctx.closeStatement s).yield := by
    simp [Context.outerYield, hgroups, Context.yield_closeStatement]
  rw [hes, houter]
  unfold finish terminate
  split <;> rename_i hk
  · refine .next (by simp [hk]) trivial (by rw [hk]; rfl) ?_
    simp [Assembly.yield, Lead.yield, Gap.yield, Separator.token, Token.place_token hk]
  · refine .next (by simp [hk]) trivial (by rw [hk]; rfl) ?_
    simp [Assembly.yield, Lead.yield, Gap.yield, Separator.token, Token.place_mark hk]
  · exact .inr (.inl ⟨hk, .inr ⟨_, rfl, by simp [Phrase.yield, Gap.yield]⟩⟩)
  · exact .rejected

theorem endStatement_follows (hgroups : ctx.groups = []) (e : Phrase .expression) :
    Follows ⟨ctx.enclosures, .ended⟩ (ctx.outerYield ++ e.yield) t (endStatement ctx e t) := by
  unfold endStatement
  split
  · exact .rejected
  · exact finish_follows hgroups (.bare e)

theorem closeWith_follows {s : Symbol} (hs : s = .rightParen ∨ s = .rightBracket) {e : Enclosure}
    {st : Standing} {x : Place → Phrase .indexed} {xs : List Token}
    (hx : ∀ r, ctx.yield ++ (x r).yield = xs ++ [r.mark s]) :
    Follows ⟨e :: ctx.enclosures, st⟩ xs t (closeWith ctx s x t) := by
  unfold closeWith
  split
  · rename_i hk
    rw [Reader.isSymbol_iff] at hk
    refine .next (by simp [hk]) trivial (by rcases hs with rfl | rfl <;> rw [hk] <;> rfl) ?_
    rw [Assembly.yield, Mode.yield, hx, Token.place_mark hk]
  · exact lacking_follows s _ _

theorem endArguments_follows (ctx : Context) (name : String) (p l : Place) (args : Phrase .items) :
    Follows ⟨.round :: ctx.enclosures, .ended⟩
      (ctx.yield ++ p.token (.name name) :: l.mark .leftParen :: args.yield) t
      (endArguments ctx name p l args t) := by
  unfold endArguments
  split
  · rename_i hk
    refine .next (by simp [hk]) trivial (by rw [hk]; rfl) ?_
    simp [Assembly.yield, Mode.yield, Context.yield_push, Group.yield, Started.yield,
      Token.place_mark hk]
  · exact closeWith_follows (.inl rfl) fun r => by simp [Phrase.yield]

theorem closeRow_follows (ctx : Context) (l : Place) (rows : Phrase .rows) :
    Follows ⟨.matrix :: ctx.enclosures, .ended⟩ (ctx.yield ++ l.mark .leftBracket :: rows.yield) t
      (closeRow ctx l rows t) := by
  unfold closeRow
  split <;> rename_i hk
  · refine .next (by simp [hk]) trivial (by rw [hk]; rfl) ?_
    simp [Assembly.yield, Mode.yield, Lead.yield, Gap.yield, Separator.token, Token.place_token hk]
  · refine .next (by simp [hk]) trivial (by rw [hk]; rfl) ?_
    simp [Assembly.yield, Mode.yield, Lead.yield, Gap.yield, Separator.token, Token.place_mark hk]
  · refine .next (by simp [hk]) trivial (by rw [hk]; rfl) ?_
    simp [Assembly.yield, Mode.yield, Phrase.yield, Gap.yield, Token.place_mark hk]
  · exact .incomplete hk
  · exact .rejected

theorem endRow_follows (ctx : Context) (l : Place) (lead : Lead .rows) (row : Phrase .items) :
    Follows ⟨.matrix :: ctx.enclosures, .ended⟩
      (ctx.yield ++ l.mark .leftBracket :: lead.yield ++ row.yield) t
      (endRow ctx l lead row t) := by
  unfold endRow
  split
  · rename_i hk
    refine .next (by simp [hk]) trivial (by rw [hk]; rfl) ?_
    simp [Assembly.yield, Mode.yield, Context.yield_push, Group.yield, Started.yield,
      Token.place_mark hk]
  · have hrow := closeRow_follows ctx (t := t) l (lead.row row)
    rwa [Lead.yield_row, ← List.cons_append, ← List.append_assoc] at hrow

theorem endIndex_follows (ctx : Context) (target : Phrase .indexed) (l : Place)
    (i : Phrase .expression) :
    Follows ⟨.round :: ctx.enclosures, .ended⟩
      (ctx.yield ++ target.yield ++ l.mark .leftBracket :: i.yield) t
      (endIndex ctx target l i t) := by
  unfold endIndex
  split
  · rename_i hk
    refine .next (by simp [hk]) trivial (by rw [hk]; rfl) ?_
    simp [Assembly.yield, Mode.yield, Context.yield_push, Group.yield, Token.place_mark hk]
  · exact closeWith_follows (.inr rfl) fun r => by simp [Phrase.yield]

theorem endGroup_follows (ctx : Context) (e : Phrase .expression) (g : Group) :
    Follows ⟨g.enclosure :: ctx.enclosures, .ended⟩ (ctx.yield ++ g.yield ++ e.yield) t
      (endGroup ctx e t g) := by
  unfold endGroup
  split
  · exact closeWith_follows (.inl rfl) fun r => by simp [Phrase.yield, Group.yield]
  · rename_i name p l args
    have hargs := endArguments_follows ctx (t := t) name p l (args.close e)
    simpa [Started.yield_close, Group.yield, Group.enclosure] using hargs
  · rename_i target l
    have hindex := endIndex_follows ctx (t := t) target l e
    simpa [Group.yield, Group.enclosure] using hindex
  · exact closeWith_follows (.inr rfl) fun r => by simp [Phrase.yield, Group.yield]
  · rename_i l lead row
    have hrow := endRow_follows ctx (t := t) l lead (row.close e)
    simpa [Started.yield_close, Group.yield, Group.enclosure] using hrow

theorem close_follows (ctx : Context) (e : Phrase .expression) :
    Follows ⟨ctx.enclosures, .ended⟩ (ctx.outerYield ++ e.yield) t (close ctx e t) := by
  obtain ⟨lead, targets, groups, level⟩ := ctx
  cases groups with
  | nil => exact endStatement_follows rfl e
  | cons g outer =>
    have hgroup := endGroup_follows ⟨lead, targets, outer, g.2⟩ (t := t) e g.1
    simpa [close, Context.yield, Context.outerYield, Context.enclosures] using hgroup

theorem afterExpression_follows (ctx : Context) (e : Phrase .expression) :
    Follows ⟨ctx.enclosures, .ended⟩ (ctx.outerYield ++ e.yield) t (afterExpression ctx e t) := by
  unfold afterExpression
  split
  · rename_i hk
    refine .next (by simp [hk]) trivial (by rw [hk]; rfl) ?_
    simp [Assembly.yield, Mode.yield, Context.yield, Context.withSum, Context.outerYield,
      Level.yield, Level.sumYield, Level.productYield, Additive.symbol, Token.place_mark hk]
  · rename_i hk
    refine .next (by simp [hk]) trivial (by rw [hk]; rfl) ?_
    simp [Assembly.yield, Mode.yield, Context.yield, Context.withSum, Context.outerYield,
      Level.yield, Level.sumYield, Level.productYield, Additive.symbol, Token.place_mark hk]
  · exact close_follows ctx e

theorem afterTerm_follows (ctx : Context) (x : Phrase .term) :
    Follows ⟨ctx.enclosures, .ended⟩ (ctx.outerYield ++ ctx.level.sumYield ++ x.yield) t
      (afterTerm ctx x t) := by
  unfold afterTerm
  split
  · rename_i hk
    refine .next (by simp [hk]) trivial (by rw [hk]; rfl) ?_
    simp [Assembly.yield, Mode.yield, Context.yield, Context.withProduct, Context.outerYield,
      Level.yield, Level.sumYield, Level.productYield, Multiplicative.symbol, Token.place_mark hk]
  · rename_i hk
    refine .next (by simp [hk]) trivial (by rw [hk]; rfl) ?_
    simp [Assembly.yield, Mode.yield, Context.yield, Context.withProduct, Context.outerYield,
      Level.yield, Level.sumYield, Level.productYield, Multiplicative.symbol, Token.place_mark hk]
  · have hexpr := afterExpression_follows (t := t) ctx (ctx.level.closeSum x)
    rwa [Level.yield_closeSum, ← List.append_assoc] at hexpr

theorem afterUnary_follows (ctx : Context) (u : Phrase .unary) :
    Follows ⟨ctx.enclosures, .ended⟩ (ctx.yield ++ u.yield) t (afterUnary ctx u t) := by
  have hterm := afterTerm_follows (t := t) ctx (ctx.level.closeProduct (ctx.level.closeSigns u))
  simpa [afterUnary, Level.yield_closeProduct, Level.yield_closeSigns, Context.yield, Level.yield]
    using hterm

theorem afterBase_follows (ctx : Context) (x : Phrase .indexed) :
    Follows ⟨ctx.enclosures, .ended⟩ (ctx.yield ++ x.yield) t (afterBase ctx x t) := by
  unfold afterBase
  split
  · rename_i hk
    refine .next (by simp [hk]) trivial (by rw [hk]; rfl) ?_
    simp [Assembly.yield, Mode.yield, Context.yield_sign, Sign.yield, Token.place_mark hk]
  · exact afterUnary_follows ctx (.ofPower (.ofIndexed x))

theorem afterIndexed_follows (ctx : Context) (x : Phrase .indexed) :
    Follows ⟨ctx.enclosures, .ended⟩ (ctx.yield ++ x.yield) t (afterIndexed ctx x t) := by
  unfold afterIndexed
  split
  · rename_i hk
    refine .next (by simp [hk]) trivial (by rw [hk]; rfl) ?_
    simp [Assembly.yield, Mode.yield, Context.yield_push, Group.yield, Token.place_mark hk]
  · exact afterBase_follows ctx x

theorem afterName_follows (ctx : Context) (name : String) (p : Place) :
    Follows ⟨ctx.enclosures, .ended⟩ (ctx.yield ++ [p.token (.name name)]) t
      (afterName ctx name p t) := by
  unfold afterName
  split
  · rename_i hk
    refine .next (by simp [hk]) trivial (by rw [hk]; rfl) ?_
    simp [Assembly.yield, Mode.yield, Token.place_mark hk]
  · exact afterIndexed_follows ctx (.ofPrimary (.ident name p))

theorem startLine_follows (lead : Lead .statements) :
    Follows .initial lead.yield t (startLine limit lead t) := by
  unfold startLine
  split <;> rename_i hk
  · refine .next (by simp [hk]) trivial (by rw [hk]; rfl) ?_
    simp [Assembly.yield, Lead.yield_add, Separator.token, Token.place_token hk]
  · refine .next (by simp [hk]) trivial (by rw [hk]; rfl) ?_
    simp [Assembly.yield, Lead.yield_add, Separator.token, Token.place_mark hk]
  · exact .inr (.inl ⟨hk, .inr ⟨lead.program, rfl, lead.yield_program⟩⟩)
  · have hstart := startStatement_follows limit (Context.clear_start lead) (t := t) (s := .start)
      (by simp) (by cases h : t.kind <;> simp_all [Kind.isNewline])
    rwa [Context.yield_start] at hstart

theorem afterTarget_follows (limit : Nat) (hctx : ctx.Clear) (name : String) (p : Place) :
    Follows ⟨ctx.enclosures, .ended⟩ (ctx.yield ++ [p.token (.name name)]) t
      (afterTarget limit ctx name p t) := by
  unfold afterTarget
  split
  · rename_i hk
    refine .next (by simp [hk]) ⟨hctx.groups, hctx.level⟩ (by rw [hk]; rfl) ?_
    simp [Assembly.yield, Mode.yield, Context.yield, Context.outerYield, Context.assignTo,
      hctx.groups, hctx.level, Target.yield, Token.place_mark hk]
  · split
    · exact .rejected
    · exact afterName_follows ctx name p

theorem startArguments_follows (limit : Nat) (ctx : Context) (name : String) (p l : Place)
    (hnewline : t.kind.isNewline = false) :
    Follows ⟨.round :: ctx.enclosures, .wanting⟩
      (ctx.yield ++ [p.token (.name name), l.mark .leftParen]) t
      (startArguments limit ctx name p l t) := by
  unfold startArguments
  split
  · simp_all [Kind.isNewline]
  · rename_i hk
    refine .next (by simp [hk]) trivial (by rw [hk]; rfl) ?_
    simp [Assembly.yield, Mode.yield, Phrase.yield, Token.place_mark hk]
  · have hstart := start_follows limit (ctx.push (.call name p l none)) (t := t) (s := .wanting)
      (by simp) hnewline
    rwa [Context.yield_push] at hstart

theorem startRow_follows (limit : Nat) (ctx : Context) (l : Place) (lead : Lead .rows) :
    Follows ⟨.matrix :: ctx.enclosures, .start⟩ (ctx.yield ++ l.mark .leftBracket :: lead.yield) t
      (startRow limit ctx l lead t) := by
  have hstart : ∀ lead : Lead .rows, t.kind.isNewline = false →
      Follows ⟨.matrix :: ctx.enclosures, .start⟩ (ctx.yield ++ l.mark .leftBracket :: lead.yield) t
        (start limit (ctx.push (.matrix l lead none)) t) := by
    intro lead hnewline
    have h := start_follows limit (ctx.push (.matrix l lead none)) (s := .start) (by simp) hnewline
    simpa [Context.yield_push, Context.enclosures_push, Group.enclosure, Group.yield,
      Started.yield] using h
  rw [startRow.eq_def]
  split
  · rename_i hk
    refine .next (by simp [hk]) trivial (by rw [hk]; rfl) ?_
    simp [Assembly.yield, Mode.yield, Lead.yield_add, Separator.token, Token.place_token hk]
  · rename_i hk
    refine .next (by simp [hk]) trivial (by rw [hk]; rfl) ?_
    simp [Assembly.yield, Mode.yield, Lead.yield_add, Separator.token, Token.place_mark hk]
  · exact .rejected
  · rename_i hk
    refine .next (by simp [hk]) trivial (by rw [hk]; rfl) ?_
    simp [Assembly.yield, Mode.yield, Lead.yield, Phrase.yield, Gap.yield, Token.place_mark hk]
  · rename_i hk
    exact .incomplete hk
  · exact hstart _ (by cases h : t.kind <;> simp_all [Kind.isNewline])

theorem isNewline_iff {k : Kind} : k.isNewline = true ↔ k = .newline := by
  cases k <;> simp [Kind.isNewline]

theorem startStatement_newline (hnewline : t.kind.isNewline = true) :
    startStatement limit ctx t = .inside ctx .statement ∨
      startStatement limit ctx t = reject t.place .tooDeep := by
  rw [startStatement, isNewline_iff.mp hnewline]
  split
  · exact .inr rfl
  · exact .inl rfl

theorem step_operand_newline (hnewline : t.kind.isNewline = true) :
    step limit (.inside ctx .operand) t = .inside ctx .operand ∨
      step limit (.inside ctx .operand) t = reject t.place .tooDeep := by
  rw [step, start, isNewline_iff.mp hnewline]
  split
  · exact .inl rfl
  · split
    · exact .inr rfl
    · exact .inl rfl

theorem step_argument_newline {name : String} {p l : Place} (hnewline : t.kind.isNewline = true) :
    step limit (.inside ctx (.argument name p l)) t = .inside ctx (.argument name p l) := by
  rw [step, startArguments, isNewline_iff.mp hnewline]

/-- Every token that does not stop an assembly is dropped or added to what it spells. -/
theorem step_follows (limit : Nat) (t : Token) {a : Assembly} (ha : a.Regular) :
    (t.kind.isNewline && a.layout.drops) = true ∧
        (step limit a t = a ∨ step limit a t = reject t.place .tooDeep) ∨
      (t.kind.isNewline && a.layout.drops) = false ∧
        Follows a.layout a.yield t (step limit a t) := by
  -- Where something is wanted every newline is dropped; behind an operand the bracket decides.
  cases a with
  | between lead => exact .inr ⟨Bool.and_false _, startLine_follows lead⟩
  | accepted p => exact ha.elim
  | stopped stop => exact ha.elim
  | inside ctx mode =>
    cases mode with
    | statement =>
      have hdrops : (t.kind.isNewline && (Assembly.inside ctx .statement).layout.drops) =
          t.kind.isNewline := by simp [layout, Mode.layout, Layout.drops]
      rw [hdrops]
      cases hnewline : t.kind.isNewline with
      | true => exact .inl ⟨rfl, startStatement_newline hnewline⟩
      | false =>
        have hstart := startStatement_follows limit ha (t := t) (s := .wanting) (by simp) hnewline
        refine .inr ⟨rfl, ?_⟩
        simpa [step, layout, Mode.layout, Assembly.yield, Mode.yield] using hstart
    | target name p =>
      have hdrops : (t.kind.isNewline && (Assembly.inside ctx (.target name p)).layout.drops) =
          false := by
        simp [layout, Mode.layout, Layout.drops, Context.enclosures, Context.Clear.groups ha]
      exact .inr ⟨hdrops, afterTarget_follows limit ha name p⟩
    | operand =>
      have hdrops : (t.kind.isNewline && (Assembly.inside ctx .operand).layout.drops) =
          t.kind.isNewline := by simp [layout, Mode.layout, Layout.drops]
      rw [hdrops]
      cases hnewline : t.kind.isNewline with
      | true => exact .inl ⟨rfl, step_operand_newline hnewline⟩
      | false =>
        have hstart := start_follows limit ctx (t := t) (s := .wanting) (by simp) hnewline
        exact .inr ⟨rfl, by
          simpa [step, hnewline, layout, Mode.layout, Assembly.yield, Mode.yield] using hstart⟩
    | argument name p l =>
      have hdrops : (t.kind.isNewline && (Assembly.inside ctx (.argument name p l)).layout.drops) =
          t.kind.isNewline := by simp [layout, Mode.layout, Layout.drops]
      rw [hdrops]
      cases hnewline : t.kind.isNewline with
      | true => exact .inl ⟨rfl, .inl (step_argument_newline hnewline)⟩
      | false => exact .inr ⟨rfl, startArguments_follows limit ctx name p l hnewline⟩
    | row l lead => exact .inr ⟨Bool.and_false _, startRow_follows limit ctx l lead⟩
    | name name p =>
      have hdrops : (Assembly.inside ctx (.name name p)).layout.drops = ctx.isRound :=
        Bool.or_false _
      rw [hdrops]
      cases h : t.kind.isNewline && ctx.isRound with
      | true => exact .inl ⟨rfl, .inl (by simp [step, h])⟩
      | false =>
        refine .inr ⟨rfl, ?_⟩
        rw [step, if_neg (by simp [h])]
        exact afterName_follows ctx name p
    | value x =>
      have hdrops : (Assembly.inside ctx (.value x)).layout.drops = ctx.isRound := Bool.or_false _
      rw [hdrops]
      cases h : t.kind.isNewline && ctx.isRound with
      | true => exact .inl ⟨rfl, .inl (by simp [step, h])⟩
      | false =>
        refine .inr ⟨rfl, ?_⟩
        rw [step, if_neg (by simp [h])]
        exact afterIndexed_follows ctx x

end Follows

/-- Tokens that do not stop an assembly are what it spells, newlines that are dropped aside. -/
theorem run_spells (limit : Nat) {a : Assembly} {ts : List Token} (ha : a.Regular)
    (hts : ∀ t ∈ ts, t.kind ≠ .endOfInput) :
    (∃ p reason, run limit a ts = reject p reason) ∨ (run limit a ts).Regular ∧
      (run limit a ts).yield = a.yield ++ significant a.layout ts := by
  induction ts generalizing a with
  | nil => exact .inr ⟨ha, by simp [significant]⟩
  | cons t ts ih =>
    have ht : t.kind ≠ .endOfInput := hts t List.mem_cons_self
    have hts' : ∀ t ∈ ts, t.kind ≠ .endOfInput := fun u hu => hts u (List.mem_cons_of_mem t hu)
    rw [run_cons, significant]
    rcases step_follows limit t ha with ⟨hdrop, hstep | hstep⟩ |
      ⟨hkeep, ⟨p, reason, hstep⟩ | ⟨hend, _⟩ | ⟨_, hregular, hlayout, hyield⟩⟩
    -- A dropped newline changes nothing, unless it meets the limit.
    · rw [hstep, if_pos hdrop]
      exact ih ha hts'
    · exact .inl ⟨t.place, .tooDeep, by rw [hstep, reject, run_stopped]⟩
    · exact .inl ⟨p, reason, by rw [hstep, reject, run_stopped]⟩
    · contradiction
    · rw [if_neg (by simp [hkeep])]
      rcases ih hregular hts' with hstop | ⟨hregular', hyield'⟩
      · exact .inl hstop
      · refine .inr ⟨hregular', ?_⟩
        rw [hyield', hyield, hlayout, List.append_assoc, List.singleton_append]

theorem regular_of_run {limit : Nat} {ts : List Token} (hts : ∀ t ∈ ts, t.kind ≠ .endOfInput)
    (h : ∀ p reason, run limit empty ts ≠ reject p reason) : (run limit empty ts).Regular := by
  rcases run_spells limit (a := empty) trivial hts with ⟨p, reason, hreject⟩ | ⟨hregular, _⟩
  · exact absurd hreject (h p reason)
  · exact hregular

/-- An accepted phrase is spelled by what was there and the tokens that led to it. -/
theorem yield_of_accepted {limit : Nat} {a : Assembly} {ts : List Token} {e : Token}
    {p : Phrase .program} (ha : a.Regular) (hts : ∀ t ∈ ts, t.kind ≠ .endOfInput)
    (he : e.kind = .endOfInput) (h : run limit a (ts ++ [e]) = .accepted p) :
    p.yield = a.yield ++ significant a.layout ts := by
  rw [run_append, run_cons, run_nil] at h
  rcases run_spells limit ha hts with ⟨_, _, hreject⟩ | ⟨hregular, hyield⟩
  · rw [hreject] at h
    contradiction
  · rcases step_follows limit e hregular with ⟨hdrop, _⟩ |
      ⟨_, ⟨_, _, hreject⟩ | ⟨_, hlacks | ⟨q, hq, hqyield⟩⟩ | ⟨hne, _⟩⟩
    · simp [he, Kind.isNewline] at hdrop
    · rw [hreject] at h
      contradiction
    · rw [hlacks] at h
      contradiction
    · obtain rfl : q = p := by simpa [hq] using h
      rw [hqyield, hyield]
    · contradiction

theorem derives_of_accepted {limit : Nat} {ts : List Token} {e : Token} {p : Phrase .program}
    (hts : ∀ t ∈ ts, t.kind ≠ .endOfInput) (he : e.kind = .endOfInput)
    (h : run limit empty (ts ++ [e]) = .accepted p) : p.Derives ts :=
  yield_of_accepted (a := empty) trivial hts he h

theorem stopped_of_newline {limit : Nat} {a : Assembly} {t : Token} {stop : Stop} (ha : a.Regular)
    (hdrop : (t.kind.isNewline && a.layout.drops) = true) (hstop : step limit a t = .stopped stop)
    (u : Token) : ∃ stop', step limit a u = .stopped stop' := by
  rw [Bool.and_eq_true, isNewline_iff] at hdrop
  obtain ⟨ht, hdrop⟩ := hdrop
  -- Only the limit stops at such a newline, and it is checked before the token is looked at.
  cases a with
  | between lead => simp [layout, Layout.initial, Layout.drops] at hdrop
  | accepted p => simp [step] at hstop
  | stopped stop => exact ⟨stop, rfl⟩
  | inside ctx mode =>
    cases mode with
    | statement =>
      rw [step, startStatement] at hstop ⊢
      split at hstop
      · rename_i hfull
        exact ⟨_, if_pos hfull⟩
      · simp [ht] at hstop
    | operand =>
      rw [step, ht] at hstop
      split at hstop
      · contradiction
      · rename_i hround
        rw [start, ht] at hstop
        split at hstop
        · rename_i hfull
          have hround' : (u.kind.isNewline && ctx.isRound) = false := by
            simp only [Kind.isNewline, Bool.true_and] at hround
            simp [hround]
          exact ⟨_, by rw [step, hround', if_neg (by simp), start, if_pos hfull]; rfl⟩
        · contradiction
    | argument name p l => simp [step, startArguments, ht] at hstop
    | row l lead => simp [layout, Mode.layout, Layout.drops] at hdrop
    | target name p =>
      simp [layout, Mode.layout, Layout.drops, Context.enclosures, Context.Clear.groups ha] at hdrop
    | name name p =>
      rw [show (Assembly.inside ctx (.name name p)).layout.drops = ctx.isRound from
        Bool.or_false _] at hdrop
      simp [step, ht, hdrop, Kind.isNewline] at hstop
    | value x =>
      rw [show (Assembly.inside ctx (.value x)).layout.drops = ctx.isRound from
        Bool.or_false _] at hdrop
      simp [step, ht, hdrop, Kind.isNewline] at hstop

/-- Newlines that are dropped make no difference to what is accepted. -/
theorem accepted_significant {limit : Nat} {a : Assembly} {ts : List Token} {e : Token}
    {p : Phrase .program} (ha : a.Regular) (hts : ∀ t ∈ ts, t.kind ≠ .endOfInput) :
    run limit a (ts ++ [e]) = .accepted p ↔
      run limit a (significant a.layout ts ++ [e]) = .accepted p := by
  induction ts generalizing a with
  | nil => simp [significant]
  | cons t ts ih =>
    have hts' : ∀ t ∈ ts, t.kind ≠ .endOfInput := fun u hu => hts u (List.mem_cons_of_mem t hu)
    rw [List.cons_append, run_cons, significant]
    rcases step_follows limit t ha with ⟨hdrop, hstep | hstep⟩ |
      ⟨hkeep, ⟨p', reason, hstep⟩ | ⟨hend, _⟩ | ⟨_, hregular, hlayout, _⟩⟩
    · rw [hstep, if_pos hdrop]
      exact ih ha hts'
    · rw [hstep, if_pos hdrop]
      -- the run without the newline stops too, at whatever token comes first in it
      have hstopped : ∀ us, ∃ stop', run limit a (us ++ [e]) = .stopped stop' := by
        intro us
        cases us with
        | nil => exact stopped_of_newline ha hdrop hstep e
        | cons u us =>
          obtain ⟨stop', hu⟩ := stopped_of_newline ha hdrop hstep u
          exact ⟨stop', by rw [List.cons_append, run_cons, hu, run_stopped]⟩
      obtain ⟨stop', hstop'⟩ := hstopped (significant a.layout ts)
      simp [hstop', reject]
    · rw [if_neg (by simp [hkeep]), List.cons_append, run_cons, hstep, reject, run_stopped,
        run_stopped]
    · exact absurd hend (hts t List.mem_cons_self)
    · rw [if_neg (by simp [hkeep]), List.cons_append, run_cons, ← hlayout]
      exact ih hregular hts'

/-- Without newlines that are dropped, an assembly that goes on comes to the same. -/
theorem run_significant {limit : Nat} {a : Assembly} {ts : List Token} (ha : a.Regular)
    (hts : ∀ t ∈ ts, t.kind ≠ .endOfInput) (h : ∀ stop, run limit a ts ≠ .stopped stop) :
    run limit a (significant a.layout ts) = run limit a ts := by
  induction ts generalizing a with
  | nil => rfl
  | cons t ts ih =>
    have hts' : ∀ t ∈ ts, t.kind ≠ .endOfInput := fun u hu => hts u (List.mem_cons_of_mem t hu)
    rw [run_cons] at h ⊢
    rw [significant]
    rcases step_follows limit t ha with ⟨hdrop, hstep | hstep⟩ |
      ⟨hkeep, ⟨_, _, hstep⟩ | ⟨hend, _⟩ | ⟨_, hregular, hlayout, _⟩⟩
    · rw [hstep] at h ⊢
      rw [if_pos hdrop]
      exact ih ha hts' h
    · rw [hstep, reject, run_stopped] at h
      exact absurd rfl (h _)
    · rw [hstep, reject, run_stopped] at h
      exact absurd rfl (h _)
    · exact absurd hend (hts t List.mem_cons_self)
    · rw [if_neg (by simp [hkeep]), run_cons, ← hlayout]
      exact ih hregular hts' h

end Assembly
end MatrixCalculator
