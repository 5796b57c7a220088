import Mathlib
import MatrixCalculator.Proofs.Relocation

namespace MatrixCalculator

section Parts

variable (f : Place → Place) {c : Category}

def Lead.move : Lead c → Lead c
  | .initial gap => .initial (gap.map (Separator.move f))
  | .following before sep gap =>
    .following (before.move f) (sep.move f) (gap.map (Separator.move f))

def Sign.move : Sign → Sign
  | .minus p => .minus (f p)
  | .caret base p => .caret (base.move f) (f p)

def Level.move (l : Level) : Level where
  sum := l.sum.map fun x => (x.1.move f, x.2.1, f x.2.2)
  product := l.product.map fun x => (x.1.move f, x.2.1, f x.2.2)
  signs := l.signs.map (Sign.move f)

def Started.move (s : Started) : Started := s.map fun x => (x.1.move f, f x.2)

def Group.move : Group → Group
  | .paren l => .paren (f l)
  | .call name p l args => .call name (f p) (f l) (Started.move f args)
  | .matrix l lead row => .matrix (f l) (lead.move f) (Started.move f row)
  | .index target l first =>
    .index (target.move f) (f l) (first.map fun x => (x.1.move f, f x.2))

def Target.move (t : Target) : Target := ⟨t.name, f t.place, f t.equals⟩

def Context.move (ctx : Context) : Context where
  lead := ctx.lead.move f
  targets := ctx.targets.map (Target.move f)
  groups := ctx.groups.map fun g => (g.1.move f, g.2.move f)
  level := ctx.level.move f

def Mode.move : Mode → Mode
  | .statement => .statement
  | .target n p => .target n (f p)
  | .operand => .operand
  | .argument n p l => .argument n (f p) (f l)
  | .row l lead => .row (f l) (lead.move f)
  | .name n p => .name n (f p)
  | .value x => .value (x.move f)

def Stop.move : Stop → Stop
  | .malformed line column reason =>
    .malformed (f ⟨line, column⟩).line (f ⟨line, column⟩).column reason
  | .incomplete => .incomplete
  | .broken b => .broken b

def Assembly.move : Assembly → Assembly
  | .between lead => .between (lead.move f)
  | .inside ctx mode => .inside (ctx.move f) (mode.move f)
  | .accepted p => .accepted (p.move f)
  | .stopped stop => .stopped (stop.move f)

theorem Token.kind_move (t : Token) : (t.move f).kind = t.kind := rfl

theorem Token.place_move (t : Token) : (t.move f).place = f t.place := rfl

theorem Lead.move_add (lead : Lead c) (s : Separator) :
    (lead.add s).move f = (lead.move f).add (s.move f) := by
  cases lead <;> simp [Lead.add, Lead.move]

theorem Lead.move_row (lead : Lead .rows) (row : Phrase .items) :
    (lead.row row).move f = (lead.move f).row (row.move f) := by
  cases lead <;> rfl

theorem Lead.move_statement (lead : Lead .statements) (s : Phrase .statement) :
    (lead.statement s).move f = (lead.move f).statement (s.move f) := by
  cases lead <;> rfl

theorem Lead.move_program (lead : Lead .statements) :
    lead.program.move f = (lead.move f).program := by
  cases lead <;> rfl

theorem Level.move_closeSigns (l : Level) (u : Phrase .unary) :
    (l.closeSigns u).move f = (l.move f).closeSigns (u.move f) := by
  obtain ⟨sum, product, signs⟩ := l
  simp only [Level.closeSigns, Level.move, List.foldl_map]
  induction signs generalizing u with
  | nil => rfl
  | cons s signs ih =>
    rw [List.foldl_cons, List.foldl_cons, ih]
    cases s <;> rfl

theorem Level.move_closeProduct (l : Level) (u : Phrase .unary) :
    (l.closeProduct u).move f = (l.move f).closeProduct (u.move f) := by
  obtain ⟨sum, product, signs⟩ := l
  cases product <;> rfl

theorem Level.move_closeSum (l : Level) (x : Phrase .term) :
    (l.closeSum x).move f = (l.move f).closeSum (x.move f) := by
  obtain ⟨sum, product, signs⟩ := l
  cases sum <;> rfl

theorem Started.move_close (s : Started) (e : Phrase .expression) :
    (s.close e).move f = (Started.move f s).close (e.move f) := by
  cases s <;> rfl

theorem Context.used_move (ctx : Context) : (ctx.move f).used = ctx.used := by
  simp [Context.used, Context.move, Level.move, Function.comp_def]

theorem Context.enclosures_move (ctx : Context) :
    (ctx.move f).enclosures = ctx.enclosures := by
  simp only [Context.enclosures, Context.move, List.map_map]
  refine List.map_congr_left fun g _ => ?_
  obtain ⟨g, level⟩ := g
  cases g <;> rfl

theorem Context.isRound_move (ctx : Context) : (ctx.move f).isRound = ctx.isRound := by
  rw [Context.isRound, Context.enclosures_move, Context.isRound]

theorem Context.move_closeStatement (ctx : Context) (s : Phrase .statement) :
    (ctx.closeStatement s).move f = (ctx.move f).closeStatement (s.move f) := by
  have htargets : ∀ targets : List Target, (targets.foldl Target.assign s).move f =
      (targets.map (Target.move f)).foldl Target.assign (s.move f) := by
    intro targets
    induction targets generalizing s with
    | nil => rfl
    | cons t targets ih =>
      rw [List.foldl_cons, ih]
      rfl
  rw [Context.closeStatement, Lead.move_statement, htargets]
  rfl

end Parts

namespace Assembly

variable (f : Place → Place)

theorem move_lacking (s : Symbol) (t : Token) : (lacking s t).move f = lacking s (t.move f) := by
  unfold lacking
  rw [Token.kind_move]
  split <;> rfl

theorem move_start (limit : Nat) (ctx : Context) (t : Token) :
    (start limit ctx t).move f = start limit (ctx.move f) (t.move f) := by
  unfold start
  rw [Context.used_move, Token.kind_move, Token.place_move, Context.enclosures_move]
  split
  · rfl
  · split <;> rfl

theorem move_startStatement (limit : Nat) (ctx : Context) (t : Token) :
    (startStatement limit ctx t).move f = startStatement limit (ctx.move f) (t.move f) := by
  have htargets : (ctx.move f).targets.length = ctx.targets.length := by simp [Context.move]
  unfold startStatement
  rw [htargets, Token.kind_move, Token.place_move]
  split
  · rfl
  · split
    · rfl
    · rfl
    · rfl
    · exact move_start f limit ctx t

theorem move_terminate (ss : Phrase .statements) (t : Token) :
    (terminate ss t).move f = terminate (ss.move f) (t.move f) := by
  unfold terminate
  rw [Token.kind_move, Token.place_move]
  split <;> rfl

theorem move_endStatement (ctx : Context) (e : Phrase .expression) (t : Token) :
    (endStatement ctx e t).move f = endStatement (ctx.move f) (e.move f) (t.move f) := by
  unfold endStatement finish
  rw [Token.kind_move, Token.place_move]
  split
  · rfl
  · rw [move_terminate, Context.move_closeStatement]
    rfl

theorem move_closeWith (ctx : Context) (s : Symbol) {x y : Place → Phrase .indexed}
    (h : ∀ p, (x p).move f = y (f p)) (t : Token) :
    (closeWith ctx s x t).move f = closeWith (ctx.move f) s y (t.move f) := by
  unfold closeWith
  rw [Token.kind_move, Token.place_move]
  split
  · rw [move, Mode.move, h]
  · exact move_lacking f s t

theorem move_endArguments (ctx : Context) (name : String) (p l : Place) (args : Phrase .items)
    (t : Token) : (endArguments ctx name p l args t).move f =
      endArguments (ctx.move f) name (f p) (f l) (args.move f) (t.move f) := by
  unfold endArguments
  rw [Token.kind_move, Token.place_move]
  split
  · rfl
  · exact move_closeWith f ctx .rightParen (fun _ => rfl) t

theorem move_closeRow (ctx : Context) (l : Place) (rows : Phrase .rows) (t : Token) :
    (closeRow ctx l rows t).move f = closeRow (ctx.move f) (f l) (rows.move f) (t.move f) := by
  unfold closeRow
  rw [Token.kind_move, Token.place_move]
  split <;> rfl

theorem move_endRow (ctx : Context) (l : Place) (lead : Lead .rows) (row : Phrase .items)
    (t : Token) : (endRow ctx l lead row t).move f =
      endRow (ctx.move f) (f l) (lead.move f) (row.move f) (t.move f) := by
  unfold endRow
  rw [Token.kind_move, Token.place_move]
  split
  · rfl
  · rw [move_closeRow, Lead.move_row]

theorem move_endIndex (ctx : Context) (target : Phrase .indexed) (l : Place)
    (i : Phrase .expression) (t : Token) : (endIndex ctx target l i t).move f =
      endIndex (ctx.move f) (target.move f) (f l) (i.move f) (t.move f) := by
  unfold endIndex
  rw [Token.kind_move, Token.place_move]
  split
  · rfl
  · exact move_closeWith f ctx .rightBracket (fun _ => rfl) t

theorem move_endGroup (ctx : Context) (e : Phrase .expression) (t : Token) (g : Group) :
    (endGroup ctx e t g).move f = endGroup (ctx.move f) (e.move f) (t.move f) (g.move f) := by
  cases g with
  | paren l =>
    rw [Group.move, endGroup, endGroup]
    exact move_closeWith f ctx .rightParen (fun _ => rfl) t
  | call name p l args =>
    rw [endGroup, move_endArguments, Started.move_close]
    rfl
  | matrix l lead row =>
    rw [endGroup, move_endRow, Started.move_close]
    rfl
  | index target l first =>
    cases first with
    | none => exact move_endIndex f ctx target l e t
    | some first => exact move_closeWith f ctx .rightBracket (fun _ => rfl) t

theorem move_close (ctx : Context) (e : Phrase .expression) (t : Token) :
    (close ctx e t).move f = close (ctx.move f) (e.move f) (t.move f) := by
  obtain ⟨lead, targets, groups, level⟩ := ctx
  cases groups with
  | nil => exact move_endStatement f _ e t
  | cons g outer => exact move_endGroup f _ e t g.1

theorem move_afterExpression (ctx : Context) (e : Phrase .expression) (t : Token) :
    (afterExpression ctx e t).move f = afterExpression (ctx.move f) (e.move f) (t.move f) := by
  unfold afterExpression
  rw [Token.kind_move, Token.place_move]
  split
  · rfl
  · rfl
  · exact move_close f ctx e t

theorem move_afterTerm (ctx : Context) (x : Phrase .term) (t : Token) :
    (afterTerm ctx x t).move f = afterTerm (ctx.move f) (x.move f) (t.move f) := by
  unfold afterTerm
  rw [Token.kind_move, Token.place_move]
  split
  · rfl
  · rfl
  · rw [move_afterExpression, Level.move_closeSum]
    rfl

theorem move_afterIndexed (ctx : Context) (x : Phrase .indexed) (t : Token) :
    (afterIndexed ctx x t).move f = afterIndexed (ctx.move f) (x.move f) (t.move f) := by
  unfold afterIndexed afterBase afterUnary
  rw [Token.kind_move, Token.place_move]
  split
  · rfl
  · split
    · rfl
    · rw [move_afterTerm, Level.move_closeProduct, Level.move_closeSigns]
      rfl

theorem move_afterName (ctx : Context) (name : String) (p : Place) (t : Token) :
    (afterName ctx name p t).move f = afterName (ctx.move f) name (f p) (t.move f) := by
  unfold afterName
  rw [Token.kind_move, Token.place_move]
  split
  · rfl
  · exact move_afterIndexed f ctx _ t

theorem move_startLine (limit : Nat) (lead : Lead .statements) (t : Token) :
    (startLine limit lead t).move f = startLine limit (lead.move f) (t.move f) := by
  unfold startLine
  rw [Token.kind_move, Token.place_move]
  split
  · rw [move, Lead.move_add]
    rfl
  · rw [move, Lead.move_add]
    rfl
  · rw [move, Lead.move_program]
  · exact move_startStatement f limit (.start lead) t

theorem move_afterTarget (limit : Nat) (ctx : Context) (name : String) (p : Place) (t : Token) :
    (afterTarget limit ctx name p t).move f =
      afterTarget limit (ctx.move f) name (f p) (t.move f) := by
  unfold afterTarget
  rw [Token.kind_move, Token.place_move, Context.used_move]
  split
  · rfl
  · split
    · rfl
    · exact move_afterName f ctx name p t

theorem move_startArguments (limit : Nat) (ctx : Context) (name : String) (p l : Place)
    (t : Token) : (startArguments limit ctx name p l t).move f =
      startArguments limit (ctx.move f) name (f p) (f l) (t.move f) := by
  unfold startArguments
  rw [Token.kind_move, Token.place_move]
  split
  · rfl
  · rfl
  · exact move_start f limit (ctx.push (.call name p l none)) t

theorem move_startRow (limit : Nat) (ctx : Context) (l : Place) (lead : Lead .rows)
    (t : Token) : (startRow limit ctx l lead t).move f =
      startRow limit (ctx.move f) (f l) (lead.move f) (t.move f) := by
  have hstart := move_start f limit (ctx.push (.matrix l lead none)) t
  rw [startRow.eq_def, startRow.eq_def, Token.kind_move, Token.place_move]
  cases hk : t.kind with
  | newline =>
    dsimp only
    rw [move, Mode.move, Lead.move_add]
    rfl
  | endOfInput =>
    cases lead with
    | initial gap => exact hstart
    | following rows sep gap => rfl
  | symbol s =>
    cases s with
    | semicolon =>
      dsimp only
      rw [move, Mode.move, Lead.move_add]
      rfl
    | rightBracket => cases lead <;> rfl
    | _ => cases lead <;> exact hstart
  | _ => cases lead <;> exact hstart

/-- A moved token makes of a moved assembly what the token makes of the assembly, moved. -/
theorem move_step (limit : Nat) (a : Assembly) (t : Token) :
    (step limit a t).move f = step limit (a.move f) (t.move f) := by
  cases a with
  | between lead => exact move_startLine f limit lead t
  | accepted p => rfl
  | stopped stop => rfl
  | inside ctx mode =>
    -- Inside round brackets a newline changes nothing, on any line.
    cases mode with
    | statement => exact move_startStatement f limit ctx t
    | target name p => exact move_afterTarget f limit ctx name p t
    | operand =>
      rw [step, move, Mode.move, step, Token.kind_move, Context.isRound_move]
      split
      · rfl
      · exact move_start f limit ctx t
    | argument name p l => exact move_startArguments f limit ctx name p l t
    | row l lead => exact move_startRow f limit ctx l lead t
    | name name p =>
      rw [step, move, Mode.move, step, Token.kind_move, Context.isRound_move]
      split
      · rfl
      · exact move_afterName f ctx name p t
    | value x =>
      rw [step, move, Mode.move, step, Token.kind_move, Context.isRound_move]
      split
      · rfl
      · exact move_afterIndexed f ctx x t

theorem move_run (limit : Nat) (a : Assembly) (ts : List Token) :
    (run limit a ts).move f = run limit (a.move f) (ts.map (Token.move f)) := by
  induction ts generalizing a with
  | nil => rfl
  | cons t ts ih => rw [List.map_cons, run_cons, run_cons, ih, move_step]

end Assembly

end MatrixCalculator
