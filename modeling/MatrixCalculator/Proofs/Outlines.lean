import Mathlib
import MatrixCalculator.Proofs.Trees

namespace MatrixCalculator

namespace Node

/-- The tree with other numbers and lines. -/
def revise (value : Float → Float) (place : Nat → Nat) : Node → Node
  | .number x line => .number (value x) (place line)
  | .ident name line => .ident name (place line)
  | .matrix rows line =>
    .matrix (rows.map fun row => row.map fun e => revise value place e) (place line)
  | .neg operand line => .neg (revise value place operand) (place line)
  | .binary op left right line =>
    .binary op (revise value place left) (revise value place right) (place line)
  | .call name args line => .call name (args.map fun e => revise value place e) (place line)
  | .index target indices line =>
    .index (revise value place target) (indices.map fun e => revise value place e) (place line)
  | .assign name node line => .assign name (revise value place node) (place line)
  | .foreign tag fields => .foreign tag fields
termination_by node => sizeOf node
decreasing_by all_goals exact Child.sizeOf_lt (by constructor <;> assumption)

def unlined (node : Node) : Node := node.revise id fun _ => 1

theorem forall₂_map_left {f : Node → Node} {r : Node → Node → Prop} {nodes : List Node}
    (h : ∀ node ∈ nodes, r (f node) node) : List.Forall₂ r (nodes.map f) nodes := by
  rw [List.forall₂_map_left_iff]
  exact List.forall₂_same.mpr h

theorem IsExpression.agree_unlined {node : Node} (h : node.IsExpression) :
    Agree node.unlined node := by
  induction h with
  | number h =>
    rw [unlined, revise]
    exact .number _
  | ident h =>
    rw [unlined, revise]
    exact .ident _
  | matrix hrows hrow h ih =>
    rw [unlined, revise]
    refine .matrix ?_
    rw [List.forall₂_map_left_iff]
    exact List.forall₂_same.mpr fun row hmem => forall₂_map_left (ih row hmem)
  | neg h ih =>
    rw [unlined, revise]
    exact .neg ih
  | binary hleft hright ihl ihr =>
    rw [unlined, revise]
    exact .binary _ ihl ihr
  | call hname hargs ih =>
    rw [unlined, revise]
    exact .call _ (forall₂_map_left ih)
  | index htarget hcount hindices iht ih =>
    rw [unlined, revise]
    exact .index iht (forall₂_map_left ih)

theorem isAssign_unlined (node : Node) : node.unlined.isAssign = node.isAssign := by
  cases node <;> rw [unlined, revise] <;> rfl

/-- What a statement comes to does not depend on its lines. -/
theorem IsStatement.alike_unlined {node : Node} (h : node.IsStatement) :
    ExecuteAlike node.unlined node := by
  induction h with
  | assign hname hvalue ih =>
    rw [unlined, revise]
    exact .assign _ ih
  | @bare node h =>
    have hproper : node.isAssign = false := by cases h <;> rfl
    exact h.agree_unlined.executeAlike (by rw [isAssign_unlined, hproper]) hproper

theorem alike_of_unlined {a b : Node} (ha : a.IsStatement) (hb : b.IsStatement)
    (h : a.unlined = b.unlined) : ExecuteAlike a b := by
  intro env tolerance depth
  rw [← ha.alike_unlined, h, hb.alike_unlined]

end Node

def Place.origin : Place := ⟨1, 1⟩

def Token.outline (t : Token) : Token := Place.origin.token t.kind

def Separator.outline : Separator → Separator
  | .newline _ => .newline .origin
  | .semicolon _ => .semicolon .origin

namespace Phrase

/-- The phrase at one place, without separators that it does not need. -/
@[simp] def outline : {c : Category} → Phrase c → Phrase c
  | _, .ofTerm t => .ofTerm t.outline
  | _, .sum left op _ right => .sum left.outline op .origin right.outline
  | _, .ofUnary u => .ofUnary u.outline
  | _, .product left op _ right => .product left.outline op .origin right.outline
  | _, .negated _ operand => .negated .origin operand.outline
  | _, .ofPower x => .ofPower x.outline
  | _, .ofIndexed x => .ofIndexed x.outline
  | _, .raised base _ exponent => .raised base.outline .origin exponent.outline
  | _, .ofPrimary x => .ofPrimary x.outline
  | _, .part target _ i _ => .part target.outline .origin i.outline .origin
  | _, .entry target _ i _ j _ =>
    .entry target.outline .origin i.outline .origin j.outline .origin
  | _, .number value _ => .number value .origin
  | _, .ident name _ => .ident name .origin
  | _, .bareCall name _ _ _ => .bareCall name .origin .origin .origin
  | _, .call name _ _ args _ => .call name .origin .origin args.outline .origin
  | _, .group _ inner _ => .group .origin inner.outline .origin
  | _, .matrix _ rows _ _ => .matrix .origin rows.outline [] .origin
  | _, .item e => .item e.outline
  | _, .more items _ e => .more items.outline .origin e.outline
  | _, .firstRow _ row => .firstRow [] row.outline
  | _, .nextRow rows sep _ row => .nextRow rows.outline sep.outline [] row.outline
  | _, .assign name _ _ value => .assign name .origin .origin value.outline
  | _, .bare e => .bare e.outline
  | _, .firstStatement _ s => .firstStatement [] s.outline
  | _, .nextStatement before sep _ s => .nextStatement before.outline sep.outline [] s.outline
  | _, .blank _ => .blank []
  | _, .full statements _ => .full statements.outline []

end Phrase

@[simp] theorem Separator.outline_outline (s : Separator) : s.outline.outline = s.outline := by
  cases s <;> rfl

@[simp] theorem Phrase.outline_outline {c : Category} (p : Phrase c) :
    p.outline.outline = p.outline := by
  induction p <;> simp_all

/-- The outline of a phrase stands for the same tree, on the first line. -/
theorem Phrase.tree_outline {c : Category} (p : Phrase c) :
    p.outline.tree = c.map Node.unlined p.tree := by
  induction p <;> simp_all [Category.map, Node.unlined, Node.revise, Place.origin]

def Lead.outline {c : Category} : Lead c → Lead c
  | .initial _ => .initial []
  | .following before sep _ => .following before.outline sep.outline []

def Sign.outline : Sign → Sign
  | .minus _ => .minus .origin
  | .caret base _ => .caret base.outline .origin

def Level.outline (l : Level) : Level where
  sum := l.sum.map fun x => (x.1.outline, x.2.1, .origin)
  product := l.product.map fun x => (x.1.outline, x.2.1, .origin)
  signs := l.signs.map Sign.outline

def Started.outline (s : Started) : Started := s.map fun x => (x.1.outline, .origin)

def Group.outline : Group → Group
  | .paren _ => .paren .origin
  | .call name _ _ args => .call name .origin .origin args.outline
  | .matrix _ lead row => .matrix .origin lead.outline row.outline
  | .index target _ first =>
    .index target.outline .origin (first.map fun x => (x.1.outline, .origin))

def Target.outline (t : Target) : Target := ⟨t.name, .origin, .origin⟩

def Context.outline (ctx : Context) : Context where
  lead := ctx.lead.outline
  targets := ctx.targets.map Target.outline
  groups := ctx.groups.map fun g => (g.1.outline, g.2.outline)
  level := ctx.level.outline

def Mode.outline : Mode → Mode
  | .statement => .statement
  | .target n _ => .target n .origin
  | .operand => .operand
  | .argument n _ _ => .argument n .origin .origin
  | .row _ lead => .row .origin lead.outline
  | .name n _ => .name n .origin
  | .value x => .value x.outline

def Stop.outline : Stop → Stop
  | .malformed _ _ reason => .malformed 1 1 reason
  | stop => stop

def Assembly.outline : Assembly → Assembly
  | .between lead => .between lead.outline
  | .inside ctx mode => .inside ctx.outline mode.outline
  | .accepted p => .accepted p.outline
  | .stopped stop => .stopped stop.outline

section Parts

variable {c : Category}

@[simp] theorem Lead.outline_outline (lead : Lead c) : lead.outline.outline = lead.outline := by
  cases lead <;> simp [Lead.outline]

@[simp] theorem Lead.outline_add (lead : Lead c) (s : Separator) :
    (lead.add s).outline = lead.outline := by
  cases lead <;> rfl

@[simp] theorem Sign.outline_outline (s : Sign) : s.outline.outline = s.outline := by
  cases s <;> simp [Sign.outline]

@[simp] theorem Level.outline_outline (l : Level) : l.outline.outline = l.outline := by
  simp [Level.outline, Function.comp_def]

@[simp] theorem Started.outline_outline (s : Started) : s.outline.outline = s.outline := by
  simp [Started.outline, Function.comp_def]

@[simp] theorem Group.outline_outline (g : Group) : g.outline.outline = g.outline := by
  cases g <;> simp [Group.outline, Function.comp_def]

@[simp] theorem Target.outline_outline (t : Target) : t.outline.outline = t.outline := rfl

@[simp] theorem Context.outline_outline (ctx : Context) : ctx.outline.outline = ctx.outline := by
  simp [Context.outline, Function.comp_def]

@[simp] theorem Context.used_outline (ctx : Context) : ctx.outline.used = ctx.used := by
  simp [Context.used, Context.outline, Level.outline, Function.comp_def]

@[simp] theorem Context.enclosures_outline (ctx : Context) :
    ctx.outline.enclosures = ctx.enclosures := by
  simp only [Context.enclosures, Context.outline, List.map_map]
  refine List.map_congr_left fun g _ => ?_
  obtain ⟨g, level⟩ := g
  cases g <;> rfl

@[simp] theorem Context.isRound_outline (ctx : Context) : ctx.outline.isRound = ctx.isRound := by
  rw [Context.isRound, Context.enclosures_outline, Context.isRound]

@[simp] theorem Token.kind_outline (t : Token) : t.outline.kind = t.kind := rfl

@[simp] theorem Token.place_outline (t : Token) : t.outline.place = .origin := rfl

@[simp] theorem Level.outline_closeSigns (l : Level) (u : Phrase .unary) :
    (l.closeSigns u).outline = l.outline.closeSigns u.outline := by
  obtain ⟨sum, product, signs⟩ := l
  simp only [Level.closeSigns, Level.outline, List.foldl_map]
  induction signs generalizing u with
  | nil => rfl
  | cons s signs ih =>
    rw [List.foldl_cons, List.foldl_cons, ih]
    cases s <;> rfl

@[simp] theorem Level.outline_closeProduct (l : Level) (u : Phrase .unary) :
    (l.closeProduct u).outline = l.outline.closeProduct u.outline := by
  obtain ⟨sum, product, signs⟩ := l
  cases product <;> rfl

@[simp] theorem Level.outline_closeSum (l : Level) (x : Phrase .term) :
    (l.closeSum x).outline = l.outline.closeSum x.outline := by
  obtain ⟨sum, product, signs⟩ := l
  cases sum <;> rfl

@[simp] theorem Started.outline_close (s : Started) (e : Phrase .expression) :
    (s.close e).outline = s.outline.close e.outline := by
  cases s <;> rfl

@[simp] theorem Lead.outline_row (lead : Lead .rows) (row : Phrase .items) :
    (lead.row row).outline = lead.outline.row row.outline := by
  cases lead <;> rfl

@[simp] theorem Lead.outline_program (lead : Lead .statements) :
    lead.outline.program.outline = lead.program.outline := by
  cases lead <;> simp [Lead.outline, Lead.program]

@[simp] theorem Context.outline_closeStatement (ctx : Context) (s : Phrase .statement) :
    (ctx.closeStatement s).outline = ctx.outline.closeStatement s.outline := by
  have htargets : ∀ targets : List Target, (targets.foldl Target.assign s).outline =
      (targets.map Target.outline).foldl Target.assign s.outline := by
    intro targets
    induction targets generalizing s with
    | nil => rfl
    | cons t targets ih =>
      rw [List.foldl_cons, ih]
      rfl
  have hlead : ∀ (lead : Lead .statements) (s : Phrase .statement),
      (lead.statement s).outline = lead.outline.statement s.outline := by
    intro lead s
    cases lead <;> rfl
  rw [Context.closeStatement, hlead, htargets]
  rfl

@[simp] theorem Context.outline_start (lead : Lead .statements) :
    (Context.start lead).outline = Context.start lead.outline := rfl

@[simp] theorem Context.outline_push (ctx : Context) (g : Group) :
    (ctx.push g).outline = ctx.outline.push g.outline := rfl

@[simp] theorem Context.outline_sign (ctx : Context) (s : Sign) :
    (ctx.sign s).outline = ctx.outline.sign s.outline := rfl

@[simp] theorem Context.outline_withProduct (ctx : Context) (left : Phrase .term)
    (op : Multiplicative) (p : Place) : (ctx.withProduct left op p).outline =
      ctx.outline.withProduct left.outline op .origin := rfl

@[simp] theorem Context.outline_withSum (ctx : Context) (left : Phrase .expression) (op : Additive)
    (p : Place) : (ctx.withSum left op p).outline = ctx.outline.withSum left.outline op .origin :=
  rfl

@[simp] theorem Context.outline_assignTo (ctx : Context) (t : Target) :
    (ctx.assignTo t).outline = ctx.outline.assignTo t.outline := rfl

end Parts

namespace Assembly

variable {limit : Nat} {ctx : Context} {t : Token}

@[simp] theorem outline_outline (a : Assembly) : a.outline.outline = a.outline := by
  cases a with
  | between lead => simp [outline]
  | inside ctx mode => cases mode <;> simp [outline, Mode.outline]
  | accepted p => simp [outline]
  | stopped stop => cases stop <;> rfl

theorem outline_lacking (s : Symbol) (t : Token) :
    (lacking s t).outline = (lacking s t.outline).outline := by
  unfold lacking
  rw [Token.kind_outline]
  split <;> rfl

theorem outline_start (limit : Nat) (ctx : Context) (t : Token) :
    (start limit ctx t).outline = (start limit ctx.outline t.outline).outline := by
  unfold start
  rw [Context.used_outline, Token.kind_outline, Token.place_outline, Context.enclosures_outline]
  split
  · rfl
  · split <;> simp [outline, Mode.outline, Sign.outline, Group.outline, Lead.outline, reject,
      Stop.outline]

theorem outline_startStatement (limit : Nat) (ctx : Context) (t : Token) :
    (startStatement limit ctx t).outline =
      (startStatement limit ctx.outline t.outline).outline := by
  have htargets : ctx.outline.targets.length = ctx.targets.length := by simp [Context.outline]
  unfold startStatement
  rw [htargets, Token.kind_outline, Token.place_outline]
  split
  · rfl
  · split
    · simp [outline, Mode.outline]
    · rfl
    · simp [outline, Mode.outline]
    · exact outline_start limit ctx t

theorem outline_terminate (ss : Phrase .statements) (t : Token) :
    (terminate ss t).outline = (terminate ss.outline t.outline).outline := by
  unfold terminate
  rw [Token.kind_outline, Token.place_outline]
  split <;> simp [outline, Lead.outline, Separator.outline, reject, Stop.outline]

theorem outline_endStatement (ctx : Context) (e : Phrase .expression) (t : Token) :
    (endStatement ctx e t).outline = (endStatement ctx.outline e.outline t.outline).outline := by
  unfold endStatement finish
  rw [Token.kind_outline, Token.place_outline]
  split
  · rfl
  · rw [outline_terminate, Context.outline_closeStatement, Phrase.outline]

theorem outline_closeWith (ctx : Context) (s : Symbol) {x y : Place → Phrase .indexed}
    (h : ∀ p, (x p).outline = (y .origin).outline) (t : Token) :
    (closeWith ctx s x t).outline = (closeWith ctx.outline s y t.outline).outline := by
  unfold closeWith
  rw [Token.kind_outline, Token.place_outline]
  split
  · simp [outline, Mode.outline, h]
  · exact outline_lacking s t

theorem outline_endArguments (ctx : Context) (name : String) (p l : Place) (args : Phrase .items)
    (t : Token) : (endArguments ctx name p l args t).outline =
      (endArguments ctx.outline name .origin .origin args.outline t.outline).outline := by
  unfold endArguments
  rw [Token.kind_outline, Token.place_outline]
  split
  · simp [outline, Mode.outline, Group.outline, Started.outline]
  · exact outline_closeWith ctx .rightParen (by simp) t

theorem outline_closeRow (ctx : Context) (l : Place) (rows : Phrase .rows) (t : Token) :
    (closeRow ctx l rows t).outline =
      (closeRow ctx.outline .origin rows.outline t.outline).outline := by
  unfold closeRow
  rw [Token.kind_outline, Token.place_outline]
  split <;> simp [outline, Mode.outline, Lead.outline, Separator.outline, reject, Stop.outline]

theorem outline_endRow (ctx : Context) (l : Place) (lead : Lead .rows) (row : Phrase .items)
    (t : Token) : (endRow ctx l lead row t).outline =
      (endRow ctx.outline .origin lead.outline row.outline t.outline).outline := by
  unfold endRow
  rw [Token.kind_outline, Token.place_outline]
  split
  · simp [outline, Mode.outline, Group.outline, Started.outline]
  · rw [outline_closeRow, Lead.outline_row]

theorem outline_endIndex (ctx : Context) (target : Phrase .indexed) (l : Place)
    (i : Phrase .expression) (t : Token) : (endIndex ctx target l i t).outline =
      (endIndex ctx.outline target.outline .origin i.outline t.outline).outline := by
  unfold endIndex
  rw [Token.kind_outline, Token.place_outline]
  split
  · simp [outline, Mode.outline, Group.outline]
  · refine outline_closeWith ctx .rightBracket (fun p => ?_) t
    simp

theorem outline_endGroup (ctx : Context) (e : Phrase .expression) (t : Token) (g : Group) :
    (endGroup ctx e t g).outline =
      (endGroup ctx.outline e.outline t.outline g.outline).outline := by
  cases g with
  | paren l =>
    rw [Group.outline, endGroup, endGroup]
    refine outline_closeWith ctx .rightParen (fun p => ?_) t
    simp
  | call name p l args =>
    rw [endGroup, outline_endArguments, Started.outline_close]
    rfl
  | matrix l lead row =>
    rw [endGroup, outline_endRow, Started.outline_close]
    rfl
  | index target l first =>
    cases first with
    | none => exact outline_endIndex ctx target l e t
    | some first => exact outline_closeWith ctx .rightBracket (by simp) t

theorem outline_close (ctx : Context) (e : Phrase .expression) (t : Token) :
    (close ctx e t).outline = (close ctx.outline e.outline t.outline).outline := by
  obtain ⟨lead, targets, groups, level⟩ := ctx
  cases groups with
  | nil => exact outline_endStatement _ e t
  | cons g outer => exact outline_endGroup _ e t g.1

theorem outline_afterExpression (ctx : Context) (e : Phrase .expression) (t : Token) :
    (afterExpression ctx e t).outline =
      (afterExpression ctx.outline e.outline t.outline).outline := by
  unfold afterExpression
  rw [Token.kind_outline, Token.place_outline]
  split
  · simp [outline, Mode.outline]
  · simp [outline, Mode.outline]
  · exact outline_close ctx e t

theorem outline_afterTerm (ctx : Context) (x : Phrase .term) (t : Token) :
    (afterTerm ctx x t).outline = (afterTerm ctx.outline x.outline t.outline).outline := by
  unfold afterTerm
  rw [Token.kind_outline, Token.place_outline]
  split
  · simp [outline, Mode.outline]
  · simp [outline, Mode.outline]
  · rw [outline_afterExpression, Level.outline_closeSum]
    rfl

theorem outline_afterIndexed (ctx : Context) (x : Phrase .indexed) (t : Token) :
    (afterIndexed ctx x t).outline = (afterIndexed ctx.outline x.outline t.outline).outline := by
  unfold afterIndexed afterBase afterUnary
  rw [Token.kind_outline, Token.place_outline]
  split
  · simp [outline, Mode.outline, Group.outline]
  · split
    · simp [outline, Mode.outline, Sign.outline]
    · rw [outline_afterTerm, Level.outline_closeProduct, Level.outline_closeSigns]
      rfl

theorem outline_afterName (ctx : Context) (name : String) (p : Place) (t : Token) :
    (afterName ctx name p t).outline =
      (afterName ctx.outline name .origin t.outline).outline := by
  unfold afterName
  rw [Token.kind_outline, Token.place_outline]
  split
  · simp [outline, Mode.outline]
  · rw [outline_afterIndexed]
    rfl

theorem outline_startLine (limit : Nat) (lead : Lead .statements) (t : Token) :
    (startLine limit lead t).outline = (startLine limit lead.outline t.outline).outline := by
  unfold startLine
  rw [Token.kind_outline, Token.place_outline]
  split
  · simp [outline]
  · simp [outline]
  · simp [outline]
  · exact outline_startStatement limit (.start lead) t

theorem outline_afterTarget (limit : Nat) (ctx : Context) (name : String) (p : Place) (t : Token) :
    (afterTarget limit ctx name p t).outline =
      (afterTarget limit ctx.outline name .origin t.outline).outline := by
  unfold afterTarget
  rw [Token.kind_outline, Token.place_outline, Context.used_outline]
  split
  · simp [outline, Mode.outline, Target.outline]
  · split
    · rfl
    · exact outline_afterName ctx name p t

theorem outline_startArguments (limit : Nat) (ctx : Context) (name : String) (p l : Place)
    (t : Token) : (startArguments limit ctx name p l t).outline =
      (startArguments limit ctx.outline name .origin .origin t.outline).outline := by
  unfold startArguments
  rw [Token.kind_outline, Token.place_outline]
  split
  · simp [outline, Mode.outline]
  · simp [outline, Mode.outline]
  · exact outline_start limit (ctx.push (.call name p l none)) t

theorem outline_startRow (limit : Nat) (ctx : Context) (l : Place) (lead : Lead .rows)
    (t : Token) : (startRow limit ctx l lead t).outline =
      (startRow limit ctx.outline .origin lead.outline t.outline).outline := by
  have hstart := outline_start limit (ctx.push (.matrix l lead none)) t
  rw [startRow.eq_def, startRow.eq_def, Token.kind_outline, Token.place_outline]
  cases hk : t.kind with
  | newline => cases lead <;> simp [outline, Mode.outline, Lead.add, Lead.outline]
  | endOfInput =>
    cases lead with
    | initial gap => exact hstart
    | following rows sep gap => rfl
  | symbol s =>
    cases s with
    | semicolon => cases lead <;> simp [outline, Mode.outline, Lead.add, Lead.outline]
    | rightBracket =>
      cases lead with
      | initial gap => rfl
      | following rows sep gap => simp [Lead.outline, outline, Mode.outline]
    | _ => cases lead <;> exact hstart
  | _ => cases lead <;> exact hstart

/-- What a token makes of an assembly depends, places aside, on the outline and the kind only. -/
theorem outline_step (limit : Nat) (a : Assembly) (t : Token) :
    (step limit a t).outline = (step limit a.outline t.outline).outline := by
  cases a with
  | between lead => exact outline_startLine limit lead t
  | accepted p => simp [step, outline]
  | stopped stop => exact (outline_outline _).symm
  | inside ctx mode =>
    cases mode with
    | statement => exact outline_startStatement limit ctx t
    | target name p => exact outline_afterTarget limit ctx name p t
    | operand =>
      show (if t.kind.isNewline && ctx.isRound then _ else start limit ctx t).outline =
        (if t.kind.isNewline && ctx.outline.isRound then _ else _ : Assembly).outline
      rw [Context.isRound_outline]
      split
      · exact (outline_outline _).symm
      · exact outline_start limit ctx t
    | argument name p l => exact outline_startArguments limit ctx name p l t
    | row l lead => exact outline_startRow limit ctx l lead t
    | name name p =>
      show (if t.kind.isNewline && ctx.isRound then _ else afterName ctx name p t).outline =
        (if t.kind.isNewline && ctx.outline.isRound then _ else _ : Assembly).outline
      rw [Context.isRound_outline]
      split
      · exact (outline_outline _).symm
      · exact outline_afterName ctx name p t
    | value x =>
      show (if t.kind.isNewline && ctx.isRound then _ else afterIndexed ctx x t).outline =
        (if t.kind.isNewline && ctx.outline.isRound then _ else _ : Assembly).outline
      rw [Context.isRound_outline]
      split
      · exact (outline_outline _).symm
      · exact outline_afterIndexed ctx x t

/-- Outlines are all that counts, places aside, for what tokens make of an assembly. -/
theorem outline_run_congr (limit : Nat) {a b : Assembly} {ts us : List Token}
    (h : a.outline = b.outline) (hts : ts.map Token.outline = us.map Token.outline) :
    (run limit a ts).outline = (run limit b us).outline := by
  induction ts generalizing a b us with
  | nil =>
    obtain rfl := List.map_eq_nil_iff.mp hts.symm
    exact h
  | cons t ts ih =>
    obtain ⟨u, us, rfl, hu, hus⟩ := List.map_eq_cons_iff.mp hts.symm
    rw [run_cons, run_cons]
    refine ih ?_ hus.symm
    rw [outline_step, outline_step limit b, h, hu]

end Assembly

end MatrixCalculator
