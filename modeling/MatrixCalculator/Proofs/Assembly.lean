import Mathlib.Algebra.GroupWithZero.Nat
import MatrixCalculator.Proofs.Grammar

namespace MatrixCalculator

/-- What stands before the next statement or row: separators, or earlier ones and separators. -/
inductive Lead (c : Category) where
  | initial (gap : Gap)
  | following (before : Phrase c) (sep : Separator) (gap : Gap)

theorem Token.exists_separator {t : Token} (h : t.kind.isSeparator = true) :
    ∃ s : Separator, s.token = t := by
  unfold Kind.isSeparator at h
  split at h <;> rename_i hk
  · exact ⟨.newline t.place, Token.place_token hk⟩
  · exact ⟨.semicolon t.place, Token.place_mark hk⟩
  · contradiction

namespace Lead

def add {c : Category} (s : Separator) : Lead c → Lead c
  | .initial gap => .initial (gap ++ [s])
  | .following before sep gap => .following before sep (gap ++ [s])

def extend {c : Category} (lead : Lead c) (gap : Gap) : Lead c :=
  match lead with
  | .initial before => .initial (before ++ gap)
  | .following rows sep before => .following rows sep (before ++ gap)

theorem extend_nil {c : Category} (lead : Lead c) : lead.extend [] = lead := by
  cases lead <;> simp [extend]

theorem extend_cons {c : Category} (lead : Lead c) (s : Separator) (gap : Gap) :
    lead.extend (s :: gap) = (lead.add s).extend gap := by
  cases lead <;> simp [extend, add]

def row : Lead .rows → Phrase .items → Phrase .rows
  | .initial gap, row => .firstRow gap row
  | .following before sep gap, row => .nextRow before sep gap row

def statement : Lead .statements → Phrase .statement → Phrase .statements
  | .initial gap, s => .firstStatement gap s
  | .following before sep gap, s => .nextStatement before sep gap s

def program : Lead .statements → Phrase .program
  | .initial gap => .blank gap
  | .following before sep gap => .full before (sep :: gap)

end Lead

/-- A sign or an exponent whose operand is wanted. -/
inductive Sign where
  | minus (p : Place)
  | caret (base : Phrase .indexed) (p : Place)

def Sign.close (u : Phrase .unary) : Sign → Phrase .unary
  | .minus p => .negated p u
  | .caret base p => .ofPower (.raised base p u)

/-- What waits for an operand in one expression; the innermost sign comes first. -/
structure Level where
  sum : Option (Phrase .expression × Additive × Place)
  product : Option (Phrase .term × Multiplicative × Place)
  signs : List Sign

namespace Level

def fresh : Level := ⟨none, none, []⟩

def closeSigns (l : Level) (u : Phrase .unary) : Phrase .unary := l.signs.foldl Sign.close u

def closeProduct (l : Level) (u : Phrase .unary) : Phrase .term :=
  match l.product with
  | none => .ofUnary u
  | some (left, op, p) => .product left op p u

def closeSum (l : Level) (t : Phrase .term) : Phrase .expression :=
  match l.sum with
  | none => .ofTerm t
  | some (left, op, p) => .sum left op p t

end Level

/-- The items so far and the comma behind them. -/
abbrev Started := Option (Phrase .items × Place)

def Started.close (s : Started) (e : Phrase .expression) : Phrase .items :=
  match s with
  | none => .item e
  | some (items, comma) => .more items comma e

/-- An open bracket and what has been read in it. -/
inductive Group where
  | paren (l : Place)
  | call (name : String) (p l : Place) (args : Started)
  | matrix (l : Place) (lead : Lead .rows) (row : Started)
  | index (target : Phrase .indexed) (l : Place) (first : Option (Phrase .expression × Place))

def Group.enclosure : Group → Enclosure
  | .matrix _ _ _ => .matrix
  | _ => .round

structure Target where
  name : String
  place : Place
  equals : Place

def Target.assign (s : Phrase .statement) (t : Target) : Phrase .statement :=
  .assign t.name t.place t.equals s

/-- What is open around a place in a statement. Targets and groups start with the innermost; with a
group stands the level that it interrupts. -/
structure Context where
  lead : Lead .statements
  targets : List Target
  groups : List (Group × Level)
  level : Level

namespace Context

def start (lead : Lead .statements) : Context := ⟨lead, [], [], .fresh⟩

def enclosures (ctx : Context) : List Enclosure := ctx.groups.map fun g => g.1.enclosure

def isRound (ctx : Context) : Bool := ctx.enclosures.head? = some .round

/-- The statements and unary expressions open where the next unary expression starts. -/
def used (ctx : Context) : Nat :=
  1 + ctx.targets.length + (ctx.groups.map fun g => g.2.signs.length + 1).sum +
    ctx.level.signs.length

def push (ctx : Context) (g : Group) : Context :=
  { ctx with groups := (g, ctx.level) :: ctx.groups, level := .fresh }

def sign (ctx : Context) (s : Sign) : Context :=
  { ctx with level := { ctx.level with signs := s :: ctx.level.signs } }

def withProduct (ctx : Context) (left : Phrase .term) (op : Multiplicative) (p : Place) : Context :=
  { ctx with level := { ctx.level with product := some (left, op, p), signs := [] } }

def withSum (ctx : Context) (left : Phrase .expression) (op : Additive) (p : Place) : Context :=
  { ctx with level := ⟨some (left, op, p), none, []⟩ }

def assignTo (ctx : Context) (t : Target) : Context := { ctx with targets := t :: ctx.targets }

def closeStatement (ctx : Context) (s : Phrase .statement) : Phrase .statements :=
  ctx.lead.statement (ctx.targets.foldl Target.assign s)

theorem enclosures_push (ctx : Context) (g : Group) :
    (ctx.push g).enclosures = g.enclosure :: ctx.enclosures := rfl

theorem used_push (ctx : Context) (g : Group) : (ctx.push g).used = ctx.used + 1 := by
  simp only [used, push, Level.fresh, List.map_cons, List.sum_cons, List.length_nil]
  omega

theorem used_sign (ctx : Context) (s : Sign) : (ctx.sign s).used = ctx.used + 1 := by
  simp only [used, sign, List.length_cons]
  omega

end Context

/-- What has just been read, or has to follow. An argument list or a matrix that has just been
opened may also close. -/
inductive Mode where
  | statement
  | target (name : String) (p : Place)
  | operand
  | argument (name : String) (p l : Place)
  | row (l : Place) (lead : Lead .rows)
  | name (name : String) (p : Place)
  | value (x : Phrase .indexed)

inductive Assembly where
  | between (lead : Lead .statements)
  | inside (ctx : Context) (mode : Mode)
  | accepted (p : Phrase .program)
  | stopped (stop : Stop)

namespace Assembly

def reject (p : Place) (reason : Reason) : Assembly :=
  .stopped (.malformed p.line p.column reason)

def lacking (s : Symbol) (t : Token) : Assembly :=
  if t.kind.isEnd then .stopped .incomplete else reject t.place (.expected s t.kind)

def start (limit : Nat) (ctx : Context) (t : Token) : Assembly :=
  if limit ≤ ctx.used then reject t.place .tooDeep
  else
    match t.kind with
    | .newline => .inside ctx .operand
    | .endOfInput => .stopped .incomplete
    | .symbol .minus => .inside (ctx.sign (.minus t.place)) .operand
    | .number value => .inside ctx (.value (.ofPrimary (.number value t.place)))
    | .name name => .inside ctx (.name name t.place)
    | .symbol .leftParen => .inside (ctx.push (.paren t.place)) .operand
    | .symbol .leftBracket => .inside ctx (.row t.place (.initial []))
    | kind => reject t.place (Reader.operandReason kind ctx.enclosures)

def startStatement (limit : Nat) (ctx : Context) (t : Token) : Assembly :=
  if limit ≤ ctx.targets.length then reject t.place .tooDeep
  else
    match t.kind with
    | .newline => .inside ctx .statement
    | .endOfInput => .stopped .incomplete
    | .name name => .inside ctx (.target name t.place)
    | _ => start limit ctx t

def terminate (statements : Phrase .statements) (t : Token) : Assembly :=
  match t.kind with
  | .newline => .between (.following statements (.newline t.place) [])
  | .symbol .semicolon => .between (.following statements (.semicolon t.place) [])
  | .endOfInput => .accepted (.full statements [])
  | kind => reject t.place ((Reader.trailingReason? kind).getD (.trailing kind))

def finish (ctx : Context) (s : Phrase .statement) (t : Token) : Assembly :=
  terminate (ctx.closeStatement s) t

def endStatement (ctx : Context) (e : Phrase .expression) (t : Token) : Assembly :=
  match t.kind with
  | .symbol .assign => reject t.place .badTarget
  | _ => finish ctx (.bare e) t

/-- The token behind all that stands in brackets, where `ctx` stands outside of them. -/
def closeWith (ctx : Context) (s : Symbol) (x : Place → Phrase .indexed) (t : Token) : Assembly :=
  if t.kind.isSymbol s then .inside ctx (.value (x t.place)) else lacking s t

def endArguments (ctx : Context) (name : String) (p l : Place) (args : Phrase .items)
    (t : Token) : Assembly :=
  match t.kind with
  | .symbol .comma => .inside (ctx.push (.call name p l (some (args, t.place)))) .operand
  | _ => closeWith ctx .rightParen (fun r => .ofPrimary (.call name p l args r)) t

/-- The token behind a row of a matrix. -/
def closeRow (ctx : Context) (l : Place) (rows : Phrase .rows) (t : Token) : Assembly :=
  match t.kind with
  | .newline => .inside ctx (.row l (.following rows (.newline t.place) []))
  | .symbol .semicolon => .inside ctx (.row l (.following rows (.semicolon t.place) []))
  | .symbol .rightBracket => .inside ctx (.value (.ofPrimary (.matrix l rows [] t.place)))
  | .endOfInput => .stopped .incomplete
  | kind => reject t.place (.rowUnfinished kind)

def endRow (ctx : Context) (l : Place) (lead : Lead .rows) (row : Phrase .items)
    (t : Token) : Assembly :=
  match t.kind with
  | .symbol .comma => .inside (ctx.push (.matrix l lead (some (row, t.place)))) .operand
  | _ => closeRow ctx l (lead.row row) t

def endIndex (ctx : Context) (target : Phrase .indexed) (l : Place) (i : Phrase .expression)
    (t : Token) : Assembly :=
  match t.kind with
  | .symbol .comma => .inside (ctx.push (.index target l (some (i, t.place)))) .operand
  | _ => closeWith ctx .rightBracket (.part target l i) t

/-- The token behind an expression in brackets, where `ctx` stands outside of them. -/
def endGroup (ctx : Context) (e : Phrase .expression) (t : Token) : Group → Assembly
  | .paren l => closeWith ctx .rightParen (fun r => .ofPrimary (.group l e r)) t
  | .call name p l args => endArguments ctx name p l (args.close e) t
  | .index target l none => endIndex ctx target l e t
  | .index target l (some (i, comma)) =>
    closeWith ctx .rightBracket (.entry target l i comma e) t
  | .matrix l lead row => endRow ctx l lead (row.close e) t

/-- The token behind a whole expression. -/
def close (ctx : Context) (e : Phrase .expression) (t : Token) : Assembly :=
  match ctx.groups with
  | [] => endStatement ctx e t
  | (g, level) :: outer => endGroup { ctx with groups := outer, level } e t g

def afterExpression (ctx : Context) (e : Phrase .expression) (t : Token) : Assembly :=
  match t.kind with
  | .symbol .plus => .inside (ctx.withSum e .plus t.place) .operand
  | .symbol .minus => .inside (ctx.withSum e .minus t.place) .operand
  | _ => close ctx e t

def afterTerm (ctx : Context) (x : Phrase .term) (t : Token) : Assembly :=
  match t.kind with
  | .symbol .times => .inside (ctx.withProduct x .times t.place) .operand
  | .symbol .slash => .inside (ctx.withProduct x .slash t.place) .operand
  | _ => afterExpression ctx (ctx.level.closeSum x) t

def afterUnary (ctx : Context) (u : Phrase .unary) (t : Token) : Assembly :=
  afterTerm ctx (ctx.level.closeProduct (ctx.level.closeSigns u)) t

def afterBase (ctx : Context) (x : Phrase .indexed) (t : Token) : Assembly :=
  match t.kind with
  | .symbol .caret => .inside (ctx.sign (.caret x t.place)) .operand
  | _ => afterUnary ctx (.ofPower (.ofIndexed x)) t

def afterIndexed (ctx : Context) (x : Phrase .indexed) (t : Token) : Assembly :=
  match t.kind with
  | .symbol .leftBracket => .inside (ctx.push (.index x t.place none)) .operand
  | _ => afterBase ctx x t

def afterName (ctx : Context) (name : String) (p : Place) (t : Token) : Assembly :=
  match t.kind with
  | .symbol .leftParen => .inside ctx (.argument name p t.place)
  | _ => afterIndexed ctx (.ofPrimary (.ident name p)) t

def startLine (limit : Nat) (lead : Lead .statements) (t : Token) : Assembly :=
  match t.kind with
  | .newline => .between (lead.add (.newline t.place))
  | .symbol .semicolon => .between (lead.add (.semicolon t.place))
  | .endOfInput => .accepted lead.program
  | _ => startStatement limit (.start lead) t

def afterTarget (limit : Nat) (ctx : Context) (name : String) (p : Place) (t : Token) : Assembly :=
  match t.kind with
  | .symbol .assign => .inside (ctx.assignTo ⟨name, p, t.place⟩) .statement
  | _ => if limit ≤ ctx.used then reject p .tooDeep else afterName ctx name p t

/-- The token behind the bracket that opens an argument list. -/
def startArguments (limit : Nat) (ctx : Context) (name : String) (p l : Place)
    (t : Token) : Assembly :=
  match t.kind with
  | .newline => .inside ctx (.argument name p l)
  | .symbol .rightParen => .inside ctx (.value (.ofPrimary (.bareCall name p l t.place)))
  | _ => start limit (ctx.push (.call name p l none)) t

def startRow (limit : Nat) (ctx : Context) (l : Place) (lead : Lead .rows) (t : Token) : Assembly :=
  match t.kind, lead with
  | .newline, lead => .inside ctx (.row l (lead.add (.newline t.place)))
  | .symbol .semicolon, lead => .inside ctx (.row l (lead.add (.semicolon t.place)))
  | .symbol .rightBracket, .initial _ => reject l .emptyMatrix
  | .symbol .rightBracket, .following rows sep gap =>
    .inside ctx (.value (.ofPrimary (.matrix l rows (sep :: gap) t.place)))
  | .endOfInput, .following _ _ _ => .stopped .incomplete
  | _, lead => start limit (ctx.push (.matrix l lead none)) t

/-- What a token makes of an assembly. -/
def step (limit : Nat) : Assembly → Token → Assembly
  | .between lead, t => startLine limit lead t
  | .inside ctx .statement, t => startStatement limit ctx t
  | .inside ctx (.target name p), t => afterTarget limit ctx name p t
  | .inside ctx .operand, t =>
    if t.kind.isNewline && ctx.isRound then .inside ctx .operand else start limit ctx t
  | .inside ctx (.argument name p l), t => startArguments limit ctx name p l t
  | .inside ctx (.row l lead), t => startRow limit ctx l lead t
  | .inside ctx (.name name p), t =>
    if t.kind.isNewline && ctx.isRound then .inside ctx (.name name p) else afterName ctx name p t
  | .inside ctx (.value x), t =>
    if t.kind.isNewline && ctx.isRound then .inside ctx (.value x) else afterIndexed ctx x t
  | .accepted p, _ => .accepted p
  | .stopped stop, _ => .stopped stop

/-- What tokens make of an assembly, one after the other. -/
def run (limit : Nat) (a : Assembly) (ts : List Token) : Assembly := ts.foldl (step limit) a

def empty : Assembly := .between (.initial [])

section Tokens

variable {limit : Nat} {ctx : Context} {t : Token}

theorem finish_of_some (ctx : Context) (s : Phrase .statement) {reason : Reason}
    (h : Reader.trailingReason? t.kind = some reason) :
    finish ctx s t = reject t.place reason := by
  unfold finish terminate
  split
  all_goals simp_all [Reader.trailingReason?]

theorem endStatement_of_ne {e : Phrase .expression} (ht : t.kind ≠ .symbol .assign) :
    endStatement ctx e t = finish ctx (.bare e) t := by
  unfold endStatement
  split
  · contradiction
  · rfl

theorem endArguments_of_ne {name : String} {p l : Place} {args : Phrase .items}
    (ht : t.kind ≠ .symbol .comma) : endArguments ctx name p l args t =
      closeWith ctx .rightParen (fun r => .ofPrimary (.call name p l args r)) t := by
  unfold endArguments
  split
  · contradiction
  · rfl

theorem closeRow_of_other {l : Place} {rows : Phrase .rows} (hsep : t.kind.isSeparator = false)
    (hclose : t.kind ≠ .symbol .rightBracket) (hend : t.kind ≠ .endOfInput) :
    closeRow ctx l rows t = reject t.place (.rowUnfinished t.kind) := by
  unfold closeRow
  split
  · simp_all [Kind.isSeparator]
  · simp_all [Kind.isSeparator]
  · contradiction
  · contradiction
  · rfl

theorem endRow_of_ne {l : Place} {lead : Lead .rows} {row : Phrase .items}
    (ht : t.kind ≠ .symbol .comma) :
    endRow ctx l lead row t = closeRow ctx l (lead.row row) t := by
  unfold endRow
  split
  · contradiction
  · rfl

theorem endIndex_of_ne {target : Phrase .indexed} {l : Place} {i : Phrase .expression}
    (ht : t.kind ≠ .symbol .comma) :
    endIndex ctx target l i t = closeWith ctx .rightBracket (.part target l i) t := by
  unfold endIndex
  split
  · contradiction
  · rfl

theorem close_of_groups (hgroups : ctx.groups = []) (e : Phrase .expression) :
    close ctx e = endStatement ctx e := by
  funext t
  rw [close, hgroups]

theorem afterExpression_of_some (ctx : Context) (x : Phrase .expression) {op : BinaryOp}
    (h : additive? t.kind = some op) : ∃ o : Additive, o.op = op ∧
      afterExpression ctx x t = .inside (ctx.withSum x o t.place) .operand := by
  unfold additive? at h
  split at h <;> simp only [Option.some.injEq, reduceCtorEq] at h <;> rename_i hk
  · exact ⟨.plus, h, by simp [afterExpression, hk]⟩
  · exact ⟨.minus, h, by simp [afterExpression, hk]⟩

theorem afterExpression_of_none {x : Phrase .expression} (h : additive? t.kind = none) :
    afterExpression ctx x t = close ctx x t := by
  unfold afterExpression
  split <;> simp_all [additive?]

theorem afterTerm_of_some (ctx : Context) (x : Phrase .term) {op : BinaryOp}
    (h : multiplicative? t.kind = some op) : ∃ o : Multiplicative, o.op = op ∧
      afterTerm ctx x t = .inside (ctx.withProduct x o t.place) .operand := by
  unfold multiplicative? at h
  split at h <;> simp only [Option.some.injEq, reduceCtorEq] at h <;> rename_i hk
  · exact ⟨.times, h, by simp [afterTerm, hk]⟩
  · exact ⟨.slash, h, by simp [afterTerm, hk]⟩

theorem afterTerm_of_none {x : Phrase .term} (h : multiplicative? t.kind = none) :
    afterTerm ctx x t = afterExpression ctx (ctx.level.closeSum x) t := by
  unfold afterTerm
  split <;> simp_all [multiplicative?]

theorem afterBase_of_ne {x : Phrase .indexed} (ht : t.kind ≠ .symbol .caret) :
    afterBase ctx x t = afterUnary ctx (.ofPower (.ofIndexed x)) t := by
  unfold afterBase
  split
  · contradiction
  · rfl

theorem afterIndexed_of_ne {x : Phrase .indexed} (ht : t.kind ≠ .symbol .leftBracket) :
    afterIndexed ctx x t = afterBase ctx x t := by
  unfold afterIndexed
  split
  · contradiction
  · rfl

theorem afterName_of_ne {name : String} {p : Place} (ht : t.kind ≠ .symbol .leftParen) :
    afterName ctx name p t = afterIndexed ctx (.ofPrimary (.ident name p)) t := by
  unfold afterName
  split
  · contradiction
  · rfl

theorem startArguments_of_ne {name : String} {p l : Place} (hnewline : t.kind ≠ .newline)
    (hclose : t.kind ≠ .symbol .rightParen) :
    startArguments limit ctx name p l t = start limit (ctx.push (.call name p l none)) t := by
  unfold startArguments
  split
  · contradiction
  · contradiction
  · rfl

/-- As long as a level is left, nothing hangs on newlines before an operand. -/
theorem step_operand (h : ctx.used < limit) :
    step limit (.inside ctx .operand) t = start limit ctx t := by
  change (if t.kind.isNewline && ctx.isRound then .inside ctx .operand else start limit ctx t) = _
  split
  · rename_i ht
    have hn : t.kind.isNewline = true := by simp_all
    rw [start, if_neg (by omega)]
    cases hk : t.kind <;> simp_all [Kind.isNewline]
  · rfl

end Tokens

section Run

variable {limit : Nat} {a : Assembly} {t : Token} {ts us : List Token}

@[simp] theorem run_nil : run limit a [] = a := rfl

@[simp] theorem run_cons : run limit a (t :: ts) = run limit (step limit a t) ts := rfl

theorem run_append : run limit a (ts ++ us) = run limit (run limit a ts) us := List.foldl_append

@[simp] theorem run_stopped {stop : Stop} : run limit (.stopped stop) ts = .stopped stop := by
  induction ts with
  | nil => rfl
  | cons t ts ih => exact ih

@[simp] theorem run_accepted {p : Phrase .program} :
    run limit (.accepted p) ts = .accepted p := by
  induction ts with
  | nil => rfl
  | cons t ts ih => exact ih

theorem run_dropWhile {p : Token → Bool} (h : ∀ t, p t = true → step limit a t = a) :
    run limit a (ts.dropWhile p) = run limit a ts := by
  induction ts with
  | nil => rfl
  | cons t ts ih =>
    by_cases ht : p t = true
    · rw [List.dropWhile_cons_of_pos ht, run_cons, h t ht, ih]
    · rw [List.dropWhile_cons_of_neg ht]

section Separators

-- Between statements and between the rows of a matrix separators are collected alike.
variable {c : Category} {k : Lead c → Assembly}
  (hk : ∀ (lead : Lead c) (s : Separator), step limit (k lead) s.token = k (lead.add s))
include hk

theorem run_gap (lead : Lead c) (gap : Gap) :
    run limit (k lead) gap.yield = k (lead.extend gap) := by
  induction gap generalizing lead with
  | nil => rw [Lead.extend_nil]; rfl
  | cons s gap ih =>
    rw [Lead.extend_cons, ← ih, ← hk]
    rfl

theorem run_skip (lead : Lead c) (ts : List Token) : ∃ gap : Gap, run limit (k lead) ts =
    run limit (k (lead.extend gap)) (ts.dropWhile fun t => t.kind.isSeparator) := by
  induction ts generalizing lead with
  | nil => exact ⟨[], by rw [Lead.extend_nil]; rfl⟩
  | cons t ts ih =>
    by_cases ht : t.kind.isSeparator = true
    · obtain ⟨s, rfl⟩ := Token.exists_separator ht
      obtain ⟨gap, hgap⟩ := ih (lead.add s)
      exact ⟨s :: gap, by rw [Lead.extend_cons, List.dropWhile_cons, if_pos ht, run_cons, hk, hgap]⟩
    · exact ⟨[], by rw [Lead.extend_nil, List.dropWhile_cons, if_neg ht]⟩

end Separators

theorem step_row_separator (limit : Nat) (ctx : Context) (l : Place) (lead : Lead .rows)
    (s : Separator) :
    step limit (.inside ctx (.row l lead)) s.token = .inside ctx (.row l (lead.add s)) := by
  cases s <;> rfl

theorem step_between_separator (limit : Nat) (lead : Lead .statements) (s : Separator) :
    step limit (.between lead) s.token = .between (lead.add s) := by
  cases s <;> rfl

theorem closeRow_separator (ctx : Context) (l : Place) (rows : Phrase .rows) (sep : Separator) :
    closeRow ctx l rows sep.token = .inside ctx (.row l (.following rows sep [])) := by
  cases sep <;> rfl

theorem terminate_separator (ss : Phrase .statements) (sep : Separator) :
    terminate ss sep.token = .between (.following ss sep []) := by
  cases sep <;> rfl

end Run

end Assembly

end MatrixCalculator
