import MatrixCalculator.Proofs.Parsing
import MatrixCalculator.Proofs.Spelling

namespace MatrixCalculator

open Assembly

@[simp] theorem Place.kind_mark (p : Place) (s : Symbol) : (p.mark s).kind = .symbol s := rfl

@[simp] theorem Place.place_mark (p : Place) (s : Symbol) : (p.mark s).place = p := rfl

@[simp] theorem Place.kind_token (p : Place) (k : Kind) : (p.token k).kind = k := rfl

@[simp] theorem Place.place_token (p : Place) (k : Kind) : (p.token k).place = p := rfl

section FirstTokens

def Kind.opens : Kind → Bool
  | .number _ => true
  | .name _ => true
  | .symbol .minus => true
  | .symbol .leftParen => true
  | .symbol .leftBracket => true
  | _ => false

/-- Phrases that start with an operand, if not with the target of an assignment. -/
def Category.startsOperand : Category → Bool
  | .rows => false
  | .statements => false
  | .program => false
  | _ => true

theorem Phrase.opens_of_startsOperand {c : Category} (p : Phrase c) (hc : c.startsOperand = true) :
    ∃ t ts, p.yield = t :: ts ∧ t.kind.opens = true := by
  induction p with
  | firstRow | nextRow | firstStatement | nextStatement | blank | full => contradiction
  | ofTerm t ih => exact ih rfl
  | ofUnary u ih => exact ih rfl
  | ofPower x ih => exact ih rfl
  | ofIndexed x ih => exact ih rfl
  | ofPrimary x ih => exact ih rfl
  | item e ih => exact ih rfl
  | bare e ih => exact ih rfl
  | negated | number | ident | bareCall | call | group | matrix | assign => exact ⟨_, _, rfl, rfl⟩
  | sum left op p right ih _ | product left op p right ih _ | raised left p right ih _
  | more left p right ih _ =>
    obtain ⟨t, ts, hyield, ht⟩ := ih rfl
    exact ⟨t, ts ++ _, by rw [Phrase.yield, hyield]; rfl, ht⟩
  | part target l i r ih _ =>
    obtain ⟨t, ts, hyield, ht⟩ := ih rfl
    exact ⟨t, ts ++ _ ++ _, by rw [Phrase.yield, hyield]; rfl, ht⟩
  | entry target l i comma j r ih _ _ =>
    obtain ⟨t, ts, hyield, ht⟩ := ih rfl
    exact ⟨t, ts ++ _ ++ _ ++ _, by rw [Phrase.yield, hyield]; rfl, ht⟩

def Category.assigns : Category → Bool
  | .statement => true
  | .statements => true
  | .program => true
  | _ => false

theorem Separator.kind_token_ne_assign (s : Separator) : s.token.kind ≠ .symbol .assign := by
  cases s <;> simp [Separator.token]

theorem Gap.kind_ne_assign {gap : Gap} {t : Token} (ht : t ∈ gap.yield) :
    t.kind ≠ .symbol .assign := by
  obtain ⟨s, _, rfl⟩ := List.mem_map.mp ht
  exact s.kind_token_ne_assign

theorem Phrase.kind_ne_assign {c : Category} (p : Phrase c) (hc : c.assigns = false) :
    ∀ t ∈ p.yield, t.kind ≠ .symbol .assign := by
  induction p with
  | assign | bare | firstStatement | nextStatement | blank | full => contradiction
  | sum left op p right ihl ihr =>
    cases op <;> simp_all [Phrase.yield, Category.assigns, Additive.symbol, or_imp]
  | product left op p right ihl ihr =>
    cases op <;>
      simp_all [Phrase.yield, Category.assigns, Multiplicative.symbol, or_imp]
  | matrix l rows gap r ih =>
    simp_all [Phrase.yield, Category.assigns, or_imp]
    exact fun t => Gap.kind_ne_assign
  | firstRow gap row ih =>
    simp_all [Phrase.yield, Category.assigns, or_imp]
    exact fun t => Gap.kind_ne_assign
  | nextRow rows sep gap row ihr ih =>
    simp_all [Phrase.yield, Category.assigns, or_imp, Separator.kind_token_ne_assign]
    exact fun t => Gap.kind_ne_assign
  | _ => simp_all [Phrase.yield, Category.assigns, or_imp]

end FirstTokens

namespace Assembly

/-- As long as `fits` holds, `out` is `next`; otherwise it is stopped. -/
structure Goes (fits : Prop) (out next : Assembly) : Prop where
  on : fits → out = next
  off : ¬fits → ∃ stop, out = .stopped stop

namespace Goes

variable {limit : Nat} {fits first second : Prop} {a b c : Assembly} {ts : List Token}

theorem here : Goes True a a := ⟨fun _ => rfl, fun h => absurd trivial h⟩

theorem congr (h : Goes first a b) (hfits : fits ↔ first) : Goes fits a b :=
  ⟨fun hf => h.on (hfits.mp hf), fun hf => h.off (mt hfits.mpr hf)⟩

theorem andThen (h : Goes first a b) (hb : Goes second (run limit b ts) c)
    (hfits : fits ↔ first ∧ second) : Goes fits (run limit a ts) c := by
  refine ⟨fun hf => ?_, fun hf => ?_⟩
  · rw [h.on (hfits.mp hf).1, hb.on (hfits.mp hf).2]
  · by_cases hfirst : first
    · rw [h.on hfirst]
      exact hb.off fun hsecond => hf (hfits.mpr ⟨hfirst, hsecond⟩)
    · obtain ⟨stop, hstop⟩ := h.off hfirst
      exact ⟨stop, by rw [hstop, run_stopped]⟩

end Goes

variable {limit : Nat} {ctx : Context}

theorem meet_append {k : Token → Assembly} {xs : List Token} (hxs : xs ≠ []) (ys : List Token) :
    meet limit k (xs ++ ys) = run limit (meet limit k xs) ys := by
  obtain ⟨x, xs, rfl⟩ := List.exists_cons_of_ne_nil hxs
  rw [List.cons_append, meet_cons, meet_cons, run_append]

theorem start_goes {t : Token} {b : Assembly}
    (h : ctx.used < limit → start limit ctx t = b) :
    Goes (ctx.used < limit) (start limit ctx t) b := by
  refine ⟨h, fun hfull => ⟨.malformed t.line t.column .tooDeep, ?_⟩⟩
  rw [start, if_pos (by omega)]
  rfl

theorem value_goes {t : Token} {x : Phrase .indexed}
    (ht : (t.kind.isNewline && ctx.isRound) = false) :
    Goes True (run limit (.inside ctx (.value x)) [t]) (afterIndexed ctx x t) := by
  rw [run_cons, run_nil, step, if_neg (by simp [ht])]
  exact .here

/-- What is whole may be followed by a token that leaves it. -/
theorem Goes.thenValue {fits : Prop} {a : Assembly} {t : Token} {ts : List Token}
    {x : Phrase .indexed} (h : Goes fits (run limit a ts) (.inside ctx (.value x)))
    (ht : (t.kind.isNewline && ctx.isRound) = false) :
    Goes fits (run limit a (ts ++ [t])) (afterIndexed ctx x t) := by
  rw [run_append]
  exact h.andThen (value_goes ht) (and_true _).symm.to_iff

end Assembly

/-- The symbols that go on with a phrase of the category. -/
def Category.continuing : Category → List Symbol
  | .primary => [.leftParen]
  | .indexed => [.leftParen]
  | .power => [.leftParen, .leftBracket, .caret]
  | .unary => [.leftParen, .leftBracket, .caret]
  | .term => [.leftParen, .leftBracket, .caret]
  | .expression => [.leftParen, .leftBracket, .caret, .times, .slash]
  | .items => [.leftParen, .leftBracket, .caret, .times, .slash, .plus, .minus]
  | .rows => [.leftParen, .leftBracket, .caret, .times, .slash, .plus, .minus, .comma]
  | _ => Symbol.all

theorem Separator.not_continuing (sep : Separator) :
    ∀ s ∈ Category.rows.continuing, sep.token.kind ≠ .symbol s := by
  cases sep <;> simp [Separator.token, Category.continuing]

/-- The token does not go on with a phrase of the category that is read in `ctx`, and is not
dropped. -/
structure Token.Leaves (t : Token) (c : Category) (ctx : Context) : Prop where
  kept : (t.kind.isNewline && ctx.isRound) = false
  outside : ∀ s ∈ c.continuing, t.kind ≠ .symbol s

theorem Place.mark_leaves {c : Category} (p : Place) {s : Symbol} (hs : s ∉ c.continuing)
    (ctx : Context) : (p.mark s).Leaves c ctx :=
  ⟨rfl, fun s' hs' h => hs (by cases h; exact hs')⟩

theorem Token.Leaves.mono {t : Token} {c d : Category} {ctx ctx' : Context} (h : t.Leaves c ctx)
    (hcd : ∀ s ∈ d.continuing, s ∈ c.continuing) (hround : ctx'.isRound = ctx.isRound) :
    t.Leaves d ctx' :=
  ⟨by rw [hround]; exact h.kept, fun s hs => h.outside s (hcd s hs)⟩

/-- A token that leaves a phrase is none of the operators that would go on with it. -/
theorem Token.Leaves.eq_none {α : Type} {operator? : Kind → Option α} {symbols : List Symbol}
    (hsymbols : ∀ kind, operator? kind = none ∨ ∃ s ∈ symbols, kind = .symbol s) {t : Token}
    {c : Category} {ctx : Context} (h : t.Leaves c ctx) (hc : ∀ s ∈ symbols, s ∈ c.continuing) :
    operator? t.kind = none := by
  rcases hsymbols t.kind with hnone | ⟨s, hs, hkind⟩
  · exact hnone
  · exact absurd hkind (h.outside s (hc s hs))

theorem multiplicative?_cases (kind : Kind) :
    multiplicative? kind = none ∨ ∃ s ∈ [Symbol.times, .slash], kind = .symbol s := by
  unfold multiplicative?
  split <;> simp

theorem additive?_cases (kind : Kind) :
    additive? kind = none ∨ ∃ s ∈ [Symbol.plus, .minus], kind = .symbol s := by
  unfold additive?
  split <;> simp

/-- Run on the tokens of a phrase and one that leaves it, an assembly goes on behind the phrase as
long as the levels suffice. -/
def Phrase.Runs (limit : Nat) : {c : Category} → Phrase c → Prop
  -- Up to powers the phrase stands in a unary expression, whose level counts as well.
  | .primary, x => ∀ (ctx : Context) (t : Token), t.Leaves .primary ctx →
    Goes (ctx.used + 1 + x.depth ≤ limit) (meet limit (start limit ctx) (x.yield ++ [t]))
      (afterIndexed ctx (.ofPrimary x) t)
  | .indexed, x => ∀ (ctx : Context) (t : Token), t.Leaves .indexed ctx →
    Goes (ctx.used + 1 + x.depth ≤ limit) (meet limit (start limit ctx) (x.yield ++ [t]))
      (afterIndexed ctx x t)
  | .power, x => ∀ (ctx : Context) (t : Token), t.Leaves .power ctx →
    Goes (ctx.used + 1 + x.depth ≤ limit) (meet limit (start limit ctx) (x.yield ++ [t]))
      (afterUnary ctx (.ofPower x) t)
  | .unary, u => ∀ (ctx : Context) (t : Token), t.Leaves .unary ctx →
    Goes (ctx.used + u.depth ≤ limit) (meet limit (start limit ctx) (u.yield ++ [t]))
      (afterUnary ctx u t)
  | .term, x => ∀ (ctx : Context) (t : Token), ctx.level.product = none → ctx.level.signs = [] →
    t.Leaves .term ctx →
    Goes (ctx.used + x.depth ≤ limit) (meet limit (start limit ctx) (x.yield ++ [t]))
      (afterTerm ctx x t)
  | .expression, e => ∀ (ctx : Context) (t : Token), ctx.level = .fresh → t.Leaves .expression ctx →
    Goes (ctx.used + e.depth ≤ limit) (meet limit (start limit ctx) (e.yield ++ [t]))
      (afterExpression ctx e t)
  | .items, xs => ∀ (ctx : Context) (t : Token) (g : Started → Group)
      (k : Phrase .items → Token → Assembly),
    (∀ s e u, endGroup ctx e u (g s) = k (s.close e) u) →
    (∀ ys u, u.kind = .symbol .comma →
      k ys u = .inside (ctx.push (g (some (ys, u.place)))) .operand) →
    (∀ s, (ctx.push (g s)).isRound = (ctx.push (g none)).isRound) →
    t.Leaves .items (ctx.push (g none)) →
    Goes (ctx.used + 1 + xs.depth ≤ limit)
      (meet limit (start limit (ctx.push (g none))) (xs.yield ++ [t])) (k xs t)
  | .rows, rows => ∀ (ctx : Context) (t : Token) (l : Place),
    (∀ s ∈ Category.rows.continuing, t.kind ≠ .symbol s) →
    Goes (ctx.used + 1 + rows.depth ≤ limit)
      (run limit (.inside ctx (.row l (.initial []))) (rows.yield ++ [t])) (closeRow ctx l rows t)
  | .statement, s => ∀ (ctx : Context) (t : Token), ctx.Clear →
    Reader.trailingReason? t.kind = none →
    Goes (ctx.targets.length + s.depth ≤ limit)
      (meet limit (startStatement limit ctx) (s.yield ++ [t])) (finish ctx s t)
  | .statements, ss => ∀ t : Token, Reader.trailingReason? t.kind = none →
    Goes (ss.depth ≤ limit) (run limit empty (ss.yield ++ [t])) (terminate ss t)
  | .program, p => ∀ t : Token, t.kind = .endOfInput →
    Goes (p.depth ≤ limit) (run limit empty (p.yield ++ [t])) (.accepted p)

namespace Phrase

variable {limit : Nat}

section Operands

variable {ctx : Context} {t : Token}

theorem not_newline_of_opens {k : Kind} (h : k.opens = true) : k.isNewline = false := by
  cases k <;> simp_all [Kind.opens, Kind.isNewline]

theorem not_separator_of_opens {k : Kind} (h : k.opens = true) :
    k.isSeparator = false ∧ k ≠ .endOfInput := by
  cases k with
  | symbol s => cases s <;> simp_all [Kind.opens, Kind.isSeparator]
  | _ => simp_all [Kind.opens, Kind.isSeparator]

theorem run_operand_yield {c : Category} (p : Phrase c) (hc : c.startsOperand = true)
    (ctx : Context) (ts : List Token) : run limit (.inside ctx .operand) (p.yield ++ ts) =
      meet limit (start limit ctx) (p.yield ++ ts) := by
  obtain ⟨t, us, hyield, ht⟩ := p.opens_of_startsOperand hc
  rw [hyield, List.cons_append, run_cons, meet_cons, step, not_newline_of_opens ht]
  rfl

/-- Behind a left operand and its operator the right one is read. -/
theorem goes_operator {c d : Category} {left : Phrase c} {right : Phrase d}
    (hd : d.startsOperand = true) {ctx ctx' : Context} {mark t : Token} {first second fits : Prop}
    {a : Assembly} (hleft : Goes first (meet limit (start limit ctx) (left.yield ++ [mark]))
      (.inside ctx' .operand))
    (hright : Goes second (meet limit (start limit ctx') (right.yield ++ [t])) a)
    (hfits : fits ↔ first ∧ second) :
    Goes fits (meet limit (start limit ctx) (left.yield ++ mark :: right.yield ++ [t])) a := by
  rw [← run_operand_yield right hd] at hright
  rw [List.append_assoc, List.cons_append, List.append_cons left.yield, meet_append (by simp)]
  exact hleft.andThen hright hfits

theorem runs_number (value : Float) (p : Place) : (number value p).Runs limit := by
  intro ctx t ht
  have hstart : Goes (ctx.used < limit) (start limit ctx (p.token (.number value)))
      (.inside ctx (.value (.ofPrimary (.number value p)))) :=
    start_goes fun h => by
      rw [start, if_neg (by omega)]
      rfl
  exact hstart.andThen (value_goes ht.kept) (by simp only [depth, and_true]; omega)

theorem start_name_goes (name : String) (p : Place) :
    Goes (ctx.used < limit) (start limit ctx (p.token (.name name))) (.inside ctx (.name name p)) :=
  start_goes fun h => by
    rw [start, if_neg (by omega)]
    rfl

theorem runs_ident (name : String) (p : Place) : (ident name p).Runs limit := by
  intro ctx t ht
  have hname : Goes True (run limit (.inside ctx (.name name p)) [t])
      (afterIndexed ctx (.ofPrimary (.ident name p)) t) := by
    rw [run_cons, run_nil, step, if_neg (by simp [ht.kept]),
      afterName_of_ne (ht.outside _ (by simp [Category.continuing]))]
    exact .here
  exact (start_name_goes name p).andThen hname (by simp only [depth, and_true]; omega)

theorem runs_bareCall (name : String) (p l r : Place) : (bareCall name p l r).Runs limit := by
  intro ctx t ht
  have hvalue : Goes True (run limit (.inside ctx (.value (.ofPrimary (.bareCall name p l r)))) [t])
      (afterIndexed ctx (.ofPrimary (.bareCall name p l r)) t) := value_goes ht.kept
  exact (start_name_goes name p).andThen hvalue (by simp only [depth, and_true]; omega)

theorem runs_call (name : String) (p l : Place) {args : Phrase .items} (hargs : args.Runs limit)
    (r : Place) : (call name p l args r).Runs limit := by
  intro ctx t ht
  have hitems := hargs ctx (r.mark .rightParen) (.call name p l) (endArguments ctx name p l)
    (fun _ _ _ => rfl) (fun _ _ hu => by simp [endArguments, hu]) (fun _ => rfl)
    (Place.mark_leaves r (by decide) _)
  have hopen : run limit (.inside ctx (.argument name p l)) (args.yield ++ [r.mark .rightParen]) =
      meet limit (start limit (ctx.push (.call name p l none)))
        (args.yield ++ [r.mark .rightParen]) := by
    obtain ⟨u, us, hyield, hu⟩ := args.opens_of_startsOperand rfl
    rw [hyield, List.cons_append, run_cons, meet_cons, step,
      startArguments_of_ne (by rintro hk; simp [hk, Kind.opens] at hu)
        (by rintro hk; simp [hk, Kind.opens] at hu)]
  rw [← hopen] at hitems
  have hclosed := hitems.thenValue (x := .ofPrimary (.call name p l args r)) ht.kept
  exact (start_name_goes name p).andThen hclosed (by simp only [depth]; omega)

theorem runs_group (l : Place) {inner : Phrase .expression} (hinner : inner.Runs limit)
    (r : Place) : (group l inner r).Runs limit := by
  intro ctx t ht
  have hstart : Goes (ctx.used < limit) (start limit ctx (l.mark .leftParen))
      (.inside (ctx.push (.paren l)) .operand) :=
    start_goes fun h => by
      rw [start, if_neg (by omega)]
      rfl
  have hexpr := hinner (ctx.push (.paren l)) (r.mark .rightParen) rfl
    (Place.mark_leaves r (by decide) _)
  rw [← run_operand_yield inner rfl] at hexpr
  have hclosed := hexpr.thenValue (x := .ofPrimary (.group l inner r)) ht.kept
  exact hstart.andThen hclosed (by simp only [depth, Context.used_push]; omega)

theorem runs_part {target : Phrase .indexed} (htarget : target.Runs limit) (l : Place)
    {i : Phrase .expression} (hi : i.Runs limit) (r : Place) : (part target l i r).Runs limit := by
  intro ctx t ht
  have hopen := htarget ctx (l.mark .leftBracket) (Place.mark_leaves l (by decide) ctx)
  have hexpr := hi (ctx.push (.index target l none)) (r.mark .rightBracket) rfl
    (Place.mark_leaves r (by decide) _)
  rw [← run_operand_yield i rfl] at hexpr
  have hclosed := hexpr.thenValue (x := .part target l i r) ht.kept
  have hyield : (part target l i r).yield ++ [t] = target.yield ++ [l.mark .leftBracket] ++
      (i.yield ++ [r.mark .rightBracket] ++ [t]) := by simp [yield]
  rw [hyield, meet_append (by simp)]
  exact hopen.andThen hclosed (by simp only [depth, Context.used_push]; omega)

theorem runs_entry {target : Phrase .indexed} (htarget : target.Runs limit) (l : Place)
    {i : Phrase .expression} (hi : i.Runs limit) (comma : Place) {j : Phrase .expression}
    (hj : j.Runs limit) (r : Place) : (entry target l i comma j r).Runs limit := by
  intro ctx t ht
  have hopen := htarget ctx (l.mark .leftBracket) (Place.mark_leaves l (by decide) ctx)
  have hfirst := hi (ctx.push (.index target l none)) (comma.mark .comma) rfl
    (Place.mark_leaves comma (by decide) _)
  have hsecond := hj (ctx.push (.index target l (some (i, comma)))) (r.mark .rightBracket) rfl
    (Place.mark_leaves r (by decide) _)
  rw [← run_operand_yield i rfl] at hfirst
  rw [← run_operand_yield j rfl] at hsecond
  have hclosed := hsecond.thenValue (x := .entry target l i comma j r) ht.kept
  have hindices := hfirst.andThen hclosed Iff.rfl
  rw [← run_append] at hindices
  have hyield : (entry target l i comma j r).yield ++ [t] = target.yield ++ [l.mark .leftBracket] ++
      (i.yield ++ [comma.mark .comma] ++ (j.yield ++ [r.mark .rightBracket] ++ [t])) := by
    simp [yield]
  rw [hyield, meet_append (by simp)]
  exact hopen.andThen hindices (by simp only [depth, Context.used_push]; omega)

theorem runs_negated (p : Place) {operand : Phrase .unary} (hoperand : operand.Runs limit) :
    (negated p operand).Runs limit := by
  intro ctx t ht
  have hstart : Goes (ctx.used < limit) (start limit ctx (p.mark .minus))
      (.inside (ctx.sign (.minus p)) .operand) :=
    start_goes fun h => by
      rw [start, if_neg (by omega)]
      rfl
  have hunary := hoperand (ctx.sign (.minus p)) t (ht.mono (fun _ h => h) rfl)
  rw [← run_operand_yield operand rfl] at hunary
  exact hstart.andThen hunary (by simp only [depth, Context.used_sign]; omega)

theorem runs_ofIndexed {x : Phrase .indexed} (hx : x.Runs limit) : (ofIndexed x).Runs limit := by
  intro ctx t ht
  have hindexed := hx ctx t (ht.mono (by decide) rfl)
  rw [afterIndexed_of_ne (ht.outside _ (by decide)),
    afterBase_of_ne (ht.outside _ (by decide))] at hindexed
  exact hindexed

theorem runs_raised {base : Phrase .indexed} (hbase : base.Runs limit) (p : Place)
    {exponent : Phrase .unary} (hexponent : exponent.Runs limit) :
    (raised base p exponent).Runs limit := by
  intro ctx t ht
  have hindexed := hbase ctx (p.mark .caret) (Place.mark_leaves p (by decide) ctx)
  have hunary := hexponent (ctx.sign (.caret base p)) t (ht.mono (fun _ h => h) rfl)
  exact goes_operator rfl hindexed hunary (by simp only [depth, Context.used_sign]; omega)

theorem runs_ofPower {x : Phrase .power} (hx : x.Runs limit) : (ofPower x).Runs limit := by
  intro ctx t ht
  exact (hx ctx t (ht.mono (fun _ h => h) rfl)).congr (by simp only [depth]; omega)

theorem runs_ofUnary {u : Phrase .unary} (hu : u.Runs limit) : (ofUnary u).Runs limit := by
  intro ctx t hproduct hsigns ht
  have hunary := hu ctx t (ht.mono (fun _ h => h) rfl)
  rw [afterUnary, Level.closeProduct, Level.closeSigns, hproduct, hsigns] at hunary
  exact hunary

theorem runs_product {left : Phrase .term} (hleft : left.Runs limit) (op : Multiplicative)
    (p : Place) {right : Phrase .unary} (hright : right.Runs limit) :
    (product left op p right).Runs limit := by
  intro ctx t hproduct hsigns ht
  have hterm := hleft ctx (p.mark op.symbol) hproduct hsigns
    (Place.mark_leaves p (by cases op <;> decide) ctx)
  have hop : afterTerm ctx left (p.mark op.symbol) =
      .inside (ctx.withProduct left op p) .operand := by cases op <;> rfl
  have hused : (ctx.withProduct left op p).used = ctx.used := by
    simp [Context.used, Context.withProduct, hsigns]
  have hunary := hright (ctx.withProduct left op p) t (ht.mono (fun _ h => h) rfl)
  rw [hop] at hterm
  exact goes_operator rfl hterm hunary (by simp only [depth, hused]; omega)

theorem runs_ofTerm {x : Phrase .term} (hx : x.Runs limit) : (ofTerm x).Runs limit := by
  intro ctx t hlevel ht
  have hterm := hx ctx t (by rw [hlevel]; rfl) (by rw [hlevel]; rfl) (ht.mono (by decide) rfl)
  rw [afterTerm_of_none (ht.eq_none multiplicative?_cases (by decide)), hlevel] at hterm
  exact hterm

theorem runs_sum {left : Phrase .expression} (hleft : left.Runs limit) (op : Additive) (p : Place)
    {right : Phrase .term} (hright : right.Runs limit) : (sum left op p right).Runs limit := by
  intro ctx t hlevel ht
  have hexpr := hleft ctx (p.mark op.symbol) hlevel
    (Place.mark_leaves p (by cases op <;> decide) ctx)
  have hop : afterExpression ctx left (p.mark op.symbol) =
      .inside (ctx.withSum left op p) .operand := by cases op <;> rfl
  have hused : (ctx.withSum left op p).used = ctx.used := by
    simp [Context.used, Context.withSum, hlevel, Level.fresh]
  have hterm := hright (ctx.withSum left op p) t rfl rfl (ht.mono (by decide) rfl)
  rw [afterTerm_of_none (ht.eq_none multiplicative?_cases (by decide))] at hterm
  rw [hop] at hexpr
  exact goes_operator rfl hexpr hterm (by simp only [depth, hused]; omega)

end Operands

section Lists

variable {ctx : Context} {t : Token}

theorem runs_item {e : Phrase .expression} (he : e.Runs limit) : (item e).Runs limit := by
  intro ctx t g k hend _ _ ht
  have hexpr := he (ctx.push (g none)) t rfl (ht.mono (by decide) rfl)
  rw [afterExpression_of_none (ht.eq_none additive?_cases (by decide)), Context.used_push] at hexpr
  have hclose : close (ctx.push (g none)) e t = k (.item e) t := hend none e t
  rwa [hclose] at hexpr

theorem runs_more {items : Phrase .items} (hitems : items.Runs limit) (comma : Place)
    {e : Phrase .expression} (he : e.Runs limit) : (more items comma e).Runs limit := by
  intro ctx t g k hend hcomma hround ht
  have hfirst := hitems ctx (comma.mark .comma) g k hend hcomma hround
    (Place.mark_leaves comma (by decide) _)
  have hexpr := he (ctx.push (g (some (items, comma)))) t rfl (ht.mono (by decide) (hround _))
  rw [afterExpression_of_none (ht.eq_none additive?_cases (by decide)), Context.used_push,
    ← run_operand_yield e rfl] at hexpr
  have hclose : close (ctx.push (g (some (items, comma)))) e t = k (.more items comma e) t :=
    hend (some (items, comma)) e t
  rw [hclose] at hexpr
  rw [hcomma items (comma.mark .comma) rfl] at hfirst
  have hyield : (more items comma e).yield ++ [t] =
      items.yield ++ [comma.mark .comma] ++ (e.yield ++ [t]) := by simp [yield]
  rw [hyield, meet_append (by simp)]
  exact hfirst.andThen hexpr (by simp only [depth]; omega)

theorem startRow_of_opens (l : Place) (lead : Lead .rows) (ht : t.kind.opens = true) :
    startRow limit ctx l lead t = start limit (ctx.push (.matrix l lead none)) t := by
  rw [startRow.eq_def]
  split
  all_goals simp_all [Kind.opens]

theorem row_goes {row : Phrase .items} (hrow : row.Runs limit) (ctx : Context) (l : Place)
    (lead : Lead .rows) (ht : ∀ s ∈ Category.rows.continuing, t.kind ≠ .symbol s) :
    Goes (ctx.used + 1 + row.depth ≤ limit)
      (run limit (.inside ctx (.row l lead)) (row.yield ++ [t]))
      (closeRow ctx l (lead.row row) t) := by
  have hitems := hrow ctx t (.matrix l lead) (endRow ctx l lead) (fun _ _ _ => rfl)
    (fun _ _ hu => by simp [endRow, hu]) (fun _ => rfl)
    ⟨Bool.and_false _, fun s hs => ht s (by revert s; decide)⟩
  obtain ⟨u, us, hyield, hu⟩ := row.opens_of_startsOperand rfl
  rw [endRow_of_ne (ht _ (by decide))] at hitems
  rw [hyield, List.cons_append] at hitems ⊢
  rwa [run_cons, step, startRow_of_opens l lead hu]

theorem runs_firstRow (gap : Gap) {row : Phrase .items} (hrow : row.Runs limit) :
    (firstRow gap row).Runs limit := by
  intro ctx t l ht
  have hgoes := row_goes hrow ctx l (.initial gap) ht
  rw [yield, List.append_assoc, run_append, run_gap (step_row_separator limit ctx l)]
  exact hgoes

theorem runs_nextRow {rows : Phrase .rows} (hrows : rows.Runs limit) (sep : Separator) (gap : Gap)
    {row : Phrase .items} (hrow : row.Runs limit) : (nextRow rows sep gap row).Runs limit := by
  intro ctx t l ht
  have hbefore := hrows ctx sep.token l sep.not_continuing
  have hrun : Goes (ctx.used + 1 + row.depth ≤ limit)
      (run limit (.inside ctx (.row l (.following rows sep []))) (gap.yield ++ (row.yield ++ [t])))
      (closeRow ctx l (.nextRow rows sep gap row) t) := by
    rw [run_append, run_gap (step_row_separator limit ctx l)]
    exact row_goes hrow ctx l (.following rows sep gap) ht
  have hyield : (nextRow rows sep gap row).yield ++ [t] =
      rows.yield ++ [sep.token] ++ (gap.yield ++ (row.yield ++ [t])) := by simp [yield]
  rw [closeRow_separator] at hbefore
  rw [hyield, run_append]
  exact hbefore.andThen hrun (by simp only [depth]; omega)

theorem rows_goes {rows : Phrase .rows} (hrows : rows.Runs limit) (ctx : Context) (l : Place)
    (gap : Gap) (r : Place) :
    Goes (ctx.used + 1 + rows.depth ≤ limit)
      (run limit (.inside ctx (.row l (.initial [])))
        (rows.yield ++ gap.yield ++ [r.mark .rightBracket]))
      (.inside ctx (.value (.ofPrimary (.matrix l rows gap r)))) := by
  -- The first separator ends the last row; without one the bracket does.
  cases gap with
  | nil =>
    have hlast := hrows ctx (r.mark .rightBracket) l (by simp [Category.continuing])
    have hyield : rows.yield ++ Gap.yield [] ++ [r.mark .rightBracket] =
        rows.yield ++ [r.mark .rightBracket] := by simp [Gap.yield]
    rw [hyield]
    exact hlast
  | cons s gap =>
    have hlast := hrows ctx s.token l s.not_continuing
    have hgap : Goes True
        (run limit (.inside ctx (.row l (.following rows s [])))
          (Gap.yield gap ++ [r.mark .rightBracket]))
        (.inside ctx (.value (.ofPrimary (.matrix l rows (s :: gap) r)))) := by
      rw [run_append, run_gap (step_row_separator limit ctx l)]
      exact .here
    have hyield : rows.yield ++ Gap.yield (s :: gap) ++ [r.mark .rightBracket] =
        rows.yield ++ [s.token] ++ (Gap.yield gap ++ [r.mark .rightBracket]) := by
      simp [Gap.yield]
    rw [closeRow_separator] at hlast
    rw [hyield, run_append]
    exact hlast.andThen hgap (and_true _).symm.to_iff

theorem runs_matrix (l : Place) {rows : Phrase .rows} (hrows : rows.Runs limit) (gap : Gap)
    (r : Place) : (matrix l rows gap r).Runs limit := by
  intro ctx t ht
  have hstart : Goes (ctx.used < limit) (start limit ctx (l.mark .leftBracket))
      (.inside ctx (.row l (.initial []))) :=
    start_goes fun h => by
      rw [start, if_neg (by omega)]
      rfl
  exact hstart.andThen ((rows_goes hrows ctx l gap r).thenValue ht.kept)
    (by simp only [depth]; omega)

end Lists

section Statements

theorem startStatement_goes {ctx : Context} {t : Token} {b : Assembly}
    (h : ctx.targets.length < limit → startStatement limit ctx t = b) :
    Goes (ctx.targets.length < limit) (startStatement limit ctx t) b := by
  refine ⟨h, fun hfull => ⟨.malformed t.line t.column .tooDeep, ?_⟩⟩
  rw [startStatement, if_pos (by omega)]
  rfl

theorem meet_eq_run_statement (ctx : Context) {ts : List Token} (hts : ts ≠ []) :
    meet limit (startStatement limit ctx) ts = run limit (.inside ctx .statement) ts := by
  obtain ⟨t, ts, rfl⟩ := List.exists_cons_of_ne_nil hts
  rfl

theorem runs_assign (name : String) (p equals : Place) {value : Phrase .statement}
    (hvalue : value.Runs limit) : (assign name p equals value).Runs limit := by
  intro ctx t hctx ht
  have hstart : Goes (ctx.targets.length < limit) (startStatement limit ctx (p.token (.name name)))
      (.inside ctx (.target name p)) :=
    startStatement_goes fun h => by
      rw [startStatement, if_neg (by omega)]
      rfl
  have hrest := hvalue (ctx.assignTo ⟨name, p, equals⟩) t ⟨hctx.groups, hctx.level⟩ ht
  rw [meet_eq_run_statement _ (by simp)] at hrest
  have htargets : (ctx.assignTo ⟨name, p, equals⟩).targets.length = ctx.targets.length + 1 := rfl
  exact hstart.andThen hrest (by simp only [depth, htargets]; omega)

theorem trailingReason?_leaves {t : Token} (ht : Reader.trailingReason? t.kind = none)
    {ctx : Context} (hctx : ctx.Clear) : t.Leaves .items ctx ∧ t.kind ≠ .symbol .assign := by
  have hround : ctx.isRound = false := by
    simp [Context.isRound, Context.enclosures, hctx.groups]
  refine ⟨⟨by rw [hround, Bool.and_false], fun s hs hk => ?_⟩, fun hk => ?_⟩
  · cases s <;> simp_all [Reader.trailingReason?, Category.continuing]
  · simp [hk, Reader.trailingReason?] at ht

theorem runs_bare {e : Phrase .expression} (he : e.Runs limit) : (bare e).Runs limit := by
  intro ctx t hctx ht
  obtain ⟨hleaves, hassign⟩ := trailingReason?_leaves ht hctx
  have hexpr := he ctx t hctx.level (hleaves.mono (by decide) rfl)
  rw [afterExpression_of_none (hleaves.eq_none additive?_cases (by decide)),
    close_of_groups hctx.groups, endStatement_of_ne hassign] at hexpr
  -- A name at the start is a target only if the token behind it assigns.
  obtain ⟨u, us, hyield, hu⟩ := e.opens_of_startsOperand rfl
  obtain ⟨v, vs, hv⟩ := List.exists_cons_of_ne_nil (l := us ++ [t]) (by simp)
  have hnext : v.kind ≠ .symbol .assign := by
    have hmem : v ∈ us ++ [t] := by simp [hv]
    rcases List.mem_append.mp hmem with hmem | hmem
    · exact e.kind_ne_assign rfl v (by simp [hyield, hmem])
    · rw [List.mem_singleton.mp hmem]
      exact hassign
  have hused : ctx.used = 1 + ctx.targets.length := by
    simp [Context.used, hctx.groups, hctx.level, Level.fresh]
  rw [hyield, List.cons_append, hv] at hexpr
  rw [yield, hyield, List.cons_append, hv]
  by_cases hroom : ctx.targets.length < limit
  · rw [meet_cons, run_startStatement hctx.groups hroom (not_newline_of_opens hu)
      (by rintro hk; simp [hk, Kind.opens] at hu) (by rintro ⟨_, _, h⟩; exact hnext h)]
    exact hexpr.congr (by simp only [depth]; omega)
  · refine ⟨fun h => absurd h (by simp only [depth]; omega),
      fun _ => ⟨.malformed u.line u.column .tooDeep, ?_⟩⟩
    rw [meet_cons, startStatement, if_pos (by omega)]
    exact run_stopped

theorem statement_goes {s : Phrase .statement} (hs : s.Runs limit) (lead : Lead .statements)
    {t : Token} (ht : Reader.trailingReason? t.kind = none) :
    Goes (s.depth ≤ limit) (run limit (.between lead) (s.yield ++ [t]))
      (terminate (lead.statement s) t) := by
  have hrun := hs (.start lead) t (Context.clear_start lead) ht
  obtain ⟨u, us, hyield, hu⟩ := s.opens_of_startsOperand rfl
  obtain ⟨hsep, hend⟩ := not_separator_of_opens hu
  rw [hyield, List.cons_append] at hrun ⊢
  rw [run_cons, step_between hsep hend]
  exact hrun.congr (by simp [Context.start])

theorem runs_firstStatement (gap : Gap) {s : Phrase .statement} (hs : s.Runs limit) :
    (firstStatement gap s).Runs limit := by
  intro t ht
  rw [yield, List.append_assoc, run_append, empty, run_gap (step_between_separator limit)]
  exact statement_goes hs (.initial gap) ht

theorem runs_nextStatement {before : Phrase .statements} (hbefore : before.Runs limit)
    (sep : Separator) (gap : Gap) {s : Phrase .statement} (hs : s.Runs limit) :
    (nextStatement before sep gap s).Runs limit := by
  intro t ht
  have hfirst := hbefore sep.token (by cases sep <;> rfl)
  have hrest : Goes (s.depth ≤ limit)
      (run limit (.between (.following before sep [])) (gap.yield ++ (s.yield ++ [t])))
      (terminate (.nextStatement before sep gap s) t) := by
    rw [run_append, run_gap (step_between_separator limit)]
    exact statement_goes hs (.following before sep gap) ht
  have hyield : (nextStatement before sep gap s).yield ++ [t] =
      before.yield ++ [sep.token] ++ (gap.yield ++ (s.yield ++ [t])) := by simp [yield]
  rw [terminate_separator] at hfirst
  rw [hyield, run_append]
  exact hfirst.andThen hrest (by simp only [depth]; omega)

theorem runs_blank (gap : Gap) : (blank gap).Runs limit := by
  intro t ht
  rw [yield, run_append, empty, run_gap (step_between_separator limit), run_cons, run_nil, step,
    startLine, ht]
  exact Goes.here.congr (by simp [depth])

theorem runs_full {statements : Phrase .statements} (hs : statements.Runs limit) (gap : Gap) :
    (full statements gap).Runs limit := by
  intro t ht
  cases gap with
  | nil =>
    have hlast := hs t (by rw [ht]; rfl)
    have hend : terminate statements t = .accepted (.full statements []) := by rw [terminate, ht]
    have hyield : (full statements []).yield ++ [t] = statements.yield ++ [t] := by
      simp [yield, Gap.yield]
    rw [hyield, ← hend]
    exact hlast
  | cons sep gap =>
    have hlast := hs sep.token (by cases sep <;> rfl)
    have hgap : Goes True
        (run limit (.between (.following statements sep [])) (Gap.yield gap ++ [t]))
        (.accepted (.full statements (sep :: gap))) := by
      rw [run_append, run_gap (step_between_separator limit), run_cons, run_nil, step, startLine,
        ht]
      exact .here
    have hyield : (full statements (sep :: gap)).yield ++ [t] =
        statements.yield ++ [sep.token] ++ (Gap.yield gap ++ [t]) := by simp [yield, Gap.yield]
    rw [terminate_separator] at hlast
    rw [hyield, run_append]
    exact hlast.andThen hgap (and_true _).symm.to_iff

end Statements

theorem runs (limit : Nat) {c : Category} (p : Phrase c) : p.Runs limit := by
  induction p with
  | ofTerm x ih => exact runs_ofTerm ih
  | sum left op p right ihl ihr => exact runs_sum ihl op p ihr
  | ofUnary u ih => exact runs_ofUnary ih
  | product left op p right ihl ihr => exact runs_product ihl op p ihr
  | negated p operand ih => exact runs_negated p ih
  | ofPower x ih => exact runs_ofPower ih
  | ofIndexed x ih => exact runs_ofIndexed ih
  | raised base p exponent ihb ihe => exact runs_raised ihb p ihe
  | ofPrimary x ih => exact fun ctx t ht => ih ctx t (ht.mono (fun _ h => h) rfl)
  | part target l i r iht ihi => exact runs_part iht l ihi r
  | entry target l i comma j r iht ihi ihj => exact runs_entry iht l ihi comma ihj r
  | number value p => exact runs_number value p
  | ident name p => exact runs_ident name p
  | bareCall name p l r => exact runs_bareCall name p l r
  | call name p l args r ih => exact runs_call name p l ih r
  | group l inner r ih => exact runs_group l ih r
  | matrix l rows gap r ih => exact runs_matrix l ih gap r
  | item e ih => exact runs_item ih
  | more items comma e ihi ihe => exact runs_more ihi comma ihe
  | firstRow gap row ih => exact runs_firstRow gap ih
  | nextRow rows sep gap row ihr ih => exact runs_nextRow ihr sep gap ih
  | assign name p equals value ih => exact runs_assign name p equals ih
  | bare e ih => exact runs_bare ih
  | firstStatement gap s ih => exact runs_firstStatement gap ih
  | nextStatement before sep gap s ihb ih => exact runs_nextStatement ihb sep gap ih
  | blank gap => exact runs_blank gap
  | full statements gap ih => exact runs_full ih gap

/-- Programs with the same tokens are the same: the grammar is unambiguous. -/
theorem eq_of_yield_eq {p q : Phrase .program} (h : p.yield = q.yield) : p = q := by
  -- With levels enough for both, one run accepts both.
  let e : Token := ⟨.endOfInput, 0, 0⟩
  have hp := (p.runs (max p.depth q.depth) e rfl).on (Nat.le_max_left _ _)
  have hq := (q.runs (max p.depth q.depth) e rfl).on (Nat.le_max_right _ _)
  rw [h, hq] at hp
  exact (Assembly.accepted.inj hp).symm

end Phrase

theorem Assembly.outcome_eq_complete {a : Assembly} {nodes : List Node} {rest : List Token}
    (h : a.outcome = .complete nodes rest) :
    ∃ p : Phrase .program, a = .accepted p ∧ p.tree = nodes ∧ rest = [] := by
  unfold outcome at h
  split at h
  · obtain ⟨rfl, rfl⟩ := Outcome.complete.inj h
    exact ⟨_, rfl, rfl, rfl⟩
  all_goals contradiction

/-- Exactly the derivations with few enough levels are accepted. -/
theorem accepted_iff {limit : Nat} {xs : List Token} {e : Token} {p : Phrase .program}
    (hx : ∀ t ∈ xs, t.kind ≠ .endOfInput) (he : e.kind = .endOfInput) :
    run limit empty (xs ++ [e]) = .accepted p ↔ p.Derives xs ∧ p.depth ≤ limit := by
  have hsignificant : run limit empty (xs ++ [e]) = .accepted p ↔
      run limit empty (significant .initial xs ++ [e]) = .accepted p :=
    accepted_significant (a := empty) trivial hx
  have hruns := p.runs limit e he
  constructor
  · intro h
    have hderives := derives_of_accepted hx he h
    refine ⟨hderives, ?_⟩
    by_contra hdeep
    obtain ⟨stop, hstop⟩ := hruns.off hdeep
    rw [hsignificant, ← hderives, hstop] at h
    contradiction
  · rintro ⟨hderives, hdepth⟩
    rw [hsignificant, ← hderives]
    exact hruns.on hdepth

/-- A program is complete exactly if it has a derivation in which no more than `maxNesting`
statements and unary expressions are open at once; it then stands for the tree of that derivation,
and no program has two derivations. -/
theorem parseProgram_complete_iff {xs : List Token} {e : Token}
    (hx : ∀ t ∈ xs, t.kind ≠ .endOfInput) (he : e.kind = .endOfInput) (nodes : List Node)
    (rest : List Token) :
    (parseProgram (xs ++ [e]) = .complete nodes rest ↔
      rest = [] ∧ ∃ p : Phrase .program, p.Derives xs ∧ p.depth ≤ maxNesting ∧ p.tree = nodes) ∧
    ∀ p q : Phrase .program, p.Derives xs → q.Derives xs → p = q := by
  refine ⟨?_, fun p q hp hq => Phrase.eq_of_yield_eq (hp.trans hq.symm)⟩
  rw [parseProgram_eq (Ended.append hx he)]
  constructor
  · intro h
    obtain ⟨p, hp, rfl, rfl⟩ := outcome_eq_complete h
    obtain ⟨hderives, hdepth⟩ := (accepted_iff hx he).mp hp
    exact ⟨rfl, p, hderives, hdepth, rfl⟩
  · rintro ⟨rfl, p, hderives, hdepth, rfl⟩
    rw [(accepted_iff hx he).mpr ⟨hderives, hdepth⟩]
    rfl

/-- An assignment over two lines, of a power with its sign in front. -/
theorem parseProgram_complete_signed_power :
    parseProgram [⟨.name "x", 1, 1⟩, ⟨.symbol .assign, 1, 3⟩, ⟨.newline, 1, 4⟩,
        ⟨.symbol .minus, 2, 1⟩, ⟨.name "y", 2, 2⟩, ⟨.symbol .caret, 2, 3⟩, ⟨.name "z", 2, 4⟩,
        ⟨.symbol .semicolon, 2, 5⟩, ⟨.endOfInput, 2, 6⟩] =
      .complete [.assign "x" (.neg (.binary .pow (.ident "y" 2) (.ident "z" 2) 2) 2) 1] [] := by
  have hx : ∀ t ∈ [⟨.name "x", 1, 1⟩, ⟨.symbol .assign, 1, 3⟩, ⟨.newline, 1, 4⟩,
      ⟨.symbol .minus, 2, 1⟩, ⟨.name "y", 2, 2⟩, ⟨.symbol .caret, 2, 3⟩, ⟨.name "z", 2, 4⟩,
      (⟨.symbol .semicolon, 2, 5⟩ : Token)], t.kind ≠ .endOfInput := by simp
  have he : (⟨.endOfInput, 2, 6⟩ : Token).kind = .endOfInput := rfl
  refine (parseProgram_complete_iff hx he _ _).1.mpr ⟨rfl,
    .full (.firstStatement [] (.assign "x" ⟨1, 1⟩ ⟨1, 3⟩ (.bare (.ofTerm (.ofUnary
      (.negated ⟨2, 1⟩ (.ofPower (.raised (.ofPrimary (.ident "y" ⟨2, 2⟩)) ⟨2, 3⟩
        (.ofPower (.ofIndexed (.ofPrimary (.ident "z" ⟨2, 4⟩)))))))))))) [.semicolon ⟨2, 5⟩],
    rfl, by decide, rfl⟩

end MatrixCalculator
