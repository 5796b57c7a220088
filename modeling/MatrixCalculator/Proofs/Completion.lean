import MatrixCalculator.Proofs.Verdicts

namespace MatrixCalculator

open Assembly

def Group.closer : Group → Symbol
  | .paren _ => .rightParen
  | .call _ _ _ _ => .rightParen
  | .matrix _ _ _ => .rightBracket
  | .index _ _ _ => .rightBracket

/-- The brackets that are missing. -/
def Context.closers (ctx : Context) : List Symbol := ctx.groups.map fun g => g.1.closer

namespace Assembly

variable {limit : Nat} {ctx : Context} {t : Token}

/-- Tokens of these kinds and the end of input make a whole program of the assembly. -/
def Finishes (limit : Nat) (kinds : List Kind) (a : Assembly) : Prop :=
  ∀ ts : List Token, ts.map Token.kind = kinds ++ [.endOfInput] →
    ∃ p, run limit a ts = .accepted p

theorem Finishes.of_step {kind : Kind} {kinds : List Kind} {a : Assembly}
    (h : ∀ t : Token, t.kind = kind → (step limit a t).Finishes limit kinds) :
    a.Finishes limit (kind :: kinds) := by
  intro ts hts
  obtain ⟨t, us, rfl, ht, hus⟩ := List.map_eq_cons_iff.mp hts
  exact h t ht us hus

theorem Finishes.of_end {a : Assembly}
    (h : ∀ e : Token, e.kind = .endOfInput → ∃ p, step limit a e = .accepted p) :
    a.Finishes limit [] := by
  intro ts hts
  obtain ⟨e, us, rfl, he, hus⟩ := List.map_eq_cons_iff.mp hts
  obtain ⟨p, hp⟩ := h e he
  exact ⟨p, by rw [run_cons, hp, run_accepted]⟩

theorem endGroup_closer (ctx : Context) (x : Phrase .expression) {g : Group}
    (ht : t.kind = .symbol g.closer) : ∃ y, endGroup ctx x t g = .inside ctx (.value y) := by
  cases g with
  | index target l first =>
    cases first <;> simp [endGroup, endIndex, closeWith, ht, Group.closer, Kind.isSymbol]
  | _ => simp [endGroup, endArguments, endRow, closeRow, closeWith, ht, Group.closer, Kind.isSymbol]

theorem closer_not_continuing {g : Group} (ht : t.kind = .symbol g.closer) :
    ∀ s ∈ Category.items.continuing, t.kind ≠ .symbol s := by
  cases g <;> simp [ht, Group.closer, Category.continuing]

theorem value_finishes (ctx : Context) (x : Phrase .indexed) :
    (inside ctx (.value x)).Finishes limit (ctx.closers.map .symbol) := by
  obtain ⟨lead, targets, groups, level⟩ := ctx
  induction groups generalizing level x with
  | nil =>
    refine .of_end fun e he => ?_
    rw [step_end he, atEnd, Context.atEnd, if_pos rfl]
    exact ⟨_, rfl⟩
  | cons g outer ih =>
    refine .of_step fun t ht => ?_
    obtain ⟨y, hy⟩ := endGroup_closer ⟨lead, targets, outer, g.2⟩
      (level.complete x) (t := t) (g := g.1) ht
    have hstep : step limit (inside ⟨lead, targets, g :: outer, level⟩ (.value x)) t =
        inside ⟨lead, targets, outer, g.2⟩ (.value y) := by
      rw [step, ht, if_neg (by simp [Kind.isNewline]),
        afterIndexed_eq_close _ _ (closer_not_continuing ht), ← hy]
      rfl
    rw [hstep]
    exact ih y g.2

theorem name_finishes (ctx : Context) (name : String) (p : Place) :
    (inside ctx (.name name p)).Finishes limit (ctx.closers.map .symbol) := by
  have hvalue : (inside ctx (.value (.ofPrimary (.ident name p)))).Finishes limit
      (ctx.closers.map .symbol) := value_finishes ctx _
  intro ts hts
  obtain ⟨q, hq⟩ := hvalue ts hts
  obtain ⟨t, us, rfl⟩ := List.exists_cons_of_ne_nil (l := ts) (by rintro rfl; simp at hts)
  have ht : t.kind.isNewline = false ∧ t.kind ≠ .symbol .leftParen := by
    rw [Context.closers] at hts
    cases hgroups : ctx.groups with
    | nil =>
      have hend : t.kind = .endOfInput := by simp_all
      simp [hend, Kind.isNewline]
    | cons g outer =>
      have hclose : t.kind = .symbol g.1.closer := by simp_all
      exact ⟨by rw [hclose]; rfl, closer_not_continuing hclose _ (by simp [Category.continuing])⟩
  have hstep : step limit (inside ctx (.name name p)) t =
      step limit (inside ctx (.value (.ofPrimary (.ident name p)))) t := by
    simp [step, ht.1, afterName_of_ne ht.2]
  exact ⟨q, by rw [run_cons, hstep, ← hq]; rfl⟩

theorem start_name (hroom : ctx.used < limit) {name : String} (ht : t.kind = .name name) :
    start limit ctx t = inside ctx (.name name t.place) := by
  rw [start, if_neg (by omega), ht]

theorem operand_finishes (hroom : ctx.used < limit) (name : String) :
    (inside ctx .operand).Finishes limit (.name name :: ctx.closers.map .symbol) := by
  refine .of_step fun t ht => ?_
  rw [step, ht, if_neg (by simp [Kind.isNewline]), start_name hroom ht]
  exact name_finishes ctx name t.place

theorem argument_finishes (ctx : Context) (name : String) (p l : Place) :
    (inside ctx (.argument name p l)).Finishes limit
      (.symbol .rightParen :: ctx.closers.map .symbol) := by
  refine .of_step fun t ht => ?_
  rw [step, startArguments, ht]
  exact value_finishes ctx _

theorem row_finishes (ctx : Context) (l : Place) (rows : Phrase .rows) (sep : Separator)
    (gap : Gap) : (inside ctx (.row l (.following rows sep gap))).Finishes limit
      (.symbol .rightBracket :: ctx.closers.map .symbol) := by
  refine .of_step fun t ht => ?_
  rw [step, startRow.eq_def, ht]
  exact value_finishes ctx _

theorem firstRow_finishes (hroom : ctx.used + 1 < limit) (l : Place) (gap : Gap) (name : String) :
    (inside ctx (.row l (.initial gap))).Finishes limit
      (.name name :: .symbol .rightBracket :: ctx.closers.map .symbol) := by
  refine .of_step fun t ht => ?_
  rw [step, startRow.eq_def, ht]
  dsimp only
  rw [start_name (by rwa [Context.used_push]) ht]
  exact name_finishes (ctx.push (.matrix l (.initial gap) none)) name t.place

theorem statement_finishes (hctx : ctx.Clear) (hroom : ctx.used < limit) (name : String) :
    (inside ctx .statement).Finishes limit [.name name] := by
  have htargets : ctx.targets.length < limit := by
    unfold Context.used at hroom
    omega
  refine .of_step fun t ht => .of_end fun e he => ?_
  rw [step, startStatement, if_neg (by omega), ht]
  rw [step_end he, atEnd, if_neg (by omega), Context.atEnd, if_pos hctx.groups]
  exact ⟨_, rfl⟩

/-- A newline behind an operand in a matrix ends its row, and is dropped in other brackets; the same
brackets are missing. -/
theorem value_newline_finishes (hgroups : ctx.groups ≠ []) (x : Phrase .indexed)
    (ht : t.kind = .newline) :
    (step limit (inside ctx (.value x)) t).Finishes limit (ctx.closers.map .symbol) := by
  cases hround : ctx.isRound with
  | true =>
    rw [step, if_pos (by simp [ht, hround, Kind.isNewline])]
    exact value_finishes ctx x
  | false =>
    obtain ⟨lead, targets, groups, level⟩ := ctx
    obtain ⟨⟨g, outside⟩, outer, rfl⟩ := List.exists_cons_of_ne_nil hgroups
    cases g with
    | matrix l rows row =>
      rw [step, if_neg (by simp [hround]), afterIndexed_eq_close _ _ (by simp [ht])]
      change (endRow ⟨lead, targets, outer, outside⟩ l rows _ t).Finishes limit _
      rw [endRow, ht]
      dsimp only
      rw [closeRow, ht]
      exact row_finishes ⟨lead, targets, outer, outside⟩ l _ _ _
    | _ => simp [Context.isRound, Context.enclosures, Group.enclosure] at hround

theorem name_newline_finishes (hgroups : ctx.groups ≠ []) (name : String) (p : Place)
    (ht : t.kind = .newline) :
    (step limit (inside ctx (.name name p)) t).Finishes limit (ctx.closers.map .symbol) := by
  cases hround : ctx.isRound with
  | true =>
    rw [step, if_pos (by simp [ht, hround, Kind.isNewline])]
    exact name_finishes ctx name p
  | false =>
    have hvalue : (step limit (inside ctx (.value (.ofPrimary (.ident name p)))) t).Finishes limit
        (ctx.closers.map .symbol) := value_newline_finishes hgroups _ ht
    rw [step, if_neg (by simp [hround])] at hvalue
    rwa [step, if_neg (by simp [hround]), afterName_of_ne (by simp [ht])]

theorem wanting_eq_incomplete {levels : Nat} {p : Place}
    (h : wanting limit levels p = .stopped .incomplete) : levels < limit := by
  by_contra hfull
  simp [wanting, Nat.le_of_not_lt hfull, reject] at h

theorem groups_ne_nil_of_atEnd {x : Phrase .indexed} (h : ctx.atEnd x = .stopped .incomplete) :
    ctx.groups ≠ [] := by
  intro hgroups
  simp [Context.atEnd, hgroups] at h

end Assembly

namespace Piece

theorem kinds_place (line column : Nat) (ps : List Piece) :
    (place line column ps).map Token.kind = ps.filterMap kind? ++ [.endOfInput] := by
  induction ps generalizing line column with
  | nil => rfl
  | cons p ps ih =>
    rw [place]
    cases hk : p.kind? with
    | none => rw [List.filterMap_cons_none hk]; exact ih _ _
    | some kind => rw [List.filterMap_cons_some hk, List.map_cons, ih]; rfl

theorem extent_letter (ss : List Symbol) :
    extent 'x' (ss.map Symbol.char) = (.word, 0) := by
  have hword : (ss.map Symbol.char).takeWhile Lexeme.isWordChar = [] := by
    cases ss with
    | nil => rfl
    | cons s ss =>
      rw [List.map_cons, List.takeWhile_cons_of_neg (by cases s <;> decide)]
  rw [extent_word (by decide), hword]
  rfl

theorem kinds_symbols (ss : List Symbol) :
    (cut (ss.map Symbol.char)).filterMap kind? = ss.map .symbol := by
  induction ss with
  | nil => rw [List.map_nil, cut]; rfl
  | cons s ss ih =>
    rw [List.map_cons, cut, extent_symbol]
    exact congrArg _ ih

theorem kinds_letter (ss : List Symbol) :
    (cut ('x' :: ss.map Symbol.char)).filterMap kind? = .name "x" :: ss.map .symbol := by
  rw [cut, extent_letter]
  exact congrArg _ (kinds_symbols ss)

end Piece

def Written (kinds : List Kind) : Prop :=
  ∃ text, (tokenize text).map Token.kind = kinds ++ [.endOfInput]

theorem written_symbols (ss : List Symbol) : Written (ss.map .symbol) := by
  refine ⟨String.ofList (ss.map Symbol.char), ?_⟩
  rw [tokenize, Piece.kinds_place, String.toList_ofList, Piece.kinds_symbols]

theorem written_letter (ss : List Symbol) : Written (.name "x" :: ss.map .symbol) := by
  refine ⟨String.ofList ('x' :: ss.map Symbol.char), ?_⟩
  rw [tokenize, Piece.kinds_place, String.toList_ofList, Piece.kinds_letter]

namespace Assembly

/-- Wherever input is lacking, and a level is left for a value, a text on new lines finishes it. -/
theorem exists_finishes {limit : Nat} {a : Assembly} {p : Place} {t : Token} (ha : a.Regular)
    (h : a.atEnd limit p = .stopped .incomplete) (ht : t.kind = .newline)
    (hroom : ∀ ctx, a = .inside ctx .statement → ctx.used < limit) :
    ∃ kinds, Written kinds ∧ (step limit a t).Finishes limit kinds := by
  -- First the operand or bracket that the mode wants, if any, then the brackets that are open.
  unfold atEnd at h
  split at h
  · contradiction
  · rename_i ctx
    refine ⟨_, written_letter [], ?_⟩
    rw [step, startStatement, if_neg (by have := wanting_eq_incomplete h; omega), ht]
    exact statement_finishes ha (hroom ctx rfl) "x"
  · rename_i ctx name q
    split at h
    · simp [reject] at h
    · exact absurd (Context.Clear.groups ha) (groups_ne_nil_of_atEnd h)
  · rename_i ctx
    have hused := wanting_eq_incomplete h
    refine ⟨_, written_letter ctx.closers, ?_⟩
    have hstep : step limit (.inside ctx .operand) t = .inside ctx .operand := by
      simp [step, start, ht, Nat.not_le.mpr hused]
    rw [hstep]
    exact operand_finishes hused "x"
  · rename_i ctx name q l
    refine ⟨_, written_symbols (.rightParen :: ctx.closers), ?_⟩
    rw [step, startArguments, ht]
    exact argument_finishes ctx name q l
  · rename_i ctx l gap
    refine ⟨_, written_letter (.rightBracket :: ctx.closers), ?_⟩
    rw [step, startRow.eq_def, ht]
    exact firstRow_finishes (wanting_eq_incomplete h) l _ "x"
  · rename_i ctx l rows sep gap
    refine ⟨_, written_symbols (.rightBracket :: ctx.closers), ?_⟩
    rw [step, startRow.eq_def, ht]
    exact row_finishes ctx l rows sep _
  · rename_i ctx name q
    have hgroups := groups_ne_nil_of_atEnd h
    exact ⟨_, written_symbols ctx.closers, name_newline_finishes hgroups name q ht⟩
  · rename_i ctx x
    exact ⟨_, written_symbols ctx.closers, value_newline_finishes (groups_ne_nil_of_atEnd h) x ht⟩
  · cases a with
    | accepted p => exact ha.elim
    | stopped stop => exact ha.elim
    | _ => contradiction

end Assembly

theorem filter_significant (l : Layout) (ts : List Token) :
    (significant l ts).filter (fun t => !t.kind.isNewline) =
      ts.filter fun t => !t.kind.isNewline := by
  induction ts generalizing l with
  | nil => rfl
  | cons t ts ih =>
    rw [significant]
    split
    · rename_i hdrop
      rw [Bool.and_eq_true] at hdrop
      rw [ih, List.filter_cons_of_neg (by simp [hdrop.1])]
    · rw [List.filter_cons, List.filter_cons, ih]

/-- Where the tokens that count fall in two, so do the tokens. -/
theorem exists_significant_append {l : Layout} {ts xs ys : List Token}
    (h : significant l ts = xs ++ ys) : ∃ us vs l', ts = us ++ vs ∧ significant l us = xs ∧
      us.getLast? = xs.getLast? ∧ significant l' vs = ys := by
  -- A dropped newline goes to the part that starts before it, so the first part ends in a token
  -- that counts.
  induction ts generalizing l xs with
  | nil =>
    rw [significant, List.nil_eq, List.append_eq_nil_iff] at h
    obtain ⟨rfl, rfl⟩ := h
    exact ⟨[], [], l, rfl, rfl, rfl, rfl⟩
  | cons t ts ih =>
    cases xs with
    | nil => exact ⟨[], t :: ts, l, rfl, rfl, rfl, h⟩
    | cons x xs =>
      rw [significant] at h
      split at h
      · rename_i hdrop
        obtain ⟨us, vs, l', rfl, hus, hlast, hvs⟩ := ih h
        have hne : us ≠ [] := by
          rintro rfl
          simp [significant] at hus
        refine ⟨t :: us, vs, l', rfl, by rw [significant, if_pos hdrop, hus], ?_, hvs⟩
        obtain ⟨u, us, rfl⟩ := List.exists_cons_of_ne_nil hne
        rw [List.getLast?_cons_cons, hlast]
      · rename_i hkeep
        rw [List.cons_append, List.cons.injEq] at h
        obtain ⟨us, vs, l', rfl, hus, hlast, hvs⟩ := ih h.2
        refine ⟨t :: us, vs, l', rfl, by rw [significant, if_neg hkeep, hus, h.1], ?_, hvs⟩
        rw [List.getLast?_cons, List.getLast?_cons, hlast, h.1]

theorem Gap.isSeparator_of_mem {gap : Gap} {t : Token} (ht : t ∈ gap.yield) :
    t.kind.isSeparator = true := by
  obtain ⟨s, _, rfl⟩ := List.mem_map.mp ht
  cases s <;> rfl

theorem Lead.isSeparator_getLast {c : Category} (lead : Lead c) :
    ∀ t ∈ lead.yield.getLast?, t.kind.isSeparator = true := by
  intro t ht
  cases lead with
  | initial gap => exact Gap.isSeparator_of_mem (List.mem_of_getLast? ht)
  | following before sep gap =>
    rw [Lead.yield, List.getLast?_append_cons] at ht
    have hmem : t ∈ Gap.yield (sep :: gap) := List.mem_of_getLast? ht
    exact Gap.isSeparator_of_mem hmem

theorem Lead.depth_le {limit : Nat} {lead : Lead .statements} {ts : List Token}
    (h : ∀ stop, run limit empty (lead.yield ++ ts) ≠ .stopped stop) :
    lead.program.depth ≤ limit := by
  cases lead with
  | initial gap => exact Nat.zero_le _
  | following before sep gap =>
    by_contra hdeep
    obtain ⟨stop, hstop⟩ := (before.runs limit sep.token (by cases sep <;> rfl)).off hdeep
    refine h stop ?_
    rw [Lead.yield, List.append_cons, List.append_assoc, run_append, hstop, run_stopped]

/-- The tokens end in a statement of so many targets of assignments and nothing after them, newlines
aside. What stands before it is a program, which is empty or ends in a separator. -/
def EndsInTargets (count : Nat) (ts : List Token) : Prop :=
  ∃ (before chain : List Token) (e : Token) (nodes : List Node) (names : List String),
    ts = before ++ chain ++ [e] ∧ parseProgram (before ++ [e]) = .complete nodes [] ∧
    (∀ t ∈ before.getLast?, t.kind.isSeparator = true) ∧ names.length = count ∧
    (chain.filter fun t => !t.kind.isNewline).map Token.kind =
      names.flatMap fun name => [.name name, .symbol .assign]

theorem Target.kinds_yield (targets : List Target) :
    ((targets.flatMap Target.yield).filter fun t => !t.kind.isNewline).map Token.kind =
      (targets.map Target.name).flatMap fun name => [.name name, .symbol .assign] := by
  induction targets with
  | nil => rfl
  | cons target targets ih =>
    rw [List.flatMap_cons, List.filter_append, List.map_append, ih]
    rfl

theorem endsInTargets_of_run {ts : List Token} {e : Token} {ctx : Context}
    (hts : ∀ t ∈ ts, t.kind ≠ .endOfInput) (he : e.kind = .endOfInput)
    (h : run maxNesting empty ts = .inside ctx .statement) :
    EndsInTargets ctx.targets.length (ts ++ [e]) := by
  have hgoes : ∀ stop, run maxNesting empty ts ≠ .stopped stop := by simp [h]
  -- Nothing but the statements before and the targets has been spelled.
  rcases run_spells maxNesting (a := empty) trivial hts with ⟨_, _, hreject⟩ | ⟨hregular, hyield⟩
  · exact absurd hreject (hgoes _)
  rw [h] at hregular hyield
  have hparts : significant .initial ts =
      ctx.lead.yield ++ ctx.targets.reverse.flatMap Target.yield := by
    have hctx : (inside ctx .statement).yield =
        ctx.lead.yield ++ ctx.targets.reverse.flatMap Target.yield := by
      simp [Assembly.yield, Context.yield, Context.outerYield, Context.Clear.groups hregular,
        Context.Clear.level hregular, Mode.yield]
    rw [← hctx, hyield]
    rfl
  have hdepth : ctx.lead.program.depth ≤ maxNesting := by
    have hrun : run maxNesting empty (significant .initial ts) = run maxNesting empty ts :=
      run_significant (a := empty) trivial hts hgoes
    rw [hparts] at hrun
    exact Lead.depth_le fun stop => hrun ▸ hgoes stop
  obtain ⟨before, chain, l', rfl, hbefore, hlast, hchain⟩ := exists_significant_append hparts
  have hderives : ctx.lead.program.Derives before := by
    rw [Phrase.Derives, hbefore, Lead.yield_program]
  refine ⟨before, chain, e, ctx.lead.program.tree, ctx.targets.reverse.map Target.name, rfl, ?_, ?_,
    by simp, ?_⟩
  · have hx : ∀ t ∈ before, t.kind ≠ .endOfInput := fun t ht => hts t (List.mem_append_left _ ht)
    rw [parseProgram_eq (.append hx he), (accepted_iff hx he).mpr ⟨hderives, hdepth⟩]
    rfl
  · rw [hlast]
    exact ctx.lead.isSeparator_getLast
  · rw [← Target.kinds_yield, ← hchain, filter_significant]

/-- Input that is lacking can be supplied: a text that comes to nothing for want of more becomes a
program with some text on the lines below it, unless its last statement consists of 31 targets of
assignments and nothing after them. -/
theorem exists_complete_of_incomplete {s : String} (h : parse s = .incomplete)
    (htargets : ¬EndsInTargets 31 (tokenize s)) :
    ∃ (t : String) (nodes : List Node), parse (s ++ "\n" ++ t) = .complete nodes [] := by
  obtain ⟨ts, l, c, hts, hs, happend⟩ := exists_tokenize s
  rw [parse, hs, parseProgram_append hts rfl] at h
  have hlacks := atEnd_eq_incomplete h
  have hregular : (run maxNesting empty ts).Regular := regular_of_run hts fun p reason hreject => by
    simp [hreject, reject, atEnd] at hlacks
  -- A statement may start on the last level, but then a value cannot.
  have hroom : ∀ ctx, run maxNesting empty ts = .inside ctx .statement → ctx.used < maxNesting := by
    intro ctx hrun
    by_contra hfull
    rw [hrun] at hlacks hregular
    have hlength : ctx.targets.length < maxNesting := wanting_eq_incomplete hlacks
    have hused : ctx.used = 1 + ctx.targets.length := by
      simp [Context.used, Context.Clear.groups hregular, Context.Clear.level hregular, Level.fresh]
    have hcount : ctx.targets.length = 31 := by
      unfold maxNesting at hfull hlength
      omega
    rw [hs, ← hcount] at htargets
    exact htargets (endsInTargets_of_run hts rfl hrun)
  obtain ⟨kinds, ⟨t, ht⟩, hfinishes⟩ :=
    exists_finishes (t := ⟨.newline, l, c⟩) hregular hlacks rfl hroom
  obtain ⟨p, hp⟩ := hfinishes ((tokenize t).map (Token.lower l)) (by
    rw [List.map_map, ← ht]
    rfl)
  refine ⟨t, p.tree, ?_⟩
  rw [parse_eq, happend, run_append, run_cons, hp]
  rfl

theorem exists_complete_of_incomplete_matrix : parse "[(a" = .incomplete ∧
    ∃ (t : String) (nodes : List Node), parse ("[(a" ++ "\n" ++ t) = .complete nodes [] := by
  have h : parse "[(a" = .incomplete := by
    rw [parse_eq]
    cbv
  refine ⟨h, exists_complete_of_incomplete h ?_⟩
  rintro ⟨before, chain, e, nodes, names, htokens, _, _, hnames, hchain⟩
  -- 31 targets are more tokens than there are
  have hlength : names.length * 2 ≤ chain.length := by
    have hkinds := congrArg List.length hchain
    have hle := List.length_filter_le (fun t : Token => !t.kind.isNewline) chain
    simp only [List.length_map, List.length_flatMap, List.length_cons, List.length_nil,
      List.map_const', List.sum_replicate_nat] at hkinds
    omega
  have htotal := congrArg List.length htokens
  have hfour : (tokenize "[(a").length = 4 := by cbv
  simp only [List.length_append, hfour] at htotal
  omega

end MatrixCalculator
