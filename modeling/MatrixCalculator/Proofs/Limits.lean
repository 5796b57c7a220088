import Mathlib
import MatrixCalculator.Proofs.Completion
import MatrixCalculator.Proofs.Joining

namespace MatrixCalculator

open Assembly

/-- Some text on the lines below makes a program of this one. -/
def Completable (s : String) : Prop :=
  ∃ (t : String) (nodes : List Node) (rest : List Token),
    parse (s ++ "\n" ++ t) = .complete nodes rest

/-- The tokens end where the argument list of a call opens, newlines aside, and up to the name of
the function nothing is wrong with them. -/
def EndsInCall (ts : List Token) : Prop :=
  ∃ (before gap : List Token) (callee l e : Token) (name : String),
    ts = before ++ l :: gap ++ [e] ∧
    (∀ line column reason, parseProgram (before ++ [e]) ≠ .malformed line column reason) ∧
    (significant .initial before).getLast? = some callee ∧ callee.kind = .name name ∧
    l.kind = .symbol .leftParen ∧ ∀ t ∈ gap, t.kind.isNewline = true

namespace Assembly

variable {limit : Nat} {ctx : Context} {ts : List Token} {t : Token} {p : Place}

theorem run_concat_cases (hts : ∀ u ∈ ts ++ [t], u.kind ≠ .endOfInput)
    (h : ∀ p reason, run limit empty (ts ++ [t]) ≠ reject p reason) :
    (run limit empty ts).Regular ∧
      ((t.kind.isNewline && (run limit empty ts).layout.drops) = true ∧
          run limit empty (ts ++ [t]) = run limit empty ts ∨
        (run limit empty (ts ++ [t])).layout = (run limit empty ts).layout.next t.kind ∧
          (run limit empty (ts ++ [t])).yield = (run limit empty ts).yield ++ [t]) := by
  have hinit : ∀ u ∈ ts, u.kind ≠ .endOfInput := fun u hu => hts u (List.mem_append_left _ hu)
  rw [run_append, run_cons, run_nil] at h ⊢
  have hregular : (run limit empty ts).Regular := by
    apply regular_of_run hinit
    intro p reason hreject
    apply h p reason
    rw [hreject]
    rfl
  refine ⟨hregular, ?_⟩
  rcases step_follows limit t hregular with ⟨hdrop, hstep | hstep⟩ |
    ⟨_, ⟨p, reason, hstep⟩ | ⟨hend, _⟩ | ⟨_, _, hlayout, hyield⟩⟩
  · exact .inl ⟨hdrop, hstep⟩
  · exact absurd hstep (h _ _)
  · exact absurd hstep (h p reason)
  · exact absurd hend (hts t (by simp))
  · exact .inr ⟨hlayout, hyield⟩

theorem not_reject_of_atEnd {a b : Assembly} (h : a.atEnd limit p = b)
    (hb : ∀ q reason, b ≠ reject q reason) : ∀ q reason, a ≠ reject q reason := by
  rintro q reason rfl
  exact hb q reason h.symm

/-- An argument list opens behind a name, and up to the name nothing is wrong. -/
theorem atEnd_ne_malformed_of_argument {a : Assembly} {name : String} {q l : Place}
    (ht : t.kind = .symbol .leftParen) (h : step limit a t = .inside ctx (.argument name q l))
    (line column : Nat) (reason : Reason) :
    a.atEnd limit p ≠ .stopped (.malformed line column reason) := by
  -- Only behind a name does a parenthesis open an argument list; elsewhere it opens a group.
  have hstart : ∀ ctx', start limit ctx' t ≠ .inside ctx (.argument name q l) := by
    intro ctx'
    rw [start, ht]
    split <;> simp [reject]
  have hstatement : ∀ ctx', startStatement limit ctx' t ≠ .inside ctx (.argument name q l) := by
    intro ctx'
    rw [startStatement, ht]
    split
    · simp [reject]
    · exact hstart ctx'
  cases a with
  | between lead =>
    rw [step, startLine, ht] at h
    exact absurd h (hstatement _)
  | accepted q => simp [atEnd]
  | stopped stop => simp [step] at h
  | inside ctx' mode =>
    cases mode with
    | statement => exact absurd h (hstatement _)
    | target name' q' =>
      rw [step, afterTarget, ht] at h
      dsimp only at h
      split at h
      · simp [reject] at h
      · rename_i hroom
        rw [atEnd, if_neg hroom]
        exact Context.atEnd_ne_malformed _ _
    | operand =>
      rw [step, if_neg (by simp [ht, Kind.isNewline])] at h
      exact absurd h (hstart _)
    | argument name' q' l' =>
      rw [step, startArguments, ht] at h
      exact absurd h (hstart _)
    | row l' lead =>
      rw [step, startRow.eq_def, ht] at h
      exact absurd h (hstart _)
    | name name' q' => exact Context.atEnd_ne_malformed _ _
    | value x => exact Context.atEnd_ne_malformed _ _

theorem endsInCall_of_run {e : Token} {name : String} {q l : Place}
    (hts : ∀ t ∈ ts, t.kind ≠ .endOfInput) (he : e.kind = .endOfInput)
    (h : run maxNesting empty ts = .inside ctx (.argument name q l)) : EndsInCall (ts ++ [e]) := by
  -- From the end back over dropped newlines, up to the parenthesis.
  induction ts using List.reverseRecOn with
  | nil => contradiction
  | append_singleton ts t ih =>
    have hinit : ∀ u ∈ ts, u.kind ≠ .endOfInput := fun u hu => hts u (List.mem_append_left _ hu)
    obtain ⟨hregular, ⟨hdrop, hsame⟩ | ⟨_, hyield⟩⟩ :=
      run_concat_cases hts (by rw [h]; simp [reject])
    · obtain ⟨before, gap, callee, l', e', name', hsplit, hfine, hlast, hcallee, hl, hgap⟩ :=
        ih hinit (hsame ▸ h)
      obtain ⟨hts', he'⟩ := List.append_inj' hsplit rfl
      obtain rfl : e = e' := by simpa using he'
      refine ⟨before, gap ++ [t], callee, l', e, name', by simp [hts'], hfine, hlast, hcallee, hl,
        ?_⟩
      intro u hu
      rcases List.mem_append.mp hu with hu | hu
      · exact hgap u hu
      · rw [List.mem_singleton.mp hu]
        exact (Bool.and_eq_true_iff.mp hdrop).1
    · rw [h, Assembly.yield, Mode.yield, ← List.singleton_append, ← List.append_assoc] at hyield
      obtain ⟨hname, hparen⟩ := List.append_inj' hyield rfl
      obtain rfl : l.mark .leftParen = t := by simpa using hparen
      rcases run_spells maxNesting (a := empty) trivial hinit with ⟨_, _, hreject⟩ | ⟨_, hspelled⟩
      · rw [hreject] at hregular
        exact hregular.elim
      rw [run_append, run_cons, run_nil] at h
      refine ⟨ts, [], q.token (.name name), l.mark .leftParen, e, name, by simp, ?_, ?_, rfl, rfl,
        by simp⟩
      · intro line column reason hmalformed
        rw [parseProgram_append hinit he, outcome_eq_malformed] at hmalformed
        exact atEnd_ne_malformed_of_argument rfl h line column reason hmalformed
      · have hsignificant : significant .initial ts = ctx.yield ++ [q.token (.name name)] := by
          rw [hname, hspelled]
          rfl
        rw [hsignificant, List.getLast?_concat]

theorem standing_of_name {callee : Token} {name : String}
    (hts : ∀ u ∈ ts, u.kind ≠ .endOfInput) (h : ∀ p reason, run limit empty ts ≠ reject p reason)
    (hlast : (run limit empty ts).yield.getLast? = some callee)
    (hcallee : callee.kind = .name name) :
    (run limit empty ts).layout.standing = .ended := by
  induction ts using List.reverseRecOn with
  | nil => simp [empty, Assembly.yield, Lead.yield, Gap.yield] at hlast
  | append_singleton ts t ih =>
    have hinit : ∀ u ∈ ts, u.kind ≠ .endOfInput := fun u hu => hts u (List.mem_append_left _ hu)
    obtain ⟨hregular, ⟨_, hsame⟩ | ⟨hlayout, hyield⟩⟩ := run_concat_cases hts h
    · rw [hsame] at h hlast ⊢
      exact ih hinit h hlast
    · rw [hyield, List.getLast?_concat, Option.some.injEq] at hlast
      rw [hlayout, hlast, hcallee]
      rfl

/-- Behind an operand that is no name an opening parenthesis is out of place, on every level. -/
theorem afterIndexed_leftParen (ctx : Context) (x : Phrase .indexed)
    (ht : t.kind = .symbol .leftParen) :
    ∃ reason, afterIndexed ctx x t = reject t.place reason ∧ reason ≠ .tooDeep := by
  have hclose : ∀ e, ∃ reason, close ctx e t = reject t.place reason ∧ reason ≠ .tooDeep := by
    intro e
    obtain ⟨lead, targets, groups, level⟩ := ctx
    cases groups with
    | nil => simp [close, endStatement, finish, terminate, ht, Reader.trailingReason?, reject]
    | cons g outer =>
      rcases g with ⟨g, outside⟩
      cases g with
      | index target l first =>
        cases first <;>
          simp [close, endGroup, endIndex, closeWith, lacking, ht, Kind.isSymbol, Kind.isEnd,
            reject]
      | _ =>
        simp [close, endGroup, endArguments, endRow, closeRow, closeWith, lacking, ht,
          Kind.isSymbol, Kind.isEnd, reject]
  rw [afterIndexed_of_ne (by simp [ht]), afterBase_of_ne (by simp [ht]), afterUnary,
    afterTerm_of_none (by simp [ht, multiplicative?]),
    afterExpression_of_none (by simp [ht, additive?])]
  exact hclose _

theorem step_leftParen {a : Assembly} (ha : a.Regular) (hstanding : a.layout.standing = .ended)
    (hfine : ∀ line column reason, a.atEnd limit p ≠ .stopped (.malformed line column reason))
    (ht : t.kind = .symbol .leftParen) :
    (∃ ctx name q, step limit a t = .inside ctx (.argument name q t.place)) ∨
      ∃ reason, step limit a t = reject t.place reason ∧ reason ≠ .tooDeep := by
  cases a with
  | accepted q => exact ha.elim
  | stopped stop => exact ha.elim
  | between lead => simp [layout, Layout.initial] at hstanding
  | inside ctx mode =>
    cases mode with
    | statement => simp [layout, Mode.layout] at hstanding
    | operand => simp [layout, Mode.layout] at hstanding
    | argument name q l => simp [layout, Mode.layout] at hstanding
    | row l lead => simp [layout, Mode.layout] at hstanding
    | target name q =>
      have hroom : ¬limit ≤ ctx.used := by
        intro hfull
        apply hfine q.line q.column .tooDeep
        rw [atEnd, if_pos hfull]
        rfl
      refine .inl ⟨ctx, name, q, ?_⟩
      rw [step, afterTarget, ht]
      dsimp only
      rw [if_neg hroom, afterName, ht]
    | name name q =>
      refine .inl ⟨ctx, name, q, ?_⟩
      rw [step, if_neg (by simp [ht, Kind.isNewline]), afterName, ht]
    | value x =>
      refine .inr ?_
      rw [step, if_neg (by simp [ht, Kind.isNewline])]
      exact afterIndexed_leftParen ctx x ht

theorem run_argument_newlines {name : String} {q l : Place}
    (hts : ∀ t ∈ ts, t.kind.isNewline = true) :
    run limit (.inside ctx (.argument name q l)) ts = .inside ctx (.argument name q l) := by
  induction ts with
  | nil => rfl
  | cons t ts ih =>
    rw [run_cons, step_argument_newline (hts t List.mem_cons_self)]
    exact ih fun u hu => hts u (List.mem_cons_of_mem t hu)

theorem exists_argument_of_endsInCall {e : Token} {line column : Nat}
    (hts : ∀ t ∈ ts, t.kind ≠ .endOfInput) (he : e.kind = .endOfInput)
    (hcall : EndsInCall (ts ++ [e]))
    (h : (run maxNesting empty ts).atEnd maxNesting e.place =
      .stopped (.malformed line column .tooDeep)) :
    ∃ ctx name q l, run maxNesting empty ts = .inside ctx (.argument name q l) := by
  obtain ⟨before, gap, callee, l, e', name, hsplit, hfine, hlast, hcallee, hl, hgap⟩ := hcall
  obtain ⟨rfl, he'⟩ := List.append_inj' hsplit rfl
  obtain rfl : e = e' := by simpa using he'
  have hbefore : ∀ t ∈ before, t.kind ≠ .endOfInput :=
    fun t ht => hts t (List.mem_append_left _ ht)
  have hread : ∀ line column reason, (run maxNesting empty before).atEnd maxNesting e.place ≠
      .stopped (.malformed line column reason) := by
    intro line column reason hstop
    apply hfine line column reason
    rw [parseProgram_append hbefore he, outcome_eq_malformed, hstop]
  have hgoes : ∀ p reason, run maxNesting empty before ≠ reject p reason :=
    not_reject_of_atEnd rfl fun q reason => hread q.line q.column reason
  rcases run_spells maxNesting (a := empty) trivial hbefore with ⟨_, _, hreject⟩ |
    ⟨hregular, hyield⟩
  · exact absurd hreject (hgoes _ _)
  have hstanding : (run maxNesting empty before).layout.standing = .ended := by
    apply standing_of_name hbefore hgoes ?_ hcallee
    rw [hyield]
    exact hlast
  rw [run_append, run_cons] at h ⊢
  rcases step_leftParen hregular hstanding hread hl with ⟨ctx, name', q, hstep⟩ |
    ⟨reason, hstep, hreason⟩
  · exact ⟨ctx, name', q, l.place, by rw [hstep, run_argument_newlines hgap]⟩
  · rw [hstep, reject, run_stopped] at h
    exact absurd (Stop.malformed.inj (Assembly.stopped.inj h)).2.2 hreason

theorem used_of_clear (h : ctx.Clear) : ctx.used = 1 + ctx.targets.length := by
  simp [Context.used, h.groups, h.level, Level.fresh]

/-- A statement on the level of the limit never becomes part of a program. -/
theorem statement_full {q : Phrase .program} (hfull : limit ≤ ctx.targets.length) :
    run limit (.inside ctx .statement) ts ≠ .accepted q := by
  cases ts with
  | nil => simp
  | cons t ts =>
    rw [run_cons, step, startStatement, if_pos hfull, reject, run_stopped]
    simp

theorem statement_blocked {q : Phrase .program} (hctx : ctx.Clear) (hfull : limit ≤ ctx.used) :
    run limit (.inside ctx .statement) ts ≠ .accepted q := by
  have hused := used_of_clear hctx
  have hstart : ∀ t us, run limit (start limit ctx t) us ≠ .accepted q := by
    intro t us
    rw [start_full hfull, reject, run_stopped]
    simp
  induction ts with
  | nil => simp
  | cons t ts ih =>
    rw [run_cons, step, startStatement]
    split
    · rw [reject, run_stopped]
      simp
    · split
      · exact ih
      · simp
      · -- behind a name an assignment takes the last level
        cases ts with
        | nil => simp
        | cons u us =>
          rw [run_cons, step, afterTarget]
          split
          · apply statement_full
            rw [Context.assignTo, List.length_cons]
            omega
          · rw [if_pos hfull, reject, run_stopped]
            simp
      · exact hstart t ts

theorem enclosures_of_atEnd {x : Phrase .indexed} {q : Phrase .program}
    (h : ctx.atEnd x = .accepted q) : ctx.enclosures = [] := by
  unfold Context.atEnd at h
  split at h
  · rename_i hgroups
    rw [Context.enclosures, hgroups, List.map_nil]
  · contradiction

/-- A program ends between statements, or behind an operand outside of all brackets. -/
theorem between_or_ended_of_atEnd {a : Assembly} {q : Phrase .program} (ha : a.Regular)
    (h : a.atEnd limit p = .accepted q) :
    (∃ lead, a = .between lead) ∨ a.layout = ⟨[], .ended⟩ := by
  cases a with
  | between lead => exact .inl ⟨lead, rfl⟩
  | accepted q => exact ha.elim
  | stopped stop => exact ha.elim
  | inside ctx mode =>
    refine .inr ?_
    cases mode with
    | statement => exact absurd h wanting_ne_accepted
    | operand => exact absurd h wanting_ne_accepted
    | argument name q' l => exact absurd h wanting_ne_accepted
    | row l lead =>
      cases lead with
      | initial gap => exact absurd h wanting_ne_accepted
      | following rows sep gap => contradiction
    | target name q' =>
      rw [atEnd] at h
      split at h
      · contradiction
      · rw [layout, Mode.layout, enclosures_of_atEnd h]
    | name name q' => rw [layout, Mode.layout, enclosures_of_atEnd h]
    | value x => rw [layout, Mode.layout, enclosures_of_atEnd h]

theorem exists_between {q : Phrase .program} (hts : ∀ u ∈ ts, u.kind ≠ .endOfInput)
    (hlast : ∀ u ∈ ts.getLast?, u.kind.isSeparator = true)
    (h : (run limit empty ts).atEnd limit p = .accepted q) :
    ∃ lead, run limit empty ts = .between lead := by
  have hgoes : ∀ p reason, run limit empty ts ≠ reject p reason :=
    not_reject_of_atEnd h (by simp [reject])
  refine (between_or_ended_of_atEnd (regular_of_run hts hgoes) h).resolve_right fun hended => ?_
  rcases ts.eq_nil_or_concat' with rfl | ⟨init, t, rfl⟩
  · simp [empty, layout, Layout.initial] at hended
  · have ht : t.kind.isSeparator = true := hlast t (by simp)
    obtain ⟨_, ⟨hdrop, hsame⟩ | ⟨hlayout, _⟩⟩ := run_concat_cases hts hgoes
    · rw [← hsame, hended] at hdrop
      simp [Layout.drops] at hdrop
    · rw [hended] at hlayout
      obtain ⟨s, rfl⟩ := Token.exists_separator ht
      cases s <;> simp [Separator.token, Place.token, Place.mark, Layout.next] at hlayout

theorem run_statement_newlines (limit : Nat) (ctx : Context)
    (hts : ∀ t ∈ ts, t.kind.isNewline = true) :
    run limit (.inside ctx .statement) ts = .inside ctx .statement ∨
      ∃ stop, run limit (.inside ctx .statement) ts = .stopped stop := by
  induction ts with
  | nil => exact .inl rfl
  | cons t ts ih =>
    rw [run_cons, step]
    have hstart : startStatement limit ctx t = .inside ctx .statement ∨
        startStatement limit ctx t = reject t.place .tooDeep :=
      startStatement_newline (hts t List.mem_cons_self)
    rcases hstart with h | h
    · rw [h]
      exact ih fun u hu => hts u (List.mem_cons_of_mem t hu)
    · exact .inr ⟨_, by rw [h, reject, run_stopped]⟩

theorem run_between_newlines (limit : Nat) (lead : Lead .statements)
    (hts : ∀ t ∈ ts, t.kind.isNewline = true) :
    ∃ lead', run limit (.between lead) ts = .between lead' := by
  induction ts generalizing lead with
  | nil => exact ⟨lead, rfl⟩
  | cons t ts ih =>
    rw [run_cons, step, startLine, isNewline_iff.mp (hts t List.mem_cons_self)]
    exact ih _ fun u hu => hts u (List.mem_cons_of_mem t hu)

/-- A newline between a name and what would assign to it ends the statement. -/
theorem run_target_newline (limit : Nat) (hctx : ctx.Clear) (name : String) (q : Place)
    {equals : Token}
    (ht : t.kind.isNewline = true) (hts : ∀ t ∈ ts, t.kind.isNewline = true)
    (hequals : equals.kind = .symbol .assign) :
    ∃ stop, run limit (.inside ctx (.target name q)) (t :: ts ++ [equals]) = .stopped stop := by
  have hkind := isNewline_iff.mp ht
  rw [List.cons_append, run_cons, step, afterTarget, hkind]
  dsimp only
  split
  · exact ⟨_, by rw [reject, run_stopped]⟩
  · rw [afterName_of_ne (by simp [hkind]), afterIndexed_eq_close _ _ (by simp [hkind]),
      close_newline hctx.groups _ hkind, run_append]
    obtain ⟨lead, hlead⟩ := run_between_newlines limit
      (.following (ctx.closeStatement (.bare (ctx.level.complete (.ofPrimary (.ident name q)))))
        (.newline t.place) []) hts
    rw [hlead, run_cons, run_nil, step, startLine, hequals]
    dsimp only
    rw [startStatement, hequals]
    split
    · exact ⟨_, rfl⟩
    · dsimp only
      rw [start, hequals]
      split <;> exact ⟨_, rfl⟩

/-- Targets of assignments, newlines aside, leave a statement wanting behind all of them. -/
theorem run_targets (limit : Nat) (hctx : ctx.Clear) (names : List String)
    (hts : (ts.filter fun t => !t.kind.isNewline).map Token.kind =
      names.flatMap fun name => [.name name, .symbol .assign]) :
    (∃ ctx', run limit (.inside ctx .statement) ts = .inside ctx' .statement ∧ ctx'.Clear ∧
        ctx'.targets.length = ctx.targets.length + names.length) ∨
      ∃ stop, run limit (.inside ctx .statement) ts = .stopped stop := by
  induction names generalizing ctx ts with
  | nil =>
    rw [List.flatMap_nil, List.map_eq_nil_iff, List.filter_eq_nil_iff] at hts
    rcases run_statement_newlines limit ctx (fun t ht => by simpa using hts t ht) with hrun | hstop
    · exact .inl ⟨ctx, hrun, hctx, rfl⟩
    · exact .inr hstop
  | cons name names ih =>
    rw [List.flatMap_cons] at hts
    obtain ⟨t, more, hfilter, ht, hmore⟩ := List.map_eq_cons_iff.mp hts
    obtain ⟨gap, later, rfl, hgap, _, hlater⟩ := List.filter_eq_cons_iff.mp hfilter
    rw [← hlater] at hmore
    obtain ⟨equals, rest, hfilter', hequals, hrest⟩ := List.map_eq_cons_iff.mp hmore
    obtain ⟨gap', later', rfl, hgap', _, rfl⟩ := List.filter_eq_cons_iff.mp hfilter'
    have hnewlines : ∀ t ∈ gap, t.kind.isNewline = true := fun t ht => by simpa using hgap t ht
    rcases (run_statement_newlines limit ctx hnewlines).symm with ⟨stop, hstop⟩ | hrun
    · exact .inr ⟨stop, by rw [run_append, hstop, run_stopped]⟩
    rw [run_append, hrun, run_cons, step, startStatement]
    split
    · exact .inr ⟨_, by rw [reject, run_stopped]⟩
    rw [ht]
    dsimp only
    cases gap' with
    | nil =>
      have hassign : step limit (.inside ctx (.target name t.place)) equals =
          .inside (ctx.assignTo ⟨name, t.place, equals.place⟩) .statement := by
        rw [step, afterTarget, hequals]
      have hclear : (ctx.assignTo ⟨name, t.place, equals.place⟩).Clear :=
        ⟨hctx.groups, hctx.level⟩
      rw [List.nil_append, run_cons, hassign]
      rcases ih hclear hrest
        with ⟨ctx', hrun', hclear', hlength⟩ | hstop
      · refine .inl ⟨ctx', hrun', hclear', ?_⟩
        rw [hlength, Context.assignTo, List.length_cons, List.length_cons]
        omega
      · exact .inr hstop
    | cons newline gap' =>
      have hbetween : ∀ u ∈ newline :: gap', u.kind.isNewline = true := by
        intro u hu
        simpa using hgap' u hu
      obtain ⟨stop, hstop⟩ := run_target_newline limit hctx name t.place
        (hbetween newline List.mem_cons_self)
        (fun u hu => hbetween u (List.mem_cons_of_mem newline hu)) hequals
      rw [List.append_cons, run_append, hstop]
      exact .inr ⟨stop, run_stopped⟩

theorem exists_run_start (limit : Nat) (lead : Lead .statements) {name : String}
    {names : List String} (hts : (ts.filter fun t => !t.kind.isNewline).map Token.kind =
      (name :: names).flatMap fun name => [.name name, .symbol .assign]) :
    ∃ lead' us, run limit (.between lead) ts =
      run limit (.inside (.start lead') .statement) us ∧
      (us.filter fun t => !t.kind.isNewline).map Token.kind =
        (name :: names).flatMap fun name => [.name name, .symbol .assign] := by
  rw [List.flatMap_cons] at hts
  obtain ⟨t, more, hfilter, ht, hmore⟩ := List.map_eq_cons_iff.mp hts
  obtain ⟨gap, later, rfl, hgap, hkeep, hlater⟩ := List.filter_eq_cons_iff.mp hfilter
  obtain ⟨lead', hlead⟩ := run_between_newlines limit lead
    (fun t ht => by simpa using hgap t ht)
  refine ⟨lead', t :: later, ?_, ?_⟩
  · rw [run_append, hlead, run_cons, run_cons, step, startLine, ht]
    rfl
  · rw [List.filter_cons, if_pos hkeep, hlater, List.map_cons, ht, hmore]
    rfl

theorem exists_statement_of_endsInTargets {e : Token} {count : Nat} (hcount : 0 < count)
    (hts : ∀ t ∈ ts, t.kind ≠ .endOfInput) (he : e.kind = .endOfInput)
    (htargets : EndsInTargets count (ts ++ [e])) :
    (∃ ctx, run maxNesting empty ts = .inside ctx .statement ∧ ctx.Clear ∧
      ctx.targets.length = count) ∨ ∃ stop, run maxNesting empty ts = .stopped stop := by
  obtain ⟨before, chain, e', nodes, names, hsplit, hcomplete, hlast, hnames, hchain⟩ := htargets
  obtain ⟨rfl, he'⟩ := List.append_inj' hsplit rfl
  obtain rfl : e = e' := by simpa using he'
  have hbefore : ∀ t ∈ before, t.kind ≠ .endOfInput :=
    fun t ht => hts t (List.mem_append_left _ ht)
  rw [parseProgram_append hbefore he] at hcomplete
  obtain ⟨q, hq, _, _⟩ := outcome_eq_complete hcomplete
  obtain ⟨lead, hlead⟩ := exists_between hbefore hlast hq
  cases names with
  | nil =>
    rw [List.length_nil] at hnames
    omega
  | cons name names =>
    obtain ⟨lead', us, hrun, hus⟩ := exists_run_start maxNesting lead hchain
    rw [run_append, hlead, hrun]
    rcases run_targets maxNesting (Context.clear_start lead') (name :: names) hus with
      ⟨ctx, hctx, hclear, hlength⟩ | hstop
    · exact .inl ⟨ctx, hctx, hclear, by rw [hlength, hnames]; exact Nat.zero_add count⟩
    · exact .inr hstop

end Assembly

section Texts

variable {s : String} {ts : List Token} {l c : Nat}
  (happend : ∀ t, tokenize (s ++ "\n" ++ t) =
    ts ++ ⟨.newline, l, c⟩ :: (tokenize t).map (Token.lower l))
include happend

theorem completable_of_finishes {kinds : List Kind} (hkinds : Written kinds)
    (h : (step maxNesting (run maxNesting empty ts) ⟨.newline, l, c⟩).Finishes maxNesting kinds) :
    Completable s := by
  obtain ⟨t, ht⟩ := hkinds
  obtain ⟨p, hp⟩ := h ((tokenize t).map (Token.lower l)) (by rw [List.map_map, ← ht]; rfl)
  refine ⟨t, p.tree, [], ?_⟩
  rw [parse_eq, happend, run_append, run_cons, hp]
  rfl

theorem exists_accepted_of_completable (h : Completable s) :
    ∃ us q, run maxNesting (run maxNesting empty ts) (⟨.newline, l, c⟩ :: us) = .accepted q := by
  obtain ⟨t, nodes, rest, ht⟩ := h
  rw [parse_eq, happend, run_append] at ht
  obtain ⟨q, hq, _, _⟩ := outcome_eq_complete ht
  exact ⟨_, q, hq⟩

end Texts

/-- A text that is nested too deeply can be completed where it ends in the opening of a call. -/
theorem completable_iff_of_tooDeep {s : String} {line column : Nat}
    (h : parse s = .malformed line column .tooDeep) :
    Completable s ↔ EndsInCall (tokenize s) := by
  obtain ⟨ts, l, c, hts, hs, happend⟩ := exists_tokenize s
  rw [parse, hs, parseProgram_append hts rfl, outcome_eq_malformed] at h
  rw [hs]
  constructor
  · intro hcompletable
    obtain ⟨us, q, hq⟩ := exists_accepted_of_completable happend hcompletable
    have hregular : (run maxNesting empty ts).Regular := by
      apply regular_of_run hts
      intro p reason hreject
      rw [hreject, reject, run_stopped] at hq
      contradiction
    obtain ⟨ctx, name, p, l', hrun, _⟩ := exists_argument_of_malformed hregular h rfl hq
    exact endsInCall_of_run hts rfl hrun
  · intro hcall
    obtain ⟨ctx, name, p, l', hrun⟩ := exists_argument_of_endsInCall hts rfl hcall h
    apply completable_of_finishes happend (written_symbols (.rightParen :: ctx.closers))
    rw [hrun, step_argument_newline rfl]
    exact argument_finishes ctx name p l'

/-- A text that lacks input can be completed unless it ends in targets that take every level but
one. -/
theorem completable_iff_of_incomplete {s : String} (h : parse s = .incomplete) :
    Completable s ↔ ¬EndsInTargets 31 (tokenize s) := by
  obtain ⟨ts, l, c, hts, hs, happend⟩ := exists_tokenize s
  rw [parse, hs, parseProgram_append hts rfl] at h
  have hlacks := atEnd_eq_incomplete h
  have hregular : (run maxNesting empty ts).Regular :=
    regular_of_run hts (not_reject_of_atEnd hlacks (by simp [reject]))
  rw [hs]
  constructor
  · intro hcompletable htargets
    obtain ⟨us, q, hq⟩ := exists_accepted_of_completable happend hcompletable
    rcases exists_statement_of_endsInTargets (by decide) hts rfl htargets with
      ⟨ctx, hrun, hctx, hlength⟩ | ⟨stop, hstop⟩
    · rw [hrun] at hq
      refine statement_blocked hctx ?_ hq
      rw [used_of_clear hctx, hlength]
      rfl
    · rw [hstop] at hregular
      exact hregular.elim
  · intro htargets
    have hroom : ∀ ctx, run maxNesting empty ts = .inside ctx .statement →
        ctx.used < maxNesting := by
      intro ctx hrun
      have hends := endsInTargets_of_run (e := ⟨.endOfInput, l, c⟩) hts rfl hrun
      rw [hrun] at hregular hlacks
      have hlevel : ctx.targets.length < maxNesting := wanting_eq_incomplete hlacks
      have hcount : ctx.targets.length ≠ 31 := fun hcount => htargets (hcount ▸ hends)
      rw [used_of_clear hregular]
      unfold maxNesting at hlevel ⊢
      omega
    obtain ⟨kinds, hkinds, hfinishes⟩ :=
      exists_finishes (t := ⟨.newline, l, c⟩) hregular hlacks rfl hroom
    exact completable_of_finishes happend hkinds hfinishes

/-- At the limit of nesting a verdict is wrong in two places and nowhere else. A text that is nested
too deeply cannot be mended, unless it ends in the opening of a call that may still close; a text
that lacks input can be completed, unless it ends in 31 targets of assignments. -/
theorem completable_iff_of_verdict (s : String) :
    (∀ line column, parse s = .malformed line column .tooDeep →
      (Completable s ↔ EndsInCall (tokenize s))) ∧
    (parse s = .incomplete → (Completable s ↔ ¬EndsInTargets 31 (tokenize s))) :=
  ⟨fun _ _ h => completable_iff_of_tooDeep h, completable_iff_of_incomplete⟩

theorem completable_iff_of_verdict_signs :
    parse "------------------------------f(" = .malformed 1 33 .tooDeep ∧
      EndsInCall (tokenize "------------------------------f(") := by
  have hdeep : parse "------------------------------f(" = .malformed 1 33 .tooDeep := by
    rw [parse_eq]
    cbv
  refine ⟨hdeep, ((completable_iff_of_verdict _).1 1 33 hdeep).mp ?_⟩
  refine ⟨")", [(Node.neg · 1)^[30] (.call "f" [] 1)], [], ?_⟩
  rw [parse_eq]
  cbv

/-- A closing parenthesis mends what is said to be past mending, and nothing completes what is said
to lack input. -/
theorem verdict_wrong_at_limit :
    (parse "------------------------------f(" = .malformed 1 33 .tooDeep ∧
      parse ("------------------------------f(" ++ "\n" ++ ")") =
        .complete [(Node.neg · 1)^[30] (.call "f" [] 1)] []) ∧
    parse "a=a=a=a=a=a=a=a=a=a=a=a=a=a=a=a=a=a=a=a=a=a=a=a=a=a=a=a=a=a=a=" = .incomplete ∧
      ¬Completable "a=a=a=a=a=a=a=a=a=a=a=a=a=a=a=a=a=a=a=a=a=a=a=a=a=a=a=a=a=a=a=" := by
  have hlacks : parse "a=a=a=a=a=a=a=a=a=a=a=a=a=a=a=a=a=a=a=a=a=a=a=a=a=a=a=a=a=a=a=" =
      .incomplete := by
    rw [parse_eq]
    cbv
  refine ⟨⟨?_, ?_⟩, hlacks, ?_⟩
  · rw [parse_eq]
    cbv
  · rw [parse_eq]
    cbv
  · rw [completable_iff_of_incomplete hlacks, not_not]
    exact ⟨[], (tokenize "a=a=a=a=a=a=a=a=a=a=a=a=a=a=a=a=a=a=a=a=a=a=a=a=a=a=a=a=a=a=a=").dropLast,
      ⟨.endOfInput, 1, 63⟩, [], List.replicate 31 "a", by cbv, by cbv, by simp, by simp, by cbv⟩

end MatrixCalculator
