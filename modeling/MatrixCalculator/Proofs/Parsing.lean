import MatrixCalculator.Proofs.Operands

namespace MatrixCalculator

open Assembly

namespace Assembly

variable {limit : Nat} {ctx : Context}

theorem run_target (hgroups : ctx.groups = []) {t u : Token} {ts : List Token} {name : String}
    (ht : t.kind = .name name) (hu : u.kind ≠ .symbol .assign) :
    run limit (.inside ctx (.target name t.place)) (u :: ts) =
      run limit (start limit ctx t) (u :: ts) := by
  have hround : ctx.isRound = false := by simp [Context.isRound, Context.enclosures, hgroups]
  have htarget : afterTarget limit ctx name t.place u =
      if limit ≤ ctx.used then reject t.place .tooDeep else afterName ctx name t.place u := by
    unfold afterTarget
    split
    · contradiction
    · rfl
  rw [run_cons, run_cons, step, htarget, start, ht]
  split
  · rfl
  · simp [step, hround]

theorem run_startStatement (hgroups : ctx.groups = []) (hroom : ctx.targets.length < limit)
    {t u : Token} {ts : List Token} (hnewline : t.kind.isNewline = false)
    (hend : t.kind ≠ .endOfInput)
    (hassign : ¬∃ name, t.kind = .name name ∧ u.kind = .symbol .assign) :
    run limit (startStatement limit ctx t) (u :: ts) = run limit (start limit ctx t) (u :: ts) := by
  rw [startStatement, if_neg (by omega)]
  split
  · simp_all [Kind.isNewline]
  · contradiction
  · rename_i name ht
    exact run_target hgroups ht fun hu => hassign ⟨name, ht, hu⟩
  · rfl

/-- Newlines before a statement make no difference as long as a level is left. -/
theorem meet_startStatement_skip (hroom : ctx.targets.length < limit) {ts : List Token}
    (hts : Ended ts) : meet limit (startStatement limit ctx) ts =
      meet limit (startStatement limit ctx) (ts.dropWhile fun t => t.kind.isNewline) := by
  have hmeet : ∀ us, Ended us →
      meet limit (startStatement limit ctx) us = run limit (.inside ctx .statement) us := by
    intro us hus
    obtain ⟨u, us, rfl⟩ := hus.exists_cons
    rfl
  rw [hmeet ts hts, hmeet _ (hts.dropWhile rfl), run_dropWhile]
  intro t ht
  rw [step, startStatement, if_neg (by omega)]
  cases hk : t.kind <;> simp_all [Kind.isNewline]

end Assembly

def ReadsStatement (limit n : Nat) (r : Reader Node) : Prop :=
  ∀ (ctx : Context) (c : Cursor), ctx.targets.length + n = limit → ctx.groups = [] →
    ctx.level = .fresh → c.enclosures = [] → Ended c.rest →
    Reads limit r c c c.rest.length (meet limit (startStatement limit ctx) c.rest) Phrase.tree
      (finish ctx)

namespace Reader

variable {limit n : Nat} {ctx : Context} {c : Cursor}

theorem bare_reads (hn : ctx.used + n = limit) (hgroups : ctx.groups = [])
    (hlevel : ctx.level = .fresh) (hc : c.enclosures = []) (hended : Ended c.rest) :
    Reads limit (do
        let node ← expression (unary n)
        if (← current).kind.isSymbol .assign then reject .badTarget
        return node) c c c.rest.length (meet limit (start limit ctx) c.rest) Phrase.tree
      (finish ctx) := by
  have hes : c.enclosures = ctx.enclosures := by simp [hc, Context.enclosures, hgroups]
  have hready : c.Ready := ⟨hended, by simp [hc, settle]⟩
  refine (expression_reads (unary_reads limit n) ctx c hn hlevel hes hready).bind
    fun e ts hts hready' => ?_
  obtain ⟨t, ts, rfl⟩ := hready'.ended.exists_cons
  refine .after (current_eq rfl) ?_
  rw [meet_cons, close_of_groups hgroups]
  by_cases ht : t.kind = .symbol .assign
  · dsimp only
    rw [if_pos (isSymbol_iff.mpr ht)]
    refine .stop (bind_error (reject_eq rfl _)) (by simp [Stop.Sound]) ?_
    simp only [endStatement, ht]
    exact run_stopped
  · dsimp only
    rw [if_neg (by simpa [isSymbol_iff] using ht), endStatement_of_ne ht]
    exact .ok (.bare e) (t :: ts) rfl hts hready' rfl

theorem assign_reads (hs : ReadsStatement limit n (statement n)) (name : String) {t u : Token}
    {ts : List Token} (hn : ctx.targets.length + 1 + n = limit) (hgroups : ctx.groups = [])
    (hlevel : ctx.level = .fresh) (hc : c.enclosures = []) (h : c.rest = t :: u :: ts)
    (hu : u.kind = .symbol .assign) (hended : Ended (u :: ts)) :
    Reads limit (do
        advance
        discard (eat .assign)
        return .assign name (← statement n) t.line) c c c.rest.length
      (run limit (.inside (ctx.assignTo ⟨name, t.place, u.place⟩) .statement) ts) Phrase.tree
      (finish ctx) := by
  have hts : Ended ts := hended.tail (by simp [hu])
  have hsettle : ∀ us, settle c.enclosures us = us := fun us => by simp [hc, settle]
  have hlt : ts.length < c.rest.length := by
    simp only [h, List.length_cons]
    omega
  have hadvance := advance_eq h hended
  have heat := eat_eq (c := c.moveTo (u :: ts)) rfl hts hu
  rw [hsettle] at hadvance
  rw [Cursor.enclosures_moveTo, hsettle, Cursor.moveTo_moveTo (by simp [h]) (by simp)] at heat
  have hvalue := hs (ctx.assignTo ⟨name, t.place, u.place⟩) (c.moveTo ts) hn hgroups hlevel hc hts
  have hmeet : meet limit (startStatement limit (ctx.assignTo ⟨name, t.place, u.place⟩)) ts =
      run limit (.inside (ctx.assignTo ⟨name, t.place, u.place⟩) .statement) ts := by
    obtain ⟨v, vs, rfl⟩ := hts.exists_cons
    rfl
  rw [Cursor.rest_moveTo, hmeet] at hvalue
  refine .after hadvance (.after (discard_ok heat) (hvalue.bind fun s us hus hready => ?_))
  rw [Cursor.moveTo_moveTo hlt.le hus.le] at hready ⊢
  exact .ok (.assign name t.place u.place s) us rfl (hus.trans hlt) hready rfl

theorem statement_reads (limit n : Nat) : ReadsStatement limit n (statement n) := by
  induction n with
  | zero =>
    intro ctx c hn _ _ _ hended
    obtain ⟨t, ts, h⟩ := hended.exists_cons
    refine Reads.nested (.stop (reject_eq (c := c.deeper) h _) (by simp [Stop.Sound]) ?_)
    rw [h, meet_cons, startStatement, if_pos (by omega), Assembly.reject, run_stopped]
    rfl
  | succ n ih =>
    intro ctx c hn hgroups hlevel hc hended
    have hroom : ctx.targets.length < limit := by omega
    obtain ⟨t, ts, h, hnot, hdrop, hdroplen⟩ := hended.exists_dropWhile (p := Kind.isNewline) rfl
    refine Reads.nested ?_
    rw [meet_startStatement_skip hroom hended, h, meet_cons]
    by_cases hend : t.kind = .endOfInput
    · refine .stop (bind_error (expectOperand_error (c := c.deeper) hended h hend))
        (by simp [Stop.Sound]) ?_
      rw [startStatement, if_neg (by omega), hend, run_stopped]
    · obtain ⟨u, us, rfl⟩ := (hdrop.tail hend).exists_cons
      let d := c.deeper.moveTo (t :: u :: us)
      have hpeek : d.peek? 1 = some u := by simp [d, Cursor.peek?]
      have hget : (get : Reader Cursor) d = .ok d d := rfl
      refine .after (expectOperand_eq (c := c.deeper) hended h hend) (.after (current_eq rfl)
        (.after hget ?_))
      rw [hpeek]
      dsimp only
      -- The reader looks one token ahead; the assembly keeps the name and decides at that token.
      by_cases hassign : ∃ name, t.kind = .name name ∧ u.kind = .symbol .assign
      · obtain ⟨name, ht, hu⟩ := hassign
        have hstart : startStatement limit ctx t = .inside ctx (.target name t.place) := by
          rw [startStatement, if_neg (by omega), ht]
        have htarget : step limit (.inside ctx (.target name t.place)) u =
            .inside (ctx.assignTo ⟨name, t.place, u.place⟩) .statement := by
          simp [step, afterTarget, hu]
        rw [hstart, run_cons, htarget, ht, isSymbol_iff.mpr hu]
        have hassigned := assign_reads (c := d) ih name (by omega) hgroups hlevel hc rfl hu
          (hdrop.tail hend)
        exact hassigned.rebase hdroplen (Nat.le_succ _) hdroplen
      · have hused : ctx.used + n = limit := by
          simp only [Context.used, hgroups, hlevel, Level.fresh, List.map_nil, List.sum_nil,
            List.length_nil]
          omega
        rw [run_startStatement hgroups hroom hnot hend hassign]
        split
        · rename_i name ht hu
          exact absurd ⟨name, ht, isSymbol_iff.mp hu⟩ hassign
        · have hbare := bare_reads (c := d) hused hgroups hlevel hc hdrop
          exact hbare.rebase hdroplen (Nat.le_succ _) hdroplen

/-- A statement with its end: nothing but a separator or the end of input may follow. -/
theorem terminatedStatement_reads (lead : Lead .statements) (hc : c.enclosures = [])
    (hended : Ended c.rest) :
    (∃ (s : Phrase .statement) (t : Token) (ts : List Token),
      terminatedStatement c = .ok s.tree (c.moveTo (t :: ts)) ∧ (t :: ts).length < c.rest.length ∧
      Ended (t :: ts) ∧ trailingReason? t.kind = none ∧
      meet maxNesting (startStatement maxNesting (.start lead)) c.rest =
        run maxNesting (finish (.start lead) s t) ts) ∨
    ∃ stop c', terminatedStatement c = .error stop c' ∧ stop.Sound ∧
      meet maxNesting (startStatement maxNesting (.start lead)) c.rest = .stopped stop := by
  have hstatement := statement_reads maxNesting maxNesting (.start lead) c (Nat.zero_add _) rfl
    rfl hc hended
  rcases hstatement with ⟨s, ts, hr, hlen, hready, hout⟩ | ⟨stop, c', hr, hs, hout⟩
  · obtain ⟨t, ts, rfl⟩ := hready.ended.exists_cons
    cases hk : trailingReason? t.kind with
    | none =>
      have hterminator : expectTerminator (c.moveTo (t :: ts)) = .ok () (c.moveTo (t :: ts)) := by
        rw [expectTerminator, bind_ok (current_eq rfl), hk]
        rfl
      refine .inl ⟨s, t, ts, ?_, hlen, hready.ended, hk, hout⟩
      rw [terminatedStatement, bind_ok hr, bind_ok hterminator]
      rfl
    | some reason =>
      refine .inr
        ⟨.malformed t.line t.column reason, c.moveTo (t :: ts), ?_, by simp [Stop.Sound], ?_⟩
      · rw [terminatedStatement, bind_ok hr, expectTerminator]
        refine bind_error ?_
        rw [bind_ok (current_eq rfl), hk]
        exact reject_eq rfl reason
      · rw [hout, meet_cons, finish_of_some _ s hk]
        exact run_stopped
  · exact .inr ⟨stop, c', bind_error hr, hs, hout⟩

end Reader

namespace Lead

def statementTrees : Lead .statements → List Node
  | .initial _ => []
  | .following before _ _ => before.tree

theorem tree_statement (lead : Lead .statements) (s : Phrase .statement) :
    (lead.statement s).tree = lead.statementTrees ++ [s.tree] := by
  cases lead <;> rfl

theorem tree_program (lead : Lead .statements) : lead.program.tree = lead.statementTrees := by
  cases lead <;> rfl

theorem statementTrees_add (lead : Lead .statements) (s : Separator) :
    (lead.add s).statementTrees = lead.statementTrees := by
  cases lead <;> rfl

theorem statementTrees_extend (lead : Lead .statements) (gap : Gap) :
    (lead.extend gap).statementTrees = lead.statementTrees := by
  cases lead <;> rfl

end Lead

namespace Assembly

/-- What an assembly at the end of input comes to. -/
def outcome : Assembly → Outcome (List Node)
  | .accepted p => .complete p.tree []
  | .stopped (.malformed line column reason) => .malformed line column reason
  | .stopped (.broken b) => .broken b
  | _ => .incomplete

theorem step_between {limit : Nat} {lead : Lead .statements} {t : Token}
    (hsep : t.kind.isSeparator = false) (hend : t.kind ≠ .endOfInput) :
    step limit (.between lead) t = startStatement limit (.start lead) t := by
  rw [step, startLine]
  split
  · simp_all [Kind.isSeparator]
  · simp_all [Kind.isSeparator]
  · contradiction
  · rfl

/-- The tokens stand behind statements that denote `nodes`, and `out` is what becomes of them. -/
def Awaits (out : Assembly) (nodes : List Node) (ts : List Token) : Prop :=
  ∃ t us, ts.dropWhile (fun t => t.kind.isSeparator) = t :: us ∧
    ((t.kind = .endOfInput ∧ ∃ p : Phrase .program, p.tree = nodes ∧ out = .accepted p) ∨
      (t.kind ≠ .endOfInput ∧ ∃ lead : Lead .statements, lead.statementTrees = nodes ∧
        out = run maxNesting (startStatement maxNesting (.start lead) t) us))

theorem awaits_between (lead : Lead .statements) {ts : List Token} (hts : Ended ts) :
    Awaits (run maxNesting (.between lead) ts) lead.statementTrees ts := by
  obtain ⟨gap, hrun⟩ := run_skip (step_between_separator maxNesting) lead ts
  obtain ⟨t, us, h, hnot, _⟩ := hts.exists_dropWhile (p := Kind.isSeparator) rfl
  rw [h, run_cons] at hrun
  refine ⟨t, us, h, ?_⟩
  by_cases hend : t.kind = .endOfInput
  · refine .inl ⟨hend, (lead.extend gap).program,
      by rw [Lead.tree_program, Lead.statementTrees_extend], ?_⟩
    rw [hrun, step, startLine, hend]
    exact run_accepted
  · exact .inr ⟨hend, lead.extend gap, Lead.statementTrees_extend lead gap,
      by rw [hrun, step_between hnot hend]⟩

theorem awaits_finish (lead : Lead .statements) (s : Phrase .statement) {t : Token}
    {ts : List Token} (hts : Ended (t :: ts)) (ht : Reader.trailingReason? t.kind = none) :
    Awaits (run maxNesting (finish (.start lead) s t) ts) (lead.statementTrees ++ [s.tree])
      (t :: ts) := by
  have htree : ((Context.start lead).closeStatement s).tree = lead.statementTrees ++ [s.tree] :=
    Lead.tree_statement lead s
  rw [← htree]
  by_cases hend : t.kind = .endOfInput
  · refine ⟨t, ts, by simp [hend, Kind.isSeparator], .inl ⟨hend,
      .full ((Context.start lead).closeStatement s) [], rfl, ?_⟩⟩
    rw [finish, terminate, hend]
    exact run_accepted
  · have hsep : t.kind.isSeparator = true ∧ ∃ sep : Separator, finish (.start lead) s t =
        .between (.following ((Context.start lead).closeStatement s) sep []) := by
      unfold Reader.trailingReason? at ht
      split at ht
      all_goals simp_all [finish, terminate, Kind.isSeparator]
    obtain ⟨hsep, sep, hfinish⟩ := hsep
    have hbetween := awaits_between
      (.following ((Context.start lead).closeStatement s) sep []) (hts.tail hend)
    rw [hfinish, Awaits, List.dropWhile_cons, if_pos hsep]
    exact hbetween

end Assembly

namespace Cursor

theorem programFrom_eq (fuel : Nat) {out : Assembly} {nodes : List Node} {c : Cursor}
    (hc : c.enclosures = []) (hended : Ended c.rest) (hout : out.Awaits nodes c.rest)
    (hfuel : c.rest.length ≤ fuel) : (programFrom fuel nodes.reverse c).1 = out.outcome := by
  -- One round takes at least one token, so the fuel lasts; `Awaits` holds before every round.
  induction fuel generalizing nodes c out with
  | zero =>
    obtain ⟨t, ts, h⟩ := hended.exists_cons
    simp [h] at hfuel
  | succ fuel ih =>
    obtain ⟨t, us, h, hcases⟩ := hout
    have hlen := (List.dropWhile_sublist (l := c.rest) fun t => t.kind.isSeparator).length_le
    have hus : Ended (t :: us) := h ▸ hended.dropWhile rfl
    have hskip : c.skipSeparators = .ok (c.moveTo (t :: us)) := by
      rw [skipSeparators, Reader.skipRun_eq rfl hended, h]
      rfl
    rw [h] at hlen
    rw [programFrom, hskip]
    rcases hcases with ⟨hend, p, htree, rfl⟩ | ⟨hend, lead, htrees, rfl⟩
    · simp [hend, Kind.isEnd, outcome, htree]
    · have hany : ((c.moveTo (t :: us)).rest.head?.any fun t => t.kind.isEnd) = false := by
        simpa [← Bool.not_eq_true, Reader.isEnd_iff] using hend
      dsimp only
      rw [hany, if_neg (by simp)]
      rcases Reader.terminatedStatement_reads (c := c.moveTo (t :: us)) lead hc hus with
        ⟨s, u, ts, hr, hts, hended', hu, hout⟩ | ⟨stop, c', hr, hs, hout⟩
      · have hstatement : (c.moveTo (t :: us)).statement =
            (.complete s.tree (u :: ts), c.moveTo (u :: ts)) := by
          rw [statement, hr, moveTo_moveTo hlen hts.le]
          rfl
        have hawaits := awaits_finish lead s hended' hu
        rw [rest_moveTo, meet_cons] at hout
        rw [← hout, htrees] at hawaits
        have hrec := ih (c := c.moveTo (u :: ts)) hc hended' hawaits
          (by simp only [rest_moveTo] at *; omega)
        rw [List.reverse_append, List.reverse_singleton] at hrec
        rw [hstatement]
        exact hrec
      · rw [rest_moveTo, meet_cons] at hout
        rw [statement, hr, hout]
        cases stop with
        | incomplete => rfl
        | malformed line column reason => rfl
        | broken b => exact absurd rfl (hs b)

end Cursor

/-- Reading a program is running the empty assembly on its tokens. -/
theorem parseProgram_eq {ts : List Token} (h : Ended ts) :
    parseProgram ts = (run maxNesting empty ts).outcome :=
  Cursor.programFrom_eq ts.length (c := .ofTokens ts) rfl h (awaits_between (.initial []) h)
    (le_refl _)

end MatrixCalculator
