import MatrixCalculator.Proofs.Brackets

namespace MatrixCalculator

open Assembly

/-- Inside a round bracket it makes no difference whether newlines have been passed before. -/
theorem settle_round (es fs : List Enclosure) (ts : List Token) :
    settle (.round :: fs) (settle es ts) = settle (.round :: fs) ts := by
  have hround : ∀ us, settle (.round :: fs) us = us.dropWhile fun t => t.kind.isNewline :=
    fun us => rfl
  rw [hround, hround, settle]
  split
  · exact List.dropWhile_idempotent _ _
  · rfl

theorem Assembly.run_pushed_settle {limit : Nat} {ctx : Context} {g : Group} {ts : List Token}
    (hg : g.enclosure = .round) (hts : Ended ts) (es : List Enclosure) :
    run limit (.inside (ctx.push g) .operand) (settle es ts) =
      run limit (.inside (ctx.push g) .operand) ts := by
  rw [run_operand hts, run_operand hts.settle, Context.enclosures_push, hg, settle_round]

namespace Reader

variable {limit n : Nat} {expr : Reader Node} {ctx : Context} {c : Cursor}

theorem postfixFrom_reads (hexpr : ReadsExpression limit n expr) (hn : ctx.used + 1 + n = limit)
    (fuel : Nat) (x : Phrase .indexed) (c : Cursor) (hc : c.enclosures = ctx.enclosures)
    (hready : c.Ready) (hfuel : c.rest.length ≤ fuel) :
    Reads limit (postfixFrom expr fuel x.tree) c c (c.rest.length + 1)
      (meet limit (afterIndexed ctx x) c.rest) Phrase.tree (afterBase ctx) := by
  obtain ⟨t, ts, h⟩ := hready.ended.exists_cons
  induction fuel generalizing c x t ts with
  | zero => simp [h] at hfuel
  | succ m ih =>
    unfold postfixFrom
    refine .after (current_eq h) ?_
    by_cases ht : t.kind = .symbol .leftBracket
    · have hts : Ended ts := (h ▸ hready.ended).tail (by simp [ht])
      have hlen := length_settle_le c.enclosures ts
      let d := c.moveTo (settle c.enclosures ts)
      have hd : d.rest.length < c.rest.length := by
        rw [h]
        exact Nat.lt_succ_of_le hlen
      have hstep : afterIndexed ctx x t = .inside (ctx.push (.index x t.place none)) .operand := by
        simp [afterIndexed, ht]
      rw [if_pos (isSymbol_iff.mpr ht), h, meet_cons, hstep,
        ← run_pushed_settle rfl hts c.enclosures]
      refine .after (eat_eq h hts ht) ((index_reads hexpr hn x t.place (c := d) hc
        hts.settle).bind fun y us hus hus' => ?_)
      obtain ⟨⟨y, indices⟩, hy⟩ := y
      have hmove : d.moveTo us = c.moveTo us := Cursor.moveTo_moveTo hd.le hus.le
      obtain ⟨u, us, rfl⟩ := hus'.ended.exists_cons
      rw [hmove] at hus' ⊢
      have hrec := ih y (c.moveTo (u :: us)) hc hus' (by rw [Cursor.rest_moveTo]; omega) u us rfl
      rw [show y.tree = .index x.tree indices t.line from hy] at hrec
      exact hrec.rebase (by omega) (le_refl _) (by rw [Cursor.rest_moveTo, ← h]; omega)
    · rw [if_neg (by simpa [isSymbol_iff] using ht)]
      exact .here x hready (by rw [h, meet_cons, meet_cons, afterIndexed_of_ne ht])

theorem indexed_reads (hexpr : ReadsExpression limit n expr) (hn : ctx.used + 1 + n = limit)
    {out : Assembly} (hc : c.enclosures = ctx.enclosures)
    (hprimary : Reads limit (primary expr) c c c.rest.length out Phrase.tree
      fun x => afterIndexed ctx (.ofPrimary x)) :
    Reads limit (indexed expr) c c c.rest.length out Phrase.tree (afterBase ctx) := by
  refine hprimary.bind fun x ts hts hready => .after (rounds_eq _) ?_
  have hrest := postfixFrom_reads hexpr hn ts.length (.ofPrimary x) (c.moveTo ts) hc hready le_rfl
  exact hrest.rebase (by omega) (le_refl _) hts

theorem expectOperand_eq {t : Token} {ts : List Token} (hended : Ended c.rest)
    (h : c.rest.dropWhile (fun t => t.kind.isNewline) = t :: ts) (hend : t.kind ≠ .endOfInput) :
    expectOperand c = .ok () (c.moveTo (t :: ts)) := by
  have hskip := skip_eq (p := Kind.isNewline) rfl hended
  rw [h] at hskip
  rw [expectOperand, bind_ok hskip, bind_ok (current_eq (Cursor.rest_moveTo _ _)),
    if_neg (by simpa [isEnd_iff] using hend)]
  rfl

theorem expectOperand_error {t : Token} {ts : List Token} (hended : Ended c.rest)
    (h : c.rest.dropWhile (fun t => t.kind.isNewline) = t :: ts) (hend : t.kind = .endOfInput) :
    expectOperand c = .error .incomplete (c.moveTo (t :: ts)) := by
  have hskip := skip_eq (p := Kind.isNewline) rfl hended
  rw [h] at hskip
  rw [expectOperand, bind_ok hskip, bind_ok (current_eq (Cursor.rest_moveTo _ _)),
    if_pos (isEnd_iff.mpr hend)]
  rfl

theorem name_reads (hexpr : ReadsExpression limit n expr) (hn : ctx.used + 1 + n = limit)
    (name : String) (p : Place) (hc : c.enclosures = ctx.enclosures) (hready : c.Ready) :
    Reads limit (do
        if (← current).kind.isSymbol .leftParen then return .call name (← arguments expr) p.line
        else return .ident name p.line) c c (c.rest.length + 1)
      (meet limit (afterName ctx name p) c.rest) Phrase.tree
      fun x => afterIndexed ctx (.ofPrimary x) := by
  obtain ⟨t, ts, h⟩ := hready.ended.exists_cons
  refine .after (current_eq h) ?_
  have hmeet : meet limit (afterName ctx name p) c.rest =
      run limit (afterName ctx name p t) ts := by rw [h, meet_cons]
  rw [hmeet]
  by_cases ht : t.kind = .symbol .leftParen
  · have hcall : afterName ctx name p t = .inside ctx (.argument name p t.place) := by
      simp [afterName, ht]
    rw [if_pos (isSymbol_iff.mpr ht), hcall]
    refine (arguments_reads hexpr hn name p h ht hc hready.ended).bind fun x us hus hready' => ?_
    obtain ⟨⟨x, args⟩, hx⟩ := x
    rw [← show x.tree = .call name args p.line from hx]
    exact .ok x us rfl (by omega) hready' rfl
  · rw [if_neg (by simpa [isSymbol_iff] using ht), afterName_of_ne ht]
    change Reads limit (pure (Phrase.ident name p).tree) _ _ _ _ _ _
    exact .here _ hready (by rw [h, meet_cons])

theorem group_reads (hexpr : ReadsExpression limit n expr) (hn : ctx.used + 1 + n = limit)
    (l : Place) (hc : c.enclosures = ctx.enclosures) (hended : Ended c.rest) :
    Reads limit (do
        enter .round
        let node ← expr
        leave
        discard (eat .rightParen)
        return node) c c c.rest.length
      (run limit (.inside (ctx.push (.paren l)) .operand) c.rest) Phrase.tree
      fun x => afterIndexed ctx (.ofPrimary x) := by
  have hopen := enclosures_opened (g := .paren l) rfl hc
  rw [run_opened rfl hc hended]
  refine .after (enter_round_eq hended) ((hexpr (ctx.push (.paren l)) c.opened
    (by rw [Context.used_push, hn]) rfl hopen (Cursor.opened_ready hended)).bind
      fun e ts hts hready => ?_)
  exact (shut_reads limit .rightParen (fun r => .ofPrimary (.group l e r)) e.tree hc hts.le
    hready.ended).rename (fun r => .group l e r) (fun _ => rfl) fun _ => rfl

theorem primary_reads (hexpr : ReadsExpression limit n expr)
    (hzero : n = 0 → ∀ c, ∃ stop c', expr c = .error stop c') (hn : ctx.used + 1 + n = limit)
    (hc : c.enclosures = ctx.enclosures) (hready : c.Ready) {t : Token} {ts : List Token}
    (h : c.rest = t :: ts) (hnewline : t.kind.isNewline = false) (hend : t.kind ≠ .endOfInput)
    (hminus : t.kind ≠ .symbol .minus) :
    Reads limit (primary expr) c c c.rest.length (meet limit (start limit ctx) c.rest) Phrase.tree
      fun x => afterIndexed ctx (.ofPrimary x) := by
  have hts : Ended ts := (h ▸ hready.ended).tail hend
  have hlen := length_settle_le c.enclosures ts
  have hlt : (settle c.enclosures ts).length < c.rest.length := by
    rw [h]
    exact Nat.lt_succ_of_le hlen
  have hmeet : meet limit (start limit ctx) c.rest = run limit (start limit ctx t) ts := by
    rw [h, meet_cons]
  have hreject : ∀ kind, Reads limit (reject (operandReason kind c.enclosures)) c c c.rest.length
      (run limit (Assembly.reject t.place (operandReason kind ctx.enclosures)) ts) Phrase.tree
      fun x => afterIndexed ctx (.ofPrimary x) := by
    intro kind
    rw [← hc]
    exact .stop (reject_eq h _) (by simp [Stop.Sound]) run_stopped
  have hoperand := expectOperand_eq hready.ended
    (by rw [h, List.dropWhile_cons, if_neg (by simp [hnewline])]) hend
  rw [← h, Cursor.moveTo_rest] at hoperand
  refine .after hoperand (.after (current_eq h) ?_)
  -- One case for each kind of token that may start an operand; the others are rejected alike.
  rw [hmeet, start, if_neg (by omega)]
  cases hk : t.kind with
  | newline => simp [hk, Kind.isNewline] at hnewline
  | endOfInput => contradiction
  | invalid text => exact .after rfl (hreject _)
  | unknown ch => exact .after rfl (hreject _)
  | number value =>
    have hready' := Cursor.ready_settle (c := c) hts
    refine .after (advance_eq h hts) (.ok (.number value t.place) _ rfl hlt hready' ?_)
    rw [run_value hts, hc]
  | name name =>
    have hname := name_reads (c := c.moveTo (settle c.enclosures ts)) hexpr hn name t.place hc
      (Cursor.ready_settle hts)
    rw [Cursor.rest_moveTo, hc, ← run_name hts, ← hc] at hname
    exact .after (advance_eq h hts) (hname.rebase hlt.le (le_refl _) hlt)
  | symbol s =>
    cases s with
    | leftParen =>
      have hgroup := group_reads (c := c.moveTo (settle c.enclosures ts)) hexpr hn t.place hc
        hts.settle
      rw [Cursor.rest_moveTo, run_pushed_settle rfl hts] at hgroup
      exact .after (advance_eq h hts) (hgroup.rebase hlt.le (Nat.le_succ _) hlt.le)
    | leftBracket => exact matrix_reads hexpr hzero hn h hk hc hready.ended
    | minus => contradiction
    | _ => exact .after rfl (hreject _)

end Reader

theorem ReadsUnary.behind {limit n : Nat} {unary : Reader Node} {ctx : Context} {c : Cursor}
    {ts : List Token} (hu : ReadsUnary limit n unary) (hn : ctx.used + 1 + n = limit) (s : Sign)
    (hc : c.enclosures = ctx.enclosures) (hts : Ended ts) :
    Reads limit unary (c.moveTo (settle c.enclosures ts)) (c.moveTo (settle c.enclosures ts))
      (settle c.enclosures ts).length (run limit (.inside (ctx.sign s) .operand) ts) Phrase.tree
      fun u => afterUnary ctx (s.close u) := by
  have hread := hu (ctx.sign s) (c.moveTo (settle c.enclosures ts))
    (by rw [Context.used_sign, hn]) hc (Cursor.ready_settle hts)
  rw [run_operand hts]
  change Reads _ _ _ _ _ (meet limit _ (settle ctx.enclosures ts)) _ _
  rw [← hc]
  exact hread

namespace Reader

variable {limit n : Nat} {unary : Reader Node} {ctx : Context} {c : Cursor}

theorem expression_error {c' : Cursor} {stop : Stop} (h : unary c = .error stop c') :
    expression unary c = .error stop c' :=
  bind_error (bind_error h)

theorem power_reads (hu : ReadsUnary limit n unary)
    (hzero : n = 0 → ∀ c, ∃ stop c', unary c = .error stop c') (hn : ctx.used + 1 + n = limit)
    (hc : c.enclosures = ctx.enclosures) (hready : c.Ready) {t : Token} {ts : List Token}
    (h : c.rest = t :: ts) (hnewline : t.kind.isNewline = false) (hend : t.kind ≠ .endOfInput)
    (hminus : t.kind ≠ .symbol .minus) :
    Reads limit (power unary) c c c.rest.length (meet limit (start limit ctx) c.rest) Phrase.tree
      (afterUnary ctx) := by
  have hexpr := expression_reads hu
  have hprimary := primary_reads hexpr (fun hn c => by
    obtain ⟨stop, c', hstop⟩ := hzero hn c
    exact ⟨stop, c', expression_error hstop⟩) hn hc hready h hnewline hend hminus
  refine (indexed_reads hexpr hn hc hprimary).bind fun x us hus hready' => ?_
  obtain ⟨u, us, rfl⟩ := hready'.ended.exists_cons
  refine .after (current_eq rfl) ?_
  rw [meet_cons]
  by_cases hk : u.kind = .symbol .caret
  · have hus' : Ended us := Ended.tail hready'.ended (by simp [hk])
    have hlen := length_settle_le c.enclosures us
    have hlt : (settle c.enclosures us).length < c.rest.length := by
      simp only [List.length_cons] at hus
      omega
    have hbase : afterBase ctx x u = .inside (ctx.sign (.caret x u.place)) .operand := by
      simp [afterBase, hk]
    have heat := eat_eq (c := c.moveTo (u :: us)) rfl hus' hk
    rw [Cursor.enclosures_moveTo, Cursor.moveTo_moveTo hus.le (Nat.le_succ_of_le hlen)] at heat
    rw [if_pos (isSymbol_iff.mpr hk), hbase]
    refine .after heat ((hu.behind hn (.caret x u.place) hc hus').bind fun y vs hvs hready'' => ?_)
    rw [Cursor.moveTo_moveTo hlt.le hvs.le] at hready'' ⊢
    exact .ok (.ofPower (.raised x u.place y)) vs rfl (by omega) hready'' rfl
  · rw [if_neg (by simpa [isSymbol_iff] using hk), afterBase_of_ne hk]
    exact .ok (.ofPower (.ofIndexed x)) (u :: us) rfl hus hready' rfl

/-- Newlines before an operand make no difference as long as a level is left. -/
theorem meet_start_skip (hroom : ctx.used < limit) {ts : List Token} (hts : Ended ts) :
    meet limit (start limit ctx) ts =
      meet limit (start limit ctx) (ts.dropWhile fun t => t.kind.isNewline) := by
  have hmeet : ∀ us, Ended us →
      meet limit (start limit ctx) us = run limit (.inside ctx .operand) us := by
    intro us hus
    obtain ⟨u, us, rfl⟩ := hus.exists_cons
    rw [meet_cons, run_cons, step_operand hroom]
  rw [hmeet ts hts, hmeet _ (hts.dropWhile rfl), run_dropWhile]
  intro t ht
  rw [step_operand hroom, start, if_neg (by omega)]
  cases hk : t.kind <;> simp_all [Kind.isNewline]

theorem signed_reads (hu : ReadsUnary limit n unary)
    (hzero : n = 0 → ∀ c, ∃ stop c', unary c = .error stop c') (hn : ctx.used + 1 + n = limit)
    (hc : c.enclosures = ctx.enclosures) (hready : c.Ready) :
    Reads limit (signed unary) c c c.rest.length (meet limit (start limit ctx) c.rest) Phrase.tree
      (afterUnary ctx) := by
  have hroom : ctx.used < limit := by omega
  obtain ⟨t, ts, h, hnot, hdrop, hdroplen⟩ :=
    hready.ended.exists_dropWhile (p := Kind.isNewline) rfl
  rw [meet_start_skip hroom hready.ended, h]
  by_cases hend : t.kind = .endOfInput
  · refine .stop (bind_error (expectOperand_error hready.ended h hend)) (by simp [Stop.Sound]) ?_
    rw [meet_cons, start, if_neg (by omega), hend, run_stopped]
  · refine .after (expectOperand_eq hready.ended h hend) (.after (current_eq rfl) ?_)
    have hsettled : (c.moveTo (t :: ts)).Ready := by
      refine ⟨hdrop, ?_⟩
      rw [settle]
      split
      · rw [Cursor.rest_moveTo, List.dropWhile_cons, if_neg (by simp [hnot])]
      · rfl
    by_cases hk : t.kind = .symbol .minus
    · have hts : Ended ts := hdrop.tail hend
      have hlen := length_settle_le c.enclosures ts
      have hlt : (settle c.enclosures ts).length < c.rest.length :=
        (Nat.lt_succ_of_le hlen).trans_le hdroplen
      have hstart : start limit ctx t = .inside (ctx.sign (.minus t.place)) .operand := by
        rw [start, if_neg (by omega), hk]
      have heat := eat_eq (c := c.moveTo (t :: ts)) rfl hts hk
      rw [Cursor.enclosures_moveTo, Cursor.moveTo_moveTo hdroplen (Nat.le_succ_of_le hlen)] at heat
      rw [if_pos (isSymbol_iff.mpr hk), meet_cons, hstart]
      refine .after (discard_ok heat) ((hu.behind hn (.minus t.place) hc hts).bind
        fun y vs hvs hready' => ?_)
      rw [Cursor.moveTo_moveTo hlt.le hvs.le] at hready' ⊢
      exact .ok (.negated t.place y) vs rfl (by omega) hready' rfl
    · rw [if_neg (by simpa [isSymbol_iff] using hk)]
      have hpower := power_reads (c := c.moveTo (t :: ts)) hu hzero hn hc hsettled rfl hnot hend hk
      exact hpower.rebase hdroplen (Nat.le_succ _) hdroplen

theorem reject_error {α : Type} (reason : Reason) (c : Cursor) :
    ∃ stop, (reject reason : Reader α) c = .error stop c := by
  rcases h : c.rest with _ | ⟨t, ts⟩
  · refine ⟨.broken .pastEnd, bind_error ?_⟩
    rw [current, bind_ok get_eq, h]
    rfl
  · exact ⟨_, reject_eq h reason⟩

theorem unary_zero_error (c : Cursor) : ∃ stop c', Reader.unary 0 c = .error stop c' := by
  obtain ⟨stop, hstop⟩ := reject_error (α := Node) .tooDeep c.deeper
  exact ⟨stop, _, nested_error hstop⟩

theorem unary_reads (limit n : Nat) : ReadsUnary limit n (Reader.unary n) := by
  -- The levels in use and the levels left add up to the limit, so both run out together.
  induction n with
  | zero =>
    intro ctx c hn hc hready
    obtain ⟨t, ts, h⟩ := hready.ended.exists_cons
    refine Reads.nested (.stop (reject_eq (c := c.deeper) h _) (by simp [Stop.Sound]) ?_)
    rw [h, meet_cons, start, if_pos (by omega), Assembly.reject, run_stopped]
    rfl
  | succ n ih =>
    intro ctx c hn hc hready
    exact (signed_reads ih (by rintro rfl c; exact unary_zero_error c) (by omega)
      (c := c.deeper) hc ⟨hready.ended, hready.settled⟩).nested

end Reader

end MatrixCalculator
