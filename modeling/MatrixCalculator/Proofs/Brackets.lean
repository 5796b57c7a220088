import MatrixCalculator.Proofs.Reading

namespace MatrixCalculator

open Assembly

namespace Cursor

/-- The cursor inside a round bracket that has just been opened. -/
def opened (c : Cursor) : Cursor :=
  (c.moveTo (c.rest.dropWhile fun t => t.kind.isNewline)).within .round

theorem length_opened_le (c : Cursor) : c.opened.rest.length ≤ c.rest.length :=
  (List.dropWhile_sublist _).length_le

theorem opened_ready {c : Cursor} (h : Ended c.rest) : c.opened.Ready :=
  ⟨h.dropWhile rfl, settle_settle c.opened.enclosures c.rest⟩

theorem moveTo_opened {c : Cursor} {ts : List Token} (h : ts.length ≤ c.opened.rest.length) :
    c.opened.moveTo ts = (c.moveTo ts).within .round := by
  have hlen := length_opened_le c
  exact congrArg (within · .round) (moveTo_moveTo hlen h)

end Cursor

theorem ReadsExpression.behind {limit n : Nat} {expr : Reader Node} {d : Cursor}
    {ts : List Token} (hexpr : ReadsExpression limit n expr) (ctx : Context)
    (hn : ctx.used + n = limit) (hlevel : ctx.level = .fresh) (hd : d.enclosures = ctx.enclosures)
    (hts : Ended ts) :
    Reads limit expr (d.moveTo (settle d.enclosures ts)) (d.moveTo (settle d.enclosures ts))
      (settle d.enclosures ts).length (run limit (.inside ctx .operand) ts) Phrase.tree
      (close ctx) := by
  have hread := hexpr ctx (d.moveTo (settle d.enclosures ts)) hn hlevel hd (Cursor.ready_settle hts)
  rwa [run_operand hts, ← hd]

namespace Reader

variable {limit n : Nat} {expr : Reader Node} {ctx : Context} {c : Cursor}

theorem enclosures_opened {g : Group} (hg : g.enclosure = .round)
    (hc : c.enclosures = ctx.enclosures) : c.opened.enclosures = (ctx.push g).enclosures := by
  rw [Context.enclosures_push, hg, ← hc]
  rfl

theorem run_opened {g : Group} (hg : g.enclosure = .round) (hc : c.enclosures = ctx.enclosures)
    (hended : Ended c.rest) : run limit (.inside (ctx.push g) .operand) c.rest =
      meet limit (start limit (ctx.push g)) c.opened.rest := by
  rw [run_operand hended, ← enclosures_opened hg hc]
  rfl

theorem shut_reads {α : Type} {ts : List Token} (limit : Nat) (s : Symbol)
    (x : Place → Phrase .indexed) (a : α) (hc : c.enclosures = ctx.enclosures)
    (hts : ts.length ≤ c.opened.rest.length) (hended : Ended ts) :
    Reads limit (do leave; discard (eat s); return a) (c.opened.moveTo ts) c c.rest.length
      (meet limit (closeWith ctx s x) ts) (fun _ => a) fun r => afterIndexed ctx (x r) := by
  have hlen := c.length_opened_le
  rw [Cursor.moveTo_opened hts]
  exact (close_reads (c := c.moveTo ts) s x .round a hc hended).rebase (by omega) (by simp)
    (by simp; omega)

theorem index_reads (hexpr : ReadsExpression limit n expr) (hn : ctx.used + 1 + n = limit)
    (target : Phrase .indexed) (l : Place) (hc : c.enclosures = ctx.enclosures)
    (hended : Ended c.rest) :
    Reads limit (index expr) c c c.rest.length
      (run limit (.inside (ctx.push (.index target l none)) .operand) c.rest)
      (fun x : { x : Phrase .indexed × List Node // x.1.tree = .index target.tree x.2 l.line } =>
        x.1.2)
      fun x => afterIndexed ctx x.1.1 := by
  have hopen := enclosures_opened (g := .index target l none) rfl hc
  rw [run_opened rfl hc hended]
  refine .after (enter_round_eq hended) ?_
  refine (hexpr (ctx.push (.index target l none)) c.opened (by rw [Context.used_push, hn]) rfl hopen
    (Cursor.opened_ready hended)).bind fun i ts hts hready => ?_
  obtain ⟨t, us, rfl⟩ := hready.ended.exists_cons
  refine .after (current_eq rfl) ?_
  rw [meet_cons]
  change Reads _ _ _ _ _ (run limit (endIndex ctx target l i t) us) _ _
  by_cases ht : t.kind = .symbol .comma
  · have hus : Ended us := Ended.tail hready.ended (by simp [ht])
    have hlen := length_settle_le c.opened.enclosures us
    rw [if_pos (isSymbol_iff.mpr ht)]
    refine .after (discard_ok (eat_eq rfl hus ht)) ?_
    have hsecond := hexpr.behind (ctx.push (.index target l (some (i, t.place))))
      (by rw [Context.used_push, hn]) rfl hopen hus
    have hend : endIndex ctx target l i t =
        .inside (ctx.push (.index target l (some (i, t.place)))) .operand := by
      simp [endIndex, ht]
    simp only [List.length_cons] at hts
    rw [Cursor.enclosures_moveTo, Cursor.moveTo_moveTo (by simp; omega) (by simp; omega), hend]
    refine hsecond.bind fun j ws hws hready' => .after rfl ?_
    rw [Cursor.moveTo_moveTo (by omega) (by omega)] at hready' ⊢
    have hws' : ws.length ≤ c.opened.rest.length := by omega
    exact (shut_reads limit .rightBracket (.entry target l i t.place j) [i.tree, j.tree] hc hws'
      hready'.ended).rename (fun r => ⟨(.entry target l i t.place j r, _), rfl⟩) (fun _ => rfl)
      fun _ => rfl
  · rw [if_neg (by simpa [isSymbol_iff] using ht)]
    rw [endIndex_of_ne ht, ← meet_cons]
    refine .after rfl ?_
    exact (shut_reads limit .rightBracket (.part target l i) [i.tree] hc hts.le
      hready.ended).rename (fun r => ⟨(.part target l i r, _), rfl⟩) (fun _ => rfl) fun _ => rfl

theorem run_argument_dropWhile (name : String) (p l : Place) (ts : List Token) :
    run limit (.inside ctx (.argument name p l)) (ts.dropWhile fun t => t.kind.isNewline) =
      run limit (.inside ctx (.argument name p l)) ts := by
  refine run_dropWhile fun t ht => ?_
  cases hk : t.kind <;> simp_all [Kind.isNewline, step, startArguments]

theorem run_argument_opened (name : String) (p l : Place) (ts : List Token) :
    run limit (.inside ctx (.argument name p l)) (c.moveTo (settle c.enclosures ts)).opened.rest =
      run limit (.inside ctx (.argument name p l)) ts := by
  change run limit _ ((settle c.enclosures ts).dropWhile fun t => t.kind.isNewline) = _
  rw [run_argument_dropWhile, settle]
  split
  · exact run_argument_dropWhile name p l ts
  · rfl

theorem argumentItems_reads (hexpr : ReadsExpression limit n expr) (hn : ctx.used + 1 + n = limit)
    (name : String) (p l : Place) (hc : c.enclosures = ctx.enclosures) (hended : Ended c.rest) :
    Reads limit (items expr) c.opened c.opened c.opened.rest.length
      (meet limit (start limit (ctx.push (.call name p l none))) c.opened.rest) Phrase.tree
      fun args => closeWith ctx .rightParen fun r => .ofPrimary (.call name p l args r) := by
  have hopen := enclosures_opened (g := .call name p l none) rfl hc
  refine items_reads (endArguments ctx name p l) ?_ (fun _ _ ht => endArguments_of_ne ht)
    c.opened hopen (hexpr _ c.opened (by rw [Context.used_push, hn]) rfl hopen
      (Cursor.opened_ready hended))
  intro b t ht
  refine ⟨ctx.push (.call name p l (some (b, t.place))), by simp [endArguments, ht], rfl,
    fun d hd hready => ?_⟩
  exact hexpr _ d (by rw [Context.used_push, hn]) rfl hd hready

theorem arguments_reads (hexpr : ReadsExpression limit n expr) (hn : ctx.used + 1 + n = limit)
    (name : String) (p : Place) {t : Token} {ts : List Token} (h : c.rest = t :: ts)
    (ht : t.kind = .symbol .leftParen) (hc : c.enclosures = ctx.enclosures)
    (hended : Ended c.rest) :
    Reads limit (arguments expr) c c c.rest.length
      (run limit (.inside ctx (.argument name p t.place)) ts)
      (fun x : { x : Phrase .primary × List Node // x.1.tree = .call name x.2 p.line } => x.1.2)
      fun x => afterIndexed ctx (.ofPrimary x.1.1) := by
  have hts : Ended ts := (h ▸ hended).tail (by simp [ht])
  have hlen := length_settle_le c.enclosures ts
  let d := c.moveTo (settle c.enclosures ts)
  have hd : d.enclosures = ctx.enclosures := hc
  have hdended : Ended d.rest := hts.settle
  have hbound : d.rest.length ≤ c.rest.length := by
    simp [d, h]
    omega
  refine .after (discard_ok (eat_eq h hts ht)) (.after (enter_round_eq hdended) ?_)
  have hready := Cursor.opened_ready hdended
  obtain ⟨u, us, hu⟩ := hready.ended.exists_cons
  refine .after (current_eq hu) ?_
  rw [← run_argument_opened (c := c), hu, run_cons]
  -- The reader looks for the closing bracket first, and so does the assembly.
  by_cases hclose : u.kind = .symbol .rightParen
  · have hshut := shut_reads limit .rightParen (fun r => .ofPrimary (.bareCall name p t.place r))
      ([] : List Node) hd (le_refl _) hready.ended
    have hstep : step limit (.inside ctx (.argument name p t.place)) u =
        closeWith ctx .rightParen (fun r => .ofPrimary (.bareCall name p t.place r)) u := by
      simp [step, startArguments, closeWith, hclose, Kind.isSymbol]
    rw [Cursor.moveTo_rest, hu, meet_cons] at hshut
    rw [if_pos (isSymbol_iff.mpr hclose), hstep]
    refine .after rfl ?_
    exact (hshut.rename (fun r => ⟨(.bareCall name p t.place r, []), rfl⟩) (fun _ => rfl)
      fun _ => rfl).rebase (by simp [h]; omega) (by simp [d]) hbound
  · have hitems := argumentItems_reads hexpr hn name p t.place hd hdended
    have hnewline : u.kind ≠ .newline := fun hk => by
      simpa [hk, Kind.isNewline] using hready.not_newline hu rfl
    rw [if_neg (by simpa [isSymbol_iff] using hclose), step, startArguments_of_ne hnewline hclose,
      ← meet_cons, ← hu]
    refine hitems.bind fun args ws hws hready' => ?_
    have hshut := shut_reads limit .rightParen
      (fun r => .ofPrimary (.call name p t.place args r)) args.tree hd hws.le hready'.ended
    exact (hshut.rename (fun r => ⟨(.call name p t.place args r, args.tree), rfl⟩) (fun _ => rfl)
      fun _ => rfl).rebase (by simp [h]; omega) (by simp [d]) hbound

end Reader

theorem Phrase.tree_rows_ne_nil (rows : Phrase .rows) : rows.tree ≠ [] := by
  cases rows <;> simp [Phrase.tree]

theorem dropWhile_settle (es : List Enclosure) (ts : List Token) :
    (settle es ts).dropWhile (fun t => t.kind.isSeparator) =
      ts.dropWhile fun t => t.kind.isSeparator := by
  unfold settle
  split
  · induction ts with
    | nil => rfl
    | cons t ts ih =>
      by_cases ht : t.kind.isNewline = true
      · have hs : t.kind.isSeparator = true := by
          cases hk : t.kind <;> simp_all [Kind.isNewline, Kind.isSeparator]
        rw [List.dropWhile_cons, if_pos ht, List.dropWhile_cons, if_pos hs, ih]
      · rw [List.dropWhile_cons, if_neg ht]
  · rfl

namespace Lead

def rowTrees : Lead .rows → List (List Node)
  | .initial _ => []
  | .following rows _ _ => rows.tree

theorem tree_row (lead : Lead .rows) (row : Phrase .items) :
    (lead.row row).tree = lead.rowTrees ++ [row.tree] := by
  cases lead <;> rfl

theorem rowTrees_extend (lead : Lead .rows) (gap : Gap) :
    (lead.extend gap).rowTrees = lead.rowTrees := by
  cases lead <;> rfl

end Lead

namespace Assembly

/-- The bracket behind the rows and separators of a matrix. -/
def closeRows (ctx : Context) (l : Place) : Option (Phrase .rows × Gap) → Token → Assembly
  | none, _ => reject l .emptyMatrix
  | some (rows, gap), t =>
    closeWith ctx .rightBracket (fun r => .ofPrimary (.matrix l rows gap r)) t

def rowsTree : Option (Phrase .rows × Gap) → List (List Node)
  | none => []
  | some (rows, _) => rows.tree

theorem run_closeRow_skip (limit : Nat) (ctx : Context) (l : Place) (rows : Phrase .rows)
    {t : Token} (ht : t.kind.isSeparator = true) (ts : List Token) :
    ∃ lead : Lead .rows, lead.rowTrees = rows.tree ∧ run limit (closeRow ctx l rows t) ts =
      run limit (.inside ctx (.row l lead)) (ts.dropWhile fun t => t.kind.isSeparator) := by
  obtain ⟨s, rfl⟩ := Token.exists_separator ht
  obtain ⟨gap, hgap⟩ := run_skip (step_row_separator limit ctx l) (.following rows s []) ts
  rw [closeRow_separator, hgap]
  exact ⟨_, Lead.rowTrees_extend _ gap, rfl⟩

theorem step_row {limit : Nat} {ctx : Context} {l : Place} {lead : Lead .rows} {t : Token}
    (hsep : t.kind.isSeparator = false) (hclose : t.kind ≠ .symbol .rightBracket)
    (hroom : lead.rowTrees ≠ [] → ctx.used + 1 < limit) :
    step limit (.inside ctx (.row l lead)) t = start limit (ctx.push (.matrix l lead none)) t := by
  rw [step, startRow.eq_def]
  split
  · simp_all [Kind.isSeparator]
  · simp_all [Kind.isSeparator]
  · contradiction
  · contradiction
  · rename_i rows sep gap hk
    have hlt := hroom (Phrase.tree_rows_ne_nil rows)
    rw [start, Context.used_push, if_neg (by omega), hk]
  · rfl

end Assembly

/-- At the end of input an expression is wanting, as long as a level is left. -/
theorem ReadsExpression.error_end {limit n : Nat} {expr : Reader Node} {c : Cursor} {t : Token}
    (hexpr : ReadsExpression limit n expr) (ctx : Context) (hn : ctx.used + n = limit)
    (hpos : 0 < n) (hlevel : ctx.level = .fresh) (hc : c.enclosures = ctx.enclosures)
    (h : c.rest = [t]) (ht : t.kind = .endOfInput) : ∃ c', expr c = .error .incomplete c' := by
  have hready : c.Ready := by
    refine ⟨h ▸ .last ht, ?_⟩
    simp [h, settle, ht, Kind.isNewline]
  rcases hexpr ctx c hn hlevel hc hready with ⟨b, ts, _, hlen, hts, _⟩ | ⟨stop, c', hr, _, hout⟩
  · obtain ⟨u, us, rfl⟩ := hts.ended.exists_cons
    simp [h] at hlen
  · have hstart : start limit ctx t = .stopped .incomplete := by
      rw [start, if_neg (by omega), ht]
    rw [h, meet_cons, hstart, run_nil, Assembly.stopped.injEq] at hout
    exact ⟨c', hout ▸ hr⟩

namespace Reader

variable {limit n : Nat} {expr : Reader Node} {ctx : Context}

theorem row_reads (hexpr : ReadsExpression limit n expr) (hn : ctx.used + 1 + n = limit)
    (l : Place) (lead : Lead .rows) {c : Cursor} (hc : c.enclosures = ctx.enclosures)
    (hended : Ended c.rest) :
    Reads limit (items expr) (c.within .matrix) (c.within .matrix) c.rest.length
      (meet limit (start limit (ctx.push (.matrix l lead none))) c.rest) Phrase.tree
      fun row => closeRow ctx l (lead.row row) := by
  have hes : (c.within .matrix).enclosures = (ctx.push (.matrix l lead none)).enclosures := by
    rw [Context.enclosures_push, ← hc]
    rfl
  have hready : (c.within .matrix).Ready := ⟨hended, rfl⟩
  refine items_reads (endRow ctx l lead) ?_ (fun _ _ ht => endRow_of_ne ht) (c.within .matrix) hes
    (hexpr _ _ (by rw [Context.used_push, hn]) rfl hes hready)
  intro b t ht
  refine ⟨ctx.push (.matrix l lead (some (b, t.place))), by simp [endRow, ht], rfl,
    fun d hd hready => ?_⟩
  exact hexpr _ d (by rw [Context.used_push, hn]) rfl hd hready

theorem items_error {c c' : Cursor} {stop : Stop} (h : expr c = .error stop c') :
    items expr c = .error stop c' :=
  bind_error h

theorem skip_separators {c : Cursor} (hended : Ended c.rest) : ∃ t ts,
    c.rest.dropWhile (fun t => t.kind.isSeparator) = t :: ts ∧ t.kind.isSeparator = false ∧
      Ended (t :: ts) ∧ (t :: ts).length ≤ c.rest.length ∧
      skip Kind.isSeparator c = .ok () (c.moveTo (t :: ts)) := by
  obtain ⟨t, ts, h, hnot, hts, hlen⟩ := hended.exists_dropWhile (p := Kind.isSeparator) rfl
  have hskip := skip_eq (p := Kind.isSeparator) rfl hended
  rw [h] at hskip
  exact ⟨t, ts, h, hnot, hts, hlen, hskip⟩

/-- Separators behind a row: `h` reads on from the first token that is none. -/
theorem separatedRows_reads {r : List (List Node) → Reader (List (List Node))} (l : Place)
    (rows : Phrase .rows) {c : Cursor} {t : Token} {ts : List Token}
    (ht : t.kind.isSeparator = true) (hended : Ended (t :: ts))
    (hts : (t :: ts).length ≤ c.rest.length)
    (h : ∀ (lead : Lead .rows) (u : Token) (us : List Token), u.kind.isSeparator = false →
      Ended (u :: us) → (u :: us).length ≤ (t :: ts).length →
      Reads limit (r lead.rowTrees.reverse) ((c.moveTo (u :: us)).within .matrix)
        ((c.moveTo (u :: us)).within .matrix) ((u :: us).length + 1)
        (run limit (.inside ctx (.row l lead)) (u :: us)) rowsTree (closeRows ctx l)) :
    Reads limit (do skip Kind.isSeparator; r rows.tree.reverse)
      ((c.within .matrix).moveTo (t :: ts)) (c.within .matrix) (c.rest.length + 1)
      (run limit (closeRow ctx l rows t) ts) rowsTree (closeRows ctx l) := by
  obtain ⟨lead, htrees, hrun⟩ := run_closeRow_skip limit ctx l rows ht ts
  obtain ⟨u, us, hu, hnot, hus, hlen, hskip⟩ :=
    skip_separators (c := (c.within .matrix).moveTo (t :: ts)) hended
  rw [Cursor.rest_moveTo] at hu hlen
  have hmove : ((c.within .matrix).moveTo (t :: ts)).moveTo (u :: us) =
      (c.within .matrix).moveTo (u :: us) := Cursor.moveTo_moveTo hts hlen
  rw [List.dropWhile_cons, if_pos ht] at hu
  rw [hmove] at hskip
  rw [hrun, hu, ← htrees]
  refine .after hskip ?_
  have hrec := h lead u us hnot hus hlen
  rw [← Cursor.moveTo_within] at hrec
  exact hrec.rebase (hlen.trans hts) (le_refl _) (by omega)

theorem closedRows_reads (l : Place) (lead : Lead .rows) {c : Cursor} {t : Token} {ts : List Token}
    (h : c.rest = t :: ts) (hended : Ended c.rest) (ht : t.kind = .symbol .rightBracket) :
    Reads limit (pure lead.rowTrees) (c.within .matrix) (c.within .matrix) (c.rest.length + 1)
      (run limit (.inside ctx (.row l lead)) c.rest) rowsTree (closeRows ctx l) := by
  have hready : (c.within .matrix).Ready := ⟨hended, rfl⟩
  cases lead with
  | initial gap =>
    change Reads limit (pure (rowsTree none)) _ _ ((c.within .matrix).rest.length + 1) _ _ _
    refine .here _ hready ?_
    change _ = meet limit _ c.rest
    simp [h, step, startRow, ht, closeRows]
  | following rows sep gap =>
    change Reads limit (pure (rowsTree (some (rows, sep :: gap)))) _ _
      ((c.within .matrix).rest.length + 1) _ _ _
    refine .here _ hready ?_
    change _ = meet limit _ c.rest
    simp [h, step, startRow, ht, closeRows, closeWith, Kind.isSymbol]

/-- Behind the last row stands the closing bracket, or the end of input: that is met by the next
round, which finds an operand missing as long as a level is left. -/
theorem lastRow_reads (hexpr : ReadsExpression limit n expr) (hn : ctx.used + 1 + n = limit)
    (hpos : 0 < n) (l : Place) (rows : Phrase .rows) {c : Cursor} {t : Token} {ts : List Token}
    (hc : c.enclosures = ctx.enclosures) (h : c.rest = t :: ts) (hended : Ended c.rest)
    (hlast : t.kind = .symbol .rightBracket ∨ t.kind = .endOfInput) (m : Nat) :
    Reads limit (rowsFrom expr (m + 1) rows.tree.reverse) (c.within .matrix) (c.within .matrix)
      (c.rest.length + 1) (run limit (closeRow ctx l rows t) ts) rowsTree (closeRows ctx l) := by
  unfold rowsFrom
  refine .after (current_eq h) ?_
  rcases hlast with hclose | hend
  · rw [if_pos (isSymbol_iff.mpr hclose), List.reverse_reverse]
    change Reads limit (pure (rowsTree (some (rows, [])))) _ _
      ((c.within .matrix).rest.length + 1) _ _ _
    refine .here _ ⟨hended, rfl⟩ ?_
    change _ = meet limit _ c.rest
    simp [h, closeRow, closeRows, closeWith, hclose, Kind.isSymbol]
  · obtain rfl : ts = [] := by
      cases h ▸ hended with
      | last _ => rfl
      | cons h' _ => contradiction
    obtain ⟨c', hstop⟩ := hexpr.error_end (c := c.within .matrix)
      (ctx.push (.matrix l (.initial []) none)) (by rw [Context.used_push, hn]) hpos rfl
      (by rw [Context.enclosures_push, ← hc]; rfl) h hend
    rw [if_neg (by simp [hend, Kind.isSymbol])]
    exact .stop (bind_error (items_error hstop)) (by simp [Stop.Sound]) (by simp [closeRow, hend])

theorem rowsFrom_reads (hexpr : ReadsExpression limit n expr)
    (hzero : n = 0 → ∀ c, ∃ stop c', expr c = .error stop c') (hn : ctx.used + 1 + n = limit)
    (l : Place) (fuel : Nat) (lead : Lead .rows) (c : Cursor)
    (hc : c.enclosures = ctx.enclosures) (hended : Ended c.rest)
    (hhead : ∀ t ts, c.rest = t :: ts → t.kind.isSeparator = false)
    (hlead : lead.rowTrees ≠ [] → 0 < n) (hfuel : c.rest.length ≤ fuel) :
    Reads limit (rowsFrom expr fuel lead.rowTrees.reverse) (c.within .matrix) (c.within .matrix)
      (c.rest.length + 1) (run limit (.inside ctx (.row l lead)) c.rest) rowsTree
      (closeRows ctx l) := by
  obtain ⟨t, ts, h⟩ := hended.exists_cons
  induction fuel generalizing c lead t ts with
  | zero => simp [h] at hfuel
  | succ m ih =>
    unfold rowsFrom
    refine .after (current_eq h) ?_
    by_cases hclose : t.kind = .symbol .rightBracket
    · rw [if_pos (isSymbol_iff.mpr hclose), List.reverse_reverse]
      exact closedRows_reads l lead h hended hclose
    · rw [if_neg (by simpa [isSymbol_iff] using hclose)]
      have hroom : lead.rowTrees ≠ [] → ctx.used + 1 < limit := fun hl => by
        have := hlead hl
        omega
      have hrow := row_reads hexpr hn l lead hc hended
      rw [h, meet_cons, ← step_row (hhead t ts h) hclose hroom, ← run_cons, ← h] at hrow
      -- With no level left the row fails; what can stand behind it matters only otherwise.
      rcases Nat.eq_zero_or_pos n with rfl | hpos
      · obtain ⟨stop, c', hstop⟩ := hzero rfl (c.within .matrix)
        rcases hrow with ⟨b, us, hr, _⟩ | ⟨stop', c'', hr, hs, hout⟩
        · rw [items_error hstop] at hr
          contradiction
        · exact .stop (bind_error hr) hs hout
      · refine hrow.bind fun row us hus hready' => ?_
        obtain ⟨u, vs, rfl⟩ := hready'.ended.exists_cons
        have hended' : Ended (u :: vs) := hready'.ended
        have hrows : row.tree :: lead.rowTrees.reverse = (lead.row row).tree.reverse := by
          simp [Lead.tree_row]
        refine .after (current_eq rfl) ?_
        dsimp only
        rw [meet_cons, hrows]
        by_cases hsep : u.kind.isSeparator = true
        · rw [if_pos hsep]
          refine separatedRows_reads l (lead.row row) hsep hended' hus.le
            fun lead' w ws hnot hws hlen => ?_
          exact ih lead' (c.moveTo (w :: ws)) hc hws (by rintro t ts ⟨rfl, rfl⟩; exact hnot)
            (fun _ => hpos) (by rw [Cursor.rest_moveTo]; omega) w ws rfl
        · rw [if_neg hsep]
          by_cases hlast : u.kind = .symbol .rightBracket ∨ u.kind = .endOfInput
          · have hstay : (!(u.kind.isSymbol .rightBracket || u.kind.isEnd)) = false := by
              rcases hlast with hk | hk <;> simp [hk, Kind.isSymbol, Kind.isEnd]
            rw [hstay, if_neg (by simp)]
            obtain ⟨m, rfl⟩ : ∃ j, m = j + 1 := ⟨m - 1, by simp at hus; omega⟩
            have hfinal := lastRow_reads hexpr hn hpos l (lead.row row) (c := c.moveTo (u :: vs)) hc
              rfl hended' hlast m
            rw [← Cursor.moveTo_within] at hfinal
            exact hfinal.rebase hus.le (le_refl _) (by rw [Cursor.rest_moveTo]; omega)
          · rw [not_or] at hlast
            rw [if_pos (by simp [← Bool.not_eq_true, isSymbol_iff, isEnd_iff, hlast]),
              closeRow_of_other (by simpa using hsep) hlast.1 hlast.2]
            exact .stop (bind_error (reject_eq rfl _)) (by simp [Stop.Sound]) run_stopped

theorem matrix_reads (hexpr : ReadsExpression limit n expr)
    (hzero : n = 0 → ∀ c, ∃ stop c', expr c = .error stop c') (hn : ctx.used + 1 + n = limit)
    {c : Cursor} {t : Token} {ts : List Token} (h : c.rest = t :: ts)
    (ht : t.kind = .symbol .leftBracket) (hc : c.enclosures = ctx.enclosures)
    (hended : Ended c.rest) :
    Reads limit (matrix expr) c c c.rest.length
      (run limit (.inside ctx (.row t.place (.initial []))) ts) Phrase.tree
      fun x => afterIndexed ctx (.ofPrimary x) := by
  have hts : Ended ts := (h ▸ hended).tail (by simp [ht])
  have hlen := length_settle_le c.enclosures ts
  let d := (c.moveTo (settle c.enclosures ts)).within .matrix
  obtain ⟨u, us, hu, hnot, hus, hulen, hskip⟩ := skip_separators (c := d) hts.settle
  have hdrop : ts.dropWhile (fun t => t.kind.isSeparator) = u :: us := by
    rw [← dropWhile_settle c.enclosures, ← hu]
    rfl
  have hle : (settle c.enclosures ts).length ≤ c.rest.length := by
    rw [h, List.length_cons]
    omega
  have hbound : (u :: us).length < c.rest.length := by
    rw [h]
    exact Nat.lt_succ_of_le (hulen.trans hlen)
  have hmove : d.moveTo (u :: us) = (c.moveTo (u :: us)).within .matrix :=
    congrArg (Cursor.within · .matrix) (Cursor.moveTo_moveTo hle hulen)
  refine .after (eat_eq h hts ht) (.after enter_matrix_eq (.after hskip (.after (rounds_eq _) ?_)))
  rw [hmove]
  obtain ⟨gap, hrun⟩ := run_skip (step_row_separator limit ctx t.place) (.initial []) ts
  have hrows := rowsFrom_reads hexpr hzero hn t.place (u :: us).length (.initial gap)
    (c.moveTo (u :: us)) hc hus (by rintro t ts ⟨rfl, rfl⟩; exact hnot) (absurd rfl) (le_refl _)
  rw [hrun, hdrop]
  refine hrows.bind fun b ws hws hready => ?_
  have hlast : ws.length ≤ (u :: us).length := Nat.le_of_lt_succ hws
  rw [Cursor.moveTo_within, Cursor.moveTo_moveTo hbound.le hlast]
  obtain ⟨w, ws, rfl⟩ := hready.ended.exists_cons
  rcases b with _ | ⟨rows, gap⟩
  · exact .stop rfl (by simp [Stop.Sound]) run_stopped
  · have hne : ¬ (rowsTree (some (rows, gap))).isEmpty = true := by
      simpa [rowsTree] using Phrase.tree_rows_ne_nil rows
    dsimp only
    rw [if_neg hne]
    exact ((close_reads (c := c.moveTo (w :: ws)) .rightBracket
      (fun r => .ofPrimary (.matrix t.place rows gap r)) .matrix (Node.matrix rows.tree t.line) hc
      hready.ended).rename (fun r => .matrix t.place rows gap r) (fun _ => rfl)
      fun _ => rfl).rebase (hlast.trans hbound.le) (by simp) (hlast.trans hbound.le)

end Reader

end MatrixCalculator
