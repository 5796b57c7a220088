import Mathlib
import MatrixCalculator.Proofs.Parsing

namespace MatrixCalculator

theorem Ended.of_suffix {ts us : List Token} (h : Ended ts) (hus : us <:+ ts) (hne : us ≠ []) :
    Ended us := by
  induction h with
  | @last t ht =>
    rcases List.suffix_cons_iff.mp hus with rfl | hnil
    · exact .last ht
    · exact absurd (List.suffix_nil.mp hnil) hne
  | @cons t ts ht hts ih =>
    rcases List.suffix_cons_iff.mp hus with rfl | hrest
    · exact .cons ht hts
    · exact ih hrest

theorem settle_suffix (es : List Enclosure) (ts : List Token) : settle es ts <:+ ts := by
  unfold settle
  split
  · exact List.dropWhile_suffix _
  · exact List.suffix_refl ts

namespace Reader

variable {α β σ : Type} {es fs gs : List Enclosure} {m n : Nat} {ts : List Token}

/-- Reading from the tokens `ts` in the brackets `es` goes on in the brackets `fs`, at least `n`
tokens later, or stops at one of the tokens. Tokens passed before and the depth make no difference,
and the depth is left as it was. -/
inductive Goes (r : Reader α) (es fs : List Enclosure) (n : Nat) (ts : List Token) : Prop where
  | on (a : α) (us : List Token) (hus : us <:+ ts) (hlen : us.length + n ≤ ts.length)
      (hended : Ended us)
      (h : ∀ p d, r ⟨p, ts, es, d⟩ = .ok a ⟨p + (ts.length - us.length), us, fs, d⟩)
  | stops (stop : Stop) (us : List Token) (gs : List Enclosure) (hs : stop.Sound) (hus : us <:+ ts)
      (hended : Ended us)
      (h : ∀ p d, r ⟨p, ts, es, d⟩ = .error stop ⟨p + (ts.length - us.length), us, gs, d⟩)

def Forward (r : Reader α) (es fs : List Enclosure) (n : Nat) : Prop :=
  ∀ ts, Ended ts → r.Goes es fs n ts

namespace Goes

variable {r r' : Reader α} {f : α → Reader β}

theorem mono (h : r.Goes es fs n ts) (hm : m ≤ n) : r.Goes es fs m ts := by
  cases h with
  | on a us hus hlen hended h => exact .on a us hus (by omega) hended h
  | stops stop us gs hs hus hended h => exact .stops stop us gs hs hus hended h

theorem congr (h : ∀ p d, r ⟨p, ts, es, d⟩ = r' ⟨p, ts, es, d⟩) (hr : r'.Goes es fs n ts) :
    r.Goes es fs n ts := by
  cases hr with
  | on a us hus hlen hended hr =>
    exact .on a us hus hlen hended fun p d => (h p d).trans (hr p d)
  | stops stop us gs hs hus hended hr =>
    exact .stops stop us gs hs hus hended fun p d => (h p d).trans (hr p d)

theorem behind {r' : Reader α} {us : List Token} (hus : us <:+ ts)
    (hlen : us.length + n ≤ ts.length)
    (h : ∀ p d, r ⟨p, ts, es, d⟩ = r' ⟨p + (ts.length - us.length), us, fs, d⟩)
    (hr : r'.Goes fs gs m us) : r.Goes es gs (n + m) ts := by
  -- Tokens passed on the way to `us` and from there on add up.
  have hsum : ∀ vs : List Token, vs <:+ us → ∀ p,
      p + (ts.length - us.length) + (us.length - vs.length) = p + (ts.length - vs.length) := by
    intro vs hvs p
    have hvs := hvs.length_le
    omega
  cases hr with
  | on b vs hvs hlen' hended hr =>
    refine .on b vs (hvs.trans hus) (by omega) hended fun p d => ?_
    rw [h, hr, hsum vs hvs]
  | stops stop vs gs hs hvs hended hr =>
    refine .stops stop vs gs hs (hvs.trans hus) hended fun p d => ?_
    rw [h, hr, hsum vs hvs]

theorem bind (h : r.Goes es fs n ts) (hf : ∀ a, (f a).Forward fs gs m) :
    (r >>= f).Goes es gs (n + m) ts := by
  cases h with
  | on a us hus hlen hended h =>
    exact (hf a us hended).behind hus hlen fun p d => bind_ok (h p d)
  | stops stop us gs hs hus hended h =>
    exact .stops stop us gs hs hus hended fun p d => bind_error (h p d)

theorem still (a : α) (hended : Ended ts)
    (h : ∀ p d, r ⟨p, ts, es, d⟩ = .ok a ⟨p, ts, fs, d⟩) : r.Goes es fs 0 ts :=
  .on a ts (List.suffix_refl ts) (le_refl _) hended fun p d => by
    rw [Nat.sub_self, Nat.add_zero, h]

theorem pure (a : α) (hended : Ended ts) : (Pure.pure a : Reader α).Goes es es 0 ts :=
  still a hended fun _ _ => rfl

theorem error (stop : Stop) (hs : stop.Sound) (hended : Ended ts)
    (h : ∀ p d, r ⟨p, ts, es, d⟩ = .error stop ⟨p, ts, es, d⟩) : r.Goes es fs n ts :=
  .stops stop ts es hs (List.suffix_refl ts) hended fun p d => by
    rw [Nat.sub_self, Nat.add_zero, h]

theorem look {a : α} (h : ∀ p d, r ⟨p, ts, es, d⟩ = .ok a ⟨p, ts, es, d⟩)
    (hf : (f a).Goes es fs n ts) : (r >>= f).Goes es fs n ts :=
  hf.congr fun p d => bind_ok (h p d)

theorem get {f : Cursor → Reader β} (h : ∀ p d, f ⟨p, ts, es, d⟩ = f ⟨0, ts, es, 0⟩)
    (hf : (f ⟨0, ts, es, 0⟩).Goes es fs n ts) : (MonadState.get >>= f).Goes es fs n ts :=
  hf.congr fun p d => by rw [bind_ok get_eq, h]

theorem nested (h : r.Goes es fs n ts) : (Reader.nested r).Goes es fs n ts := by
  cases h with
  | on a us hus hlen hended h =>
    exact .on a us hus hlen hended fun p d => nested_ok (c := ⟨p, ts, es, d⟩) (h p (d + 1))
  | stops stop us gs hs hus hended h =>
    exact .stops stop us gs hs hus hended fun p d =>
      nested_error (c := ⟨p, ts, es, d⟩) (h p (d + 1))

theorem discard (h : r.Goes es fs n ts) : (Functor.discard r : Reader PUnit).Goes es fs n ts := by
  cases h with
  | on a us hus hlen hended h =>
    exact .on () us hus hlen hended fun p d => discard_ok (h p d)
  | stops stop us gs hs hus hended h =>
    exact .stops stop us gs hs hus hended fun p d => discard_error (h p d)

end Goes

namespace Forward

variable {r : Reader α} {f : α → Reader β}

theorem mono (h : r.Forward es fs n) (hm : m ≤ n) : r.Forward es fs m :=
  fun ts hts => (h ts hts).mono hm

theorem bind (h : r.Forward es fs n) (hf : ∀ a, (f a).Forward fs gs m) :
    (r >>= f).Forward es gs (n + m) :=
  fun ts hts => (h ts hts).bind hf

theorem pure (a : α) : (Pure.pure a : Reader α).Forward es es 0 := fun _ hts => .pure a hts

theorem nested (h : r.Forward es fs n) : (Reader.nested r).Forward es fs n :=
  fun ts hts => (h ts hts).nested

theorem discard (h : r.Forward es fs n) : (Functor.discard r : Reader PUnit).Forward es fs n :=
  fun ts hts => (h ts hts).discard

theorem current {f : Token → Reader β}
    (hf : ∀ t us, Ended (t :: us) → (f t).Goes es fs n (t :: us)) :
    (Reader.current >>= f).Forward es fs n := by
  intro ts hts
  obtain ⟨t, us, rfl⟩ := hts.exists_cons
  exact .look (fun _ _ => current_eq rfl) (hf t us hts)

theorem rounds {f : Nat → Reader β} (hf : ∀ ts, Ended ts → (f ts.length).Goes es fs n ts) :
    (Reader.rounds >>= f).Forward es fs n :=
  fun ts hts => .look (fun _ _ => rounds_eq _) (hf ts hts)

theorem rejectAt_bind (t : Token) (reason : Reason) (f : α → Reader β) :
    (Reader.rejectAt t reason >>= f).Forward es fs n :=
  fun _ hts => .error (.malformed t.line t.column reason) (by simp [Stop.Sound]) hts
    fun _ _ => rfl

theorem reject_bind (reason : Reason) (f : α → Reader β) :
    (Reader.reject reason >>= f).Forward es fs n := by
  intro ts hts
  obtain ⟨t, us, rfl⟩ := hts.exists_cons
  exact .error _ (by simp [Stop.Sound]) hts fun p d => bind_error (reject_eq rfl reason)

theorem reject (reason : Reason) : (Reader.reject reason : Reader α).Forward es fs n := by
  intro ts hts
  obtain ⟨t, us, rfl⟩ := hts.exists_cons
  exact .error _ (by simp [Stop.Sound]) hts fun p d => reject_eq rfl reason

end Forward

theorem Goes.advance {t : Token} {us : List Token} (hts : Ended (t :: us))
    (ht : t.kind ≠ .endOfInput) : Reader.advance.Goes es es 1 (t :: us) := by
  have hus : Ended us := hts.tail ht
  have hle := length_settle_le es us
  exact .on () (settle es us) ((settle_suffix es us).trans (List.suffix_cons t us))
    (by rw [List.length_cons]; omega) hus.settle fun p d => advance_eq rfl hus

theorem Goes.take {t : Token} {us : List Token} (hts : Ended (t :: us))
    (ht : t.kind ≠ .endOfInput) : Reader.take.Goes es es 1 (t :: us) :=
  .look (fun _ _ => current_eq rfl) ((Goes.advance hts ht).bind (m := 0) fun _ => .pure t)

namespace Forward

theorem skip {p : Kind → Bool} (hp : p .endOfInput = false) : (Reader.skip p).Forward es es 0 :=
  fun _ hts => .on () _ (List.dropWhile_suffix _) (List.dropWhile_suffix _).length_le
    (hts.dropWhile hp) fun _ _ => skip_eq hp hts

theorem eat (s : Symbol) : (Reader.eat s).Forward es es 1 := by
  refine .current fun t us hts => ?_
  split
  · rename_i hs
    exact .take hts (by simp [isSymbol_iff.mp hs])
  · split
    · exact .error .incomplete (by simp [Stop.Sound]) hts fun _ _ => rfl
    · exact .error (.malformed t.line t.column _) (by simp [Stop.Sound]) hts fun _ _ => rfl

theorem enter (e : Enclosure) : (Reader.enter e).Forward es (e :: es) 0 := by
  intro ts hts
  cases e with
  | round =>
    exact .on () _ (List.dropWhile_suffix _) (List.dropWhile_suffix _).length_le
      (hts.dropWhile (p := Kind.isNewline) rfl) fun p d => enter_round_eq hts
  | matrix => exact .still () hts fun _ _ => rfl

theorem leave (e : Enclosure) : Reader.leave.Forward (e :: es) es 0 :=
  fun _ hts => .still () hts fun _ _ => rfl

theorem expectOperand : Reader.expectOperand.Forward es es 0 := by
  refine (skip rfl).bind (m := 0) fun _ => .current fun t us hts => ?_
  split
  · exact .error .incomplete (by simp [Stop.Sound]) hts fun _ _ => rfl
  · exact .pure _ hts

end Forward

/-- A round of a loop from the tokens `ts`: it leaves the loop and takes nothing, it stops, or it
takes tokens and goes on with one round less. What it does is the same however many rounds the loop
may make. -/
inductive Round (loop : Nat → σ → Reader α) (es : List Enclosure) (s : σ) (ts : List Token) :
    Prop where
  | leaves (a : α) (h : ∀ n p d, loop (n + 1) s ⟨p, ts, es, d⟩ = .ok a ⟨p, ts, es, d⟩)
  | stops (stop : Stop) (us : List Token) (gs : List Enclosure) (hs : stop.Sound) (hus : us <:+ ts)
      (hended : Ended us) (h : ∀ n p d, loop (n + 1) s ⟨p, ts, es, d⟩ =
        .error stop ⟨p + (ts.length - us.length), us, gs, d⟩)
  | turns (s' : σ) (us : List Token) (hus : us <:+ ts) (hlt : us.length < ts.length)
      (hended : Ended us) (h : ∀ n p d, loop (n + 1) s ⟨p, ts, es, d⟩ =
        loop n s' ⟨p + (ts.length - us.length), us, es, d⟩)

/-- Every round of the loop takes tokens or is the last. -/
def Progresses (loop : Nat → σ → Reader α) : Prop :=
  ∀ es s ts, Ended ts → Round loop es s ts

/-- A loop whose rounds take tokens has rounds enough if it may make as many as there are tokens. -/
theorem goes_of_round {loop : Nat → σ → Reader α}
    (hround : ∀ s ts, Ended ts → Round loop es s ts) (s : σ) (hts : Ended ts)
    (hn : ts.length ≤ n) : (loop n s).Goes es es 0 ts := by
  induction n generalizing s ts with
  | zero =>
    obtain ⟨t, us, rfl⟩ := hts.exists_cons
    simp at hn
  | succ n ih =>
    cases hround s ts hts with
    | leaves a h => exact .still a hts (h n)
    | stops stop us gs hs hus hended h => exact .stops stop us gs hs hus hended (h n)
    | turns s' us hus hlt hended h =>
      exact (ih s' hended (by omega)).behind (n := 0) hus (by omega) (h n)

theorem Round.of_goes {loop : Nat → σ → Reader α} {s : σ} {body : Reader σ}
    (hbody : body.Goes es es 1 ts)
    (h : ∀ n p d, loop (n + 1) s ⟨p, ts, es, d⟩ = (body >>= loop n) ⟨p, ts, es, d⟩) :
    Round loop es s ts := by
  cases hbody with
  | on s' us hus hlen hended hb =>
    refine .turns s' us hus (by omega) hended fun n p d => ?_
    rw [h, bind_ok (hb p d)]
  | stops stop us gs hs hus hended hb =>
    refine .stops stop us gs hs hus hended fun n p d => ?_
    rw [h, bind_error (hb p d)]

variable {expr operand item : Reader Node}

theorem chainFrom_round {op? : Kind → Option BinaryOp} (hend : op? .endOfInput = none)
    (hoperand : operand.Forward es es 1) (left : Node) (hts : Ended ts) :
    Round (chainFrom op? operand) es left ts := by
  obtain ⟨t, us, rfl⟩ := hts.exists_cons
  cases hop : op? t.kind with
  | none =>
    refine .leaves left fun n p d => ?_
    rw [chainFrom, bind_ok (current_eq rfl), hop]
    rfl
  | some op =>
    have ht : t.kind ≠ .endOfInput := by
      rintro hk
      simp [hk, hend] at hop
    have hbody : (do
        let t ← take
        let right ← operand
        return Node.binary op left right t.line).Goes es es 1 (t :: us) :=
      ((Goes.take hts ht).bind fun _ => hoperand.bind fun _ => .pure _).mono (by omega)
    refine .of_goes hbody fun n p d => ?_
    rw [chainFrom, bind_ok (current_eq rfl), hop]
    simp only [bind_assoc, pure_bind]

theorem chain_forward {op? : Kind → Option BinaryOp} (hend : op? .endOfInput = none)
    (hoperand : operand.Forward es es 1) : (chain op? operand).Forward es es 1 :=
  hoperand.bind (m := 0) fun first => .rounds fun _ hts =>
    goes_of_round (fun left _ => chainFrom_round hend hoperand left) first hts (le_refl _)

theorem expression_forward {unary : Reader Node} (h : unary.Forward es es 1) :
    (expression unary).Forward es es 1 :=
  chain_forward rfl (chain_forward rfl h)

theorem itemsFrom_round (hitem : item.Forward es es 1) (items : List Node) (hts : Ended ts) :
    Round (itemsFrom item) es items ts := by
  obtain ⟨t, us, rfl⟩ := hts.exists_cons
  by_cases ht : t.kind.isSymbol .comma = true
  · have hbody : (do
        discard (eat .comma)
        return (← item) :: items).Goes es es 1 (t :: us) :=
      ((Forward.eat .comma).discard.bind (fun _ => hitem.bind fun _ => .pure _) _ hts).mono
        (by omega)
    refine .of_goes hbody fun n p d => ?_
    rw [itemsFrom, bind_ok (current_eq rfl), if_pos ht]
    simp only [bind_assoc, pure_bind]
  · refine .leaves items.reverse fun n p d => ?_
    rw [itemsFrom, bind_ok (current_eq rfl), if_neg ht]
    rfl

theorem items_forward (hitem : item.Forward es es 1) : (items item).Forward es es 1 :=
  hitem.bind (m := 0) fun first => .rounds fun _ hts =>
    goes_of_round (fun items _ => itemsFrom_round hitem items) [first] hts (le_refl _)

theorem rowsFrom_round (hexpr : expr.Forward es es 1) (rows : List (List Node)) (hts : Ended ts) :
    Round (rowsFrom expr) es rows ts := by
  obtain ⟨t, us, rfl⟩ := hts.exists_cons
  by_cases ht : t.kind.isSymbol .rightBracket = true
  · refine .leaves rows.reverse fun n p d => ?_
    rw [rowsFrom, bind_ok (current_eq rfl), if_pos ht]
    rfl
  · -- At the end of input the row itself stops for want of an operand, so nothing needs to follow.
    have hbody : (do
        let row ← items expr
        let kind := (← current).kind
        if kind.isSeparator then skip Kind.isSeparator
        else if !(kind.isSymbol .rightBracket || kind.isEnd) then reject (.rowUnfinished kind)
        return row :: rows).Goes es es 1 (t :: us) := by
      refine (items_forward hexpr).bind (m := 0) (fun row => .current fun u vs hvs => ?_) _ hts
      dsimp only
      split
      · exact (Forward.skip rfl).bind (fun _ => .pure _) _ hvs
      · split
        · exact Forward.reject_bind _ _ _ hvs
        · exact .pure _ hvs
    refine .of_goes hbody fun n p d => ?_
    rw [rowsFrom, bind_ok (current_eq rfl), if_neg ht]
    simp only [bind_assoc, pure_bind, apply_ite (· >>= rowsFrom expr n)]

theorem shut_forward (e : Enclosure) (s : Symbol) (a : α) :
    (do leave; discard (eat s); return a : Reader α).Forward (e :: es) es 1 :=
  ((Forward.leave e).bind fun _ => (Forward.eat s).discard.bind fun _ => .pure a).mono (by omega)

theorem arguments_forward (hexpr : ∀ es, expr.Forward es es 1) :
    (arguments expr).Forward es es 1 := by
  refine ((Forward.eat .leftParen).discard.bind fun _ => (Forward.enter .round).bind (m := 1)
    fun _ => .current fun t us hts => ?_).mono (by omega)
  dsimp only
  split
  · exact ((Forward.pure _).bind (fun _ => shut_forward .round .rightParen _) _ hts).mono (by omega)
  · exact ((items_forward (hexpr _)).bind (fun _ => shut_forward .round .rightParen _) _ hts).mono
      (by omega)

theorem matrix_forward (hexpr : ∀ es, expr.Forward es es 1) : (matrix expr).Forward es es 1 := by
  refine ((Forward.eat .leftBracket).bind fun start => (Forward.enter .matrix).bind fun _ =>
    (Forward.skip rfl).bind (m := 1) fun _ => .rounds fun ts hts => ?_).mono (by omega)
  have hrows := goes_of_round (fun rows ts => rowsFrom_round (hexpr (.matrix :: es)) rows) [] hts
    (le_refl _)
  refine (hrows.bind (m := 1) fun rows => ?_).mono (by omega)
  dsimp only
  split
  · exact Forward.rejectAt_bind start _ _
  · exact shut_forward .matrix .rightBracket _

theorem primary_forward (hexpr : ∀ es, expr.Forward es es 1) : (primary expr).Forward es es 1 := by
  refine (Forward.expectOperand.bind (m := 1) fun _ => .current fun t us hts => ?_).mono (by omega)
  split
  · rename_i value hk
    exact (Goes.advance hts (by simp [hk])).bind fun _ => .pure _
  · rename_i name hk
    refine (Goes.advance hts (by simp [hk])).bind (m := 0) fun _ => .current fun u vs hvs => ?_
    split
    · exact ((arguments_forward hexpr).bind (fun _ => .pure _) _ hvs).mono (by omega)
    · exact .pure _ hvs
  · rename_i hk
    exact ((Goes.advance hts (by simp [hk])).bind fun _ => (Forward.enter .round).bind fun _ =>
      (hexpr _).bind fun _ => shut_forward .round .rightParen _).mono (by omega)
  · exact matrix_forward hexpr _ hts
  · exact .get (fun _ _ => rfl) (Forward.reject (operandReason t.kind es) _ hts)

theorem index_forward (hexpr : ∀ es, expr.Forward es es 1) : (index expr).Forward es es 1 := by
  refine ((Forward.enter .round).bind fun _ => (hexpr _).bind (m := 1) fun first =>
    .current fun t us hts => ?_).mono (by omega)
  dsimp only
  split
  · exact ((Forward.eat .comma).discard.bind (fun _ => (hexpr _).bind fun _ =>
      (Forward.pure _).bind fun _ => shut_forward .round .rightBracket _) _ hts).mono (by omega)
  · exact ((Forward.pure _).bind (fun _ => shut_forward .round .rightBracket _) _ hts).mono
      (by omega)

theorem postfixFrom_round (hexpr : ∀ es, expr.Forward es es 1) (target : Node) (hts : Ended ts) :
    Round (postfixFrom expr) es target ts := by
  obtain ⟨t, us, rfl⟩ := hts.exists_cons
  by_cases ht : t.kind.isSymbol .leftBracket = true
  · have hbody : (do
        let t ← eat .leftBracket
        let indices ← index expr
        return Node.index target indices t.line).Goes es es 1 (t :: us) :=
      ((Forward.eat .leftBracket).bind (fun _ => (index_forward hexpr).bind fun _ => .pure _) _
        hts).mono (by omega)
    refine .of_goes hbody fun n p d => ?_
    rw [postfixFrom, bind_ok (current_eq rfl), if_pos ht]
    simp only [bind_assoc, pure_bind]
  · refine .leaves target fun n p d => ?_
    rw [postfixFrom, bind_ok (current_eq rfl), if_neg ht]
    rfl

theorem indexed_forward (hexpr : ∀ es, expr.Forward es es 1) : (indexed expr).Forward es es 1 :=
  (primary_forward hexpr).bind (m := 0) fun target => .rounds fun _ hts =>
    goes_of_round (fun target _ => postfixFrom_round hexpr target) target hts (le_refl _)

theorem power_forward {unary : Reader Node} (h : ∀ es, unary.Forward es es 1) :
    (power unary).Forward es es 1 := by
  refine (indexed_forward fun es => expression_forward (h es)).bind (m := 0) fun base =>
    .current fun t us hts => ?_
  split
  · exact (((Forward.eat .caret).bind fun _ => (h es).bind fun _ => .pure _) _ hts).mono
      (Nat.zero_le _)
  · exact .pure base hts

theorem signed_forward {unary : Reader Node} (h : ∀ es, unary.Forward es es 1) :
    (signed unary).Forward es es 1 := by
  refine Forward.expectOperand.bind (n := 0) (m := 1) fun _ => .current fun t us hts => ?_
  split
  · exact (((Forward.eat .minus).discard.bind fun _ => (h es).bind fun _ => .pure _) _ hts).mono
      (by omega)
  · exact power_forward h _ hts

theorem unary_forward (levels : Nat) : (unary levels).Forward es es 1 := by
  -- All recursion goes through `unary` with a level less, whatever brackets are opened on the way.
  induction levels generalizing es with
  | zero => exact (Forward.reject _).nested
  | succ levels ih => exact (signed_forward fun _ => ih).nested

theorem statement_forward (levels : Nat) : (statement levels).Forward es es 1 := by
  induction levels with
  | zero => exact (Forward.reject _).nested
  | succ levels ih =>
    refine Forward.nested ((Forward.expectOperand.bind (m := 1) fun _ =>
      .current fun t us hts => ?_).mono (by omega))
    refine .get (fun _ _ => rfl) ?_
    dsimp only
    split
    · rename_i name hk _
      exact ((Goes.advance hts (by simp [hk])).bind fun _ => (Forward.eat .assign).discard.bind
        fun _ => ih.bind fun _ => .pure _).mono (by omega)
    · refine (expression_forward (unary_forward levels)).bind (m := 0) (fun node =>
        .current fun u vs hvs => ?_) _ hts
      split
      · exact Forward.reject_bind _ _ _ hvs
      · exact .pure _ hvs

theorem expectTerminator_forward : expectTerminator.Forward es es 0 := by
  refine .current fun t us hts => ?_
  split
  · exact Forward.reject _ _ hts
  · exact .pure _ hts

theorem terminatedStatement_forward : terminatedStatement.Forward es es 1 :=
  (statement_forward maxNesting).bind fun _ => expectTerminator_forward.bind fun _ => .pure _

end Reader

namespace Cursor

variable {es : List Enclosure} {ts : List Token}

/-- What reading one statement comes to: the statement and the tokens behind it, or the cursor back
at the start and out of all brackets, or the cursor at the token that cannot be mended. -/
theorem statement_cases (es : List Enclosure) (hts : Ended ts) :
    (∃ node us, us <:+ ts ∧ us.length < ts.length ∧ Ended us ∧ ∀ p d,
      statement ⟨p, ts, es, d⟩ =
        (.complete node us, ⟨p + (ts.length - us.length), us, es, d⟩)) ∨
    (∀ p d, statement ⟨p, ts, es, d⟩ = (.incomplete, ⟨p, ts, [], d⟩)) ∨
    ∃ line column reason us gs, us <:+ ts ∧ Ended us ∧ ∀ p d,
      statement ⟨p, ts, es, d⟩ =
        (.malformed line column reason, ⟨p + (ts.length - us.length), us, gs, d⟩) := by
  have hread : Reader.terminatedStatement.Goes es es 1 ts :=
    Reader.terminatedStatement_forward ts hts
  cases hread with
  | on node us hus hlen hended h =>
    refine .inl ⟨node, us, hus, by omega, hended, fun p d => ?_⟩
    rw [statement, h]
  | stops stop us gs hs hus hended h =>
    cases stop with
    | incomplete =>
      refine .inr (.inl fun p d => ?_)
      rw [statement, h]
    | malformed line column reason =>
      refine .inr (.inr ⟨line, column, reason, us, gs, hus, hended, fun p d => ?_⟩)
      rw [statement, h]
    | broken b => exact absurd rfl (hs b)

theorem skipSeparators_eq {c : Cursor} (h : Ended c.rest) :
    c.skipSeparators = .ok (c.moveTo (c.rest.dropWhile fun t => t.kind.isSeparator)) := by
  rw [skipSeparators, Reader.skipRun_eq rfl h]
  rfl

/-- A round of reading statements from the tokens `ts`: it ends the program, or it takes tokens for
one more statement and goes on with one round less. -/
inductive Round (es : List Enclosure) (nodes : List Node) (ts : List Token) : Prop where
  | ends (out : Outcome (List Node)) (us : List Token) (gs : List Enclosure)
      (hout : ∀ b, out ≠ .broken b) (hus : us <:+ ts) (hended : Ended us)
      (h : ∀ n p d, programFrom (n + 1) nodes ⟨p, ts, es, d⟩ =
        (out, ⟨p + (ts.length - us.length), us, gs, d⟩))
  | turns (node : Node) (us : List Token) (hus : us <:+ ts) (hlt : us.length < ts.length)
      (hended : Ended us) (h : ∀ n p d, programFrom (n + 1) nodes ⟨p, ts, es, d⟩ =
        programFrom n (node :: nodes) ⟨p + (ts.length - us.length), us, es, d⟩)

theorem programFrom_round (es : List Enclosure) (nodes : List Node) (hts : Ended ts) :
    Round es nodes ts := by
  obtain ⟨t, us, hdrop, -, hus, hlen⟩ := hts.exists_dropWhile (p := Kind.isSeparator) rfl
  have hsuffix : t :: us <:+ ts := by
    rw [← hdrop]
    exact List.dropWhile_suffix _
  have hskip : ∀ p d, skipSeparators ⟨p, ts, es, d⟩ =
      .ok ⟨p + (ts.length - (t :: us).length), t :: us, es, d⟩ := by
    intro p d
    rw [skipSeparators_eq hts, hdrop]
    rfl
  by_cases hend : t.kind.isEnd = true
  · refine .ends (.complete nodes.reverse []) (t :: us) es (by simp) hsuffix hus fun n p d => ?_
    rw [programFrom, hskip]
    simp [hend]
  · have hsum : ∀ vs : List Token, vs <:+ t :: us → ∀ p, p + (ts.length - (t :: us).length) +
        ((t :: us).length - vs.length) = p + (ts.length - vs.length) := by
      intro vs hvs p
      have hvs := hvs.length_le
      omega
    have hany : ((t :: us).head?.any fun t => t.kind.isEnd) = false := by simpa using hend
    rcases statement_cases es hus with ⟨node, vs, hvs, hlt, hended, h⟩ | h |
      ⟨line, column, reason, vs, gs, hvs, hended, h⟩
    · refine .turns node vs (hvs.trans hsuffix) (by omega) hended fun n p d => ?_
      rw [programFrom, hskip]
      dsimp only
      rw [hany, if_neg Bool.false_ne_true, h, hsum vs hvs]
    · refine .ends .incomplete (t :: us) [] (by simp) hsuffix hus fun n p d => ?_
      rw [programFrom, hskip]
      dsimp only
      rw [hany, if_neg Bool.false_ne_true, h]
    · refine .ends (.malformed line column reason) vs gs (by simp) (hvs.trans hsuffix) hended
        fun n p d => ?_
      rw [programFrom, hskip]
      dsimp only
      rw [hany, if_neg Bool.false_ne_true, h, hsum vs hvs]

/-- A program is read in as many rounds as there are tokens; more rounds change nothing. -/
theorem exists_programFrom (es : List Enclosure) (nodes : List Node) (hts : Ended ts) :
    ∃ out us gs, (∀ b, out ≠ .broken b) ∧ us <:+ ts ∧ Ended us ∧ ∀ n p d, ts.length ≤ n →
      programFrom n nodes ⟨p, ts, es, d⟩ = (out, ⟨p + (ts.length - us.length), us, gs, d⟩) := by
  -- By the number of tokens ahead: a round that does not end the program leaves fewer of them.
  induction hlength : ts.length using Nat.strong_induction_on generalizing ts nodes with
  | h length ih =>
    subst hlength
    have hsucc : ∀ n, ts.length ≤ n → ∃ m, n = m + 1 := by
      intro n hn
      obtain ⟨t, us, rfl⟩ := hts.exists_cons
      exact Nat.exists_eq_add_one.mpr (Nat.lt_of_lt_of_le (Nat.succ_pos _) hn)
    cases programFrom_round es nodes hts with
    | ends out us gs hout hus hended h =>
      refine ⟨out, us, gs, hout, hus, hended, fun n p d hn => ?_⟩
      obtain ⟨m, rfl⟩ := hsucc n hn
      exact h m p d
    | turns node us hus hlt hended h =>
      obtain ⟨out, vs, gs, hout, hvs, hended', h'⟩ := ih us.length hlt (node :: nodes) hended rfl
      refine ⟨out, vs, gs, hout, hvs.trans hus, hended', fun n p d hn => ?_⟩
      obtain ⟨m, rfl⟩ := hsucc n hn
      have hle := hvs.length_le
      rw [h, h' m _ _ (by omega)]
      congr 2
      omega

end Cursor

namespace Reader

theorem advance_of_last {c : Cursor} {t : Token} (h : c.rest = [t]) :
    advance c = .error (.broken .pastEnd) c := by
  rw [advance, bind_ok get_eq, h]
  rfl

theorem skip_of_all {c : Cursor} {p : Kind → Bool} (h : ∀ t ∈ c.rest, p t.kind = true) :
    skip p c = .error (.broken .pastEnd) c := by
  have hrun : ∀ ts : List Token, (∀ t ∈ ts, p t.kind = true) → ∀ n, skipRun p n ts = none := by
    intro ts hts n
    induction ts generalizing n with
    | nil => rfl
    | cons t ts ih =>
      rw [skipRun, if_pos (hts t List.mem_cons_self)]
      exact ih (fun u hu => hts u (List.mem_cons_of_mem t hu)) (n + 1)
  rw [skip, bind_ok get_eq, hrun _ h]
  rfl

theorem leave_of_none {c : Cursor} (h : c.enclosures = []) :
    leave c = .error (.broken .notOpen) c := by
  rw [leave, bind_ok get_eq, h]
  rfl

end Reader

/-- Reading always comes to an end and never leaves the tokens. To take the last token, to skip all
tokens and to close a bracket that is not open are breakdowns; where the end of input comes last and
only there, no breakdown happens, and in the end the cursor stands at one of the tokens. No loop is
ended by the number of its rounds: each round takes a token, leaves the loop or stops. -/
theorem parseProgram_progress {tokens : List Token} (h : Ended tokens) :
    ((∀ c t, c.rest = [t] → Reader.advance c = .error (.broken .pastEnd) c) ∧
      (∀ c p, (∀ t ∈ c.rest, p t.kind = true) → Reader.skip p c = .error (.broken .pastEnd) c) ∧
      ∀ c, c.enclosures = [] → Reader.leave c = .error (.broken .notOpen) c) ∧
    (∀ b, parseProgram tokens ≠ .broken b) ∧
    (∃ position < tokens.length, ∃ es,
      (Cursor.ofTokens tokens).program.2 = ⟨position, tokens.drop position, es, 0⟩) ∧
    (∀ n, tokens.length ≤ n →
      Cursor.programFrom n [] (.ofTokens tokens) = (Cursor.ofTokens tokens).program) ∧
    (∀ es nodes ts, Ended ts → Cursor.Round es nodes ts) ∧
    ∀ levels,
      Reader.Progresses
        (Reader.chainFrom additive? (Reader.chain multiplicative? (Reader.unary levels))) ∧
      Reader.Progresses (Reader.chainFrom multiplicative? (Reader.unary levels)) ∧
      Reader.Progresses (Reader.itemsFrom (Reader.expression (Reader.unary levels))) ∧
      Reader.Progresses (Reader.rowsFrom (Reader.expression (Reader.unary levels))) ∧
      Reader.Progresses (Reader.postfixFrom (Reader.expression (Reader.unary levels))) := by
  obtain ⟨out, us, gs, hout, hus, hended, hrun⟩ := Cursor.exists_programFrom [] [] h
  have hprogram : (Cursor.ofTokens tokens).program =
      (out, ⟨0 + (tokens.length - us.length), us, gs, 0⟩) := hrun _ 0 0 (le_refl _)
  have hunary : ∀ levels es, (Reader.unary levels).Forward es es 1 := fun levels _ =>
    Reader.unary_forward levels
  have hexpr : ∀ levels es, (Reader.expression (Reader.unary levels)).Forward es es 1 :=
    fun levels es => Reader.expression_forward (hunary levels es)
  refine ⟨⟨fun _ _ => Reader.advance_of_last, fun _ _ => Reader.skip_of_all,
    fun _ => Reader.leave_of_none⟩, ?_, ?_, ?_,
    fun es nodes ts => Cursor.programFrom_round es nodes, fun levels => ⟨?_, ?_, ?_, ?_, ?_⟩⟩
  · intro b
    rw [parseProgram, hprogram]
    exact hout b
  · refine ⟨tokens.length - us.length, ?_, gs, ?_⟩
    · obtain ⟨t, vs, rfl⟩ := hended.exists_cons
      have hle := hus.length_le
      rw [List.length_cons] at hle ⊢
      omega
    · rw [hprogram, Nat.zero_add, ← List.suffix_iff_eq_drop.mp hus]
  · intro n hn
    rw [hprogram]
    exact hrun n 0 0 hn
  · exact fun es left ts =>
      Reader.chainFrom_round rfl (Reader.chain_forward rfl (hunary levels es)) left
  · exact fun es left ts => Reader.chainFrom_round rfl (hunary levels es) left
  · exact fun es items ts => Reader.itemsFrom_round (hexpr levels es) items
  · exact fun es rows ts => Reader.rowsFrom_round (hexpr levels es) rows
  · exact fun es target ts => Reader.postfixFrom_round (hexpr levels) target

/-- The input ends behind a row: the next round of the loop over rows misses its operand. -/
theorem parseProgram_progress_row : ∃ tokens : List Token, Ended tokens ∧
    tokens.map (·.kind) = [.symbol .leftBracket, .name "a", .endOfInput] ∧
    parseProgram tokens = .incomplete ∧ (∀ b, parseProgram tokens ≠ .broken b) ∧
    ∃ position < tokens.length, ∃ es,
      (Cursor.ofTokens tokens).program.2 = ⟨position, tokens.drop position, es, 0⟩ := by
  have hended : Ended [⟨.symbol .leftBracket, 1, 1⟩, ⟨.name "a", 1, 2⟩, ⟨.endOfInput, 1, 3⟩] :=
    .cons (by simp) (.cons (by simp) (.last rfl))
  have hincomplete : parseProgram [⟨.symbol .leftBracket, 1, 1⟩, ⟨.name "a", 1, 2⟩,
      ⟨.endOfInput, 1, 3⟩] = .incomplete := by
    cbv
  obtain ⟨-, hbroken, hposition, -⟩ := parseProgram_progress hended
  exact ⟨_, hended, rfl, hincomplete, hbroken, hposition⟩

end MatrixCalculator
