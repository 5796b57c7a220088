import MatrixCalculator.Proofs.Reading

namespace MatrixCalculator.Reader

def ends {α : Type} : EStateM.Result Stop Cursor α → Cursor
  | .ok _ c => c
  | .error _ c => c

/-- From every cursor at the depth the two readers do the same, and leave it at the depth. -/
def AlikeAt {α : Type} (d : Nat) (r r' : Reader α) : Prop :=
  ∀ c : Cursor, c.depth = d → r c = r' c ∧ (ends (r c)).depth = d

/-- Reads one level deeper unless that is too deep. -/
def guarded {α : Type} (body : Reader α) : Reader α :=
  nested do
    if maxNesting < (← get).depth then reject .tooDeep else body

/-- Reads with as many levels as the depth leaves. -/
def counted {α : Type} (body : Nat → Reader α) : Reader α := fun c => body (maxNesting - c.depth) c

variable {α β : Type} {d : Nat} {r r' : Reader α}

namespace AlikeAt

theorem bind {f f' : α → Reader β} (h : AlikeAt d r r') (hf : ∀ a, AlikeAt d (f a) (f' a)) :
    AlikeAt d (r >>= f) (r' >>= f') := by
  intro c hc
  obtain ⟨heq, hdepth⟩ := h c hc
  cases hr : r c with
  | ok a c' =>
    rw [hr] at heq hdepth
    rw [bind_ok hr, bind_ok heq.symm]
    exact hf a c' hdepth
  | error stop c' =>
    rw [hr] at heq hdepth
    rw [bind_error hr, bind_error heq.symm]
    exact ⟨rfl, hdepth⟩

theorem pure (a : α) : AlikeAt d (Pure.pure a) (Pure.pure a) := fun _ hc => ⟨rfl, hc⟩

theorem throw (stop : Stop) : AlikeAt d (throw stop : Reader α) (throw stop) :=
  fun _ hc => ⟨rfl, hc⟩

theorem map {f : α → β} (h : AlikeAt d r r') : AlikeAt d (f <$> r) (f <$> r') := by
  rw [map_eq_pure_bind, map_eq_pure_bind]
  exact h.bind fun a => .pure (f a)

theorem discard (h : AlikeAt d r r') :
    AlikeAt d (discard r : Reader PUnit) (Functor.discard r') :=
  h.map

theorem ite {p : Prop} [Decidable p] {s s' : Reader α} (h : AlikeAt d r r')
    (hs : AlikeAt d s s') : AlikeAt d (if p then r else s) (if p then r' else s') := by
  split
  · exact h
  · exact hs

theorem nested (h : AlikeAt (d + 1) r r') : AlikeAt d (Reader.nested r) (Reader.nested r') := by
  intro c hc
  obtain ⟨heq, hdepth⟩ := h c.deeper (by rw [Cursor.deeper, hc])
  cases hr : r c.deeper with
  | ok a c' =>
    rw [hr] at heq hdepth
    rw [nested_ok hr, nested_ok heq.symm]
    exact ⟨rfl, congrArg Nat.pred hdepth⟩
  | error stop c' =>
    rw [hr] at heq hdepth
    rw [nested_error hr, nested_error heq.symm]
    exact ⟨rfl, congrArg Nat.pred hdepth⟩

theorem get {f f' : Cursor → Reader α} (h : ∀ c, c.depth = d → AlikeAt d (f c) (f' c)) :
    AlikeAt d (get >>= f) (get >>= f') :=
  fun c hc => h c hc c hc

theorem set {c : Cursor} (hc : c.depth = d) : AlikeAt d (set c : Reader PUnit) (set c) :=
  fun _ _ => ⟨rfl, hc⟩

theorem rounds : AlikeAt d Reader.rounds Reader.rounds := .get fun _ _ => .pure _

theorem current : AlikeAt d Reader.current Reader.current := by
  refine .get fun c _ => ?_
  split
  · exact .pure _
  · exact .throw _

theorem reject (reason : Reason) :
    AlikeAt d (Reader.reject reason : Reader α) (Reader.reject reason) :=
  current.bind fun _ => .throw _

theorem skip (p : Kind → Bool) : AlikeAt d (Reader.skip p) (Reader.skip p) := by
  refine .get fun c hc => ?_
  split
  · exact .set hc
  · exact .throw _

theorem advance : AlikeAt d Reader.advance Reader.advance := by
  refine .get fun c hc => ?_
  split
  · exact .bind (.set hc) fun _ => .ite (.skip _) (.pure _)
  · exact .throw _

theorem take : AlikeAt d Reader.take Reader.take :=
  current.bind fun _ => advance.bind fun _ => .pure _

theorem eat (s : Symbol) : AlikeAt d (Reader.eat s) (Reader.eat s) :=
  current.bind fun _ => .ite .take (.ite (.throw _) (.throw _))

theorem expectOperand : AlikeAt d Reader.expectOperand Reader.expectOperand :=
  (skip _).bind fun _ => current.bind fun _ => .ite (.throw _) (.pure _)

theorem enter (e : Enclosure) : AlikeAt d (Reader.enter e) (Reader.enter e) := by
  have hmodify : AlikeAt d (modify fun c : Cursor => { c with enclosures := e :: c.enclosures } :
      Reader PUnit) (modify fun c => { c with enclosures := e :: c.enclosures }) :=
    fun c hc => ⟨rfl, hc⟩
  exact hmodify.bind fun _ => .ite (.skip _) (.pure _)

theorem leave : AlikeAt d Reader.leave Reader.leave := by
  refine .get fun c hc => ?_
  split
  · exact .set hc
  · exact .throw _

end AlikeAt

section Productions

variable {unary unary' expr expr' : Reader Node}

theorem chainFrom_alike (op? : Kind → Option BinaryOp) (h : AlikeAt d expr expr') (n : Nat)
    (left : Node) : AlikeAt d (chainFrom op? expr n left) (chainFrom op? expr' n left) := by
  induction n generalizing left with
  | zero => exact .throw _
  | succ n ih =>
    refine AlikeAt.current.bind fun t => ?_
    split
    · exact AlikeAt.take.bind fun t => h.bind fun right => ih _
    · exact .pure _

theorem chain_alike (op? : Kind → Option BinaryOp) (h : AlikeAt d expr expr') :
    AlikeAt d (chain op? expr) (chain op? expr') :=
  h.bind fun first => AlikeAt.rounds.bind fun n => chainFrom_alike op? h n first

theorem expression_alike (h : AlikeAt d unary unary') :
    AlikeAt d (expression unary) (expression unary') :=
  chain_alike additive? (chain_alike multiplicative? h)

theorem itemsFrom_alike (h : AlikeAt d expr expr') (n : Nat) (nodes : List Node) :
    AlikeAt d (itemsFrom expr n nodes) (itemsFrom expr' n nodes) := by
  induction n generalizing nodes with
  | zero => exact .throw _
  | succ n ih =>
    refine AlikeAt.current.bind fun t => .ite ?_ (.pure _)
    exact (AlikeAt.eat _).discard.bind fun _ => h.bind fun item => ih _

theorem items_alike (h : AlikeAt d expr expr') : AlikeAt d (items expr) (items expr') :=
  h.bind fun first => AlikeAt.rounds.bind fun n => itemsFrom_alike h n [first]

theorem arguments_alike (h : AlikeAt d expr expr') :
    AlikeAt d (arguments expr) (arguments expr') := by
  have hclose : ∀ args : List Node, AlikeAt d (do leave; discard (eat .rightParen); return args)
      (do leave; discard (eat .rightParen); return args) := fun args =>
    AlikeAt.leave.bind fun _ => (AlikeAt.eat _).discard.bind fun _ => .pure args
  refine (AlikeAt.eat _).discard.bind fun _ => (AlikeAt.enter _).bind fun _ => ?_
  refine AlikeAt.current.bind fun t => .ite (hclose []) ?_
  exact (items_alike h).bind hclose

theorem rowsFrom_alike (h : AlikeAt d expr expr') (n : Nat) (rows : List (List Node)) :
    AlikeAt d (rowsFrom expr n rows) (rowsFrom expr' n rows) := by
  induction n generalizing rows with
  | zero => exact .throw _
  | succ n ih =>
    refine AlikeAt.current.bind fun t => .ite (.pure _) ?_
    refine (items_alike h).bind fun row => AlikeAt.current.bind fun t => .ite ?_ (.ite ?_ ?_)
    · exact (AlikeAt.skip _).bind fun _ => ih _
    · exact (AlikeAt.reject _).bind fun _ => ih _
    · exact ih _

theorem matrix_alike (h : AlikeAt d expr expr') : AlikeAt d (matrix expr) (matrix expr') := by
  refine (AlikeAt.eat _).bind fun start => (AlikeAt.enter _).bind fun _ => ?_
  refine (AlikeAt.skip _).bind fun _ => AlikeAt.rounds.bind fun n => ?_
  refine (rowsFrom_alike h n []).bind fun rows => ?_
  have hclose : AlikeAt d
      (do leave; discard (eat .rightBracket); return Node.matrix rows start.line)
      (do leave; discard (eat .rightBracket); return Node.matrix rows start.line) :=
    AlikeAt.leave.bind fun _ => (AlikeAt.eat _).discard.bind fun _ => .pure _
  exact .ite ((AlikeAt.throw _).bind fun _ => hclose) hclose

theorem primary_alike (h : AlikeAt d expr expr') : AlikeAt d (primary expr) (primary expr') := by
  refine AlikeAt.expectOperand.bind fun _ => AlikeAt.current.bind fun t => ?_
  split
  · exact AlikeAt.advance.bind fun _ => .pure _
  · refine AlikeAt.advance.bind fun _ => AlikeAt.current.bind fun u => .ite ?_ (.pure _)
    exact (arguments_alike h).bind fun args => .pure _
  · refine AlikeAt.advance.bind fun _ => (AlikeAt.enter _).bind fun _ => h.bind fun node => ?_
    exact AlikeAt.leave.bind fun _ => (AlikeAt.eat _).discard.bind fun _ => .pure _
  · exact matrix_alike h
  · exact .get fun c _ => .reject _

theorem index_alike (h : AlikeAt d expr expr') : AlikeAt d (index expr) (index expr') := by
  have hclose : ∀ indices : List Node, AlikeAt d
      (do leave; discard (eat .rightBracket); return indices)
      (do leave; discard (eat .rightBracket); return indices) := fun indices =>
    AlikeAt.leave.bind fun _ => (AlikeAt.eat _).discard.bind fun _ => .pure indices
  refine (AlikeAt.enter _).bind fun _ => h.bind fun first => AlikeAt.current.bind fun t => ?_
  refine .ite ?_ (hclose _)
  exact (AlikeAt.eat _).discard.bind fun _ => h.bind fun second => hclose _

theorem postfixFrom_alike (h : AlikeAt d expr expr') (n : Nat) (target : Node) :
    AlikeAt d (postfixFrom expr n target) (postfixFrom expr' n target) := by
  induction n generalizing target with
  | zero => exact .throw _
  | succ n ih =>
    refine AlikeAt.current.bind fun t => .ite ?_ (.pure _)
    exact (AlikeAt.eat _).bind fun t => (index_alike h).bind fun indices => ih _

theorem indexed_alike (h : AlikeAt d expr expr') : AlikeAt d (indexed expr) (indexed expr') :=
  (primary_alike h).bind fun target => AlikeAt.rounds.bind fun n => postfixFrom_alike h n target

theorem power_alike (h : AlikeAt d unary unary') : AlikeAt d (power unary) (power unary') := by
  refine (indexed_alike (expression_alike h)).bind fun base => AlikeAt.current.bind fun t => ?_
  exact .ite ((AlikeAt.eat _).bind fun t => h.bind fun exponent => .pure _) (.pure _)

theorem signed_alike (h : AlikeAt d unary unary') : AlikeAt d (signed unary) (signed unary') := by
  refine AlikeAt.expectOperand.bind fun _ => AlikeAt.current.bind fun t => .ite ?_ (power_alike h)
  exact (AlikeAt.eat _).discard.bind fun _ => h.bind fun operand => .pure _

theorem statementOver_alike {statement statement' : Reader Node}
    (hstatement : AlikeAt d statement statement') (hunary : AlikeAt d unary unary') :
    AlikeAt d (statementOver statement unary) (statementOver statement' unary') := by
  refine AlikeAt.expectOperand.bind fun _ => AlikeAt.current.bind fun t => .get fun c _ => ?_
  dsimp only
  split
  · refine AlikeAt.advance.bind fun _ => (AlikeAt.eat _).discard.bind fun _ => ?_
    exact hstatement.bind fun value => .pure _
  · refine (expression_alike hunary).bind fun node => AlikeAt.current.bind fun t => ?_
    exact .ite ((AlikeAt.reject _).bind fun _ => .pure _) (.pure _)

end Productions

/-- A reader for each number of levels, which closes all levels that it opens, does the same with
the levels that the depth leaves. -/
theorem alikeAt_counted {body : Nat → Reader α} {levels : Nat}
    (hbody : AlikeAt d (body levels) (body levels)) (hd : d + levels = maxNesting) :
    AlikeAt d (body levels) (counted body) := by
  intro c hc
  refine ⟨?_, (hbody c hc).2⟩
  rw [counted, hc, ← hd, Nat.add_sub_cancel_left]

theorem unary_alike (levels : Nat) (d : Nat) : AlikeAt d (unary levels) (unary levels) := by
  induction levels generalizing d with
  | zero => exact .nested (.reject _)
  | succ levels ih => exact .nested (signed_alike (ih (d + 1)))

theorem statement_alike (levels : Nat) (d : Nat) :
    AlikeAt d (statement levels) (statement levels) := by
  induction levels generalizing d with
  | zero => exact .nested (.reject _)
  | succ levels ih => exact .nested (statementOver_alike (ih (d + 1)) (unary_alike levels (d + 1)))

theorem guarded_eq (body : Reader α) (c : Cursor) :
    guarded body c = nested (if maxNesting ≤ c.depth then reject .tooDeep else body) c := by
  have hinner : (do if maxNesting < (← get).depth then reject .tooDeep else body : Reader α)
      c.deeper = (if maxNesting ≤ c.depth then reject .tooDeep else body) c.deeper := by
    have hlimit : maxNesting < c.deeper.depth ↔ maxNesting ≤ c.depth := Nat.lt_succ_iff
    simp only [bind_ok get_eq, hlimit]
  rw [Cursor.deeper] at hinner
  rw [guarded, nested, hinner, nested]

theorem counted_eq_guarded {body : Nat → Reader α} {step : Reader α}
    (hzero : body 0 = nested (reject .tooDeep))
    (hsucc : ∀ levels d, d + 1 + levels = maxNesting →
      AlikeAt d (body (levels + 1)) (nested step)) :
    counted body = guarded step := by
  funext c
  rw [guarded_eq, counted]
  by_cases h : maxNesting ≤ c.depth
  · rw [if_pos h, Nat.sub_eq_zero_of_le h, hzero]
  · obtain ⟨levels, hlevels⟩ : ∃ levels, c.depth + 1 + levels = maxNesting :=
      ⟨maxNesting - (c.depth + 1), by omega⟩
    have hsub : maxNesting - c.depth = levels + 1 := by omega
    rw [if_neg h, hsub]
    exact (hsucc levels c.depth hlevels c rfl).1

/-- Levels and depth add up: with the levels that the depth leaves, a unary expression is read one
level deeper unless that is beyond the limit, and so is every unary expression in it. -/
theorem counted_unary : counted unary = guarded (signed (counted unary)) :=
  counted_eq_guarded rfl fun levels d h =>
    .nested (signed_alike (alikeAt_counted (unary_alike levels (d + 1)) h))

theorem counted_statement :
    counted statement = guarded (statementOver (counted statement) (counted unary)) :=
  counted_eq_guarded rfl fun levels d h =>
    .nested (statementOver_alike (alikeAt_counted (statement_alike levels (d + 1)) h)
      (alikeAt_counted (unary_alike levels (d + 1)) h))

/-- At depth zero a statement may open all levels. -/
theorem terminatedStatement_counted {c : Cursor} (hc : c.depth = 0) :
    terminatedStatement c = (do
      let node ← counted statement
      expectTerminator
      return node) c := by
  have hstatement := alikeAt_counted (statement_alike maxNesting 0) (Nat.zero_add maxNesting)
  have hterminator : AlikeAt 0 expectTerminator expectTerminator := by
    refine AlikeAt.current.bind fun t => ?_
    split
    · exact .reject _
    · exact .pure _
  exact (hstatement.bind (fun node => hterminator.bind fun _ => .pure node) c hc).1

end MatrixCalculator.Reader
