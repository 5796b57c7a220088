import MatrixCalculator.Proofs.Lines

namespace MatrixCalculator

section Results

variable {α β : Type} {P : α → Prop} {Q : β → Prop} {E : Failure → Prop}

/-- The result has the first property if there is one, and the failure has the second otherwise. -/
def Yields (P : α → Prop) (E : Failure → Prop) : Except Failure α → Prop
  | .ok a => P a
  | .error e => E e

namespace Yields

variable {r : Except Failure α} {f : α → Except Failure β}

theorem mono {P' : α → Prop} {E' : Failure → Prop} (h : Yields P E r) (hP : ∀ a, P a → P' a)
    (hE : ∀ e, E e → E' e) : Yields P' E' r := by
  cases r with
  | ok a => exact hP a h
  | error e => exact hE e h

/-- The second step may use that the first was made. -/
theorem bind (h : Yields P E r) (hf : ∀ a, r = .ok a → P a → Yields Q E (f a)) :
    Yields Q E (r >>= f) := by
  cases r with
  | ok a => exact hf a rfl h
  | error e => exact h

theorem map {g : α → β} (h : Yields P E r) (hg : ∀ a, P a → Q (g a)) : Yields Q E (r.map g) := by
  cases r with
  | ok a => exact hg a h
  | error e => exact h

theorem attachLine (h : Yields P E r) (hE : ∀ e line, E e → E (e.atLine line)) (line : Nat) :
    Yields P E (attachLine line r) := by
  cases r with
  | ok a => exact h
  | error e => exact hE e line h

theorem foldlM {step : α → β → Except Failure α} (hstep : ∀ a b, P a → Yields P E (step a b))
    {a : α} (ha : P a) (bs : List β) : Yields P E (bs.foldlM step a) := by
  induction bs generalizing a with
  | nil => exact ha
  | cons b bs ih =>
    rw [List.foldlM_cons]
    exact (hstep a b ha).bind fun a' _ ha' => ih ha'

/-- An element is only taken up when all before it had results. -/
theorem mapM {xs : List α} (h : ∀ before x after, xs = before ++ x :: after →
      (∀ y ∈ before, ∃ b, f y = .ok b) → Yields Q E (f x)) :
    Yields (fun ys => ys.length = xs.length ∧ ∀ y ∈ ys, Q y) E (xs.mapM f) := by
  induction xs with
  | nil => exact ⟨rfl, nofun⟩
  | cons x xs ih =>
    rw [List.mapM_cons]
    refine (h [] x xs rfl nofun).bind fun y hy hQ => ?_
    have hlater : Yields (fun ys => ys.length = xs.length ∧ ∀ y ∈ ys, Q y) E (xs.mapM f) := by
      refine ih fun before z after hxs hbefore => ?_
      exact h (x :: before) z after (by rw [hxs, List.cons_append])
        (List.forall_mem_cons.mpr ⟨⟨y, hy⟩, hbefore⟩)
    refine hlater.bind fun ys _ hys => ?_
    exact ⟨by rw [List.length_cons, List.length_cons, hys.1], List.forall_mem_cons.mpr ⟨hQ, hys.2⟩⟩

end Yields

end Results

/-- What a run may ask for too much of: entries of a matrix of zeros, and rows, columns or pivots
that are counted. -/
inductive Excess where
  | entries
  | count

def Excess.fault : Excess → Fault
  | .entries => .tooManyEntries
  | .count => .hugeCount

/-- The failures of evaluations: errors with one line of message, divisions by zero where `zero`,
too large numbers where `large`, and too many open evaluations. -/
inductive Failure.Foreseen (zero : Prop) (large : Excess → Prop) : Failure → Prop where
  | error {e : Error} (h : e.cause.IsLine) : Foreseen zero large (.error e)
  | zeroPivot (h : zero) : Foreseen zero large (.fault .zeroPivot)
  | excess {x : Excess} (h : large x) : Foreseen zero large (.fault x.fault)
  | nestedEvaluation : Foreseen zero large (.fault .nestedEvaluation)

theorem Failure.Foreseen.mono {zero zero' : Prop} {large large' : Excess → Prop} {e : Failure}
    (h : Foreseen zero large e) (hzero : zero → zero') (hlarge : ∀ x, large x → large' x) :
    Foreseen zero' large' e := by
  cases h with
  | error h => exact .error h
  | zeroPivot h => exact .zeroPivot (hzero h)
  | excess h => exact .excess (hlarge _ h)
  | nestedEvaluation => exact .nestedEvaluation

theorem Failure.Foreseen.atLine {zero : Prop} {large : Excess → Prop} (e : Failure) (line : Nat)
    (h : Foreseen zero large e) : Foreseen zero large (e.atLine line) := by
  cases h with
  | @error e h =>
    refine .error ?_
    unfold Error.atLine
    split <;> exact h
  | zeroPivot h => exact .zeroPivot h
  | excess h => exact .excess h
  | nestedEvaluation => exact .nestedEvaluation

/-- The failures of operations on values. An error has no line yet. -/
inductive Failure.Raised (zero : Prop) (large : Excess → Prop) : Failure → Prop where
  | error {cause : Cause} (h : cause.IsLine) (hline : cause.ownLine? = none) :
      Raised zero large (.error ⟨cause, none⟩)
  | zeroPivot (h : zero) : Raised zero large (.fault .zeroPivot)
  | excess {x : Excess} (h : large x) : Raised zero large (.fault x.fault)

theorem Failure.Raised.mono {zero zero' : Prop} {large large' : Excess → Prop} {e : Failure}
    (h : Raised zero large e) (hzero : zero → zero') (hlarge : ∀ x, large x → large' x) :
    Raised zero' large' e := by
  cases h with
  | error h hline => exact .error h hline
  | zeroPivot h => exact .zeroPivot (hzero h)
  | excess h => exact .excess (hlarge _ h)

theorem Failure.Raised.foreseen {zero : Prop} {large : Excess → Prop} {e : Failure}
    (h : Raised zero large e) : Foreseen zero large e := by
  cases h with
  | error h hline => exact .error h
  | zeroPivot h => exact .zeroPivot h
  | excess h => exact .excess h

def FailsAs {α : Type} (zero : Prop) (large : Excess → Prop) (r : Except Failure α) :
    Prop :=
  Yields (fun _ => True) (Failure.Raised zero large) r

section FailsAs

variable {α β : Type} {zero : Prop} {large : Excess → Prop}

theorem failsAs_ok (a : α) : FailsAs zero large (.ok a) := trivial

theorem failsAs_fail {cause : Cause} (h : cause.IsLine) (hline : cause.ownLine? = none) :
    FailsAs zero large (fail cause : Except Failure α) :=
  Failure.Raised.error h hline

theorem FailsAs.bind {r : Except Failure α} {f : α → Except Failure β} (h : FailsAs zero large r)
    (hf : ∀ a, r = .ok a → FailsAs zero large (f a)) : FailsAs zero large (r >>= f) :=
  Yields.bind h fun a ha _ => hf a ha

theorem FailsAs.map {r : Except Failure α} {g : α → β} (h : FailsAs zero large r) :
    FailsAs zero large (r.map g) :=
  Yields.map h fun _ _ => trivial

theorem FailsAs.mono {zero' : Prop} {large' : Excess → Prop} {r : Except Failure α}
    (h : FailsAs zero large r) (hzero : zero → zero') (hlarge : ∀ x, large x → large' x) :
    FailsAs zero' large' r :=
  Yields.mono h (fun _ _ => trivial) fun _ he => he.mono hzero hlarge

end FailsAs

def ZeroCounts {α : Type} [Arithmetic α] (tolerance : α) : Prop :=
  ∃ x : α, Grid.negligible tolerance x = false ∧ Arithmetic.isZero x = true

/-- With a positive tolerance every zero is negligible. -/
theorem not_zeroCounts {tolerance : Float} (h : 0 < tolerance) : ¬ZeroCounts tolerance := by
  rintro ⟨x, hx, hzero⟩
  have hlt : x.abs < tolerance := abs_lt_of_beq_zero hzero h
  have hnot : decide (x.abs < tolerance) = false := hx
  exact of_decide_eq_false hnot hlt

namespace Grid

variable {α : Type} [Arithmetic α] {m n k : Nat} {tolerance : α}

theorem failsAs_reduceColumn (a : Grid α m n) (p : Fin m) (col : Fin n)
    (h : Grid.negligible tolerance (a.get p col) = false) :
    FailsAs (ZeroCounts tolerance) ⊥ (a.reduceColumn p col) := by
  unfold reduceColumn
  dsimp only
  split
  · rename_i hzero
    exact Failure.Raised.zeroPivot ⟨_, h, hzero⟩
  · exact failsAs_ok _

theorem failsAs_reduceColumn_swap (a : Grid α m n) (r p : Fin m) (col : Fin n)
    (h : Grid.negligible tolerance (a.get p col) = false) :
    FailsAs (ZeroCounts tolerance) ⊥ ((a.swapRows r p).reduceColumn r col) := by
  apply failsAs_reduceColumn
  rw [get_swapRows, if_pos rfl]
  exact h

theorem failsAs_solveStep {verb : String} (hverb : OneLine verb) (a : Grid α n (n + k))
    (col : Fin n) : FailsAs (ZeroCounts tolerance) ⊥ (solveStep tolerance verb a col) := by
  unfold solveStep
  dsimp only
  split
  · exact failsAs_fail (Cause.isLine_singular hverb) rfl
  · rename_i hpivot
    exact failsAs_reduceColumn_swap a col _ _ (eq_false_of_ne_true hpivot)

theorem failsAs_solve {verb : String} (hverb : OneLine verb) (a : Grid α n n) (b : Grid α n k) :
    FailsAs (ZeroCounts tolerance) ⊥ (a.solve b tolerance verb) := by
  have heliminate : FailsAs (ZeroCounts tolerance) ⊥
      (eliminate tolerance verb (a.beside b)) :=
    Yields.foldlM (fun a col _ => failsAs_solveStep hverb a col) trivial _
  exact heliminate.bind fun reduced _ => failsAs_ok _

theorem failsAs_inverse (a : Grid α n n) :
    FailsAs (ZeroCounts tolerance) ⊥ (a.inverse tolerance) :=
  failsAs_solve (by decide) a _

theorem failsAs_clearBelow (a : Grid α n n) (col p : Fin n)
    (h : Grid.negligible tolerance (a.get p col) = false) :
    FailsAs (ZeroCounts tolerance) ⊥ ((a.swapRows col p).clearBelow col) := by
  unfold clearBelow
  rw [get_swapRows, if_pos rfl]
  dsimp only
  split
  · rename_i hzero
    exact Failure.Raised.zeroPivot ⟨_, h, hzero.1⟩
  · exact failsAs_ok _

theorem failsAs_determinantFrom (cols : List (Fin n)) (det : α) (a : Grid α n n) :
    FailsAs (ZeroCounts tolerance) ⊥ (determinantFrom tolerance cols det a) := by
  induction cols generalizing det a with
  | nil => exact failsAs_ok det
  | cons col cols ih =>
    rw [determinantFrom]
    dsimp only
    split
    · exact failsAs_ok _
    · rename_i hpivot
      have hclear := failsAs_clearBelow a col _ (eq_false_of_ne_true hpivot)
      exact hclear.bind fun a' _ => ih _ a'

theorem failsAs_reduceStep (s : Reduction α m n) (col : Fin n) :
    FailsAs (ZeroCounts tolerance) ⊥ (reduceStep tolerance s col) := by
  unfold reduceStep
  split
  · dsimp only
    split
    · exact failsAs_ok _
    · rename_i hpivot
      have hreduce := failsAs_reduceColumn_swap s.grid ⟨s.pivots.length, ‹_›⟩ _ col
        (eq_false_of_ne_true hpivot)
      exact hreduce.bind fun grid _ => failsAs_ok _
  · exact failsAs_ok _

theorem failsAs_rowReduce (a : Grid α m n) :
    FailsAs (ZeroCounts tolerance) ⊥ (a.rowReduce tolerance) := by
  have hreduce : FailsAs (ZeroCounts tolerance) ⊥
      ((List.finRange n).foldlM (reduceStep tolerance) ⟨a, []⟩) :=
    Yields.foldlM (fun s col _ => failsAs_reduceStep s col) trivial _
  exact hreduce.bind fun s _ => failsAs_ok _

end Grid

namespace DenseMatrix

section Shapes

variable {α : Type} {zero : Prop} {large : Excess → Prop}

theorem failsAs_square {verb : String} (hverb : OneLine verb) (a : DenseMatrix α) :
    FailsAs zero large (a.square verb) := by
  unfold square
  split
  · exact failsAs_ok _
  · exact failsAs_fail (Cause.isLine_notSquare _ hverb) rfl

theorem failsAs_get (a : DenseMatrix α) (i j : Int) : FailsAs zero large (a.get i j) := by
  unfold get
  split
  · exact failsAs_ok _
  · exact failsAs_fail (Cause.isLine_outOfRange _ _) rfl

theorem failsAs_hcat (a b : DenseMatrix α) : FailsAs zero large (a.hcat b) := by
  by_cases h : a.rows = b.rows
  · obtain ⟨c, hc, -⟩ := exists_hcat_data h
    rw [hc]
    exact failsAs_ok c
  · rw [hcat, if_neg (Ne.symm h)]
    exact failsAs_fail (Cause.isLine_mismatch _ _ (by decide)) rfl

theorem failsAs_vcat (a b : DenseMatrix α) : FailsAs zero large (a.vcat b) := by
  by_cases h : a.cols = b.cols
  · obtain ⟨c, hc, -⟩ := exists_vcat_data h
    rw [hc]
    exact failsAs_ok c
  · rw [vcat, if_neg (Ne.symm h)]
    exact failsAs_fail (Cause.isLine_mismatch _ _ (by decide)) rfl

end Shapes

variable {α : Type} [Arithmetic α] {tolerance : α} {zero : Prop} {large : Excess → Prop}

theorem failsAs_trace (a : DenseMatrix α) : FailsAs zero large a.trace :=
  (a.failsAs_square (by decide)).bind fun _ _ => failsAs_ok _

theorem isLine_tooLarge {subject : String} (h : OneLine subject) : (tooLarge subject).IsLine :=
  Cause.isLine_invalid h (by decide)

theorem failsAs_mul (a b : DenseMatrix α) : FailsAs zero large (a.mul b) := by
  unfold mul
  split
  · split
    · exact failsAs_ok _
    · exact failsAs_fail (isLine_tooLarge (by decide)) rfl
  · exact failsAs_fail (Cause.isLine_mismatch _ _ (by decide)) rfl

theorem failsAs_determinant (a : DenseMatrix α) :
    FailsAs (ZeroCounts tolerance) ⊥ (a.determinant tolerance) :=
  (a.failsAs_square (by decide)).bind fun grid _ => Grid.failsAs_determinantFrom _ _ grid

theorem failsAs_inverse (a : DenseMatrix α) :
    FailsAs (ZeroCounts tolerance) ⊥ (a.inverse tolerance) :=
  (a.failsAs_square (by decide)).bind fun grid _ =>
    grid.failsAs_inverse.bind fun _ _ => failsAs_ok _

theorem failsAs_solve (a b : DenseMatrix α) :
    FailsAs (ZeroCounts tolerance) ⊥ (a.solve b tolerance) := by
  refine (a.failsAs_square (by decide)).bind fun grid _ => ?_
  split
  · exact (Grid.failsAs_solve (by decide) grid _).bind fun _ _ => failsAs_ok _
  · exact failsAs_fail (Cause.isLine_mismatch _ _ (by decide)) rfl

theorem failsAs_rref (a : DenseMatrix α) :
    FailsAs (ZeroCounts tolerance) ⊥ (a.rref tolerance) :=
  a.grid.failsAs_rowReduce.bind fun _ _ => failsAs_ok _

theorem failsAs_rank (a : DenseMatrix α) :
    FailsAs (ZeroCounts tolerance) ⊥ (a.rank tolerance) :=
  a.grid.failsAs_rowReduce.bind fun _ _ => failsAs_ok _

theorem failsAs_nullspace (a : DenseMatrix α) :
    FailsAs (ZeroCounts tolerance) ⊥ (a.nullspace tolerance) := by
  refine a.grid.failsAs_rowReduce.bind fun reduced _ => ?_
  dsimp only
  split <;> exact failsAs_ok _

theorem failsAs_power (a : DenseMatrix α) (exponent : Int) :
    FailsAs (ZeroCounts tolerance) ⊥ (a.power exponent tolerance) := by
  refine (a.failsAs_square (by decide)).bind fun grid _ => ?_
  dsimp only
  split
  · refine grid.failsAs_inverse.bind fun base _ => ?_
    split
    · exact failsAs_ok _
    · exact failsAs_fail (isLine_tooLarge (by decide)) rfl
  · rw [pure_bind]
    split
    · exact failsAs_ok _
    · exact failsAs_fail (isLine_tooLarge (by decide)) rfl

theorem failsAs_identity? {n : Int} (h : 1 ≤ n) :
    FailsAs zero large (identity? n : Except Failure (DenseMatrix α)) := by
  obtain ⟨n, rfl⟩ := Int.eq_ofNat_of_zero_le (show 0 ≤ n by omega)
  rw [Grid.identity_dense (by omega)]
  exact failsAs_ok _

theorem failsAs_zeros? {rows cols : Int} (hrows : 1 ≤ rows) (hcols : 1 ≤ cols)
    (hlarge : Int.pow 2 63 ≤ rows * cols → large .entries) :
    FailsAs zero large (zeros? rows cols : Except Failure (DenseMatrix α)) := by
  have hpos : 0 < rows * cols := Int.mul_pos (by omega) (by omega)
  unfold zeros?
  split
  · rename_i hout
    have hpow : 0 < Int.pow 2 63 := by decide
    exact Failure.Raised.excess (x := .entries) (hlarge (by omega))
  · obtain ⟨r, rfl⟩ := Int.eq_ofNat_of_zero_le (show 0 ≤ rows by omega)
    obtain ⟨c, rfl⟩ := Int.eq_ofNat_of_zero_le (show 0 ≤ cols by omega)
    have hlength : (List.replicate ((r : Int) * c).toNat (0 : α)).length = r * c := by
      rw [List.length_replicate, ← Int.natCast_mul, Int.toNat_natCast]
    rw [ofData?_eq_ofList (by omega) (by omega) hlength]
    exact failsAs_ok _

end DenseMatrix

namespace Value

variable {tolerance : Float} {zero : Prop} {large : Excess → Prop}

theorem failsAs_addSigned {verb : String} (hverb : OneLine verb) (sign : Float) (a b : Value) :
    FailsAs zero large (a.addSigned verb sign b) := by
  unfold addSigned
  split
  · exact failsAs_ok _
  · dsimp only
    split
    · exact failsAs_ok _
    · exact failsAs_fail (Cause.isLine_mismatch _ _ hverb) rfl

theorem failsAs_mul (a b : Value) : FailsAs zero large (a.mul b) := by
  unfold mul
  split
  · exact failsAs_ok _
  · exact failsAs_ok _
  · exact failsAs_ok _
  · split
    · exact failsAs_ok _
    · exact failsAs_ok _
    · exact (DenseMatrix.failsAs_mul _ _).map

/-- Behind the guard no division of an entry fails. -/
theorem divByNumber_eq (a : Value) (y : Float) : a.divByNumber y =
    if y == 0 then fail .divisionByZero else .ok (a.map (· / y)) := by
  unfold divByNumber
  split
  · rfl
  · rename_i h
    have hdiv : (fun v => Checked.div v y) = fun v => pure (v / y) := by
      funext v
      exact if_neg h
    cases a with
    | scalar x => exact congrArg (Except.map scalar) (if_neg h)
    | matrix m =>
      simp only [Value.mapM, DenseMatrix.mapM, hdiv, Vector.mapM_pure]
      rfl

theorem failsAs_divByNumber (a : Value) (y : Float) : FailsAs zero large (a.divByNumber y) := by
  rw [divByNumber_eq]
  split
  · exact failsAs_fail (by decide : OneLine "Division by zero") rfl
  · exact failsAs_ok _

theorem failsAs_div (a b : Value) :
    FailsAs (ZeroCounts tolerance) ⊥ (a.div b tolerance) := by
  unfold div
  split
  · exact failsAs_divByNumber a _
  · split
    · exact (failsAs_divByNumber a _).bind fun _ _ => failsAs_ok _
    · exact (DenseMatrix.failsAs_inverse _).bind fun _ _ => failsAs_mul a _

/-- The two guards leave no power that is not defined, and one out of range is reported. -/
theorem numberPower_eq (x y : Float) (pow : Float → Float → Float) : numberPower x y pow =
    if x == 0 && y < 0 then fail .divisionByZero
    else if x < 0 && (Double.integer? y).isNone then
      fail (.invalid "^" "negative base needs an integer exponent")
    else if x.isFinite && y.isFinite && !(pow x y).isFinite then fail (DenseMatrix.tooLarge "^")
    else .ok (pow x y) := by
  unfold numberPower
  split
  · rfl
  · rename_i hzero
    split
    · rfl
    · rename_i hsign
      have hdefined : ¬(x == 0 && y < 0 || x < 0 && (Double.integer? y).isNone) = true := by
        rw [Bool.or_eq_true]
        exact not_or.mpr ⟨hzero, hsign⟩
      rw [Checked.pow, if_neg hdefined]
      cases hoperands : x.isFinite && y.isFinite with
      | false => rfl
      | true => cases hresult : (pow x y).isFinite <;> rfl

theorem failsAs_numberPower (x y : Float) : FailsAs zero large (numberPower x y) := by
  rw [numberPower_eq]
  split
  · exact failsAs_fail (by decide : OneLine "Division by zero") rfl
  · split
    · exact failsAs_fail (Cause.isLine_invalid (by decide) (by decide)) rfl
    · split
      · exact failsAs_fail (DenseMatrix.isLine_tooLarge (by decide)) rfl
      · exact failsAs_ok _

theorem failsAs_powerByNumber (base : Value) (y : Float) :
    FailsAs (ZeroCounts tolerance) ⊥ (base.powerByNumber y tolerance) := by
  unfold powerByNumber
  split
  · exact (failsAs_numberPower _ y).map
  · split
    · exact (failsAs_numberPower _ y).bind fun _ _ => failsAs_ok _
    · exact (DenseMatrix.failsAs_power _ _).map
    · exact (DenseMatrix.failsAs_square (by decide) _).map.bind fun _ _ =>
        failsAs_fail (Cause.isLine_invalid (by decide) (by decide)) rfl

theorem failsAs_power (base exponent : Value) :
    FailsAs (ZeroCounts tolerance) ⊥ (base.power exponent tolerance) := by
  unfold power
  split
  · exact failsAs_powerByNumber base _
  · split
    · exact (failsAs_powerByNumber base _).bind fun _ _ => failsAs_ok _
    · exact failsAs_fail (Cause.isLine_invalid (by decide) (by decide)) rfl

theorem failsAs_operate (op : BinaryOp) (a b : Value) :
    FailsAs (ZeroCounts tolerance) ⊥ (operate op a b tolerance) := by
  cases op with
  | add => exact failsAs_addSigned (by decide) _ a b
  | sub => exact failsAs_addSigned (by decide) _ a b
  | mul => exact failsAs_mul a b
  | div => exact failsAs_div a b
  | pow => exact failsAs_power a b

theorem yields_checkFinite {subject : String} (hsubject : OneLine subject) (v : Value) :
    Yields (fun v => v.isFinite = true) (Failure.Raised zero large) (v.checkFinite subject) := by
  unfold checkFinite
  split
  · rename_i hfinite
    exact hfinite
  · exact Failure.Raised.error (DenseMatrix.isLine_tooLarge hsubject) rfl

theorem yields_binary (op : BinaryOp) (a b : Value) :
    Yields (fun v => v.isFinite = true) (Failure.Raised (ZeroCounts tolerance) ⊥)
      (Value.binary op a b tolerance) := by
  have hsymbol : OneLine op.symbol := by
    cases op <;> decide
  exact Yields.bind (failsAs_operate op a b) fun result _ _ => yields_checkFinite hsymbol result

end Value

/-- A base that is let through has the logarithm zero. -/
def LogVanishes : Prop := ∃ b : Float, ¬b ≤ 0 ∧ (b == 1) = false ∧ (b.log == 0) = true

theorem Checked.failsAs_ofCount {zero : Prop} {large : Excess → Prop} {n : Nat}
    (h : countLimit ≤ n → large .count) : FailsAs zero large (ofCount n) := by
  unfold ofCount
  split
  · rename_i hn
    exact Failure.Raised.excess (x := .count) (h hn)
  · exact failsAs_ok _

/-- The values are positive integers whose product is out of bounds. -/
def Oversized (r c : Value) : Prop :=
  ∃ rows cols : Int, r.number?.bind Double.integer? = some rows ∧
    c.number?.bind Double.integer? = some cols ∧ 1 ≤ rows ∧ 1 ≤ cols ∧ Int.pow 2 63 ≤ rows * cols

namespace Builtin

variable {zero : Prop} {large : Excess → Prop} {name reason : String}

theorem failsAs_invalid {α : Type} (hname : OneLine name) (hreason : OneLine reason) :
    FailsAs zero large (invalid name reason : Except Failure α) :=
  failsAs_fail (Cause.isLine_invalid (oneLine_append.mpr ⟨hname, by decide⟩) hreason) rfl

theorem failsAs_matrixArg (hname : OneLine name) (v : Value) :
    FailsAs zero large (matrixArg name v) := by
  cases v with
  | scalar x => exact failsAs_invalid hname (by decide)
  | matrix m => exact failsAs_ok m

theorem failsAs_numberArg (hname : OneLine name) (v : Value) :
    FailsAs zero large (numberArg name v) := by
  unfold numberArg
  split
  · exact failsAs_ok _
  · exact failsAs_invalid hname (by decide)

theorem failsAs_indexArg (hname : OneLine name) (v : Value) :
    FailsAs zero large (indexArg name v) := by
  refine (failsAs_numberArg hname v).bind fun x _ => ?_
  split
  · exact failsAs_ok _
  · exact failsAs_invalid hname (by decide)

theorem number?_of_numberArg {v : Value} {x : Float} (h : numberArg name v = .ok x) :
    v.number? = some x := by
  unfold numberArg at h
  split at h
  · rename_i hx
    rw [hx, Except.ok.inj h]
  · contradiction

theorem yields_countArg (hname : OneLine name) (v : Value) :
    Yields (fun n => 1 ≤ n ∧ v.number?.bind Double.integer? = some n)
      (Failure.Raised zero large) (countArg name v) := by
  refine Yields.bind (failsAs_numberArg hname v) fun x hx _ => ?_
  rw [number?_of_numberArg hx, Option.bind_some]
  split
  · rename_i n hn
    split
    · rename_i hpos
      exact ⟨hpos, hn⟩
    · exact failsAs_invalid (α := Int) hname (by decide)
  · exact failsAs_invalid (α := Int) hname (by decide)

theorem failsAs_of_zeroCounts {α : Type} {tolerance : Float} {r : Except Failure α}
    (h : FailsAs (ZeroCounts tolerance) ⊥ r) :
    FailsAs (ZeroCounts tolerance ∨ LogVanishes) large r :=
  h.mono Or.inl fun _ => False.elim

theorem failsAs_inverse (v : Value) (tolerance : Float) :
    FailsAs (ZeroCounts tolerance) ⊥ (inverse v tolerance) := by
  cases v with
  | scalar x => exact Value.failsAs_div (.scalar 1) (.scalar x)
  | matrix m => exact m.failsAs_inverse.map

theorem squareRoot_eq (v : Value) : squareRoot v = numberArg "sqrt" v >>= fun x =>
    if x < 0 then invalid "sqrt" "argument must not be negative"
    else .ok (.scalar x.sqrt) := by
  unfold squareRoot
  refine congrArg (_ >>= ·) (funext fun x => ?_)
  split
  · rfl
  · rename_i hx
    rw [Checked.sqrt, if_neg hx]
    rfl

theorem exponential_eq (v : Value) : exponential v = numberArg "exp" v >>= fun x =>
    if x.isFinite && !x.exp.isFinite then fail (DenseMatrix.tooLarge (label "exp"))
    else .ok (.scalar x.exp) := by
  unfold exponential Checked.exp
  refine congrArg (_ >>= ·) (funext fun x => ?_)
  split <;> rfl

theorem logarithm_eq (base v : Value) : logarithm base v =
    numberArg "log" base >>= fun b => numberArg "log" v >>= fun x =>
      if b ≤ 0 || b == 1 || x ≤ 0 then
        invalid "log" "needs a positive base other than 1 and a positive argument"
      else if b.log == 0 then fault .zeroPivot
      else .ok (.scalar (x.log / b.log)) := by
  unfold logarithm
  refine congrArg (_ >>= ·) (funext fun b => congrArg (_ >>= ·) (funext fun x => ?_))
  split
  · rfl
  · rename_i hbounds
    simp only [Bool.or_eq_true, decide_eq_true_eq, not_or] at hbounds
    rw [Checked.logBase, Checked.log, Checked.log, if_neg hbounds.1.1, if_neg hbounds.2]
    simp only [bind, Except.bind, Checked.div]
    by_cases hzero : (b.log == 0) = true
    · rw [if_pos hzero, if_pos hzero]
      rfl
    · rw [if_neg hzero, if_neg hzero]
      rfl

theorem failsAs_squareRoot (v : Value) : FailsAs zero large (squareRoot v) := by
  rw [squareRoot_eq]
  refine (failsAs_numberArg (by decide) v).bind fun x _ => ?_
  split
  · exact failsAs_invalid (by decide) (by decide)
  · exact failsAs_ok _

theorem failsAs_exponential (v : Value) : FailsAs zero large (exponential v) := by
  rw [exponential_eq]
  refine (failsAs_numberArg (by decide) v).bind fun x _ => ?_
  split
  · exact failsAs_fail (DenseMatrix.isLine_tooLarge (by decide)) rfl
  · exact failsAs_ok _

theorem failsAs_logarithm (base v : Value) (hlog : LogVanishes → zero) :
    FailsAs zero large (logarithm base v) := by
  rw [logarithm_eq]
  refine (failsAs_numberArg (by decide) base).bind fun b _ => ?_
  refine (failsAs_numberArg (by decide) v).bind fun x _ => ?_
  split
  · exact failsAs_invalid (by decide) (by decide)
  · rename_i hbounds
    simp only [Bool.or_eq_true, decide_eq_true_eq, not_or] at hbounds
    split
    · rename_i hzero
      exact Failure.Raised.zeroPivot
        (hlog ⟨b, hbounds.1.1, eq_false_of_ne_true hbounds.1.2, hzero⟩)
    · exact failsAs_ok _

/-- The body fails only in these ways, whatever the arguments and the tolerance. -/
def Body.Fails (large : List Value → Float → Excess → Prop) : Body → Prop
  | .one run => ∀ x tolerance,
    FailsAs (ZeroCounts tolerance ∨ LogVanishes) (large [x] tolerance) (run x tolerance)
  | .two run => ∀ x y tolerance,
    FailsAs (ZeroCounts tolerance ∨ LogVanishes) (large [x, y] tolerance) (run x y tolerance)
  | .three run => ∀ x y z tolerance,
    FailsAs (ZeroCounts tolerance ∨ LogVanishes) (large [x, y, z] tolerance) (run x y z tolerance)

/-- What a function counts in a matrix. -/
inductive Counts (m : DenseMatrix Float) (tolerance : Float) : String → Nat → Prop where
  | rows : Counts m tolerance "rows" m.rows
  | cols : Counts m tolerance "cols" m.cols
  | rank {n : Nat} (h : m.rank tolerance = .ok n) : Counts m tolerance "rank" n

/-- The function is asked for a matrix of too many zeros, or it counts more than a double holds. -/
inductive Exceeds : String → List Value → Float → Excess → Prop where
  | entries {r c : Value} {tolerance : Float} (h : Oversized r c) :
      Exceeds "zeros" [r, c] tolerance .entries
  | count {name : String} {m : DenseMatrix Float} {tolerance : Float} {n : Nat}
      (hn : Counts m tolerance name n) (h : Checked.countLimit ≤ n) :
      Exceeds name [.matrix m] tolerance .count

theorem eq_matrix_of_matrixArg {v : Value} {m : DenseMatrix Float} (h : matrixArg name v = .ok m) :
    v = .matrix m := by
  cases v with
  | scalar x => contradiction
  | matrix k => rw [Except.ok.inj h]

/-- Counting fails only beyond the limit. -/
theorem failsAs_count {v : Value} {m : DenseMatrix Float} {tolerance : Float} {n : Nat}
    (hm : matrixArg name v = .ok m) (hn : Counts m tolerance name n) :
    FailsAs zero (Exceeds name [v] tolerance) (Checked.ofCount n) := by
  rw [eq_matrix_of_matrixArg hm]
  exact Checked.failsAs_ofCount (.count hn)

theorem fails_of_mem_all : ∀ b ∈ all, b.body.Fails (Exceeds b.name) := by
  simp only [all, List.forall_mem_cons]
  refine ⟨?det, ?inv, ?transpose, ?trace, ?rank, ?rref, ?solve, ?nullspace, ?hcat, ?vcat, ?identity,
    ?zeros, ?get, ?rows, ?cols, ?abs, ?sqrt, ?exp, ?log, ?pow, by simp⟩
  case det =>
    exact fun a tolerance => (failsAs_matrixArg (by decide) a).bind fun m _ =>
      (failsAs_of_zeroCounts m.failsAs_determinant).bind fun _ _ => failsAs_ok _
  case inv => exact fun a tolerance => failsAs_of_zeroCounts (failsAs_inverse a tolerance)
  case transpose => exact fun a tolerance => failsAs_ok _
  case trace =>
    exact fun a tolerance => (failsAs_matrixArg (by decide) a).bind fun m _ =>
      m.failsAs_trace.bind fun _ _ => failsAs_ok _
  case rank =>
    exact fun a tolerance => (failsAs_matrixArg (by decide) a).bind fun m hm =>
      (failsAs_of_zeroCounts m.failsAs_rank).bind fun n hn =>
        (failsAs_count hm (.rank hn)).bind fun _ _ => failsAs_ok _
  case rref =>
    exact fun a tolerance => (failsAs_matrixArg (by decide) a).bind fun m _ =>
      (failsAs_of_zeroCounts m.failsAs_rref).bind fun _ _ => failsAs_ok _
  case solve =>
    exact fun a b tolerance => (failsAs_matrixArg (by decide) a).bind fun m _ =>
      (failsAs_of_zeroCounts (m.failsAs_solve b.toMatrix)).bind fun _ _ => failsAs_ok _
  case nullspace =>
    exact fun a tolerance => (failsAs_matrixArg (by decide) a).bind fun m _ =>
      (failsAs_of_zeroCounts m.failsAs_nullspace).bind fun _ _ => failsAs_ok _
  case hcat =>
    exact fun a b tolerance => (a.toMatrix.failsAs_hcat b.toMatrix).bind fun _ _ => failsAs_ok _
  case vcat =>
    exact fun a b tolerance => (a.toMatrix.failsAs_vcat b.toMatrix).bind fun _ _ => failsAs_ok _
  case identity =>
    exact fun n tolerance => Yields.bind (yields_countArg (by decide) n) fun n _ hn =>
      (DenseMatrix.failsAs_identity? hn.1).bind fun _ _ => failsAs_ok _
  case zeros =>
    refine fun r c tolerance => Yields.bind (yields_countArg (by decide) r) fun rows _ hr => ?_
    refine Yields.bind (yields_countArg (by decide) c) fun cols _ hc => ?_
    refine (DenseMatrix.failsAs_zeros? hr.1 hc.1 fun hlarge => ?_).bind fun _ _ => failsAs_ok _
    exact .entries ⟨rows, cols, hr.2, hc.2, hr.1, hc.1, hlarge⟩
  case get =>
    exact fun a i j tolerance => (failsAs_matrixArg (by decide) a).bind fun m _ =>
      (failsAs_indexArg (by decide) i).bind fun row _ =>
        (failsAs_indexArg (by decide) j).bind fun col _ =>
          (m.failsAs_get row col).bind fun _ _ => failsAs_ok _
  case rows =>
    exact fun a tolerance => (failsAs_matrixArg (by decide) a).bind fun m hm =>
      (failsAs_count hm .rows).bind fun _ _ => failsAs_ok _
  case cols =>
    exact fun a tolerance => (failsAs_matrixArg (by decide) a).bind fun m hm =>
      (failsAs_count hm .cols).bind fun _ _ => failsAs_ok _
  case abs => exact fun a tolerance => failsAs_ok _
  case sqrt => exact fun a tolerance => failsAs_squareRoot a
  case exp => exact fun a tolerance => failsAs_exponential a
  case log => exact fun b x tolerance => failsAs_logarithm b x Or.inr
  case pow => exact fun a b tolerance => failsAs_of_zeroCounts (Value.failsAs_power a b)

theorem oneLine_name {b : Builtin} (hb : b ∈ all) : OneLine b.name := by
  have hnames : ∀ b ∈ all, OneLine b.name := by decide
  exact hnames b hb

/-- A function that gives a value gives a finite one. -/
theorem yields_call {b : Builtin} (hb : b ∈ all) (args : List Value) (tolerance : Float) :
    Yields (fun v => v.isFinite = true)
      (Failure.Raised (ZeroCounts tolerance ∨ LogVanishes) (Exceeds b.name args tolerance))
      (b.call args tolerance) := by
  have hname := oneLine_name hb
  have hbody := fails_of_mem_all b hb
  have hcheck : ∀ result : Value, Yields (fun v => v.isFinite = true)
      (Failure.Raised (ZeroCounts tolerance ∨ LogVanishes) (Exceeds b.name args tolerance))
      (result.checkFinite (label b.name)) :=
    Value.yields_checkFinite (oneLine_append.mpr ⟨hname, by decide⟩)
  unfold call
  dsimp only
  split
  · rename_i run x hrun
    rw [hrun] at hbody
    exact Yields.bind (hbody x tolerance) fun result _ _ => hcheck result
  · rename_i run x y hrun
    rw [hrun] at hbody
    exact Yields.bind (hbody x y tolerance) fun result _ _ => hcheck result
  · rename_i run x y z hrun
    rw [hrun] at hbody
    exact Yields.bind (hbody x y z tolerance) fun result _ _ => hcheck result
  · exact Yields.bind (failsAs_fail (Cause.isLine_arity hname _ _) rfl) fun result _ _ =>
      hcheck result

theorem find?_eq_some {name : String} {b : Builtin} (h : find? name = some b) :
    b ∈ all ∧ b.name = name :=
  ⟨List.mem_of_find?_eq_some h, by simpa using List.find?_some h⟩

end Builtin

end MatrixCalculator
