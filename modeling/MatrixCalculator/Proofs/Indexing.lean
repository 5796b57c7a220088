import Mathlib
import MatrixCalculator.Proofs.Chains
import MatrixCalculator.Proofs.SingleEntries

namespace MatrixCalculator

namespace Double

def Parts.value (p : Parts) : ℚ :=
  (if p.negative then -1 else 1) * (p.mantissa * 2 ^ p.exponent)

/-- The double is this integer. -/
def Represents (x : Float) (n : Int) : Prop := ∃ p, parts? x = some p ∧ p.value = n

theorem Parts.ratio_pos (p : Parts) : 0 < p.ratio.2 := by
  unfold ratio
  split <;> simp

theorem Parts.magnitude_eq_ratio (p : Parts) :
    (p.mantissa * 2 ^ p.exponent : ℚ) = p.ratio.1 / p.ratio.2 := by
  unfold ratio
  split
  · rename_i hexponent
    obtain ⟨k, hk⟩ := Int.eq_ofNat_of_zero_le hexponent
    simp [hk]
  · rename_i hexponent
    obtain ⟨k, hk⟩ := Int.eq_ofNat_of_zero_le (show 0 ≤ -p.exponent by omega)
    have hnegative : p.exponent = -(k : Int) := by omega
    simp [hnegative, div_eq_mul_inv]

theorem div_eq_intCast_iff {num den : Nat} (hden : 0 < den) {n : Int} :
    (num / den : ℚ) = n ↔ num % den = 0 ∧ ((num / den : Nat) : Int) = n := by
  have hne : (den : ℚ) ≠ 0 := by positivity
  constructor
  · intro h
    have hnum : (num : Int) = n * den := by exact_mod_cast (div_eq_iff hne).mp h
    have hdvd : den ∣ num := Int.natCast_dvd_natCast.mp ⟨n, by rw [hnum, Int.mul_comm]⟩
    refine ⟨Nat.mod_eq_zero_of_dvd hdvd, ?_⟩
    rw [Int.natCast_div, hnum]
    exact Int.mul_ediv_cancel n (by omega)
  · rintro ⟨hmod, rfl⟩
    rw [Int.cast_natCast, Nat.cast_div (Nat.dvd_of_mod_eq_zero hmod) hne]

theorem integer?_eq_some_iff {x : Float} {n : Int} : integer? x = some n ↔ Represents x n := by
  rw [integer?, Represents, Option.bind_eq_bind, Option.bind_eq_some_iff]
  refine exists_congr fun p => and_congr_right fun _ => ?_
  rw [Option.ite_none_right_eq_some, Option.some_inj, Parts.value, Parts.magnitude_eq_ratio]
  cases p.negative with
  | false =>
    rw [if_neg (by decide), if_neg (by decide), one_mul, div_eq_intCast_iff p.ratio_pos]
  | true =>
    have hopposite : (-1 * (p.ratio.1 / p.ratio.2) : ℚ) = n ↔
        (p.ratio.1 / p.ratio.2 : ℚ) = (-n : Int) := by
      push_cast
      constructor <;> intro h <;> linarith
    rw [if_pos rfl, if_pos rfl, hopposite, div_eq_intCast_iff p.ratio_pos]
    omega

end Double

namespace Value

/-- The value is this integer, as a number or as the only entry of a matrix. -/
def Represents (v : Value) (n : Int) : Prop :=
  ∃ x, (v = .scalar x ∨ v = .matrix (DenseMatrix.single x)) ∧ Double.Represents x n

theorem number?_eq_some_iff {v : Value} {x : Float} :
    v.number? = some x ↔ v = .scalar x ∨ v = .matrix (DenseMatrix.single x) := by
  constructor
  · exact stands_of_number?
  · rintro (rfl | rfl)
    · rfl
    · exact DenseMatrix.only?_single x

theorem integer?_eq_some_iff {v : Value} {n : Int} :
    v.number?.bind Double.integer? = some n ↔ v.Represents n := by
  simp only [Option.bind_eq_some_iff, number?_eq_some_iff, Double.integer?_eq_some_iff, Represents]

theorem integer?_eq_none_iff {v : Value} :
    v.number?.bind Double.integer? = none ↔ ∀ n, ¬v.Represents n := by
  simp only [Option.eq_none_iff_forall_ne_some, ne_eq, integer?_eq_some_iff]

end Value

namespace DenseMatrix

variable {α : Type}

theorem get_eq_ok_iff {m : DenseMatrix α} {i j : Int} {x : α} :
    m.get i j = .ok x ↔
      ∃ (a : Fin m.rows) (b : Fin m.cols), i = a ∧ j = b ∧ m.grid.get a b = x := by
  unfold get
  constructor
  · intro h
    split at h
    · rename_i hrange
      rw [entry_eq] at h
      refine ⟨⟨i.toNat, by omega⟩, ⟨j.toNat, by omega⟩, ?_, ?_, Except.ok.inj h⟩
      · exact (Int.toNat_of_nonneg hrange.1.1).symm
      · exact (Int.toNat_of_nonneg hrange.2.1).symm
    · contradiction
  · rintro ⟨a, b, rfl, rfl, rfl⟩
    rw [dif_pos ⟨⟨by omega, by omega⟩, by omega, by omega⟩, entry_eq]
    rfl

theorem get_cases (m : DenseMatrix α) (i j : Int) :
    (∃ x, m.get i j = .ok x) ∨ m.get i j = fail (.outOfRange [i, j] (some m.shape)) := by
  unfold get
  split
  · exact .inl ⟨_, rfl⟩
  · exact .inr rfl

theorem row_eq_ok_iff {m k : DenseMatrix α} {i : Int} :
    m.row i = .ok k ↔ ∃ a : Fin m.rows, i = a ∧ m.rowAt a = k := by
  constructor
  · intro h
    by_cases hrange : 0 ≤ i ∧ i < m.rows
    · obtain ⟨a, rfl⟩ := Int.eq_ofNat_of_zero_le hrange.1
      have ha : a < m.rows := by omega
      exact ⟨⟨a, ha⟩, rfl, Except.ok.inj ((m.row_eq_rowAt ⟨a, ha⟩).symm.trans h)⟩
    · rw [row, if_neg hrange] at h
      contradiction
  · rintro ⟨a, rfl, rfl⟩
    exact m.row_eq_rowAt a

theorem select_eq_row {m : DenseMatrix α} (hrows : 2 ≤ m.rows) (hcols : 2 ≤ m.cols) (i : Int) :
    m.select i = (m.row i).map .inr := by
  rw [select, if_neg (by omega), if_neg (by omega)]

theorem select_rowAt (m : DenseMatrix α) (a : Fin m.rows) (j : Int) :
    (m.rowAt a).select j = ((m.rowAt a).get 0 j).map .inl :=
  if_pos rfl

end DenseMatrix

namespace Evaluation

theorem bind_eq_ok_iff {α β : Type} {r : Except Failure α} {f : α → Except Failure β} {b : β} :
    r >>= f = .ok b ↔ ∃ a, r = .ok a ∧ f a = .ok b := by
  refine ⟨exists_of_bind_eq_ok, ?_⟩
  rintro ⟨a, rfl, h⟩
  exact h

section Pick

variable {m : DenseMatrix Float} {i j r : Value} {text : String}

/-- The position that an index of the expression `text` names. -/
def position (text : String) (v : Value) : Except Failure Int :=
  match v.number?.bind Double.integer? with
  | some n => pure n
  | none => fail (.invalid text "indices must be integers")

theorem position_eq_ok_iff {n : Int} : position text i = .ok n ↔ i.Represents n := by
  rw [← Value.integer?_eq_some_iff, position]
  cases i.number?.bind Double.integer? with
  | none => simp [fail]
  | some k => simp [pure, Except.pure]

theorem position_of_not_represents (h : ∀ n, ¬i.Represents n) :
    position text i = fail (.invalid text "indices must be integers") := by
  rw [position, Value.integer?_eq_none_iff.mpr h]

theorem pick_one (text : String) (m : DenseMatrix Float) (i : Value) :
    pick text (.matrix m) [i] =
      position text i >>= fun a => (m.select a).map (Sum.elim .scalar .matrix) := by
  show [i].mapM (position text) >>= _ = _
  rw [List.mapM_cons, List.mapM_nil]
  cases position text i with
  | error e => rfl
  | ok a =>
    show m.select a >>= _ = (m.select a).map _
    rcases m.select a with e | x | row <;> rfl

theorem pick_two (text : String) (m : DenseMatrix Float) (i j : Value) :
    pick text (.matrix m) [i, j] =
      position text i >>= fun a => position text j >>= fun b => (m.get a b).map .scalar := by
  show [i, j].mapM (position text) >>= _ = _
  rw [List.mapM_cons, List.mapM_cons, List.mapM_nil]
  cases position text i with
  | error e => rfl
  | ok a =>
    cases position text j with
    | error e => rfl
    | ok b =>
      show m.get a b >>= _ = (m.get a b).map _
      cases m.get a b <;> rfl

theorem pick_two_eq_ok_iff : pick text (.matrix m) [i, j] = .ok r ↔
    ∃ (a : Fin m.rows) (b : Fin m.cols),
      i.Represents a ∧ j.Represents b ∧ r = .scalar (m.grid.get a b) := by
  simp only [pick_two, bind_eq_ok_iff, map_eq_ok_iff, position_eq_ok_iff,
    DenseMatrix.get_eq_ok_iff]
  constructor
  · rintro ⟨_, hi, _, hj, x, ⟨a, b, rfl, rfl, rfl⟩, rfl⟩
    exact ⟨a, b, hi, hj, rfl⟩
  · rintro ⟨a, b, hi, hj, rfl⟩
    exact ⟨a, hi, b, hj, _, ⟨a, b, rfl, rfl, rfl⟩, rfl⟩

theorem pick_one_eq_ok_iff (hrows : 2 ≤ m.rows) (hcols : 2 ≤ m.cols) :
    pick text (.matrix m) [i] = .ok r ↔
      ∃ a : Fin m.rows, i.Represents a ∧ r = .matrix (m.rowAt a) := by
  simp only [pick_one, bind_eq_ok_iff, map_eq_ok_iff, position_eq_ok_iff,
    DenseMatrix.select_eq_row hrows hcols, DenseMatrix.row_eq_ok_iff]
  constructor
  · rintro ⟨_, hi, _, ⟨row, ⟨a, rfl, rfl⟩, rfl⟩, rfl⟩
    exact ⟨a, hi, rfl⟩
  · rintro ⟨a, hi, rfl⟩
    exact ⟨a, hi, _, ⟨_, ⟨a, rfl, rfl⟩, rfl⟩, rfl⟩

theorem pick_rowAt_eq_ok_iff {a : Fin m.rows} :
    pick text (.matrix (m.rowAt a)) [j] = .ok r ↔
      ∃ b : Fin m.cols, j.Represents b ∧ r = .scalar (m.grid.get a b) := by
  simp only [pick_one, bind_eq_ok_iff, map_eq_ok_iff, position_eq_ok_iff,
    DenseMatrix.select_rowAt, DenseMatrix.get_eq_ok_iff]
  constructor
  · rintro ⟨_, hj, _, ⟨x, ⟨z, b, _, rfl, rfl⟩, rfl⟩, rfl⟩
    exact ⟨b, hj, congrArg _ (m.get_rowAt a z b)⟩
  · rintro ⟨b, hj, rfl⟩
    exact ⟨_, hj, _, ⟨_, ⟨(0 : Fin 1), b, rfl, rfl, rfl⟩, rfl⟩, congrArg _ (m.get_rowAt a 0 b)⟩

end Pick

/-- Both come to the same number, or to errors of the same kind. -/
inductive Alike : Except Failure Value → Except Failure Value → Prop where
  | number (x : Float) : Alike (.ok (.scalar x)) (.ok (.scalar x))
  | error {e e' : Error} (h : e.cause.kind = e'.cause.kind) :
    Alike (.error (.error e)) (.error (.error e'))

theorem alike_fail {cause cause' : Cause} (h : cause.kind = cause'.kind) :
    Alike (fail cause) (fail cause') :=
  .error h

theorem Alike.attachLine {r r' : Except Failure Value} (h : Alike r r') (line line' : Nat) :
    Alike (attachLine line r) (attachLine line' r') := by
  have hcause (e : Error) (line : Nat) : (e.atLine line).cause = e.cause := by
    unfold Error.atLine
    split <;> rfl
  cases h with
  | number x => exact .number x
  | error h => exact .error (by rw [hcause, hcause, h])

section Get

variable {m : DenseMatrix Float} {i j : Value}

theorem find?_get : ∃ b, Builtin.find? "get" = some b ∧ b.arity = 3 ∧
    ∀ v i j tolerance, b.call [v, i, j] tolerance =
      Builtin.matrixArg "get" v >>= fun m => Builtin.indexArg "get" i >>= fun a =>
        Builtin.indexArg "get" j >>= fun b =>
          m.get a b >>= fun x => (Value.scalar x).checkFinite "get()" := by
  refine ⟨_, rfl, rfl, fun v i j tolerance => ?_⟩
  simp only [Builtin.call, bind_assoc, pure_bind]
  rfl

theorem indexArg_of_represents {name : String} {n : Int} (h : i.Represents n) :
    Builtin.indexArg name i = .ok n := by
  obtain ⟨x, hx, hinteger⟩ := Option.bind_eq_some_iff.mp (Value.integer?_eq_some_iff.mpr h)
  simp only [Builtin.indexArg, Builtin.numberArg, hx, bind, Except.bind, hinteger]
  rfl

theorem indexArg_of_not_represents (name : String) (h : ∀ n, ¬i.Represents n) :
    ∃ reason, Builtin.indexArg name i = Builtin.invalid name reason := by
  rw [← Value.integer?_eq_none_iff, Option.bind_eq_none_iff] at h
  unfold Builtin.indexArg Builtin.numberArg
  cases hx : i.number? with
  | none => exact ⟨_, rfl⟩
  | some x =>
    simp only [bind, Except.bind, h x hx]
    exact ⟨_, rfl⟩

/-- Two indices and `get` read the same entry or fail alike. A number that is not finite is no
result of `get`. -/
theorem alike_pick_get {v : Value} (hfinite : v.isFinite = true) {b : Builtin}
    (hb : Builtin.find? "get" = some b) (i j : Value) (text : String) (tolerance : Float) :
    Alike (pick text v [i, j]) (b.call [v, i, j] tolerance) := by
  obtain ⟨b', hb', -, hcall⟩ := find?_get
  obtain rfl := Option.some.inj (hb.symm.trans hb')
  rw [hcall]
  cases v with
  | scalar x => exact alike_fail rfl
  | matrix m =>
    rw [pick_two]
    by_cases hi : ∃ a, i.Represents a
    · obtain ⟨a, hi⟩ := hi
      rw [position_eq_ok_iff.mpr hi, indexArg_of_represents hi]
      by_cases hj : ∃ b, j.Represents b
      · obtain ⟨b, hj⟩ := hj
        rw [position_eq_ok_iff.mpr hj, indexArg_of_represents hj]
        show Alike ((m.get a b).map .scalar)
          (m.get a b >>= fun x => (Value.scalar x).checkFinite "get()")
        rcases m.get_cases a b with ⟨x, hx⟩ | hfail
        · obtain ⟨c, d, -, -, rfl⟩ := DenseMatrix.get_eq_ok_iff.mp hx
          have hentry : (Value.scalar (m.grid.get c d)).isFinite = true :=
            Value.sound_iff.mp (Value.sound_matrix.mp (Value.sound_iff.mpr hfinite) c d)
          rw [hx]
          show Alike (.ok (.scalar _)) (Value.checkFinite "get()" (.scalar _))
          rw [Value.checkFinite_of_isFinite _ hentry]
          exact .number _
        · rw [hfail]
          exact alike_fail rfl
      · obtain ⟨reason, hreason⟩ := indexArg_of_not_represents "get" (not_exists.mp hj)
        rw [position_of_not_represents (not_exists.mp hj), hreason]
        exact alike_fail rfl
    · obtain ⟨reason, hreason⟩ := indexArg_of_not_represents "get" (not_exists.mp hi)
      rw [position_of_not_represents (not_exists.mp hi), hreason]
      exact alike_fail rfl

end Get

section Expressions

variable {env : Environment} {tolerance : Float} {depth : Nat} {target row col : Node}
  {v i j : Value}

theorem attachLine_eq_ok_iff {line : Nat} {r : Except Failure Value} :
    attachLine line r = .ok v ↔ r = .ok v := by
  cases r <;> simp [attachLine, Except.mapError]

theorem eval_index {indices : List Node} {values : List Value}
    (hv : eval env tolerance depth target = .ok v)
    (hindices : indices.mapM (eval env tolerance depth) = .ok values) (line : Nat) :
    eval env tolerance (depth + 1) (.index target indices line) =
      attachLine line (pick (Node.index target indices line).render v values) := by
  rw [eval, hv]
  show indices.mapM (eval env tolerance depth) >>= _ = _
  rw [hindices]
  rfl

theorem eval_index_two (hv : eval env tolerance depth target = .ok v)
    (hi : eval env tolerance depth row = .ok i) (hj : eval env tolerance depth col = .ok j)
    (line : Nat) :
    eval env tolerance (depth + 1) (.index target [row, col] line) =
      attachLine line (pick (Node.index target [row, col] line).render v [i, j]) := by
  refine eval_index hv ?_ line
  rw [List.mapM_cons, List.mapM_cons, hi, hj]
  rfl

theorem eval_index_one (hv : eval env tolerance depth target = .ok v)
    (hi : eval env tolerance depth row = .ok i) (line : Nat) :
    eval env tolerance (depth + 1) (.index target [row] line) =
      attachLine line (pick (Node.index target [row] line).render v [i]) := by
  refine eval_index hv ?_ line
  rw [List.mapM_cons, hi]
  rfl

theorem eval_get (hv : eval env tolerance depth target = .ok v)
    (hi : eval env tolerance depth row = .ok i) (hj : eval env tolerance depth col = .ok j)
    {b : Builtin} (hb : Builtin.find? "get" = some b) (harity : b.arity = 3) (line : Nat) :
    eval env tolerance (depth + 1) (.call "get" [target, row, col] line) =
      attachLine line (b.call [v, i, j] tolerance) := by
  have hvalues : [target, row, col].mapM (eval env tolerance depth) = .ok [v, i, j] := by
    rw [List.mapM_cons, List.mapM_cons, List.mapM_cons, hv, hi, hj]
    rfl
  have hlength : [target, row, col].length = b.arity := harity.symm
  rw [eval, hb]
  dsimp only
  rw [if_pos hlength, hvalues]
  rfl

/-- An expression that is indexed twice takes a level more, on which its operands have the same
values. -/
theorem eval_index_index_eq_ok_iff (hv : eval env tolerance depth target = .ok v)
    (hi : eval env tolerance depth row = .ok i) (hj : eval env tolerance depth col = .ok j)
    (line line' : Nat) {r : Value} :
    eval env tolerance (depth + 2) (.index (.index target [row] line) [col] line') = .ok r ↔
      ∃ part, pick (Node.index target [row] line).render v [i] = .ok part ∧
        pick (Node.index (.index target [row] line) [col] line').render part [j] = .ok r := by
  have hcol : eval env tolerance (depth + 1) col = .ok j := eval_of_le hj (Nat.le_succ depth)
  rw [eval, bind_eq_ok_iff, eval_index_one hv hi]
  refine exists_congr fun part => and_congr attachLine_eq_ok_iff ?_
  rw [List.mapM_cons, hcol]
  exact attachLine_eq_ok_iff

end Expressions

/-- An expression with two indices and the call of `get` come to the same number or to errors of
the same kind. They come to a number exactly if the value is a matrix and the indices are integers
within its shape, and the number is the entry there. Where there are several rows and columns, one
index after the other comes to a value exactly if both at once do, and to the same one. -/
theorem eval_index_agrees {env : Environment} {tolerance : Float} {depth : Nat}
    {target row col : Node} {v i j : Value} (hv : eval env tolerance depth target = .ok v)
    (hi : eval env tolerance depth row = .ok i) (hj : eval env tolerance depth col = .ok j)
    (hfinite : v.isFinite = true) (line line' : Nat) :
    Alike (eval env tolerance (depth + 1) (.index target [row, col] line))
      (eval env tolerance (depth + 1) (.call "get" [target, row, col] line')) ∧
    (∀ r, eval env tolerance (depth + 1) (.index target [row, col] line) = .ok r ↔
      ∃ (m : DenseMatrix Float) (a : Fin m.rows) (b : Fin m.cols), v = .matrix m ∧
        i.Represents a ∧ j.Represents b ∧ r = .scalar (m.grid.get a b)) ∧
    ∀ m, v = .matrix m → 2 ≤ m.rows → 2 ≤ m.cols → ∀ r,
      eval env tolerance (depth + 2) (.index (.index target [row] line) [col] line') = .ok r ↔
        eval env tolerance (depth + 1) (.index target [row, col] line) = .ok r := by
  obtain ⟨b, hb, harity, -⟩ := find?_get
  rw [eval_index_two hv hi hj, eval_get hv hi hj hb harity]
  refine ⟨(alike_pick_get hfinite hb i j _ tolerance).attachLine line line', fun r => ?_, ?_⟩
  · rw [attachLine_eq_ok_iff]
    cases v with
    | scalar x => simp [pick, fail]
    | matrix m =>
      rw [pick_two_eq_ok_iff]
      constructor
      · rintro ⟨a, b, hr⟩
        exact ⟨m, a, b, rfl, hr⟩
      · rintro ⟨m', a, b, hm, hr⟩
        obtain rfl := Value.matrix.inj hm
        exact ⟨a, b, hr⟩
  · rintro m rfl hrows hcols r
    rw [eval_index_index_eq_ok_iff hv hi hj, attachLine_eq_ok_iff, pick_two_eq_ok_iff]
    simp only [pick_one_eq_ok_iff hrows hcols]
    constructor
    · rintro ⟨_, ⟨a, hia, rfl⟩, hpart⟩
      obtain ⟨b, hjb, hr⟩ := pick_rowAt_eq_ok_iff.mp hpart
      exact ⟨a, b, hia, hjb, hr⟩
    · rintro ⟨a, b, hia, hjb, hr⟩
      exact ⟨_, ⟨a, hia, rfl⟩, pick_rowAt_eq_ok_iff.mpr ⟨b, hjb, hr⟩⟩

/-- The row is named by a matrix with one entry. -/
theorem eval_index_agrees_boxed :
    let target : Node := .matrix [[.number 1 1, .number 2 1], [.number 3 1, .number 4 1]] 1
    let row : Node := .matrix [[.number 1 1]] 1
    let m : DenseMatrix Float := .ofList 2 2 [1, 2, 3, 4] (by decide) (by decide) rfl
    eval ⟨[]⟩ 0 2 target = .ok (.matrix m) ∧ (Value.matrix m).isFinite = true ∧
    eval ⟨[]⟩ 0 2 row = .ok (.matrix (DenseMatrix.single 1)) ∧
    Alike (eval ⟨[]⟩ 0 3 (.index target [row, .number 0 1] 1))
      (eval ⟨[]⟩ 0 3 (.call "get" [target, row, .number 0 1] 1)) ∧
    eval ⟨[]⟩ 0 3 (.index target [row, .number 0 1] 1) = .ok (.scalar 3) ∧
    eval ⟨[]⟩ 0 4 (.index (.index target [row] 1) [.number 0 1] 1) = .ok (.scalar 3) := by
  intro target row m
  have hv : eval ⟨[]⟩ 0 2 target = .ok (.matrix m) := rfl
  have hi : eval ⟨[]⟩ 0 2 row = .ok (.matrix (DenseMatrix.single 1)) := rfl
  have hj : eval ⟨[]⟩ 0 2 (.number 0 1) = .ok (.scalar 0) := rfl
  have hfinite : (Value.matrix m).isFinite = true := by decide
  obtain ⟨halike, hentry, hnested⟩ := eval_index_agrees hv hi hj hfinite 1 1
  have hone : Double.Represents 1 1 := Double.integer?_eq_some_iff.mp (by decide +kernel)
  have hzero : Double.Represents 0 0 := Double.integer?_eq_some_iff.mp (by decide +kernel)
  have hpicked := (hentry _).mpr
    ⟨m, (1 : Fin 2), (0 : Fin 2), rfl, ⟨1, .inr rfl, hone⟩, ⟨0, .inl rfl, hzero⟩,
      congrArg Value.scalar (m.entry_eq (1 : Fin 2) (0 : Fin 2))⟩
  exact ⟨hv, hfinite, hi, halike, hpicked, (hnested m rfl le_rfl le_rfl _).mpr hpicked⟩

end Evaluation

end MatrixCalculator
