import Mathlib
import MatrixCalculator.Proofs.Agreement
import MatrixCalculator.Proofs.Overflow
import MatrixCalculator.Proofs.Powers
import MatrixCalculator.Proofs.SingleEntries

namespace MatrixCalculator

namespace Grid

variable {n : Nat}

theorem power_one {α : Type} [Arithmetic α] (a : Grid α n n) : a.power 1 = (identity n).mul a := by
  rw [power, powerFrom_step _ _ one_ne_zero, if_pos (by decide : 1 % 2 = 1),
    if_pos (by decide : 1 / 2 = 0)]
  cases (identity n).mul a with
  | none => rfl
  | some p =>
    dsimp only [Option.bind]
    rw [powerFrom, dif_pos (by decide : 1 / 2 = 0)]

theorem inverse_cases {α : Type} [Arithmetic α] {tolerance : α} (hzero : ¬ZeroCounts tolerance)
    (a : Grid α n n) :
    (∃ v, a.inverse tolerance = .ok v) ∨ a.inverse tolerance = fail (.singular "invert") := by
  obtain ⟨s, hs, -⟩ := rowReduce_eliminate hzero "invert" a (identity n)
  rcases solve_cases_of_rank hzero "invert" a (identity n) hs with ⟨-, hv⟩ | ⟨-, hfail⟩
  · exact .inl hv
  · exact .inr hfail

theorem inverse_one (a : Grid Float 1 1) {tolerance : Float} (htolerance : 0 < tolerance) :
    a.inverse tolerance =
      if (a.get 0 0).abs < tolerance then fail (.singular "invert")
      else .ok (ofFn fun _ _ => 1 / a.get 0 0) := by
  have hrow : (a.beside (identity 1)).pivotRow 0 (Fin.castAdd 1 0) = 0 := Subsingleton.elim _ _
  have hcandidate : (a.beside (identity 1)).candidate 0 (Fin.castAdd 1 0) = a.get 0 0 := by
    rw [candidate, hrow, get_beside_left]
  have hfold : List.finRange 1 = [0] := rfl
  rw [inverse, solve, eliminate, hfold, List.foldlM_cons, solveStep_eq, hcandidate]
  by_cases hsmall : (a.get 0 0).abs < tolerance
  · have hnegligible : negligible tolerance (a.get 0 0) = true := decide_eq_true hsmall
    rw [if_pos hsmall, if_pos hnegligible]
    rfl
  · have hnegligible : negligible tolerance (a.get 0 0) = false := decide_eq_false hsmall
    have hzero : ¬Arithmetic.isZero (a.get 0 0) = true := fun h =>
      not_zeroCounts htolerance ⟨_, hnegligible, h⟩
    rw [if_neg hsmall, hnegligible, if_neg Bool.false_ne_true, if_neg hzero]
    refine congrArg Except.ok (Grid.ext fun i j => ?_)
    obtain rfl : i = 0 := Subsingleton.elim _ _
    obtain rfl : j = 0 := Subsingleton.elim _ _
    rw [get_right, get_pivoted_start, hrow, get_beside_right, get_beside_left, get_ofFn, identity,
      get_ofFn, if_pos rfl]

end Grid

theorem Builtin.answer?_inv (m : DenseMatrix Float) (tolerance : Float) :
    answer? "inv" m tolerance = some ((m.inverse tolerance).bind fun k =>
      (Value.matrix k).checkFinite (label "inv")) := by
  have hcall : answer? "inv" m tolerance = some (((m.inverse tolerance).map Value.matrix).bind
      (Value.checkFinite (label "inv"))) := rfl
  rw [hcall]
  cases m.inverse tolerance <;> rfl

namespace Value

open DenseMatrix

/-- All are values, or all are errors. -/
def Unanimous (rs : List (Except Failure Value)) : Prop :=
  (∀ r ∈ rs, ∃ v, r = .ok v) ∨ ∀ r ∈ rs, ∃ e, r = .error (.error e)

/-- A value where the condition holds, and an error where it does not. -/
structure Decides (p : Prop) (r : Except Failure Value) : Prop where
  value : p → ∃ v, r = .ok v
  error : ¬p → ∃ e, r = .error (.error e)

theorem unanimous_of_decides {p : Prop} {rs : List (Except Failure Value)}
    (h : ∀ r ∈ rs, Decides p r) : Unanimous rs := by
  by_cases hp : p
  · exact .inl fun r hr => (h r hr).value hp
  · exact .inr fun r hr => (h r hr).error hp

theorem decides_checkFinite (subject : String) (v : Value) :
    Decides (v.isFinite = true) (v.checkFinite subject) where
  value h := ⟨v, checkFinite_of_isFinite subject h⟩
  error h := ⟨_, checkFinite_of_not_isFinite subject (Bool.eq_false_iff.mpr h)⟩

section Single

variable {x tolerance : Float}

theorem isFinite_single (x : Float) : (Value.matrix (single x)).isFinite = x.isFinite :=
  Bool.and_true _

/-- The entry can be divided by, and its reciprocal is a double. -/
def Divides (x : Float) : Prop := (x == 0) = false ∧ (1 / x).isFinite = true

theorem not_divides_zero (h : (x == 0) = true) : ¬Divides x := fun hdivides =>
  Bool.false_ne_true (hdivides.1.symm.trans h)

theorem decides_of_isFinite {y : Float} (hzero : (x == 0) = false)
    (h : y.isFinite = (1 / x).isFinite) (subject : String) :
    Decides (Divides x) ((Value.matrix (single y)).checkFinite subject) := by
  have hdivides : Divides x ↔ (Value.matrix (single y)).isFinite = true := by
    rw [isFinite_single, h]
    exact and_iff_right hzero
  rw [hdivides]
  exact decides_checkFinite subject _

theorem decides_fail {p : Prop} (hp : ¬p) (cause : Cause) : Decides p (fail cause) where
  value h := absurd h hp
  error _ := ⟨_, rfl⟩

theorem decides_div_single (x tolerance : Float) :
    Decides (Divides x) (binary .div (.scalar 1) (.matrix (single x)) tolerance) := by
  rw [binary, operate, div_single, divByNumber_eq]
  cases hzero : x == 0 with
  | true => exact decides_fail (not_divides_zero hzero) _
  | false => exact decides_of_isFinite hzero rfl _

theorem integer?_minus_one : Double.integer? (-1) = some (-1) := by
  decide +kernel

theorem numberPower_minus_one (pow : Float → Float → Float) (hx : x.isFinite = true) :
    numberPower x (-1) pow =
      if (x == 0) = true then fail .divisionByZero
      else if (pow x (-1)).isFinite = true then .ok (pow x (-1))
      else fail (DenseMatrix.tooLarge "^") := by
  have hnegative : decide ((-1 : Float) < 0) = true := by decide
  have hone : (-1 : Float).isFinite = true := by decide
  rw [numberPower_eq, hnegative, integer?_minus_one, Bool.and_true]
  cases x == 0 with
  | true => rfl
  | false =>
    cases hpow : (pow x (-1)).isFinite <;> simp [hx, hone]

theorem decides_power_single {pow : Float → Float → Float} (hpow : Double.PowerRange pow)
    (hx : x.isFinite = true) (tolerance : Float) :
    Decides (Divides x)
      (binary .pow (.matrix (single x)) (.scalar (-1)) tolerance pow) := by
  have hbinary : binary .pow (.matrix (single x)) (.scalar (-1)) tolerance pow =
      (numberPower x (-1) pow).bind fun y => (Value.matrix (single y)).checkFinite "^" := by
    simp only [binary, operate, power, powerByNumber, only?_single]
    cases numberPower x (-1) pow <;> rfl
  rw [hbinary, numberPower_minus_one pow hx]
  cases hzero : x == 0 with
  | true => exact decides_fail (not_divides_zero hzero) _
  | false =>
    have hrange := hpow.isFinite_eq hx hzero
    rw [if_neg Bool.false_ne_true]
    split
    · exact decides_of_isFinite hzero hrange _
    · rename_i hinfinite
      exact decides_fail (fun h => hinfinite (hrange.trans h.2)) _

theorem inverse_single (x : Float) (htolerance : 0 < tolerance) :
    (single x).inverse tolerance =
      if x.abs < tolerance then fail (.singular "invert") else .ok (single (1 / x)) := by
  rw [single_eq_dense, Grid.inverse_dense, Grid.inverse_one _ htolerance, Grid.get_ofFn]
  split
  · rfl
  · exact congrArg Except.ok (single_eq_dense (1 / x)).symm

theorem decides_inverse_single (htolerance : 0 < tolerance)
    (hlarge : (x == 0) = false → ¬x.abs < tolerance) (subject : String) :
    Decides (Divides x) (((single x).inverse tolerance).bind fun k =>
      (Value.matrix k).checkFinite subject) := by
  rw [inverse_single x htolerance]
  cases hzero : x == 0 with
  | true =>
    rw [if_pos (abs_lt_of_beq_zero hzero htolerance)]
    exact decides_fail (not_divides_zero hzero) _
  | false =>
    rw [if_neg (hlarge hzero)]
    exact decides_of_isFinite hzero rfl _

end Single

section Larger

variable {n : Nat} {hn : 0 < n} {a : Grid Float n n} {tolerance : Float}

theorem isFinite_dense {hn : 0 < n} {b : Grid Float n n} :
    (Value.matrix (b.dense hn hn)).isFinite = true ↔ ∀ i j, (b.get i j).isFinite = true := by
  rw [← sound_iff, sound_matrix, grid_dense]

theorem decides_scaled (b : Grid Float n n) (subject : String) :
    Decides ((Value.matrix (b.dense hn hn)).isFinite = true)
      ((Value.matrix ((b.dense hn hn).map fun v => 1 * v)).checkFinite subject) := by
  have hfinite : (Value.matrix ((b.dense hn hn).map fun v => 1 * v)).isFinite =
      (Value.matrix (b.dense hn hn)).isFinite := by
    rw [isFinite, entries, data_map, List.all_map]
    exact congrArg (b.dense hn hn).data.all (funext Double.isFinite_one_mul)
  rw [← hfinite]
  exact decides_checkFinite subject _

theorem decides_power_one (b : Grid Float n n) (subject : String) :
    Decides ((Value.matrix (b.dense hn hn)).isFinite = true)
      (((b.power 1).elim (fail (tooLarge "*")) fun p => .ok (p.dense hn hn)).bind fun k =>
        (Value.matrix k).checkFinite subject) := by
  rw [Grid.power_one, isFinite_dense]
  constructor
  · intro hb
    obtain ⟨c, hc, hfinite⟩ := Grid.exists_identity_mul hb
    rw [hc]
    exact ⟨_, checkFinite_of_isFinite subject (isFinite_dense.mpr hfinite)⟩
  · intro hb
    cases hc : (Grid.identity n).mul b with
    | none => exact ⟨_, rfl⟩
    | some c =>
      refine ⟨_, checkFinite_of_not_isFinite subject ?_⟩
      rw [Bool.eq_false_iff, Ne, isFinite_dense]
      exact fun hfinite => hb (Grid.isFinite_identity_mul hc hfinite)

/-- What comes of an inverse depends on whether there is one, and whether it is finite. -/
theorem decides_inverse (hn : 0 < n) (a : Grid Float n n) (htolerance : 0 < tolerance)
    {f : Grid Float n n → Except Failure Value}
    (hf : ∀ b, Decides ((Value.matrix (b.dense hn hn)).isFinite = true) (f b)) :
    Decides (∃ b, a.inverse tolerance = .ok b ∧ (Value.matrix (b.dense hn hn)).isFinite = true)
      ((a.inverse tolerance).bind f) := by
  rcases Grid.inverse_cases (not_zeroCounts htolerance) a with ⟨b, hb⟩ | hfail
  · rw [hb]
    constructor
    · rintro ⟨b', hb', hfinite⟩
      obtain rfl := Except.ok.inj hb'
      exact (hf b).value hfinite
    · exact fun hnone => (hf b).error fun hfinite => hnone ⟨b, rfl, hfinite⟩
  · rw [hfail]
    refine decides_fail ?_ _
    rintro ⟨b, hb, -⟩
    contradiction

theorem inverse_dense_bind (subject : String) :
    (((a.dense hn hn).inverse tolerance).bind fun k => (Value.matrix k).checkFinite subject) =
      (a.inverse tolerance).bind fun b => (Value.matrix (b.dense hn hn)).checkFinite subject := by
  rw [Grid.inverse_dense]
  cases a.inverse tolerance <;> rfl

theorem binary_div_dense (ha : (a.dense hn hn).only? = none) :
    binary .div (.scalar 1) (.matrix (a.dense hn hn)) tolerance =
      (a.inverse tolerance).bind fun b =>
        (Value.matrix ((b.dense hn hn).map fun v => 1 * v)).checkFinite "/" := by
  simp only [binary, operate, div, ha, Grid.inverse_dense]
  cases a.inverse tolerance <;> rfl

theorem binary_power_dense (ha : (a.dense hn hn).only? = none) (pow : Float → Float → Float) :
    binary .pow (.matrix (a.dense hn hn)) (.scalar (-1)) tolerance pow =
      (a.inverse tolerance).bind fun b =>
        ((b.power 1).elim (fail (tooLarge "*")) fun p => .ok (p.dense hn hn)).bind fun k =>
          (Value.matrix k).checkFinite "^" := by
  simp only [binary, operate, power, powerByNumber, ha, integer?_minus_one, Grid.power_dense]
  rw [if_pos (by decide)]
  cases a.inverse tolerance with
  | error e => rfl
  | ok b =>
    dsimp only [Except.bind]
    rw [show (-1 : Int).natAbs = 1 from rfl]
    cases b.power 1 <;> rfl

end Larger

/-- At every positive tolerance, one over a square matrix of finite entries and its power of
exponent minus one both have values, or both end in errors. So does the inverse, unless the matrix
has one entry that is other than zero but below the tolerance: then it counts as singular. -/
theorem reciprocals_agree {pow : Float → Float → Float} (hpow : Double.PowerRange pow)
    {m : DenseMatrix Float} (hsquare : m.cols = m.rows)
    (hfinite : (Value.matrix m).isFinite = true) {tolerance : Float} (htolerance : 0 < tolerance) :
    ∃ inverse, Builtin.answer? "inv" m tolerance = some inverse ∧
      Unanimous [binary .div (.scalar 1) (.matrix m) tolerance,
        binary .pow (.matrix m) (.scalar (-1)) tolerance pow] ∧
      ((∀ x, m.only? = some x → (x == 0) = false → ¬x.abs < tolerance) →
        Unanimous [inverse, binary .div (.scalar 1) (.matrix m) tolerance,
          binary .pow (.matrix m) (.scalar (-1)) tolerance pow]) ∧
      ∀ x, m.only? = some x → x.abs < tolerance → inverse = fail (.singular "invert") := by
  refine ⟨_, Builtin.answer?_inv m tolerance, ?_⟩
  cases hm : m.only? with
  | some x =>
    obtain rfl := eq_single_of_only? hm
    rw [isFinite_single] at hfinite
    have hquotient := decides_div_single x tolerance
    have hpower := decides_power_single hpow hfinite tolerance
    have hboth := List.forall_mem_cons.mpr ⟨hquotient, List.forall_mem_singleton.mpr hpower⟩
    refine ⟨unanimous_of_decides hboth, fun hlarge => ?_, ?_⟩
    · have hinverse := decides_inverse_single htolerance (hlarge x rfl) (Builtin.label "inv")
      exact unanimous_of_decides (List.forall_mem_cons.mpr ⟨hinverse, hboth⟩)
    · intro y hy hsmall
      obtain rfl := Option.some.inj hy
      rw [inverse_single x htolerance, if_pos hsmall]
      rfl
  | none =>
    obtain ⟨n, _, hn, _, a, rfl⟩ := m.exists_dense
    dsimp only at hsquare
    subst hsquare
    have hquotient := decides_inverse hn a htolerance fun b => decides_scaled b "/"
    have hpower := decides_inverse hn a htolerance fun b => decides_power_one b "^"
    have hinverse := decides_inverse hn a htolerance fun b =>
      decides_checkFinite (Builtin.label "inv") (.matrix (b.dense hn hn))
    have hboth := List.forall_mem_cons.mpr ⟨hquotient, List.forall_mem_singleton.mpr hpower⟩
    rw [binary_div_dense hm, binary_power_dense hm, inverse_dense_bind]
    exact ⟨unanimous_of_decides hboth,
      fun _ => unanimous_of_decides (List.forall_mem_cons.mpr ⟨hinverse, hboth⟩),
      fun _ hx => absurd hx.symm (Option.some_ne_none _)⟩

/-- A matrix with one entry, and one whose rows are exchanged to invert it. -/
theorem reciprocals_agree_exchange :
    (∃ inverse, Builtin.answer? "inv" (single 4) defaultTolerance = some inverse ∧
      Unanimous [inverse, binary .div (.scalar 1) (.matrix (single 4)) defaultTolerance,
        binary .pow (.matrix (single 4)) (.scalar (-1)) defaultTolerance fun x _ => 1 / x]) ∧
    ∃ (m : DenseMatrix Float) (inverse : Except Failure Value),
      m.toRows = [[0, 2], [4, 1]] ∧ Builtin.answer? "inv" m defaultTolerance = some inverse ∧
      Unanimous [inverse, binary .div (.scalar 1) (.matrix m) defaultTolerance,
        binary .pow (.matrix m) (.scalar (-1)) defaultTolerance fun x _ => 1 / x] := by
  have htolerance : 0 < defaultTolerance := by decide +kernel
  constructor
  · have hlarge : ¬(4 : Float).abs < defaultTolerance := by decide +kernel
    obtain ⟨inverse, hinverse, -, hall, -⟩ := reciprocals_agree Double.powerRange_reciprocal
      (show (single (4 : Float)).cols = (single (4 : Float)).rows from rfl)
      ((isFinite_single 4).trans (by decide)) htolerance
    refine ⟨inverse, hinverse, hall fun x hx _ => ?_⟩
    rw [only?_single] at hx
    rwa [← Option.some.inj hx]
  · let m : DenseMatrix Float := .ofList 2 2 [0, 2, 4, 1] (by decide) (by decide) rfl
    obtain ⟨inverse, hinverse, -, hall, -⟩ := reciprocals_agree Double.powerRange_reciprocal
      (show m.cols = m.rows from rfl) (by decide +kernel) htolerance
    exact ⟨m, inverse, rfl, hinverse, hall fun x hx _ => absurd hx (by simp [only?, m, ofList])⟩

/-- An entry below the tolerance has a reciprocal, but the matrix of it has no inverse. -/
theorem reciprocals_differ_below_tolerance :
    (Value.matrix (single 1e-11)).isFinite = true ∧
      Builtin.answer? "inv" (single 1e-11) defaultTolerance = some (fail (.singular "invert")) ∧
      ∃ v, binary .div (.scalar 1) (.matrix (single 1e-11)) defaultTolerance = .ok v := by
  have hsmall : (1e-11 : Float).abs < defaultTolerance := by decide +kernel
  refine ⟨(isFinite_single _).trans (by decide +kernel), ?_, ?_⟩
  · rw [Builtin.answer?_inv, inverse_single _ (by decide +kernel), if_pos hsmall]
    rfl
  · exact (decides_div_single 1e-11 defaultTolerance).value ⟨by decide +kernel, by decide +kernel⟩

end Value

end MatrixCalculator
