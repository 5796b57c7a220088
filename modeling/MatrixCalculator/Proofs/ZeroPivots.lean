import Mathlib
import MatrixCalculator.Settings
import MatrixCalculator.Proofs.Agreement
import MatrixCalculator.Proofs.Determinants

namespace MatrixCalculator

theorem negligible_eq_false {tolerance x : Float} (h : ¬0 < tolerance)
    (hx : Arithmetic.isZero x = true) : Grid.negligible tolerance x = false := by
  have habs : x.abs = 0 := abs_eq_zero_of_beq_zero hx
  change decide (x.abs < tolerance) = false
  rw [habs]
  exact decide_eq_false h

theorem FailsAs.ne_zeroPivot {α : Type} {r : Except Failure α} {zero : Prop}
    {large : Excess → Prop} (h : FailsAs zero large r) (hzero : ¬zero) : r ≠ fault .zeroPivot := by
  rintro rfl
  have hraised : Failure.Raised zero large (.fault .zeroPivot) := h
  generalize hfailure : Failure.fault .zeroPivot = failure at hraised
  cases hraised with
  | error h => contradiction
  | zeroPivot h => exact hzero h
  | @excess x h => cases x <;> contradiction

namespace Grid

open Arithmetic

variable {m n k : Nat} {tolerance : Float}

def ZeroFront (hn : 0 < n) (a : Grid Float m n) : Prop := ∀ i, isZero (a.get i ⟨0, hn⟩) = true

theorem finRange_eq_cons (hn : 0 < n) : ∃ cols, List.finRange n = ⟨0, hn⟩ :: cols := by
  obtain ⟨k, rfl⟩ := Nat.exists_eq_add_one.mpr hn
  exact ⟨_, List.finRange_succ⟩

theorem rowReduce_of_zeroFront (htolerance : ¬0 < tolerance) (hm : 0 < m) {hn : 0 < n}
    {a : Grid Float m n} (h : a.ZeroFront hn) : a.rowReduce tolerance = fault .zeroPivot := by
  obtain ⟨cols, hcols⟩ := finRange_eq_cons hn
  have hzero : isZero (a.candidate ⟨0, hm⟩ ⟨0, hn⟩) = true := h _
  have hcounts := negligible_eq_false htolerance hzero
  have hstep : reduceStep tolerance (⟨a, []⟩ : Reduction Float m n) ⟨0, hn⟩ = fault .zeroPivot := by
    rw [reduceStep_eq tolerance (s := ⟨a, []⟩) hm]
    exact (if_neg (Bool.eq_false_iff.mp hcounts)).trans (if_pos hzero)
  rw [rowReduce_eq, hcols, List.foldlM_cons, hstep]
  rfl

theorem solve_of_zeroFront (htolerance : ¬0 < tolerance) {hn : 0 < n} {a : Grid Float n n}
    (h : a.ZeroFront hn) (b : Grid Float n k) (verb : String) :
    a.solve b tolerance verb = fault .zeroPivot := by
  obtain ⟨cols, hcols⟩ := finRange_eq_cons hn
  have hzero : isZero ((a.beside b).candidate ⟨0, hn⟩ (Fin.castAdd k ⟨0, hn⟩)) = true := by
    rw [candidate, get_beside_left]
    exact h _
  have hcounts := negligible_eq_false htolerance hzero
  rw [solve, eliminate, hcols, List.foldlM_cons, solveStep_eq,
    if_neg (Bool.eq_false_iff.mp hcounts), if_pos hzero]
  rfl

/-- A determinant divides by a pivot only if there are rows below it. -/
theorem determinant_of_zeroFront (htolerance : ¬0 < tolerance) (hlt : 1 < n) {hn : 0 < n}
    {a : Grid Float n n} (h : a.ZeroFront hn) : a.determinant tolerance = fault .zeroPivot := by
  obtain ⟨cols, hcols⟩ := finRange_eq_cons hn
  have hzero := h (a.pivotRow ⟨0, hn⟩ ⟨0, hn⟩)
  have hcounts := negligible_eq_false htolerance hzero
  have hclear : (a.swapRows ⟨0, hn⟩ (a.pivotRow ⟨0, hn⟩ ⟨0, hn⟩)).clearBelow ⟨0, hn⟩ =
      fault .zeroPivot := by
    rw [clearBelow, get_swapRows, if_pos rfl]
    exact if_pos ⟨hzero, by simpa using hlt⟩
  rw [determinant, hcols, determinantFrom]
  dsimp only
  rw [if_neg (Bool.eq_false_iff.mp hcounts), hclear]
  rfl

end Grid

inductive Elimination where
  | determinant
  | inverse
  | solution
  | reducedForm
  | rank
  | nullspace

namespace Elimination

/-- The elimination on a matrix, and on a right side where there is one, divides by zero. -/
def DividesByZero {α : Type} [Arithmetic α] (a b : DenseMatrix α) (tolerance : α) :
    Elimination → Prop
  | determinant => a.determinant tolerance = fault .zeroPivot
  | inverse => a.inverse tolerance = fault .zeroPivot
  | solution => a.solve b tolerance = fault .zeroPivot
  | reducedForm => a.rref tolerance = fault .zeroPivot
  | rank => a.rank tolerance = fault .zeroPivot
  | nullspace => a.nullspace tolerance = fault .zeroPivot

theorem not_dividesByZero {α : Type} [Arithmetic α] {tolerance : α} (h : ¬ZeroCounts tolerance)
    (op : Elimination) (a b : DenseMatrix α) : ¬op.DividesByZero a b tolerance := by
  cases op with
  | determinant => exact a.failsAs_determinant.ne_zeroPivot h
  | inverse => exact a.failsAs_inverse.ne_zeroPivot h
  | solution => exact (a.failsAs_solve b).ne_zeroPivot h
  | reducedForm => exact a.failsAs_rref.ne_zeroPivot h
  | rank => exact a.failsAs_rank.ne_zeroPivot h
  | nullspace => exact a.failsAs_nullspace.ne_zeroPivot h

variable {n k : Nat}

theorem dividesByZero_of_zeroFront {tolerance : Float} (htolerance : ¬0 < tolerance)
    (op : Elimination) (hlt : 1 < n) (hn : 0 < n) (hk : 0 < k) {a : Grid Float n n}
    (h : a.ZeroFront hn) (b : Grid Float n k) :
    op.DividesByZero (a.dense hn hn) (b.dense hn hk) tolerance := by
  have hreduce := Grid.rowReduce_of_zeroFront htolerance hn h
  cases op with
  | determinant =>
    rw [DividesByZero, Grid.determinant_dense]
    exact Grid.determinant_of_zeroFront htolerance hlt h
  | inverse =>
    rw [DividesByZero, Grid.inverse_dense, Grid.inverse, Grid.solve_of_zeroFront htolerance h]
    rfl
  | solution =>
    rw [DividesByZero, Grid.solve_dense, Grid.solve_of_zeroFront htolerance h]
    rfl
  | reducedForm =>
    rw [DividesByZero, DenseMatrix.rref, DenseMatrix.grid_dense, hreduce]
    rfl
  | rank =>
    rw [DividesByZero, Grid.rank_dense, hreduce]
    rfl
  | nullspace =>
    rw [DividesByZero, DenseMatrix.nullspace, DenseMatrix.grid_dense, hreduce]
    rfl

/-- With the settings of a session, no elimination divides by zero exactly if the tolerance is
positive. If it is not, every elimination on at least two rows does, as soon as the first column is
all zeros. -/
theorem dividesByZero_settings (s : Settings) (op : Elimination) :
    (0 < s.tolerance → ∀ a b : DenseMatrix Float, ¬op.DividesByZero a b s.tolerance) ∧
    (¬0 < s.tolerance → ∀ (n k : Nat) (hn : 0 < n) (hk : 0 < k), 1 < n →
      ∀ a : Grid Float n n, a.ZeroFront hn → ∀ b : Grid Float n k,
        op.DividesByZero (a.dense hn hn) (b.dense hn hk) s.tolerance) := by
  constructor
  · exact fun hpos => op.not_dividesByZero (not_zeroCounts hpos)
  · exact fun hpos n k hn hk hlt a h b => op.dividesByZero_of_zeroFront hpos hlt hn hk h b

/-- The tolerance zero is accepted, and then no elimination gets through two rows of zeros. -/
theorem dividesByZero_zeros :
    ∃ s, Settings.make? 12 0 false = .ok s ∧ ∀ op : Elimination,
      op.DividesByZero (Grid.dense (by decide) (by decide) #v[#v[0, 0], #v[0, 0]])
        (Grid.dense (by decide) (by decide) #v[#v[0], #v[0]]) s.tolerance := by
  have hzero : ¬(0 : Float) < 0 := by decide
  refine ⟨⟨12, 0, false, by decide, hzero⟩, rfl, fun op => ?_⟩
  apply dividesByZero_of_zeroFront hzero op (by decide)
  intro i
  fin_cases i <;> decide

end Elimination

end MatrixCalculator
