import Mathlib
import MatrixCalculator.Proofs.Products
import MatrixCalculator.Proofs.Transposition

namespace MatrixCalculator

namespace Double

/-- Doubles are multiplied in either order, also where the product overflows or is not a number. -/
protected theorem mul_comm (x y : Float) : x * y = y * x := by
  have hmodel : x.toModel * y.toModel = y.toModel * x.toModel :=
    congrArg (Float.Model.pack ·) (mul_comm_unpacked (unpacked x) (unpacked y))
  exact congrArg Float.ofModel hmodel

end Double

namespace Grid

variable {α : Type} [Arithmetic α] {m n k : Nat} {a : Grid α m k} {b : Grid α k n}

theorem mul_eq_none_iff : a.mul b = none ↔ ∃ i j, cell? a b i j = none := by
  rw [mul_eq]
  split
  · rename_i hsome
    simp only [reduceCtorEq, false_iff, not_exists]
    intro i j hnone
    have hij := hsome i j
    rw [hnone] at hij
    contradiction
  · rename_i hsome
    simpa using hsome

theorem cell?_transpose (hcomm : ∀ x y : α, x * y = y * x) (i : Fin m) (j : Fin n) :
    cell? b.transpose a.transpose j i = cell? a b i j := by
  simp only [cell?, get_transpose, hcomm]

/-- The transposed product is the product of the transposed factors in reverse order, and it exists
in the same cases. -/
theorem mul_transpose (hcomm : ∀ x y : α, x * y = y * x) :
    b.transpose.mul a.transpose = (a.mul b).map transpose := by
  apply Option.ext
  intro c
  rw [mul_eq_some_iff, Option.map_eq_some_iff]
  constructor
  · intro h
    refine ⟨c.transpose, mul_eq_some_iff.mpr fun i j => ?_, c.transpose_transpose⟩
    rw [← cell?_transpose hcomm, h, get_transpose]
  · rintro ⟨d, hd, rfl⟩ j i
    rw [cell?_transpose hcomm, mul_eq_some_iff.mp hd, get_transpose]

end Grid

namespace DenseMatrix

variable {α : Type} [Arithmetic α] {a b : DenseMatrix α}

/-- The products that make up the entry `(i, j)` of a product, in the order of their addition. -/
def terms (a b : DenseMatrix α) (h : a.cols = b.rows) (i : Fin a.rows) (j : Fin b.cols) : List α :=
  List.ofFn fun l : Fin a.cols => a.grid.get i l * b.grid.get (l.cast h) j

theorem terms_dense {m k n : Nat} (hm : 0 < m) (hk : 0 < k) (hn : 0 < n) (a : Grid α m k)
    (b : Grid α k n) (i : Fin m) (j : Fin n) : terms (a.dense hm hk) (b.dense hk hn) rfl i j =
      List.ofFn fun l => a.get i l * b.get l j := by
  rw [terms, grid_dense, grid_dense]
  rfl

theorem mul_eq_mismatch_iff : a.cols ≠ b.rows ↔
    a.mul b = fail (.mismatch "multiply" (some a.shape) (some b.shape)) := by
  constructor
  · intro h
    exact dif_neg (Ne.symm h)
  · intro h hfit
    rw [mul, dif_pos hfit.symm] at h
    split at h
    · contradiction
    · simp [fail, tooLarge] at h

theorem mul_cases (hcomm : ∀ x y : α, x * y = y * x) (h : a.cols = b.rows) :
    ((∃ i j, Arithmetic.sum? (a.terms b h i j) = none) ∧ a.mul b = fail (tooLarge "*") ∧
      b.transpose.mul a.transpose = fail (tooLarge "*")) ∨
    ∃ c, a.mul b = .ok c ∧ b.transpose.mul a.transpose = .ok c.transpose ∧
      c.shape = ⟨a.rows, b.cols⟩ ∧
      ∀ (i : Fin a.rows) (j : Fin b.cols), ∃ x,
        Arithmetic.sum? (a.terms b h i j) = some x ∧ c.get i j = .ok x := by
  obtain ⟨m, k, hm, hk, a, rfl⟩ := a.exists_dense
  obtain ⟨_, n, _, hn, b, rfl⟩ := b.exists_dense
  dsimp only at h
  subst h
  have hproduct := Grid.dense_mul_dense hm hk hn a b
  have htransposed := Grid.dense_mul_dense hn hk hm b.transpose a.transpose
  rw [Grid.mul_transpose hcomm, ← transpose_dense, ← transpose_dense] at htransposed
  simp only [terms_dense hm hk hn a b]
  -- Both products are now read off one grid.
  cases hgrid : a.mul b with
  | none =>
    rw [hgrid] at hproduct htransposed
    exact .inl ⟨Grid.mul_eq_none_iff.mp hgrid, hproduct, htransposed⟩
  | some c =>
    rw [hgrid] at hproduct htransposed
    refine .inr ⟨_, hproduct, ?_, rfl, fun i j => ⟨c.get i j, Grid.mul_eq_some_iff.mp hgrid i j,
      get_eq_ok_iff.mpr ⟨i, j, rfl, rfl, by rw [grid_dense]⟩⟩⟩
    rw [transpose_dense c]
    exact htransposed

/-- The matrix product. Factors whose inner sizes differ have none, and this is the only mismatch.
Of factors that fit, every entry is the sum of its terms rounded once, and there is a product unless
one of these sums fails. Transposed, the factors in reverse order give the transposed product, and
fail where the product fails. -/
theorem mul_row_by_column (a b : DenseMatrix Float) :
    (a.cols ≠ b.rows ↔ a.mul b = fail (.mismatch "multiply" (some a.shape) (some b.shape))) ∧
    (a.cols ≠ b.rows ↔ b.transpose.mul a.transpose =
      fail (.mismatch "multiply" (some b.transpose.shape) (some a.transpose.shape))) ∧
    ∀ h : a.cols = b.rows,
      ((∃ i j, ExactSum.sum? (a.terms b h i j) = none) ∧ a.mul b = fail (tooLarge "*") ∧
        b.transpose.mul a.transpose = fail (tooLarge "*")) ∨
      ∃ c, a.mul b = .ok c ∧ b.transpose.mul a.transpose = .ok c.transpose ∧
        c.shape = ⟨a.rows, b.cols⟩ ∧
        ∀ (i : Fin a.rows) (j : Fin b.cols), ∃ x,
          ExactSum.sum? (a.terms b h i j) = some x ∧ c.get i j = .ok x :=
  ⟨mul_eq_mismatch_iff, ne_comm.trans (mul_eq_mismatch_iff (a := b.transpose) (b := a.transpose)),
    fun h => mul_cases Double.mul_comm h⟩

/-- A wide matrix times a column. -/
theorem mul_row_by_column_wide : ∃ a b c : DenseMatrix Float,
    a.toRows = [[1, 2, 3], [4, 5, 6]] ∧ b.toRows = [[7], [8], [9]] ∧ a.cols = b.rows ∧
    a.mul b = .ok c ∧ c.toRows = [[50], [122]] ∧ c.shape = ⟨2, 1⟩ ∧
    b.transpose.mul a.transpose = .ok c.transpose := by
  let a : DenseMatrix Float := ofList 2 3 [1, 2, 3, 4, 5, 6] (by decide) (by decide) rfl
  let b : DenseMatrix Float := ofList 3 1 [7, 8, 9] (by decide) (by decide) rfl
  have hrows : (a.mul b).toOption.map toRows = some [[50], [122]] := by decide +kernel
  obtain ⟨c, hc, hcrows⟩ := Option.map_eq_some_iff.mp hrows
  have hproduct := eq_ok_of_toOption hc
  rcases (mul_row_by_column a b).2.2 rfl with ⟨-, hfail, -⟩ | ⟨d, hd, htransposed, hshape, -⟩
  · exact absurd (hproduct.symm.trans hfail) (ok_ne_fail _ _)
  · obtain rfl : d = c := Except.ok.inj (hd.symm.trans hproduct)
    exact ⟨a, b, d, rfl, rfl, rfl, hd, hcrows, hshape, htransposed⟩

end DenseMatrix

end MatrixCalculator
