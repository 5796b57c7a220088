import Mathlib
import MatrixCalculator.Matrix.Elimination

namespace MatrixCalculator.Grid

variable {α : Type} {m n k : Nat}

@[simp] theorem get_beside_left (a : Grid α m n) (b : Grid α m k) (i : Fin m) (j : Fin n) :
    (a.beside b).get i (j.castAdd k) = a.get i j := by
  simp [get, beside]

@[simp] theorem get_beside_right (a : Grid α m n) (b : Grid α m k) (i : Fin m) (j : Fin k) :
    (a.beside b).get i (j.natAdd n) = b.get i j := by
  simp [get, beside]

@[simp] theorem get_right (a : Grid α m (n + k)) (i : Fin m) (j : Fin k) :
    a.right.get i j = a.get i (j.natAdd n) := by
  simp [right]

/-- What holds behind the last column, and in front of a column if behind it, holds in front of the
first. -/
theorem columns_induction {motive : Nat → List (Fin n) → Prop} (last : motive n [])
    (next : ∀ (c : Fin n) (cols : List (Fin n)), motive (c + 1) cols → motive c (c :: cols)) :
    motive 0 (List.finRange n) := by
  have hdrop : ∀ c ≤ n, motive c ((List.finRange n).drop c) := by
    intro c hc
    induction hc using Nat.decreasingInduction with
    | self =>
      rw [List.drop_of_length_le (by simp)]
      exact last
    | of_succ c hc ih =>
      rw [List.drop_eq_getElem_cons (by simpa using hc), List.getElem_finRange]
      exact next ⟨c, hc⟩ _ ih
  exact hdrop 0 (Nat.zero_le n)

section

variable [Arithmetic α]

/-- The better of two rows, where only rows behind `start` come into question. -/
def better (a : Grid α m n) (start : Fin m) (col : Fin n) (best r : Fin m) : Fin m :=
  if start < r ∧ Arithmetic.below (Arithmetic.abs (a.get best col)) (Arithmetic.abs (a.get r col))
  then r else best

theorem pivotRow_eq (a : Grid α m n) (start : Fin m) (col : Fin n) :
    a.pivotRow start col = (List.finRange m).foldl (a.better start col) start := rfl

theorem le_better (a : Grid α m n) {start best : Fin m} (col : Fin n) (h : start ≤ best)
    (r : Fin m) : start ≤ a.better start col best r := by
  unfold better
  split
  · rename_i hr
    exact hr.1.le
  · exact h

theorem le_pivotRow (a : Grid α m n) (start : Fin m) (col : Fin n) :
    start ≤ a.pivotRow start col := by
  rw [pivotRow_eq]
  exact List.foldlRecOn _ _ (le_refl start) fun best h r _ => a.le_better col h r

/-- The rows that may not move any more are not looked at. -/
theorem pivotRow_congr {a : Grid α m n} {b : Grid α m k} {start : Fin m} {col : Fin n}
    {col' : Fin k} (h : ∀ r, start ≤ r → a.get r col = b.get r col') :
    a.pivotRow start col = b.pivotRow start col' := by
  have hbetter : ∀ best r, start ≤ best →
      a.better start col best r = b.better start col' best r := by
    intro best r hbest
    unfold better
    by_cases hr : start < r
    · rw [h best hbest, h r hr.le]
    · rw [if_neg fun hcond => hr hcond.1, if_neg fun hcond => hr hcond.1]
  rw [pivotRow_eq, pivotRow_eq]
  generalize List.finRange m = rows
  have hfold : ∀ best, start ≤ best →
      rows.foldl (a.better start col) best = rows.foldl (b.better start col') best := by
    induction rows with
    | nil => exact fun best _ => rfl
    | cons r rows ih =>
      intro best hbest
      rw [List.foldl_cons, List.foldl_cons, ← hbetter best r hbest]
      exact ih _ (a.le_better col hbest r)
  exact hfold start (le_refl start)

end

end MatrixCalculator.Grid
