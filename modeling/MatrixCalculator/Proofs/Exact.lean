import Mathlib
import MatrixCalculator.Proofs.Pivoting

namespace MatrixCalculator

instance : Arithmetic ℚ where
  abs x := |x|
  below x y := decide (x < y)
  isZero x := decide (x = 0)
  sum? xs := some xs.sum

namespace Grid

variable {m n k : Nat}

def toMatrix {α : Type} (a : Grid α m n) : Matrix (Fin m) (Fin n) α := Matrix.of a.get

@[simp] theorem toMatrix_apply {α : Type} (a : Grid α m n) (i : Fin m) (j : Fin n) :
    a.toMatrix i j = a.get i j := rfl

theorem isZero_iff {x : ℚ} : Arithmetic.isZero x = true ↔ x = 0 := decide_eq_true_iff

theorem negligible_iff {tolerance x : ℚ} : negligible tolerance x = true ↔ |x| < tolerance :=
  decide_eq_true_iff

theorem ne_zero_of_not_negligible {tolerance x : ℚ} (h : 0 < tolerance)
    (hx : ¬negligible tolerance x = true) : x ≠ 0 := by
  rintro rfl
  rw [negligible_iff, abs_zero] at hx
  exact hx h

theorem abs_le_pivotRow (a : Grid ℚ m n) {start r : Fin m} (h : start ≤ r) (col : Fin n) :
    |a.get r col| ≤ |a.get (a.pivotRow start col) col| := by
  have hbest : ∀ best r, |a.get best col| ≤ |a.get (a.better start col best r) col| := by
    intro best r
    unfold better
    split
    · rename_i hr
      exact (of_decide_eq_true hr.2).le
    · exact le_refl _
  have hnext : ∀ best r, start < r → |a.get r col| ≤ |a.get (a.better start col best r) col| := by
    intro best r hr
    unfold better
    split
    · exact le_refl _
    · rename_i hcond
      exact not_lt.mp fun hlt => hcond ⟨hr, decide_eq_true hlt⟩
  have hfold : ∀ (rows : List (Fin m)) (best : Fin m),
      |a.get best col| ≤ |a.get (rows.foldl (a.better start col) best) col| ∧
      ∀ r ∈ rows, start < r →
        |a.get r col| ≤ |a.get (rows.foldl (a.better start col) best) col| := by
    intro rows
    induction rows with
    | nil => exact fun best => ⟨le_refl _, by simp⟩
    | cons r rows ih =>
      intro best
      obtain ⟨hhead, htail⟩ := ih (a.better start col best r)
      refine ⟨(hbest best r).trans hhead, List.forall_mem_cons.mpr ⟨fun hr => ?_, htail⟩⟩
      exact (hnext best r hr).trans hhead
  obtain ⟨hstart, hrows⟩ := hfold (List.finRange m) start
  rcases h.lt_or_eq with hlt | rfl
  · exact hrows r (List.mem_finRange r) hlt
  · exact hstart

theorem toMatrix_swapRows (a : Grid ℚ m n) (r s : Fin m) :
    (a.swapRows r s).toMatrix = Matrix.swap ℚ r s * a.toMatrix := by
  ext i j
  rw [toMatrix_apply, get_swapRows]
  split
  · rename_i hr
    rw [hr, Matrix.swap_mul_apply_left]
    rfl
  · rename_i hr
    split
    · rename_i hs
      rw [hs, Matrix.swap_mul_apply_right]
      rfl
    · rename_i hs
      rw [Matrix.swap_mul_of_ne hr hs]
      rfl

theorem det_swap {r s : Fin m} : (Matrix.swap ℚ r s).det = if s = r then 1 else -1 := by
  rw [Matrix.swap, Matrix.det_permutation]
  by_cases h : s = r
  · simp [h]
  · rw [if_neg h, Equiv.Perm.sign_swap (Ne.symm h)]
    norm_num

/-- Multiplies row `p` by `u p`, and adds its multiple by `u i` to each other row `i`. -/
def addMultiples (a : Grid ℚ m n) (p : Fin m) (u : Fin m → ℚ) : Grid ℚ m n :=
  ofFn fun i j => (if i = p then 0 else a.get i j) + u i * a.get p j

/-- The factors that make the entry of row `p` in the column one and all others zero. -/
def reducing (a : Grid ℚ m n) (p : Fin m) (col : Fin n) (i : Fin m) : ℚ :=
  (if i = p then 1 else -a.get i col) / a.get p col

/-- The factors that make the entries below the diagonal zero. -/
def lowering (a : Grid ℚ n n) (col i : Fin n) : ℚ :=
  if i = col then 1 else if col < i then -(a.get i col / a.get col col) else 0

theorem toMatrix_addMultiples (a : Grid ℚ m n) (p : Fin m) (u : Fin m → ℚ) :
    (a.addMultiples p u).toMatrix = (1 : Matrix (Fin m) (Fin m) ℚ).updateCol p u * a.toMatrix := by
  ext i j
  have hterm : ∀ r ∈ Finset.univ.erase p,
      (1 : Matrix (Fin m) (Fin m) ℚ).updateCol p u i r * a.get r j =
        if i = r then a.get r j else 0 := by
    intro r hr
    rw [Matrix.updateCol_ne (Finset.ne_of_mem_erase hr), Matrix.one_apply, ite_mul, one_mul,
      zero_mul]
  have hrest : ∑ r ∈ Finset.univ.erase p,
      (1 : Matrix (Fin m) (Fin m) ℚ).updateCol p u i r * a.get r j =
        if i = p then 0 else a.get i j := by
    rw [Finset.sum_congr rfl hterm, Finset.sum_ite_eq]
    simp only [Finset.mem_erase, Finset.mem_univ, and_true, ite_not]
  rw [Matrix.mul_apply, ← Finset.sum_erase_add _ _ (Finset.mem_univ p)]
  simp only [toMatrix_apply, hrest, Matrix.updateCol_self, addMultiples, get_ofFn]

theorem det_updateCol_one (p : Fin m) (u : Fin m → ℚ) :
    ((1 : Matrix (Fin m) (Fin m) ℚ).updateCol p u).det = u p := by
  rw [← Matrix.cramer_apply, Matrix.cramer_one]
  rfl

theorem get_rows {α : Type} (rows : Fin m → Vector α n) (i : Fin m) (j : Fin n) :
    get (Vector.ofFn rows) i j = (rows i).get j := by
  simp [get, Vector.get_eq_getElem]

theorem get_row {α : Type} (a : Grid α m n) (i : Fin m) (j : Fin n) :
    (a.row i).get j = a.get i j := by
  simp [get, row, Vector.get_eq_getElem]

theorem get_cleared (row pivot : Vector ℚ n) (factor : ℚ) (j : Fin n) :
    (cleared row pivot factor).get j = row.get j - factor * pivot.get j := by
  unfold cleared
  by_cases hfactor : factor = 0
  · subst hfactor
    rw [if_pos (isZero_iff.mpr rfl), zero_mul, sub_zero]
  · rw [if_neg (isZero_iff.not.mpr hfactor)]
    simp [Vector.get_eq_getElem]

theorem reduceColumn_eq {a : Grid ℚ m n} {p : Fin m} {col : Fin n} (h : a.get p col ≠ 0) :
    a.reduceColumn p col = .ok (a.addMultiples p (a.reducing p col)) := by
  have hpivot : ∀ j, ((a.row p).map fun x => x / a.get p col).get j = a.get p j / a.get p col := by
    intro j
    rw [← a.get_row p j]
    simp [Vector.get_eq_getElem]
  unfold reduceColumn
  simp only [isZero_iff, h, if_false]
  congr 1
  apply Grid.ext
  intro i j
  rw [get_rows, addMultiples, get_ofFn, reducing]
  split
  · rw [hpivot]
    ring
  · rw [get_cleared, hpivot, get_row]
    ring

theorem clearBelow_eq {a : Grid ℚ n n} {col : Fin n} (h : a.get col col ≠ 0) :
    a.clearBelow col = .ok (a.addMultiples col (a.lowering col)) := by
  unfold clearBelow
  simp only [isZero_iff, h, false_and, if_false]
  congr 1
  apply Grid.ext
  intro i j
  rw [get_rows, addMultiples, get_ofFn, lowering]
  rcases lt_trichotomy col i with hi | rfl | hi
  · rw [if_pos hi, if_neg hi.ne', if_neg hi.ne', if_pos hi, get_cleared, get_row, get_row]
    ring
  · rw [if_neg (lt_irrefl col), if_pos rfl, if_pos rfl, get_row, one_mul, zero_add]
  · rw [if_neg hi.not_gt, if_neg hi.ne, if_neg hi.ne, if_neg hi.not_gt, get_row, zero_mul, add_zero]

/-- The first grid becomes the second by an invertible operation on its rows. -/
def RowEquivalent (a b : Grid ℚ m n) : Prop :=
  ∃ M : Matrix (Fin m) (Fin m) ℚ, M.det ≠ 0 ∧ b.toMatrix = M * a.toMatrix

theorem RowEquivalent.refl (a : Grid ℚ m n) : RowEquivalent a a :=
  ⟨1, by simp, (Matrix.one_mul _).symm⟩

theorem RowEquivalent.trans {a b c : Grid ℚ m n} (h : RowEquivalent a b)
    (h' : RowEquivalent b c) : RowEquivalent a c := by
  obtain ⟨M, hM, hb⟩ := h
  obtain ⟨N, hN, hc⟩ := h'
  refine ⟨N * M, ?_, ?_⟩
  · rw [Matrix.det_mul]
    exact mul_ne_zero hN hM
  · rw [hc, hb, Matrix.mul_assoc]

theorem rowEquivalent_swapRows (a : Grid ℚ m n) (r s : Fin m) :
    RowEquivalent a (a.swapRows r s) := by
  refine ⟨_, ?_, toMatrix_swapRows a r s⟩
  rw [det_swap]
  split
  · exact one_ne_zero
  · exact neg_ne_zero.mpr one_ne_zero

theorem rowEquivalent_addMultiples (a : Grid ℚ m n) {p : Fin m} {u : Fin m → ℚ} (h : u p ≠ 0) :
    RowEquivalent a (a.addMultiples p u) := by
  refine ⟨_, ?_, toMatrix_addMultiples a p u⟩
  rwa [det_updateCol_one]

/-- Row `p` comes to `start`, has its entry in the column divided out and clears all others. -/
def pivotStep (a : Grid ℚ m n) (start p : Fin m) (col : Fin n) : Grid ℚ m n :=
  (a.swapRows start p).addMultiples start ((a.swapRows start p).reducing start col)

theorem get_swapRows_left (a : Grid ℚ m n) (r s : Fin m) (j : Fin n) :
    (a.swapRows r s).get r j = a.get s j := by
  rw [get_swapRows, if_pos rfl]

theorem get_swapRows_of_zero {a : Grid ℚ m n} {r s : Fin m} {j : Fin n} (hr : a.get r j = 0)
    (hs : a.get s j = 0) (i : Fin m) : (a.swapRows r s).get i j = a.get i j := by
  rw [get_swapRows]
  split
  · rename_i hi
    rw [hi, hr, hs]
  · split
    · rename_i hi
      rw [hi, hr, hs]
    · rfl

theorem reduceColumn_swapRows {a : Grid ℚ m n} {start p : Fin m} {col : Fin n}
    (h : a.get p col ≠ 0) :
    (a.swapRows start p).reduceColumn start col = .ok (a.pivotStep start p col) :=
  reduceColumn_eq (by rwa [get_swapRows_left])

theorem get_pivotStep (a : Grid ℚ m n) (start p i : Fin m) (col j : Fin n) :
    (a.pivotStep start p col).get i j =
      if i = start then a.get p j / a.get p col
      else (a.swapRows start p).get i j -
        (a.swapRows start p).get i col * (a.get p j / a.get p col) := by
  rw [pivotStep, addMultiples, get_ofFn, reducing, get_swapRows_left, get_swapRows_left]
  split
  · ring
  · ring

theorem get_pivotStep_column {a : Grid ℚ m n} {start p : Fin m} {col : Fin n}
    (h : a.get p col ≠ 0) (i : Fin m) :
    (a.pivotStep start p col).get i col = if i = start then 1 else 0 := by
  rw [get_pivotStep, div_self h, mul_one, sub_self]

theorem get_pivotStep_of_zero {a : Grid ℚ m n} {start p : Fin m} {j : Fin n}
    (hstart : a.get start j = 0) (hp : a.get p j = 0) (col : Fin n) (i : Fin m) :
    (a.pivotStep start p col).get i j = a.get i j := by
  rw [get_pivotStep, get_swapRows_of_zero hstart hp, hp, zero_div, mul_zero, sub_zero]
  split
  · rename_i hi
    rw [hi, hstart]
  · rfl

theorem rowEquivalent_pivotStep {a : Grid ℚ m n} {start p : Fin m} {col : Fin n}
    (h : a.get p col ≠ 0) : RowEquivalent a (a.pivotStep start p col) := by
  apply (rowEquivalent_swapRows a start p).trans
  apply rowEquivalent_addMultiples
  rw [reducing, if_pos rfl, get_swapRows_left]
  exact one_div_ne_zero h

theorem sum_products (row column : Vector ℚ k) :
    (products row column).sum = ∑ l, row.get l * column.get l := by
  have hproducts : Vector.zipWith (fun x y => x * y) row column =
      Vector.ofFn fun l => row.get l * column.get l := by
    apply Vector.ext
    intro l hl
    simp [Vector.get_eq_getElem]
  rw [products, hproducts, Vector.toList_ofFn, List.sum_ofFn]

theorem get_map_rows {α β : Type} (f : Vector α k → Vector β n) (a : Grid α m k) (i : Fin m)
    (j : Fin n) : get (a.map f) i j = (f (a.row i)).get j := by
  simp [get, row, Vector.get_eq_getElem]

/-- Over the rationals no sum leaves the range: grids are multiplied as matrices. -/
theorem exists_mul (a : Grid ℚ m k) (b : Grid ℚ k n) :
    ∃ c, a.mul b = some c ∧ c.toMatrix = a.toMatrix * b.toMatrix := by
  have hsums : (a.map fun row => b.transpose.map fun column =>
      Arithmetic.sum? (products row column)) =
        (ofFn fun i j => ∑ l, a.get i l * b.get l j).mapEntries some := by
    apply Grid.ext
    intro i j
    rw [get_map_rows, get_mapEntries, get_ofFn, Vector.get_eq_getElem, Vector.getElem_map]
    change some (products (a.row i) (b.transpose.row j)).sum = _
    simp only [sum_products, get_row, get_transpose]
  refine ⟨ofFn fun i j => ∑ l, a.get i l * b.get l j, ?_, ?_⟩
  · rw [mul, hsums, if_pos]
    · congr 1
      apply Grid.ext
      intro i j
      simp
    · simp [ofFn, mapEntries]
  · ext i j
    rw [toMatrix_apply, get_ofFn, Matrix.mul_apply]
    rfl

end Grid

end MatrixCalculator
