import Mathlib
import MatrixCalculator.Proofs.Exact
import MatrixCalculator.Proofs.Layout

namespace MatrixCalculator

theorem ok_ne_fail {α : Type} (x : α) (cause : Cause) :
    Except.ok x ≠ (fail cause : Except Failure α) := by
  simp [fail]

namespace Grid

variable {m n k : Nat}

def left {α : Type} (a : Grid α m (n + k)) : Grid α m n := ofFn fun i j => a.get i (j.castAdd k)

@[simp] theorem get_left {α : Type} (a : Grid α m (n + k)) (i : Fin m) (j : Fin n) :
    a.left.get i j = a.get i (j.castAdd k) := by
  simp [left]

theorem left_beside {α : Type} (a : Grid α m n) (b : Grid α m k) : (a.beside b).left = a :=
  Grid.ext fun i j => by simp

theorem right_beside {α : Type} (a : Grid α m n) (b : Grid α m k) : (a.beside b).right = b :=
  Grid.ext fun i j => by simp

/-- An operation on the rows is the same operation on both blocks. -/
theorem toMatrix_blocks {a b : Grid ℚ m (n + k)} {M : Matrix (Fin m) (Fin m) ℚ}
    (h : b.toMatrix = M * a.toMatrix) :
    b.left.toMatrix = M * a.left.toMatrix ∧ b.right.toMatrix = M * a.right.toMatrix := by
  constructor
  · ext i j
    simpa [Matrix.mul_apply] using congrFun (congrFun h i) (j.castAdd k)
  · ext i j
    simpa [Matrix.mul_apply] using congrFun (congrFun h i) (j.natAdd n)

theorem toMatrix_identity (n : Nat) : (identity n : Grid ℚ n n).toMatrix = 1 := by
  ext i j
  simp [identity, Matrix.one_apply]

/-- The first `c` columns are those of the identity. -/
def UnitBefore (c : Nat) (a : Grid ℚ n (n + k)) : Prop :=
  ∀ i j : Fin n, j < c → a.get i (j.castAdd k) = if i = j then 1 else 0

theorem unitBefore_zero (a : Grid ℚ n (n + k)) : UnitBefore 0 a :=
  fun _ j hj => absurd hj (Nat.not_lt_zero j)

theorem UnitBefore.toMatrix_left {a : Grid ℚ n (n + k)} (h : UnitBefore n a) :
    a.left.toMatrix = 1 := by
  ext i j
  rw [toMatrix_apply, get_left, h i j j.isLt, Matrix.one_apply]

theorem UnitBefore.pivotStep {c p : Fin n} {a : Grid ℚ n (n + k)} (h : UnitBefore c a)
    (hp : c ≤ p) (hpivot : a.get p (c.castAdd k) ≠ 0) :
    UnitBefore (c + 1) (a.pivotStep c p (c.castAdd k)) := by
  intro i j hj
  rcases Nat.lt_succ_iff_lt_or_eq.mp hj with hlt | heq
  · have hzero : ∀ r : Fin n, c ≤ r → a.get r (j.castAdd k) = 0 := by
      intro r hr
      have hjr : j < r := Fin.lt_of_lt_of_le hlt hr
      rw [h r j hlt, if_neg hjr.ne']
    rw [get_pivotStep_of_zero (hzero c (le_refl c)) (hzero p hp), h i j hlt]
  · rw [Fin.ext heq, get_pivotStep_column hpivot]

theorem solveStep_singular {tolerance : ℚ} {verb : String} {a : Grid ℚ n (n + k)} {c : Fin n}
    (h : negligible tolerance (a.get (a.pivotRow c (c.castAdd k)) (c.castAdd k)) = true) :
    solveStep tolerance verb a c = fail (.singular verb) :=
  if_pos h

theorem solveStep_pivot {tolerance : ℚ} {verb : String} {a : Grid ℚ n (n + k)} {c : Fin n}
    (htolerance : 0 < tolerance)
    (h : ¬negligible tolerance (a.get (a.pivotRow c (c.castAdd k)) (c.castAdd k)) = true) :
    solveStep tolerance verb a c =
      .ok (a.pivotStep c (a.pivotRow c (c.castAdd k)) (c.castAdd k)) :=
  (if_neg h).trans (reduceColumn_swapRows (ne_zero_of_not_negligible htolerance h))

theorem eliminate_cases {tolerance : ℚ} (htolerance : 0 < tolerance) (verb : String)
    (a : Grid ℚ n (n + k)) :
    eliminate tolerance verb a = fail (.singular verb) ∨
      ∃ r, eliminate tolerance verb a = .ok r ∧ RowEquivalent a r ∧ UnitBefore n r := by
  refine columns_induction (motive := fun c cols => ∀ b : Grid ℚ n (n + k), UnitBefore c b →
    cols.foldlM (solveStep tolerance verb) b = fail (.singular verb) ∨
      ∃ r, cols.foldlM (solveStep tolerance verb) b = .ok r ∧ RowEquivalent b r ∧ UnitBefore n r)
    ?_ ?_ a (unitBefore_zero a)
  · exact fun b hb => .inr ⟨b, rfl, .refl b, hb⟩
  · intro c cols ih b hb
    rw [List.foldlM_cons]
    by_cases hpivot : negligible tolerance (b.get (b.pivotRow c (c.castAdd k)) (c.castAdd k)) = true
    · rw [solveStep_singular hpivot]
      exact .inl rfl
    · have hne := ne_zero_of_not_negligible htolerance hpivot
      rw [solveStep_pivot htolerance hpivot]
      refine (ih _ (hb.pivotStep (le_pivotRow b c _) hne)).imp_right ?_
      rintro ⟨r, hr, hequivalent, hunit⟩
      exact ⟨r, hr, (rowEquivalent_pivotStep hne).trans hequivalent, hunit⟩

theorem solve_eq_map (a : Grid ℚ n n) (b : Grid ℚ n k) (tolerance : ℚ) (verb : String) :
    a.solve b tolerance verb = (eliminate tolerance verb (a.beside b)).map right := rfl

theorem solve_cases {tolerance : ℚ} (htolerance : 0 < tolerance) (a : Grid ℚ n n) (b : Grid ℚ n k)
    (verb : String) :
    a.solve b tolerance verb = fail (.singular verb) ∨
      ∃ (x : Grid ℚ n k) (M : Matrix (Fin n) (Fin n) ℚ), a.solve b tolerance verb = .ok x ∧
        M * a.toMatrix = 1 ∧ x.toMatrix = M * b.toMatrix := by
  rw [solve_eq_map]
  rcases eliminate_cases htolerance verb (a.beside b) with hfail | ⟨r, hr, ⟨M, -, hM⟩, hunit⟩
  · rw [hfail]
    exact .inl rfl
  · obtain ⟨hleft, hright⟩ := toMatrix_blocks hM
    rw [left_beside, hunit.toMatrix_left] at hleft
    rw [right_beside] at hright
    rw [hr]
    exact .inr ⟨r.right, M, rfl, hleft.symm, hright⟩

/-- If all entries from row `c` on vanish in column `c`, the column depends on the ones before. -/
theorem UnitBefore.pivot_ne_zero {c : Fin n} {a : Grid ℚ n (n + k)} (h : UnitBefore c a)
    (hdet : a.left.toMatrix.det ≠ 0) :
    a.get (a.pivotRow c (c.castAdd k)) (c.castAdd k) ≠ 0 := by
  intro hpivot
  have hbelow : ∀ i, c ≤ i → a.get i (c.castAdd k) = 0 := by
    intro i hi
    have hle := a.abs_le_pivotRow hi (c.castAdd k)
    rw [hpivot, abs_zero] at hle
    exact abs_nonpos_iff.mp hle
  -- Column `c` less what the unit columns before it contribute is a combination that vanishes.
  apply hdet
  rw [← Matrix.exists_mulVec_eq_zero_iff]
  refine ⟨fun j => if j = c then 1 else -a.get j (c.castAdd k), ?_, ?_⟩
  · intro hzero
    simpa using congrFun hzero c
  · ext i
    have hterm : ∀ j, a.left.toMatrix i j * (if j = c then 1 else -a.get j (c.castAdd k)) =
        (if j = c then a.get i (c.castAdd k) else 0) +
          if j = i then -a.get i (c.castAdd k) else 0 := by
      intro j
      rw [toMatrix_apply, get_left]
      rcases lt_trichotomy j c with hj | rfl | hj
      · rw [h i j hj, if_neg hj.ne, if_neg hj.ne, zero_add, ite_mul, one_mul, zero_mul]
        by_cases hij : j = i
        · rw [hij]
        · rw [if_neg hij, if_neg (Ne.symm hij)]
      · rw [if_pos rfl, if_pos rfl, mul_one]
        by_cases hij : j = i
        · rw [if_pos hij, hbelow i hij.le, neg_zero, add_zero]
        · rw [if_neg hij, add_zero]
      · rw [if_neg hj.ne', if_neg hj.ne', hbelow j hj.le, neg_zero, mul_zero, zero_add]
        by_cases hij : j = i
        · rw [if_pos hij, ← hij, hbelow j hj.le, neg_zero]
        · rw [if_neg hij]
    rw [Matrix.mulVec, dotProduct, Finset.sum_congr rfl fun j _ => hterm j, Finset.sum_add_distrib]
    simp

theorem exists_eliminate {a : Grid ℚ n (n + k)} (hdet : a.left.toMatrix.det ≠ 0) (verb : String) :
    ∃ bound > 0, ∀ tolerance, 0 < tolerance → tolerance ≤ bound →
      ∃ r, eliminate tolerance verb a = .ok r := by
  refine columns_induction (motive := fun c cols => ∀ b : Grid ℚ n (n + k), UnitBefore c b →
    b.left.toMatrix.det ≠ 0 → ∃ bound > 0, ∀ tolerance, 0 < tolerance → tolerance ≤ bound →
      ∃ r, cols.foldlM (solveStep tolerance verb) b = .ok r)
    ?_ ?_ a (unitBefore_zero a) hdet
  · exact fun b _ _ => ⟨1, one_pos, fun tolerance _ _ => ⟨b, rfl⟩⟩
  · intro c cols ih b hb hdet
    have hpivot := hb.pivot_ne_zero hdet
    have hdet' :
        (b.pivotStep c (b.pivotRow c (c.castAdd k)) (c.castAdd k)).left.toMatrix.det ≠ 0 := by
      obtain ⟨M, hM, heq⟩ : RowEquivalent b (b.pivotStep c _ _) := rowEquivalent_pivotStep hpivot
      rw [(toMatrix_blocks heq).1, Matrix.det_mul]
      exact mul_ne_zero hM hdet
    obtain ⟨bound, hbound, hrest⟩ := ih _ (hb.pivotStep (le_pivotRow b c _) hpivot) hdet'
    refine ⟨min bound |b.get (b.pivotRow c (c.castAdd k)) (c.castAdd k)|,
      lt_min hbound (abs_pos.mpr hpivot), fun tolerance htolerance hle => ?_⟩
    obtain ⟨hle, hcounts⟩ := le_min_iff.mp hle
    rw [List.foldlM_cons, solveStep_pivot htolerance (negligible_iff.not.mpr hcounts.not_gt)]
    exact hrest tolerance htolerance hle

theorem exists_solve {a : Grid ℚ n n} (hdet : a.toMatrix.det ≠ 0) (b : Grid ℚ n k) (verb : String) :
    ∃ bound > 0, ∀ tolerance, 0 < tolerance → tolerance ≤ bound →
      ∃ x, a.solve b tolerance verb = .ok x := by
  obtain ⟨bound, hbound, hrun⟩ :=
    exists_eliminate (a := a.beside b) (by rwa [left_beside]) verb
  refine ⟨bound, hbound, fun tolerance htolerance hle => ?_⟩
  obtain ⟨r, hr⟩ := hrun tolerance htolerance hle
  exact ⟨r.right, by rw [solve_eq_map, hr]; rfl⟩

theorem solve_singular {tolerance : ℚ} (htolerance : 0 < tolerance) {a : Grid ℚ n n}
    (hdet : a.toMatrix.det = 0) (b : Grid ℚ n k) (verb : String) :
    a.solve b tolerance verb = fail (.singular verb) := by
  rcases solve_cases htolerance a b verb with hfail | ⟨x, M, -, hM, -⟩
  · exact hfail
  · have hone := congrArg Matrix.det hM
    rw [Matrix.det_mul, hdet, mul_zero, Matrix.det_one] at hone
    exact absurd hone zero_ne_one

theorem square_dense {α : Type} (hn : 0 < n) (a : Grid α n n) (verb : String) :
    (a.dense hn hn).square verb = .ok a := by
  rw [DenseMatrix.square, dif_pos rfl, DenseMatrix.grid_dense]
  exact congrArg Except.ok (Grid.ext fun i j => by simp [get])

theorem solve_dense {α : Type} [Arithmetic α] (hn : 0 < n) (hk : 0 < k) (a : Grid α n n)
    (b : Grid α n k) (tolerance : α) :
    (a.dense hn hn).solve (b.dense hn hk) tolerance =
      (a.solve b tolerance "solve with").map (dense hn hk) := by
  rw [DenseMatrix.solve, square_dense]
  simp only [bind, Except.bind, dif_pos, DenseMatrix.grid_dense]
  rfl

theorem dense_mul_dense {α : Type} [Arithmetic α] (hm : 0 < m) (hk : 0 < k) (hn : 0 < n)
    (a : Grid α m k) (b : Grid α k n) : (a.dense hm hk).mul (b.dense hk hn) =
      (a.mul b).elim (fail (DenseMatrix.tooLarge "*")) fun c => .ok (c.dense hm hn) := by
  rw [DenseMatrix.mul, dif_pos rfl, DenseMatrix.grid_dense, DenseMatrix.grid_dense]
  cases h : a.mul b with
  | none => rw [show a.mul (Vector.cast rfl b) = none from h, Option.elim_none]
  | some c => rw [show a.mul (Vector.cast rfl b) = some c from h, Option.elim_some]

theorem inverse_dense {α : Type} [Arithmetic α] (hn : 0 < n) (a : Grid α n n) (tolerance : α) :
    (a.dense hn hn).inverse tolerance = (a.inverse tolerance).map (dense hn hn) := by
  rw [DenseMatrix.inverse, square_dense]
  rfl

end Grid

namespace DenseMatrix

variable {n k : Nat}

/-- In exact arithmetic a solution solves the system and is the only one, and an inverse is an
inverse from both sides. A singular matrix has neither, and every other has both as soon as the
tolerance is small enough. -/
theorem solve_inverse_exact (hn : 0 < n) (hk : 0 < k) (a : Grid ℚ n n) (b : Grid ℚ n k)
    {tolerance : ℚ} (htolerance : 0 < tolerance) :
    ((∃ x : Grid ℚ n k, (a.dense hn hn).solve (b.dense hn hk) tolerance = .ok (x.dense hn hk) ∧
        a.toMatrix * x.toMatrix = b.toMatrix ∧
        ∀ Y, a.toMatrix * Y = b.toMatrix → Y = x.toMatrix) ∨
      (a.dense hn hn).solve (b.dense hn hk) tolerance = fail (.singular "solve with")) ∧
    ((∃ v : Grid ℚ n n, (a.dense hn hn).inverse tolerance = .ok (v.dense hn hn) ∧
        a.toMatrix * v.toMatrix = 1 ∧ v.toMatrix * a.toMatrix = 1) ∨
      (a.dense hn hn).inverse tolerance = fail (.singular "invert")) ∧
    (a.toMatrix.det = 0 →
      (a.dense hn hn).solve (b.dense hn hk) tolerance = fail (.singular "solve with") ∧
      (a.dense hn hn).inverse tolerance = fail (.singular "invert")) ∧
    (a.toMatrix.det ≠ 0 → ∃ bound > 0, ∀ t, 0 < t → t ≤ bound →
      (∃ x, (a.dense hn hn).solve (b.dense hn hk) t = .ok x) ∧
      ∃ v, (a.dense hn hn).inverse t = .ok v) := by
  simp only [Grid.solve_dense, Grid.inverse_dense, Grid.inverse]
  refine ⟨?_, ?_, ?_, ?_⟩
  · rcases Grid.solve_cases htolerance a b "solve with" with hfail | ⟨x, M, hx, hM, hX⟩
    · rw [hfail]
      exact .inr rfl
    · refine .inl ⟨x, by rw [hx]; rfl, ?_, ?_⟩
      · rw [hX, ← Matrix.mul_assoc, mul_eq_one_comm.mp hM, Matrix.one_mul]
      · intro Y hY
        rw [hX, ← hY, ← Matrix.mul_assoc, hM, Matrix.one_mul]
  · rcases Grid.solve_cases htolerance a (Grid.identity n) "invert" with hfail | ⟨v, M, hv, hM, hV⟩
    · rw [hfail]
      exact .inr rfl
    · rw [Grid.toMatrix_identity, Matrix.mul_one] at hV
      refine .inl ⟨v, by rw [hv]; rfl, ?_, ?_⟩
      · rw [hV, mul_eq_one_comm.mp hM]
      · rw [hV, hM]
  · intro hdet
    rw [Grid.solve_singular htolerance hdet, Grid.solve_singular htolerance hdet]
    exact ⟨rfl, rfl⟩
  · intro hdet
    obtain ⟨bound, hbound, hsolve⟩ := Grid.exists_solve hdet b "solve with"
    obtain ⟨bound', hbound', hinverse⟩ := Grid.exists_solve hdet (Grid.identity n) "invert"
    refine ⟨min bound bound', lt_min hbound hbound', fun t ht hle => ?_⟩
    obtain ⟨x, hx⟩ := hsolve t ht (hle.trans (min_le_left _ _))
    obtain ⟨v, hv⟩ := hinverse t ht (hle.trans (min_le_right _ _))
    rw [hx, hv]
    exact ⟨⟨_, rfl⟩, _, rfl⟩

theorem solve_inverse_exact_exchange :
    (Grid.dense (by decide) (by decide) #v[#v[(0 : ℚ), 2], #v[3, 1]]).solve
        (Grid.dense (by decide) (by decide) #v[#v[4], #v[5]]) (1 / 10) =
      .ok (Grid.dense (by decide) (by decide) #v[#v[1], #v[2]]) ∧
    (Grid.dense (by decide) (by decide) #v[#v[(1 : ℚ), 2], #v[2, 4]]).inverse (1 / 10) =
      fail (.singular "invert") := by
  have hpos : (0 : ℚ) < 1 / 10 := by norm_num
  constructor
  · rcases (solve_inverse_exact (by decide) (by decide) #v[#v[(0 : ℚ), 2], #v[3, 1]]
      #v[#v[(4 : ℚ)], #v[5]] hpos).1 with ⟨x, hx, -, hunique⟩ | hfail
    · have hproduct : Grid.toMatrix #v[#v[(0 : ℚ), 2], #v[3, 1]] *
          Grid.toMatrix #v[#v[(1 : ℚ)], #v[2]] = Grid.toMatrix #v[#v[4], #v[5]] := by
        ext i j
        fin_cases i <;> fin_cases j <;> norm_num [Matrix.mul_apply, Grid.get]
      have hxs : x = #v[#v[1], #v[2]] :=
        Grid.ext fun i j => (congrFun (congrFun (hunique _ hproduct) i) j).symm
      rw [hx, hxs]
    · have hok : ((Grid.dense (by decide) (by decide) #v[#v[(0 : ℚ), 2], #v[3, 1]]).solve
          (Grid.dense (by decide) (by decide) #v[#v[4], #v[5]]) (1 / 10)).toBool = true := by
        decide +kernel
      rw [hfail] at hok
      exact absurd hok Bool.false_ne_true
  · have hdet : (Grid.toMatrix #v[#v[(1 : ℚ), 2], #v[2, 4]]).det = 0 := by
      norm_num [Matrix.det_fin_two, Grid.get]
    exact ((solve_inverse_exact (by decide) (by decide) _ #v[#v[(0 : ℚ)], #v[0]] hpos).2.2.1 hdet).2

end DenseMatrix

end MatrixCalculator
