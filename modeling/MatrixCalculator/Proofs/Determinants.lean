import Mathlib
import MatrixCalculator.Proofs.Solving

namespace MatrixCalculator

namespace Grid

variable {n k : Nat}

/-- Row `p` comes to row `c` and clears what is below it in column `c`. -/
def lowerStep (a : Grid ℚ n n) (c p : Fin n) : Grid ℚ n n :=
  (a.swapRows c p).addMultiples c ((a.swapRows c p).lowering c)

theorem clearBelow_swapRows {a : Grid ℚ n n} {c p : Fin n} (h : a.get p c ≠ 0) :
    (a.swapRows c p).clearBelow c = .ok (a.lowerStep c p) :=
  clearBelow_eq (by rwa [get_swapRows_left])

theorem get_lowerStep (a : Grid ℚ n n) (c p i j : Fin n) :
    (a.lowerStep c p).get i j =
      if c < i then (a.swapRows c p).get i j - (a.swapRows c p).get i c / a.get p c * a.get p j
      else (a.swapRows c p).get i j := by
  rw [lowerStep, addMultiples, get_ofFn, lowering, get_swapRows_left, get_swapRows_left]
  rcases lt_trichotomy c i with hi | rfl | hi
  · rw [if_neg hi.ne', if_neg hi.ne', if_pos hi, if_pos hi]
    ring
  · rw [if_pos rfl, if_pos rfl, if_neg (lt_irrefl c), get_swapRows_left, one_mul, zero_add]
  · rw [if_neg hi.ne, if_neg hi.ne, if_neg hi.not_gt, if_neg hi.not_gt, zero_mul, add_zero]

theorem det_lowerStep (a : Grid ℚ n n) (c p : Fin n) :
    (a.lowerStep c p).toMatrix.det = (if p = c then 1 else -1) * a.toMatrix.det := by
  rw [lowerStep, toMatrix_addMultiples, toMatrix_swapRows, Matrix.det_mul, Matrix.det_mul,
    det_updateCol_one, det_swap, lowering, if_pos rfl, one_mul]

theorem determinantFrom_negligible {tolerance : ℚ} {a : Grid ℚ n n} {c : Fin n}
    (h : negligible tolerance (a.get (a.pivotRow c c) c) = true) (cols : List (Fin n)) (det : ℚ) :
    determinantFrom tolerance (c :: cols) det a = .ok 0 :=
  if_pos h

theorem determinantFrom_pivot {tolerance : ℚ} {a : Grid ℚ n n} {c : Fin n}
    (htolerance : 0 < tolerance) (h : ¬negligible tolerance (a.get (a.pivotRow c c) c) = true)
    (cols : List (Fin n)) (det : ℚ) :
    determinantFrom tolerance (c :: cols) det a =
      determinantFrom tolerance cols
        ((if a.pivotRow c c = c then det else -det) * a.get (a.pivotRow c c) c)
        (a.lowerStep c (a.pivotRow c c)) := by
  rw [determinantFrom]
  simp only [if_neg h, clearBelow_swapRows (ne_zero_of_not_negligible htolerance h),
    get_swapRows_left]
  rfl

/-- The first `c` columns are zero below the diagonal. -/
def UpperBefore (c : Nat) (a : Grid ℚ n n) : Prop := ∀ i j : Fin n, j < c → j < i → a.get i j = 0

theorem UpperBefore.lowerStep {c p : Fin n} {a : Grid ℚ n n} (h : UpperBefore c a) (hp : c ≤ p)
    (hpivot : a.get p c ≠ 0) : UpperBefore (c + 1) (a.lowerStep c p) := by
  intro i j hj hji
  rw [get_lowerStep]
  rcases Nat.lt_succ_iff_lt_or_eq.mp hj with hlt | heq
  · have hzero : ∀ r : Fin n, c ≤ r → a.get r j = 0 := fun r hr =>
      h r j hlt (Fin.lt_of_lt_of_le hlt hr)
    rw [get_swapRows_of_zero (hzero c (le_refl c)) (hzero p hp), hzero p hp, h i j hlt hji,
      mul_zero, sub_zero, ite_self]
  · obtain rfl : j = c := Fin.ext heq
    rw [if_pos hji, div_mul_cancel₀ _ hpivot, sub_self]

def leading (c : Nat) (a : Grid ℚ n n) : ℚ := ∏ j : Fin n, if j < c then a.get j j else 1

theorem leading_lowerStep {c p : Fin n} (a : Grid ℚ n n) (hp : c ≤ p) :
    (a.lowerStep c p).leading (c + 1) = a.leading c * a.get p c := by
  have hfactor : ∀ j : Fin n, (if j.val < c + 1 then (a.lowerStep c p).get j j else 1) =
      (if j.val < c then a.get j j else 1) * if j = c then a.get p c else 1 := by
    intro j
    rw [get_lowerStep]
    rcases lt_trichotomy j c with hj | rfl | hj
    · rw [if_pos (Nat.lt_succ_of_lt hj), if_neg hj.not_gt, get_swapRows, if_neg hj.ne,
        if_neg (hj.trans_le hp).ne, if_pos (Fin.lt_def.mp hj), if_neg hj.ne, mul_one]
    · rw [if_pos (Nat.lt_succ_self _), if_neg (lt_irrefl j), get_swapRows_left,
        if_neg (lt_irrefl j.val), if_pos rfl, one_mul]
    · rw [if_neg (Nat.not_lt_of_le hj), if_neg (Fin.lt_def.mp hj).not_gt, if_neg hj.ne', mul_one]
  rw [leading, Finset.prod_congr rfl fun j _ => hfactor j, Finset.prod_mul_distrib,
    Finset.prod_ite_eq']
  simp [leading]

theorem UpperBefore.det_eq {a : Grid ℚ n n} (h : UpperBefore n a) :
    a.toMatrix.det = a.leading n := by
  have hupper : a.toMatrix.IsUpperTriangular := fun i j hij => h i j j.isLt hij
  rw [Matrix.det_of_isUpperTriangular hupper, leading]
  exact Finset.prod_congr rfl fun j _ => (if_pos j.isLt).symm

/-- While columns remain, the result stands to the product so far as the determinant to the leading
product. -/
theorem determinant_eq_det {tolerance : ℚ} (htolerance : 0 < tolerance) {a : Grid ℚ n n} {d : ℚ}
    (h : a.determinant tolerance = .ok d) (hd : d ≠ 0) : d = a.toMatrix.det := by
  have hrun := columns_induction (motive := fun c cols => ∀ (det : ℚ) (a : Grid ℚ n n),
    UpperBefore c a → determinantFrom tolerance cols det a = .ok d →
      d * a.leading c = det * a.toMatrix.det)
    ?_ ?_ 1 a (fun i j hj => absurd hj (Nat.not_lt_zero j)) h
  · simpa [leading] using hrun
  · intro det a ha hrun
    rw [determinantFrom] at hrun
    rw [ha.det_eq, Except.ok.inj hrun]
  · intro c cols ih det a ha hrun
    by_cases hpivot : negligible tolerance (a.get (a.pivotRow c c) c) = true
    · rw [determinantFrom_negligible hpivot] at hrun
      exact absurd (Except.ok.inj hrun).symm hd
    · have hne := ne_zero_of_not_negligible htolerance hpivot
      rw [determinantFrom_pivot htolerance hpivot] at hrun
      have hnext := ih _ _ (ha.lowerStep (a.le_pivotRow c c) hne) hrun
      rw [leading_lowerStep a (a.le_pivotRow c c), det_lowerStep] at hnext
      -- An exchange changes the sign of the product and of the determinant.
      apply mul_right_cancel₀ hne
      rw [mul_assoc, hnext]
      split
      · ring
      · ring

/-- Below row `c` it makes no difference whether the pivot is divided out of its row. -/
theorem get_lowerStep_eq {l : Grid ℚ n n} {g : Grid ℚ n (n + k)} {c p : Fin n}
    (hsame : ∀ i j : Fin n, c ≤ i → l.get i j = g.get i (j.castAdd k)) (hp : c ≤ p) {i : Fin n}
    (hi : c < i) (j : Fin n) :
    (l.lowerStep c p).get i j = (g.pivotStep c p (c.castAdd k)).get i (j.castAdd k) := by
  have hswap : ∀ j, (l.swapRows c p).get i j = (g.swapRows c p).get i (j.castAdd k) := by
    intro j
    rw [get_swapRows, get_swapRows, hsame p j hp, hsame c j (le_refl c), hsame i j hi.le]
  rw [get_lowerStep, if_pos hi, get_pivotStep, if_neg hi.ne', hswap j, hswap c, hsame p j hp,
    hsame p c hp]
  ring

theorem exists_determinant {tolerance : ℚ} (htolerance : 0 < tolerance) (verb : String)
    (a : Grid ℚ n n) (b : Grid ℚ n k) :
    ∃ d, a.determinant tolerance = .ok d ∧
      (d = 0 ↔ eliminate tolerance verb (a.beside b) = fail (.singular verb)) := by
  refine columns_induction (motive := fun c cols => ∀ (det : ℚ) (l : Grid ℚ n n)
    (g : Grid ℚ n (n + k)), det ≠ 0 → (∀ i j : Fin n, c ≤ i → l.get i j = g.get i (j.castAdd k)) →
      ∃ d, determinantFrom tolerance cols det l = .ok d ∧
        (d = 0 ↔ cols.foldlM (solveStep tolerance verb) g = fail (.singular verb)))
    ?_ ?_ 1 a (a.beside b) one_ne_zero (by simp)
  · intro det l g hdet _
    exact ⟨det, rfl, fun h => absurd h hdet, fun h => absurd h (ok_ne_fail g _)⟩
  · intro c cols ih det l g hdet hsame
    have hrow : l.pivotRow c c = g.pivotRow c (c.castAdd k) :=
      pivotRow_congr fun r hr => hsame r c hr
    have hentry : l.get (l.pivotRow c c) c = g.get (g.pivotRow c (c.castAdd k)) (c.castAdd k) := by
      rw [hrow]
      exact hsame _ c (g.le_pivotRow c _)
    rw [List.foldlM_cons]
    by_cases hpivot : negligible tolerance (l.get (l.pivotRow c c) c) = true
    · rw [determinantFrom_negligible hpivot, solveStep_singular (hentry ▸ hpivot)]
      exact ⟨0, rfl, fun _ => rfl, fun _ => rfl⟩
    · rw [determinantFrom_pivot htolerance hpivot, solveStep_pivot htolerance (hentry ▸ hpivot)]
      apply ih
      · apply mul_ne_zero _ (ne_zero_of_not_negligible htolerance hpivot)
        split
        · exact hdet
        · exact neg_ne_zero.mpr hdet
      · intro i j hi
        rw [← hrow]
        exact get_lowerStep_eq hsame (l.le_pivotRow c c) hi j

theorem determinant_cases {tolerance : ℚ} (htolerance : 0 < tolerance) (a : Grid ℚ n n) :
    (a.determinant tolerance = .ok 0 ∧ a.inverse tolerance = fail (.singular "invert")) ∨
      (a.determinant tolerance = .ok a.toMatrix.det ∧ a.toMatrix.det ≠ 0 ∧
        ∃ v, a.inverse tolerance = .ok v) := by
  obtain ⟨d, hd, hiff⟩ := exists_determinant htolerance "invert" a (identity n)
  rw [inverse, solve_eq_map]
  rcases eliminate_cases htolerance "invert" (a.beside (identity n)) with hfail | ⟨r, hr, -⟩
  · rw [hd, hiff.mpr hfail, hfail]
    exact .inl ⟨rfl, rfl⟩
  · have hne : d ≠ 0 := by
      intro hzero
      rw [hiff.mp hzero] at hr
      exact ok_ne_fail r _ hr.symm
    rw [hr, ← determinant_eq_det htolerance hd hne]
    exact .inr ⟨hd, hne, r.right, rfl⟩

theorem determinant_dense {α : Type} [Arithmetic α] (hn : 0 < n) (a : Grid α n n) (tolerance : α) :
    (a.dense hn hn).determinant tolerance = a.determinant tolerance := by
  rw [DenseMatrix.determinant, square_dense]
  rfl

/-- With a tolerance that is small enough no pivot is missed. -/
theorem exists_determinant_eq_det (a : Grid ℚ n n) :
    ∃ bound > 0, ∀ tolerance, 0 < tolerance → tolerance ≤ bound →
      a.determinant tolerance = .ok a.toMatrix.det := by
  by_cases hdet : a.toMatrix.det = 0
  · refine ⟨1, one_pos, fun tolerance htolerance _ => ?_⟩
    rcases determinant_cases htolerance a with ⟨hzero, -⟩ | ⟨-, hne, -⟩
    · rw [hzero, hdet]
    · exact absurd hdet hne
  · obtain ⟨bound, hbound, hsolve⟩ := exists_solve hdet (identity n) "invert"
    refine ⟨bound, hbound, fun tolerance htolerance hle => ?_⟩
    obtain ⟨v, hv⟩ := hsolve tolerance htolerance hle
    rcases determinant_cases htolerance a with ⟨-, hfail⟩ | ⟨hvalue, -⟩
    · rw [inverse, hv] at hfail
      exact absurd hfail (ok_ne_fail v _)
    · exact hvalue

end Grid

namespace DenseMatrix

variable {n : Nat}

/-- In exact arithmetic the determinant comes out as zero exactly if the inverse does not exist at
the tolerance, and as the determinant of the matrix otherwise. It is the determinant of the matrix
in any case as soon as the tolerance is small enough. -/
theorem determinant_inverse_exact (hn : 0 < n) (a : Grid ℚ n n) {tolerance : ℚ}
    (htolerance : 0 < tolerance) :
    (∃ d, (a.dense hn hn).determinant tolerance = .ok d ∧
      (d = 0 ↔ (a.dense hn hn).inverse tolerance = fail (.singular "invert")) ∧
      (d ≠ 0 → d = a.toMatrix.det ∧ ∃ v, (a.dense hn hn).inverse tolerance = .ok v)) ∧
    ∃ bound > 0, ∀ t, 0 < t → t ≤ bound →
      (a.dense hn hn).determinant t = .ok a.toMatrix.det := by
  simp only [Grid.determinant_dense, Grid.inverse_dense]
  refine ⟨?_, Grid.exists_determinant_eq_det a⟩
  rcases Grid.determinant_cases htolerance a with ⟨hzero, hfail⟩ | ⟨hvalue, hne, v, hv⟩
  · rw [hfail]
    exact ⟨0, hzero, ⟨fun _ => rfl, fun _ => rfl⟩, fun h => absurd rfl h⟩
  · rw [hv]
    exact ⟨_, hvalue, ⟨fun h => absurd h hne, fun h => absurd h (ok_ne_fail _ _)⟩,
      fun _ => ⟨rfl, _, rfl⟩⟩

theorem determinant_inverse_exact_exchange :
    (Grid.dense (by decide) (by decide) #v[#v[(0 : ℚ), 2], #v[3, 1]]).determinant (1 / 10) =
      .ok (-6) ∧
    (Grid.dense (by decide) (by decide) #v[#v[(1 : ℚ), 2], #v[1, 2 + 1 / 20]]).inverse (1 / 10) =
      fail (.singular "invert") := by
  have hpos : (0 : ℚ) < 1 / 10 := by norm_num
  constructor
  · obtain ⟨d, hd, hiff, hvalue⟩ := (determinant_inverse_exact (by decide)
      #v[#v[(0 : ℚ), 2], #v[3, 1]] hpos).1
    have hok : ((Grid.dense (by decide) (by decide) #v[#v[(0 : ℚ), 2], #v[3, 1]]).inverse
        (1 / 10)).toBool = true := by
      decide +kernel
    have hne : d ≠ 0 := by
      intro hzero
      rw [hiff.mp hzero] at hok
      exact Bool.false_ne_true hok
    have hdet : (Grid.toMatrix #v[#v[(0 : ℚ), 2], #v[3, 1]]).det = -6 := by
      norm_num [Matrix.det_fin_two, Grid.get]
    rw [hd, (hvalue hne).1, hdet]
  · obtain ⟨d, hd, hiff, -⟩ := (determinant_inverse_exact (by decide)
      #v[#v[(1 : ℚ), 2], #v[1, 2 + 1 / 20]] hpos).1
    have hzero : ((Grid.dense (by decide) (by decide)
        #v[#v[(1 : ℚ), 2], #v[1, 2 + 1 / 20]]).determinant (1 / 10)).toOption = some 0 := by
      decide +kernel
    rw [hd] at hzero
    exact hiff.mp (Option.some.inj hzero)

end DenseMatrix

end MatrixCalculator
