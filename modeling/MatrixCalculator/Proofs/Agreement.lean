import Mathlib
import MatrixCalculator.Proofs.Reductions
import MatrixCalculator.Proofs.Solving

namespace MatrixCalculator

namespace Grid

variable {α : Type} [Arithmetic α] {n k : Nat} {tolerance : α}

/-- The reduction of the bare rows and the elimination on the augmented ones stand at column `c`. -/
structure InStep (c : Nat) (s : Reduction α n n) (g : Grid α n (n + k)) : Prop where
  length_pivots : s.pivots.length = c
  grid_eq : s.grid = g.columns (Fin.castAdd k)

theorem InStep.candidate_eq {c : Fin n} {s : Reduction α n n} {g : Grid α n (n + k)}
    (h : InStep c s g) (hlt : s.pivots.length < n) :
    s.grid.candidate ⟨s.pivots.length, hlt⟩ c = g.candidate c (c.castAdd k) := by
  have hstart : (⟨s.pivots.length, hlt⟩ : Fin n) = c := Fin.ext h.length_pivots
  rw [hstart, h.grid_eq, candidate_columns]

/-- As long as no pivot is negligible, both clear the same column with the same pivot. -/
theorem InStep.pivoted {c : Fin n} {s : Reduction α n n} {g : Grid α n (n + k)}
    (h : InStep c s g) (hlt : s.pivots.length < n) :
    InStep (c + 1)
      ⟨s.grid.pivoted ⟨s.pivots.length, hlt⟩ (s.grid.pivotRow ⟨s.pivots.length, hlt⟩ c) c,
        s.pivots ++ [(⟨s.pivots.length, hlt⟩, c)]⟩
      (g.pivoted c (g.pivotRow c (c.castAdd k)) (c.castAdd k)) := by
  have hstart : (⟨s.pivots.length, hlt⟩ : Fin n) = c := Fin.ext h.length_pivots
  constructor
  · rw [List.length_append, List.length_singleton, h.length_pivots]
  · rw [hstart, h.grid_eq, pivotRow_columns, columns_pivoted]

theorem rowReduce_eliminate (hzero : ¬ZeroCounts tolerance) (verb : String) (a : Grid α n n)
    (b : Grid α n k) :
    ∃ s, a.rowReduce tolerance = .ok s ∧
      ((s.pivots.length = n ∧ ∃ r, eliminate tolerance verb (a.beside b) = .ok r) ∨
        (s.pivots.length < n ∧
          eliminate tolerance verb (a.beside b) = fail (.singular verb))) := by
  have hrun := columns_induction (motive := fun c cols => c + cols.length = n ∧
    ∀ (s : Reduction α n n) (g : Grid α n (n + k)), InStep c s g →
      ∃ s', cols.foldlM (reduceStep tolerance) s = .ok s' ∧
        ((s'.pivots.length = n ∧ ∃ r, cols.foldlM (solveStep tolerance verb) g = .ok r) ∨
          (s'.pivots.length < n ∧
            cols.foldlM (solveStep tolerance verb) g = fail (.singular verb)))) ?_ ?_
  · obtain ⟨s, hs, hcases⟩ := hrun.2 ⟨a, []⟩ (a.beside b) ⟨rfl, (columns_beside a b).symm⟩
    exact ⟨s.cleaned tolerance, rowReduce_of_run hs, hcases⟩
  · exact ⟨rfl, fun s g h => ⟨s, rfl, .inl ⟨h.length_pivots, g, rfl⟩⟩⟩
  · intro c cols ih
    refine ⟨by rw [List.length_cons]; omega, fun s g h => ?_⟩
    have hlt : s.pivots.length < n := h.length_pivots ▸ c.isLt
    have hcandidate := h.candidate_eq hlt
    rw [List.foldlM_cons, List.foldlM_cons, reduceStep_eq tolerance hlt, solveStep_eq, hcandidate]
    by_cases hpivot : negligible tolerance (g.candidate c (c.castAdd k)) = true
    · -- The columns that are left give at most one pivot each, and this one gives none.
      rw [if_pos hpivot, if_pos hpivot]
      obtain ⟨s', hs', hle⟩ := exists_reduceRun hzero cols
        { s with grid := s.grid.clearFrom ⟨s.pivots.length, hlt⟩ c }
      refine ⟨s', hs', .inr ⟨?_, rfl⟩⟩
      have hlength := h.length_pivots
      have hsum := ih.1
      dsimp only at hle
      omega
    · have hne : ¬Arithmetic.isZero (g.candidate c (c.castAdd k)) = true := fun hz =>
        hzero ⟨_, eq_false_of_ne_true hpivot, hz⟩
      rw [if_neg hpivot, if_neg hpivot, if_neg hne, if_neg hne]
      exact ih.2 _ _ (h.pivoted hlt)

theorem rank_dense {m : Nat} (hm : 0 < m) (hn : 0 < n) (a : Grid α m n) (tolerance : α) :
    (a.dense hm hn).rank tolerance = (a.rowReduce tolerance).map fun s => s.pivots.length := by
  rw [DenseMatrix.rank, DenseMatrix.grid_dense]
  rfl

theorem solve_cases_of_rank (hzero : ¬ZeroCounts tolerance) (verb : String) (a : Grid α n n)
    (b : Grid α n k) {s : Reduction α n n} (hs : a.rowReduce tolerance = .ok s) :
    (s.pivots.length = n ∧ ∃ x, a.solve b tolerance verb = .ok x) ∨
      (s.pivots.length < n ∧ a.solve b tolerance verb = fail (.singular verb)) := by
  obtain ⟨s', hs', hcases⟩ := rowReduce_eliminate hzero verb a b
  obtain rfl : s' = s := Except.ok.inj (hs'.symm.trans hs)
  rw [solve]
  rcases hcases with ⟨hlength, r, hr⟩ | ⟨hlength, hfail⟩
  · rw [hr]
    exact .inl ⟨hlength, r.right, rfl⟩
  · rw [hfail]
    exact .inr ⟨hlength, rfl⟩

end Grid

namespace DenseMatrix

variable {n k : Nat}

/-- At every positive tolerance, whatever is rounded or overflows: a square matrix has full rank
exactly if it can be inverted, and exactly if it can be solved with any right side. None of the
three ends in another way. -/
theorem rank_inverse_solve_agree (hn : 0 < n) (hk : 0 < k) (a : Grid Float n n) (b : Grid Float n k)
    {tolerance : Float} (htolerance : 0 < tolerance) :
    ((a.dense hn hn).rank tolerance = .ok n ↔
      (a.dense hn hn).inverse tolerance ≠ fail (.singular "invert")) ∧
    ((a.dense hn hn).inverse tolerance ≠ fail (.singular "invert") ↔
      (a.dense hn hn).solve (b.dense hn hk) tolerance ≠ fail (.singular "solve with")) ∧
    (∃ r ≤ n, (a.dense hn hn).rank tolerance = .ok r) ∧
    ((∃ v, (a.dense hn hn).inverse tolerance = .ok v) ∨
      (a.dense hn hn).inverse tolerance = fail (.singular "invert")) ∧
    ((∃ x, (a.dense hn hn).solve (b.dense hn hk) tolerance = .ok x) ∨
      (a.dense hn hn).solve (b.dense hn hk) tolerance = fail (.singular "solve with")) := by
  have hzero := not_zeroCounts htolerance
  obtain ⟨s, hs, -⟩ := Grid.rowReduce_eliminate hzero "invert" a (Grid.identity n)
  rw [Grid.rank_dense, Grid.inverse_dense, Grid.solve_dense, Grid.inverse, hs]
  rcases Grid.solve_cases_of_rank hzero "invert" a (Grid.identity n) hs with
    ⟨hfull, v, hv⟩ | ⟨hless, hv⟩
  · rcases Grid.solve_cases_of_rank hzero "solve with" a b hs with ⟨-, x, hx⟩ | ⟨hless, -⟩
    · rw [hv, hx]
      refine ⟨⟨fun _ => ok_ne_fail _ _, fun _ => congrArg Except.ok hfull⟩,
        ⟨fun _ => ok_ne_fail _ _, fun _ => ok_ne_fail _ _⟩,
        ⟨n, le_refl n, congrArg Except.ok hfull⟩, .inl ⟨_, rfl⟩, .inl ⟨_, rfl⟩⟩
    · omega
  · rcases Grid.solve_cases_of_rank hzero "solve with" a b hs with ⟨hfull, -⟩ | ⟨-, hx⟩
    · omega
    · rw [hv, hx]
      refine ⟨⟨fun h => absurd (Except.ok.inj h) hless.ne, fun h => absurd rfl h⟩,
        ⟨fun h => absurd rfl h, fun h => absurd rfl h⟩, ⟨_, hless.le, rfl⟩, .inr rfl, .inr rfl⟩

/-- A matrix that is singular, and one that has full rank although its last pivot overflows. -/
theorem rank_inverse_solve_agree_overflow :
    (Grid.dense (by decide) (by decide) #v[#v[(1 : Float), 3], #v[2, 6]]).inverse 0.5 =
      fail (.singular "invert") ∧
    ∃ x, (Grid.dense (by decide) (by decide) #v[#v[1, 1e308], #v[1, -1e308]]).solve
      (Grid.dense (by decide) (by decide) #v[#v[7], #v[8]]) 0.5 = .ok x := by
  have hpos : (0 : Float) < 0.5 := by decide
  constructor
  · have hrank : ((Grid.dense (by decide) (by decide) #v[#v[(1 : Float), 3], #v[2, 6]]).rank
        0.5).toOption = some 1 := by
      decide +kernel
    have hagree := (rank_inverse_solve_agree (by decide) (by decide)
      #v[#v[(1 : Float), 3], #v[2, 6]] #v[#v[(7 : Float)], #v[8]] hpos).1
    by_contra hinverse
    rw [hagree.mpr hinverse] at hrank
    contradiction
  · have hrank : ((Grid.dense (by decide) (by decide)
        #v[#v[(1 : Float), 1e308], #v[1, -1e308]]).rank 0.5).toOption = some 2 := by
      decide +kernel
    obtain ⟨hinverse, hsolve, ⟨r, -, hr⟩, -, hcases⟩ := rank_inverse_solve_agree (by decide)
      (by decide) #v[#v[(1 : Float), 1e308], #v[1, -1e308]] #v[#v[(7 : Float)], #v[8]] hpos
    rw [hr] at hrank hinverse
    have hfull : r = 2 := Option.some.inj hrank
    exact hcases.resolve_right (hsolve.mp (hinverse.mp (congrArg Except.ok hfull)))

end DenseMatrix

end MatrixCalculator
