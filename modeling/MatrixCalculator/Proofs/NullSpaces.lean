import Mathlib
import MatrixCalculator.Proofs.Stability

namespace MatrixCalculator

namespace Grid

open ReducedForm

variable {m n k : Nat}

variable {s : Reduction ℚ m n}

/-- A column has a pivot or is free. -/
theorem Staircase.length_free {c : Nat} (h : Staircase c s.pivots) :
    s.free.length + s.pivots.length = n := by
  have hnodup : (s.pivots.map Prod.snd).Nodup :=
    List.pairwise_map.mpr (h.increasing.imp fun hlt => hlt.ne)
  -- The columns that are not free are those of the pivots, and no column has two of them.
  have hused : ((List.finRange n).filter fun j => s.pivots.any fun p => p.2 = j).Perm
      (s.pivots.map Prod.snd) := by
    apply (List.perm_ext_iff_of_nodup ((List.nodup_finRange n).filter _) hnodup).mpr
    intro j
    simp
  have hsplit := List.length_eq_length_filter_add (l := List.finRange n)
    fun j => s.pivots.any fun p => p.2 = j
  rw [List.length_finRange, hused.length_eq, List.length_map] at hsplit
  rw [Reduction.free]
  omega

variable {lead : Fin m → Fin n}

theorem Echelon.mul_kernelGrid (h : Echelon n s) (hlead : Leads s.grid.toMatrix lead) :
    s.grid.toMatrix * (kernelGrid s).toMatrix = 0 := by
  ext i l
  change (s.grid.toMatrix.mulVec ((kernelGrid s).toMatrix.col l)) i = 0
  rw [h.col_kernelGrid hlead, mulVec_relation h.isReducedRowEchelon hlead, Pi.zero_apply]

theorem Echelon.submatrix_kernelGrid (h : Echelon n s) (hlead : Leads s.grid.toMatrix lead) :
    (kernelGrid s).toMatrix.submatrix s.free.get id = 1 := by
  ext l l'
  have hentry : (kernelGrid s).toMatrix (s.free.get l) l' =
      relation s.grid.toMatrix lead (s.free.get l') (s.free.get l) :=
    congrFun (congrFun (h.col_kernelGrid hlead) l') (s.free.get l)
  rw [Matrix.submatrix_apply, id, hentry,
    relation_apply_free hlead _ (h.mem_free_iff.mp (List.get_mem _ _)), Matrix.one_apply]
  simp only [s.injective_free.eq_iff]

theorem mul_dense {hm : 0 < m} {hk : 0 < k} {hn : 0 < n} {a : Grid ℚ m k} {b : Grid ℚ k n}
    {c : Grid ℚ m n} (h : c.toMatrix = a.toMatrix * b.toMatrix) :
    (a.dense hm hk).mul (b.dense hk hn) = .ok (c.dense hm hn) := by
  obtain ⟨c', hc', hproduct⟩ := a.exists_mul b
  obtain rfl : c' = c :=
    Grid.ext fun i j => congrFun (congrFun (hproduct.trans h.symm) i) j
  rw [dense_mul_dense, hc', Option.elim_some]

theorem toMatrix_zeros : (ofFn fun _ _ => 0 : Grid ℚ m n).toMatrix = 0 := by
  ext i j
  rw [toMatrix_apply, get_ofFn, Matrix.zero_apply]

end Grid

namespace DenseMatrix

variable {t : ℚ}

/-- At every tolerance up to one the reduced form takes the null space to zero. If the rank is the
number of columns, the null space is one column of zeros. If not, it has one column for each column
without a pivot, and its rows at these columns are those of the identity, so its columns are
independent. -/
theorem nullspace_reduced (a : DenseMatrix ℚ) (ht : 0 < t) (hone : t ≤ 1) :
    ∃ (g : Grid ℚ a.rows a.cols) (pivots : List (Fin a.rows × Fin a.cols)) (k : Nat) (hk : 0 < k)
      (v : Grid ℚ a.cols k),
      a.grid.rowReduce t = .ok ⟨g, pivots⟩ ∧
      a.rref t = .ok (g.dense a.rows_pos a.cols_pos) ∧ a.rank t = .ok pivots.length ∧
      a.nullspace t = .ok (v.dense a.cols_pos hk) ∧
      (g.dense a.rows_pos a.cols_pos).mul (v.dense a.cols_pos hk) =
        .ok ((Grid.ofFn fun _ _ => 0).dense a.rows_pos hk) ∧
      ((pivots.length = a.cols ∧ k = 1 ∧ v = Grid.ofFn fun _ _ => 0) ∨
        (pivots.length < a.cols ∧ k = a.cols - pivots.length ∧
          (∃ free : Fin k → Fin a.cols, StrictMono free ∧
            (∀ j, j ∈ Set.range free ↔ j ∉ pivots.map Prod.snd) ∧
            v.toMatrix.submatrix free id = 1) ∧
          LinearIndependent ℚ v.toMatrix.col)) := by
  obtain ⟨r, hreduce, h⟩ := Grid.exists_settled ht hone a.grid
  obtain ⟨lead, hlead⟩ := ReducedForm.exists_leads r.grid.toMatrix ⟨0, a.cols_pos⟩
  have hrref := rref_of_rowReduce hreduce
  have hrank := rank_of_rowReduce hreduce
  have hlength := h.length_free
  by_cases hfree : 0 < r.free.length
  · refine ⟨r.grid, r.pivots, _, hfree, Grid.kernelGrid r, hreduce, hrref, hrank,
      nullspace_of_free hreduce hfree, Grid.mul_dense ?_, .inr ?_⟩
    · rw [Grid.toMatrix_zeros, h.mul_kernelGrid hlead]
    · refine ⟨by omega, by omega, ⟨r.free.get, ?_, ?_, h.submatrix_kernelGrid hlead⟩,
        h.linearIndependent_kernelGrid hlead⟩
      · exact List.pairwise_iff_get.mp r.pairwise_free
      · intro j
        rw [← Grid.Reduction.mem_free, List.mem_iff_get]
        rfl
  · refine ⟨r.grid, r.pivots, 1, one_pos, _, hreduce, hrref, hrank,
      nullspace_of_full hreduce hfree, Grid.mul_dense ?_, .inl ⟨by omega, rfl, rfl⟩⟩
    rw [Grid.toMatrix_zeros, Grid.toMatrix_zeros, Matrix.mul_zero]

/-- A null space between two pivots, where the tolerance takes the second column for a multiple of
the first. -/
theorem nullspace_reduced_between :
    ∃ g v z, (Grid.dense (by decide) (by decide) #v[#v[(2 : ℚ), 4, 1 / 4], #v[0, 1 / 4, 1]]).rref
        (1 / 2) = .ok g ∧
      (Grid.dense (by decide) (by decide) #v[#v[(2 : ℚ), 4, 1 / 4], #v[0, 1 / 4, 1]]).nullspace
        (1 / 2) = .ok v ∧
      v.toRows = [[-2], [1], [0]] ∧ g.mul v = .ok z ∧ ∀ i j, z.grid.get i j = 0 := by
  have hrun : ((Grid.dense (by decide) (by decide)
      #v[#v[(2 : ℚ), 4, 1 / 4], #v[0, 1 / 4, 1]]).nullspace (1 / 2)).toOption.map toRows =
        some [[-2], [1], [0]] := by
    decide +kernel
  obtain ⟨g, pivots, k, hk, v, -, hrref, -, hnullspace, hproduct, -⟩ := nullspace_reduced
    (Grid.dense (by decide) (by decide) #v[#v[(2 : ℚ), 4, 1 / 4], #v[0, 1 / 4, 1]]) (t := 1 / 2)
    (by norm_num) (by norm_num)
  rw [hnullspace] at hrun
  exact ⟨_, _, _, hrref, hnullspace, Option.some.inj hrun, hproduct,
    fun i j => by rw [grid_dense, Grid.get_ofFn]⟩

end DenseMatrix

end MatrixCalculator
