import Mathlib
import MatrixCalculator.Proofs.Echelon
import MatrixCalculator.Proofs.ReducedForms

namespace MatrixCalculator

namespace Grid

open Arithmetic ReducedForm
open scoped Matrix

variable {m n : Nat}

theorem isZero_eq_false_iff {x : ℚ} : isZero x = false ↔ x ≠ 0 := decide_eq_false_iff_not

theorem lawful_rat : Lawful fun _ : ℚ => True where
  isZero_zero := isZero_iff.mpr rfl
  isZero_one := isZero_eq_false_iff.mpr one_ne_zero
  fine_of_div _ := trivial
  fine_of_sub _ := trivial
  div_self := by
    intro x hx _
    exact div_self (isZero_eq_false_iff.mp hx)
  zero_div := by
    intro x y hx _ _
    rw [isZero_iff.mp hx, zero_div]
    exact isZero_iff.mpr rfl
  sub_mul_one := by
    intro x _
    rw [mul_one, sub_self]
    exact isZero_iff.mpr rfl
  zero_sub_zero := by
    intro x y z hx hz _
    rw [isZero_iff.mp hx, isZero_iff.mp hz, mul_zero, sub_zero]
    exact isZero_iff.mpr rfl
  one_sub_zero := by
    intro y z hz _
    rw [isZero_iff.mp hz, mul_zero, sub_zero]

theorem pivoted_eq_pivotStep {a : Grid ℚ m n} (start : Fin m) {p : Fin m} {col : Fin n}
    (h : a.get p col ≠ 0) : a.pivoted start p col = a.pivotStep start p col := by
  have hcolumn := reduceColumn_swap a start p col
  rw [if_neg (isZero_iff.not.mpr h), reduceColumn_swapRows h] at hcolumn
  exact (Except.ok.inj hcolumn).symm

theorem clearFrom_eq_self {a : Grid ℚ m n} {start : Fin m} {col : Fin n}
    (h : a.candidate start col = 0) : a.clearFrom start col = a := by
  apply Grid.ext
  intro i j
  rw [get_clearFrom]
  split
  · rename_i hij
    have hle := a.abs_le_pivotRow hij.1 col
    rw [show a.get (a.pivotRow start col) col = 0 from h, abs_zero] at hle
    rw [hij.2, abs_nonpos_iff.mp hle]
  · rfl

theorem exists_reduceStep_exact (s : Reduction ℚ m n) (col : Fin n) :
    ∃ bound > 0, ∃ s', RowEquivalent s.grid s'.grid ∧
      ∀ t, 0 < t → t ≤ bound → reduceStep t s col = .ok s' := by
  by_cases hlt : s.pivots.length < m
  · by_cases hzero : s.grid.candidate ⟨s.pivots.length, hlt⟩ col = 0
    · refine ⟨1, one_pos, s, RowEquivalent.refl _, fun t ht _ => ?_⟩
      have hnegligible : negligible t (s.grid.candidate ⟨s.pivots.length, hlt⟩ col) = true := by
        rw [hzero, negligible_iff, abs_zero]
        exact ht
      rw [reduceStep_eq t hlt, if_pos hnegligible, clearFrom_eq_self hzero]
    · have hrows : RowEquivalent s.grid (s.grid.pivoted ⟨s.pivots.length, hlt⟩
          (s.grid.pivotRow ⟨s.pivots.length, hlt⟩ col) col) := by
        rw [pivoted_eq_pivotStep _ hzero]
        exact rowEquivalent_pivotStep hzero
      refine ⟨_, abs_pos.mpr hzero, ⟨s.grid.pivoted ⟨s.pivots.length, hlt⟩
        (s.grid.pivotRow ⟨s.pivots.length, hlt⟩ col) col,
        s.pivots ++ [(⟨s.pivots.length, hlt⟩, col)]⟩, hrows, fun t _ ht => ?_⟩
      rw [reduceStep_eq t hlt, if_neg (negligible_iff.not.mpr (not_lt.mpr ht)),
        if_neg (isZero_iff.not.mpr hzero)]
  · exact ⟨1, one_pos, s, RowEquivalent.refl _, fun t _ _ => reduceStep_full (not_lt.mp hlt) col⟩

theorem exists_reduceRun_exact (cols : List (Fin n)) (s : Reduction ℚ m n) :
    ∃ bound > 0, ∃ s', RowEquivalent s.grid s'.grid ∧
      ∀ t, 0 < t → t ≤ bound → cols.foldlM (reduceStep t) s = .ok s' := by
  induction cols generalizing s with
  | nil => exact ⟨1, one_pos, s, RowEquivalent.refl _, fun t _ _ => rfl⟩
  | cons col cols ih =>
    obtain ⟨first, hfirst, next, hnext, hstep⟩ := exists_reduceStep_exact s col
    obtain ⟨rest, hrest, last, hlast, hrun⟩ := ih next
    refine ⟨min first rest, lt_min hfirst hrest, last, hnext.trans hlast, fun t hpos ht => ?_⟩
    rw [List.foldlM_cons, hstep t hpos (ht.trans (min_le_left _ _))]
    exact hrun t hpos (ht.trans (min_le_right _ _))

theorem Reduction.cleaned_eq_self {s : Reduction ℚ m n} {t : ℚ}
    (h : ∀ i j, s.grid.get i j ≠ 0 → t ≤ |s.grid.get i j|) : s.cleaned t = s := by
  have hgrid : (s.cleaned t).grid = s.grid := by
    apply Grid.ext
    intro i j
    rw [get_cleaned]
    split
    · rename_i hsmall
      rw [negligible_iff] at hsmall
      by_contra hne
      exact (h i j (Ne.symm hne)).not_gt hsmall
    · rfl
  exact congrArg (Reduction.mk · s.pivots) hgrid

theorem exists_cleaned_eq_self (s : Reduction ℚ m n) :
    ∃ bound > 0, ∀ t ≤ bound, s.cleaned t = s := by
  have hentries : ∀ p : Fin m × Fin n,
      0 < if s.grid.get p.1 p.2 = 0 then 1 else |s.grid.get p.1 p.2| := by
    intro p
    split
    · exact one_pos
    · rename_i hne
      exact abs_pos.mpr hne
  obtain ⟨bound, hpos, hbound⟩ := Pi.exists_forall_pos_add_lt hentries
  refine ⟨bound, hpos, fun t ht => Reduction.cleaned_eq_self fun i j hne => ?_⟩
  have hentry := hbound (i, j)
  rw [if_neg hne] at hentry
  linarith

/-- For all small tolerances the reduction is the same, and it ends in echelon form. -/
theorem exists_rowReduce_exact (a : Grid ℚ m n) :
    ∃ bound > 0, ∃ r, RowEquivalent a r.grid ∧ Echelon n r ∧
      ∀ t, 0 < t → t ≤ bound → a.rowReduce t = .ok r := by
  obtain ⟨first, hfirst, r, hrows, hrun⟩ := exists_reduceRun_exact (List.finRange n) ⟨a, []⟩
  obtain ⟨rest, hrest, hclean⟩ := exists_cleaned_eq_self r
  refine ⟨min first rest, lt_min hfirst hrest, r, hrows, ?_, fun t hpos ht => ?_⟩
  · exact echelon_of_run lawful_rat (hrun first hfirst le_rfl) fun _ _ => trivial
  · rw [rowReduce_of_run (hrun t hpos (ht.trans (min_le_left _ _))),
      hclean t (ht.trans (min_le_right _ _))]

theorem RowEquivalent.mulVec_eq_zero_iff {a b : Grid ℚ m n} (h : RowEquivalent a b)
    (x : Fin n → ℚ) : b.toMatrix *ᵥ x = 0 ↔ a.toMatrix *ᵥ x = 0 := by
  obtain ⟨M, hM, hb⟩ := h
  rw [hb, ← Matrix.mulVec_mulVec]
  constructor
  · exact fun hx => Matrix.eq_zero_of_mulVec_eq_zero hM hx
  · intro hx
    rw [hx, Matrix.mulVec_zero]

theorem RowEquivalent.ker_eq {a b : Grid ℚ m n} (h : RowEquivalent a b) :
    LinearMap.ker b.toMatrix.mulVecLin = LinearMap.ker a.toMatrix.mulVecLin := by
  ext x
  exact h.mulVec_eq_zero_iff x

theorem RowEquivalent.rank_eq {a b : Grid ℚ m n} (h : RowEquivalent a b) :
    b.toMatrix.rank = a.toMatrix.rank := by
  obtain ⟨M, hM, hb⟩ := h
  rw [hb, Matrix.rank_mul_eq_right_of_isUnit_det _ _ hM.isUnit]

section Echelon

variable {s : Reduction ℚ m n}

theorem Echelon.isLeadingEntry_iff (h : Echelon n s) {i : Fin m} {c : Fin n} :
    s.grid.toMatrix.IsLeadingEntry i c ↔ (i, c) ∈ s.pivots := by
  have hleading : ∀ {c}, (i, c) ∈ s.pivots → s.grid.toMatrix.IsLeadingEntry i c := by
    intro c hc
    refine ⟨fun j hj => isZero_iff.mp (h.zero_of_lt _ hc j hj), ?_⟩
    rw [toMatrix_apply, h.one _ hc]
    exact one_ne_zero
  refine ⟨fun hc => ?_, hleading⟩
  have hlt : i.val < s.pivots.length := by
    by_contra hle
    exact hc.2 (isZero_iff.mp (h.zero_below i c (not_lt.mp hle) c.isLt))
  obtain ⟨j, hj⟩ := h.exists_col hlt
  rwa [hc.unique (hleading hj)]

theorem Echelon.isReducedRowEchelon (h : Echelon n s) :
    s.grid.toMatrix.IsReducedRowEchelon := by
  constructor
  · intro i₁ i₂ hlt j hbefore
    by_cases hi : i₂.val < s.pivots.length
    · -- The upper row begins at `j` or later, so the lower one begins behind it.
      obtain ⟨c₁, hc₁⟩ := h.exists_col (lt_trans (Fin.lt_def.mp hlt) hi)
      obtain ⟨c₂, hc₂⟩ := h.exists_col hi
      have hle : j ≤ c₁ := not_lt.mp fun hj => (h.isLeadingEntry_iff.mpr hc₁).2 (hbefore c₁ hj)
      exact (h.isLeadingEntry_iff.mpr hc₂).1 j (hle.trans_lt (h.col_lt hc₁ hc₂ hlt))
    · exact isZero_iff.mp (h.zero_below i₂ j (not_lt.mp hi) j.isLt)
  · intro i c hc
    exact h.one _ (h.isLeadingEntry_iff.mp hc)
  · intro i₁ i₂ c hlt hc
    exact isZero_iff.mp (h.zero_of_ne _ (h.isLeadingEntry_iff.mp hc) i₁ hlt.ne)

theorem Echelon.rank_eq (h : Echelon n s) {lead : Fin m → Fin n}
    (hlead : Leads s.grid.toMatrix lead) : s.grid.toMatrix.rank = s.pivots.length := by
  refine rank_eq_of_rows h.isReducedRowEchelon.isRowEchelon hlead h.length_le fun i => ?_
  rw [← h.exists_nonzero_iff lawful_rat, Function.ne_iff]
  simp only [isZero_eq_false_iff, toMatrix_apply, Pi.zero_apply]

theorem Reduction.mem_free {j : Fin n} : j ∈ s.free ↔ j ∉ s.pivots.map Prod.snd := by
  simp only [free, List.mem_filter, List.mem_finRange, true_and, Bool.not_eq_true',
    List.any_eq_false, decide_eq_true_eq, List.mem_map, not_exists, not_and]

theorem Reduction.pairwise_free (s : Reduction ℚ m n) : s.free.Pairwise (· < ·) :=
  (List.pairwise_lt_finRange n).filter _

theorem Reduction.injective_free (s : Reduction ℚ m n) : Function.Injective s.free.get :=
  List.nodup_iff_injective_get.mp (s.pairwise_free.imp fun hlt => hlt.ne)

theorem Echelon.mem_free_iff (h : Echelon n s) {j : Fin n} :
    j ∈ s.free ↔ ∀ i, ¬s.grid.toMatrix.IsLeadingEntry i j := by
  simp [h.isLeadingEntry_iff, Reduction.mem_free]

theorem Echelon.kernelEntry_eq (h : Echelon n s) {lead : Fin m → Fin n}
    (hlead : Leads s.grid.toMatrix lead) {j : Fin n} (hj : j ∈ s.free) (c : Fin n) :
    s.kernelEntry j c = relation s.grid.toMatrix lead j c := by
  rw [h.mem_free_iff] at hj
  unfold Reduction.kernelEntry
  split
  · rename_i hc
    rw [hc, relation_apply_free hlead j hj, if_pos rfl]
  · rename_i hc
    split
    · rename_i r c' hfind
      have hmem := List.mem_of_find?_eq_some hfind
      have hcol : c' = c := by simpa using List.find?_some hfind
      rw [relation_apply_pivot h.isReducedRowEchelon hlead
        (h.isLeadingEntry_iff.mpr (hcol ▸ hmem)) hc]
      rfl
    · rename_i hnone
      have hfree : ∀ i, ¬s.grid.toMatrix.IsLeadingEntry i c := by
        intro i hi
        have hne := List.find?_eq_none.mp hnone (i, c) (h.isLeadingEntry_iff.mp hi)
        simp at hne
      rw [relation_apply_free hlead j hfree, if_neg hc]

/-- The vectors that belong to the free columns, one beside the other. -/
def kernelGrid (s : Reduction ℚ m n) : Grid ℚ n s.free.length :=
  ofFn fun i k => s.kernelEntry (s.free.get k) i

theorem Echelon.col_kernelGrid (h : Echelon n s) {lead : Fin m → Fin n}
    (hlead : Leads s.grid.toMatrix lead) :
    (kernelGrid s).toMatrix.col = fun k => relation s.grid.toMatrix lead (s.free.get k) := by
  funext k c
  rw [Matrix.col_apply, toMatrix_apply, kernelGrid, get_ofFn]
  exact h.kernelEntry_eq hlead (List.get_mem _ _) c

theorem Echelon.linearIndependent_kernelGrid (h : Echelon n s) {lead : Fin m → Fin n}
    (hlead : Leads s.grid.toMatrix lead) : LinearIndependent ℚ (kernelGrid s).toMatrix.col := by
  rw [h.col_kernelGrid hlead]
  apply linearIndependent_relation hlead
  · exact s.injective_free
  · exact fun k => h.mem_free_iff.mp (List.get_mem _ _)

theorem Echelon.span_kernelGrid (h : Echelon n s) {lead : Fin m → Fin n}
    (hlead : Leads s.grid.toMatrix lead) :
    Submodule.span ℚ (Set.range (kernelGrid s).toMatrix.col) =
      LinearMap.ker s.grid.toMatrix.mulVecLin := by
  rw [h.col_kernelGrid hlead]
  apply span_relation h.isReducedRowEchelon hlead
  intro j hj
  exact List.mem_iff_get.mp (h.mem_free_iff.mpr hj)

end Echelon

end Grid

namespace DenseMatrix

variable {a : DenseMatrix ℚ} {t : ℚ} {r : Grid.Reduction ℚ a.rows a.cols}

theorem rref_of_rowReduce (hreduce : a.grid.rowReduce t = .ok r) :
    a.rref t = .ok (r.grid.dense a.rows_pos a.cols_pos) := by
  rw [rref, hreduce]
  rfl

theorem rank_of_rowReduce (hreduce : a.grid.rowReduce t = .ok r) :
    a.rank t = .ok r.pivots.length := by
  rw [rank, hreduce]
  rfl

theorem nullspace_of_free (hreduce : a.grid.rowReduce t = .ok r) (hfree : 0 < r.free.length) :
    a.nullspace t = .ok ((Grid.kernelGrid r).dense a.cols_pos hfree) := by
  rw [nullspace, hreduce]
  exact dif_pos hfree

theorem nullspace_of_full (hreduce : a.grid.rowReduce t = .ok r) (hfree : ¬0 < r.free.length) :
    a.nullspace t = .ok ((Grid.ofFn fun _ _ => 0).dense a.cols_pos one_pos) := by
  rw [nullspace, hreduce]
  exact dif_neg hfree

/-- For every matrix and all tolerances that are small enough: the reduced form is the only reduced
row echelon form that is row equivalent to the matrix, the rank is that of the matrix, and the
columns of the null space are a basis of the kernel, or there is one column of zeros if the kernel
is trivial. -/
theorem reduction_exact (a : DenseMatrix ℚ) :
    ∃ bound > 0, ∀ t, 0 < t → t < bound →
      (∃ r, a.rref t = .ok (r.dense a.rows_pos a.cols_pos) ∧ r.toMatrix.IsReducedRowEchelon ∧
        Grid.RowEquivalent a.grid r ∧
        ∀ b, Grid.RowEquivalent a.grid b → b.toMatrix.IsReducedRowEchelon → b = r) ∧
      a.rank t = .ok a.grid.toMatrix.rank ∧
      ((LinearMap.ker a.grid.toMatrix.mulVecLin = ⊥ ∧
          a.nullspace t = .ok ((Grid.ofFn fun _ _ => 0).dense a.cols_pos one_pos)) ∨
        (LinearMap.ker a.grid.toMatrix.mulVecLin ≠ ⊥ ∧
          ∃ (k : Nat) (hk : 0 < k) (v : Grid ℚ a.cols k),
            a.nullspace t = .ok (v.dense a.cols_pos hk) ∧
            LinearIndependent ℚ v.toMatrix.col ∧
            Submodule.span ℚ (Set.range v.toMatrix.col) =
              LinearMap.ker a.grid.toMatrix.mulVecLin)) := by
  obtain ⟨bound, hbound, r, hrows, hechelon, hreduce⟩ := Grid.exists_rowReduce_exact a.grid
  obtain ⟨lead, hlead⟩ := ReducedForm.exists_leads r.grid.toMatrix ⟨0, a.cols_pos⟩
  have hindependent := hechelon.linearIndependent_kernelGrid hlead
  refine ⟨bound, hbound, fun t hpos ht => ?_⟩
  have hrun := hreduce t hpos ht.le
  refine ⟨⟨r.grid, ?_, hechelon.isReducedRowEchelon, hrows, ?_⟩, ?_, ?_⟩
  · rw [rref, hrun]
    rfl
  · intro b hb hreduced
    have hmatrix := ReducedForm.eq_of_kernel_eq hreduced hechelon.isReducedRowEchelon fun x =>
      (hb.mulVec_eq_zero_iff x).trans (hrows.mulVec_eq_zero_iff x).symm
    exact Grid.ext fun i j => congrFun (congrFun hmatrix i) j
  · rw [rank, hrun, ← hrows.rank_eq, hechelon.rank_eq hlead]
    rfl
  · rw [← hrows.ker_eq, ← hechelon.span_kernelGrid hlead]
    by_cases hfree : 0 < r.free.length
    · refine .inr ⟨?_, _, hfree, _, nullspace_of_free hrun hfree, hindependent, rfl⟩
      rw [Submodule.ne_bot_iff]
      exact ⟨_, Submodule.subset_span ⟨⟨0, hfree⟩, rfl⟩, hindependent.ne_zero ⟨0, hfree⟩⟩
    · refine .inl ⟨?_, nullspace_of_full hrun hfree⟩
      have hempty : IsEmpty (Fin r.free.length) := ⟨fun k => hfree (Nat.zero_lt_of_lt k.isLt)⟩
      rw [Set.range_eq_empty, Submodule.span_empty]

end DenseMatrix

end MatrixCalculator
