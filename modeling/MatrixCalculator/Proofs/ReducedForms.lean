import Mathlib

namespace MatrixCalculator.ReducedForm

open Matrix

variable {m n k : Nat} {A B : Matrix (Fin m) (Fin n) ℚ} {lead : Fin m → Fin n}

/-- Every row other than zero has its leading entry in the given column. -/
def Leads (A : Matrix (Fin m) (Fin n) ℚ) (lead : Fin m → Fin n) : Prop :=
  ∀ i, A i ≠ 0 → A.IsLeadingEntry i (lead i)

theorem exists_leads (A : Matrix (Fin m) (Fin n) ℚ) (j : Fin n) : ∃ lead, Leads A lead := by
  have hrow : ∀ i, ∃ c, A i ≠ 0 → A.IsLeadingEntry i c := by
    intro i
    by_cases hi : A i = 0
    · exact ⟨j, fun hne => absurd hi hne⟩
    · obtain ⟨c, hc⟩ := row_ne_zero_iff_exists_isLeadingEntry.mp hi
      exact ⟨c, fun _ => hc⟩
  choose lead hlead using hrow
  exact ⟨lead, hlead⟩

theorem Leads.eq_of_isLeadingEntry (h : Leads A lead) {i : Fin m} {c : Fin n}
    (hc : A.IsLeadingEntry i c) : lead i = c :=
  (h i hc.row_ne_zero).unique hc

theorem eq_ite_of_isLeadingEntry (hA : A.IsReducedRowEchelon) {r : Fin m} {c : Fin n}
    (hc : A.IsLeadingEntry r c) (i : Fin m) : A i c = if i = r then 1 else 0 := by
  split
  · rename_i hi
    rw [hi]
    exact hA.eq_one hc
  · rename_i hi
    exact hA.eq_zero_of_ne_of_isLeadingEntry hi hc

theorem row_unique (hA : A.IsReducedRowEchelon) {r i : Fin m} {c : Fin n}
    (hr : A.IsLeadingEntry r c) (hi : A.IsLeadingEntry i c) : i = r := by
  by_contra hne
  exact hi.2 (hA.eq_zero_of_ne_of_isLeadingEntry hne hr)

theorem sum_mul_lead (hA : A.IsReducedRowEchelon) (h : Leads A lead) (i : Fin m) (j : Fin n) :
    ∑ r, A r j * A i (lead r) = A i j := by
  have hterm : ∀ r, A r j * A i (lead r) = if i = r then A i j else 0 := by
    intro r
    by_cases hr : A r = 0
    · rw [hr, Pi.zero_apply, zero_mul]
      split
      · rename_i hi
        rw [hi, hr, Pi.zero_apply]
      · rfl
    · rw [eq_ite_of_isLeadingEntry hA (h r hr) i, mul_ite, mul_one, mul_zero]
      split
      · rename_i hi
        rw [hi]
      · rfl
  rw [Finset.sum_congr rfl fun r _ => hterm r, Finset.sum_ite_eq, if_pos (Finset.mem_univ i)]

/-- The factors of the combination of columns that is column `j` less the pivot columns it is made
of. -/
def relation (A : Matrix (Fin m) (Fin n) ℚ) (lead : Fin m → Fin n) (j : Fin n) : Fin n → ℚ :=
  Pi.single j 1 - ∑ r, A r j • Pi.single (lead r) 1

theorem relation_apply (A : Matrix (Fin m) (Fin n) ℚ) (lead : Fin m → Fin n) (j c : Fin n) :
    relation A lead j c = (if c = j then 1 else 0) - ∑ r, if lead r = c then A r j else 0 := by
  simp only [relation, Pi.sub_apply, Finset.sum_apply, Pi.smul_apply, Pi.single_apply, smul_eq_mul,
    mul_ite, mul_one, mul_zero, eq_comm]

theorem mulVec_relation_apply (B A : Matrix (Fin m) (Fin n) ℚ) (lead : Fin m → Fin n)
    (j : Fin n) (i : Fin m) :
    (B *ᵥ relation A lead j) i = B i j - ∑ r, A r j * B i (lead r) := by
  simp only [relation, mulVec_sub, mulVec_sum, mulVec_smul, mulVec_single_one, Pi.sub_apply,
    Finset.sum_apply, Pi.smul_apply, smul_eq_mul, col_apply]

theorem mulVec_relation (hA : A.IsReducedRowEchelon) (h : Leads A lead) (j : Fin n) :
    A *ᵥ relation A lead j = 0 := by
  funext i
  rw [mulVec_relation_apply, sum_mul_lead hA h, sub_self, Pi.zero_apply]

theorem eq_of_free_column (hA : A.IsReducedRowEchelon) (hkernel : ∀ x, A *ᵥ x = 0 → B *ᵥ x = 0)
    {j : Fin n} (hbefore : ∀ c < j, ∀ i, A i c = B i c) (hfree : ∀ i, ¬A.IsLeadingEntry i j)
    (i : Fin m) : A i j = B i j := by
  obtain ⟨lead, hlead⟩ := exists_leads A j
  have hterm : ∀ r, A r j * B i (lead r) = A r j * A i (lead r) := by
    intro r
    by_cases hr : A r j = 0
    · rw [hr, zero_mul, zero_mul]
    · have hentry := hlead r fun hzero => hr (congrFun hzero j)
      -- The row has an entry in column `j`, but does not begin there.
      have hlt : lead r < j := by
        apply lt_of_le_of_ne
        · exact not_lt.mp fun hlt => hr (hentry.1 j hlt)
        · exact fun heq => hfree r (heq ▸ hentry)
      rw [hbefore (lead r) hlt i]
  have hzero := congrFun (hkernel _ (mulVec_relation hA hlead j)) i
  rw [mulVec_relation_apply, Finset.sum_congr rfl fun r _ => hterm r, sum_mul_lead hA hlead,
    Pi.zero_apply, sub_eq_zero] at hzero
  exact hzero.symm

/-- If two echelon forms agree before a column, pivots of this column stand in the same row. -/
theorem pivot_row_le (hA : A.IsReducedRowEchelon) {j : Fin n}
    (hbefore : ∀ c < j, ∀ i, A i c = B i c) {r s : Fin m} (hr : A.IsLeadingEntry r j)
    (hs : B.IsLeadingEntry s j) : r ≤ s := by
  by_contra hlt
  refine hr.2 (hA.isRowEchelon (not_le.mp hlt) fun c hc => ?_)
  rw [hbefore c hc]
  exact hs.1 c hc

theorem eq_of_kernel_eq (hA : A.IsReducedRowEchelon) (hB : B.IsReducedRowEchelon)
    (hkernel : ∀ x, A *ᵥ x = 0 ↔ B *ᵥ x = 0) : A = B := by
  have hcolumn : ∀ j i, A i j = B i j := by
    intro j
    induction j using WellFoundedLT.induction with
    | ind j hbefore =>
      by_cases hfreeA : ∀ i, ¬A.IsLeadingEntry i j
      · exact eq_of_free_column hA (fun x => (hkernel x).mp) hbefore hfreeA
      · by_cases hfreeB : ∀ i, ¬B.IsLeadingEntry i j
        · intro i
          exact (eq_of_free_column hB (fun x => (hkernel x).mpr)
            (fun c hc i => (hbefore c hc i).symm) hfreeB i).symm
        · push Not at hfreeA hfreeB
          obtain ⟨r, hr⟩ := hfreeA
          obtain ⟨s, hs⟩ := hfreeB
          have hrow : r = s := le_antisymm (pivot_row_le hA hbefore hr hs)
            (pivot_row_le hB (fun c hc i => (hbefore c hc i).symm) hs hr)
          intro i
          rw [eq_ite_of_isLeadingEntry hA hr, eq_ite_of_isLeadingEntry hB hs, hrow]
  ext i j
  exact hcolumn j i

/-- An echelon form whose first `r` rows are the rows other than zero has the rank `r`. -/
theorem rank_eq_of_rows (hA : A.IsRowEchelon) (h : Leads A lead) {r : Nat} (hr : r ≤ m)
    (hrows : ∀ i, A i ≠ 0 ↔ i.val < r) : A.rank = r := by
  have hpivots : A.IsPivotedBy fun i => if i.val < r then (lead i : WithTop (Fin n)) else ⊤ := by
    refine ⟨hA, fun i => ?_⟩
    by_cases hi : i.val < r
    · have hlead := h i ((hrows i).mpr hi)
      rw [if_pos hi]
      refine ⟨fun j hj => hlead.1 j (WithTop.coe_lt_coe.mp hj), fun c hc => ?_⟩
      rw [← WithTop.coe_inj.mp hc]
      exact hlead.2
    · have hzero : A i = 0 := not_not.mp (mt (hrows i).mp hi)
      rw [if_neg hi]
      exact ⟨fun j _ => congrFun hzero j, fun c hc => absurd hc WithTop.top_ne_coe⟩
  have htop : ∀ i : Fin m, (if i.val < r then (lead i : WithTop (Fin n)) else ⊤) ≠ ⊤ ↔
      i.val < r := by
    intro i
    by_cases hi : i.val < r
    · rw [if_pos hi]
      exact iff_of_true WithTop.coe_ne_top hi
    · rw [if_neg hi]
      exact iff_of_false (fun hne => hne rfl) hi
  rw [hpivots.rank_eq]
  simp only [htop]
  rw [Fin.card_filter_val_lt, min_eq_right hr]

/-- A vector of the kernel is a combination of the relations with its own entries. -/
theorem eq_sum_relation (A : Matrix (Fin m) (Fin n) ℚ) (lead : Fin m → Fin n) {x : Fin n → ℚ}
    (hx : A *ᵥ x = 0) : x = ∑ j, x j • relation A lead j := by
  have hrow : ∀ r, ∑ j, x j * A r j = 0 := by
    intro r
    calc ∑ j, x j * A r j = ∑ j, A r j * x j := Finset.sum_congr rfl fun j _ => mul_comm _ _
      _ = 0 := congrFun hx r
  have hrows : ∑ j, x j • ∑ r, A r j • Pi.single (lead r) (1 : ℚ) =
      (0 : Fin n → ℚ) := by
    simp only [Finset.smul_sum, smul_smul]
    rw [Finset.sum_comm]
    simp only [← Finset.sum_smul, hrow, zero_smul, Finset.sum_const_zero]
  simp only [relation, smul_sub, Finset.sum_sub_distrib, hrows, sub_zero]
  rw [← pi_eq_sum_univ' x]

theorem relation_of_isLeadingEntry (hA : A.IsReducedRowEchelon) (h : Leads A lead) {i : Fin m}
    {j : Fin n} (hj : A.IsLeadingEntry i j) : relation A lead j = 0 := by
  have hcolumn : ∀ r, A r j • Pi.single (lead r) (1 : ℚ) =
      if r = i then (Pi.single j 1 : Fin n → ℚ) else 0 := by
    intro r
    rw [eq_ite_of_isLeadingEntry hA hj r]
    split
    · rename_i hr
      rw [hr, h.eq_of_isLeadingEntry hj, one_smul]
    · rw [zero_smul]
  rw [relation, Finset.sum_congr rfl fun r _ => hcolumn r, Finset.sum_ite_eq',
    if_pos (Finset.mem_univ i), sub_self]

theorem relation_apply_free (h : Leads A lead) (j : Fin n) {c : Fin n}
    (hc : ∀ i, ¬A.IsLeadingEntry i c) : relation A lead j c = if c = j then 1 else 0 := by
  have hzero : ∀ r, (if lead r = c then A r j else 0) = 0 := by
    intro r
    split
    · rename_i hr
      by_contra hne
      have hentry := h r fun hrow => hne (congrFun hrow j)
      exact hc r (hr ▸ hentry)
    · rfl
  rw [relation_apply, Finset.sum_congr rfl fun r _ => hzero r, Finset.sum_const_zero, sub_zero]

theorem relation_apply_pivot (hA : A.IsReducedRowEchelon) (h : Leads A lead) {j c : Fin n}
    {r : Fin m} (hc : A.IsLeadingEntry r c) (hne : c ≠ j) : relation A lead j c = -A r j := by
  have hsum : ∑ i, (if lead i = c then A i j else 0) = A r j := by
    rw [Finset.sum_eq_single r]
    · rw [if_pos (h.eq_of_isLeadingEntry hc)]
    · intro i _ hi
      split
      · rename_i hlead
        by_contra hentry
        have hleading := h i fun hrow => hentry (congrFun hrow j)
        exact hi (row_unique hA hc (hlead ▸ hleading))
      · rfl
    · exact fun hr => absurd (Finset.mem_univ r) hr
  rw [relation_apply, if_neg hne, hsum, zero_sub]

section Basis

variable {free : Fin k → Fin n}

theorem linearIndependent_relation (h : Leads A lead) (hinjective : Function.Injective free)
    (hfree : ∀ l i, ¬A.IsLeadingEntry i (free l)) :
    LinearIndependent ℚ fun l => relation A lead (free l) := by
  rw [Fintype.linearIndependent_iff]
  intro g hg l
  have hentry := congrFun hg (free l)
  simp only [Finset.sum_apply, Pi.smul_apply, relation_apply_free h _ (hfree l), smul_eq_mul,
    hinjective.eq_iff, mul_ite, mul_one, mul_zero, Finset.sum_ite_eq, Finset.mem_univ, if_true,
    Pi.zero_apply] at hentry
  exact hentry

theorem span_relation (hA : A.IsReducedRowEchelon) (h : Leads A lead)
    (hcover : ∀ j, (∀ i, ¬A.IsLeadingEntry i j) → ∃ l, free l = j) :
    Submodule.span ℚ (Set.range fun l => relation A lead (free l)) = LinearMap.ker A.mulVecLin := by
  apply le_antisymm
  · rw [Submodule.span_le]
    rintro _ ⟨l, rfl⟩
    exact mulVec_relation hA h (free l)
  · intro x hx
    rw [eq_sum_relation A lead hx]
    refine Submodule.sum_mem _ fun j _ => Submodule.smul_mem _ _ ?_
    by_cases hj : ∃ i, A.IsLeadingEntry i j
    · obtain ⟨i, hi⟩ := hj
      rw [relation_of_isLeadingEntry hA h hi]
      exact Submodule.zero_mem _
    · obtain ⟨l, hl⟩ := hcover j (not_exists.mp hj)
      exact Submodule.subset_span ⟨l, congrArg (relation A lead) hl⟩

end Basis

end MatrixCalculator.ReducedForm
