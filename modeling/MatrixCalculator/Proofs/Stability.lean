import Mathlib
import MatrixCalculator.Proofs.ExactReduction
import MatrixCalculator.Proofs.Solving

namespace MatrixCalculator

namespace Grid

open Arithmetic

variable {m n : Nat} {t : ℚ} {r s : Reduction ℚ m n}

theorem not_zeroCounts_rat (ht : 0 < t) : ¬ZeroCounts t := by
  rintro ⟨x, hx, hzero⟩
  exact ne_zero_of_not_negligible ht (Bool.eq_false_iff.mp hx) (isZero_iff.mp hzero)

theorem negligible_one_rat (hone : t ≤ 1) : negligible t 1 = false := by
  rw [Bool.eq_false_iff, ne_eq, negligible_iff, abs_one]
  exact not_lt.mpr hone

/-- A reduced form without entries that the tolerance would take for zero. -/
structure Settled (t : ℚ) (r : Reduction ℚ m n) : Prop extends Echelon n r where
  counts : ∀ i j, r.grid.get i j ≠ 0 → t ≤ |r.grid.get i j|

theorem Settled.of_run (hone : t ≤ 1) {a : Grid ℚ m n}
    (h : (List.finRange n).foldlM (reduceStep t) ⟨a, []⟩ = .ok s) : Settled t (s.cleaned t) := by
  refine ⟨?_, fun i j hne => ?_⟩
  · apply Echelon.cleaned lawful_rat _ (negligible_one_rat hone)
    exact echelon_of_run lawful_rat h fun _ _ => trivial
  · rw [Reduction.get_cleaned] at hne ⊢
    split at hne
    · exact absurd rfl hne
    · rename_i hcounts
      rw [if_neg hcounts]
      rw [negligible_iff] at hcounts
      exact not_lt.mp hcounts

theorem exists_settled (ht : 0 < t) (hone : t ≤ 1) (a : Grid ℚ m n) :
    ∃ r, a.rowReduce t = .ok r ∧ Settled t r := by
  obtain ⟨s, hrun, -⟩ := exists_reduceRun (not_zeroCounts_rat ht) (List.finRange n) ⟨a, []⟩
  exact ⟨s.cleaned t, rowReduce_of_run hrun, .of_run hone hrun⟩

theorem pivotRow_eq_start {a : Grid ℚ m n} {start : Fin m} {col : Fin n}
    (h : ∀ i, |a.get i col| ≤ |a.get start col|) : a.pivotRow start col = start := by
  rw [pivotRow_eq]
  refine List.foldlRecOn (motive := fun best => best = start) _ _ rfl fun best hbest i _ => ?_
  rw [hbest, better, if_neg]
  rintro ⟨-, hbelow⟩
  exact (h i).not_gt (of_decide_eq_true hbelow)

theorem pivoted_eq_self {a : Grid ℚ m n} {p : Fin m} {col : Fin n} (hone : a.get p col = 1)
    (hzero : ∀ i, i ≠ p → a.get i col = 0) : a.pivoted p p col = a := by
  apply Grid.ext
  intro i j
  by_cases hi : i = p
  · rw [hi, get_pivoted_start, hone, div_one]
  · have hstay : ∀ j, (a.swapRows p p).get i j = a.get i j := by
      intro j
      rw [get_swapRows, if_neg hi, if_neg hi]
    rw [get_pivoted, if_neg hi, hstay, hstay, hzero i hi, if_pos (isZero_iff.mpr rfl)]

namespace Echelon

variable {start : Fin m} {col : Fin n}

theorem pivotRow_pivot (h : Echelon n r) (hpivot : (start, col) ∈ r.pivots) :
    r.grid.pivotRow start col = start := by
  apply pivotRow_eq_start
  intro i
  rw [h.one _ hpivot, abs_one]
  by_cases hi : i = start
  · rw [hi, h.one _ hpivot, abs_one]
  · rw [isZero_iff.mp (h.zero_of_ne _ hpivot i hi), abs_zero]
    exact zero_le_one

theorem candidate_pivot (h : Echelon n r) (hpivot : (start, col) ∈ r.pivots) :
    r.grid.candidate start col = 1 := by
  rw [candidate, h.pivotRow_pivot hpivot, h.one _ hpivot]

theorem candidate_free (h : Echelon n r)
    (hahead : ∀ p ∈ r.pivots, start ≤ p.1 → col < p.2) : r.grid.candidate start col = 0 := by
  have hle := r.grid.le_pivotRow start col
  by_cases hlt : (r.grid.pivotRow start col).val < r.pivots.length
  · obtain ⟨j, hj⟩ := h.exists_col hlt
    exact isZero_iff.mp (h.zero_of_lt _ hj col (hahead _ hj hle))
  · exact isZero_iff.mp (h.zero_below _ col (not_lt.mp hlt) col.isLt)

end Echelon

/-- A reduction of a reduced form, at column `c`: nothing has changed, and the pivots before the
column are found. -/
structure Retraces (r : Reduction ℚ m n) (c : Nat) (s : Reduction ℚ m n) : Prop where
  grid_eq : s.grid = r.grid
  ahead : ∃ rest, s.pivots ++ rest = r.pivots ∧ ∀ p ∈ rest, c ≤ p.2.val

theorem Staircase.mem_rest {c : Nat} {found rest pivots : List (Fin m × Fin n)}
    (h : Staircase c pivots) (hrest : found ++ rest = pivots) {p : Fin m × Fin n}
    (hp : p ∈ pivots) (hrow : found.length ≤ p.1) : p ∈ rest := by
  have hplace := h.getElem?_row hp
  rw [← hrest, List.getElem?_append_right hrow] at hplace
  exact List.mem_of_getElem? hplace

/-- The next column either has the next pivot, or has nothing from the row of this pivot on. -/
theorem Retraces.next {col : Fin n} (h : Echelon n r) (hs : Retraces r col s)
    (hlt : s.pivots.length < m) :
    ((⟨s.pivots.length, hlt⟩, col) ∈ r.pivots ∧
      ∃ rest, s.pivots ++ [(⟨s.pivots.length, hlt⟩, col)] ++ rest = r.pivots ∧
        ∀ p ∈ rest, col.val < p.2.val) ∨
    (r.grid.candidate ⟨s.pivots.length, hlt⟩ col = 0 ∧
      ∃ rest, s.pivots ++ rest = r.pivots ∧ ∀ p ∈ rest, col.val < p.2.val) := by
  have hfree : ∀ rest, s.pivots ++ rest = r.pivots → (∀ p ∈ rest, col.val < p.2.val) →
      r.grid.candidate ⟨s.pivots.length, hlt⟩ col = 0 := by
    intro rest hrest hahead
    exact h.candidate_free fun p hp hrow => hahead p (h.mem_rest hrest hp hrow)
  obtain ⟨rest, hrest, hahead⟩ := hs.ahead
  cases rest with
  | nil => exact .inr ⟨hfree [] hrest (by simp), [], hrest, by simp⟩
  | cons q rest =>
    have hrow : q.1.val = s.pivots.length := h.row_eq _ q (by rw [← hrest]; simp)
    have hlater : ∀ p ∈ rest, q.2.val < p.2.val := by
      have hincreasing := h.increasing
      rw [← hrest, List.pairwise_append, List.pairwise_cons] at hincreasing
      exact hincreasing.2.1.1
    rcases (hahead q List.mem_cons_self).eq_or_lt with heq | hcol
    · have hq : q = (⟨s.pivots.length, hlt⟩, col) := Prod.ext (Fin.ext hrow) (Fin.ext heq.symm)
      rw [hq] at hrest
      refine .inl ⟨by rw [← hrest]; simp, rest, by rw [← hrest]; simp, fun p hp => ?_⟩
      exact heq ▸ hlater p hp
    · have hall : ∀ p ∈ q :: rest, col.val < p.2.val :=
        List.forall_mem_cons.mpr ⟨hcol, fun p hp => hcol.trans (hlater p hp)⟩
      exact .inr ⟨hfree _ hrest hall, q :: rest, hrest, hall⟩

/-- A column of a settled form changes nothing, whichever turn it takes. -/
theorem Retraces.turns (h : Settled t r) (hone : t ≤ 1) {col : Fin n} {s' : Reduction ℚ m n}
    (hs : Retraces r col s) (hturns : Turns t s col s') : Retraces r (col + 1) s' := by
  cases hturns with
  | full hfull =>
    -- There are no more pivots than rows, so all of them are found.
    obtain ⟨rest, hrest, -⟩ := hs.ahead
    have hlength := congrArg List.length hrest
    have hle := h.length_le
    rw [List.length_append] at hlength
    obtain rfl : rest = [] := List.length_eq_zero_iff.mp (by omega)
    exact ⟨hs.grid_eq, [], hrest, by simp⟩
  | skip hlt hpivot =>
    rw [hs.grid_eq] at hpivot
    rcases hs.next h.toEchelon hlt with ⟨hmem, -⟩ | ⟨hzero, hrest⟩
    · rw [h.candidate_pivot hmem, negligible_one_rat hone] at hpivot
      contradiction
    · refine ⟨?_, hrest⟩
      dsimp only
      rw [hs.grid_eq, clearFrom_eq_self hzero]
  | pivot hlt hpivot hzero =>
    rw [hs.grid_eq] at hzero
    rcases hs.next h.toEchelon hlt with ⟨hmem, hrest⟩ | ⟨hcandidate, -⟩
    · refine ⟨?_, hrest⟩
      dsimp only
      rw [hs.grid_eq, h.pivotRow_pivot hmem]
      exact pivoted_eq_self (h.one _ hmem) fun i hi => isZero_iff.mp (h.zero_of_ne _ hmem i hi)
    · exact absurd hcandidate (isZero_eq_false_iff.mp hzero)

/-- A settled form is its own reduced form, with the same pivots. -/
theorem Settled.rowReduce_eq (h : Settled t r) (ht : 0 < t) (hone : t ≤ 1) :
    r.grid.rowReduce t = .ok r := by
  obtain ⟨s, hrun, -⟩ := exists_reduceRun (not_zeroCounts_rat ht) (List.finRange n) ⟨r.grid, []⟩
  have hretraces : Retraces r n s := by
    refine columns_keep (P := Retraces r) ?_ hrun ⟨rfl, r.pivots, rfl, fun _ _ => Nat.zero_le _⟩
    exact fun col _ _ hs hturns => hs.turns h hone hturns
  obtain ⟨hgrid, rest, hrest, hahead⟩ := hretraces
  -- Behind the last column there is no pivot left to be found.
  obtain rfl : rest = [] := by
    apply List.eq_nil_iff_forall_not_mem.mpr
    exact fun p hp => (hahead p hp).not_gt p.2.isLt
  have hs : s = r := by
    obtain ⟨grid, pivots⟩ := s
    dsimp only at hgrid hrest
    rw [hgrid, ← List.append_nil pivots, hrest]
  rw [rowReduce_of_run hrun, hs, Reduction.cleaned_eq_self h.counts]

end Grid

namespace DenseMatrix

variable {t : ℚ}

/-- At every tolerance up to one the columns of the pivots go to the right, the row of a pivot
begins with it, a pivot is a one and alone in its column, the rows behind those of the pivots are
zero, and every entry other than zero counts. -/
theorem rref_reduced (a : DenseMatrix ℚ) (ht : 0 < t) (hone : t ≤ 1) :
    ∃ (g : Grid ℚ a.rows a.cols) (pivots : List (Fin a.rows × Fin a.cols)),
      a.grid.rowReduce t = .ok ⟨g, pivots⟩ ∧
      a.rref t = .ok (g.dense a.rows_pos a.cols_pos) ∧
      (pivots.map Prod.snd).Pairwise (· < ·) ∧
      (∀ r c, (pivots.map Prod.snd)[r]? = some c → ∃ hr : r < a.rows,
        g.get ⟨r, hr⟩ c = 1 ∧ (∀ j < c, g.get ⟨r, hr⟩ j = 0) ∧
        ∀ i, i ≠ ⟨r, hr⟩ → g.get i c = 0) ∧
      (∀ i j, pivots.length ≤ i.val → g.get i j = 0) ∧
      (∀ i j, g.get i j ≠ 0 → t ≤ |g.get i j|) ∧
      g.toMatrix.IsReducedRowEchelon := by
  obtain ⟨⟨g, pivots⟩, hreduce, h⟩ := Grid.exists_settled ht hone a.grid
  refine ⟨g, pivots, hreduce, rref_of_rowReduce hreduce, ?_, ?_, ?_, h.counts,
    h.isReducedRowEchelon⟩
  · exact List.pairwise_map.mpr h.increasing
  · intro r c hc
    rw [List.getElem?_map, Option.map_eq_some_iff] at hc
    obtain ⟨⟨i, c⟩, hplace, rfl⟩ := hc
    obtain rfl : i.val = r := h.row_eq r _ hplace
    have hmem := List.mem_of_getElem? hplace
    refine ⟨i.isLt, h.one _ hmem, fun j hj => ?_, fun k hk => ?_⟩
    · exact Grid.isZero_iff.mp (h.zero_of_lt _ hmem j hj)
    · exact Grid.isZero_iff.mp (h.zero_of_ne _ hmem k hk)
  · intro i j hi
    exact Grid.isZero_iff.mp (h.zero_below i j hi j.isLt)

/-- The first column is emptied and the small entry of the first row wiped out. -/
theorem rref_reduced_emptied :
    ∃ g pivots,
      Grid.rowReduce #v[#v[(1 / 4 : ℚ), 1, 1 / 4], #v[1 / 4, 3, 0]] (1 / 2) = .ok ⟨g, pivots⟩ ∧
      g = #v[#v[0, 1, 0], #v[0, 0, 0]] ∧ pivots.map Prod.snd = [1] ∧
      g.toMatrix.IsReducedRowEchelon := by
  have hrun : (Grid.rowReduce #v[#v[(1 / 4 : ℚ), 1, 1 / 4], #v[1 / 4, 3, 0]]
      (1 / 2)).toOption.map (fun r => (r.grid, r.pivots.map Prod.snd)) =
        some (#v[#v[0, 1, 0], #v[0, 0, 0]], [1]) := by
    decide +kernel
  obtain ⟨g, pivots, hreduce, -, -, -, -, -, hreduced⟩ := rref_reduced
    (Grid.dense (by decide) (by decide) #v[#v[(1 / 4 : ℚ), 1, 1 / 4], #v[1 / 4, 3, 0]])
    (t := 1 / 2) (by norm_num) (by norm_num)
  rw [grid_dense] at hreduce
  rw [hreduce] at hrun
  obtain ⟨hg, hpivots⟩ := Prod.mk.inj (Option.some.inj hrun)
  exact ⟨g, pivots, hreduce, hg, hpivots, hreduced⟩

/-- At every tolerance up to one a reduced form is its own reduced form and keeps its rank. -/
theorem rref_idempotent (a : DenseMatrix ℚ) (ht : 0 < t) (hone : t ≤ 1) :
    ∃ g r, a.rref t = .ok g ∧ a.rank t = .ok r ∧ g.rref t = .ok g ∧ g.rank t = .ok r := by
  obtain ⟨r, hreduce, hsettled⟩ := Grid.exists_settled ht hone a.grid
  have hagain := hsettled.rowReduce_eq ht hone
  rw [← grid_dense a.rows_pos a.cols_pos r.grid] at hagain
  exact ⟨r.grid.dense a.rows_pos a.cols_pos, r.pivots.length, rref_of_rowReduce hreduce,
    rank_of_rowReduce hreduce, rref_of_rowReduce hagain, rank_of_rowReduce hagain⟩

/-- A matrix that the tolerance takes for one of rank one. -/
theorem rref_idempotent_emptied :
    ∃ g, (Grid.dense (by decide) (by decide) #v[#v[(1 / 4 : ℚ), 1], #v[1 / 4, 3]]).rref (1 / 2) =
        .ok g ∧ g.rref (1 / 2) = .ok g ∧ g.rank (1 / 2) = .ok 1 := by
  have hrank : ((Grid.dense (by decide) (by decide) #v[#v[(1 / 4 : ℚ), 1], #v[1 / 4, 3]]).rank
      (1 / 2)).toOption = some 1 := by
    decide +kernel
  obtain ⟨g, r, hg, hr, hagain, hr'⟩ := rref_idempotent
    (Grid.dense (by decide) (by decide) #v[#v[(1 / 4 : ℚ), 1], #v[1 / 4, 3]]) (t := 1 / 2)
    (by norm_num) (by norm_num)
  rw [hr] at hrank
  obtain rfl : r = 1 := Option.some.inj hrank
  exact ⟨g, hg, hagain, hr'⟩

end DenseMatrix

end MatrixCalculator
