import Mathlib
import MatrixCalculator.Proofs.Reductions

namespace MatrixCalculator.Grid

open Arithmetic

variable {m n : Nat}

/-- The pivots stand in the first rows, one in each, in columns before `c` that go to the right. -/
structure Staircase (c : Nat) (pivots : List (Fin m × Fin n)) : Prop where
  row_eq : ∀ (r : Nat) (p : Fin m × Fin n), pivots[r]? = some p → p.1.val = r
  increasing : pivots.Pairwise fun p q => p.2 < q.2
  before : ∀ p ∈ pivots, p.2.val < c

namespace Staircase

variable {c : Nat} {pivots : List (Fin m × Fin n)}

theorem nil (c : Nat) : Staircase c ([] : List (Fin m × Fin n)) := by
  constructor
  · simp
  · exact .nil
  · simp

theorem succ (h : Staircase c pivots) : Staircase (c + 1) pivots :=
  ⟨h.row_eq, h.increasing, fun p hp => Nat.lt_succ_of_lt (h.before p hp)⟩

theorem concat (h : Staircase c pivots) {start : Fin m} {col : Fin n}
    (hstart : start.val = pivots.length) (hcol : col.val = c) :
    Staircase (c + 1) (pivots ++ [(start, col)]) := by
  constructor
  · intro r p hp
    rcases lt_trichotomy r pivots.length with hr | rfl | hr
    · rw [List.getElem?_append_left hr] at hp
      exact h.row_eq r p hp
    · rw [List.getElem?_concat_length] at hp
      rw [← Option.some.inj hp]
      exact hstart
    · rw [List.getElem?_eq_none (by simpa using hr)] at hp
      contradiction
  · apply List.pairwise_append.mpr
    refine ⟨h.increasing, List.pairwise_singleton _ _, ?_⟩
    intro p hp q hq
    rw [List.mem_singleton.mp hq]
    exact Fin.lt_def.mpr (hcol ▸ h.before p hp)
  · intro p hp
    rcases List.mem_append.mp hp with hp | hp
    · exact Nat.lt_succ_of_lt (h.before p hp)
    · rw [List.mem_singleton.mp hp]
      exact Nat.lt_succ_of_le hcol.le

theorem getElem?_row (h : Staircase c pivots) {p : Fin m × Fin n} (hp : p ∈ pivots) :
    pivots[p.1.val]? = some p := by
  obtain ⟨r, hr⟩ := List.mem_iff_getElem?.mp hp
  rwa [h.row_eq r p hr]

theorem row_lt (h : Staircase c pivots) {p : Fin m × Fin n} (hp : p ∈ pivots) :
    p.1.val < pivots.length :=
  (List.getElem?_eq_some_iff.mp (h.getElem?_row hp)).1

theorem exists_col (h : Staircase c pivots) {i : Fin m} (hi : i.val < pivots.length) :
    ∃ j, (i, j) ∈ pivots := by
  refine ⟨(pivots.get ⟨i, hi⟩).2, ?_⟩
  have hrow : (pivots.get ⟨i, hi⟩).1 = i := Fin.ext (h.row_eq i _ (by simp))
  have hmem := List.get_mem pivots ⟨i, hi⟩
  rwa [← Prod.mk.eta (p := pivots.get ⟨i, hi⟩), hrow] at hmem

theorem col_lt (h : Staircase c pivots) {p q : Fin m × Fin n} (hp : p ∈ pivots) (hq : q ∈ pivots)
    (hlt : p.1 < q.1) : p.2 < q.2 := by
  obtain ⟨hr, hpr⟩ := List.getElem?_eq_some_iff.mp (h.getElem?_row hp)
  obtain ⟨hs, hqs⟩ := List.getElem?_eq_some_iff.mp (h.getElem?_row hq)
  have hpair := List.pairwise_iff_getElem.mp h.increasing p.1 q.1 hr hs hlt
  rwa [hpr, hqs] at hpair

theorem length_le (h : Staircase c pivots) : pivots.length ≤ m := by
  by_contra hlt
  have hm : m < pivots.length := not_le.mp hlt
  have hrow := h.row_eq m (pivots.get ⟨m, hm⟩) (by simp)
  have hlast := (pivots.get ⟨m, hm⟩).1.isLt
  omega

end Staircase

variable {α : Type} [Arithmetic α] {tolerance : α}

/-- The laws of an arithmetic that the shape of a reduction rests on. They hold of results that are
`fine`, and a result that is not fine stays so. -/
structure Lawful (fine : α → Prop) : Prop where
  isZero_zero : isZero (0 : α) = true
  isZero_one : isZero (1 : α) = false
  fine_of_div : ∀ {x y : α}, fine (x / y) → fine x
  fine_of_sub : ∀ {x y z : α}, fine (x - y * z) → fine x
  div_self : ∀ {x : α}, isZero x = false → fine (x / x) → x / x = 1
  zero_div : ∀ {x y : α}, isZero x = true → isZero y = false → fine (x / y) → isZero (x / y) = true
  sub_mul_one : ∀ {x : α}, fine (x - x * 1) → isZero (x - x * 1) = true
  zero_sub_zero : ∀ {x y z : α}, isZero x = true → isZero z = true → fine (x - y * z) →
    isZero (x - y * z) = true
  one_sub_zero : ∀ {y z : α}, isZero z = true → fine (1 - y * z) → 1 - y * z = 1

section Pivoted

variable {fine : α → Prop} (laws : Lawful fine) {a : Grid α m n} {start p : Fin m} {col j : Fin n}

include laws

theorem fine_of_pivoted (h : ∀ i, fine ((a.pivoted start p col).get i j)) (i : Fin m) :
    fine (a.get i j) := by
  have hother : ∀ r, r ≠ start → fine ((a.swapRows start p).get r j) := by
    intro r hr
    have hfine := h r
    rcases a.get_pivoted_cases p col j hr with ⟨hentry, -⟩ | hentry
    · rwa [hentry] at hfine
    · rw [hentry] at hfine
      exact laws.fine_of_sub hfine
  by_cases hp : i = p
  · have hfine := h start
    rw [get_pivoted_start, ← hp] at hfine
    exact laws.fine_of_div hfine
  · by_cases hstart : i = start
    · have hne : p ≠ start := fun hps => hp (hstart.trans hps.symm)
      have hfine := hother p hne
      rwa [get_swapRows, if_neg hne, if_pos rfl, ← hstart] at hfine
    · have hfine := hother i hstart
      rwa [get_swapRows, if_neg hstart, if_neg hp] at hfine

theorem pivoted_column (hpivot : isZero (a.get p col) = false)
    (h : ∀ i, fine ((a.pivoted start p col).get i col)) :
    (a.pivoted start p col).get start col = 1 ∧
      ∀ i, i ≠ start → isZero ((a.pivoted start p col).get i col) = true := by
  have hone : a.get p col / a.get p col = 1 := by
    have hfine := h start
    rw [get_pivoted_start] at hfine
    exact laws.div_self hpivot hfine
  constructor
  · rw [get_pivoted_start, hone]
  · intro i hi
    rcases a.get_pivoted_cases p col col hi with ⟨hentry, hzero⟩ | hentry
    · rw [hentry]
      exact hzero
    · have hfine := h i
      rw [hentry, hone] at hfine ⊢
      exact laws.sub_mul_one hfine

theorem isZero_quotient (hpivot : isZero (a.get p col) = false)
    (h : ∀ i, fine ((a.pivoted start p col).get i j)) (hp : isZero (a.get p j) = true) :
    isZero (a.get p j / a.get p col) = true := by
  have hfine := h start
  rw [get_pivoted_start] at hfine
  exact laws.zero_div hp hpivot hfine

/-- In a column where both rows that move have a zero, zeros stay. -/
theorem isZero_pivoted (hpivot : isZero (a.get p col) = false)
    (h : ∀ i, fine ((a.pivoted start p col).get i j)) (hstart : isZero (a.get start j) = true)
    (hp : isZero (a.get p j) = true) {i : Fin m} (hzero : isZero (a.get i j) = true) :
    isZero ((a.pivoted start p col).get i j) = true := by
  have hquotient := isZero_quotient laws hpivot h hp
  by_cases hi : i = start
  · rw [hi, get_pivoted_start]
    exact hquotient
  · have hswap : isZero ((a.swapRows start p).get i j) = true := by
      rw [get_swapRows, if_neg hi]
      split
      · exact hstart
      · exact hzero
    rcases a.get_pivoted_cases p col j hi with ⟨hentry, -⟩ | hentry
    · rwa [hentry]
    · have hfine := h i
      rw [hentry] at hfine ⊢
      exact laws.zero_sub_zero hswap hquotient hfine

theorem pivoted_eq_one (hpivot : isZero (a.get p col) = false)
    (h : ∀ i, fine ((a.pivoted start p col).get i j)) (hp : isZero (a.get p j) = true) {i : Fin m}
    (hi : i ≠ start) (hip : i ≠ p) (hone : a.get i j = 1) :
    (a.pivoted start p col).get i j = 1 := by
  have hquotient := isZero_quotient laws hpivot h hp
  have hswap : (a.swapRows start p).get i j = 1 := by
    rw [get_swapRows, if_neg hi, if_neg hip, hone]
  rcases a.get_pivoted_cases p col j hi with ⟨hentry, -⟩ | hentry
  · rw [hentry, hswap]
  · have hfine := h i
    rw [hentry, hswap] at hfine ⊢
    exact laws.one_sub_zero hquotient hfine

end Pivoted

/-- In front of column `c`: pivots are ones and the only entries of their columns, rows have zeros
in front of their pivot, and rows without a pivot have none but zeros before column `c`. -/
structure Echelon (c : Nat) (s : Reduction α m n) : Prop extends Staircase c s.pivots where
  one : ∀ p ∈ s.pivots, s.grid.get p.1 p.2 = 1
  zero_of_ne : ∀ p ∈ s.pivots, ∀ i, i ≠ p.1 → isZero (s.grid.get i p.2) = true
  zero_of_lt : ∀ p ∈ s.pivots, ∀ j, j < p.2 → isZero (s.grid.get p.1 j) = true
  zero_below : ∀ (i : Fin m) (j : Fin n), s.pivots.length ≤ i → j < c →
    isZero (s.grid.get i j) = true

theorem get_clearFrom (a : Grid α m n) (start i : Fin m) (col j : Fin n) :
    (a.clearFrom start col).get i j = if start ≤ i ∧ j = col then 0 else a.get i j := by
  rw [clearFrom, get_ofFn]

theorem get_clearFrom_of_ne (a : Grid α m n) (start i : Fin m) {col j : Fin n} (h : j ≠ col) :
    (a.clearFrom start col).get i j = a.get i j := by
  rw [get_clearFrom, if_neg fun hcond => h hcond.2]

variable {fine : α → Prop}

theorem Echelon.skip (laws : Lawful fine) {s : Reduction α m n} {col : Fin n} (h : Echelon col s)
    (hlt : s.pivots.length < m) :
    Echelon (col + 1) { s with grid := s.grid.clearFrom ⟨s.pivots.length, hlt⟩ col } := by
  have hne : ∀ p ∈ s.pivots, p.2 ≠ col := fun p hp => (Fin.lt_def.mpr (h.before p hp)).ne
  constructor
  · exact h.toStaircase.succ
  · intro p hp
    rw [get_clearFrom_of_ne _ _ _ (hne p hp)]
    exact h.one p hp
  · intro p hp i hi
    rw [get_clearFrom_of_ne _ _ _ (hne p hp)]
    exact h.zero_of_ne p hp i hi
  · intro p hp j hj
    rw [get_clearFrom_of_ne _ _ _ (hj.trans (Fin.lt_def.mpr (h.before p hp))).ne]
    exact h.zero_of_lt p hp j hj
  · intro i j hi hj
    rw [get_clearFrom]
    split
    · exact laws.isZero_zero
    · rename_i hcond
      apply h.zero_below i j hi
      have hjc : j ≠ col := fun heq => hcond ⟨Fin.le_def.mpr hi, heq⟩
      have hval := Fin.val_ne_of_ne hjc
      omega

theorem Echelon.pivot (laws : Lawful fine) {s : Reduction α m n} {col : Fin n} (h : Echelon col s)
    (hlt : s.pivots.length < m) {p : Fin m} (hp : s.pivots.length ≤ p)
    (hpivot : isZero (s.grid.get p col) = false)
    (hfine : ∀ i (j : Fin n), j.val < col + 1 →
      fine ((s.grid.pivoted ⟨s.pivots.length, hlt⟩ p col).get i j)) :
    Echelon (col + 1) ⟨s.grid.pivoted ⟨s.pivots.length, hlt⟩ p col,
      s.pivots ++ [(⟨s.pivots.length, hlt⟩, col)]⟩ := by
  have hcolumn := pivoted_column laws hpivot fun i => hfine i col (Nat.lt_succ_self _)
  have hfront : ∀ j : Fin n, j.val < col → ∀ i,
      fine ((s.grid.pivoted ⟨s.pivots.length, hlt⟩ p col).get i j) :=
    fun j hj i => hfine i j (Nat.lt_succ_of_lt hj)
  -- Both rows that move have zeros before the column.
  have hzero : ∀ (j : Fin n) (i : Fin m), j.val < col → isZero (s.grid.get i j) = true →
      isZero ((s.grid.pivoted ⟨s.pivots.length, hlt⟩ p col).get i j) = true := fun j i hj =>
    isZero_pivoted laws hpivot (hfront j hj)
      (h.zero_below ⟨s.pivots.length, hlt⟩ j (Nat.le_refl _) hj) (h.zero_below p j hp hj)
  constructor
  · exact h.toStaircase.concat rfl rfl
  · intro q hq
    rcases List.mem_append.mp hq with hq | hq
    · have hrow := h.row_lt hq
      have hcol := h.before q hq
      refine pivoted_eq_one laws hpivot (hfront q.2 hcol) (h.zero_below p q.2 hp hcol) ?_ ?_
        (h.one q hq)
      · exact fun heq => absurd (congrArg Fin.val heq) hrow.ne
      · exact fun heq => absurd (congrArg Fin.val heq) (hrow.trans_le hp).ne
    · rw [List.mem_singleton.mp hq]
      exact hcolumn.1
  · intro q hq i hi
    rcases List.mem_append.mp hq with hq | hq
    · exact hzero q.2 i (h.before q hq) (h.zero_of_ne q hq i hi)
    · rw [List.mem_singleton.mp hq] at hi ⊢
      exact hcolumn.2 i hi
  · intro q hq j hj
    rcases List.mem_append.mp hq with hq | hq
    · exact hzero j q.1 ((Fin.lt_def.mp hj).trans (h.before q hq)) (h.zero_of_lt q hq j hj)
    · rw [List.mem_singleton.mp hq] at hj ⊢
      exact hzero j _ hj (h.zero_below _ j (Nat.le_refl _) hj)
  · intro i j hi hj
    rw [List.length_append, List.length_singleton] at hi
    rcases Nat.lt_succ_iff_lt_or_eq.mp hj with hj | hj
    · exact hzero j i hj (h.zero_below i j (by omega) hj)
    · rw [Fin.ext hj]
      apply hcolumn.2 i
      intro heq
      have hval := congrArg Fin.val heq
      dsimp only at hval
      omega

/-- As long as the columns before `c` are fine, the reduction has its shape. -/
theorem echelon_of_turns (laws : Lawful fine) (col : Fin n) {s s' : Reduction α m n}
    (h : (∀ i (j : Fin n), j.val < col → fine (s.grid.get i j)) → Echelon col s)
    (hturns : Turns tolerance s col s')
    (hfine : ∀ i (j : Fin n), j.val < col + 1 → fine (s'.grid.get i j)) : Echelon (col + 1) s' := by
  cases hturns with
  | full hfull =>
    have hs := h fun i j hj => hfine i j (Nat.lt_succ_of_lt hj)
    refine ⟨hs.toStaircase.succ, hs.one, hs.zero_of_ne, hs.zero_of_lt, fun i j hi _ => ?_⟩
    have := i.isLt
    omega
  | skip hlt hpivot =>
    apply Echelon.skip laws
    apply h
    intro i j hj
    have hentry := hfine i j (Nat.lt_succ_of_lt hj)
    rwa [get_clearFrom_of_ne _ _ _ (Fin.ne_of_lt hj)] at hentry
  | pivot hlt hpivot hzero =>
    apply Echelon.pivot laws _ hlt (s.grid.le_pivotRow ⟨_, hlt⟩ col) hzero hfine
    apply h
    intro i j hj
    exact fine_of_pivoted laws (fun r => hfine r j (Nat.lt_succ_of_lt hj)) i

/-- A run that ends with fine entries ends in echelon form. -/
theorem echelon_of_run (laws : Lawful fine) {a : Grid α m n} {s : Reduction α m n}
    (h : (List.finRange n).foldlM (reduceStep tolerance) ⟨a, []⟩ = .ok s)
    (hfine : ∀ i j, fine (s.grid.get i j)) : Echelon n s := by
  have hkeep := columns_keep
    (P := fun c (s : Reduction α m n) =>
      (∀ i (j : Fin n), j.val < c → fine (s.grid.get i j)) → Echelon c s)
    (fun col _ _ hs hturns => echelon_of_turns laws col hs hturns) h ?_
  · exact hkeep fun i j _ => hfine i j
  · intro _
    refine ⟨.nil 0, ?_, ?_, ?_, ?_⟩
    · simp
    · simp
    · simp
    · exact fun i j _ hj => absurd hj (Nat.not_lt_zero j)

theorem Echelon.cleaned (laws : Lawful fine) {c : Nat} {s : Reduction α m n} (h : Echelon c s)
    (hone : negligible tolerance (1 : α) = false) : Echelon c (s.cleaned tolerance) := by
  have hzero : ∀ {i j}, isZero (s.grid.get i j) = true →
      isZero ((s.cleaned tolerance).grid.get i j) = true := by
    intro i j hij
    rw [Reduction.get_cleaned]
    split
    · exact laws.isZero_zero
    · exact hij
  refine ⟨h.toStaircase, fun p hp => ?_, fun p hp i hi => hzero (h.zero_of_ne p hp i hi),
    fun p hp j hj => hzero (h.zero_of_lt p hp j hj),
    fun i j hi hj => hzero (h.zero_below i j hi hj)⟩
  rw [Reduction.get_cleaned, h.one p hp, if_neg (Bool.eq_false_iff.mp hone)]

/-- The number of rows that have an entry other than zero. -/
def nonzeroRows (a : Grid α m n) : Nat :=
  (Finset.univ.filter fun i => ∃ j, isZero (a.get i j) = false).card

theorem Echelon.exists_nonzero_iff (laws : Lawful fine) {s : Reduction α m n} (h : Echelon n s)
    (i : Fin m) : (∃ j, isZero (s.grid.get i j) = false) ↔ i.val < s.pivots.length := by
  constructor
  · rintro ⟨j, hj⟩
    by_contra hlt
    rw [h.zero_below i j (not_lt.mp hlt) j.isLt] at hj
    contradiction
  · intro hlt
    obtain ⟨j, hj⟩ := h.exists_col hlt
    refine ⟨j, ?_⟩
    rw [h.one _ hj]
    exact laws.isZero_one

theorem Echelon.nonzeroRows_eq (laws : Lawful fine) {s : Reduction α m n} (h : Echelon n s) :
    s.grid.nonzeroRows = s.pivots.length := by
  rw [nonzeroRows]
  simp only [h.exists_nonzero_iff laws]
  rw [Fin.card_filter_val_lt, min_eq_right h.length_le]

end MatrixCalculator.Grid
