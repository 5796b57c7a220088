import Mathlib
import MatrixCalculator.Proofs.Exact
import MatrixCalculator.Proofs.Operations

namespace MatrixCalculator.Grid

open Arithmetic

variable {α : Type} {m n k : Nat}

def columns (f : Fin k → Fin n) (a : Grid α m n) : Grid α m k := ofFn fun i j => a.get i (f j)

@[simp] theorem get_columns (f : Fin k → Fin n) (a : Grid α m n) (i : Fin m) (j : Fin k) :
    (a.columns f).get i j = a.get i (f j) := by
  simp [columns]

theorem columns_beside (a : Grid α m n) (b : Grid α m k) :
    (a.beside b).columns (Fin.castAdd k) = a :=
  Grid.ext fun i j => by simp

variable [Arithmetic α] {tolerance : α}

/-- Row `p` comes to `start`, is divided by its entry in the column and clears the column in all
other rows. -/
def pivoted (a : Grid α m n) (start p : Fin m) (col : Fin n) : Grid α m n :=
  ofFn fun i j =>
    if i = start then a.get p j / a.get p col
    else if isZero ((a.swapRows start p).get i col) then (a.swapRows start p).get i j
    else (a.swapRows start p).get i j -
      (a.swapRows start p).get i col * (a.get p j / a.get p col)

theorem get_pivoted (a : Grid α m n) (start p i : Fin m) (col j : Fin n) :
    (a.pivoted start p col).get i j =
      if i = start then a.get p j / a.get p col
      else if isZero ((a.swapRows start p).get i col) then (a.swapRows start p).get i j
      else (a.swapRows start p).get i j -
        (a.swapRows start p).get i col * (a.get p j / a.get p col) := by
  rw [pivoted, get_ofFn]

theorem get_pivoted_start (a : Grid α m n) (start p : Fin m) (col j : Fin n) :
    (a.pivoted start p col).get start j = a.get p j / a.get p col := by
  rw [get_pivoted, if_pos rfl]

/-- A row that has no entry to clear stays, and any other loses its multiple of the pivot row. -/
theorem get_pivoted_cases (a : Grid α m n) {start i : Fin m} (p : Fin m) (col j : Fin n)
    (h : i ≠ start) :
    ((a.pivoted start p col).get i j = (a.swapRows start p).get i j ∧
      isZero ((a.swapRows start p).get i col) = true) ∨
    (a.pivoted start p col).get i j = (a.swapRows start p).get i j -
      (a.swapRows start p).get i col * (a.get p j / a.get p col) := by
  rw [get_pivoted, if_neg h]
  split
  · rename_i hzero
    exact .inl ⟨rfl, hzero⟩
  · exact .inr rfl

theorem get_ite_cleared (row pivot : Vector α n) (factor : α) (j : Fin n) :
    (cleared row pivot factor).get j =
      if isZero factor then row.get j else row.get j - factor * pivot.get j := by
  unfold cleared
  split
  · rfl
  · simp [Vector.get_eq_getElem]

theorem reduceColumn_swap (a : Grid α m n) (start p : Fin m) (col : Fin n) :
    (a.swapRows start p).reduceColumn start col =
      if isZero (a.get p col) then fault .zeroPivot else .ok (a.pivoted start p col) := by
  have hentry : ∀ j, (a.swapRows start p).get start j = a.get p j := by
    intro j
    rw [get_swapRows, if_pos rfl]
  have hpivot : ∀ j, (((a.swapRows start p).row start).map fun x => x / a.get p col).get j =
      a.get p j / a.get p col := by
    intro j
    rw [← hentry j, ← (a.swapRows start p).get_row start j, Vector.get_eq_getElem,
      Vector.get_eq_getElem, Vector.getElem_map]
  unfold reduceColumn
  rw [hentry]
  dsimp only
  split
  · rfl
  · congr 1
    apply Grid.ext
    intro i j
    rw [get_rows, get_pivoted]
    split
    · exact hpivot j
    · rw [get_ite_cleared, hpivot, get_row]

theorem columns_pivoted (f : Fin k → Fin n) (a : Grid α m n) (start p : Fin m) (col : Fin k) :
    (a.pivoted start p (f col)).columns f = (a.columns f).pivoted start p col := by
  apply Grid.ext
  intro i j
  simp only [get_columns, get_pivoted, get_swapRows]

/-- The pivot of the column, where `start` is the first row without one. -/
def candidate (a : Grid α m n) (start : Fin m) (col : Fin n) : α :=
  a.get (a.pivotRow start col) col

theorem pivotRow_columns (f : Fin k → Fin n) (a : Grid α m n) (start : Fin m) (col : Fin k) :
    (a.columns f).pivotRow start col = a.pivotRow start (f col) :=
  pivotRow_congr fun r _ => get_columns f a r col

theorem candidate_columns (f : Fin k → Fin n) (a : Grid α m n) (start : Fin m) (col : Fin k) :
    (a.columns f).candidate start col = a.candidate start (f col) := by
  rw [candidate, candidate, get_columns, pivotRow_columns]

theorem solveStep_eq (tolerance : α) (verb : String) (a : Grid α n (n + k)) (col : Fin n) :
    solveStep tolerance verb a col =
      if negligible tolerance (a.candidate col (col.castAdd k)) then fail (.singular verb)
      else if isZero (a.candidate col (col.castAdd k)) then fault .zeroPivot
      else .ok (a.pivoted col (a.pivotRow col (col.castAdd k)) (col.castAdd k)) := by
  rw [solveStep, reduceColumn_swap, candidate]

theorem reduceStep_full {s : Reduction α m n} (h : m ≤ s.pivots.length) (col : Fin n) :
    reduceStep tolerance s col = .ok s := by
  rw [reduceStep, dif_neg h.not_gt]

theorem reduceStep_eq (tolerance : α) {s : Reduction α m n} (h : s.pivots.length < m)
    (col : Fin n) :
    reduceStep tolerance s col =
      if negligible tolerance (s.grid.candidate ⟨s.pivots.length, h⟩ col) then
        .ok { s with grid := s.grid.clearFrom ⟨s.pivots.length, h⟩ col }
      else if isZero (s.grid.candidate ⟨s.pivots.length, h⟩ col) then fault .zeroPivot
      else .ok ⟨s.grid.pivoted ⟨s.pivots.length, h⟩
          (s.grid.pivotRow ⟨s.pivots.length, h⟩ col) col,
        s.pivots ++ [(⟨s.pivots.length, h⟩, col)]⟩ := by
  rw [reduceStep, dif_pos h]
  dsimp only
  rw [reduceColumn_swap, candidate]
  split
  · rfl
  · split
    · rfl
    · rfl

/-- What a column can do to the reduction. -/
inductive Turns (tolerance : α) (s : Reduction α m n) (col : Fin n) : Reduction α m n → Prop where
  | full (h : m ≤ s.pivots.length) : Turns tolerance s col s
  | skip (h : s.pivots.length < m)
      (hpivot : negligible tolerance (s.grid.candidate ⟨s.pivots.length, h⟩ col) = true) :
      Turns tolerance s col { s with grid := s.grid.clearFrom ⟨s.pivots.length, h⟩ col }
  | pivot (h : s.pivots.length < m)
      (hpivot : negligible tolerance (s.grid.candidate ⟨s.pivots.length, h⟩ col) = false)
      (hzero : isZero (s.grid.candidate ⟨s.pivots.length, h⟩ col) = false) :
      Turns tolerance s col ⟨s.grid.pivoted ⟨s.pivots.length, h⟩
          (s.grid.pivotRow ⟨s.pivots.length, h⟩ col) col,
        s.pivots ++ [(⟨s.pivots.length, h⟩, col)]⟩

theorem turns_of_reduceStep {s s' : Reduction α m n} {col : Fin n}
    (h : reduceStep tolerance s col = .ok s') : Turns tolerance s col s' := by
  by_cases hlt : s.pivots.length < m
  · rw [reduceStep_eq tolerance hlt] at h
    split at h
    · rename_i hpivot
      rw [← Except.ok.inj h]
      exact .skip hlt hpivot
    · rename_i hpivot
      split at h
      · exact absurd h (by simp [fault])
      · rename_i hzero
        rw [← Except.ok.inj h]
        exact .pivot hlt (eq_false_of_ne_true hpivot) (eq_false_of_ne_true hzero)
  · rw [reduceStep_full (not_lt.mp hlt)] at h
    rw [← Except.ok.inj h]
    exact .full (not_lt.mp hlt)

def Reduction.cleaned (tolerance : α) (s : Reduction α m n) : Reduction α m n :=
  { s with grid := s.grid.mapEntries fun x => if negligible tolerance x then 0 else x }

theorem Reduction.get_cleaned (tolerance : α) (s : Reduction α m n) (i : Fin m) (j : Fin n) :
    (s.cleaned tolerance).grid.get i j =
      if negligible tolerance (s.grid.get i j) then 0 else s.grid.get i j := by
  rw [cleaned, get_mapEntries]

theorem rowReduce_eq (a : Grid α m n) (tolerance : α) :
    a.rowReduce tolerance = ((List.finRange n).foldlM (reduceStep tolerance) ⟨a, []⟩).map
      (Reduction.cleaned tolerance) := rfl

theorem rowReduce_of_run {a : Grid α m n} {s : Reduction α m n}
    (h : (List.finRange n).foldlM (reduceStep tolerance) ⟨a, []⟩ = .ok s) :
    a.rowReduce tolerance = .ok (s.cleaned tolerance) := by
  rw [rowReduce_eq, h]
  rfl

theorem exists_run_of_rowReduce {a : Grid α m n} {r : Reduction α m n}
    (h : a.rowReduce tolerance = .ok r) :
    ∃ s, (List.finRange n).foldlM (reduceStep tolerance) ⟨a, []⟩ = .ok s ∧
      r = s.cleaned tolerance := by
  rw [rowReduce_eq] at h
  cases hrun : (List.finRange n).foldlM (reduceStep tolerance) ⟨a, []⟩ with
  | error e =>
    rw [hrun] at h
    contradiction
  | ok s =>
    rw [hrun] at h
    exact ⟨s, rfl, (Except.ok.inj h).symm⟩

theorem columns_keep {P : Nat → Reduction α m n → Prop}
    (hstep : ∀ (col : Fin n) {s s' : Reduction α m n}, P col s → Turns tolerance s col s' →
      P (col + 1) s')
    {s s' : Reduction α m n} (h : (List.finRange n).foldlM (reduceStep tolerance) s = .ok s')
    (hs : P 0 s) : P n s' := by
  refine columns_induction (motive := fun c cols => ∀ s, P c s →
    cols.foldlM (reduceStep tolerance) s = .ok s' → P n s') ?_ ?_ s hs h
  · intro s hs hrun
    rwa [← Except.ok.inj hrun]
  · intro c cols ih s hs hrun
    rw [List.foldlM_cons] at hrun
    cases hnext : reduceStep tolerance s c with
    | error e =>
      rw [hnext] at hrun
      contradiction
    | ok next =>
      rw [hnext] at hrun
      exact ih next (hstep c hs (turns_of_reduceStep hnext)) hrun

theorem Turns.length_le {s s' : Reduction α m n} {col : Fin n} (h : Turns tolerance s col s') :
    s'.pivots.length ≤ s.pivots.length + 1 := by
  cases h with
  | full => omega
  | skip => dsimp only; omega
  | pivot => simp

theorem length_pivots_le {a : Grid α m n} {r : Reduction α m n}
    (h : a.rowReduce tolerance = .ok r) : r.pivots.length ≤ m := by
  obtain ⟨s, hrun, rfl⟩ := exists_run_of_rowReduce h
  change s.pivots.length ≤ m
  refine columns_keep (P := fun _ s => s.pivots.length ≤ m) ?_ hrun (Nat.zero_le m)
  intro col s s' hs hturns
  cases hturns with
  | full => exact hs
  | skip => exact hs
  | pivot hlt =>
    rw [List.length_append, List.length_singleton]
    exact hlt

/-- A column can be taken, unless its pivot is a zero that is not negligible. -/
theorem reduceStep_cases (tolerance : α) (s : Reduction α m n) (col : Fin n) :
    (∃ s', reduceStep tolerance s col = .ok s') ∨
      (ZeroCounts tolerance ∧ reduceStep tolerance s col = fault .zeroPivot) := by
  by_cases hlt : s.pivots.length < m
  · rw [reduceStep_eq tolerance hlt]
    split
    · exact .inl ⟨_, rfl⟩
    · rename_i hpivot
      split
      · rename_i hzero
        exact .inr ⟨⟨_, eq_false_of_ne_true hpivot, hzero⟩, rfl⟩
      · exact .inl ⟨_, rfl⟩
  · exact .inl ⟨s, reduceStep_full (not_lt.mp hlt) col⟩

theorem rowReduce_cases (a : Grid α m n) (tolerance : α) :
    (∃ r, a.rowReduce tolerance = .ok r) ∨
      (ZeroCounts tolerance ∧ a.rowReduce tolerance = fault .zeroPivot) := by
  have hrun : ∀ (cols : List (Fin n)) (s : Reduction α m n),
      (∃ s', cols.foldlM (reduceStep tolerance) s = .ok s') ∨
        (ZeroCounts tolerance ∧ cols.foldlM (reduceStep tolerance) s = fault .zeroPivot) := by
    intro cols
    induction cols with
    | nil => exact fun s => .inl ⟨s, rfl⟩
    | cons col cols ih =>
      intro s
      rw [List.foldlM_cons]
      rcases reduceStep_cases tolerance s col with ⟨next, hnext⟩ | ⟨hzero, hfault⟩
      · rw [hnext]
        exact ih next
      · rw [hfault]
        exact .inr ⟨hzero, rfl⟩
  rw [rowReduce_eq]
  rcases hrun (List.finRange n) ⟨a, []⟩ with ⟨s, hs⟩ | ⟨hzero, hfault⟩
  · rw [hs]
    exact .inl ⟨_, rfl⟩
  · rw [hfault]
    exact .inr ⟨hzero, rfl⟩

/-- Where every zero is negligible, every column can be taken, and it gives one pivot at most. -/
theorem exists_reduceRun (hzero : ¬ZeroCounts tolerance) (cols : List (Fin n))
    (s : Reduction α m n) :
    ∃ s', cols.foldlM (reduceStep tolerance) s = .ok s' ∧
      s'.pivots.length ≤ s.pivots.length + cols.length := by
  induction cols generalizing s with
  | nil => exact ⟨s, rfl, Nat.le_refl _⟩
  | cons col cols ih =>
    obtain ⟨next, hnext⟩ := (reduceStep_cases tolerance s col).resolve_right fun h => hzero h.1
    obtain ⟨s', hrun, hle⟩ := ih next
    refine ⟨s', ?_, ?_⟩
    · rw [List.foldlM_cons, hnext]
      exact hrun
    · have := (turns_of_reduceStep hnext).length_le
      rw [List.length_cons]
      omega

end MatrixCalculator.Grid
