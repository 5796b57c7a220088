import Mathlib
import MatrixCalculator.Proofs.Reductions
import MatrixCalculator.Proofs.Solving
import MatrixCalculator.Proofs.Values

namespace MatrixCalculator

theorem map_eq_ok_iff {ε α β : Type} {f : α → β} {r : Except ε α} {b : β} :
    r.map f = .ok b ↔ ∃ a, r = .ok a ∧ f a = b := by
  cases r with
  | error e => simp [Except.map]
  | ok a => simp [Except.map]

namespace Grid

variable {α : Type} {m n k l : Nat}

/-- The places of the left block, and behind them the chosen places of the right one. -/
def keepLeft (f : Fin k → Fin l) : Fin (n + k) → Fin (n + l) :=
  Fin.addCases (Fin.castAdd l) fun j => (f j).natAdd n

@[simp] theorem keepLeft_castAdd (f : Fin k → Fin l) (j : Fin n) :
    keepLeft f (j.castAdd k) = j.castAdd l :=
  Fin.addCases_left j

@[simp] theorem keepLeft_natAdd (f : Fin k → Fin l) (j : Fin k) :
    keepLeft (n := n) f (j.natAdd n) = (f j).natAdd n :=
  Fin.addCases_right j

theorem columns_keepLeft (f : Fin k → Fin l) (a : Grid α m n) (b : Grid α m l) :
    (a.beside b).columns (keepLeft f) = a.beside (b.columns f) := by
  apply Grid.ext
  intro i j
  cases j using Fin.addCases with
  | left j => simp
  | right j => simp

theorem right_columns (f : Fin k → Fin l) (a : Grid α m (n + l)) :
    (a.columns (keepLeft f)).right = a.right.columns f :=
  Grid.ext fun i j => by simp

theorem beside_columns (a : Grid α m (k + l)) :
    (a.columns (Fin.castAdd l)).beside (a.columns (Fin.natAdd k)) = a := by
  apply Grid.ext
  intro i j
  cases j using Fin.addCases with
  | left j => simp
  | right j => simp

theorem columns_natAdd_beside (a : Grid α m k) (b : Grid α m l) :
    (a.beside b).columns (Fin.natAdd k) = b :=
  right_beside a b

variable [Arithmetic α] (tolerance : α) (verb : String)

theorem solveStep_columns (f : Fin k → Fin l) (a : Grid α n (n + l)) (col : Fin n) :
    solveStep tolerance verb (a.columns (keepLeft f)) col =
      (solveStep tolerance verb a col).map (columns (keepLeft f)) := by
  -- The pivot and its column stand in the left block, whose places are kept.
  have hcandidate : (a.columns (keepLeft f)).candidate col (col.castAdd k) =
      a.candidate col (col.castAdd l) := by
    rw [candidate_columns, keepLeft_castAdd]
  have hpivoted : (a.columns (keepLeft f)).pivoted col
      ((a.columns (keepLeft f)).pivotRow col (col.castAdd k)) (col.castAdd k) =
      (a.pivoted col (a.pivotRow col (col.castAdd l)) (col.castAdd l)).columns (keepLeft f) := by
    rw [pivotRow_columns, ← columns_pivoted, keepLeft_castAdd]
  rw [solveStep_eq, solveStep_eq, hcandidate, hpivoted]
  split
  · rfl
  · split
    · rfl
    · rfl

theorem eliminate_columns (f : Fin k → Fin l) (a : Grid α n (n + l)) :
    eliminate tolerance verb (a.columns (keepLeft f)) =
      (eliminate tolerance verb a).map (columns (keepLeft f)) := by
  unfold eliminate
  generalize List.finRange n = cols
  induction cols generalizing a with
  | nil => rfl
  | cons col cols ih =>
    rw [List.foldlM_cons, List.foldlM_cons, solveStep_columns]
    cases solveStep tolerance verb a col with
    | error e => rfl
    | ok next => exact ih next

theorem solve_columns (f : Fin k → Fin l) (a : Grid α n n) (b : Grid α n l) :
    a.solve (b.columns f) tolerance verb = (a.solve b tolerance verb).map (columns f) := by
  rw [solve, solve, ← columns_keepLeft, eliminate_columns]
  cases eliminate tolerance verb (a.beside b) with
  | error e => rfl
  | ok r => exact congrArg Except.ok (right_columns f r)

/-- Two right sides next to each other are solved as each of them is. -/
theorem solve_beside_cases (a : Grid α n n) (b : Grid α n k) (c : Grid α n l) :
    (∃ e, a.solve (b.beside c) tolerance verb = .error e ∧ a.solve b tolerance verb = .error e ∧
      a.solve c tolerance verb = .error e) ∨
    ∃ x y, a.solve (b.beside c) tolerance verb = .ok (x.beside y) ∧
      a.solve b tolerance verb = .ok x ∧ a.solve c tolerance verb = .ok y := by
  have hb := solve_columns tolerance verb (Fin.castAdd l) a (b.beside c)
  have hc := solve_columns tolerance verb (Fin.natAdd k) a (b.beside c)
  rw [columns_beside] at hb
  rw [columns_natAdd_beside] at hc
  -- All three are read off one run, that on both right sides.
  rw [hb, hc]
  cases a.solve (b.beside c) tolerance verb with
  | error e => exact .inl ⟨e, rfl, rfl, rfl⟩
  | ok z => exact .inr ⟨_, _, congrArg Except.ok (beside_columns z).symm, rfl, rfl⟩

variable {tolerance verb} {verb' : String}

theorem solveStep_verb {a r : Grid α n (n + k)} {col : Fin n}
    (h : solveStep tolerance verb a col = .ok r) : solveStep tolerance verb' a col = .ok r := by
  rw [solveStep_eq] at h ⊢
  split at h
  · exact absurd h.symm (ok_ne_fail _ _)
  · rename_i hpivot
    rwa [if_neg hpivot]

theorem eliminate_verb {a r : Grid α n (n + k)} (h : eliminate tolerance verb a = .ok r) :
    eliminate tolerance verb' a = .ok r := by
  unfold eliminate at h ⊢
  generalize List.finRange n = cols at h ⊢
  induction cols generalizing a with
  | nil => exact h
  | cons col cols ih =>
    rw [List.foldlM_cons] at h ⊢
    cases hnext : solveStep tolerance verb a col with
    | error e =>
      rw [hnext] at h
      contradiction
    | ok next =>
      rw [hnext] at h
      rw [solveStep_verb hnext]
      exact ih h

/-- What a solution is does not depend on what its failure is called. -/
theorem solve_verb_iff {a : Grid α n n} {b x : Grid α n k} :
    a.solve b tolerance verb = .ok x ↔ a.solve b tolerance verb' = .ok x := by
  change (eliminate tolerance verb (a.beside b)).map right = .ok x ↔
    (eliminate tolerance verb' (a.beside b)).map right = .ok x
  rw [map_eq_ok_iff, map_eq_ok_iff]
  exact exists_congr fun r => and_congr_left' ⟨eliminate_verb, eliminate_verb⟩

end Grid

namespace DenseMatrix

/-- At every tolerance, whatever is rounded or overflows: two right sides next to each other can be
solved exactly if each of them can, and the solutions then stand next to each other. Solving with
the identity is inverting. -/
theorem solve_hcat (a b c : DenseMatrix Float) (ha : a.cols = a.rows) (hb : b.rows = a.rows)
    (hc : c.rows = a.rows) (tolerance : Float) :
    ∃ bc one, b.hcat c = .ok bc ∧ identity? a.rows = .ok one ∧
      ((∃ z, a.solve bc tolerance = .ok z) ↔
        (∃ x, a.solve b tolerance = .ok x) ∧ ∃ y, a.solve c tolerance = .ok y) ∧
      (∀ x y, a.solve b tolerance = .ok x → a.solve c tolerance = .ok y →
        a.solve bc tolerance = x.hcat y) ∧
      ∀ v, a.solve one tolerance = .ok v ↔ a.inverse tolerance = .ok v := by
  obtain ⟨n, _, hn, _, a, rfl⟩ := a.exists_dense
  obtain ⟨_, k, _, hk, b, rfl⟩ := b.exists_dense
  obtain ⟨_, l, _, hl, c, rfl⟩ := c.exists_dense
  dsimp only at ha hb hc
  subst ha hb hc
  refine ⟨_, _, Grid.hcat_dense hn hk hl b c, Grid.identity_dense hn, ?_⟩
  simp only [Grid.solve_dense, Grid.inverse_dense, Grid.inverse]
  rw [← and_assoc]
  constructor
  · rcases a.solve_beside_cases tolerance "solve with" b c with
      ⟨e, hbc, hb, hc⟩ | ⟨x, y, hbc, hb, hc⟩
    · rw [hbc, hb, hc]
      simp [Except.map]
    · rw [hbc, hb, hc]
      refine ⟨⟨fun _ => ⟨⟨_, rfl⟩, _, rfl⟩, fun _ => ⟨_, rfl⟩⟩, fun x' y' hx hy => ?_⟩
      rw [← Except.ok.inj hx, ← Except.ok.inj hy, Grid.hcat_dense]
      rfl
  · intro v
    rw [map_eq_ok_iff, map_eq_ok_iff]
    exact exists_congr fun x => and_congr_left' Grid.solve_verb_iff

/-- Two right sides; rows are exchanged, and the second solution overflows. -/
theorem solve_hcat_overflow :
    ∃ bc x y z,
      (Grid.dense (by decide) (by decide) #v[#v[(7 : Float)], #v[8]]).hcat
        (Grid.dense (by decide) (by decide) #v[#v[1e308], #v[0]]) = .ok bc ∧
      (Grid.dense (by decide) (by decide) #v[#v[(0 : Float), 0.5], #v[1, 3]]).solve
        (Grid.dense (by decide) (by decide) #v[#v[7], #v[8]]) 0.25 = .ok x ∧
      (Grid.dense (by decide) (by decide) #v[#v[(0 : Float), 0.5], #v[1, 3]]).solve
        (Grid.dense (by decide) (by decide) #v[#v[1e308], #v[0]]) 0.25 = .ok y ∧
      (Grid.dense (by decide) (by decide) #v[#v[(0 : Float), 0.5], #v[1, 3]]).solve bc 0.25 =
        .ok z ∧ x.hcat y = .ok z := by
  have hsolved :
      ((Grid.dense (by decide) (by decide) #v[#v[(0 : Float), 0.5], #v[1, 3]]).solve
        (Grid.dense (by decide) (by decide) #v[#v[7], #v[8]]) 0.25).toOption.isSome = true ∧
      ((Grid.dense (by decide) (by decide) #v[#v[(0 : Float), 0.5], #v[1, 3]]).solve
        (Grid.dense (by decide) (by decide) #v[#v[1e308], #v[0]]) 0.25).toOption.isSome = true := by
    decide +kernel
  obtain ⟨x, hx⟩ := Option.isSome_iff_exists.mp hsolved.1
  obtain ⟨y, hy⟩ := Option.isSome_iff_exists.mp hsolved.2
  obtain ⟨bc, one, hbc, -, hsides, hcat, -⟩ := solve_hcat
    (Grid.dense (by decide) (by decide) #v[#v[(0 : Float), 0.5], #v[1, 3]])
    (Grid.dense (by decide) (by decide) #v[#v[7], #v[8]])
    (Grid.dense (by decide) (by decide) #v[#v[1e308], #v[0]]) (by decide) (by decide)
    (by decide) 0.25
  obtain ⟨z, hz⟩ := hsides.mpr ⟨⟨x, eq_ok_of_toOption hx⟩, y, eq_ok_of_toOption hy⟩
  refine ⟨bc, x, y, z, hbc, eq_ok_of_toOption hx, eq_ok_of_toOption hy, hz, ?_⟩
  rw [← hcat x y (eq_ok_of_toOption hx) (eq_ok_of_toOption hy), hz]

end DenseMatrix

end MatrixCalculator
