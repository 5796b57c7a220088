import Mathlib
import MatrixCalculator.Proofs.Indexing
import MatrixCalculator.Proofs.Layout
import MatrixCalculator.Proofs.RightSides

namespace MatrixCalculator

variable {α : Type}

namespace Grid

variable {m n k : Nat}

theorem transpose_transpose (a : Grid α m n) : a.transpose.transpose = a :=
  Grid.ext fun i j => by rw [get_transpose, get_transpose]

@[simp] theorem get_append_left (a : Grid α m n) (b : Grid α k n) (i : Fin m) (j : Fin n) :
    get (a ++ b) (i.castAdd k) j = a.get i j := by
  simp [get]

@[simp] theorem get_append_right (a : Grid α m n) (b : Grid α k n) (i : Fin k) (j : Fin n) :
    get (a ++ b) (i.natAdd m) j = b.get i j := by
  simp [get]

/-- What stands side by side stands one below the other once transposed. -/
theorem transpose_beside (a : Grid α m n) (b : Grid α m k) :
    (a.beside b).transpose = a.transpose ++ b.transpose := by
  apply Grid.ext
  intro j i
  cases j using Fin.addCases with
  | left j => rw [get_transpose, get_beside_left, get_append_left, get_transpose]
  | right j => rw [get_transpose, get_beside_right, get_append_right, get_transpose]

end Grid

namespace DenseMatrix

variable {a b c : DenseMatrix α}

/-- The entry stands behind all rows before its own and all entries before it in its row. -/
theorem get_eq_ok_iff_data {i j : Nat} {x : α} (hj : j < a.cols) :
    a.get i j = .ok x ↔ a.data[i * a.cols + j]? = some x := by
  rw [get_eq_ok_iff]
  constructor
  · rintro ⟨p, q, hp, hq, rfl⟩
    obtain rfl : i = p := by exact_mod_cast hp
    obtain rfl : j = q := by exact_mod_cast hq
    exact a.getElem?_data p q
  · intro h
    have hlt : i * a.cols + j < a.rows * a.cols := by
      rw [← length_data]
      exact (List.getElem?_eq_some_iff.mp h).1
    -- From the row behind the last one on, the place lies behind all entries.
    have hi : i < a.rows := by
      by_contra hle
      have hmul := Nat.mul_le_mul_right a.cols (Nat.le_of_not_lt hle)
      omega
    have hentry := a.getElem?_data ⟨i, hi⟩ ⟨j, hj⟩
    exact ⟨⟨i, hi⟩, ⟨j, hj⟩, rfl, rfl, Option.some.inj (hentry.symm.trans h)⟩

theorem transpose_transpose (a : DenseMatrix α) : a.transpose.transpose = a := by
  obtain ⟨m, n, hm, hn, g, rfl⟩ := a.exists_dense
  rw [transpose_dense, transpose_dense, Grid.transpose_transpose]

theorem get_transpose_eq_ok_iff {i j : Int} {x : α} :
    a.transpose.get j i = .ok x ↔ a.get i j = .ok x := by
  rw [get_eq_ok_iff, get_eq_ok_iff, grid_transpose]
  constructor
  · rintro ⟨q, p, hq, hp, rfl⟩
    exact ⟨p, q, hp, hq, (Grid.get_transpose a.grid p q).symm⟩
  · rintro ⟨p, q, hp, hq, rfl⟩
    exact ⟨q, p, hq, hp, Grid.get_transpose a.grid p q⟩

/-- The matrix `c` has the entries of `a` in its first columns and those of `b` in the rest. -/
structure SideBySide (a b c : DenseMatrix α) : Prop where
  shape_eq : c.shape = ⟨a.rows, a.cols + b.cols⟩
  get_first : ∀ (i j : Int) (x : α), j < a.cols → (c.get i j = .ok x ↔ a.get i j = .ok x)
  get_rest : ∀ (i j : Int) (x : α), 0 ≤ j → (c.get i (a.cols + j) = .ok x ↔ b.get i j = .ok x)

theorem sideBySide_beside {m n k : Nat} (hm : 0 < m) (hn : 0 < n) (hk : 0 < k) (a : Grid α m n)
    (b : Grid α m k) :
    SideBySide (a.dense hm hn) (b.dense hm hk) ((a.beside b).dense hm (Nat.add_pos_left hn k)) := by
  refine ⟨rfl, fun i j x hj => ?_, fun i j x hj => ?_⟩
  · rw [get_eq_ok_iff, get_eq_ok_iff, grid_dense, grid_dense]
    constructor
    · rintro ⟨p, q, hp, rfl, rfl⟩
      have hlt : q.val < n := by exact_mod_cast hj
      exact ⟨p, q.castLT hlt, hp, rfl, (Grid.get_beside_left a b p (q.castLT hlt)).symm⟩
    · rintro ⟨p, q, hp, hq, rfl⟩
      exact ⟨p, q.castAdd k, hp, hq, Grid.get_beside_left a b p q⟩
  · rw [get_eq_ok_iff, get_eq_ok_iff, grid_dense, grid_dense]
    constructor
    · rintro ⟨p, q, hp, hq, rfl⟩
      dsimp only at q hq
      cases q using Fin.addCases with
      | left q =>
        rw [Fin.val_castAdd] at hq
        omega
      | right q =>
        rw [Fin.val_natAdd] at hq
        exact ⟨p, q, hp, by omega, (Grid.get_beside_right a b p q).symm⟩
    · rintro ⟨p, q, hp, rfl, rfl⟩
      exact ⟨p, q.natAdd n, hp, by simp, Grid.get_beside_right a b p q⟩

theorem exists_hcat (h : a.rows = b.rows) : ∃ c, a.hcat b = .ok c ∧ SideBySide a b c ∧
    a.transpose.vcat b.transpose = .ok c.transpose := by
  obtain ⟨m, n, hm, hn, a, rfl⟩ := a.exists_dense
  obtain ⟨_, k, _, hk, b, rfl⟩ := b.exists_dense
  obtain rfl : m = _ := h
  refine ⟨_, Grid.hcat_dense hm hn hk a b, sideBySide_beside hm hn hk a b, ?_⟩
  rw [transpose_dense, transpose_dense, transpose_dense, Grid.transpose_beside]
  exact Grid.vcat_dense hn hk hm a.transpose b.transpose

theorem hcat_of_ne (h : a.rows ≠ b.rows) :
    a.hcat b = fail (.mismatch "hcat" (some a.shape) (some b.shape)) :=
  if_neg (Ne.symm h)

theorem vcat_of_ne (h : a.cols ≠ b.cols) :
    a.vcat b = fail (.mismatch "vcat" (some a.shape) (some b.shape)) :=
  if_neg (Ne.symm h)

theorem exists_toRows_eq {rows : List (List α)} {width : Nat} (hne : rows ≠ []) (hwidth : 0 < width)
    (h : ∀ row ∈ rows, row.length = width) : ∃ a : DenseMatrix α, a.toRows = rows := by
  have hlength : rows.flatten.length = rows.length * width := by
    rw [List.length_flatten, List.map_congr_left h, List.map_const', List.sum_replicate_nat]
  exact ⟨ofList rows.length width rows.flatten (List.length_pos_of_ne_nil hne) hwidth hlength,
    toRows_of_data rfl h rfl⟩

theorem toRows_eq (a : DenseMatrix α) : a.toRows =
    (List.range a.rows).map fun i => a.data.extract (i * a.cols) ((i + 1) * a.cols) := by
  simp only [toRows, toList_slice]

theorem data_of_hcat (h : a.hcat b = .ok c) : c.data = (List.range a.rows).flatMap fun i =>
    a.data.extract (i * a.cols) ((i + 1) * a.cols) ++
      b.data.extract (i * b.cols) ((i + 1) * b.cols) := by
  by_cases hrows : a.rows = b.rows
  · obtain ⟨c', hc, -, hdata⟩ := exists_hcat_data hrows
    rw [hc] at h
    rw [← Except.ok.inj h, hdata]
  · rw [hcat_of_ne hrows] at h
    contradiction

theorem data_of_vcat (h : a.vcat b = .ok c) : c.data = a.data ++ b.data := by
  by_cases hcols : a.cols = b.cols
  · obtain ⟨c', hc, -, hdata⟩ := exists_vcat_data hcols
    rw [hc] at h
    rw [← Except.ok.inj h, hdata]
  · rw [vcat_of_ne hcols] at h
    contradiction

/-- The layout of matrices. Every entry has its place `i * cols + j` in one list; the rows are
slices of the list, the transposed matrix takes its places with the stride of the columns, and two
matrices side by side take their slices in turn. So transposition exchanges rows and columns, and
done twice it changes nothing. Two matrices can be put side by side exactly if they have as many
rows; transposed, they then stand one below the other. The rows of a matrix make up the matrix, and
rows of one length are the rows of the matrix that they make up. -/
theorem row_major_laws (a b : DenseMatrix α) :
    (∀ (i j : Nat) (x : α), j < a.cols →
      (a.get i j = .ok x ↔ a.data[i * a.cols + j]? = some x)) ∧
    (∀ i : Fin a.rows, ∃ c, a.row i = .ok c ∧
      c.data = a.data.extract (i * a.cols) ((i + 1) * a.cols)) ∧
    a.toRows = (List.range a.rows).map
      (fun i => a.data.extract (i * a.cols) ((i + 1) * a.cols)) ∧
    a.transpose.data.map some = (List.range a.cols).flatMap
      (fun j => (List.range a.rows).map fun i => a.data[i * a.cols + j]?) ∧
    (∀ c, a.hcat b = .ok c → c.data = (List.range a.rows).flatMap fun i =>
      a.data.extract (i * a.cols) ((i + 1) * a.cols) ++
        b.data.extract (i * b.cols) ((i + 1) * b.cols)) ∧
    (∀ c, a.vcat b = .ok c → c.data = a.data ++ b.data) ∧
    a.transpose.transpose = a ∧
    (∀ (i j : Int) (x : α), a.transpose.get j i = .ok x ↔ a.get i j = .ok x) ∧
    (a.rows = b.rows → ∃ c, a.hcat b = .ok c ∧ SideBySide a b c ∧
      a.transpose.vcat b.transpose = .ok c.transpose) ∧
    (a.rows ≠ b.rows → a.hcat b = fail (.mismatch "hcat" (some a.shape) (some b.shape)) ∧
      a.transpose.vcat b.transpose =
        fail (.mismatch "vcat" (some a.transpose.shape) (some b.transpose.shape))) ∧
    ofRows? a.toRows = .ok a ∧
    ∀ (rows : List (List α)) (width : Nat), rows ≠ [] → 0 < width →
      (∀ row ∈ rows, row.length = width) → ∃ c, ofRows? rows = .ok c ∧ c.toRows = rows := by
  refine ⟨fun i j x => get_eq_ok_iff_data, fun i => ⟨_, a.row_eq_rowAt i, a.data_rowAt i⟩,
    a.toRows_eq, a.data_transpose, fun c => data_of_hcat, fun c => data_of_vcat,
    a.transpose_transpose, fun i j x => get_transpose_eq_ok_iff, exists_hcat,
    fun h => ⟨hcat_of_ne h, vcat_of_ne h⟩, a.ofRows?_toRows,
    fun rows width hne hwidth hlength => ?_⟩
  obtain ⟨c, rfl⟩ := exists_toRows_eq hne hwidth hlength
  exact ⟨c, c.ofRows?_toRows, rfl⟩

/-- A wide matrix and a column: the shapes tell a row index from a column index. -/
theorem row_major_laws_wide : ∃ a b c : DenseMatrix Nat,
    ofRows? [[1, 2, 3], [4, 5, 6]] = .ok a ∧ a.toRows = [[1, 2, 3], [4, 5, 6]] ∧
    ofRows? [[7], [8]] = .ok b ∧ a.rows = b.rows ∧ a.hcat b = .ok c ∧ SideBySide a b c ∧
    c.data = [1, 2, 3, 7, 4, 5, 6, 8] ∧ a.transpose.data = [1, 4, 2, 5, 3, 6] ∧
    a.transpose.vcat b.transpose = .ok c.transpose ∧ 0 < a.cols ∧
    (a.get 1 0 = .ok 4 ↔ a.data[1 * a.cols + 0]? = some 4) := by
  let a : DenseMatrix Nat := ofList 2 3 [1, 2, 3, 4, 5, 6] (by decide) (by decide) rfl
  let b : DenseMatrix Nat := ofList 2 1 [7, 8] (by decide) (by decide) rfl
  obtain ⟨hplace, -, -, -, hdata, -, -, -, hbeside, -, hrows, -⟩ := row_major_laws a b
  obtain ⟨c, hc, hside, hvcat⟩ := hbeside rfl
  exact ⟨a, b, c, hrows, rfl, b.ofRows?_toRows, rfl, hc, hside, hdata c hc, rfl, hvcat, a.cols_pos,
    hplace 1 0 4 a.cols_pos⟩

end DenseMatrix

end MatrixCalculator
