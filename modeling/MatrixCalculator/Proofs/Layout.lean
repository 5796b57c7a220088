import Mathlib
import MatrixCalculator.Matrix.Dense

namespace MatrixCalculator

variable {α : Type}

/-- In rows of one length the entries of a row stand behind all rows before it. -/
theorem getElem?_flatten_of_length {rows : List (List α)} {width : Nat}
    (h : ∀ row ∈ rows, row.length = width) {i j : Nat} (hi : i < rows.length) (hj : j < width) :
    rows.flatten[i * width + j]? = rows[i][j]? := by
  induction rows generalizing i with
  | nil => contradiction
  | cons row rows ih =>
    obtain ⟨hrow, hrows⟩ := List.forall_mem_cons.mp h
    rw [List.flatten_cons]
    cases i with
    | zero =>
      rw [Nat.zero_mul, Nat.zero_add, List.getElem?_append_left (by omega)]
      rfl
    | succ i =>
      have hplace : (i + 1) * width + j = row.length + (i * width + j) := by
        rw [hrow]
        ring
      rw [hplace, List.getElem?_append_right (by omega), Nat.add_sub_cancel_left]
      exact ih hrows (Nat.lt_of_succ_lt_succ hi)

/-- In rows of one length each row is a slice of the entries. -/
theorem extract_flatten_of_length {rows : List (List α)} {width : Nat}
    (h : ∀ row ∈ rows, row.length = width) {i : Nat} (hi : i < rows.length) :
    rows.flatten.extract (i * width) ((i + 1) * width) = rows[i] := by
  have hrow : rows[i].length = width := h _ (List.getElem_mem hi)
  apply List.ext_getElem?
  intro j
  rw [List.extract_eq_take_drop, Nat.succ_mul, Nat.add_sub_cancel_left, List.getElem?_take]
  split
  · rename_i hj
    rw [List.getElem?_drop, getElem?_flatten_of_length h hi hj]
  · rename_i hj
    rw [List.getElem?_eq_none (by omega)]

/-- A list of `m * n` entries is made up of its `m` slices of length `n`. -/
theorem flatMap_extract {xs : List α} {m n : Nat} (h : xs.length = m * n) :
    ((List.range m).flatMap fun i => xs.extract (i * n) ((i + 1) * n)) = xs := by
  have hinitial : ∀ k, ((List.range k).flatMap fun i => xs.extract (i * n) ((i + 1) * n)) =
      xs.take (k * n) := by
    intro k
    induction k with
    | zero => simp
    | succ k ih =>
      rw [List.range_succ, List.flatMap_append, ih, List.flatMap_singleton,
        List.extract_eq_take_drop, Nat.succ_mul, Nat.add_sub_cancel_left, ← List.take_add]
  rw [hinitial, ← h, List.take_length]

namespace Grid

variable {m n : Nat} {hm : 0 < m} {hn : 0 < n}

theorem entry_dense (g : Grid α m n) (i : Fin m) (j : Fin n) :
    (g.dense hm hn).entry i j = g.get i j := by
  have hdiv : (i * n + j) / n = i := by
    rw [Nat.mul_comm, Nat.mul_add_div j.pos, Nat.div_eq_of_lt j.isLt, Nat.add_zero]
  have hmod : (i * n + j) % n = j := by
    rw [Nat.mul_comm, Nat.mul_add_mod, Nat.mod_eq_of_lt j.isLt]
  have hlt : i * n + j < m * n := DenseMatrix.index_lt i.isLt j.isLt
  change g.flatten[i * n + j] = _
  simp only [Vector.getElem_flatten, hdiv, hmod]
  rfl

theorem length_of_mem_toLists {g : Grid α m n} {row : List α} (h : row ∈ g.toLists) :
    row.length = n := by
  obtain ⟨entries, _, rfl⟩ := List.mem_map.mp h
  exact Vector.length_toList

theorem data_dense (g : Grid α m n) : (g.dense hm hn).data = g.toLists.flatten := by
  simp [DenseMatrix.data, dense, Vector.flatten, toLists, Vector.toList, Function.comp_def]

end Grid

namespace DenseMatrix

theorem length_data (a : DenseMatrix α) : a.data.length = a.rows * a.cols := Vector.length_toList

theorem toList_slice (a : DenseMatrix α) (i : Nat) :
    (a.slice i).toList = a.data.extract (i * a.cols) ((i + 1) * a.cols) :=
  Array.toList_extract

/-- The entries are the rows one after the other. -/
theorem flatten_toRows (a : DenseMatrix α) : a.toRows.flatten = a.data := by
  simp only [toRows, toList_slice, ← List.flatMap_def]
  exact flatMap_extract a.length_data

theorem mem_data_of_mem_toRows {a : DenseMatrix α} {row : List α} {x : α} (hrow : row ∈ a.toRows)
    (hx : x ∈ row) : x ∈ a.data := by
  rw [← flatten_toRows]
  exact List.mem_flatten_of_mem hrow hx

@[simp] theorem entry_eq (a : DenseMatrix α) (i : Fin a.rows) (j : Fin a.cols) :
    a.entry i j = a.grid.get i j := by
  have hlt : i * a.cols + j < (a.entries.toArray).size := by
    rw [Vector.size_toArray]
    exact index_lt i.isLt j.isLt
  simp only [entry, Grid.get, grid, Fin.getElem_fin, Vector.getElem_ofFn, Vector.getElem_mk, slice,
    Array.getElem_extract]
  rfl

theorem toLists_grid (a : DenseMatrix α) : a.grid.toLists = a.toRows := by
  rw [Grid.toLists, grid, Vector.toList_ofFn, List.map_ofFn, toRows, List.ofFn_eq_map,
    ← List.map_coe_finRange_eq_range, List.map_map]
  rfl

theorem ext_of_data {a b : DenseMatrix α} (hrows : a.rows = b.rows) (hcols : a.cols = b.cols)
    (h : a.data = b.data) : a = b := by
  obtain ⟨r, c, hr, hc, entries⟩ := a
  obtain ⟨r', c', hr', hc', entries'⟩ := b
  obtain rfl : r = r' := hrows
  obtain rfl : c = c' := hcols
  obtain rfl : entries = entries' := Vector.toList_inj.mp h
  rfl

theorem dense_grid (a : DenseMatrix α) : a.grid.dense a.rows_pos a.cols_pos = a :=
  ext_of_data rfl rfl (by rw [Grid.data_dense, toLists_grid, flatten_toRows])

@[simp] theorem grid_dense {m n : Nat} (hm : 0 < m) (hn : 0 < n) (g : Grid α m n) :
    (g.dense hm hn).grid = g :=
  Grid.ext fun i j => (entry_eq (g.dense hm hn) i j).symm.trans (Grid.entry_dense g i j)

theorem exists_dense (a : DenseMatrix α) : ∃ (m n : Nat) (hm : 0 < m) (hn : 0 < n) (g : Grid α m n),
    a = g.dense hm hn :=
  ⟨_, _, _, _, _, a.dense_grid.symm⟩

theorem getElem?_data (a : DenseMatrix α) (i : Fin a.rows) (j : Fin a.cols) :
    a.data[i * a.cols + j]? = some (a.grid.get i j) := by
  have hlt : i * a.cols + j < a.rows * a.cols := index_lt i.isLt j.isLt
  rw [← entry_eq, data, Vector.getElem?_toList, Vector.getElem?_eq_getElem hlt]
  rfl

theorem length_toRows (a : DenseMatrix α) : a.toRows.length = a.rows := by
  simp [toRows]

theorem length_of_mem_toRows {a : DenseMatrix α} {row : List α} (h : row ∈ a.toRows) :
    row.length = a.cols := by
  rw [← toLists_grid] at h
  exact Grid.length_of_mem_toLists h

theorem mem_data {a : DenseMatrix α} {x : α} : x ∈ a.data ↔ ∃ i j, a.grid.get i j = x := by
  rw [← flatten_toRows, ← toLists_grid]
  simp only [Grid.toLists, List.mem_flatten, List.mem_map, Vector.mem_toList_iff,
    Vector.mem_iff_getElem, Grid.get, Fin.exists_iff, Fin.getElem_fin]
  constructor
  · rintro ⟨_, ⟨_, ⟨i, hi, rfl⟩, rfl⟩, hx⟩
    obtain ⟨j, hj, rfl⟩ := Vector.mem_iff_getElem.mp (Vector.mem_toList_iff.mp hx)
    exact ⟨i, hi, j, hj, rfl⟩
  · rintro ⟨i, hi, j, hj, rfl⟩
    exact ⟨_, ⟨_, ⟨i, hi, rfl⟩, rfl⟩, Vector.mem_toList_iff.mpr (Vector.getElem_mem hj)⟩

theorem data_map (f : α → α) (a : DenseMatrix α) : (a.map f).data = a.data.map f :=
  Vector.toList_map

theorem toRows_map (f : α → α) (a : DenseMatrix α) :
    (a.map f).toRows = a.toRows.map (List.map f) := by
  have hslice : ∀ i, ((a.map f).slice i).toList = (a.slice i).toList.map f := by
    intro i
    rw [toList_slice, toList_slice, data_map, List.extract_eq_take_drop, List.extract_eq_take_drop,
      List.map_take, List.map_drop]
    rfl
  simp only [toRows, hslice, List.map_map, Function.comp_def]
  rfl

@[simp] theorem grid_map (f : α → α) (a : DenseMatrix α) :
    (a.map f).grid = a.grid.mapEntries f := by
  refine Grid.ext fun i j => ?_
  calc (a.map f).grid.get i j = (a.map f).entry i j := (entry_eq _ i j).symm
    _ = f (a.entry i j) := Vector.getElem_map ..
    _ = f (a.grid.get i j) := congrArg f (entry_eq a i j)
    _ = (a.grid.mapEntries f).get i j := (Grid.get_mapEntries f a.grid i j).symm

variable {rows cols : Nat} {data : List α} {hrows : 0 < rows} {hcols : 0 < cols}
  {h : data.length = rows * cols}

@[simp] theorem data_ofList : (ofList rows cols data hrows hcols h).data = data := rfl

theorem ofData?_eq_ofList (hrows : 0 < rows) (hcols : 0 < cols) (h : data.length = rows * cols) :
    ofData? rows cols data = .ok (ofList rows cols data hrows hcols h) := by
  rw [ofData?, dif_pos ⟨by omega, by omega, h⟩]
  rfl

theorem ofData?_data (a : DenseMatrix α) : ofData? a.rows a.cols a.data = .ok a := by
  rw [ofData?_eq_ofList a.rows_pos a.cols_pos a.length_data]
  exact congrArg Except.ok (ext_of_data rfl rfl rfl)

/-- Rows of one length are the rows of the matrix of their entries. -/
theorem toRows_of_data {a : DenseMatrix α} {rows : List (List α)} (hrows : a.rows = rows.length)
    (hlength : ∀ row ∈ rows, row.length = a.cols) (h : a.data = rows.flatten) :
    a.toRows = rows := by
  apply List.ext_getElem
  · rw [length_toRows, hrows]
  · intro i hi hi'
    simp only [toRows, List.getElem_map, List.getElem_range, toList_slice]
    rw [h]
    exact extract_flatten_of_length hlength hi'

theorem ofRows?_of_length {rows : List (List α)} {width : Nat} (hne : rows ≠ [])
    (h : ∀ row ∈ rows, row.length = width) :
    ofRows? rows = ofData? rows.length width rows.flatten := by
  obtain ⟨first, later, rfl⟩ := List.exists_cons_of_ne_nil hne
  have hfirst : first.length = width := h first List.mem_cons_self
  have hnone : ((first :: later).find? fun row => row.length != first.length) = none := by
    rw [List.find?_eq_none]
    intro row hrow
    simp [h row hrow, hfirst]
  unfold ofRows?
  dsimp only
  rw [hnone, hfirst]

theorem ofRows?_toRows (a : DenseMatrix α) : ofRows? a.toRows = .ok a := by
  have hne : a.toRows ≠ [] := List.ne_nil_of_length_pos (a.length_toRows ▸ a.rows_pos)
  rw [ofRows?_of_length hne fun row => length_of_mem_toRows, a.length_toRows, flatten_toRows]
  exact a.ofData?_data

/-- Transposition reads the entries column after column. -/
theorem data_transpose (a : DenseMatrix α) : a.transpose.data.map some =
    (List.range a.cols).flatMap fun j =>
      (List.range a.rows).map fun i => a.data[i * a.cols + j]? := by
  rw [transpose, data_ofList, List.map_flatMap]
  simp only [← List.map_coe_finRange_eq_range, List.flatMap_map, List.map_map]
  refine congrArg (List.flatMap · _) (funext fun j => List.map_congr_left fun i _ => ?_)
  rw [Function.comp_apply, Function.comp_apply, getElem?_data, entry_eq]

theorem getElem?_data_transpose (a : DenseMatrix α) {i j : Nat} (hi : i < a.rows)
    (hj : j < a.cols) : a.transpose.data[j * a.rows + i]? = a.data[i * a.cols + j]? := by
  have hplace : i * a.cols + j < a.data.length := by
    rw [length_data]
    exact index_lt hi hj
  have hflat : (a.transpose.data.map some)[j * a.rows + i]? = some a.data[i * a.cols + j]? := by
    rw [data_transpose, List.flatMap_def, getElem?_flatten_of_length _ (by simpa using hj) hi]
    · simp [hi]
    · intro row hrow
      obtain ⟨_, _, rfl⟩ := List.mem_map.mp hrow
      simp
  rw [List.getElem?_eq_getElem hplace, List.getElem?_map] at hflat
  obtain ⟨x, hx, hsome⟩ := Option.map_eq_some_iff.mp hflat
  rw [List.getElem?_eq_getElem hplace, hx, hsome]

@[simp] theorem grid_transpose (a : DenseMatrix α) : a.transpose.grid = a.grid.transpose := by
  refine Grid.ext fun j i => Option.some.inj ?_
  calc some (a.transpose.grid.get j i) = a.transpose.data[j * a.rows + i]? :=
        (a.transpose.getElem?_data j i).symm
    _ = a.data[i * a.cols + j]? := a.getElem?_data_transpose i.isLt j.isLt
    _ = some (a.grid.get i j) := a.getElem?_data i j
    _ = some (a.grid.transpose.get j i) := congrArg some (Grid.get_transpose a.grid i j).symm

theorem transpose_dense {m n : Nat} {hm : 0 < m} {hn : 0 < n} (g : Grid α m n) :
    (g.dense hm hn).transpose = g.transpose.dense hn hm := by
  rw [← (g.dense hm hn).transpose.dense_grid, grid_transpose, grid_dense]
  rfl

variable {a b : DenseMatrix α}

theorem exists_hcat_data (h : a.rows = b.rows) : ∃ c, a.hcat b = .ok c ∧
    c.shape = ⟨a.rows, a.cols + b.cols⟩ ∧
    c.data = (List.range a.rows).flatMap fun i =>
      a.data.extract (i * a.cols) ((i + 1) * a.cols) ++
        b.data.extract (i * b.cols) ((i + 1) * b.cols) := by
  have hlength : ((List.range a.rows).flatMap fun i => (a.slice i).toList ++
      (b.slice i).toList).length = a.rows * (a.cols + b.cols) := by
    rw [length_flatMap_of_length (k := a.cols + b.cols), List.length_range]
    intro i hi
    have hi := List.mem_range.mp hi
    rw [List.length_append, Array.length_toList, Array.length_toList, size_slice a hi,
      size_slice b (h ▸ hi)]
  refine ⟨ofList _ _ _ a.rows_pos (Nat.add_pos_left a.cols_pos _) hlength, ?_, rfl, ?_⟩
  · rw [hcat, if_pos h.symm, ofData?_eq_ofList]
  · simp only [data_ofList, toList_slice]

theorem exists_vcat_data (h : a.cols = b.cols) : ∃ c, a.vcat b = .ok c ∧
    c.shape = ⟨a.rows + b.rows, a.cols⟩ ∧ c.data = a.data ++ b.data := by
  have hlength : (a.data ++ b.data).length = (a.rows + b.rows) * a.cols := by
    rw [List.length_append, length_data, length_data, Nat.add_mul, h]
  refine ⟨ofList _ _ _ (Nat.add_pos_left a.rows_pos _) a.cols_pos hlength, ?_, rfl, rfl⟩
  rw [vcat, if_pos h.symm, ofData?_eq_ofList]

theorem length_slice (a : DenseMatrix α) (i : Fin a.rows) :
    (a.slice i).toList.length = 1 * a.cols := by
  rw [Array.length_toList, a.size_slice i.isLt, Nat.one_mul]

def rowAt (a : DenseMatrix α) (i : Fin a.rows) : DenseMatrix α :=
  ofList 1 a.cols (a.slice i).toList Nat.one_pos a.cols_pos (a.length_slice i)

theorem row_eq_rowAt (a : DenseMatrix α) (i : Fin a.rows) : a.row i = .ok (a.rowAt i) := by
  rw [row, if_pos ⟨by omega, by omega⟩]
  exact ofData?_eq_ofList Nat.one_pos a.cols_pos (a.length_slice i)

theorem data_rowAt (a : DenseMatrix α) (i : Fin a.rows) :
    (a.rowAt i).data = a.data.extract (i * a.cols) ((i + 1) * a.cols) :=
  a.toList_slice i

theorem get_rowAt (a : DenseMatrix α) (i : Fin a.rows) (z : Fin 1) (j : Fin a.cols) :
    (a.rowAt i).grid.get z j = a.grid.get i j := by
  have hz : z.val = 0 := by omega
  refine Option.some.inj ?_
  calc some ((a.rowAt i).grid.get z j) = (a.rowAt i).data[z * a.cols + j]? :=
        ((a.rowAt i).getElem?_data z j).symm
    _ = a.data[i * a.cols + j]? := by
        rw [data_rowAt, List.extract_eq_take_drop, Nat.succ_mul, Nat.add_sub_cancel_left, hz,
          Nat.zero_mul, Nat.zero_add, List.getElem?_take_of_lt j.isLt, List.getElem?_drop]
    _ = some (a.grid.get i j) := a.getElem?_data i j

end DenseMatrix

namespace Grid

variable {m n k : Nat}

theorem toRows_dense (hm : 0 < m) (hn : 0 < n) (g : Grid α m n) :
    (g.dense hm hn).toRows = g.toLists :=
  (g.dense hm hn).toLists_grid.symm.trans (congrArg toLists (DenseMatrix.grid_dense hm hn g))

theorem hcat_dense (hm : 0 < m) (hn : 0 < n) (hk : 0 < k) (a : Grid α m n) (b : Grid α m k) :
    (a.dense hm hn).hcat (b.dense hm hk) =
      .ok ((a.beside b).dense hm (Nat.add_pos_left hn k)) := by
  obtain ⟨c, hc, hshape, hdata⟩ :=
    DenseMatrix.exists_hcat_data (a := a.dense hm hn) (b := b.dense hm hk) rfl
  have hlists : (a.beside b).toLists = List.zipWith (· ++ ·) a.toLists b.toLists := by
    simp [beside, toLists, Vector.toList_zipWith, List.zipWith_map, List.map_zipWith]
  have hslices : (List.range m).flatMap (fun i => ((a.dense hm hn).slice i).toList ++
      ((b.dense hm hk).slice i).toList) = (List.zipWith (· ++ ·) a.toLists b.toLists).flatten := by
    rw [← a.toRows_dense hm hn, ← b.toRows_dense hm hk,
      DenseMatrix.toRows, DenseMatrix.toRows, List.zipWith_map, List.flatMap_def]
    change _ = (List.zipWith _ (List.range m) (List.range m)).flatten
    rw [List.zipWith_self]
  simp only [DenseMatrix.toList_slice] at hslices
  rw [hc]
  refine congrArg Except.ok (DenseMatrix.ext_of_data ?_ ?_ ?_)
  · exact congrArg Shape.rows hshape
  · exact congrArg Shape.cols hshape
  · rw [data_dense, hlists, hdata]
    exact hslices

theorem vcat_dense (hm : 0 < m) (hk : 0 < k) (hn : 0 < n) (a : Grid α m n) (b : Grid α k n) :
    (a.dense hm hn).vcat (b.dense hk hn) =
      .ok (Grid.dense (Nat.add_pos_left hm k) hn (a ++ b)) := by
  obtain ⟨c, hc, hshape, hdata⟩ :=
    DenseMatrix.exists_vcat_data (a := a.dense hm hn) (b := b.dense hk hn) rfl
  rw [hc]
  refine congrArg Except.ok (DenseMatrix.ext_of_data ?_ ?_ ?_)
  · exact congrArg Shape.rows hshape
  · exact congrArg Shape.cols hshape
  · rw [hdata, data_dense, data_dense, data_dense]
    simp [toLists]

theorem identity_dense [Arithmetic α] (hn : 0 < n) :
    DenseMatrix.identity? n = .ok ((identity n : Grid α n n).dense hn hn) := by
  rw [DenseMatrix.identity?, Int.toNat_natCast, DenseMatrix.ofData?_eq_ofList hn hn]
  · refine congrArg Except.ok (DenseMatrix.ext_of_data rfl rfl ?_)
    rw [DenseMatrix.data_ofList, data_dense, toLists, identity, ofFn, Vector.toList_ofFn,
      List.map_ofFn, List.ofFn_eq_map, ← List.map_coe_finRange_eq_range, List.flatMap_map,
      List.flatMap_def]
    refine congrArg List.flatten (List.map_congr_left fun i _ => ?_)
    rw [List.map_map, Function.comp_apply, Vector.toList_ofFn, List.ofFn_eq_map]
    exact List.map_congr_left fun j _ => by simp [Fin.ext_iff]
  · rw [length_flatMap_of_length (k := n)] <;> simp

end Grid

end MatrixCalculator
