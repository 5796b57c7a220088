import MatrixCalculator.Matrix.Elimination

namespace MatrixCalculator

/-- At least one row and one column, and the entries row after row. -/
structure DenseMatrix (α : Type) where
  rows : Nat
  cols : Nat
  rows_pos : 0 < rows
  cols_pos : 0 < cols
  entries : Vector α (rows * cols)

abbrev Grid.dense {α : Type} {m n : Nat} (hm : 0 < m) (hn : 0 < n) (a : Grid α m n) :
    DenseMatrix α :=
  ⟨m, n, hm, hn, a.flatten⟩

theorem length_flatMap_of_length {α β : Type} {xs : List α} {f : α → List β} {k : Nat}
    (h : ∀ x ∈ xs, (f x).length = k) : (xs.flatMap f).length = xs.length * k := by
  induction xs with
  | nil => simp
  | cons x xs ih =>
    rw [List.flatMap_cons, List.length_append, h x List.mem_cons_self,
      ih fun y hy => h y (List.mem_cons_of_mem _ hy), List.length_cons, Nat.succ_mul, Nat.add_comm]

namespace DenseMatrix

variable {α : Type}

def shape (a : DenseMatrix α) : Shape := ⟨a.rows, a.cols⟩

def data (a : DenseMatrix α) : List α := a.entries.toList

theorem index_lt {i j r c : Nat} (hi : i < r) (hj : j < c) : i * c + j < r * c :=
  calc i * c + j < i * c + c := Nat.add_lt_add_left hj _
    _ = (i + 1) * c := (Nat.succ_mul i c).symm
    _ ≤ r * c := Nat.mul_le_mul_right c hi

def entry (a : DenseMatrix α) (i : Fin a.rows) (j : Fin a.cols) : α :=
  a.entries.get ⟨i * a.cols + j, index_lt i.isLt j.isLt⟩

/-- The slice of the entries that makes up the row `i`. -/
def slice (a : DenseMatrix α) (i : Nat) : Array α :=
  a.entries.toArray.extract (i * a.cols) ((i + 1) * a.cols)

theorem size_slice (a : DenseMatrix α) {i : Nat} (hi : i < a.rows) :
    (a.slice i).size = a.cols := by
  have hle : (i + 1) * a.cols ≤ a.rows * a.cols := Nat.mul_le_mul_right _ hi
  have hsucc : (i + 1) * a.cols = i * a.cols + a.cols := Nat.succ_mul i a.cols
  rw [slice, Array.size_extract, a.entries.size_toArray, Nat.min_eq_left hle]
  omega

def toRows (a : DenseMatrix α) : List (List α) :=
  (List.range a.rows).map fun i => (a.slice i).toList

def grid (a : DenseMatrix α) : Grid α a.rows a.cols :=
  Vector.ofFn fun i => ⟨a.slice i, a.size_slice i.isLt⟩

def ofList (rows cols : Nat) (data : List α) (hrows : 0 < rows) (hcols : 0 < cols)
    (h : data.length = rows * cols) : DenseMatrix α :=
  ⟨rows, cols, hrows, hcols, ⟨data.toArray, h⟩⟩

/-- The matrix of a shape with the given entries, row after row. -/
def ofData? (rows cols : Int) (data : List α) : Except Failure (DenseMatrix α) :=
  if h : 0 < rows ∧ 0 < cols ∧ data.length = rows.toNat * cols.toNat then
    .ok (ofList rows.toNat cols.toNat data (by omega) (by omega) h.2.2)
  else fault (.wrongShape rows cols data.length)

def ofRows? (rows : List (List α)) : Except Failure (DenseMatrix α) :=
  match rows with
  | [] => fault .noRows
  | first :: _ =>
    match rows.find? fun row => row.length != first.length with
    | some row => fail (.mismatch "stack rows of" (some ⟨1, first.length⟩) (some ⟨1, row.length⟩))
    | none => ofData? rows.length first.length rows.flatten

def single (x : α) : DenseMatrix α := ofList 1 1 [x] (by decide) (by decide) rfl

def only? (a : DenseMatrix α) : Option α :=
  if h : a.rows = 1 ∧ a.cols = 1 then
    some (a.entry ⟨0, by omega⟩ ⟨0, by omega⟩)
  else none

def get (a : DenseMatrix α) (i j : Int) : Except Failure α :=
  if h : (0 ≤ i ∧ i < a.rows) ∧ 0 ≤ j ∧ j < a.cols then
    .ok (a.entry ⟨i.toNat, by omega⟩ ⟨j.toNat, by omega⟩)
  else fail (.outOfRange [i, j] (some a.shape))

def row (a : DenseMatrix α) (i : Int) : Except Failure (DenseMatrix α) :=
  if 0 ≤ i ∧ i < a.rows then ofData? 1 a.cols (a.slice i.toNat).toList
  else fail (.outOfRange [i] (some a.shape))

/-- One index picks an entry of a single row or column, and a row of any other matrix. -/
def select (a : DenseMatrix α) (i : Int) : Except Failure (α ⊕ DenseMatrix α) :=
  if a.rows = 1 then (a.get 0 i).map .inl
  else if a.cols = 1 then (a.get i 0).map .inl
  else (a.row i).map .inr

def map (f : α → α) (a : DenseMatrix α) : DenseMatrix α := { a with entries := a.entries.map f }

def mapM (f : α → Except Failure α) (a : DenseMatrix α) : Except Failure (DenseMatrix α) := do
  return { a with entries := ← a.entries.mapM f }

def transpose (a : DenseMatrix α) : DenseMatrix α :=
  ofList a.cols a.rows
    ((List.finRange a.cols).flatMap fun j => (List.finRange a.rows).map fun i => a.entry i j)
    a.cols_pos a.rows_pos (by rw [length_flatMap_of_length (k := a.rows)] <;> simp)

def hcat (a b : DenseMatrix α) : Except Failure (DenseMatrix α) :=
  if b.rows = a.rows then
    ofData? a.rows (a.cols + b.cols : Nat)
      ((List.range a.rows).flatMap fun i => (a.slice i).toList ++ (b.slice i).toList)
  else fail (.mismatch "hcat" (some a.shape) (some b.shape))

def vcat (a b : DenseMatrix α) : Except Failure (DenseMatrix α) :=
  if b.cols = a.cols then ofData? (a.rows + b.rows : Nat) a.cols (a.data ++ b.data)
  else fail (.mismatch "vcat" (some a.shape) (some b.shape))

def combine? (f : α → α → α) (a b : DenseMatrix α) : Option (DenseMatrix α) :=
  if h : b.rows = a.rows ∧ b.cols = a.cols then
    some { a with entries := a.entries.zipWith f (b.entries.cast (by rw [h.1, h.2])) }
  else none

def square (verb : String) (a : DenseMatrix α) : Except Failure (Grid α a.rows a.rows) :=
  if h : a.cols = a.rows then .ok (a.grid.map fun row => row.cast h)
  else fail (.notSquare verb (some a.shape))

variable [Arithmetic α]

def identity? (n : Int) : Except Failure (DenseMatrix α) :=
  ofData? n n ((List.range n.toNat).flatMap fun i =>
    (List.range n.toNat).map fun j => if i = j then 1 else 0)

/-- The matrix of zeros, if its entries can be counted in 64 bits. -/
def zeros? (rows cols : Int) : Except Failure (DenseMatrix α) :=
  if Int.pow 2 63 ≤ rows * cols ∨ rows * cols < -Int.pow 2 63 then fault .tooManyEntries
  else ofData? rows cols (List.replicate (rows * cols).toNat 0)

def trace (a : DenseMatrix α) : Except Failure α := do
  let grid ← a.square "take the trace of"
  return grid.diagonalSum

def tooLarge (subject : String) : Cause := .invalid subject "result too large"

def mul (a b : DenseMatrix α) : Except Failure (DenseMatrix α) :=
  if h : b.rows = a.cols then
    match a.grid.mul (b.grid.cast h) with
    | some grid => .ok (grid.dense a.rows_pos b.cols_pos)
    | none => fail (tooLarge "*")
  else fail (.mismatch "multiply" (some a.shape) (some b.shape))

def determinant (a : DenseMatrix α) (tolerance : α) : Except Failure α := do
  let grid ← a.square "take the determinant of"
  grid.determinant tolerance

def inverse (a : DenseMatrix α) (tolerance : α) : Except Failure (DenseMatrix α) := do
  let grid ← a.square "invert"
  return (← grid.inverse tolerance).dense a.rows_pos a.rows_pos

def solve (a b : DenseMatrix α) (tolerance : α) : Except Failure (DenseMatrix α) := do
  let grid ← a.square "solve with"
  if h : b.rows = a.rows then
    let solution ← grid.solve (b.grid.cast h) tolerance "solve with"
    return solution.dense a.rows_pos b.cols_pos
  else fail (.mismatch "solve" (some a.shape) (some b.shape))

def rref (a : DenseMatrix α) (tolerance : α) : Except Failure (DenseMatrix α) := do
  let reduced ← a.grid.rowReduce tolerance
  return reduced.grid.dense a.rows_pos a.cols_pos

def rank (a : DenseMatrix α) (tolerance : α) : Except Failure Nat := do
  let reduced ← a.grid.rowReduce tolerance
  return reduced.pivots.length

/-- A basis of the kernel in columns, one for each free column of the reduced form; a column of
zeros when there is none. -/
def nullspace (a : DenseMatrix α) (tolerance : α) : Except Failure (DenseMatrix α) := do
  let reduced ← a.grid.rowReduce tolerance
  let free := reduced.free
  if h : 0 < free.length then
    return (Grid.ofFn fun i k => reduced.kernelEntry (free.get k) i).dense a.cols_pos h
  else return (Grid.ofFn fun _ (_ : Fin 1) => 0).dense a.cols_pos (by decide)

/-- An integer power of a square matrix; a negative one is a power of the inverse. -/
def power (a : DenseMatrix α) (exponent : Int) (tolerance : α) :
    Except Failure (DenseMatrix α) := do
  let grid ← a.square "raise to a power"
  let base ← if exponent < 0 then grid.inverse tolerance else pure grid
  match base.power exponent.natAbs with
  | some grid => return grid.dense a.rows_pos a.rows_pos
  | none => fail (tooLarge "*")

end DenseMatrix
end MatrixCalculator
