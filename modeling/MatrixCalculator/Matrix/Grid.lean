import MatrixCalculator.Matrix.Arithmetic

namespace MatrixCalculator

abbrev Grid (α : Type) (m n : Nat) := Vector (Vector α n) m

namespace Grid

variable {α β : Type} {m n k : Nat}

def get (a : Grid α m n) (i : Fin m) (j : Fin n) : α := a[i][j]

def row (a : Grid α m n) (i : Fin m) : Vector α n := a[i]

def ofFn (f : Fin m → Fin n → α) : Grid α m n := Vector.ofFn fun i => Vector.ofFn fun j => f i j

@[simp] theorem get_ofFn (f : Fin m → Fin n → α) (i : Fin m) (j : Fin n) :
    (ofFn f).get i j = f i j := by
  simp [get, ofFn]

theorem ext {a b : Grid α m n} (h : ∀ i j, a.get i j = b.get i j) : a = b := by
  apply Vector.ext
  intro i hi
  apply Vector.ext
  intro j hj
  exact h ⟨i, hi⟩ ⟨j, hj⟩

def mapEntries (f : α → β) (a : Grid α m n) : Grid β m n := a.map fun row => row.map f

@[simp] theorem get_mapEntries (f : α → β) (a : Grid α m n) (i : Fin m) (j : Fin n) :
    (a.mapEntries f).get i j = f (a.get i j) := by
  simp [get, mapEntries]

def transpose (a : Grid α m n) : Grid α n m := ofFn fun j i => a.get i j

@[simp] theorem get_transpose (a : Grid α m n) (i : Fin m) (j : Fin n) :
    a.transpose.get j i = a.get i j := by
  simp [transpose]

/-- The second grid to the right of the first. -/
def beside (a : Grid α m n) (b : Grid α m k) : Grid α m (n + k) :=
  Vector.zipWith (fun row row' => row ++ row') a b

/-- The columns from `n` on. -/
def right (a : Grid α m (n + k)) : Grid α m k := ofFn fun i j => a.get i (j.natAdd n)

def swapRows (a : Grid α m n) (r s : Fin m) : Grid α m n :=
  Vector.ofFn fun i => if i = r then a.row s else if i = s then a.row r else a.row i

@[simp] theorem get_swapRows (a : Grid α m n) (r s i : Fin m) (j : Fin n) :
    (a.swapRows r s).get i j =
      if i = r then a.get s j else if i = s then a.get r j else a.get i j := by
  simp only [get, row, swapRows, Fin.getElem_fin, Vector.getElem_ofFn]
  split
  · rfl
  · split <;> rfl

def toLists (a : Grid α m n) : List (List α) := a.toList.map fun row => row.toList

variable [Arithmetic α]

def identity (n : Nat) : Grid α n n := ofFn fun i j => if i = j then 1 else 0

def diagonalSum (a : Grid α n n) : α := (List.finRange n).foldl (fun sum i => sum + a.get i i) 0

/-- The products that make up entry `(i, j)` of a product, in the order of their addition. -/
def products (row : Vector α k) (column : Vector α k) : List α :=
  (Vector.zipWith (fun x y => x * y) row column).toList

/-- The product row by column; `none` when a sum leaves the range of the numbers. -/
def mul (a : Grid α m k) (b : Grid α k n) : Option (Grid α m n) :=
  let columns := b.transpose
  let sums : Grid (Option α) m n :=
    a.map fun row => columns.map fun column => Arithmetic.sum? (products row column)
  if sums.all fun row => row.all Option.isSome then
    some (sums.mapEntries fun sum => sum.getD 0)
  else none

/-- `result · base ^ exponent` by repeated squaring. -/
def powerFrom (result base : Grid α n n) (exponent : Nat) : Option (Grid α n n) :=
  if h : exponent = 0 then some result
  else do
    let result ← if exponent % 2 = 1 then result.mul base else some result
    let base ← if exponent / 2 = 0 then some base else base.mul base
    powerFrom result base (exponent / 2)
termination_by exponent

def power (base : Grid α n n) (exponent : Nat) : Option (Grid α n n) :=
  powerFrom (identity n) base exponent

end Grid
end MatrixCalculator
