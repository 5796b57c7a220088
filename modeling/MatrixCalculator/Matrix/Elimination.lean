import MatrixCalculator.Failure
import MatrixCalculator.Matrix.Grid

namespace MatrixCalculator.Grid

open Arithmetic

variable {α : Type} [Arithmetic α] {m n k : Nat}

/-- The row from `start` on with the greatest magnitude in the column, the first of several. -/
def pivotRow (a : Grid α m n) (start : Fin m) (col : Fin n) : Fin m :=
  (List.finRange m).foldl (fun best r =>
    if start < r ∧ below (Arithmetic.abs (a.get best col)) (Arithmetic.abs (a.get r col)) then r
    else best) start

def negligible (tolerance x : α) : Bool := below (Arithmetic.abs x) tolerance

def cleared (row pivot : Vector α n) (factor : α) : Vector α n :=
  if isZero factor then row else Vector.zipWith (fun x y => x - factor * y) row pivot

/-- Divides row `p` by its entry in the column and clears the column in all other rows. -/
def reduceColumn (a : Grid α m n) (p : Fin m) (col : Fin n) : Except Failure (Grid α m n) :=
  let entry := a.get p col
  if isZero entry then fault .zeroPivot
  else
    let pivot := (a.row p).map fun x => x / entry
    .ok (Vector.ofFn fun i => if i = p then pivot else cleared (a.row i) pivot (a.get i col))

def solveStep (tolerance : α) (verb : String) (a : Grid α n (n + k)) (col : Fin n) :
    Except Failure (Grid α n (n + k)) :=
  let left := col.castAdd k
  let p := a.pivotRow col left
  if negligible tolerance (a.get p left) then fail (.singular verb)
  else (a.swapRows col p).reduceColumn col left

def eliminate (tolerance : α) (verb : String) (a : Grid α n (n + k)) :
    Except Failure (Grid α n (n + k)) :=
  (List.finRange n).foldlM (solveStep tolerance verb) a

def solve (a : Grid α n n) (b : Grid α n k) (tolerance : α) (verb : String) :
    Except Failure (Grid α n k) := do
  let reduced ← eliminate tolerance verb (a.beside b)
  return reduced.right

def inverse (a : Grid α n n) (tolerance : α) : Except Failure (Grid α n n) :=
  a.solve (identity n) tolerance "invert"

def clearBelow (a : Grid α n n) (col : Fin n) : Except Failure (Grid α n n) :=
  let entry := a.get col col
  if isZero entry ∧ col.val + 1 < n then fault .zeroPivot
  else .ok (Vector.ofFn fun i =>
    if col < i then cleared (a.row i) (a.row col) (a.get i col / entry) else a.row i)

/-- The product of the pivots of the remaining columns, with a change of sign for every exchange of
rows; zero as soon as a pivot vanishes. -/
def determinantFrom (tolerance : α) : List (Fin n) → α → Grid α n n → Except Failure α
  | [], det, _ => .ok det
  | col :: cols, det, a =>
    let p := a.pivotRow col col
    if negligible tolerance (a.get p col) then .ok 0
    else do
      let a := a.swapRows col p
      let det := (if p = col then det else -det) * a.get col col
      determinantFrom tolerance cols det (← a.clearBelow col)

def determinant (a : Grid α n n) (tolerance : α) : Except Failure α :=
  determinantFrom tolerance (List.finRange n) 1 a

structure Reduction (α : Type) (m n : Nat) where
  grid : Grid α m n
  pivots : List (Fin m × Fin n)

def clearFrom (a : Grid α m n) (start : Fin m) (col : Fin n) : Grid α m n :=
  ofFn fun i j => if start ≤ i ∧ j = col then 0 else a.get i j

def reduceStep (tolerance : α) (s : Reduction α m n) (col : Fin n) :
    Except Failure (Reduction α m n) :=
  if h : s.pivots.length < m then
    let start : Fin m := ⟨s.pivots.length, h⟩
    let p := s.grid.pivotRow start col
    if negligible tolerance (s.grid.get p col) then
      .ok { s with grid := s.grid.clearFrom start col }
    else do
      let grid ← (s.grid.swapRows start p).reduceColumn start col
      return ⟨grid, s.pivots ++ [(start, col)]⟩
  else .ok s

/-- The reduced row echelon form, where negligible entries become zero, and its pivots. -/
def rowReduce (a : Grid α m n) (tolerance : α) : Except Failure (Reduction α m n) := do
  let s ← (List.finRange n).foldlM (reduceStep tolerance) ⟨a, []⟩
  return { s with grid := s.grid.mapEntries fun x => if negligible tolerance x then 0 else x }

def Reduction.free (s : Reduction α m n) : List (Fin n) :=
  (List.finRange n).filter fun j => !(s.pivots.any fun p => p.2 = j)

def Reduction.kernelEntry (s : Reduction α m n) (f i : Fin n) : α :=
  if i = f then 1
  else
    match s.pivots.find? fun p => p.2 = i with
    | some (r, _) => -s.grid.get r f
    | none => 0

end MatrixCalculator.Grid
