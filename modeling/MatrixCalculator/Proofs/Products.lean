import Mathlib
import MatrixCalculator.Proofs.Exact
import MatrixCalculator.Proofs.Sums

namespace MatrixCalculator

namespace Grid

variable {m n k : Nat}

section Arithmetic

variable {α : Type} [Arithmetic α]

/-- The entry of a product, if the sum of its products has one. -/
def cell? (a : Grid α m k) (b : Grid α k n) (i : Fin m) (j : Fin n) : Option α :=
  Arithmetic.sum? (List.ofFn fun l => a.get i l * b.get l j)

theorem products_eq_ofFn (row column : Vector α k) :
    products row column = List.ofFn fun l => row.get l * column.get l := by
  have hproducts : Vector.zipWith (fun x y => x * y) row column =
      Vector.ofFn fun l => row.get l * column.get l := by
    apply Vector.ext
    intro l hl
    simp [Vector.get_eq_getElem]
  rw [products, hproducts, Vector.toList_ofFn]

theorem mul_eq (a : Grid α m k) (b : Grid α k n) : a.mul b =
    if ∀ i j, (cell? a b i j).isSome = true then some (ofFn fun i j => (cell? a b i j).getD 0)
    else none := by
  have hsums : (a.map fun row => b.transpose.map fun column =>
      Arithmetic.sum? (products row column)) = ofFn (cell? a b) := by
    apply Grid.ext
    intro i j
    rw [get_map_rows, get_ofFn, Vector.get_eq_getElem, Vector.getElem_map]
    change Arithmetic.sum? (products (a.row i) (b.transpose.row j)) = _
    simp only [products_eq_ofFn, get_row, get_transpose, cell?]
  have hall : ((ofFn (cell? a b)).all fun row => row.all Option.isSome) = true ↔
      ∀ i j, (cell? a b i j).isSome = true := by
    simp [ofFn, Fin.forall_iff]
  rw [mul, hsums]
  simp only [hall]
  split
  · congr 1
    exact Grid.ext fun i j => by simp
  · rfl

theorem mul_eq_some_iff {a : Grid α m k} {b : Grid α k n} {c : Grid α m n} :
    a.mul b = some c ↔ ∀ i j, cell? a b i j = some (c.get i j) := by
  rw [mul_eq]
  constructor
  · intro h i j
    split at h
    · rename_i hsome
      obtain ⟨x, hx⟩ := Option.isSome_iff_exists.mp (hsome i j)
      rw [← Option.some.inj h, get_ofFn, hx]
      rfl
    · contradiction
  · intro h
    rw [if_pos fun i j => by rw [h]; rfl]
    congr 1
    exact Grid.ext fun i j => by rw [get_ofFn, h]; rfl

end Arithmetic

end Grid

namespace Double

theorem unpacked_one_mul (x : Float) : unpacked (1 * x) = unpacked x := by
  apply unpacked_mul (canonical_unpacked x)
  rw [unpacked_one, mul_comm_unpacked, mul_one_canonical (canonical_unpacked x)]

theorem isFinite_one_mul (x : Float) : (1 * x).isFinite = x.isFinite := by
  rw [isFinite_eq, unpacked_one_mul, isFinite_eq]

theorem beq_zero_zero_mul {x : Float} (hx : x.isFinite = true) : (0 * x == 0) = true := by
  rw [beq_zero_iff]
  rw [isFinite_eq] at hx
  cases h : unpacked x with
  | zero s => exact ⟨_, unpacked_mul (canonical_zero _) (by rw [h]; rfl)⟩
  | finite s m e hm => exact ⟨_, unpacked_mul (canonical_zero _) (by rw [h]; rfl)⟩
  | _ =>
    rw [h] at hx
    contradiction

theorem isFinite_of_beq_zero {x : Float} (h : (x == 0) = true) : x.isFinite = true := by
  obtain ⟨s, hs⟩ := beq_zero_iff.mp h
  rw [isFinite_eq, unpacked, hs]
  rfl

end Double

namespace Grid

variable {n k : Nat}

theorem isFinite_identity_mul {b : Grid Float n k} {c : Grid Float n k}
    (h : (identity n).mul b = some c) (hc : ∀ i j, (c.get i j).isFinite = true) (i : Fin n)
    (j : Fin k) : (b.get i j).isFinite = true := by
  by_contra hb
  rw [Bool.not_eq_true] at hb
  have hentry := mul_eq_some_iff.mp h i j
  have hnot : (c.get i j).isFinite = false := by
    apply ExactSum.not_isFinite_of_sum? hentry
    refine ⟨1 * b.get i j, ?_, by rwa [Double.isFinite_one_mul]⟩
    rw [List.mem_ofFn]
    exact ⟨i, by rw [identity, get_ofFn, if_pos rfl]⟩
  rw [hc i j] at hnot
  contradiction

theorem exists_identity_mul {b : Grid Float n k} (hb : ∀ i j, (b.get i j).isFinite = true) :
    ∃ c, (identity n).mul b = some c ∧ ∀ i j, (c.get i j).isFinite = true := by
  have hproduct : ∀ (i l : Fin n) (j : Fin k), i ≠ l →
      ((identity n).get i l * b.get l j == 0) = true := by
    intro i l j hne
    rw [identity, get_ofFn, if_neg hne]
    exact Double.beq_zero_zero_mul (hb l j)
  have hsum : ∀ i j, ∃ y, cell? (identity n) b i j = some y ∧ y.isFinite = true := by
    intro i j
    apply ExactSum.exists_sum?
    · intro x hx
      obtain ⟨l, rfl⟩ := List.mem_ofFn.mp hx
      by_cases hil : i = l
      · subst hil
        rw [identity, get_ofFn, if_pos rfl, Double.isFinite_one_mul, hb]
      · exact Double.isFinite_of_beq_zero (hproduct i l j hil)
    · rw [List.pairwise_ofFn]
      intro l l' hlt
      by_cases hil : i = l
      · exact .inr (hproduct i l' j (hil ▸ hlt.ne))
      · exact .inl (hproduct i l j hil)
  choose y hy hfinite using hsum
  refine ⟨ofFn y, mul_eq_some_iff.mpr fun i j => by rw [hy, get_ofFn], fun i j => ?_⟩
  rw [get_ofFn]
  exact hfinite i j

end Grid

end MatrixCalculator
