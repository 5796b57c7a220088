import Mathlib
import MatrixCalculator.Proofs.NullSpaces
import MatrixCalculator.Proofs.RightSides

namespace MatrixCalculator

namespace Grid

variable {n : Nat}

theorem powerFrom_step {α : Type} [Arithmetic α] (result base : Grid α n n) {exponent : Nat}
    (h : exponent ≠ 0) : powerFrom result base exponent =
      (if exponent % 2 = 1 then result.mul base else some result).bind fun result =>
        (if exponent / 2 = 0 then some base else base.mul base).bind fun base =>
          powerFrom result base (exponent / 2) := by
  rw [powerFrom, dif_neg h]
  split
  · split <;> rfl
  · split <;> rfl

theorem exists_multiplied (result base : Grid ℚ n n) (exponent : Nat) :
    ∃ next, (if exponent % 2 = 1 then result.mul base else some result) = some next ∧
      next.toMatrix = result.toMatrix * base.toMatrix ^ (exponent % 2) := by
  rcases Nat.mod_two_eq_zero_or_one exponent with heven | hodd
  · refine ⟨result, by rw [heven, if_neg zero_ne_one], ?_⟩
    rw [heven, pow_zero, mul_one]
  · obtain ⟨next, hnext, hproduct⟩ := result.exists_mul base
    refine ⟨next, by rw [if_pos hodd, hnext], ?_⟩
    rw [hodd, pow_one, hproduct]

theorem exists_squared (base : Grid ℚ n n) (exponent : Nat) :
    ∃ next, (if exponent / 2 = 0 then some base else base.mul base) = some next ∧
      next.toMatrix ^ (exponent / 2) = base.toMatrix ^ (2 * (exponent / 2)) := by
  by_cases hlast : exponent / 2 = 0
  · refine ⟨base, if_pos hlast, ?_⟩
    rw [hlast, mul_zero]
  · obtain ⟨next, hnext, hproduct⟩ := base.exists_mul base
    refine ⟨next, by rw [if_neg hlast, hnext], ?_⟩
    rw [hproduct, ← pow_two, pow_mul]

/-- The loop never fails and keeps the result times the power of the base. -/
theorem exists_powerFrom (result base : Grid ℚ n n) (exponent : Nat) :
    ∃ c, powerFrom result base exponent = some c ∧
      c.toMatrix = result.toMatrix * base.toMatrix ^ exponent := by
  induction exponent using Nat.strong_induction_on generalizing result base with
  | _ exponent ih =>
    by_cases hzero : exponent = 0
    · refine ⟨result, by rw [powerFrom, dif_pos hzero], ?_⟩
      rw [hzero, pow_zero, mul_one]
    · obtain ⟨result', hresult, hmultiplied⟩ := exists_multiplied result base exponent
      obtain ⟨base', hbase, hsquared⟩ := exists_squared base exponent
      obtain ⟨c, hc, hpower⟩ := ih (exponent / 2) (by omega) result' base'
      refine ⟨c, ?_, ?_⟩
      · rw [powerFrom_step result base hzero, hresult, Option.bind_some, hbase, Option.bind_some,
          hc]
      · rw [hpower, hmultiplied, hsquared, mul_assoc, ← pow_add, Nat.mod_add_div]

theorem exists_power (base : Grid ℚ n n) (exponent : Nat) :
    ∃ c, base.power exponent = some c ∧ c.toMatrix = base.toMatrix ^ exponent := by
  obtain ⟨c, hc, hpower⟩ := exists_powerFrom (identity n) base exponent
  exact ⟨c, hc, by rw [hpower, toMatrix_identity, one_mul]⟩

end Grid

namespace DenseMatrix

/-- The product of so many copies of the matrix, one after the other behind the identity. -/
def repeatedProduct {α : Type} [Arithmetic α] (a : DenseMatrix α) :
    Nat → Except Failure (DenseMatrix α)
  | 0 => identity? a.rows
  | k + 1 => do (← a.repeatedProduct k).mul a

end DenseMatrix

namespace Grid

variable {n : Nat}

theorem repeatedProduct_dense (hn : 0 < n) (a : Grid ℚ n n) (k : Nat) :
    ∃ p : Grid ℚ n n, (a.dense hn hn).repeatedProduct k = .ok (p.dense hn hn) ∧
      p.toMatrix = a.toMatrix ^ k := by
  induction k with
  | zero => exact ⟨identity n, identity_dense hn, by rw [toMatrix_identity, pow_zero]⟩
  | succ k ih =>
    obtain ⟨p, hp, hpower⟩ := ih
    obtain ⟨q, -, hq⟩ := p.exists_mul a
    refine ⟨q, ?_, by rw [hq, hpower, pow_succ]⟩
    rw [DenseMatrix.repeatedProduct, hp]
    exact mul_dense hq

theorem exists_repeatedProduct (hn : 0 < n) (a : Grid ℚ n n) (k : Nat) :
    ∃ p : Grid ℚ n n, a.power k = some p ∧
      (a.dense hn hn).repeatedProduct k = .ok (p.dense hn hn) := by
  obtain ⟨p, hp, hpower⟩ := a.exists_power k
  obtain ⟨q, hq, hpower'⟩ := repeatedProduct_dense hn a k
  obtain rfl : p = q :=
    Grid.ext fun i j => congrFun (congrFun (hpower.trans hpower'.symm) i) j
  exact ⟨p, hp, hq⟩

theorem power_dense {α : Type} [Arithmetic α] (hn : 0 < n) (a : Grid α n n) (k : Int)
    (tolerance : α) : (a.dense hn hn).power k tolerance =
      (if k < 0 then a.inverse tolerance else .ok a).bind fun b =>
        (b.power k.natAbs).elim (fail (DenseMatrix.tooLarge "*")) fun p => .ok (p.dense hn hn) := by
  rw [DenseMatrix.power, square_dense]
  dsimp only [bind, Except.bind, pure, Except.pure]
  by_cases hk : k < 0
  · rw [if_pos hk, if_pos hk]
    cases a.inverse tolerance with
    | error e => rfl
    | ok b =>
      dsimp only
      cases b.power k.natAbs <;> rfl
  · rw [if_neg hk, if_neg hk]
    dsimp only
    cases a.power k.natAbs <;> rfl

end Grid

namespace DenseMatrix

/-- In exact arithmetic a power is the product of as many copies of the matrix as the exponent says,
and of its inverse if the exponent is negative; it fails only where there is no inverse. -/
theorem power_exact (a : DenseMatrix ℚ) (ha : a.cols = a.rows) (k : Int) (tolerance : ℚ) :
    (0 ≤ k → a.power k tolerance = a.repeatedProduct k.natAbs) ∧
    (k < 0 → a.power k tolerance =
      (a.inverse tolerance).bind fun b => b.repeatedProduct k.natAbs) ∧
    ((∃ e, a.power k tolerance = .error e) ↔ k < 0 ∧ ∃ e, a.inverse tolerance = .error e) := by
  obtain ⟨n, _, hn, _, a, rfl⟩ := a.exists_dense
  dsimp only at ha
  subst ha
  rw [Grid.power_dense, Grid.inverse_dense]
  by_cases hk : k < 0
  · have hneg : ¬0 ≤ k := by omega
    rw [if_pos hk]
    cases a.inverse tolerance with
    | error e =>
      exact ⟨fun h => absurd h hneg, fun _ => rfl, fun _ => ⟨hk, e, rfl⟩, fun _ => ⟨e, rfl⟩⟩
    | ok b =>
      obtain ⟨p, hp, hproduct⟩ := Grid.exists_repeatedProduct hn b k.natAbs
      dsimp only [Except.bind, Except.map]
      rw [hp, hproduct]
      refine ⟨fun h => absurd h hneg, fun _ => rfl, ?_⟩
      simp
  · rw [if_neg hk]
    obtain ⟨p, hp, hproduct⟩ := Grid.exists_repeatedProduct hn a k.natAbs
    dsimp only [Except.bind]
    rw [hp, hproduct]
    refine ⟨fun _ => rfl, fun h => absurd h hk, ?_⟩
    simp [hk]

/-- The inverse, for which rows are exchanged, to the third power. -/
theorem power_exact_exchange :
    ∃ v p, (Grid.dense (by decide) (by decide) #v[#v[(0 : ℚ), 2], #v[1, 0]]).inverse (1 / 10) =
        .ok v ∧
      (Grid.dense (by decide) (by decide) #v[#v[(0 : ℚ), 2], #v[1, 0]]).power (-3) (1 / 10) =
        .ok p ∧ v.repeatedProduct 3 = .ok p ∧ p.toRows = [[0, 1 / 2], [1 / 4, 0]] := by
  have hrun : ((Grid.dense (by decide) (by decide) #v[#v[(0 : ℚ), 2], #v[1, 0]]).power (-3)
      (1 / 10)).toOption.map toRows = some [[0, 1 / 2], [1 / 4, 0]] := by
    decide +kernel
  obtain ⟨p, hp, hrows⟩ := Option.map_eq_some_iff.mp hrun
  have hp := eq_ok_of_toOption hp
  obtain ⟨-, hproduct, -⟩ := power_exact
    (Grid.dense (by decide) (by decide) #v[#v[(0 : ℚ), 2], #v[1, 0]]) rfl (-3) (1 / 10)
  have hproduct := hproduct (by decide)
  rw [hp] at hproduct
  cases hinverse : (Grid.dense (by decide) (by decide) #v[#v[(0 : ℚ), 2], #v[1, 0]]).inverse
      (1 / 10) with
  | error e =>
    rw [hinverse] at hproduct
    contradiction
  | ok v =>
    rw [hinverse] at hproduct
    exact ⟨v, p, rfl, hp, hproduct.symm, hrows⟩

end DenseMatrix

end MatrixCalculator
