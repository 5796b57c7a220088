import Mathlib
import MatrixCalculator.Settings
import MatrixCalculator.Proofs.Canonical
import MatrixCalculator.Proofs.Echelon
import MatrixCalculator.Proofs.Soundness
import MatrixCalculator.Proofs.Values

namespace MatrixCalculator

open Float.Model (Format UnpackedFloat)
open Float.Model.UnpackedFloat

namespace Double

theorem lawful : Grid.Lawful fun x : Float => x.isNaN = false where
  isZero_zero := by decide
  isZero_one := by decide
  fine_of_div := by
    intro x y hfine
    by_contra hx
    rw [Bool.not_eq_false, isNaN_iff] at hx
    apply unpacked_ne_notANumber hfine
    apply unpacked_div canonical_notANumber
    rw [hx]
    cases unpacked y <;> rfl
  fine_of_sub := by
    intro x y z hfine
    by_contra hx
    rw [Bool.not_eq_false, isNaN_iff] at hx
    exact unpacked_ne_notANumber hfine (unpacked_sub_notANumber (.inl hx))
  div_self := by
    intro x hzero hfine
    have hnumber := unpacked_ne_notANumber hfine
    cases hx : unpacked x with
    | infinity s => exact absurd (unpacked_div canonical_notANumber (by rw [hx]; rfl)) hnumber
    | notANumber => exact absurd (unpacked_div canonical_notANumber (by rw [hx]; rfl)) hnumber
    | zero s =>
      rw [isZero_iff.mpr ⟨s, hx⟩] at hzero
      contradiction
    | finite s m e hm =>
      change Float.ofModel (Float.Model.pack (div Format.binary64 (unpacked x) (unpacked x))) = 1
      rw [hx, div_self_finite]
      rfl
  zero_div := by
    intro x y hx hy hfine
    have hnumber := unpacked_ne_notANumber hfine
    obtain ⟨s, hs⟩ := isZero_iff.mp hx
    rw [isZero_iff]
    cases hy' : unpacked y with
    | infinity t => exact ⟨_, unpacked_div (canonical_zero _) (by rw [hs, hy', div])⟩
    | notANumber => exact absurd (unpacked_div canonical_notANumber (by rw [hs, hy']; rfl)) hnumber
    | zero t =>
      rw [isZero_iff.mpr ⟨t, hy'⟩] at hy
      contradiction
    | finite t m e hm => exact ⟨_, unpacked_div (canonical_zero _) (by rw [hs, hy', div])⟩
  sub_mul_one := by
    intro x hfine
    have hnumber := unpacked_ne_notANumber hfine
    have hone : unpacked (x * 1) = unpacked x := by
      apply unpacked_mul (canonical_unpacked x)
      rw [unpacked_one, mul_one_canonical (canonical_unpacked x)]
    rw [isZero_iff]
    rcases sub_self_cases (unpacked x) with hzero | hnan
    · exact ⟨_, unpacked_sub (canonical_zero _) (by rw [hone, hzero])⟩
    · exact absurd (unpacked_sub canonical_notANumber (by rw [hone, hnan])) hnumber
  zero_sub_zero := by
    intro x y z hx hz hfine
    obtain ⟨s, hs⟩ := isZero_iff.mp hx
    rw [isZero_iff]
    rcases unpacked_mul_zero (isZero_iff.mp hz) y with hnan | ⟨t, ht⟩
    · exact absurd (unpacked_sub_notANumber (.inr hnan)) (unpacked_ne_notANumber hfine)
    · cases s <;> cases t <;> exact ⟨_, unpacked_sub (canonical_zero _) (by rw [hs, ht]; rfl)⟩
  one_sub_zero := by
    intro y z hz hfine
    rcases unpacked_mul_zero (isZero_iff.mp hz) y with hnan | ⟨t, ht⟩
    · exact absurd (unpacked_sub_notANumber (.inr hnan)) (unpacked_ne_notANumber hfine)
    · change Float.ofModel
        (Float.Model.pack (sub Format.binary64 (unpacked 1) (unpacked (y * z)))) = 1
      rw [ht]
      rfl

theorem isNaN_of_isFinite {x : Float} (h : x.isFinite = true) : x.isNaN = false := by
  change (unpacked x).isFinite = true at h
  rw [Bool.eq_false_iff, ne_eq, isNaN_iff]
  intro hx
  rw [hx] at h
  contradiction

theorem negligible_of_isNaN {x : Float} (tolerance : Float) (h : x.isNaN = true) :
    Grid.negligible tolerance x = false := by
  have habs : unpacked x.abs = .notANumber := by
    change unpack Format.binary64 (pack Format.binary64 (unpacked x).abs) = _
    rw [isNaN_iff.mp h]
    rfl
  apply decide_eq_false
  change ¬x.abs < tolerance
  rw [lt_iff, habs]
  simp [UnpackedFloat.compare]

theorem negligible_one {tolerance : Float} (h : ¬1 < tolerance) :
    Grid.negligible tolerance 1 = false :=
  decide_eq_false h

end Double

namespace Grid

variable {m n : Nat}

/-- The pivots of a finite reduced form of doubles are its rows other than zero. -/
theorem nonzeroRows_rowReduce {a : Grid Float m n} {tolerance : Float} {r : Reduction Float m n}
    (h : a.rowReduce tolerance = .ok r) (hfinite : ∀ i j, (r.grid.get i j).isFinite = true)
    (htolerance : ¬1 < tolerance) : r.grid.nonzeroRows = r.pivots.length := by
  obtain ⟨s, hs, rfl⟩ := exists_run_of_rowReduce h
  apply Echelon.nonzeroRows_eq Double.lawful
  apply Echelon.cleaned Double.lawful _ (Double.negligible_one htolerance)
  apply echelon_of_run Double.lawful hs
  -- An entry that is not a number would not have been cleaned away.
  intro i j
  by_contra hnan
  rw [Bool.not_eq_false] at hnan
  have hentry := hfinite i j
  rw [Reduction.get_cleaned, Double.negligible_of_isNaN tolerance hnan,
    if_neg Bool.false_ne_true] at hentry
  exact absurd hnan (Bool.eq_false_iff.mp (Double.isNaN_of_isFinite hentry))

end Grid

theorem Value.checkFinite_of_isFinite (subject : String) {v : Value} (h : v.isFinite = true) :
    v.checkFinite subject = .ok v :=
  if_pos h

theorem Value.checkFinite_of_not_isFinite (subject : String) {v : Value}
    (h : v.isFinite = false) : v.checkFinite subject = fail (DenseMatrix.tooLarge subject) :=
  if_neg (Bool.eq_false_iff.mp h)

namespace Builtin

/-- The answer of the function of a name to a matrix. -/
def answer? (name : String) (m : DenseMatrix Float) (tolerance : Float) :
    Option (Except Failure Value) :=
  (find? name).map fun b => b.call [.matrix m] tolerance

theorem ofCount_of_lt {n : Nat} (h : n < Double.largest) :
    Checked.ofCount n = .ok (Float.ofNat n) := by
  have hlimit : Double.largest ≤ Checked.countLimit := by decide +kernel
  exact if_neg (by omega)

theorem answer?_rank (m : DenseMatrix Float) (tolerance : Float) :
    answer? "rank" m tolerance = some ((m.rank tolerance).bind fun r =>
      (Checked.ofCount r).bind fun x => (Value.scalar x).checkFinite (label "rank")) := by
  have hcall : answer? "rank" m tolerance = some (((m.rank tolerance).bind fun r =>
      (Checked.ofCount r).bind fun x => .ok (.scalar x)).bind
        (Value.checkFinite (label "rank"))) := rfl
  rw [hcall]
  cases m.rank tolerance with
  | error e => rfl
  | ok r =>
    simp only [Except.bind]
    cases Checked.ofCount r <;> rfl

theorem answer?_rref (m : DenseMatrix Float) (tolerance : Float) :
    answer? "rref" m tolerance = some ((m.rref tolerance).bind fun g =>
      (Value.matrix g).checkFinite (label "rref")) := by
  have hcall : answer? "rref" m tolerance = some (((m.rref tolerance).bind fun g =>
      .ok (.matrix g)).bind (Value.checkFinite (label "rref"))) := rfl
  rw [hcall]
  cases m.rref tolerance with
  | error e => rfl
  | ok g => rfl

theorem answer?_rank_of_lt {m : DenseMatrix Float} {tolerance : Float} {r : Nat}
    (h : m.rank tolerance = .ok r) (hr : r < Double.largest) :
    answer? "rank" m tolerance = some (.ok (.scalar (Float.ofNat r))) := by
  have hfinite : (Value.scalar (Float.ofNat r)).isFinite = true :=
    Value.sound_iff.mp (Double.isFinite_ofNat hr)
  rw [answer?_rank, h]
  simp only [Except.bind, ofCount_of_lt hr]
  exact congrArg some (Value.checkFinite_of_isFinite _ hfinite)

theorem answer?_rref_of_isFinite {m g : DenseMatrix Float} {tolerance : Float}
    (h : m.rref tolerance = .ok g) (hfinite : (Value.matrix g).isFinite = true) :
    answer? "rref" m tolerance = some (.ok (.matrix g)) := by
  rw [answer?_rref, h]
  exact congrArg some (Value.checkFinite_of_isFinite _ hfinite)

theorem answer?_rref_of_not_isFinite {m g : DenseMatrix Float} {tolerance : Float}
    (h : m.rref tolerance = .ok g) (hfinite : (Value.matrix g).isFinite = false) :
    answer? "rref" m tolerance = some (fail (DenseMatrix.tooLarge "rref()")) := by
  rw [answer?_rref, h]
  exact congrArg some (Value.checkFinite_of_not_isFinite _ hfinite)

/-- The rank and the reduced form are found together, or both end at a zero pivot, which takes a
tolerance that is not positive. Then the rank has an answer, unless there are more rows than the
largest double, and so has the reduced form, unless it is not finite. A finite one has as many rows
other than zero as the rank says, if the tolerance is not greater than one. -/
theorem rref_rank_agree (s : Settings) (m : DenseMatrix Float) :
    (¬0 < s.tolerance ∧ answer? "rref" m s.tolerance = some (fault .zeroPivot) ∧
      answer? "rank" m s.tolerance = some (fault .zeroPivot)) ∨
    ∃ (g : DenseMatrix Float) (r : Nat),
      m.rref s.tolerance = .ok g ∧ m.rank s.tolerance = .ok r ∧ r ≤ m.rows ∧
      (m.rows < Double.largest →
        answer? "rank" m s.tolerance = some (.ok (.scalar (Float.ofNat r)))) ∧
      ((Value.matrix g).isFinite = false →
        answer? "rref" m s.tolerance = some (fail (DenseMatrix.tooLarge "rref()"))) ∧
      ((Value.matrix g).isFinite = true → answer? "rref" m s.tolerance = some (.ok (.matrix g)) ∧
        (¬1 < s.tolerance → g.grid.nonzeroRows = r)) := by
  rcases Grid.rowReduce_cases m.grid s.tolerance with ⟨r, hr⟩ | ⟨hzero, hfault⟩
  · right
    have hle := Grid.length_pivots_le hr
    have hrref : m.rref s.tolerance = .ok (r.grid.dense m.rows_pos m.cols_pos) := by
      rw [DenseMatrix.rref, hr]
      rfl
    have hrank : m.rank s.tolerance = .ok r.pivots.length := by
      rw [DenseMatrix.rank, hr]
      rfl
    refine ⟨_, _, hrref, hrank, hle, fun hrows => answer?_rank_of_lt hrank (hle.trans_lt hrows),
      answer?_rref_of_not_isFinite hrref,
      fun hfinite => ⟨answer?_rref_of_isFinite hrref hfinite, fun htolerance => ?_⟩⟩
    rw [← Value.sound_iff, Value.sound_matrix, DenseMatrix.grid_dense] at hfinite
    rw [DenseMatrix.grid_dense]
    exact Grid.nonzeroRows_rowReduce hr hfinite htolerance
  · left
    rw [answer?_rref, answer?_rank, DenseMatrix.rref, DenseMatrix.rank, hfault]
    exact ⟨fun hpos => not_zeroCounts hpos hzero, rfl, rfl⟩

/-- Above one the tolerance takes a pivot, which is a one, for zero after it has been counted. -/
theorem rref_rank_differ_above_one :
    ∃ (s : Settings) (m g : DenseMatrix Float), 1 < s.tolerance ∧
      answer? "rref" m s.tolerance = some (.ok (.matrix g)) ∧
      answer? "rank" m s.tolerance = some (.ok (.scalar 1)) ∧ g.grid.nonzeroRows = 0 := by
  have hrank : ((Grid.dense (by decide) (by decide) #v[#v[(3 : Float)]]).rank 2).toOption =
      some 1 := by
    decide +kernel
  have hrref : (((Grid.dense (by decide) (by decide) #v[#v[(3 : Float)]]).rref
      2).toOption.map fun g => ((Value.matrix g).isFinite, g.grid.nonzeroRows)) =
        some (true, 0) := by
    decide +kernel
  obtain ⟨g, hg, hzero⟩ := Option.map_eq_some_iff.mp hrref
  obtain ⟨hfinite, hzero⟩ := Prod.mk.inj hzero
  exact ⟨{ Settings.default with tolerance := 2, tolerance_nonneg := by decide }, _, g, by decide,
    answer?_rref_of_isFinite (eq_ok_of_toOption hg) hfinite,
    answer?_rank_of_lt (eq_ok_of_toOption hrank) (by decide +kernel), hzero⟩

/-- A matrix of finite entries with a rank, but without an answer for its reduced form. -/
theorem rref_rejected_rank_accepted :
    ∃ m : DenseMatrix Float, (Value.matrix m).isFinite = true ∧
      answer? "rank" m Settings.default.tolerance = some (.ok (.scalar 1)) ∧
      answer? "rref" m Settings.default.tolerance =
        some (fail (DenseMatrix.tooLarge "rref()")) := by
  refine ⟨Grid.dense (by decide) (by decide) #v[#v[0.5, 1e308]], by decide +kernel, ?_, ?_⟩
  · have hrank : ((Grid.dense (by decide) (by decide) #v[#v[(0.5 : Float), 1e308]]).rank
        Settings.default.tolerance).toOption = some 1 := by
      decide +kernel
    exact answer?_rank_of_lt (eq_ok_of_toOption hrank) (by decide +kernel)
  · have hrref : (((Grid.dense (by decide) (by decide) #v[#v[(0.5 : Float), 1e308]]).rref
        Settings.default.tolerance).toOption.map fun g => (Value.matrix g).isFinite) =
          some false := by
      decide +kernel
    obtain ⟨g, hg, hfinite⟩ := Option.map_eq_some_iff.mp hrref
    exact answer?_rref_of_not_isFinite (eq_ok_of_toOption hg) hfinite

end Builtin

end MatrixCalculator
