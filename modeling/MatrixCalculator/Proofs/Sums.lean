import Mathlib
import MatrixCalculator.Proofs.Canonical

namespace MatrixCalculator

open Float.Model (Format UnpackedFloat)
open Float.Model.UnpackedFloat

namespace Double

theorem unpacked_add {x y : Float} {f : UnpackedFloat} (hf : Canonical f)
    (h : add Format.binary64 (unpacked x) (unpacked y) = f) : unpacked (x + y) = f := by
  rw [← unpack_pack hf, ← h]
  rfl

theorem unpacked_abs (x : Float) : unpacked x.abs = (unpacked x).abs := by
  have hcanonical : Canonical (unpacked x).abs := by
    have hx := canonical_unpacked x
    cases h : unpacked x with
    | finite s m e hm => rwa [h] at hx
    | _ => trivial
  rw [← unpack_pack hcanonical]
  rfl

theorem isFinite_eq (x : Float) : x.isFinite = (unpacked x).isFinite := rfl

theorem isZero_eq_false {x : Float} (h : x.isFinite = false) : (x == 0) = false := by
  rw [← Bool.not_eq_true, beq_zero_iff]
  rintro ⟨s, hs⟩
  rw [isFinite_eq, unpacked, hs] at h
  contradiction

/-- A finite double is a zero or has a sign, a mantissa and an exponent. -/
theorem exists_finite {x : Float} (hx : x.isFinite = true) (hne : (x == 0) = false) :
    ∃ s m e hm, unpacked x = .finite s m e hm := by
  rw [isFinite_eq] at hx
  cases h : unpacked x with
  | zero s =>
    rw [beq_zero_iff.mpr ⟨s, h⟩] at hne
    contradiction
  | finite s m e hm => exact ⟨s, m, e, hm, rfl⟩
  | _ =>
    rw [h] at hx
    contradiction

theorem not_isFinite_add {x y : Float} (h : x.isFinite = false ∨ y.isFinite = false) :
    (x + y).isFinite = false := by
  have hsum : Canonical (add Format.binary64 (unpacked x) (unpacked y)) ∧
      (add Format.binary64 (unpacked x) (unpacked y)).isFinite = false := by
    rw [isFinite_eq, isFinite_eq] at h
    cases hx : unpacked x with
    | infinity s =>
      cases hy : unpacked y with
      | infinity t => cases s <;> cases t <;> exact ⟨trivial, rfl⟩
      | _ => exact ⟨trivial, rfl⟩
    | notANumber => exact ⟨trivial, rfl⟩
    | zero s =>
      rw [hx] at h
      cases hy : unpacked y with
      | infinity t => exact ⟨trivial, rfl⟩
      | notANumber => exact ⟨trivial, rfl⟩
      | _ => simp [hy, UnpackedFloat.isFinite] at h
    | finite s m e hm =>
      rw [hx] at h
      cases hy : unpacked y with
      | infinity t => exact ⟨trivial, rfl⟩
      | notANumber => exact ⟨trivial, rfl⟩
      | _ => simp [hy, UnpackedFloat.isFinite] at h
  rw [isFinite_eq, unpacked_add hsum.1 rfl]
  exact hsum.2

theorem beq_self {x : Float} (hx : x.isFinite = true) : (x == x) = true := by
  change ((unpacked x).compare (unpacked x) == some .eq) = true
  rw [isFinite_eq] at hx
  cases h : unpacked x with
  | zero s => rfl
  | finite s m e hm =>
    have heq : (compare e e).then (compare m m) = .eq := by
      rw [compare_eq_iff_eq.mpr rfl, compare_eq_iff_eq.mpr rfl]
      rfl
    cases s with
    | positive => simp only [UnpackedFloat.compare, heq, beq_self_eq_true]
    | negative => simp only [UnpackedFloat.compare, heq, Ordering.swap_eq, beq_self_eq_true]
  | _ =>
    rw [h] at hx
    contradiction

theorem abs_lt_of_zero {x w : Float} (hx : (x == 0) = true) (hw : w.isFinite = true)
    (hne : (w == 0) = false) : x.abs < w.abs := by
  obtain ⟨s, m, e, hm, hparts⟩ := exists_finite hw hne
  rw [lt_iff, abs_eq_zero_of_beq_zero hx, unpacked_abs w, hparts]
  rfl

theorem unpacked_add_zero {x w : Float} (hx : (x == 0) = true) (hw : w.isFinite = true)
    (hne : (w == 0) = false) : unpacked (w + x) = unpacked w := by
  obtain ⟨s, m, e, hm, hparts⟩ := exists_finite hw hne
  obtain ⟨t, ht⟩ := beq_zero_iff.mp hx
  apply unpacked_add (canonical_unpacked w)
  rw [hparts, unpacked, ht]
  rfl

theorem unpacked_sub_self {x y : Float} (h : unpacked x = unpacked y) (hy : y.isFinite = true)
    (hne : (y == 0) = false) : unpacked (x - y) = .zero .positive := by
  obtain ⟨s, m, e, hm, hparts⟩ := exists_finite hy hne
  apply unpacked_sub (canonical_zero _)
  rw [h, hparts, sub]
  dsimp only
  rw [Int.sub_self]
  rfl

theorem beq_zero_sub {x y : Float} (hx : (x == 0) = true) (hy : unpacked y = .zero .positive) :
    (x - y == 0) = true := by
  obtain ⟨s, hs⟩ := beq_zero_iff.mp hx
  change unpacked x = .zero s at hs
  rw [beq_zero_iff]
  cases s <;> exact ⟨_, unpacked_sub (canonical_zero _) (by rw [hs, hy]; rfl)⟩

end Double

namespace ExactSum

theorem twoSum_eq (x y : Float) : twoSum x y =
    if x.abs < y.abs then (y + x, x - (y + x - y)) else (x + y, y - (x + y - x)) := by
  unfold twoSum
  by_cases h : x.abs < y.abs
  · rw [if_pos h, if_pos h]
  · rw [if_neg h, if_neg h]

theorem absorb_cons (x y : Float) (parts : List Float) : absorb x (y :: parts) =
    ((absorb (twoSum x y).1 parts).1,
      if (twoSum x y).2 == 0 then (absorb (twoSum x y).1 parts).2
      else (twoSum x y).2 :: (absorb (twoSum x y).1 parts).2) := rfl

theorem push_eq (s : State) (x : Float) : push s x =
    if (absorb x s.parts).1 == 0 then some { s with parts := (absorb x s.parts).2 }
    else if (absorb x s.parts).1.isFinite then
      some { s with parts := (absorb x s.parts).2 ++ [(absorb x s.parts).1] }
    else if x.isFinite then none
    else some ⟨[], s.special + x, if x.isInf then s.infinite + x else s.infinite⟩ := rfl

theorem not_isFinite_absorb {x : Float} (hx : x.isFinite = false) (parts : List Float) :
    (absorb x parts).1.isFinite = false := by
  induction parts generalizing x with
  | nil => exact hx
  | cons y parts ih =>
    rw [absorb_cons]
    apply ih
    rw [twoSum_eq]
    split
    · exact Double.not_isFinite_add (.inr hx)
    · exact Double.not_isFinite_add (.inl hx)

theorem push_of_not_isFinite {x : Float} (hx : x.isFinite = false) (s : State) : push s x =
    some ⟨[], s.special + x, if x.isInf then s.infinite + x else s.infinite⟩ := by
  have htop := not_isFinite_absorb hx s.parts
  rw [push_eq, Double.isZero_eq_false htop, htop, hx]
  rfl

theorem not_isFinite_push {s s' : State} {x : Float} (h : push s x = some s')
    (hs : s.special.isFinite = false ∨ x.isFinite = false) : s'.special.isFinite = false := by
  by_cases hx : x.isFinite = false
  · rw [push_of_not_isFinite hx] at h
    rw [← Option.some.inj h]
    exact Double.not_isFinite_add hs
  · have hspecial := hs.resolve_right hx
    rw [Bool.not_eq_false] at hx
    rw [push_eq, if_pos hx] at h
    split at h
    · rw [← Option.some.inj h]
      exact hspecial
    · split at h
      · rw [← Option.some.inj h]
        exact hspecial
      · contradiction

theorem not_isFinite_run {xs : List Float} {s s' : State} (h : xs.foldlM push s = some s')
    (hs : s.special.isFinite = false ∨ ∃ x ∈ xs, x.isFinite = false) :
    s'.special.isFinite = false := by
  induction xs generalizing s with
  | nil =>
    obtain rfl := Option.some.inj h
    simpa using hs
  | cons x xs ih =>
    obtain ⟨next, hnext, h⟩ := Option.bind_eq_some_iff.mp h
    apply ih h
    rcases hs with hs | ⟨y, hy, hfinite⟩
    · exact .inl (not_isFinite_push hnext (.inl hs))
    · rcases List.mem_cons.mp hy with rfl | hy
      · exact .inl (not_isFinite_push hnext (.inr hfinite))
      · exact .inr ⟨y, hy, hfinite⟩

theorem sum?_eq (xs : List Float) : sum? xs = (xs.foldlM push start).bind fun s =>
    if s.special != 0 then (if s.infinite.isNaN then none else some s.special)
    else some (round s.parts.reverse) := rfl

theorem sum?_of_run {xs : List Float} {s : State} (h : xs.foldlM push start = some s)
    (hs : s.special = 0) : sum? xs = some (round s.parts.reverse) := by
  rw [sum?_eq, h, Option.bind_some, hs, if_neg (by decide)]

/-- A sum is finite only if its summands are. -/
theorem not_isFinite_of_sum? {xs : List Float} {y : Float} (h : sum? xs = some y)
    (hxs : ∃ x ∈ xs, x.isFinite = false) : y.isFinite = false := by
  obtain ⟨s, hs, h⟩ := Option.bind_eq_some_iff.mp ((sum?_eq xs).symm.trans h)
  have hspecial := not_isFinite_run hs (.inr hxs)
  rw [bne, Double.isZero_eq_false hspecial, Bool.not_false, if_pos rfl] at h
  split at h
  · contradiction
  · rwa [← Option.some.inj h]

/-- The sum so far is a single part or none. -/
def State.Slim (s : State) : Prop :=
  s.special = 0 ∧ (s.parts = [] ∨ ∃ w, s.parts = [w] ∧ w.isFinite = true ∧ (w == 0) = false)

theorem push_of_nil {s : State} {x : Float} (hspecial : s.special = 0) (hparts : s.parts = [])
    (hx : x.isFinite = true) :
    ∃ s', push s x = some s' ∧ s'.Slim ∧ ((x == 0) = true → s'.parts = []) := by
  have habsorb : absorb x s.parts = (x, []) := by rw [hparts]; rfl
  rw [push_eq, habsorb]
  by_cases hzero : (x == 0) = true
  · exact ⟨_, if_pos hzero, ⟨hspecial, .inl rfl⟩, fun _ => rfl⟩
  · rw [Bool.not_eq_true] at hzero
    dsimp only
    rw [hzero, hx]
    exact ⟨_, rfl, ⟨hspecial, .inr ⟨x, rfl, hx, hzero⟩⟩, by simp⟩

theorem absorb_of_zero {x w : Float} (hx : (x == 0) = true) (hw : w.isFinite = true)
    (hne : (w == 0) = false) :
    ∃ w', absorb x [w] = (w', []) ∧ w'.isFinite = true ∧ (w' == 0) = false := by
  have hsum := Double.unpacked_add_zero hx hw hne
  have hfinite : (w + x).isFinite = true := by rwa [Double.isFinite_eq, hsum]
  have hother : (w + x == 0) = false := by
    rw [← Bool.not_eq_true, beq_zero_iff] at hne ⊢
    change ¬∃ s, Double.unpacked (w + x) = .zero s
    rwa [hsum]
  -- Nothing is rounded away, so no rest is kept.
  have hrest : (x - (w + x - w) == 0) = true :=
    Double.beq_zero_sub hx (Double.unpacked_sub_self hsum hw hne)
  refine ⟨w + x, ?_, hfinite, hother⟩
  rw [absorb_cons, twoSum_eq, if_pos (Double.abs_lt_of_zero hx hw hne)]
  dsimp only
  rw [hrest]
  rfl

theorem push_of_zero {s : State} {x : Float} (h : s.Slim) (hx : x.isFinite = true)
    (hzero : (x == 0) = true) : ∃ s', push s x = some s' ∧ s'.Slim := by
  obtain ⟨hspecial, hparts | ⟨w, hparts, hw, hne⟩⟩ := h
  · obtain ⟨s', hpush, hslim, -⟩ := push_of_nil hspecial hparts hx
    exact ⟨s', hpush, hslim⟩
  · obtain ⟨w', habsorb, hw', hne'⟩ := absorb_of_zero hzero hw hne
    rw [push_eq, hparts, habsorb]
    dsimp only
    rw [hne', hw']
    exact ⟨_, rfl, hspecial, .inr ⟨w', rfl, hw', hne'⟩⟩

theorem exists_push {x : Float} {xs : List Float} {s : State} (hs : s.Slim)
    (hx : x.isFinite = true) (hhead : ∀ y ∈ xs, (x == 0) = true ∨ (y == 0) = true)
    (hlater : s.parts = [] ∨ ∀ y ∈ x :: xs, (y == 0) = true) :
    ∃ next, push s x = some next ∧ next.Slim ∧
      (next.parts = [] ∨ ∀ y ∈ xs, (y == 0) = true) := by
  rcases hlater with hparts | hlater
  · obtain ⟨next, hnext, hslim, hnil⟩ := push_of_nil hs.1 hparts hx
    refine ⟨next, hnext, hslim, ?_⟩
    by_cases hzero : (x == 0) = true
    · exact .inl (hnil hzero)
    · exact .inr fun y hy => (hhead y hy).resolve_left hzero
  · obtain ⟨hzero, hzeros⟩ := List.forall_mem_cons.mp hlater
    obtain ⟨next, hnext, hslim⟩ := push_of_zero hs hx hzero
    exact ⟨next, hnext, hslim, .inr hzeros⟩

theorem exists_run {xs : List Float} {s : State} (hs : s.Slim)
    (hfinite : ∀ x ∈ xs, x.isFinite = true)
    (hzeros : xs.Pairwise fun x y => (x == 0) = true ∨ (y == 0) = true)
    (hlater : s.parts = [] ∨ ∀ x ∈ xs, (x == 0) = true) :
    ∃ s', xs.foldlM push s = some s' ∧ s'.Slim := by
  induction xs generalizing s with
  | nil => exact ⟨s, rfl, hs⟩
  | cons x xs ih =>
    obtain ⟨hx, hxs⟩ := List.forall_mem_cons.mp hfinite
    obtain ⟨hhead, htail⟩ := List.pairwise_cons.mp hzeros
    obtain ⟨next, hnext, hslim, hrest⟩ := exists_push hs hx hhead hlater
    rw [List.foldlM_cons, hnext]
    exact ih hslim hxs htail hrest

/-- Finite numbers of which no more than one is other than zero have a finite sum. -/
theorem exists_sum? {xs : List Float} (hfinite : ∀ x ∈ xs, x.isFinite = true)
    (hzeros : xs.Pairwise fun x y => (x == 0) = true ∨ (y == 0) = true) :
    ∃ y, sum? xs = some y ∧ y.isFinite = true := by
  obtain ⟨s, hrun, hspecial, hparts⟩ := exists_run (s := start) ⟨rfl, .inl rfl⟩ hfinite hzeros
    (.inl rfl)
  rw [sum?_of_run hrun hspecial]
  rcases hparts with hnil | ⟨w, hsingle, hw, -⟩
  · rw [hnil]
    exact ⟨0, rfl, by decide⟩
  · rw [hsingle]
    exact ⟨w, rfl, hw⟩

/-- The sum of a single number is that number, save for the sign of a zero. -/
theorem exists_sum?_singleton {x : Float} (hx : x.isFinite = true) :
    ∃ y, sum? [x] = some y ∧ (x == y) = true ∧ y.isFinite = true := by
  have hpush : push start x = if x == 0 then some start else some ⟨[x], 0, 0⟩ := by
    rw [push_eq]
    change (if x == 0 then some start else if x.isFinite then some ⟨[x], 0, 0⟩ else _) = _
    rw [if_pos hx]
  have hrun : [x].foldlM push start = if x == 0 then some start else some ⟨[x], 0, 0⟩ := by
    rw [List.foldlM_cons, hpush]
    split <;> rfl
  by_cases hzero : (x == 0) = true
  · rw [if_pos hzero] at hrun
    exact ⟨0, sum?_of_run hrun rfl, hzero, by decide⟩
  · rw [if_neg hzero] at hrun
    exact ⟨x, sum?_of_run hrun rfl, Double.beq_self hx, hx⟩

end ExactSum

end MatrixCalculator
