import Mathlib
import MatrixCalculator.Proofs.Layout
import MatrixCalculator.Proofs.NonzeroRows
import MatrixCalculator.Proofs.Products
import MatrixCalculator.Proofs.RightSides

namespace MatrixCalculator

namespace DenseMatrix

section Entries

variable {α : Type}

theorem single_eq_dense (x : α) :
    single x = (Grid.ofFn fun _ _ => x : Grid α 1 1).dense Nat.one_pos Nat.one_pos := by
  refine ext_of_data rfl rfl ?_
  rw [Grid.data_dense]
  simp [single, Grid.toLists, Grid.ofFn, Vector.toList_ofFn]

theorem only?_single (x : α) : (single x).only? = some x := (dif_pos ⟨rfl, rfl⟩).trans rfl

theorem only?_eq_none_iff {m : DenseMatrix α} : m.only? = none ↔ ¬(m.rows = 1 ∧ m.cols = 1) := by
  unfold only?
  split <;> simp_all

theorem eq_single_of_only? {m : DenseMatrix α} {x : α} (h : m.only? = some x) : m = single x := by
  unfold only? at h
  split at h
  · rename_i hone
    obtain rfl := Option.some.inj h
    have hlength : m.data.length = 1 := by rw [length_data, hone.1, hone.2]
    obtain ⟨y, hy⟩ := List.length_eq_one_iff.mp hlength
    have hentry := m.getElem?_data ⟨0, m.rows_pos⟩ ⟨0, m.cols_pos⟩
    rw [hy, Nat.zero_mul, Nat.zero_add, List.getElem?_cons_zero] at hentry
    refine ext_of_data hone.1 hone.2 ?_
    rw [hy, Option.some.inj hentry, entry_eq]
    rfl
  · contradiction

theorem map_single (f : α → α) (x : α) : (single x).map f = single (f x) :=
  ext_of_data rfl rfl (data_map f _)

theorem data_single (x : α) : (single x).data = [x] := rfl

theorem combine?_single (f : α → α → α) (x y : α) :
    (single x).combine? f (single y) = some (single (f x y)) := by
  rw [combine?, dif_pos ⟨rfl, rfl⟩]
  refine congrArg some (ext_of_data rfl rfl ?_)
  simp [data, single, ofList]

theorem combine?_eq_none {f : α → α → α} {a b : DenseMatrix α} (h : a.shape ≠ b.shape) :
    a.combine? f b = none := by
  refine dif_neg fun hshape => h ?_
  rw [shape, shape, hshape.1, hshape.2]

end Entries

theorem single_mul_single (x y : Float) : (single x).mul (single y) =
    (ExactSum.sum? [x * y]).elim (fail (tooLarge "*")) fun z => .ok (single z) := by
  let grid (v : Float) : Grid Float 1 1 := .ofFn fun _ _ => v
  have hcell : (grid x).cell? (grid y) = fun _ _ => ExactSum.sum? [x * y] := by
    funext i j
    simp only [Grid.cell?, grid, Grid.get_ofFn]
    rfl
  have hmul : (grid x).mul (grid y) = (ExactSum.sum? [x * y]).map grid := by
    rw [Grid.mul_eq, hcell]
    cases ExactSum.sum? [x * y] with
    | none => exact if_neg fun h => Bool.false_ne_true (h 0 0)
    | some z => exact if_pos fun _ _ => rfl
  rw [single_eq_dense, single_eq_dense, Grid.dense_mul_dense, hmul]
  cases ExactSum.sum? [x * y] with
  | none => rfl
  | some z => exact congrArg Except.ok (single_eq_dense z).symm

theorem only?_inverse {m k : DenseMatrix Float} {tolerance : Float}
    (h : m.inverse tolerance = .ok k) (hm : m.only? = none) : k.only? = none := by
  obtain ⟨grid, hsquare, h⟩ := exists_of_bind_eq_ok h
  obtain ⟨inverse, hinverse, h⟩ := exists_of_bind_eq_ok h
  obtain rfl := Except.ok.inj h
  rw [only?_eq_none_iff] at hm ⊢
  unfold square at hsquare
  split at hsquare
  · rename_i hcols
    exact fun hone => hm ⟨hone.1, hcols.trans hone.1⟩
  · contradiction

end DenseMatrix

namespace Value

open DenseMatrix

def box (v : Value) : Value := .matrix v.toMatrix

/-- Both are values that equal each other, or both fail in the same way. -/
inductive Concur : Except Failure Value → Except Failure Value → Prop where
  | value {v w : Value} (h : v.equals w = true) : Concur (.ok v) (.ok w)
  | error {e e' : Error} (h : e.cause.kind = e'.cause.kind) :
    Concur (.error (.error e)) (.error (.error e'))
  | fault (f : Fault) : Concur (.error (.fault f)) (.error (.fault f))

theorem isFinite_box (v : Value) : v.box.isFinite = v.isFinite := by
  cases v <;> rfl

theorem beq_data {xs : List Float} (h : xs.all Float.isFinite = true) : (xs == xs) = true := by
  induction xs with
  | nil => rfl
  | cons x xs ih =>
    rw [List.all_cons, Bool.and_eq_true] at h
    rw [List.cons_beq_cons, Double.beq_self h.1, ih h.2, Bool.and_true]

theorem equals_self {v : Value} (h : v.isFinite = true) : v.equals v = true := by
  cases v with
  | scalar x =>
    have hx : x.isFinite = true := by simpa [isFinite, entries] using h
    exact Double.beq_self hx
  | matrix m =>
    have hdata : (m.data == m.data) = true := beq_data h
    simp [equals, hdata]

theorem equals_box {v : Value} (h : v.isFinite = true) : v.equals v.box = true := by
  cases v with
  | scalar x =>
    have hx : x.isFinite = true := by simpa [isFinite, entries] using h
    simp [equals, box, toMatrix, number?, only?_single, Double.beq_self hx]
  | matrix m => exact equals_self h

section Results

variable {r : Except Failure Value} {subject : String}

theorem concur_of_kind {cause cause' : Cause} (h : cause.kind = cause'.kind) :
    Concur (fail cause) (fail cause') :=
  .error h

theorem concur_failure (e : Failure) : Concur (.error e) (.error e) := by
  cases e with
  | error e => exact .error rfl
  | fault f => exact .fault f

/-- A check passes a finite result, and one with equal entries in its place. -/
theorem concur_checked {v w : Value} (hfinite : w.isFinite = v.isFinite)
    (h : v.isFinite = true → v.equals w = true) :
    Concur (v.checkFinite subject) (w.checkFinite subject) := by
  cases hv : v.isFinite with
  | true =>
    rw [checkFinite_of_isFinite subject hv, checkFinite_of_isFinite subject (hfinite.trans hv)]
    exact .value (h hv)
  | false =>
    rw [checkFinite_of_not_isFinite subject hv,
      checkFinite_of_not_isFinite subject (hfinite.trans hv)]
    exact concur_failure _

/-- The result itself, or the result as a matrix. -/
def Boxes (r r' : Except Failure Value) : Prop := r' = r ∨ r' = r.map box

theorem concur_box {r' : Except Failure Value} (h : Boxes r r') :
    Concur (r >>= checkFinite subject) (r' >>= checkFinite subject) := by
  cases r with
  | error e =>
    obtain rfl : r' = .error e := h.elim id id
    exact concur_failure e
  | ok v =>
    rcases h with rfl | rfl
    · exact concur_checked rfl equals_self
    · exact concur_checked (isFinite_box v) equals_box

end Results

/-- The value itself, or the value as a matrix. -/
def Stands (v w : Value) : Prop := w = v ∨ w = v.box

theorem Stands.eq_matrix {m : DenseMatrix Float} {w : Value} (h : Stands (.matrix m) w) :
    w = .matrix m :=
  h.elim id id

theorem exists_scalar {v : Value} (h : v.shape? = none) : ∃ x, v = .scalar x := by
  cases v with
  | scalar x => exact ⟨x, rfl⟩
  | matrix m => contradiction

theorem Stands.eq_of_shape? {v w : Value} (h : Stands v w) (hw : w.shape? = none) : w = v := by
  rcases h with rfl | rfl
  · rfl
  · contradiction

theorem Stands.toMatrix_eq {v w : Value} (h : Stands v w) : w.toMatrix = v.toMatrix := by
  rcases h with rfl | rfl <;> rfl

section Sums

variable {verb : String} {sign : Float} {a b : Value}

theorem shape_ne_of_only?_eq_none {m : DenseMatrix Float} (h : m.only? = none) (x : Float) :
    (single x).shape ≠ m.shape := by
  intro hshape
  obtain ⟨hrows, hcols⟩ := Shape.mk.inj hshape
  exact only?_eq_none_iff.mp h ⟨hrows.symm, hcols.symm⟩

theorem addSigned_eq (h : ¬(a.shape? = none ∧ b.shape? = none)) : a.addSigned verb sign b =
    (a.toMatrix.combine? (fun x y => x + sign * y) b.toMatrix).elim
      (fail (.mismatch verb a.shape? b.shape?)) fun m => .ok (.matrix m) := by
  -- Where the operands are not combined at all, their shapes differ.
  have hcombined : (if (a.shape?.isSome ∧ b.shape?.isSome) ∨ (a.number?.isSome ∧ b.number?.isSome)
      then a.toMatrix.combine? (fun x y => x + sign * y) b.toMatrix else none) =
      a.toMatrix.combine? (fun x y => x + sign * y) b.toMatrix := by
    split
    · rfl
    · rename_i hapart
      refine (combine?_eq_none ?_).symm
      cases a with
      | scalar x =>
        cases b with
        | scalar y => exact absurd ⟨rfl, rfl⟩ h
        | matrix m =>
          have hm : m.only? = none := by simpa [number?, shape?] using hapart
          exact shape_ne_of_only?_eq_none hm x
      | matrix m =>
        cases b with
        | scalar y =>
          have hm : m.only? = none := by simpa [number?, shape?] using hapart
          exact (shape_ne_of_only?_eq_none hm y).symm
        | matrix k => exact absurd (.inl ⟨rfl, rfl⟩) hapart
  unfold addSigned
  split
  · exact absurd ⟨rfl, rfl⟩ h
  · rw [hcombined]
    dsimp only
    split
    · rename_i m hm
      rw [hm]
      rfl
    · rename_i hnone
      rw [hnone]
      rfl

theorem concur_addSigned {a' b' : Value} (ha : Stands a a') (hb : Stands b b') (subject : String) :
    Concur (a.addSigned verb sign b >>= checkFinite subject)
      (a'.addSigned verb sign b' >>= checkFinite subject) := by
  by_cases hnumbers' : a'.shape? = none ∧ b'.shape? = none
  · rw [ha.eq_of_shape? hnumbers'.1, hb.eq_of_shape? hnumbers'.2]
    exact concur_box (.inl rfl)
  rw [addSigned_eq hnumbers', ha.toMatrix_eq, hb.toMatrix_eq]
  by_cases hnumbers : a.shape? = none ∧ b.shape? = none
  · obtain ⟨x, rfl⟩ := exists_scalar hnumbers.1
    obtain ⟨y, rfl⟩ := exists_scalar hnumbers.2
    refine concur_box (.inr ?_)
    rw [toMatrix, toMatrix, combine?_single]
    rfl
  · rw [addSigned_eq hnumbers]
    cases a.toMatrix.combine? (fun x y => x + sign * y) b.toMatrix with
    | none => exact concur_of_kind rfl
    | some m => exact concur_box (.inl rfl)

end Sums

/-- The sum of one product is the product, up to the sign of zero. -/
theorem concur_single_mul_single {x y : Float} {v : Value} (hv : Stands (.scalar (x * y)) v)
    (subject : String) : Concur (v.checkFinite subject)
      (((single x).mul (single y)).map .matrix >>= checkFinite subject) := by
  have hfinite : v.isFinite = (x * y).isFinite := by
    rcases hv with rfl | rfl <;> exact Bool.and_true _
  rw [single_mul_single]
  cases h : (x * y).isFinite with
  | true =>
    obtain ⟨z, hz, heq, hfinite'⟩ := ExactSum.exists_sum?_singleton h
    rw [hz]
    refine concur_checked ?_ fun _ => ?_
    · rw [hfinite, h]
      exact (Bool.and_true _).trans hfinite'
    · rcases hv with rfl | rfl
      · exact heq
      · rw [box, toMatrix, equals, data_single, data_single, List.cons_beq_cons, heq]
        rfl
  | false =>
    rw [checkFinite_of_not_isFinite subject (hfinite.trans h)]
    cases hsum : ExactSum.sum? [x * y] with
    | none => exact concur_of_kind rfl
    | some z =>
      have hz : z.isFinite = false :=
        ExactSum.not_isFinite_of_sum? hsum ⟨x * y, List.mem_singleton_self _, h⟩
      have hz' : (Value.matrix (single z)).isFinite = false := (Bool.and_true _).trans hz
      exact (checkFinite_of_not_isFinite subject hz').symm ▸ concur_of_kind rfl

theorem mul_singles (x y : Float) :
    mul (.matrix (single x)) (.matrix (single y)) = ((single x).mul (single y)).map .matrix := by
  simp only [mul, only?_single]

theorem mul_single_left {k : DenseMatrix Float} (hk : k.only? = none) (x : Float) :
    mul (.matrix (single x)) (.matrix k) = mul (.scalar x) (.matrix k) := by
  simp only [mul, only?_single, hk]

theorem mul_single_right {m : DenseMatrix Float} (hm : m.only? = none) (y : Float) :
    mul (.matrix m) (.matrix (single y)) = mul (.matrix m) (.scalar y) := by
  simp only [mul, only?_single, hm]

theorem mul_scalar_single (x y : Float) :
    mul (.scalar x) (.matrix (single y)) = .ok (.matrix (single (x * y))) := by
  rw [mul, map_single]

theorem mul_single_scalar (x y : Float) :
    mul (.matrix (single x)) (.scalar y) = .ok (.matrix (single (x * y))) := by
  rw [mul, map_single]

theorem concur_mul {a b a' b' : Value} (ha : Stands a a') (hb : Stands b b') (subject : String) :
    Concur (a.mul b >>= checkFinite subject) (a'.mul b' >>= checkFinite subject) := by
  cases a with
  | scalar x =>
    cases b with
    | scalar y =>
      rcases ha with rfl | rfl
      · rcases hb with rfl | rfl
        · exact concur_box (.inl rfl)
        · exact concur_box (.inr (mul_scalar_single x y))
      · rcases hb with rfl | rfl
        · exact concur_box (.inr (mul_single_scalar x y))
        · rw [box, box, toMatrix, toMatrix, mul_singles]
          exact concur_single_mul_single (.inl rfl) subject
    | matrix k =>
      obtain rfl := hb.eq_matrix
      rcases ha with rfl | rfl
      · exact concur_box (.inl rfl)
      · rw [box, toMatrix]
        cases hk : k.only? with
        | none => exact concur_box (.inl (mul_single_left hk x))
        | some y =>
          obtain rfl := eq_single_of_only? hk
          rw [mul_scalar_single, mul_singles]
          exact concur_single_mul_single (.inr rfl) subject
  | matrix m =>
    obtain rfl := ha.eq_matrix
    cases b with
    | scalar y =>
      rcases hb with rfl | rfl
      · exact concur_box (.inl rfl)
      · rw [box, toMatrix]
        cases hm : m.only? with
        | none => exact concur_box (.inl (mul_single_right hm y))
        | some x =>
          obtain rfl := eq_single_of_only? hm
          rw [mul_single_scalar, mul_singles]
          exact concur_single_mul_single (.inr rfl) subject
    | matrix k =>
      obtain rfl := hb.eq_matrix
      exact concur_box (.inl rfl)

theorem Boxes.map_box {r r' : Except Failure Value} (h : Boxes r r') : r'.map box = r.map box := by
  rcases h with rfl | rfl
  · rfl
  · cases r <;> rfl

theorem boxes_divByNumber {a a' : Value} (ha : Stands a a') (y : Float) :
    Boxes (a.divByNumber y) (a'.divByNumber y) := by
  rcases ha with rfl | rfl
  · exact .inl rfl
  · rw [divByNumber_eq, divByNumber_eq]
    split
    · exact .inl rfl
    · cases a with
      | scalar x => exact .inr (congrArg (fun m => Except.ok (Value.matrix m)) (map_single _ x))
      | matrix m => exact .inl rfl

theorem div_single (a : Value) (y tolerance : Float) :
    a.div (.matrix (single y)) tolerance = (a.divByNumber y).map box := by
  simp only [div, only?_single]
  cases a.divByNumber y <;> rfl

theorem boxes_div {a b a' b' : Value} (ha : Stands a a') (hb : Stands b b') (tolerance : Float) :
    Boxes (a.div b tolerance) (a'.div b' tolerance) := by
  cases b with
  | scalar y =>
    rcases hb with rfl | rfl
    · exact boxes_divByNumber ha y
    · exact .inr ((div_single a' y tolerance).trans (boxes_divByNumber ha y).map_box)
  | matrix m =>
    obtain rfl := hb.eq_matrix
    left
    cases hm : m.only? with
    | some y =>
      obtain rfl := eq_single_of_only? hm
      rw [div_single, div_single, (boxes_divByNumber ha y).map_box]
    | none =>
      simp only [div, hm]
      cases hinverse : m.inverse tolerance with
      | error e => rfl
      | ok k =>
        cases a with
        | matrix n => rw [ha.eq_matrix]
        | scalar x =>
          rcases ha with rfl | rfl
          · rfl
          · exact mul_single_left (only?_inverse hinverse hm) x

theorem boxes_powerByNumber {a a' : Value} (ha : Stands a a') (y tolerance : Float) :
    Boxes (a.powerByNumber y tolerance) (a'.powerByNumber y tolerance) := by
  cases a with
  | matrix m => exact .inl (by rw [ha.eq_matrix])
  | scalar x =>
    rcases ha with rfl | rfl
    · exact .inl rfl
    · right
      simp only [box, toMatrix, powerByNumber, only?_single]
      cases numberPower x y <;> rfl

theorem power_single (a : Value) (y tolerance : Float) :
    a.power (.matrix (single y)) tolerance = (a.powerByNumber y tolerance).map box := by
  simp only [power, only?_single]
  cases a.powerByNumber y tolerance <;> rfl

theorem boxes_power {a b a' b' : Value} (ha : Stands a a') (hb : Stands b b') (tolerance : Float) :
    Boxes (a.power b tolerance) (a'.power b' tolerance) := by
  cases b with
  | scalar y =>
    rcases hb with rfl | rfl
    · exact boxes_powerByNumber ha y tolerance
    · exact .inr ((power_single a' y tolerance).trans (boxes_powerByNumber ha y tolerance).map_box)
  | matrix m =>
    obtain rfl := hb.eq_matrix
    left
    cases hm : m.only? with
    | some y =>
      obtain rfl := eq_single_of_only? hm
      rw [power_single, power_single, (boxes_powerByNumber ha y tolerance).map_box]
    | none => simp only [power, hm]

/-- Numbers as matrices change neither the entries of a result nor the kind of an error. -/
theorem concur_binary (op : BinaryOp) {a b a' b' : Value} (ha : Stands a a') (hb : Stands b b')
    (tolerance : Float) : Concur (binary op a b tolerance) (binary op a' b' tolerance) := by
  cases op with
  | add => exact concur_addSigned ha hb _
  | sub => exact concur_addSigned ha hb _
  | mul => exact concur_mul ha hb _
  | div => exact concur_box (boxes_div ha hb tolerance)
  | pow => exact concur_box (boxes_power ha hb tolerance)

section Shapes

variable {a b v : Value}

theorem shape?_map (f : Float → Float) (v : Value) : (v.map f).shape? = v.shape? := by
  cases v <;> rfl

theorem shape?_addSigned {verb : String} {sign : Float} (h : a.addSigned verb sign b = .ok v) :
    v.shape? = none ↔ a.shape? = none ∧ b.shape? = none := by
  by_cases hnumbers : a.shape? = none ∧ b.shape? = none
  · obtain ⟨x, rfl⟩ := exists_scalar hnumbers.1
    obtain ⟨y, rfl⟩ := exists_scalar hnumbers.2
    obtain rfl := Except.ok.inj h
    exact iff_of_true rfl hnumbers
  · rw [addSigned_eq hnumbers] at h
    cases hm : a.toMatrix.combine? (fun x y => x + sign * y) b.toMatrix with
    | none =>
      rw [hm] at h
      contradiction
    | some m =>
      rw [hm] at h
      obtain rfl := Except.ok.inj h
      exact iff_of_false (Option.some_ne_none _) hnumbers

theorem shape?_matrix_ne (m : DenseMatrix Float) : (Value.matrix m).shape? ≠ none :=
  Option.some_ne_none _

theorem shape?_mul (h : a.mul b = .ok v) :
    v.shape? = none ↔ a.shape? = none ∧ b.shape? = none := by
  unfold mul at h
  split at h
  · obtain rfl := Except.ok.inj h
    exact iff_of_true rfl ⟨rfl, rfl⟩
  · obtain rfl := Except.ok.inj h
    exact iff_of_false (shape?_matrix_ne _) fun hb => shape?_matrix_ne _ hb.2
  · obtain rfl := Except.ok.inj h
    exact iff_of_false (shape?_matrix_ne _) fun ha => shape?_matrix_ne _ ha.1
  · refine iff_of_false ?_ fun ha => shape?_matrix_ne _ ha.1
    split at h
    · obtain rfl := Except.ok.inj h
      exact shape?_matrix_ne _
    · obtain rfl := Except.ok.inj h
      exact shape?_matrix_ne _
    · obtain ⟨_, _, rfl⟩ := map_eq_ok_iff.mp h
      exact shape?_matrix_ne _

theorem shape?_divByNumber {y : Float} (h : a.divByNumber y = .ok v) : v.shape? = a.shape? := by
  rw [divByNumber_eq] at h
  split at h
  · contradiction
  · obtain rfl := Except.ok.inj h
    exact shape?_map _ a

theorem shape?_div {tolerance : Float} (h : a.div b tolerance = .ok v) :
    v.shape? = none ↔ a.shape? = none ∧ b.shape? = none := by
  cases b with
  | scalar y =>
    rw [shape?_divByNumber h]
    exact (and_iff_left rfl).symm
  | matrix m =>
    refine iff_of_false ?_ fun hb => shape?_matrix_ne m hb.2
    cases hm : m.only? with
    | some y =>
      rw [eq_single_of_only? hm, div_single] at h
      obtain ⟨_, _, rfl⟩ := map_eq_ok_iff.mp h
      exact shape?_matrix_ne _
    | none =>
      simp only [div, hm] at h
      obtain ⟨k, _, hproduct⟩ := exists_of_bind_eq_ok h
      exact fun hv => shape?_matrix_ne k ((shape?_mul hproduct).mp hv).2

theorem shape?_powerByNumber {y tolerance : Float} (h : a.powerByNumber y tolerance = .ok v) :
    v.shape? = none ↔ a.shape? = none := by
  unfold powerByNumber at h
  split at h
  · obtain ⟨_, _, rfl⟩ := map_eq_ok_iff.mp h
    exact iff_of_true rfl rfl
  · refine iff_of_false ?_ (shape?_matrix_ne _)
    split at h
    · obtain ⟨_, _, hv⟩ := exists_of_bind_eq_ok h
      obtain rfl := Except.ok.inj hv
      exact shape?_matrix_ne _
    · obtain ⟨_, _, rfl⟩ := map_eq_ok_iff.mp h
      exact shape?_matrix_ne _
    · obtain ⟨_, _, hv⟩ := exists_of_bind_eq_ok h
      contradiction

theorem shape?_power {tolerance : Float} (h : a.power b tolerance = .ok v) :
    v.shape? = none ↔ a.shape? = none ∧ b.shape? = none := by
  cases b with
  | scalar y => exact (shape?_powerByNumber h).trans (and_iff_left rfl).symm
  | matrix m =>
    refine iff_of_false ?_ fun hb => shape?_matrix_ne m hb.2
    cases hm : m.only? with
    | some y =>
      rw [eq_single_of_only? hm, power_single] at h
      obtain ⟨_, _, rfl⟩ := map_eq_ok_iff.mp h
      exact shape?_matrix_ne _
    | none =>
      simp only [power, hm] at h
      contradiction

theorem shape?_binary {op : BinaryOp} {tolerance : Float} (h : binary op a b tolerance = .ok v) :
    v.shape? = none ↔ a.shape? = none ∧ b.shape? = none := by
  obtain ⟨w, hw, hchecked⟩ := exists_of_bind_eq_ok h
  have hv : w = v := by
    unfold checkFinite at hchecked
    split at hchecked
    · exact Except.ok.inj hchecked
    · contradiction
  subst hv
  cases op with
  | add => exact shape?_addSigned hw
  | sub => exact shape?_addSigned hw
  | mul => exact shape?_mul hw
  | div => exact shape?_div hw
  | pow => exact shape?_power hw

theorem stands_of_number? {x : Float} (h : v.number? = some x) : Stands (.scalar x) v := by
  cases v with
  | scalar y => exact .inl (congrArg _ (Option.some.inj h))
  | matrix m => exact .inr (congrArg _ (eq_single_of_only? h))

end Shapes

/-- Under every operator a matrix with one entry acts as its entry. With numbers taken as matrices
there is a result of equal entries or an error of the same kind. The result is a number only for
two numbers, and has one entry if the operands have. -/
theorem binary_single_entry (op : BinaryOp) (a b : Value) (tolerance : Float) :
    Concur (binary op a b tolerance) (binary op a.box b tolerance) ∧
    Concur (binary op a b tolerance) (binary op a b.box tolerance) ∧
    Concur (binary op a b tolerance) (binary op a.box b.box tolerance) ∧
    ∀ v, binary op a b tolerance = .ok v →
      (v.shape? = none ↔ a.shape? = none ∧ b.shape? = none) ∧
      (a.number?.isSome → b.number?.isSome → ¬(a.shape? = none ∧ b.shape? = none) →
        v.shape? = some ⟨1, 1⟩) := by
  refine ⟨concur_binary op (.inr rfl) (.inl rfl) tolerance,
    concur_binary op (.inl rfl) (.inr rfl) tolerance,
    concur_binary op (.inr rfl) (.inr rfl) tolerance, fun v hv => ⟨shape?_binary hv, ?_⟩⟩
  intro ha hb hmatrix
  obtain ⟨x, hx⟩ := Option.isSome_iff_exists.mp ha
  obtain ⟨y, hy⟩ := Option.isSome_iff_exists.mp hb
  -- The entries alone have a number as their result, and the result at hand equals it.
  have hconcur := concur_binary op (stands_of_number? hx) (stands_of_number? hy) tolerance
  rw [hv] at hconcur
  generalize hw : binary op (.scalar x) (.scalar y) tolerance = r at hconcur
  cases hconcur with
  | @value w _ hequals =>
    obtain ⟨z, rfl⟩ := exists_scalar ((shape?_binary hw).mpr ⟨rfl, rfl⟩)
    cases hnumber : v.number? with
    | none =>
      rw [equals, hnumber] at hequals
      contradiction
    | some z' =>
      rcases stands_of_number? hnumber with rfl | rfl
      · exact absurd ((shape?_binary hv).mp rfl) hmatrix
      · rfl

theorem binary_single_entry_quotient :
    ∃ v, binary .div (.scalar 3) (.matrix (single 4)) defaultTolerance = .ok v ∧
      v.shape? = some ⟨1, 1⟩ := by
  have hquotient : binary .div (.scalar 3) (.matrix (single 4)) defaultTolerance =
      .ok (.matrix (single (3 / 4))) := by
    rw [binary, operate, div_single, divByNumber_eq, if_neg (by decide +kernel)]
    exact checkFinite_of_isFinite "/" ((isFinite_box (.scalar (3 / 4))).trans (by decide +kernel))
  obtain ⟨_, _, _, hshape⟩ :=
    binary_single_entry .div (.scalar 3) (.matrix (single 4)) defaultTolerance
  exact ⟨_, hquotient, (hshape _ hquotient).2 rfl rfl fun h => shape?_matrix_ne _ h.2⟩

end Value

end MatrixCalculator
