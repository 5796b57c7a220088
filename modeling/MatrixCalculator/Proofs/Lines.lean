import MatrixCalculator.Proofs.Doubles
import MatrixCalculator.Proofs.Layout
import MatrixCalculator.Session

namespace MatrixCalculator

/-- All characters of the text are of this kind. -/
def Spelled (p : Char → Prop) (s : String) : Prop := ∀ c ∈ s.toList, p c

instance {p : Char → Prop} [DecidablePred p] (s : String) : Decidable (Spelled p s) :=
  List.decidableBAll p s.toList

def OneLine (s : String) : Prop := Spelled (· ≠ '\n') s

instance (s : String) : Decidable (OneLine s) := inferInstanceAs (Decidable (Spelled _ s))

section Spelled

variable {p q : Char → Prop} {s t : String}

theorem Spelled.mono (h : Spelled p s) (hpq : ∀ c, p c → q c) : Spelled q s :=
  fun c hc => hpq c (h c hc)

@[simp] theorem spelled_append : Spelled p (s ++ t) ↔ Spelled p s ∧ Spelled p t := by
  simp [Spelled, or_imp, forall_and]

@[simp] theorem oneLine_append : OneLine (s ++ t) ↔ OneLine s ∧ OneLine t := spelled_append

theorem spelled_ofList {cs : List Char} : Spelled p (String.ofList cs) ↔ ∀ c ∈ cs, p c := by
  rw [Spelled, String.toList_ofList]

theorem spelled_intercalate {parts : List String} (hs : Spelled p s)
    (hparts : ∀ part ∈ parts, Spelled p part) : Spelled p (s.intercalate parts) := by
  induction parts with
  | nil =>
    rw [String.intercalate_nil]
    exact nofun
  | cons part parts ih =>
    have hfirst := hparts part List.mem_cons_self
    have hlater := ih fun t ht => hparts t (List.mem_cons_of_mem part ht)
    by_cases hnil : parts = []
    · rwa [hnil, String.intercalate_singleton]
    · rw [String.intercalate_cons_of_ne_nil hnil]
      exact spelled_append.mpr ⟨spelled_append.mpr ⟨hfirst, hs⟩, hlater⟩

end Spelled

theorem toNat_of_isDigit {c : Char} (h : c.isDigit = true) : 48 ≤ c.toNat ∧ c.toNat ≤ 57 := by
  simpa [Char.isDigit, UInt32.le_iff_toNat_le] using h

/-- The characters of finite numbers. -/
def OfNumber (c : Char) : Prop := c.isDigit = true ∨ c ∈ ['.', 'e', '+', '-']

instance (c : Char) : Decidable (OfNumber c) :=
  inferInstanceAs (Decidable (c.isDigit = true ∨ c ∈ ['.', 'e', '+', '-']))

theorem OfNumber.ne {c d : Char} (h : OfNumber c) (hd : ¬OfNumber d) : c ≠ d := by
  rintro rfl
  exact hd h

theorem ofNumber_of_mem_toDigits {n : Nat} : ∀ c ∈ Nat.toDigits 10 n, OfNumber c :=
  fun _ hc => .inl (Nat.isDigit_of_mem_toDigits (by decide) (by decide) hc)

theorem spelled_natText (n : Nat) : Spelled OfNumber (toString n) := by
  intro c hc
  rw [Nat.toString_eq_repr, Nat.repr, String.toList_ofList] at hc
  exact ofNumber_of_mem_toDigits c hc

@[simp] theorem oneLine_natText (n : Nat) : OneLine (toString n) :=
  (spelled_natText n).mono fun _ h => h.ne (by decide)

@[simp] theorem oneLine_intText (n : Int) : OneLine (toString n) := by
  cases n with
  | ofNat n => exact oneLine_natText n
  | negSucc n => exact oneLine_append.mpr ⟨by decide, oneLine_natText (n + 1)⟩

namespace Decimal

theorem ofNumber_of_mem_digits (d : Decimal) : ∀ c ∈ dropTrailingZeros d.digits, OfNumber c := by
  intro c hc
  rw [dropTrailingZeros, List.mem_reverse] at hc
  have hmem : c ∈ d.digits.reverse := (List.dropWhile_sublist _).mem hc
  exact ofNumber_of_mem_toDigits c (List.mem_reverse.mp hmem)

theorem ofNumber_of_mem_zeros (n : Nat) : ∀ c ∈ List.replicate n '0', OfNumber c := by
  intro c hc
  rw [List.eq_of_mem_replicate hc]
  decide

theorem ofNumber_of_mem_exponentDigits (n : Nat) : ∀ c ∈ exponentDigits n, OfNumber c := by
  unfold exponentDigits
  split
  · exact List.forall_mem_cons.mpr ⟨by decide, ofNumber_of_mem_toDigits⟩
  · exact ofNumber_of_mem_toDigits

section Layouts

variable {digits : List Char} (hdigits : ∀ c ∈ digits, OfNumber c) (exponent : Int)
include hdigits

theorem ofNumber_of_mem_positional : ∀ c ∈ positional [] digits exponent, OfNumber c := by
  have hwhole : ∀ c ∈ digits.take (exponent.toNat + 1) ++
      List.replicate (exponent.toNat + 1 - digits.length) '0', OfNumber c :=
    List.forall_mem_append.mpr
      ⟨fun c hc => hdigits c (List.mem_of_mem_take hc), ofNumber_of_mem_zeros _⟩
  unfold positional
  split
  · have hzeros := ofNumber_of_mem_zeros (-exponent - 1).toNat
    exact List.forall_mem_append.mpr ⟨List.forall_mem_cons.mpr
      ⟨by decide, List.forall_mem_cons.mpr ⟨by decide, hzeros⟩⟩, hdigits⟩
  · dsimp only
    split
    · rwa [List.append_nil]
    · exact List.forall_mem_append.mpr ⟨hwhole, List.forall_mem_cons.mpr
        ⟨by decide, fun c hc => hdigits c (List.mem_of_mem_drop hc)⟩⟩

theorem ofNumber_of_mem_scientific : ∀ c ∈ scientific digits exponent, OfNumber c := by
  have hmantissa : ∀ c ∈ (if (digits.drop 1).isEmpty then digits
      else digits.take 1 ++ '.' :: digits.drop 1), OfNumber c := by
    split
    · exact hdigits
    · exact List.forall_mem_append.mpr ⟨fun c hc => hdigits c (List.mem_of_mem_take hc),
        List.forall_mem_cons.mpr ⟨by decide, fun c hc => hdigits c (List.mem_of_mem_drop hc)⟩⟩
  have hsign : OfNumber (if exponent < 0 then '-' else '+') := by
    split <;> decide
  exact List.forall_mem_append.mpr ⟨hmantissa, List.forall_mem_cons.mpr ⟨by decide,
    List.forall_mem_cons.mpr ⟨hsign, ofNumber_of_mem_exponentDigits _⟩⟩⟩

end Layouts

theorem ofNumber_of_mem_layout (limit : Int) (d : Decimal) :
    ∀ c ∈ layout ⟨limit, []⟩ d, OfNumber c := by
  unfold layout
  split
  · exact List.forall_mem_cons.mpr ⟨by decide, nofun⟩
  · dsimp only
    split
    · exact ofNumber_of_mem_positional d.ofNumber_of_mem_digits _
    · exact ofNumber_of_mem_scientific d.ofNumber_of_mem_digits _

end Decimal

theorem Double.text_cases (limit : Int) (decimal : Parts → Decimal) (x : Float) :
    Spelled OfNumber (text ⟨limit, []⟩ decimal x) ∨
      x.isFinite = false ∧ text ⟨limit, []⟩ decimal x ∈ ["nan", "-inf", "inf"] := by
  have hsome := isSome_parts? x
  unfold text
  cases hparts : parts? x with
  | some parts =>
    have hlayout := Decimal.ofNumber_of_mem_layout limit (decimal parts)
    refine .inl (spelled_ofList.mpr ?_)
    split
    · exact List.forall_mem_cons.mpr ⟨by decide, hlayout⟩
    · exact hlayout
  | none =>
    rw [hparts] at hsome
    refine .inr ⟨hsome.symm, ?_⟩
    dsimp only
    split
    · simp
    · split <;> simp

theorem spelled_numberText (precision : Nat) {x : Float} (h : x.isFinite = true) :
    Spelled OfNumber (numberText precision x) := by
  have hfinite : (if x == 0 then 0 else x).isFinite = true := by
    split
    · decide
    · exact h
  refine (Double.text_cases _ _ _).resolve_right fun hspecial => ?_
  rw [hfinite] at hspecial
  exact absurd hspecial.1 (by decide)

/-- Infinite and undefined numbers are words. -/
theorem spelled_numberText_of {p : Char → Prop} (hnumber : ∀ c, OfNumber c → p c)
    (hwords : ∀ word ∈ ["nan", "-inf", "inf"], Spelled p word) (precision : Nat) (x : Float) :
    Spelled p (numberText precision x) := by
  rcases Double.text_cases _ _ (if x == 0 then 0 else x) with hspelled | ⟨_, hword⟩
  · exact hspelled.mono hnumber
  · exact hwords _ hword

theorem oneLine_numberText (precision : Nat) (x : Float) : OneLine (numberText precision x) :=
  spelled_numberText_of (fun _ hc => hc.ne (by decide)) (by decide) precision x

theorem Value.spelled_render {p : Char → Prop} {precision : Nat} {v : Value}
    (hmarks : Spelled p "[],; ") (h : ∀ x ∈ v.entries, Spelled p (numberText precision x)) :
    Spelled p (v.render precision) := by
  cases v with
  | scalar x => exact h x List.mem_cons_self
  | matrix m =>
    have hmark : ∀ s : String, s.toList ⊆ "[],; ".toList → Spelled p s :=
      fun s hs c hc => hmarks c (hs hc)
    have hrows : ∀ row ∈ m.toRows,
        Spelled p (", ".intercalate (row.map (numberText precision))) := by
      intro row hrow
      apply spelled_intercalate (hmark ", " (by decide))
      intro part hpart
      obtain ⟨x, hx, rfl⟩ := List.mem_map.mp hpart
      exact h x (DenseMatrix.mem_data_of_mem_toRows hrow hx)
    refine spelled_append.mpr ⟨spelled_append.mpr ⟨hmark "[" (by decide), ?_⟩,
      hmark "]" (by decide)⟩
    apply spelled_intercalate (hmark "; " (by decide))
    intro part hpart
    obtain ⟨row, hrow, rfl⟩ := List.mem_map.mp hpart
    exact hrows row hrow

theorem Value.oneLine_render (precision : Nat) (v : Value) : OneLine (v.render precision) :=
  spelled_render (by decide) fun x _ => oneLine_numberText precision x

/-- Both words for numbers that are not finite have the letter `n`, and finite values do not. -/
theorem Value.spelled_render_of_isFinite (precision : Nat) {v : Value} (h : v.isFinite = true) :
    Spelled (· ≠ 'n') (v.render precision) := by
  refine spelled_render (by decide) fun x hx => ?_
  have hfinite : x.isFinite = true := List.all_eq_true.mp h x hx
  exact (spelled_numberText precision hfinite).mono fun _ hc => hc.ne (by decide)

/-- The message is one line, apart from the line that may be attached to it. -/
def Cause.IsLine (cause : Cause) : Prop := OneLine cause.text

@[simp] theorem oneLine_toString {s : String} : OneLine (toString s) ↔ OneLine s := Iff.rfl

theorem oneLine_shapeText (shape : Option Shape) : OneLine (shapeText shape) := by
  cases shape with
  | none => decide
  | some shape =>
    simp only [shapeText, Shape.text, oneLine_append, oneLine_natText, true_and, and_true]
    decide

namespace Cause

section

variable {verb name subject reason : String} (left right shape : Option Shape)

theorem isLine_mismatch (h : OneLine verb) :
    (mismatch verb left right).IsLine := by
  show OneLine s!"Can't {verb} {shapeText left} and {shapeText right}"
  simp only [oneLine_append, oneLine_toString, oneLine_shapeText, h, and_true]
  decide

theorem isLine_singular (h : OneLine verb) : (singular verb).IsLine := by
  show OneLine s!"Can't {verb} a singular matrix"
  simp only [oneLine_append, oneLine_toString, h, and_true]
  decide

theorem isLine_notSquare (h : OneLine verb) : (notSquare verb shape).IsLine := by
  show OneLine s!"Can't {verb} a non-square {shapeText shape} matrix"
  simp only [oneLine_append, oneLine_toString, oneLine_shapeText, h, and_true]
  decide

theorem isLine_unbound (h : OneLine name) : (unbound name).IsLine := by
  show OneLine s!"Undefined variable '{name}'"
  simp only [oneLine_append, oneLine_toString, h, and_true]
  decide

theorem isLine_unknownFunction (h : OneLine name) :
    (unknownFunction name).IsLine := by
  show OneLine s!"Unknown function '{name}'"
  simp only [oneLine_append, oneLine_toString, h, and_true]
  decide

theorem isLine_arity (h : OneLine name) (expected got : Nat) :
    (arity name expected got).IsLine := by
  have hplural : OneLine (if expected = 1 then "" else "s") := by
    split <;> decide
  show OneLine (toString name ++ toString "() expects " ++ toString expected ++
    toString " argument" ++ toString (if expected = 1 then "" else "s") ++ toString ", got " ++
    toString got)
  simp only [oneLine_append, oneLine_toString, oneLine_natText, h, hplural, and_true, true_and]
  decide

theorem isLine_invalid (hsubject : OneLine subject)
    (hreason : OneLine reason) : (invalid subject reason).IsLine := by
  show OneLine s!"{subject}: {reason}"
  simp only [oneLine_append, oneLine_toString, hsubject, hreason, and_true, true_and]
  decide

theorem isLine_outOfRange (indices : List Int) : (outOfRange indices shape).IsLine := by
  have hindices : OneLine (", ".intercalate (indices.map fun i => toString i)) := by
    refine spelled_intercalate (by decide) fun part hpart => ?_
    obtain ⟨i, _, rfl⟩ := List.mem_map.mp hpart
    exact oneLine_intText i
  show OneLine (toString "Index [" ++
    toString (", ".intercalate (indices.map fun i => toString i)) ++
    toString "] out of range for " ++ toString (shapeText shape) ++ toString " matrix")
  simp only [oneLine_append, oneLine_toString, oneLine_shapeText, hindices, and_true]
  decide

end

end Cause

theorem Error.oneLine_report {e : Error} (h : e.cause.IsLine) : OneLine e.report := by
  have hkind : OneLine e.cause.kind := by
    unfold Cause.kind
    split <;> decide
  have hmessage : OneLine e.message := by
    unfold Error.message
    split
    · simp only [oneLine_append, oneLine_toString, oneLine_natText, and_true]
      exact ⟨h, by decide⟩
    · exact h
  show OneLine s!"{e.cause.kind}: {e.message}"
  simp only [oneLine_append, oneLine_toString, hkind, hmessage, and_true, true_and]
  decide

end MatrixCalculator
