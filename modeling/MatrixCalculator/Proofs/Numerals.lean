import Mathlib
import MatrixCalculator.Proofs.Lines
import MatrixCalculator.Proofs.Pieces

namespace MatrixCalculator

namespace Text

theorem digitValue?_of_isDigit {c : Char} (h : c.isDigit = true) :
    digitValue? c = some (c.toNat - 48) := by
  have hrange : 48 ≤ c.toNat ∧ c.toNat < 48 + 10 := by
    have hbounds := toNat_of_isDigit h
    omega
  rw [digitValue?, digitZeros, List.findSome?_cons, if_pos hrange]

theorem isDigit_of_isDigit {c : Char} (h : c.isDigit = true) : isDigit c = true := by
  rw [isDigit, digitValue?_of_isDigit h]
  rfl

theorem digitsValue_eq {cs : List Char} (h : ∀ c ∈ cs, c.isDigit = true) :
    digitsValue cs = Nat.ofDigitChars 10 cs 0 := by
  rw [digitsValue, Nat.ofDigitChars_eq_foldl]
  refine List.foldl_ext _ _ _ fun value c hc => ?_
  rw [digitValue?_of_isDigit (h c hc)]
  rfl

theorem ofDigitChars_lt {cs : List Char} (h : ∀ c ∈ cs, c.isDigit = true) :
    Nat.ofDigitChars 10 cs 0 < 10 ^ cs.length := by
  induction cs with
  | nil => simp
  | cons c cs ih =>
    obtain ⟨hc, hcs⟩ := List.forall_mem_cons.mp h
    have hdigit : c.toNat - '0'.toNat ≤ 9 := by
      have hbounds := toNat_of_isDigit hc
      show c.toNat - 48 ≤ 9
      omega
    have hlater := ih hcs
    rw [Nat.ofDigitChars_cons, Nat.ofDigitChars_eq_ofDigitChars_zero, List.length_cons, pow_succ]
    nlinarith [Nat.mul_le_mul_left (10 ^ cs.length) hdigit]

end Text

/-- Digits with an optional fraction and an optional exponent, which is marked as negative or
not. -/
structure Figures where
  whole : List Char
  fraction : Option (List Char)
  exponent : Option (Bool × List Char)
  whole_ne : whole ≠ []
  whole_digits : ∀ c ∈ whole, c.isDigit = true
  fraction_digits : ∀ ds ∈ fraction, ∀ c ∈ ds, c.isDigit = true
  exponent_ne : ∀ e ∈ exponent, e.2 ≠ []
  exponent_digits : ∀ e ∈ exponent, ∀ c ∈ e.2, c.isDigit = true

namespace Figures

def fractionChars (f : Figures) : List Char :=
  match f.fraction with
  | none => []
  | some ds => '.' :: ds

def exponentChars (f : Figures) : List Char :=
  match f.exponent with
  | none => []
  | some (negative, ds) => 'e' :: (if negative then '-' else '+') :: ds

def chars (f : Figures) : List Char := f.whole ++ (f.fractionChars ++ f.exponentChars)

def exponentValue (f : Figures) : Int :=
  match f.exponent with
  | none => 0
  | some (negative, ds) =>
    if negative then -(Text.digitsValue ds : Int) else Text.digitsValue ds

def numeral (f : Figures) : Numeral := ⟨f.whole, f.fraction.getD [], f.exponentValue⟩

end Figures

/-- Nothing that could go on with a word or a numeral stands in front. -/
def Lexeme.Closed (rest : List Char) : Prop :=
  ∀ c, rest.head? = some c → Lexeme.isTailChar c = false ∧ Text.isDigit c = false

theorem Lexeme.closed_cons {c : Char} {rest : List Char} :
    Closed (c :: rest) ↔ isTailChar c = false ∧ Text.isDigit c = false := by
  simp [Closed]

theorem Lexeme.closed_nil : Closed [] := by
  simp [Closed]

namespace Figures

variable (f : Figures) {rest : List Char}

theorem exponentChars_head (hrest : Lexeme.Closed rest) :
    ∀ c, (f.exponentChars ++ rest).head? = some c → Text.isDigit c = false ∧ c ≠ '.' := by
  intro c hc
  unfold exponentChars at hc
  split at hc
  · obtain ⟨htail, hdigit⟩ := hrest c hc
    refine ⟨hdigit, ?_⟩
    rintro rfl
    contradiction
  · obtain rfl := Option.some.inj hc
    decide

theorem fractionChars_head (hrest : Lexeme.Closed rest) :
    ∀ c, (f.fractionChars ++ (f.exponentChars ++ rest)).head? = some c →
      Text.isDigit c = false := by
  intro c hc
  unfold fractionChars at hc
  split at hc
  · exact (f.exponentChars_head hrest c hc).1
  · obtain rfl := Option.some.inj hc
    decide

theorem digit_whole : ∀ c ∈ f.whole, Text.isDigit c = true :=
  fun c hc => Text.isDigit_of_isDigit (f.whole_digits c hc)

theorem exponent?_exponentChars : Numeral.exponent? f.exponentChars = some f.exponentValue := by
  unfold exponentChars exponentValue
  cases hexponent : f.exponent with
  | none => rfl
  | some e =>
    obtain ⟨negative, ds⟩ := e
    have hne : ds ≠ [] := f.exponent_ne _ hexponent
    have hds : ds.all Text.isDigit = true :=
      List.all_eq_true.mpr fun c hc => Text.isDigit_of_isDigit (f.exponent_digits _ hexponent c hc)
    cases negative <;> simp [Numeral.exponent?, hne, hds]

theorem ofChars?_chars : Numeral.ofChars? f.chars = some f.numeral := by
  have hhead := f.fractionChars_head Lexeme.closed_nil
  have hexponent := f.exponentChars_head Lexeme.closed_nil
  have hvalue := f.exponent?_exponentChars
  rw [List.append_nil] at hhead hexponent
  obtain ⟨htake, hdrop⟩ := takeWhile_run f.digit_whole hhead
  rw [Numeral.ofChars?, chars, htake, hdrop, numeral]
  unfold fractionChars
  cases hfraction : f.fraction with
  | none =>
    unfold exponentChars at hvalue ⊢
    split at hvalue <;> simp [f.whole_ne, hvalue]
  | some ds =>
    have hds : ∀ c ∈ ds, Text.isDigit c = true :=
      fun c hc => Text.isDigit_of_isDigit (f.fraction_digits ds hfraction c hc)
    obtain ⟨htake', hdrop'⟩ := takeWhile_run hds fun c hc => (hexponent c hc).1
    simp [f.whole_ne, htake', hdrop', hvalue]

theorem digitsLength_run {ds : List Char} (hds : ∀ c ∈ ds, Text.isDigit c = true)
    (hrest : ∀ c, rest.head? = some c → Text.isDigit c = false) :
    Lexeme.digitsLength (ds ++ rest) = ds.length := by
  rw [Lexeme.digitsLength, (takeWhile_run hds hrest).1]

theorem mantissaLength_chars (hrest : Lexeme.Closed rest) :
    Lexeme.mantissaLength (f.chars ++ rest) = (f.whole ++ f.fractionChars).length := by
  have hhead := f.exponentChars_head hrest
  have hwhole := digitsLength_run f.digit_whole (f.fractionChars_head hrest)
  have hpos : 0 < f.whole.length := List.length_pos_iff.mpr f.whole_ne
  rw [chars, List.append_assoc, List.append_assoc, Lexeme.mantissaLength, hwhole, List.drop_left]
  unfold fractionChars
  cases hfraction : f.fraction with
  | none =>
    rw [List.nil_append, List.append_nil]
    cases hchars : f.exponentChars ++ rest with
    | nil => rfl
    | cons c cs =>
      rw [hchars] at hhead
      have hc : c ≠ '.' := (hhead c rfl).2
      simp [hc]
  | some ds =>
    have hds : ∀ c ∈ ds, Text.isDigit c = true :=
      fun c hc => Text.isDigit_of_isDigit (f.fraction_digits ds hfraction c hc)
    have hlength := digitsLength_run hds fun c hc => (hhead c hc).1
    simp only [List.cons_append, hlength, List.length_append, List.length_cons]
    rw [if_neg (by omega)]
    omega

theorem exponentLength_chars (hrest : Lexeme.Closed rest) :
    Lexeme.exponentLength (f.exponentChars ++ rest) = f.exponentChars.length := by
  unfold exponentChars
  cases hexponent : f.exponent with
  | none =>
    cases rest with
    | nil => rfl
    | cons c rest =>
      have hc : c ≠ 'e' ∧ c ≠ 'E' := by
        refine ⟨?_, ?_⟩ <;> rintro rfl <;> exact absurd (Lexeme.closed_cons.mp hrest).1 (by decide)
      simp [Lexeme.exponentLength, hc]
  | some e =>
    obtain ⟨negative, ds⟩ := e
    have hds : ∀ c ∈ ds, Text.isDigit c = true :=
      fun c hc => Text.isDigit_of_isDigit (f.exponent_digits _ hexponent c hc)
    have hlength := digitsLength_run hds fun c hc => (hrest c hc).2
    have hne : ds ≠ [] := f.exponent_ne _ hexponent
    cases negative <;> simp [Lexeme.exponentLength, hlength, hne] <;> omega

theorem tailLength_eq_zero (hrest : Lexeme.Closed rest) : Lexeme.tailLength rest = 0 := by
  cases rest with
  | nil => rfl
  | cons c rest =>
    have hc := (Lexeme.closed_cons.mp hrest).1
    have hstart : Lexeme.isTailStart c = false := by
      simp only [Lexeme.isTailChar, Lexeme.isWordChar, Char.isAlphanum, Bool.or_eq_false_iff] at hc
      simp [Lexeme.isTailStart, hc]
    simp [Lexeme.tailLength, hstart]

theorem coefficient_numeral :
    f.numeral.coefficient = Nat.ofDigitChars 10 (f.whole ++ f.fraction.getD []) 0 := by
  refine Text.digitsValue_eq (List.forall_mem_append.mpr ⟨f.whole_digits, ?_⟩)
  show ∀ c ∈ f.fraction.getD [], _
  cases hfraction : f.fraction with
  | none => simp
  | some ds => exact f.fraction_digits ds hfraction

theorem numeralLength_chars (hrest : Lexeme.Closed rest) :
    Lexeme.numeralLength (f.chars ++ rest) = f.chars.length := by
  have hmantissa := f.mantissaLength_chars hrest
  have hpos : 0 < f.whole.length := List.length_pos_iff.mpr f.whole_ne
  have hsplit : f.chars ++ rest = (f.whole ++ f.fractionChars) ++ (f.exponentChars ++ rest) := by
    simp [chars]
  have hexponent : (f.chars ++ rest).drop (f.whole ++ f.fractionChars).length =
      f.exponentChars ++ rest := by
    rw [hsplit, List.drop_left]
  have hlength : f.chars.length = (f.whole ++ f.fractionChars).length + f.exponentChars.length := by
    simp [chars]
    omega
  rw [Lexeme.numeralLength, hmantissa, hexponent, f.exponentLength_chars hrest, ← hlength]
  dsimp only
  rw [List.drop_left, tailLength_eq_zero hrest, if_neg (by rw [List.length_append]; omega),
    Nat.add_zero]

end Figures

theorem isDigit_of_mem_zeros {n : Nat} : ∀ c ∈ List.replicate n '0', c.isDigit = true := by
  intro c hc
  obtain ⟨_, rfl⟩ := List.mem_replicate.mp hc
  rfl

namespace Decimal

theorem isDigit_of_mem_digits (d : Decimal) : ∀ c ∈ d.digits, c.isDigit = true :=
  fun _ hc => Nat.isDigit_of_mem_toDigits (by decide) (by decide) hc

theorem exists_trailingZeros (cs : List Char) :
    ∃ count, cs = dropTrailingZeros cs ++ List.replicate count '0' := by
  refine ⟨(cs.reverse.takeWhile (· == '0')).length, ?_⟩
  have hzeros : cs.reverse.takeWhile (· == '0') =
      List.replicate (cs.reverse.takeWhile (· == '0')).length '0' :=
    List.eq_replicate_of_mem fun c hc => by simpa using List.mem_takeWhile_imp hc
  rw [dropTrailingZeros, ← List.reverse_replicate, ← hzeros, ← List.reverse_append,
    List.takeWhile_append_dropWhile, List.reverse_reverse]

theorem isDigit_of_mem_dropTrailingZeros (d : Decimal) :
    ∀ c ∈ dropTrailingZeros d.digits, c.isDigit = true := by
  obtain ⟨count, hdigits⟩ := exists_trailingZeros d.digits
  intro c hc
  refine d.isDigit_of_mem_digits c ?_
  rw [hdigits]
  exact List.mem_append_left _ hc

theorem coefficient_eq (d : Decimal) : ∃ count,
    d.coefficient = Nat.ofDigitChars 10 (dropTrailingZeros d.digits) 0 * 10 ^ count ∧
      d.digits.length = (dropTrailingZeros d.digits).length + count := by
  obtain ⟨count, hdigits⟩ := exists_trailingZeros d.digits
  refine ⟨count, ?_, ?_⟩
  · have hvalue : Nat.ofDigitChars 10 d.digits 0 = d.coefficient := Nat.ofDigitChars_ten_toDigits
    rw [← hvalue, hdigits, Nat.ofDigitChars_append, Nat.ofDigitChars_replicate_zero, ← hdigits,
      Nat.mul_comm]
  · have hlength := congrArg List.length hdigits
    simpa using hlength

theorem dropTrailingZeros_ne_nil {d : Decimal} (h : d.coefficient ≠ 0) :
    dropTrailingZeros d.digits ≠ [] := by
  intro hnil
  obtain ⟨count, hvalue, _⟩ := d.coefficient_eq
  rw [hnil] at hvalue
  simp at hvalue
  exact h hvalue

end Decimal

namespace Decimal

theorem isDigit_of_mem_exponentDigits (n : Nat) :
    ∀ c ∈ exponentDigits n, c.isDigit = true := by
  have htoDigits : ∀ c ∈ Nat.toDigits 10 n, c.isDigit = true :=
    fun _ hc => Nat.isDigit_of_mem_toDigits (by decide) (by decide) hc
  unfold exponentDigits
  split
  · exact List.forall_mem_cons.mpr ⟨rfl, htoDigits⟩
  · exact htoDigits

theorem exponentDigits_ne_nil (n : Nat) : exponentDigits n ≠ [] := by
  unfold exponentDigits
  split <;> simp

theorem value_exponentDigits (n : Nat) : Nat.ofDigitChars 10 (exponentDigits n) 0 = n := by
  unfold exponentDigits
  split <;> simp [Nat.ofDigitChars_cons]

end Decimal

/-- The digits, with zeros behind them if their number is to end in some, are written out as this
numeral. -/
structure Figures.Writes (f : Figures) (digits : List Char) (exponent : Int) (zeros : Nat) :
    Prop where
  coefficient : f.numeral.coefficient = Nat.ofDigitChars 10 digits 0 * 10 ^ zeros
  unit : f.numeral.unit = exponent + 1 - digits.length - zeros

namespace Decimal

section Digits

variable {digits : List Char} (hdigits : ∀ c ∈ digits, c.isDigit = true)
include hdigits

theorem positional_of_neg {exponent : Int} (h : exponent < 0) :
    ∃ f : Figures, positional [] digits exponent = f.chars ∧ f.Writes digits exponent 0 := by
  have hfraction : ∀ c ∈ List.replicate (-exponent - 1).toNat '0' ++ digits, c.isDigit = true :=
    List.forall_mem_append.mpr ⟨isDigit_of_mem_zeros, hdigits⟩
  refine ⟨⟨['0'], some (List.replicate (-exponent - 1).toNat '0' ++ digits), none, by simp,
    by simp, by simpa using hfraction, by simp, by simp⟩, ?_, ?_, ?_⟩
  · rw [positional, if_pos h]
    simp [Figures.chars, Figures.fractionChars, Figures.exponentChars]
  · rw [Figures.coefficient_numeral]
    simp [Nat.ofDigitChars_cons, Nat.ofDigitChars_append]
  · simp [Figures.numeral, Numeral.unit, Figures.exponentValue]
    omega

theorem positional_of_nonneg (hne : digits ≠ []) {exponent : Int} (h : 0 ≤ exponent) :
    ∃ (f : Figures) (zeros : Nat), positional [] digits exponent = f.chars ∧
      f.Writes digits exponent zeros ∧ (zeros = 0 ∨ digits.length + zeros = exponent + 1) := by
  have hcount : (exponent.toNat + 1 : Int) = exponent + 1 := by omega
  rw [positional, if_neg (by omega)]
  dsimp only
  by_cases hall : digits.length ≤ exponent.toNat + 1
  · -- All digits stand before the point, and zeros fill the rest.
    have hwhole : ∀ c ∈ digits ++ List.replicate (exponent.toNat + 1 - digits.length) '0',
        c.isDigit = true := List.forall_mem_append.mpr ⟨hdigits, isDigit_of_mem_zeros⟩
    refine ⟨⟨digits ++ List.replicate (exponent.toNat + 1 - digits.length) '0', none, none,
      by simp [hne], hwhole, by simp, by simp, by simp⟩, exponent.toNat + 1 - digits.length,
      ?_, ⟨?_, ?_⟩, ?_⟩
    · simp [List.take_of_length_le hall, List.drop_of_length_le hall, Figures.chars,
        Figures.fractionChars, Figures.exponentChars]
    · rw [Figures.coefficient_numeral]
      simp [Nat.ofDigitChars_append, Nat.mul_comm]
    · simp [Figures.numeral, Numeral.unit, Figures.exponentValue]
      omega
    · right
      omega
  · have htake : ∀ c ∈ digits.take (exponent.toNat + 1), c.isDigit = true :=
      fun c hc => hdigits c (List.mem_of_mem_take hc)
    have hdrop : ∀ c ∈ digits.drop (exponent.toNat + 1), c.isDigit = true :=
      fun c hc => hdigits c (List.mem_of_mem_drop hc)
    refine ⟨⟨digits.take (exponent.toNat + 1), some (digits.drop (exponent.toNat + 1)), none,
      by simp [hne], htake, by simpa using hdrop, by simp, by simp⟩, 0, ?_, ⟨?_, ?_⟩, .inl rfl⟩
    · have hnone : exponent.toNat + 1 - digits.length = 0 := by omega
      simp [hnone, hall, Figures.chars, Figures.fractionChars, Figures.exponentChars]
    · rw [Figures.coefficient_numeral]
      simp
    · simp [Figures.numeral, Numeral.unit, Figures.exponentValue]
      omega

theorem scientific_figures (hne : digits ≠ []) (exponent : Int) :
    ∃ f : Figures, scientific digits exponent = f.chars ∧ f.Writes digits exponent 0 := by
  have hmark : ∀ c ∈ exponentDigits exponent.natAbs, c.isDigit = true :=
    isDigit_of_mem_exponentDigits _
  have hmark_ne := exponentDigits_ne_nil exponent.natAbs
  have hvalue : (if (decide (exponent < 0)) = true then
      -(Text.digitsValue (exponentDigits exponent.natAbs) : Int)
      else Text.digitsValue (exponentDigits exponent.natAbs)) = exponent := by
    rw [Text.digitsValue_eq hmark, value_exponentDigits]
    by_cases hneg : exponent < 0
    · rw [if_pos (by simpa using hneg)]
      omega
    · rw [if_neg (by simpa using hneg)]
      omega
  obtain ⟨c, ds, rfl⟩ := List.exists_cons_of_ne_nil hne
  obtain ⟨hc, hds⟩ := List.forall_mem_cons.mp hdigits
  rw [scientific, List.drop_one, List.tail_cons]
  by_cases hwhole : ds = []
  · subst hwhole
    refine ⟨⟨[c], none, some (decide (exponent < 0), exponentDigits exponent.natAbs), by simp,
      by simpa using hc, by simp, by simpa using hmark_ne, by simpa using hmark⟩, ?_, ?_, ?_⟩
    · simp [Figures.chars, Figures.fractionChars, Figures.exponentChars]
    · rw [Figures.coefficient_numeral]
      simp
    · simp only [Figures.numeral, Numeral.unit, Figures.exponentValue, hvalue]
      simp
  · refine ⟨⟨[c], some ds, some (decide (exponent < 0), exponentDigits exponent.natAbs), by simp,
      by simpa using hc, by simpa using hds, by simpa using hmark_ne, by simpa using hmark⟩,
      ?_, ?_, ?_⟩
    · simp [hwhole, Figures.chars, Figures.fractionChars, Figures.exponentChars]
    · rw [Figures.coefficient_numeral]
      simp
    · simp only [Figures.numeral, Numeral.unit, Figures.exponentValue, hvalue]
      simp

end Digits

theorem shift_zeros (value : ℚ) (zeros : Nat) (unit : Int) :
    value * 10 ^ zeros * 10 ^ (unit - zeros) = value * 10 ^ unit := by
  rw [mul_assoc, ← zpow_natCast, ← zpow_add₀ (by norm_num)]
  congr 2
  omega

/-- A decimal is laid out as a numeral of the same value. The numeral has no more digits than the
decimal, or no more than the limit for writing it out. -/
theorem exists_figures (limit : Nat) (d : Decimal) : ∃ f : Figures,
    layout ⟨limit, []⟩ d = f.chars ∧
    (f.numeral.coefficient : ℚ) * 10 ^ f.numeral.unit = d.coefficient * 10 ^ d.unit ∧
    (f.numeral.coefficient ≤ d.coefficient ∨ f.numeral.coefficient < 10 ^ limit) := by
  by_cases hzero : d.coefficient = 0
  · refine ⟨⟨['0'], none, none, by simp, by simp, by simp, by simp, by simp⟩, ?_, ?_, ?_⟩
    · simp [layout, hzero, Figures.chars, Figures.fractionChars, Figures.exponentChars]
    · rw [Figures.coefficient_numeral, hzero]
      simp [Nat.ofDigitChars_cons]
    · rw [Figures.coefficient_numeral]
      simp [Nat.ofDigitChars_cons]
  · have hdigits := d.isDigit_of_mem_dropTrailingZeros
    have hne := dropTrailingZeros_ne_nil hzero
    obtain ⟨count, hcoefficient, hlength⟩ := d.coefficient_eq
    have hexponent : d.exponent + 1 - (dropTrailingZeros d.digits).length = d.unit + count := by
      rw [exponent, hlength]
      omega
    -- Zeros that are added or dropped change the coefficient and the unit, not the value.
    have hvalue : ∀ (f : Figures) (zeros : Nat),
        f.Writes (dropTrailingZeros d.digits) d.exponent zeros →
        (f.numeral.coefficient : ℚ) * 10 ^ f.numeral.unit = d.coefficient * 10 ^ d.unit := by
      intro f zeros hf
      rw [hf.coefficient, hf.unit, hexponent, hcoefficient]
      push_cast
      rw [shift_zeros, ← shift_zeros _ count, add_sub_cancel_right]
    have hsame : ∀ f : Figures, f.Writes (dropTrailingZeros d.digits) d.exponent 0 →
        f.numeral.coefficient ≤ d.coefficient := by
      intro f hf
      rw [hf.coefficient, hcoefficient, pow_zero, mul_one]
      exact Nat.le_mul_of_pos_right _ (by positivity)
    rw [layout, if_neg hzero]
    dsimp only
    split
    · rename_i hrange
      by_cases hneg : d.exponent < 0
      · obtain ⟨f, hchars, hf⟩ := positional_of_neg hdigits hneg
        exact ⟨f, hchars, hvalue f 0 hf, .inl (hsame f hf)⟩
      · obtain ⟨f, zeros, hchars, hf, rfl | hzeros⟩ :=
          positional_of_nonneg hdigits hne (Int.not_lt.mp hneg)
        · exact ⟨f, hchars, hvalue f 0 hf, .inl (hsame f hf)⟩
        · refine ⟨f, hchars, hvalue f zeros hf, .inr ?_⟩
          have hlt := Text.ofDigitChars_lt hdigits
          rw [hf.coefficient]
          calc Nat.ofDigitChars 10 (dropTrailingZeros d.digits) 0 * 10 ^ zeros
              < 10 ^ (dropTrailingZeros d.digits).length * 10 ^ zeros :=
                Nat.mul_lt_mul_of_pos_right hlt (by positivity)
            _ = 10 ^ ((dropTrailingZeros d.digits).length + zeros) := (pow_add ..).symm
            _ ≤ 10 ^ limit := Nat.pow_le_pow_right (by decide) (by omega)
    · obtain ⟨f, hchars, hf⟩ := scientific_figures hdigits hne d.exponent
      exact ⟨f, hchars, hvalue f 0 hf, .inl (hsame f hf)⟩

end Decimal

end MatrixCalculator
