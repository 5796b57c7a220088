import Mathlib
import MatrixCalculator.Proofs.Phrasing
import MatrixCalculator.Proofs.Tiling

namespace MatrixCalculator

namespace Numeral

def Digits (ds : List Char) : Prop := ds ≠ [] ∧ ∀ c ∈ ds, Text.isDigit c = true

/-- `digits[.[digits]]` or `.digits`, with the digits before and behind the point. -/
inductive Mantissa : List Char → List Char → List Char → Prop where
  | whole {ds : List Char} (h : Digits ds) : Mantissa ds ds []
  | point {ds fs : List Char} (h : Digits ds) (hfs : ∀ c ∈ fs, Text.isDigit c = true) :
    Mantissa (ds ++ '.' :: fs) ds fs
  | fraction {fs : List Char} (h : Digits fs) : Mantissa ('.' :: fs) [] fs

/-- Nothing, or `e` or `E`, an optional sign and digits, with the exponent that they give. -/
inductive Exponent : List Char → Int → Prop where
  | none : Exponent [] 0
  | unsigned {mark : Char} {ds : List Char} (hmark : mark = 'e' ∨ mark = 'E') (h : Digits ds) :
    Exponent (mark :: ds) (Text.digitsValue ds)
  | plus {mark : Char} {ds : List Char} (hmark : mark = 'e' ∨ mark = 'E') (h : Digits ds) :
    Exponent (mark :: '+' :: ds) (Text.digitsValue ds)
  | minus {mark : Char} {ds : List Char} (hmark : mark = 'e' ∨ mark = 'E') (h : Digits ds) :
    Exponent (mark :: '-' :: ds) (-(Text.digitsValue ds : Int))

/-- The characters are a decimal: a mantissa and an exponent, as they are in the numeral. -/
inductive Writes : List Char → Numeral → Prop where
  | intro {cs ds whole fraction : List Char} {exponent : Int} (hm : Mantissa cs whole fraction)
    (he : Exponent ds exponent) : Writes (cs ++ ds) ⟨whole, fraction, exponent⟩

section Exponents

variable {mark : Char} {ds : List Char} {n v : Int}

theorem guarded_eq_some_iff :
    (if ds.isEmpty || !ds.all Text.isDigit then none else some v) = some n ↔ Digits ds ∧ v = n := by
  by_cases h : (ds.isEmpty || !ds.all Text.isDigit) = true
  · have hds : ¬Digits ds := by
      rintro ⟨hne, hdigit⟩
      simp [hne, List.all_eq_true.mpr hdigit] at h
    simp [h, hds]
  · have hds : Digits ds := by
      simpa [Digits] using h
    simp [h, hds]

variable (hmark : mark = 'e' ∨ mark = 'E')
include hmark

theorem exponent?_plus : exponent? (mark :: '+' :: ds) = some n ↔
    Digits ds ∧ (Text.digitsValue ds : Int) = n := by
  rw [exponent?, if_pos (by simpa using hmark), ← guarded_eq_some_iff]
  rfl

theorem exponent?_minus : exponent? (mark :: '-' :: ds) = some n ↔
    Digits ds ∧ -(Text.digitsValue ds : Int) = n := by
  rw [exponent?, if_pos (by simpa using hmark), ← guarded_eq_some_iff]
  rfl

theorem exponent?_unsigned (hplus : ds.head? ≠ some '+') (hminus : ds.head? ≠ some '-') :
    exponent? (mark :: ds) = some n ↔ Digits ds ∧ (Text.digitsValue ds : Int) = n := by
  rw [exponent?, if_pos (by simpa using hmark), ← guarded_eq_some_iff]
  · rfl
  · rintro ds rfl
    exact hplus rfl
  · rintro ds rfl
    exact hminus rfl

end Exponents

theorem Digits.head_ne {ds : List Char} (h : Digits ds) {c : Char} (hc : Text.isDigit c = false) :
    ds.head? ≠ some c := by
  intro hhead
  rw [h.2 c (List.mem_of_head? hhead)] at hc
  contradiction

theorem exponent?_eq_some_iff {cs : List Char} {n : Int} :
    exponent? cs = some n ↔ Exponent cs n := by
  constructor
  · intro h
    cases cs with
    | nil =>
      obtain rfl := Option.some.inj h
      exact .none
    | cons mark rest =>
      by_cases hmark : mark = 'e' ∨ mark = 'E'
      · by_cases hplus : rest.head? = some '+'
        · obtain ⟨ds, rfl⟩ := List.head?_eq_some_iff.mp hplus
          obtain ⟨hds, rfl⟩ := (exponent?_plus hmark).mp h
          exact .plus hmark hds
        by_cases hminus : rest.head? = some '-'
        · obtain ⟨ds, rfl⟩ := List.head?_eq_some_iff.mp hminus
          obtain ⟨hds, rfl⟩ := (exponent?_minus hmark).mp h
          exact .minus hmark hds
        obtain ⟨hds, rfl⟩ := (exponent?_unsigned hmark hplus hminus).mp h
        exact .unsigned hmark hds
      · unfold exponent? at h
        dsimp only at h
        rw [if_neg (by simpa using hmark)] at h
        contradiction
  · intro h
    cases h with
    | none => rfl
    | unsigned hmark hds =>
      exact (exponent?_unsigned hmark (hds.head_ne (by decide)) (hds.head_ne (by decide))).mpr
        ⟨hds, rfl⟩
    | plus hmark hds => exact (exponent?_plus hmark).mpr ⟨hds, rfl⟩
    | minus hmark hds => exact (exponent?_minus hmark).mpr ⟨hds, rfl⟩

theorem Exponent.head {cs : List Char} {n : Int} (h : Exponent cs n) :
    ∀ c, cs.head? = some c → Text.isDigit c = false ∧ c ≠ '.' := by
  have hmark : ∀ mark : Char, mark = 'e' ∨ mark = 'E' → Text.isDigit mark = false ∧ mark ≠ '.' := by
    rintro mark (rfl | rfl) <;> decide
  cases h with
  | none => simp
  | _ =>
    rintro c hc
    obtain rfl := Option.some.inj hc
    exact hmark _ ‹_›

theorem ofChars?_point {whole : List Char} (hwhole : ∀ c ∈ whole, Text.isDigit c = true)
    (rest : List Char) :
    ofChars? (whole ++ '.' :: rest) =
      if whole.isEmpty && (rest.takeWhile Text.isDigit).isEmpty then none
      else (exponent? (rest.dropWhile Text.isDigit)).map fun exponent =>
        ⟨whole, rest.takeWhile Text.isDigit, exponent⟩ := by
  have hpoint : ∀ c, ('.' :: rest).head? = some c → Text.isDigit c = false := by
    simp
    decide
  obtain ⟨htake, hdrop⟩ := takeWhile_run hwhole hpoint
  rw [ofChars?, htake, hdrop]
  simp only [Option.map_eq_bind]
  rfl

theorem ofChars?_plain {whole rest : List Char} (hwhole : ∀ c ∈ whole, Text.isDigit c = true)
    (hrest : ∀ c, rest.head? = some c → Text.isDigit c = false ∧ c ≠ '.') :
    ofChars? (whole ++ rest) =
      if whole.isEmpty then none
      else (exponent? rest).map fun exponent => ⟨whole, [], exponent⟩ := by
  obtain ⟨htake, hdrop⟩ := takeWhile_run hwhole fun c hc => (hrest c hc).1
  rw [ofChars?, htake, hdrop]
  cases rest with
  | nil => simp [Option.map_eq_bind]
  | cons c rest => simp [(hrest c rfl).2, Option.map_eq_bind]

theorem writes_of_ofChars? {cs : List Char} {n : Numeral} (h : ofChars? cs = some n) :
    Writes cs n := by
  obtain ⟨hwhole, hrest⟩ := Lexeme.run_takeWhile Text.isDigit cs
  rw [← List.takeWhile_append_dropWhile (p := Text.isDigit) (l := cs)] at h ⊢
  generalize cs.takeWhile Text.isDigit = whole at *
  generalize cs.dropWhile Text.isDigit = rest at *
  by_cases hpoint : rest.head? = some '.'
  · obtain ⟨ds, rfl⟩ := List.head?_eq_some_iff.mp hpoint
    rw [ofChars?_point hwhole, Option.ite_none_left_eq_some] at h
    obtain ⟨hne, hmap⟩ := h
    obtain ⟨exponent, hexponent, rfl⟩ := Option.map_eq_some_iff.mp hmap
    have hfraction := (Lexeme.run_takeWhile Text.isDigit ds).1
    have hmantissa : Mantissa (whole ++ '.' :: ds.takeWhile Text.isDigit) whole
        (ds.takeWhile Text.isDigit) := by
      by_cases hnil : whole = []
      · subst hnil
        exact .fraction ⟨by simpa using hne, hfraction⟩
      · exact .point ⟨hnil, hwhole⟩ hfraction
    have hwrites := Writes.intro hmantissa (exponent?_eq_some_iff.mp hexponent)
    rwa [List.append_assoc, List.cons_append, List.takeWhile_append_dropWhile] at hwrites
  · have hplain : ∀ c, rest.head? = some c → Text.isDigit c = false ∧ c ≠ '.' :=
      fun c hc => ⟨hrest c hc, fun hdot => hpoint (hdot ▸ hc)⟩
    rw [ofChars?_plain hwhole hplain, Option.ite_none_left_eq_some] at h
    obtain ⟨hne, hmap⟩ := h
    obtain ⟨exponent, hexponent, rfl⟩ := Option.map_eq_some_iff.mp hmap
    exact .intro (.whole ⟨by simpa using hne, hwhole⟩) (exponent?_eq_some_iff.mp hexponent)

theorem ofChars?_of_writes {cs : List Char} {n : Numeral} (h : Writes cs n) :
    ofChars? cs = some n := by
  cases h with
  | @intro ms es whole fraction exponent hm he =>
    have hexponent := exponent?_eq_some_iff.mpr he
    have hrun : ∀ {fs : List Char}, (∀ c ∈ fs, Text.isDigit c = true) →
        (fs ++ es).takeWhile Text.isDigit = fs ∧ (fs ++ es).dropWhile Text.isDigit = es :=
      fun hfs => takeWhile_run hfs fun c hc => (he.head c hc).1
    cases hm with
    | whole hds =>
      rw [ofChars?_plain hds.2 he.head, hexponent, if_neg (by simpa using hds.1)]
      rfl
    | point hds hfs =>
      rw [List.append_assoc, List.cons_append, ofChars?_point hds.2, (hrun hfs).1, (hrun hfs).2,
        hexponent, if_neg (by simp [hds.1])]
      rfl
    | fraction hfs =>
      have hpoint := ofChars?_point (List.forall_mem_nil _) (fraction ++ es)
      rw [(hrun hfs.2).1, (hrun hfs.2).2, hexponent, if_neg (by simp [hfs.1])] at hpoint
      exact hpoint

theorem ofChars?_eq_some_iff {cs : List Char} {n : Numeral} :
    ofChars? cs = some n ↔ Writes cs n :=
  ⟨writes_of_ofChars?, ofChars?_of_writes⟩

end Numeral

namespace Lexeme

/-- A digit stands in front, or a point with a digit behind it. -/
def StartsNumeral : List Char → Prop
  | [] => False
  | c :: rest =>
    Text.isDigit c = true ∨ c = '.' ∧ ∃ d, rest.head? = some d ∧ Text.isDigit d = true

theorem digitsLength_eq_zero_iff {cs : List Char} :
    digitsLength cs = 0 ↔ ∀ c, cs.head? = some c → Text.isDigit c = false := by
  cases cs with
  | nil => simp [digitsLength]
  | cons c cs =>
    cases hc : Text.isDigit c <;> simp [digitsLength, hc]

theorem mantissaLength_point {cs rest : List Char} (h : cs.drop (digitsLength cs) = '.' :: rest) :
    mantissaLength cs = if digitsLength cs + digitsLength rest = 0 then 0
      else digitsLength cs + 1 + digitsLength rest := by
  rw [mantissaLength, h]
  rfl

theorem mantissaLength_plain {cs : List Char} (h : (cs.drop (digitsLength cs)).head? ≠ some '.') :
    mantissaLength cs = digitsLength cs := by
  unfold mantissaLength
  dsimp only
  split
  · rename_i rest hdrop
    rw [hdrop] at h
    exact absurd rfl h
  · rfl

theorem digitsLength_le_mantissaLength (cs : List Char) : digitsLength cs ≤ mantissaLength cs := by
  by_cases hpoint : (cs.drop (digitsLength cs)).head? = some '.'
  · obtain ⟨rest, hdrop⟩ := List.head?_eq_some_iff.mp hpoint
    rw [mantissaLength_point hdrop]
    split <;> omega
  · rw [mantissaLength_plain hpoint]

theorem mantissaLength_eq_zero_iff {cs : List Char} :
    mantissaLength cs = 0 ↔ ¬StartsNumeral cs := by
  cases cs with
  | nil => simp [mantissaLength, digitsLength, StartsNumeral]
  | cons c rest =>
    cases hc : Text.isDigit c with
    | true =>
      have hwhole : digitsLength (c :: rest) ≠ 0 := by simp [digitsLength, hc]
      have hle := digitsLength_le_mantissaLength (c :: rest)
      have hmantissa : mantissaLength (c :: rest) ≠ 0 := by omega
      simp [StartsNumeral, hc, hmantissa]
    | false =>
      have hwhole : digitsLength (c :: rest) = 0 := by simp [digitsLength, hc]
      by_cases hdot : c = '.'
      · subst hdot
        have hfraction := @digitsLength_eq_zero_iff rest
        simp [mantissaLength, hwhole, StartsNumeral, hc, hfraction]
      · simp [mantissaLength, hwhole, StartsNumeral, hc, hdot]

theorem numeralLength_pos_iff {cs : List Char} : 0 < numeralLength cs ↔ StartsNumeral cs := by
  have hmantissa := @mantissaLength_eq_zero_iff cs
  unfold numeralLength
  dsimp only
  split
  · rename_i hzero
    simp [hmantissa.mp hzero]
  · rename_i hzero
    have hstarts : StartsNumeral cs := not_not.mp (hmantissa.not.mp hzero)
    simp only [hstarts, iff_true]
    omega

section Ends

variable {cs : List Char}

theorem head_drop_digitsLength (cs : List Char) :
    ∀ c, (cs.drop (digitsLength cs)).head? = some c → Text.isDigit c = false := by
  rw [digitsLength, drop_length_takeWhile]
  exact (run_takeWhile Text.isDigit cs).2

theorem head_drop_mantissaLength (h : mantissaLength cs ≠ 0) :
    ∀ c, (cs.drop (mantissaLength cs)).head? = some c → Text.isDigit c = false := by
  by_cases hpoint : (cs.drop (digitsLength cs)).head? = some '.'
  · obtain ⟨rest, hdrop⟩ := List.head?_eq_some_iff.mp hpoint
    rw [mantissaLength_point hdrop] at h ⊢
    split
    · rename_i hzero
      exact absurd (if_pos hzero) h
    · have hrest : cs.drop (digitsLength cs + 1 + digitsLength rest) =
          rest.drop (digitsLength rest) := by
        rw [← List.drop_drop, ← List.drop_drop, hdrop, List.drop_one, List.tail_cons]
      rw [hrest]
      exact head_drop_digitsLength rest
  · rw [mantissaLength_plain hpoint]
    exact head_drop_digitsLength cs

theorem head_drop_exponentLength (hcs : ∀ c, cs.head? = some c → Text.isDigit c = false) :
    ∀ c, (cs.drop (exponentLength cs)).head? = some c → Text.isDigit c = false := by
  cases cs with
  | nil => exact hcs
  | cons mark rest =>
    rw [exponentLength_cons]
    split
    · split
      · exact hcs
      · have hdrop : (mark :: rest).drop
              (1 + signLength rest + digitsLength (rest.drop (signLength rest))) =
            (rest.drop (signLength rest)).drop (digitsLength (rest.drop (signLength rest))) := by
          rw [← List.drop_drop, ← List.drop_drop, List.drop_one, List.tail_cons]
        rw [hdrop]
        exact head_drop_digitsLength _
    · exact hcs

theorem head_drop_tailLength (hcs : ∀ c, cs.head? = some c → Text.isDigit c = false) :
    ∀ c, (cs.drop (tailLength cs)).head? = some c → isTailChar c = false := by
  cases cs with
  | nil => simp [tailLength]
  | cons c rest =>
    rw [tailLength]
    split
    · rw [Nat.add_comm, List.drop_succ_cons, drop_length_takeWhile]
      exact (run_takeWhile isTailChar rest).2
    · rename_i hstart
      intro d hd
      obtain rfl : c = d := Option.some.inj hd
      have hdigit : c.isDigit = false := by
        cases hc : c.isDigit with
        | false => rfl
        | true => exact (Text.isDigit_of_isDigit hc).symm.trans (hcs c rfl)
      simp only [isTailStart, Bool.or_eq_true, not_or, Bool.not_eq_true] at hstart
      simp [isTailChar, isWordChar, Char.isAlphanum, hstart, hdigit]

/-- No letter, digit, underscore or point follows a numeral. -/
theorem head_drop_numeralLength (h : 0 < numeralLength cs) :
    ∀ c, (cs.drop (numeralLength cs)).head? = some c → isTailChar c = false := by
  have hmantissa : mantissaLength cs ≠ 0 :=
    fun hzero => mantissaLength_eq_zero_iff.mp hzero (numeralLength_pos_iff.mp h)
  have hexponent := head_drop_exponentLength (head_drop_mantissaLength hmantissa)
  rw [List.drop_drop] at hexponent
  have htail := head_drop_tailLength hexponent
  rw [List.drop_drop] at htail
  rw [numeralLength, if_neg hmantissa]
  exact htail

end Ends

section Local

variable {x b : List Char}

theorem length_takeWhile_of_le {p : Char → Bool} (h : ((x ++ b).takeWhile p).length ≤ x.length) :
    ((x ++ b).takeWhile p).length = (x.takeWhile p).length := by
  rw [List.takeWhile_append] at h ⊢
  split at h
  · rename_i hall
    rw [if_pos hall, hall]
    rw [List.length_append] at h ⊢
    omega
  · rename_i hall
    rw [if_neg hall]

theorem digitsLength_of_le (h : digitsLength (x ++ b) ≤ x.length) :
    digitsLength (x ++ b) = digitsLength x :=
  length_takeWhile_of_le h

theorem mantissaLength_of_le (h : mantissaLength (x ++ b) ≤ x.length) :
    mantissaLength (x ++ b) = mantissaLength x := by
  have hwhole : digitsLength (x ++ b) = digitsLength x :=
    digitsLength_of_le ((digitsLength_le_mantissaLength _).trans h)
  have hdrop : (x ++ b).drop (digitsLength (x ++ b)) = x.drop (digitsLength x) ++ b := by
    rw [hwhole, List.drop_append_of_le_length (digitsLength_le x)]
  have hlength := List.length_drop (i := digitsLength x) (l := x)
  cases hrest : x.drop (digitsLength x) with
  | nil =>
    rw [hrest, List.nil_append] at hdrop
    rw [hrest, List.length_nil] at hlength
    have hplain : (x.drop (digitsLength x)).head? ≠ some '.' := by simp [hrest]
    rw [mantissaLength_plain hplain]
    by_cases hpoint : b.head? = some '.'
    · -- The point would be behind the characters, so there is no digit either.
      obtain ⟨r, rfl⟩ := List.head?_eq_some_iff.mp hpoint
      rw [mantissaLength_point hdrop] at h ⊢
      split
      · omega
      · rename_i hne
        rw [if_neg hne] at h
        omega
    · rw [mantissaLength_plain (by rwa [hdrop]), hwhole]
  | cons c r =>
    rw [hrest, List.cons_append] at hdrop
    rw [hrest, List.length_cons] at hlength
    by_cases hc : c = '.'
    · subst hc
      rw [mantissaLength_point hdrop] at h ⊢
      rw [mantissaLength_point hrest]
      have hfraction : digitsLength (r ++ b) = digitsLength r := by
        apply digitsLength_of_le
        split at h <;> omega
      rw [hfraction, hwhole]
    · rw [mantissaLength_plain (by rw [hdrop]; simpa using hc),
        mantissaLength_plain (by rw [hrest]; simpa using hc), hwhole]

theorem exponentLength_of_le (h : exponentLength (x ++ b) ≤ x.length) :
    exponentLength (x ++ b) = exponentLength x := by
  cases x with
  | nil => exact Nat.le_zero.mp h
  | cons mark rest =>
    rw [List.cons_append, exponentLength_cons] at h ⊢
    rw [exponentLength_cons]
    rw [List.length_cons] at h
    split at h
    · rename_i hmark
      rw [if_pos hmark, if_pos hmark]
      cases rest with
      | nil =>
        -- Digits behind the mark would be behind the characters.
        have hnone : digitsLength ([] : List Char) = 0 := rfl
        rw [List.nil_append] at h ⊢
        rw [List.length_nil] at h
        split at h
        · rename_i hzero
          rw [if_pos hzero, List.drop_nil, if_pos hnone]
        · omega
      | cons c rest =>
        have hsign := signLength_cons_append c rest b
        have hle := signLength_le (c :: rest)
        have hlength := List.length_drop (i := signLength (c :: rest)) (l := c :: rest)
        rw [hsign, List.drop_append_of_le_length hle] at h ⊢
        have hdigits : digitsLength ((c :: rest).drop (signLength (c :: rest)) ++ b) =
            digitsLength ((c :: rest).drop (signLength (c :: rest))) := by
          apply digitsLength_of_le
          split at h <;> omega
        rw [hdigits]
    · rename_i hmark
      rw [if_neg hmark, if_neg hmark]

theorem tailLength_of_le (h : tailLength (x ++ b) ≤ x.length) :
    tailLength (x ++ b) = tailLength x := by
  cases x with
  | nil => exact Nat.le_zero.mp h
  | cons c rest =>
    rw [List.cons_append, tailLength, List.length_cons] at h
    rw [List.cons_append, tailLength, tailLength]
    split
    · rename_i hstart
      rw [if_pos hstart] at h
      rw [length_takeWhile_of_le (by omega)]
    · rfl

theorem numeralLength_of_le (h : numeralLength (x ++ b) ≤ x.length) :
    numeralLength (x ++ b) = numeralLength x := by
  by_cases hzero : mantissaLength (x ++ b) = 0
  · have hmantissa := mantissaLength_of_le (x := x) (b := b) (by omega)
    rw [numeralLength, if_pos hzero, numeralLength, if_pos (hmantissa ▸ hzero)]
  · rw [numeralLength, if_neg hzero] at h ⊢
    dsimp only at h ⊢
    have hmantissa := mantissaLength_of_le (x := x) (b := b) (by omega)
    rw [hmantissa] at h hzero ⊢
    rw [numeralLength, if_neg hzero]
    rw [List.drop_append_of_le_length (by omega)] at h ⊢
    have hexponent : exponentLength (x.drop (mantissaLength x) ++ b) =
        exponentLength (x.drop (mantissaLength x)) := by
      apply exponentLength_of_le
      rw [List.length_drop]
      omega
    rw [hexponent] at h ⊢
    rw [List.drop_append_of_le_length (by omega)] at h ⊢
    rw [tailLength_of_le]
    rw [List.length_drop]
    omega

end Local

end Lexeme

namespace Piece

theorem Maximal.of_append {p : Piece} {rest b : List Char} (h : p.Maximal (rest ++ b)) :
    p.Maximal rest := by
  have hrun : ∀ {class' : Char → Bool} {others : List Char},
      Lexeme.Run class' others (rest ++ b) → Lexeme.Run class' others rest := by
    rintro class' others ⟨hothers, hrest⟩
    refine ⟨hothers, fun c hc => hrest c ?_⟩
    rw [List.head?_append, hc]
    rfl
  obtain ⟨form, c, others⟩ := p
  cases form with
  | numeral =>
    have hlength : Lexeme.numeralLength (c :: others ++ rest ++ b) = (c :: others).length := by
      rw [List.append_assoc]
      exact h
    have hle : Lexeme.numeralLength (c :: others ++ rest ++ b) ≤ (c :: others ++ rest).length := by
      rw [hlength, List.length_append]
      exact Nat.le_add_right _ _
    exact (Lexeme.numeralLength_of_le hle).symm.trans hlength
  | word => exact ⟨h.1, hrun h.2⟩
  | symbol s => exact h
  | newline => exact h
  | blank => exact ⟨h.1, hrun h.2⟩
  | comment => exact ⟨h.1, hrun h.2⟩
  | unknown =>
    obtain ⟨⟨hzero, hother⟩, rfl⟩ : Unused c (rest ++ b) ∧ others = [] := h
    have hlength : Lexeme.numeralLength (c :: rest ++ b) = 0 := hzero
    exact ⟨⟨(Lexeme.numeralLength_of_le (hlength ▸ Nat.zero_le _)).symm.trans hlength, hother⟩, rfl⟩

theorem kindsOf_maximal {p : Piece} {rest : List Char} (h : p.Maximal rest) :
    kindsOf (p.text ++ rest) = p.kind?.toList ++ kindsOf rest := by
  rw [kindsOf, cut_of_maximal h, kindsOf]
  cases hkind : p.kind? with
  | none => rw [List.filterMap_cons_none hkind]; rfl
  | some kind => rw [List.filterMap_cons_some hkind]; rfl

theorem kindsOf_blanks {cs : List Char} (h : ∀ c ∈ cs, Lexeme.isBlank c = true) (rest : List Char) :
    kindsOf (cs ++ rest) = kindsOf rest := by
  induction cs with
  | nil => rfl
  | cons c cs ih =>
    obtain ⟨hc, hcs⟩ := List.forall_mem_cons.mp h
    rw [List.cons_append, kindsOf_blank hc, ih hcs]

theorem kindsOf_comment (cs : List Char) :
    kindsOf ('#' :: cs) = kindsOf (cs.dropWhile (· != '\n')) := by
  rw [kindsOf, cut, extent_comment]
  dsimp only
  rw [List.filterMap_cons_none rfl, drop_length_takeWhile]
  rfl

/-- A space within a blank or a comment, or right behind it, adds no token. -/
theorem Maximal.kindsOf_space {p : Piece} {rest : List Char} (h : p.Maximal rest)
    (hkind : p.kind? = none) {a : List Char} (ha : a ≠ []) (hpart : a <+: p.text) (b : List Char) :
    kindsOf (a ++ ' ' :: b) = kindsOf (a ++ b) := by
  rcases form_of_kind? hkind with hform | hform
  · have hblank : ∀ c ∈ a, Lexeme.isBlank c = true :=
      fun c hc => isBlank_of_mem h hform (hpart.subset hc)
    rw [kindsOf_blanks hblank, kindsOf_blanks hblank, kindsOf_blank (by decide)]
  · obtain ⟨others, htext, hothers, -⟩ := text_of_comment h hform
    obtain ⟨c, cs, rfl⟩ := List.exists_cons_of_ne_nil ha
    rw [htext] at hpart
    obtain ⟨rfl, hcs⟩ := List.cons_prefix_cons.mp hpart
    have hline : ∀ d ∈ cs, (d != '\n') = true :=
      fun d hd => bne_iff_ne.mpr fun hd' => hothers (hd' ▸ hcs.subset hd)
    rw [List.cons_append, List.cons_append, kindsOf_comment, kindsOf_comment,
      List.dropWhile_append_of_pos hline, List.dropWhile_append_of_pos hline,
      List.dropWhile_cons_of_pos (by decide)]

/-- A space adds no token where it goes through no piece that is a token. -/
theorem Tiles.kindsOf_space {ps : List Piece} (h : Tiles ps) {a b : List Char}
    (htext : ps.flatMap text = a ++ b)
    (hpieces : ∀ before p, StandsAt ps before p → p.kind? ≠ none →
      a.length ≤ before.length ∨ before.length + p.text.length ≤ a.length) :
    kindsOf (a ++ ' ' :: b) = kindsOf (a ++ b) := by
  induction h generalizing a with
  | nil =>
    obtain ⟨rfl, rfl⟩ := List.append_eq_nil_iff.mp htext.symm
    exact kindsOf_blank (by decide) []
  | @cons p ps hp hps ih =>
    by_cases ha : a = []
    · subst ha
      exact kindsOf_blank (by decide) b
    rw [List.flatMap_cons] at htext
    by_cases hsilent : p.kind? = none ∧ a.length ≤ p.text.length
    · have hpart : a <+: p.text :=
        List.prefix_of_prefix_length_le ⟨b, htext.symm⟩ (List.prefix_append _ _) hsilent.2
      exact hp.kindsOf_space hsilent.1 ha hpart b
    have hlength : p.text.length ≤ a.length := by
      by_cases hkind : p.kind? = none
      · exact Nat.le_of_not_le fun hle => hsilent ⟨hkind, hle⟩
      · have hfirst := hpieces [] p (standsAt_cons.mpr (.inl ⟨rfl, rfl⟩)) hkind
        have hpos := List.length_pos_of_ne_nil ha
        rw [List.length_nil] at hfirst
        omega
    obtain ⟨later, rfl⟩ : p.text <+: a :=
      List.prefix_of_prefix_length_le ⟨_, htext⟩ (List.prefix_append a b) hlength
    rw [List.append_assoc, List.append_cancel_left_eq] at htext
    -- The piece ends before the space, so it is cut off with the space behind it too.
    have hbehind : p.Maximal (later ++ ' ' :: b) := by
      have hform : later = [] → p.form ≠ .blank ∧ p.form ≠ .comment := by
        rintro rfl
        refine ⟨fun hform => hsilent ⟨?_, by simp⟩, fun hform => hsilent ⟨?_, by simp⟩⟩
        · rw [kind?, hform]
        · rw [kind?, hform]
      rw [htext] at hp
      exact hp.of_append.append (by decide) (fun hnil hblank => absurd hblank (hform hnil).1)
        (fun hnil hcomment => absurd hcomment (hform hnil).2) b
    have hlater : kindsOf (later ++ ' ' :: b) = kindsOf (later ++ b) := by
      refine ih htext fun before q hq hkind => ?_
      have hq' := hpieces (p.text ++ before) q (standsAt_cons.mpr (.inr ⟨before, rfl, hq⟩)) hkind
      rw [List.length_append, List.length_append] at hq'
      omega
    rw [htext] at hp
    rw [List.append_assoc, List.append_assoc, kindsOf_maximal hbehind, kindsOf_maximal hp, hlater]

/-- A piece is a numeral exactly if one starts where it stands. -/
theorem Maximal.form_numeral_iff {p : Piece} {rest : List Char} (h : p.Maximal rest) :
    p.form = .numeral ↔ Lexeme.StartsNumeral (p.text ++ rest) := by
  rw [← Lexeme.numeralLength_pos_iff]
  constructor
  · intro hform
    obtain ⟨form, c, others⟩ := p
    obtain rfl : form = .numeral := hform
    have hlength : Lexeme.numeralLength (c :: others ++ rest) = others.length + 1 := h
    exact hlength ▸ Nat.succ_pos _
  · intro hpos
    have hextent := extent_of_maximal h
    have hnumeral : (extent p.first (p.others ++ rest)).1 = .numeral :=
      congrArg Prod.fst (if_pos hpos)
    rw [← hnumeral, hextent]

theorem numeralKind_eq_number_iff {cs : List Char} {value : Float} :
    numeralKind cs = .number value ↔
      ∃ n, Numeral.Writes cs n ∧ n.value.isFinite = true ∧ n.value = value := by
  simp only [← Numeral.ofChars?_eq_some_iff]
  rcases numeralKind_cases cs with ⟨n, hn, hfinite, hkind⟩ | ⟨hnone, hkind⟩
  · simp [hkind, hn, hfinite]
  · have hvalue : ¬∃ n, Numeral.ofChars? cs = some n ∧ n.value.isFinite = true ∧
        n.value = value := by
      rintro ⟨n, hn, hfinite, -⟩
      exact hnone ⟨n, hn, hfinite⟩
    simp [hkind, hvalue]

theorem numeralKind_eq_invalid_iff {cs : List Char} :
    numeralKind cs = .invalid (String.ofList cs) ↔
      ¬∃ n, Numeral.Writes cs n ∧ n.value.isFinite = true := by
  simp only [← Numeral.ofChars?_eq_some_iff]
  rcases numeralKind_cases cs with ⟨n, hn, hfinite, hkind⟩ | ⟨hnone, hkind⟩
  · simp [hkind, hn, hfinite]
  · exact iff_of_true hkind hnone

end Piece

/-- The token is a number, or a numeral that is none. -/
def Kind.IsNumeric : Kind → Prop
  | .number _ => True
  | .invalid _ => True
  | _ => False

theorem Piece.isNumeric_iff {p : Piece} {kind : Kind} (h : p.kind? = some kind) :
    kind.IsNumeric ↔ p.form = .numeral := by
  obtain ⟨form, c, others⟩ := p
  cases form with
  | numeral =>
    obtain rfl := Option.some.inj h
    rcases numeralKind_cases (c :: others) with ⟨n, -, -, hkind⟩ | ⟨-, hkind⟩ <;>
      simp [text, hkind, Kind.IsNumeric]
  | blank => contradiction
  | comment => contradiction
  | _ =>
    obtain rfl := Option.some.inj h
    simp [Kind.IsNumeric]

namespace Lexeme.ReadFrom

variable {x : Lexeme} {cs before after : List Char} {p : Piece}

theorem drop_start (h : x.ReadFrom cs before p after) : cs.drop (x.start cs) = p.text ++ after := by
  rw [h.start_eq, h.text, List.drop_left]

theorem isNumeric_iff (h : x.ReadFrom cs before p after) :
    x.token.kind.IsNumeric ↔ StartsNumeral (cs.drop (x.start cs)) := by
  rw [Piece.isNumeric_iff h.kind, h.maximal.form_numeral_iff, h.drop_start]

theorem startsNumeral_chars (h : x.ReadFrom cs before p after) (hkind : x.token.kind.IsNumeric) :
    StartsNumeral x.chars := by
  have hform := (Piece.isNumeric_iff h.kind).mp hkind
  have halone : p.Maximal [] := Piece.Maximal.of_append (b := after) h.maximal
  have hstarts := halone.form_numeral_iff.mp hform
  rwa [List.append_nil, ← h.chars] at hstarts

theorem kind_of_startsNumeral (h : x.ReadFrom cs before p after)
    (hstarts : StartsNumeral (cs.drop (x.start cs))) :
    x.token.kind = Piece.numeralKind x.chars := by
  have hform := (Piece.isNumeric_iff h.kind).mp (h.isNumeric_iff.mpr hstarts)
  have hkind := h.kind
  rw [Piece.kind?, hform] at hkind
  rw [h.chars]
  exact (Option.some.inj hkind).symm

theorem next_of_isNumeric (h : x.ReadFrom cs before p after) (hkind : x.token.kind.IsNumeric)
    {c : Char} (hc : cs[x.stop cs]? = some c) : isTailChar c = false := by
  have hstarts := h.isNumeric_iff.mp hkind
  rw [h.drop_start] at hstarts
  have hform := h.maximal.form_numeral_iff.mpr hstarts
  have hlength : numeralLength (p.text ++ after) = p.text.length := by
    have hmaximal := h.maximal
    rwa [Piece.Maximal, hform] at hmaximal
  have hnext := head_drop_numeralLength (numeralLength_pos_iff.mpr hstarts)
  rw [hlength, List.drop_left] at hnext
  apply hnext
  rw [stop, h.start_eq, h.chars, h.text, ← List.append_assoc, ← List.length_append,
    List.getElem?_append_right le_rfl, Nat.sub_self] at hc
  rw [List.head?_eq_getElem?, hc]

end Lexeme.ReadFrom

theorem kinds_tokenize (text : String) :
    (tokenize text).map Token.kind = Piece.kindsOf text.toList ++ [.endOfInput] :=
  Piece.kinds_place 1 1 _

/-- A space between two lexemes that follow each other adds no token and changes none. -/
theorem kinds_space {text : String} {left right : List Lexeme} {x y : Lexeme}
    (h : lexemes text = left ++ x :: y :: right) {a b : String} (htext : text = a ++ b)
    (hx : x.stop text.toList ≤ a.toList.length) (hy : a.toList.length ≤ y.start text.toList) :
    (tokenize (a ++ " " ++ b)).map Token.kind = (tokenize text).map Token.kind := by
  have hlist : text.toList = a.toList ++ b.toList := by rw [htext, String.toList_append]
  have hspace : (a ++ " " ++ b).toList = a.toList ++ ' ' :: b.toList := by simp
  have hordered := (tiling_lexemes text).ordered
  rw [h, List.pairwise_append] at hordered
  obtain ⟨-, hright, hleft⟩ := hordered
  obtain ⟨-, hright⟩ := List.pairwise_cons.mp hright
  obtain ⟨hright, -⟩ := List.pairwise_cons.mp hright
  have hkinds : Piece.kindsOf (a.toList ++ ' ' :: b.toList) =
      Piece.kindsOf (a.toList ++ b.toList) := by
    refine (Piece.tiles_cut text.toList).kindsOf_space ?_ fun before p hp hkind => ?_
    · rw [Piece.flatMap_text_cut, hlist]
    · -- A lexeme up to the first of the two ends before the space, the others start behind it.
      obtain ⟨z, hz, after, hread⟩ := exists_lexeme hp hkind
      have hstart := hread.start_eq
      have hstop : z.stop text.toList = before.length + p.text.length := by
        rw [Lexeme.stop, hstart, hread.chars]
      have hxstop : x.start text.toList ≤ x.stop text.toList := Nat.le_add_right _ _
      have hystop : y.start text.toList ≤ y.stop text.toList := Nat.le_add_right _ _
      rw [h] at hz
      rcases List.mem_append.mp hz with hz | hz
      · have hbefore := (hleft z hz x List.mem_cons_self).2
        omega
      · rcases List.mem_cons.mp hz with rfl | hz
        · omega
        · rcases List.mem_cons.mp hz with rfl | hz
          · omega
          · have hbehind := (hright z hz).2
            omega
  rw [kinds_tokenize, kinds_tokenize, hspace, hlist, hkinds]

/-- Numeric runs are read whole. Where a digit stands, or a point and a digit, the lexeme is a
number with the value that it writes if it is a decimal of finite value, and it is kept as it is if
it is not. No letter, digit, underscore or point follows it, and a space between two lexemes that
follow each other changes no token. -/
theorem numeric_runs_whole (text : String) :
    (∀ x ∈ lexemes text, Lexeme.StartsNumeral (text.toList.drop (x.start text.toList)) →
      (∀ value, x.token.kind = .number value ↔
        ∃ n, Numeral.Writes x.chars n ∧ n.value.isFinite = true ∧ n.value = value) ∧
      (x.token.kind = .invalid (String.ofList x.chars) ↔
        ¬∃ n, Numeral.Writes x.chars n ∧ n.value.isFinite = true)) ∧
    (∀ x ∈ lexemes text, x.token.kind.IsNumeric → Lexeme.StartsNumeral x.chars ∧
      ∀ c, text.toList[x.stop text.toList]? = some c →
        c.isAlphanum = false ∧ c ≠ '_' ∧ c ≠ '.') ∧
    ∀ left x y right, lexemes text = left ++ x :: y :: right → ∀ a b : String, text = a ++ b →
      x.stop text.toList ≤ a.toList.length → a.toList.length ≤ y.start text.toList →
      (tokenize (a ++ " " ++ b)).map Token.kind = (tokenize text).map Token.kind := by
  refine ⟨fun x hx hstarts => ?_, fun x hx hkind => ?_,
    fun left x y right h a b htext hx hy => kinds_space h htext hx hy⟩
  · obtain ⟨before, p, after, hread⟩ := mem_lexemes.mp hx
    rw [hread.kind_of_startsNumeral hstarts]
    exact ⟨fun value => Piece.numeralKind_eq_number_iff, Piece.numeralKind_eq_invalid_iff⟩
  · obtain ⟨before, p, after, hread⟩ := mem_lexemes.mp hx
    refine ⟨hread.startsNumeral_chars hkind, fun c hc => ?_⟩
    have htail := hread.next_of_isNumeric hkind hc
    simpa [Lexeme.isTailChar, Lexeme.isWordChar, and_assoc] using htail

/-- An exponent without digits makes the numeral invalid, and the sign behind it is a token of its
own, with or without a space before it. -/
theorem numeric_runs_whole_exponent :
    lexemes "1e+" = [⟨⟨.invalid "1e", 1, 1⟩, ['1', 'e']⟩, ⟨⟨.symbol .plus, 1, 3⟩, ['+']⟩] ∧
    (¬∃ n, Numeral.Writes ['1', 'e'] n ∧ n.value.isFinite = true) ∧
    (∀ c, "1e+".toList[2]? = some c → c.isAlphanum = false ∧ c ≠ '_' ∧ c ≠ '.') ∧
    (tokenize "1e +").map Token.kind = (tokenize "1e+").map Token.kind := by
  have hlexemes : lexemes "1e+" =
      [⟨⟨.invalid "1e", 1, 1⟩, ['1', 'e']⟩, ⟨⟨.symbol .plus, 1, 3⟩, ['+']⟩] := by cbv
  have hmem : (⟨⟨.invalid "1e", 1, 1⟩, ['1', 'e']⟩ : Lexeme) ∈ lexemes "1e+" := by
    rw [hlexemes]
    exact List.mem_cons_self
  obtain ⟨hread, hnext, hspace⟩ := numeric_runs_whole "1e+"
  have hstarts : Lexeme.StartsNumeral ['1', 'e', '+'] := .inl (by decide)
  exact ⟨hlexemes, (hread _ hmem hstarts).2.mp rfl, (hnext _ hmem trivial).2,
    hspace [] _ _ [] hlexemes "1e" "+" (by decide) (by decide) (by decide)⟩

end MatrixCalculator
