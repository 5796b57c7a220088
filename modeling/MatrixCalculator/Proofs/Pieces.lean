import Mathlib
import MatrixCalculator.Language.Piece

namespace MatrixCalculator

theorem takeWhile_run {p : Char → Bool} {cs rest : List Char} (hcs : ∀ c ∈ cs, p c = true)
    (hrest : ∀ c, rest.head? = some c → p c = false) :
    (cs ++ rest).takeWhile p = cs ∧ (cs ++ rest).dropWhile p = rest := by
  rw [List.takeWhile_append_of_pos hcs, List.dropWhile_append_of_pos hcs]
  cases rest with
  | nil => simp
  | cons c rest =>
    have hc : p c = false := hrest c rfl
    simp [hc]

/-- All characters are of the class, and the rest starts with none of it. -/
def Lexeme.Run (p : Char → Bool) (cs rest : List Char) : Prop :=
  (∀ c ∈ cs, p c = true) ∧ ∀ c, rest.head? = some c → p c = false

theorem Lexeme.run_takeWhile (p : Char → Bool) (cs : List Char) :
    Run p (cs.takeWhile p) (cs.dropWhile p) := by
  refine ⟨fun c hc => List.mem_takeWhile_imp hc, fun c hc => ?_⟩
  have hhead := List.head?_dropWhile_not p cs
  rw [hc] at hhead
  exact hhead

theorem Lexeme.Run.append {p : Char → Bool} {cs rest : List Char} (h : Run p cs rest) {s : Char}
    (hs : rest = [] → p s = false) (b : List Char) : Run p cs (rest ++ s :: b) := by
  refine ⟨h.1, fun c hc => ?_⟩
  cases rest with
  | nil =>
    obtain rfl := Option.some.inj hc
    exact hs rfl
  | cons d rest => exact h.2 c hc

theorem take_length_takeWhile (p : Char → Bool) (cs : List Char) :
    cs.take (cs.takeWhile p).length = cs.takeWhile p :=
  (List.prefix_iff_eq_take.mp (List.takeWhile_prefix p)).symm

theorem drop_length_takeWhile (p : Char → Bool) (cs : List Char) :
    cs.drop (cs.takeWhile p).length = cs.dropWhile p := by
  have hdrop : (cs.takeWhile p ++ cs.dropWhile p).drop (cs.takeWhile p).length =
      cs.dropWhile p := List.drop_left
  rwa [List.takeWhile_append_dropWhile] at hdrop

namespace Lexeme

/-- No numeral has the character. -/
def Stops (c : Char) : Prop :=
  Text.isDigit c = false ∧ isTailChar c = false ∧ c ≠ '+' ∧ c ≠ '-'

instance (c : Char) : Decidable (Stops c) :=
  inferInstanceAs (Decidable (_ ∧ _ ∧ _ ∧ _))

section Stop

variable (cs b : List Char) {s : Char}

theorem takeWhile_stop {p : Char → Bool} (hs : p s = false) :
    (cs ++ s :: b).takeWhile p = cs.takeWhile p := by
  induction cs with
  | nil => simp [hs]
  | cons c cs ih =>
    rw [List.cons_append, List.takeWhile_cons, List.takeWhile_cons, ih]

theorem digitsLength_stop (hs : Stops s) : digitsLength (cs ++ s :: b) = digitsLength cs := by
  rw [digitsLength, digitsLength, takeWhile_stop cs b hs.1]

theorem digitsLength_le : digitsLength cs ≤ cs.length := (List.takeWhile_sublist _).length_le

theorem ne_point_of_stops (hs : Stops s) : s ≠ '.' := by
  rintro rfl
  exact absurd hs (by decide)

theorem mantissaLength_stop (hs : Stops s) :
    mantissaLength (cs ++ s :: b) = mantissaLength cs := by
  simp only [mantissaLength, digitsLength_stop cs b hs,
    List.drop_append_of_le_length (digitsLength_le cs)]
  cases cs.drop (digitsLength cs) with
  | nil => simp [ne_point_of_stops hs]
  | cons c rest =>
    by_cases hc : c = '.'
    · subst hc
      simp only [List.cons_append, digitsLength_stop _ b hs]
    · simp [hc]

theorem mantissaLength_le : mantissaLength cs ≤ cs.length := by
  have hwhole := digitsLength_le cs
  have hdrop := List.length_drop (i := digitsLength cs) (l := cs)
  simp only [mantissaLength]
  split
  · rename_i rest heq
    have hfraction := digitsLength_le rest
    rw [heq, List.length_cons] at hdrop
    split <;> omega
  · exact hwhole

def signLength (cs : List Char) : Nat :=
  match cs with
  | '+' :: _ => 1
  | '-' :: _ => 1
  | _ => 0

theorem signLength_le : signLength cs ≤ cs.length := by
  unfold signLength
  split <;> simp

theorem signLength_cons_append (c : Char) (cs b : List Char) :
    signLength (c :: cs ++ b) = signLength (c :: cs) := by
  by_cases hplus : c = '+'
  · subst hplus
    rfl
  · by_cases hminus : c = '-'
    · subst hminus
      rfl
    · simp [signLength, hplus, hminus]

theorem signLength_stop (hs : Stops s) : signLength (cs ++ s :: b) = signLength cs := by
  cases cs with
  | nil => simp [signLength, hs.2.2]
  | cons c cs => exact signLength_cons_append c cs (s :: b)

theorem exponentLength_cons (mark : Char) (rest : List Char) : exponentLength (mark :: rest) =
    if mark == 'e' || mark == 'E' then
      if digitsLength (rest.drop (signLength rest)) = 0 then 0
      else 1 + signLength rest + digitsLength (rest.drop (signLength rest))
    else 0 := rfl

theorem exponentLength_stop (hs : Stops s) :
    exponentLength (cs ++ s :: b) = exponentLength cs := by
  cases cs with
  | nil =>
    have hmark : (s == 'e' || s == 'E') = false := by
      rw [Bool.or_eq_false_iff, beq_eq_false_iff_ne, beq_eq_false_iff_ne]
      refine ⟨?_, ?_⟩ <;> rintro rfl <;> exact absurd hs (by decide)
    rw [List.nil_append, exponentLength_cons, hmark]
    rfl
  | cons mark rest =>
    rw [List.cons_append, exponentLength_cons, exponentLength_cons, signLength_stop rest b hs,
      List.drop_append_of_le_length (signLength_le rest), digitsLength_stop _ b hs]

theorem exponentLength_le : exponentLength cs ≤ cs.length := by
  cases cs with
  | nil => exact le_refl _
  | cons mark rest =>
    have hsign := signLength_le rest
    have hdigits := digitsLength_le (rest.drop (signLength rest))
    rw [List.length_drop] at hdigits
    rw [exponentLength_cons, List.length_cons]
    split
    · split <;> omega
    · exact Nat.zero_le _

theorem isTailStart_of_isTailChar {c : Char} (h : isTailChar c = false) :
    isTailStart c = false := by
  simp only [isTailChar, isWordChar, Char.isAlphanum, Bool.or_eq_false_iff] at h
  simp [isTailStart, h]

theorem tailLength_stop (hs : Stops s) : tailLength (cs ++ s :: b) = tailLength cs := by
  cases cs with
  | nil => simp [tailLength, isTailStart_of_isTailChar hs.2.1]
  | cons c rest => rw [List.cons_append, tailLength, tailLength, takeWhile_stop rest b hs.2.1]

theorem tailLength_le : tailLength cs ≤ cs.length := by
  cases cs with
  | nil => exact le_refl _
  | cons c rest =>
    have h := (List.takeWhile_sublist (l := rest) isTailChar).length_le
    rw [tailLength]
    split
    · rw [List.length_cons]
      omega
    · exact Nat.zero_le _

theorem numeralLength_stop (hs : Stops s) :
    numeralLength (cs ++ s :: b) = numeralLength cs := by
  have hmantissa := mantissaLength_le cs
  have hexponent := exponentLength_le (cs.drop (mantissaLength cs))
  rw [List.length_drop] at hexponent
  simp only [numeralLength, mantissaLength_stop cs b hs]
  split
  · rfl
  · rw [List.drop_append_of_le_length hmantissa, exponentLength_stop _ b hs,
      List.drop_append_of_le_length (by omega), tailLength_stop _ b hs]

theorem numeralLength_le : numeralLength cs ≤ cs.length := by
  have hmantissa := mantissaLength_le cs
  have hexponent := exponentLength_le (cs.drop (mantissaLength cs))
  have htail := tailLength_le
    (cs.drop (mantissaLength cs + exponentLength (cs.drop (mantissaLength cs))))
  rw [List.length_drop] at hexponent htail
  simp only [numeralLength]
  split <;> omega

end Stop

/-- A numeral has no character that numerals cannot have. -/
theorem not_mem_of_numeralLength {cs rest : List Char} {s : Char} (hs : Stops s)
    (h : numeralLength (cs ++ rest) = cs.length) : s ∉ cs := by
  intro hmem
  obtain ⟨a, b, rfl⟩ := List.append_of_mem hmem
  have hle := numeralLength_le a
  rw [List.append_assoc, List.cons_append, numeralLength_stop a _ hs, List.length_append,
    List.length_cons] at h
  omega

end Lexeme

namespace Piece

theorem numeralLength_eq_zero {c : Char} (hdigit : Text.isDigit c = false) (hdot : c ≠ '.')
    (rest : List Char) : Lexeme.numeralLength (c :: rest) = 0 := by
  have hmantissa : Lexeme.mantissaLength (c :: rest) = 0 := by
    simp [Lexeme.mantissaLength, Lexeme.digitsLength, hdigit, hdot]
  simp [Lexeme.numeralLength, hmantissa]

theorem isDigit_of_isAlpha {c : Char} (h : c.isAlpha = true) : Text.isDigit c = false := by
  have hrange : 57 < c.toNat ∧ c.toNat < 0x660 := by
    have hletter : (65 ≤ c.toNat ∧ c.toNat ≤ 90) ∨ (97 ≤ c.toNat ∧ c.toNat ≤ 122) := by
      simpa [Char.isAlpha, Char.isUpper, Char.isLower, UInt32.le_iff_toNat_le] using h
    omega
  have hzeros : ∀ z ∈ Text.digitZeros, z = 48 ∨ 0x660 ≤ z := by decide
  have hnone : Text.digitValue? c = none := by
    rw [Text.digitValue?, List.findSome?_eq_none_iff]
    intro z hz
    have hz := hzeros z hz
    rw [if_neg (by omega)]
  rw [Text.isDigit, hnone]
  rfl

theorem extent_word {c : Char} (hc : c.isAlpha = true) (rest : List Char) :
    extent c rest = (.word, (rest.takeWhile Lexeme.isWordChar).length) := by
  have hnumeral : Lexeme.numeralLength (c :: rest) = 0 := by
    refine numeralLength_eq_zero (isDigit_of_isAlpha hc) ?_ rest
    rintro rfl
    contradiction
  simp [extent, hnumeral, hc]

theorem extent_comment (rest : List Char) :
    extent '#' rest = (.comment, (rest.takeWhile (· != '\n')).length) := by
  have hnumeral := numeralLength_eq_zero (c := '#') (by decide) (by decide) rest
  simp [extent, hnumeral, show ('#' : Char).isAlpha = false by decide]

theorem extent_newline (rest : List Char) : extent '\n' rest = (.newline, 0) := by
  have hnumeral := numeralLength_eq_zero (c := '\n') (by decide) (by decide) rest
  simp [extent, hnumeral, show ('\n' : Char).isAlpha = false by decide]

theorem extent_blank {c : Char} (hc : Lexeme.isBlank c = true) (rest : List Char) :
    extent c rest = (.blank, (rest.takeWhile Lexeme.isBlank).length) := by
  have hcases : c = ' ' ∨ c = '\t' ∨ c = '\r' := by
    simpa [Lexeme.isBlank, or_assoc] using hc
  have hnumeral : Lexeme.numeralLength (c :: rest) = 0 := by
    rcases hcases with rfl | rfl | rfl <;> exact numeralLength_eq_zero (by decide) (by decide) rest
  have hother : c.isAlpha = false ∧ c ≠ '#' ∧ c ≠ '\n' := by
    rcases hcases with rfl | rfl | rfl <;> decide
  simp [extent, hnumeral, hother, hc]

theorem extent_symbol (s : Symbol) (rest : List Char) : extent s.char rest = (.symbol s, 0) := by
  have hnumeral : Lexeme.numeralLength (s.char :: rest) = 0 :=
    numeralLength_eq_zero (by cases s <;> decide) (by cases s <;> decide) rest
  have hother : s.char.isAlpha = false ∧ s.char ≠ '#' ∧ s.char ≠ '\n' ∧
      Lexeme.isBlank s.char = false := by cases s <;> decide
  simp [extent, hnumeral, hother, Symbol.ofChar?_char]

/-- A numeral is a number if it can be read and has a finite value, and is kept as it is if not. -/
theorem numeralKind_cases (cs : List Char) :
    (∃ n, Numeral.ofChars? cs = some n ∧ n.value.isFinite = true ∧
      numeralKind cs = .number n.value) ∨
    (¬∃ n, Numeral.ofChars? cs = some n ∧ n.value.isFinite = true) ∧
      numeralKind cs = .invalid (String.ofList cs) := by
  unfold numeralKind
  cases h : Numeral.ofChars? cs with
  | none => exact .inr ⟨by simp, rfl⟩
  | some n =>
    by_cases hfinite : n.value.isFinite = true
    · exact .inl ⟨n, rfl, hfinite, if_pos hfinite⟩
    · exact .inr ⟨by simpa using hfinite, if_neg hfinite⟩

/-- No numeral and no other piece than a single character of no use starts with the character. -/
def Unused (c : Char) (rest : List Char) : Prop :=
  Lexeme.numeralLength (c :: rest) = 0 ∧ c.isAlpha = false ∧ c ≠ '#' ∧ c ≠ '\n' ∧
    Lexeme.isBlank c = false ∧ Symbol.ofChar? c = none

/-- The piece is as its form demands, and as long as it can be before the rest. -/
def Maximal (p : Piece) (rest : List Char) : Prop :=
  match p.form with
  | .numeral => Lexeme.numeralLength (p.text ++ rest) = p.text.length
  | .word => p.first.isAlpha = true ∧ Lexeme.Run Lexeme.isWordChar p.others rest
  | .symbol s => p.first = s.char ∧ p.others = []
  | .newline => p.first = '\n' ∧ p.others = []
  | .blank => Lexeme.isBlank p.first = true ∧ Lexeme.Run Lexeme.isBlank p.others rest
  | .comment => p.first = '#' ∧ Lexeme.Run (· != '\n') p.others rest
  | .unknown => Unused p.first rest ∧ p.others = []

theorem maximal_run (form : Form) {c : Char} {class' : Char → Bool}
    (h : ∀ others rest, Lexeme.Run class' others rest → Maximal ⟨form, c, others⟩ rest)
    (cs : List Char) : Maximal ⟨form, c, cs.take (cs.takeWhile class').length⟩
      (cs.drop (cs.takeWhile class').length) := by
  rw [take_length_takeWhile, drop_length_takeWhile]
  exact h _ _ (Lexeme.run_takeWhile class' cs)

theorem maximal_numeral {c : Char} {cs : List Char} (h : 0 < Lexeme.numeralLength (c :: cs)) :
    Maximal ⟨.numeral, c, cs.take (Lexeme.numeralLength (c :: cs) - 1)⟩
      (cs.drop (Lexeme.numeralLength (c :: cs) - 1)) := by
  have hle := Lexeme.numeralLength_le (c :: cs)
  show Lexeme.numeralLength (c :: cs.take _ ++ cs.drop _) = (c :: cs.take _).length
  rw [List.cons_append, List.take_append_drop, List.length_cons, List.length_take]
  rw [List.length_cons] at hle
  omega

theorem maximal_extent (c : Char) (cs : List Char) :
    Maximal ⟨(extent c cs).1, c, cs.take (extent c cs).2⟩ (cs.drop (extent c cs).2) := by
  by_cases hnumeral : 0 < Lexeme.numeralLength (c :: cs)
  · have hextent : extent c cs = (.numeral, Lexeme.numeralLength (c :: cs) - 1) := if_pos hnumeral
    rw [hextent]
    exact maximal_numeral hnumeral
  by_cases halpha : c.isAlpha = true
  · rw [extent_word halpha]
    exact maximal_run .word (fun _ _ hrun => ⟨halpha, hrun⟩) cs
  by_cases hmark : c = '#'
  · subst hmark
    rw [extent_comment]
    exact maximal_run .comment (fun _ _ hrun => ⟨rfl, hrun⟩) cs
  by_cases hnewline : c = '\n'
  · subst hnewline
    rw [extent_newline]
    exact ⟨rfl, rfl⟩
  by_cases hblank : Lexeme.isBlank c = true
  · rw [extent_blank hblank]
    exact maximal_run .blank (fun _ _ hrun => ⟨hblank, hrun⟩) cs
  cases hsymbol : Symbol.ofChar? c with
  | some s =>
    have hchar := List.find?_some hsymbol
    obtain rfl : s.char = c := beq_iff_eq.mp hchar
    rw [extent_symbol]
    exact ⟨rfl, rfl⟩
  | none =>
    have hextent : extent c cs = (.unknown, 0) := by
      simp [extent, hnumeral, halpha, hmark, hnewline, hblank, hsymbol]
    rw [hextent]
    exact ⟨⟨Nat.eq_zero_of_not_pos hnumeral, Bool.eq_false_of_not_eq_true halpha, hmark, hnewline,
      Bool.eq_false_of_not_eq_true hblank, hsymbol⟩, rfl⟩

theorem extent_of_maximal {p : Piece} {rest : List Char} (h : p.Maximal rest) :
    extent p.first (p.others ++ rest) = (p.form, p.others.length) := by
  obtain ⟨form, c, others⟩ := p
  cases form with
  | numeral =>
    have hlength : Lexeme.numeralLength (c :: (others ++ rest)) = others.length + 1 := h
    simp [extent, hlength]
  | word =>
    obtain ⟨halpha, hothers, hrest⟩ : _ ∧ Lexeme.Run _ others rest := h
    rw [extent_word halpha, (takeWhile_run hothers hrest).1]
  | symbol s =>
    obtain ⟨rfl, rfl⟩ : c = s.char ∧ others = [] := h
    exact extent_symbol s rest
  | newline =>
    obtain ⟨rfl, rfl⟩ : c = '\n' ∧ others = [] := h
    exact extent_newline rest
  | blank =>
    obtain ⟨hblank, hothers, hrest⟩ : _ ∧ Lexeme.Run _ others rest := h
    rw [extent_blank hblank, (takeWhile_run hothers hrest).1]
  | comment =>
    obtain ⟨rfl, hothers, hrest⟩ : c = '#' ∧ Lexeme.Run _ others rest := h
    rw [extent_comment, (takeWhile_run hothers hrest).1]
  | unknown =>
    obtain ⟨hunused, rfl⟩ : Unused c rest ∧ others = [] := h
    obtain ⟨hnumeral, halpha, hmark, hnewline, hblank, hsymbol⟩ := hunused
    simp [extent, hnumeral, halpha, hmark, hnewline, hblank, hsymbol]

theorem cut_of_maximal {p : Piece} {rest : List Char} (h : p.Maximal rest) :
    cut (p.text ++ rest) = p :: cut rest := by
  rw [text, List.cons_append, cut, extent_of_maximal h]
  dsimp only
  rw [List.take_left, List.drop_left]

/-- A piece stays as long as it can be when a character that no numeral has comes behind the rest.
At the end of a blank piece this has to be no blank, at the end of a comment a newline. -/
theorem Maximal.append {p : Piece} {rest : List Char} (h : p.Maximal rest) {s : Char}
    (hs : Lexeme.Stops s) (hblank : rest = [] → p.form = .blank → Lexeme.isBlank s = false)
    (hcomment : rest = [] → p.form = .comment → s = '\n') (b : List Char) :
    p.Maximal (rest ++ s :: b) := by
  obtain ⟨form, c, others⟩ := p
  have hnumeral : Lexeme.numeralLength (c :: others ++ (rest ++ s :: b)) =
      Lexeme.numeralLength (c :: others ++ rest) := by
    rw [← List.append_assoc, Lexeme.numeralLength_stop _ b hs]
  cases form with
  | numeral => exact hnumeral.trans h
  | word =>
    obtain ⟨halpha, hrun⟩ : _ ∧ Lexeme.Run _ others rest := h
    have hword : Lexeme.isWordChar s = false := (Bool.or_eq_false_iff.mp hs.2.1).1
    exact ⟨halpha, hrun.append (fun _ => hword) b⟩
  | symbol symbol => exact h
  | newline => exact h
  | blank =>
    obtain ⟨hfirst, hrun⟩ : _ ∧ Lexeme.Run _ others rest := h
    exact ⟨hfirst, hrun.append (fun hrest => hblank hrest rfl) b⟩
  | comment =>
    obtain ⟨hfirst, hrun⟩ : _ ∧ Lexeme.Run _ others rest := h
    exact ⟨hfirst, hrun.append (fun hrest => by simp [hcomment hrest rfl]) b⟩
  | unknown =>
    obtain ⟨⟨hzero, hother⟩, rfl⟩ : Unused c rest ∧ others = [] := h
    exact ⟨⟨hnumeral.trans hzero, hother⟩, rfl⟩

/-- Every piece is as long as it can be before the text of those behind it. -/
inductive Tiles : List Piece → Prop where
  | nil : Tiles []
  | cons {p : Piece} {ps : List Piece} (h : p.Maximal (ps.flatMap text)) (hps : Tiles ps) :
    Tiles (p :: ps)

theorem tiles_cut (cs : List Char) : Tiles (cut cs) := by
  induction cs using cut.induct with
  | case1 =>
    rw [cut]
    exact .nil
  | case2 c rest form count h ih =>
    have hmaximal := maximal_extent c rest
    rw [h] at hmaximal
    rw [cut, h]
    refine .cons ?_ ih
    rwa [flatMap_text_cut]

theorem Tiles.maximal {before after : List Piece} {p : Piece} (h : Tiles (before ++ p :: after)) :
    p.Maximal (after.flatMap text) := by
  induction before with
  | nil =>
    cases h with
    | cons hp _ => exact hp
  | cons q before ih =>
    cases h with
    | cons _ hps => exact ih hps

theorem exists_maximal {cs : List Char} {p : Piece} (h : p ∈ cut cs) : ∃ rest, p.Maximal rest := by
  obtain ⟨before, after, hcut⟩ := List.append_of_mem h
  have htiles := tiles_cut cs
  rw [hcut] at htiles
  exact ⟨_, htiles.maximal⟩

theorem text_of_newline {p : Piece} {rest : List Char} (h : p.Maximal rest)
    (hform : p.form = .newline) : p.text = ['\n'] := by
  obtain ⟨form, c, others⟩ := p
  obtain rfl : form = .newline := hform
  obtain ⟨rfl, rfl⟩ : c = '\n' ∧ others = [] := h
  rfl

/-- A comment runs to just before the next newline or the end. -/
theorem text_of_comment {p : Piece} {rest : List Char} (h : p.Maximal rest)
    (hform : p.form = .comment) : ∃ others, p.text = '#' :: others ∧ '\n' ∉ others ∧
      ∀ c, rest.head? = some c → c = '\n' := by
  obtain ⟨form, c, others⟩ := p
  obtain rfl : form = .comment := hform
  obtain ⟨rfl, hothers, hrest⟩ : c = '#' ∧ Lexeme.Run _ others rest := h
  exact ⟨others, rfl, fun hmem => absurd (hothers _ hmem) (by decide),
    fun c hc => by simpa using hrest c hc⟩

/-- Newlines and the marks of comments are in no other piece. -/
theorem not_mem_text {p : Piece} {rest : List Char} (h : p.Maximal rest)
    (hnewline : p.form ≠ .newline) (hcomment : p.form ≠ .comment) {s : Char}
    (hs : s = '\n' ∨ s = '#') : s ∉ p.text := by
  have hword : Lexeme.isWordChar s = false := by rcases hs with rfl | rfl <;> decide
  have hblank : Lexeme.isBlank s = false := by rcases hs with rfl | rfl <;> decide
  obtain ⟨form, c, others⟩ := p
  cases form with
  | numeral =>
    have hstops : Lexeme.Stops s := by rcases hs with rfl | rfl <;> decide
    exact Lexeme.not_mem_of_numeralLength hstops h
  | word =>
    obtain ⟨halpha, hothers, -⟩ : c.isAlpha = true ∧ Lexeme.Run _ others rest := h
    refine List.not_mem_cons_of_ne_of_not_mem ?_
      fun hmem => Bool.false_ne_true (hword ▸ hothers s hmem)
    rintro rfl
    simp [Lexeme.isWordChar, Char.isAlphanum, halpha] at hword
  | symbol symbol =>
    obtain ⟨rfl, rfl⟩ : c = symbol.char ∧ others = [] := h
    rcases hs with rfl | rfl <;> cases symbol <;> decide
  | newline => contradiction
  | comment => contradiction
  | blank =>
    obtain ⟨hfirst, hothers, -⟩ : Lexeme.isBlank c = true ∧ Lexeme.Run _ others rest := h
    refine List.not_mem_cons_of_ne_of_not_mem ?_
      fun hmem => Bool.false_ne_true (hblank ▸ hothers s hmem)
    rintro rfl
    exact Bool.false_ne_true (hblank ▸ hfirst)
  | unknown =>
    obtain ⟨hunused, rfl⟩ : Unused c rest ∧ others = [] := h
    rcases hs with rfl | rfl
    · exact List.not_mem_cons_of_ne_of_not_mem hunused.2.2.2.1.symm List.not_mem_nil
    · exact List.not_mem_cons_of_ne_of_not_mem hunused.2.2.1.symm List.not_mem_nil

theorem newline_not_mem_text {p : Piece} {rest : List Char} (h : p.Maximal rest)
    (hform : p.form ≠ .newline) : '\n' ∉ p.text := by
  by_cases hcomment : p.form = .comment
  · obtain ⟨others, htext, hothers, -⟩ := text_of_comment h hcomment
    rw [htext]
    exact List.not_mem_cons_of_ne_of_not_mem (by decide) hothers
  · exact not_mem_text h hform hcomment (.inl rfl)

end Piece
end MatrixCalculator
