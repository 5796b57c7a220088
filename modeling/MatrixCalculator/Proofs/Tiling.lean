import Mathlib
import MatrixCalculator.Proofs.Lexing

namespace MatrixCalculator

def Text.lineStart : List Char → Nat → Nat
  | _, 0 => 0
  | [], _ + 1 => 0
  | c :: cs, n + 1 => 1 + lineStart cs (if c = '\n' then n else n + 1)

/-- The offset of a place in a text: that of its line, and one more for each column. -/
def Place.offset (p : Place) (cs : List Char) : Nat :=
  Text.lineStart cs (p.line - 1) + (p.column - 1)

theorem Text.lineStart_zero (cs : List Char) : lineStart cs 0 = 0 := by
  cases cs <;> rfl

theorem Text.lineStart_append (a b : List Char) :
    lineStart (a ++ '\n' :: b) (a.count '\n' + 1) = a.length + 1 := by
  induction a with
  | nil => rw [List.nil_append, List.count_nil, lineStart, if_pos rfl, lineStart_zero]; rfl
  | cons c a ih =>
    rw [List.cons_append, List.length_cons]
    by_cases hc : c = '\n'
    · subst hc
      rw [List.count_cons_self, lineStart, if_pos rfl, ih]
      omega
    · rw [List.count_cons_of_ne hc, lineStart, if_neg hc, ih]
      omega

/-- The place behind a text counts back to its length, whatever follows. -/
theorem Place.offset_behind (a b : List Char) : (behind a).offset (a ++ b) = a.length := by
  induction a using List.reverseRecOn generalizing b with
  | nil => exact Text.lineStart_zero b
  | append_singleton a c ih =>
    by_cases hc : c = '\n'
    · subst hc
      have hline : (behind a).line = a.count '\n' + 1 := Nat.add_comm _ _
      rw [behind_newline, offset, List.append_assoc, Nat.add_sub_cancel, hline,
        List.singleton_append, Text.lineStart_append, List.length_append]
      rfl
    · have hcolumn : 1 ≤ (behind a).column := Nat.le_add_right _ _
      have hstep := ih (c :: b)
      rw [behind_append a (List.mem_singleton.not.mpr (Ne.symm hc)), offset, List.append_assoc,
        List.length_append, ← hstep, offset, List.singleton_append]
      dsimp only [List.length_singleton]
      omega

/-- A token and the characters that it was read from. -/
structure Lexeme where
  token : Token
  chars : List Char

namespace Lexeme

/-- The offset of the lexeme in the text, as its token reports it. -/
def start (x : Lexeme) (cs : List Char) : Nat := x.token.place.offset cs

def stop (x : Lexeme) (cs : List Char) : Nat := x.start cs + x.chars.length

def Covers (x : Lexeme) (cs : List Char) (i : Nat) : Prop := x.start cs ≤ i ∧ i < x.stop cs

end Lexeme

/-- The characters are those of such a token. -/
def Kind.SpelledBy : Kind → List Char → Prop
  | .number value, cs => ∃ n, Numeral.ofChars? cs = some n ∧ n.value = value
  | .invalid text, cs => text.toList = cs
  | .name text, cs => text.toList = cs
  | .symbol s, cs => cs = [s.char]
  | .newline, cs => cs = ['\n']
  | .unknown c, cs => cs = [c]
  | .endOfInput, cs => cs = []

namespace Piece

def lexemes (line column : Nat) : List Piece → List Lexeme
  | [] => []
  | p :: ps =>
    let (line', column') := p.next line column
    match p.kind? with
    | some kind => ⟨⟨kind, line, column⟩, p.text⟩ :: lexemes line' column' ps
    | none => lexemes line' column' ps

theorem exists_place_eq (line column : Nat) (ps : List Piece) :
    ∃ e, place line column ps = (lexemes line column ps).map Lexeme.token ++ [e] := by
  induction ps generalizing line column with
  | nil => exact ⟨_, rfl⟩
  | cons p ps ih =>
    obtain ⟨e, he⟩ := ih (p.next line column).1 (p.next line column).2
    refine ⟨e, ?_⟩
    cases hkind : p.kind? with
    | none =>
      rw [place, lexemes, hkind]
      exact he
    | some kind =>
      rw [place, lexemes, hkind]
      exact congrArg _ he

theorem spelledBy_of_kind? {p : Piece} {rest : List Char} (h : p.Maximal rest) {kind : Kind}
    (hkind : p.kind? = some kind) : kind.SpelledBy p.text := by
  obtain ⟨form, c, others⟩ := p
  cases form with
  | numeral =>
    obtain rfl := Option.some.inj hkind
    rcases numeralKind_cases (c :: others) with ⟨n, hn, -, hnumeral⟩ | ⟨-, hnumeral⟩
    · rw [text, hnumeral]
      exact ⟨n, hn, rfl⟩
    · rw [text, hnumeral]
      exact String.toList_ofList
  | word =>
    obtain rfl := Option.some.inj hkind
    exact String.toList_ofList
  | symbol s =>
    obtain rfl := Option.some.inj hkind
    obtain ⟨rfl, rfl⟩ : c = s.char ∧ others = [] := h
    rfl
  | newline =>
    obtain rfl := Option.some.inj hkind
    exact text_of_newline h rfl
  | unknown =>
    obtain rfl := Option.some.inj hkind
    obtain ⟨-, rfl⟩ : Unused c rest ∧ others = [] := h
    rfl
  | blank => contradiction
  | comment => contradiction

theorem isBlank_of_mem {p : Piece} {rest : List Char} (h : p.Maximal rest) (hform : p.form = .blank)
    {c : Char} (hc : c ∈ p.text) : Lexeme.isBlank c = true := by
  obtain ⟨form, first, others⟩ := p
  obtain rfl : form = .blank := hform
  obtain ⟨hfirst, hothers, -⟩ : _ ∧ Lexeme.Run Lexeme.isBlank others rest := h
  rcases List.mem_cons.mp hc with rfl | hc
  · exact hfirst
  · exact hothers c hc

theorem mark_not_mem {p : Piece} {rest : List Char} (h : p.Maximal rest)
    (hkind : p.kind?.isSome = true) : '#' ∉ p.text := by
  have hcomment : p.form ≠ .comment := by
    intro hform
    rw [kind?, hform] at hkind
    contradiction
  by_cases hnewline : p.form = .newline
  · rw [text_of_newline h hnewline]
    decide
  · exact not_mem_text h hnewline hcomment (.inr rfl)

def StandsAt (ps : List Piece) (before : List Char) (p : Piece) : Prop :=
  ∃ left right, ps = left ++ p :: right ∧ before = left.flatMap text

theorem standsAt_cons {p q : Piece} {ps : List Piece} {before : List Char} :
    StandsAt (p :: ps) before q ↔
      (before = [] ∧ q = p) ∨ ∃ later, before = p.text ++ later ∧ StandsAt ps later q := by
  constructor
  · rintro ⟨left, right, hps, rfl⟩
    cases left with
    | nil => exact .inl ⟨rfl, (List.cons.inj hps).1.symm⟩
    | cons p' left =>
      obtain ⟨rfl, rfl⟩ := List.cons.inj hps
      exact .inr ⟨_, rfl, left, right, rfl, rfl⟩
  · rintro (⟨rfl, rfl⟩ | ⟨later, rfl, left, right, rfl, rfl⟩)
    · exact ⟨[], ps, rfl, rfl⟩
    · exact ⟨p :: left, right, rfl, rfl⟩

theorem Tiles.mem_lexemes {ps : List Piece} (h : Tiles ps) (cs : List Char) {x : Lexeme} :
    x ∈ lexemes (Place.behind cs).line (Place.behind cs).column ps ↔
      ∃ before p, StandsAt ps before p ∧ p.kind? = some x.token.kind ∧ x.chars = p.text ∧
        x.token.place = Place.behind (cs ++ before) := by
  induction h generalizing cs with
  | nil => simp [lexemes, StandsAt]
  | @cons p ps hp hps ih =>
    have hlater : x ∈ lexemes (p.next (Place.behind cs).line (Place.behind cs).column).1
          (p.next (Place.behind cs).line (Place.behind cs).column).2 ps ↔
        ∃ before q, (∃ later, before = p.text ++ later ∧ StandsAt ps later q) ∧
          q.kind? = some x.token.kind ∧ x.chars = q.text ∧
          x.token.place = Place.behind (cs ++ before) := by
      rw [hp.next_behind, ih (cs ++ p.text)]
      simp only [List.append_assoc]
      constructor
      · rintro ⟨later, q, hstands, hrest⟩
        exact ⟨_, q, ⟨later, rfl, hstands⟩, hrest⟩
      · rintro ⟨_, q, ⟨later, rfl, hstands⟩, hrest⟩
        exact ⟨later, q, hstands, hrest⟩
    simp only [standsAt_cons, or_and_right, exists_or]
    rw [← hlater]
    cases hkind : p.kind? with
    | none =>
      rw [lexemes, hkind]
      simp [hkind]
    | some kind =>
      rw [lexemes, hkind]
      simp only [List.mem_cons]
      refine or_congr_left ⟨?_, ?_⟩
      · rintro rfl
        exact ⟨[], p, ⟨rfl, rfl⟩, hkind, rfl, by rw [List.append_nil]; rfl⟩
      · obtain ⟨⟨kind', line, column⟩, chars⟩ := x
        rintro ⟨_, _, ⟨rfl, rfl⟩, hkind', rfl, hplace⟩
        rw [List.append_nil] at hplace
        obtain rfl := Option.some.inj (hkind.symm.trans hkind')
        rw [← hplace]
        rfl

theorem Tiles.exists_after {ps : List Piece} (h : Tiles ps) {before : List Char} {p : Piece}
    (hp : StandsAt ps before p) :
    ∃ after, ps.flatMap text = before ++ (p.text ++ after) ∧ p.Maximal after := by
  obtain ⟨left, right, rfl, rfl⟩ := hp
  exact ⟨right.flatMap text, by rw [List.flatMap_append, List.flatMap_cons], h.maximal⟩

theorem Tiles.start_eq {ps : List Piece} (h : Tiles ps) {cs before : List Char} {p : Piece}
    {x : Lexeme} (hp : StandsAt ps before p)
    (hplace : x.token.place = Place.behind (cs ++ before)) :
    x.start (cs ++ ps.flatMap text) = (cs ++ before).length := by
  obtain ⟨after, htext, -⟩ := h.exists_after hp
  rw [Lexeme.start, hplace, htext, ← List.append_assoc, Place.offset_behind]

theorem Tiles.pairwise_lexemes {ps : List Piece} (h : Tiles ps) (cs : List Char) :
    (lexemes (Place.behind cs).line (Place.behind cs).column ps).Pairwise fun x y =>
      x.stop (cs ++ ps.flatMap text) ≤ y.start (cs ++ ps.flatMap text) := by
  induction h generalizing cs with
  | nil => exact .nil
  | @cons p ps hp hps ih =>
    have hlater := ih (cs ++ p.text)
    rw [List.append_assoc] at hlater
    rw [lexemes, hp.next_behind, List.flatMap_cons]
    dsimp only
    split
    · refine List.pairwise_cons.mpr ⟨fun y hy => ?_, hlater⟩
      obtain ⟨before, q, hq, -, -, hplace⟩ := (hps.mem_lexemes _).mp hy
      have hstart := hps.start_eq hq hplace
      rw [List.append_assoc] at hstart
      rw [hstart, Lexeme.stop, Lexeme.start]
      show (Place.behind cs).offset _ + p.text.length ≤ _
      rw [Place.offset_behind, List.length_append, List.length_append]
      omega
    · exact hlater

theorem exists_standsAt {ps : List Piece} {i : Nat} (h : i < (ps.flatMap text).length) :
    ∃ before p, StandsAt ps before p ∧ before.length ≤ i ∧
      i < before.length + p.text.length := by
  induction ps generalizing i with
  | nil => exact absurd h (Nat.not_lt_zero i)
  | cons p ps ih =>
    by_cases hi : i < p.text.length
    · exact ⟨[], p, standsAt_cons.mpr (.inl ⟨rfl, rfl⟩), Nat.zero_le i, by simpa using hi⟩
    · rw [List.flatMap_cons, List.length_append] at h
      obtain ⟨later, q, hq, hle, hlt⟩ := ih (i := i - p.text.length) (by omega)
      refine ⟨p.text ++ later, q, standsAt_cons.mpr (.inr ⟨later, rfl, hq⟩), ?_, ?_⟩
      · rw [List.length_append]
        omega
      · rw [List.length_append]
        omega

theorem StandsAt.unique {ps : List Piece} {before before' : List Char} {p p' : Piece} {i : Nat}
    (h : StandsAt ps before p) (h' : StandsAt ps before' p')
    (hi : before.length ≤ i ∧ i < before.length + p.text.length)
    (hi' : before'.length ≤ i ∧ i < before'.length + p'.text.length) : p = p' := by
  induction ps generalizing before before' i with
  | nil => simp [StandsAt] at h
  | cons q ps ih =>
    rcases standsAt_cons.mp h with ⟨rfl, rfl⟩ | ⟨later, rfl, hlater⟩
    · rcases standsAt_cons.mp h' with ⟨rfl, rfl⟩ | ⟨later', rfl, hlater'⟩
      · rfl
      · simp only [List.length_append, List.length_nil] at hi hi'
        omega
    · rcases standsAt_cons.mp h' with ⟨rfl, rfl⟩ | ⟨later', rfl, hlater'⟩
      · simp only [List.length_append, List.length_nil] at hi hi'
        omega
      · simp only [List.length_append] at hi hi'
        exact ih (i := i - q.text.length) hlater hlater' (by omega) (by omega)

end Piece

def lexemes (text : String) : List Lexeme := Piece.lexemes 1 1 (Piece.cut text.toList)

/-- The lexeme is a piece of the text, with characters before and behind it. -/
structure Lexeme.ReadFrom (x : Lexeme) (cs before : List Char) (p : Piece) (after : List Char) :
    Prop where
  stands : Piece.StandsAt (Piece.cut cs) before p
  text : cs = before ++ (p.text ++ after)
  maximal : p.Maximal after
  kind : p.kind? = some x.token.kind
  chars : x.chars = p.text
  place : x.token.place = Place.behind before

theorem mem_lexemes {text : String} {x : Lexeme} :
    x ∈ lexemes text ↔ ∃ before p after, x.ReadFrom text.toList before p after := by
  have htiles := Piece.tiles_cut text.toList
  have hmem := htiles.mem_lexemes [] (x := x)
  refine hmem.trans ⟨?_, ?_⟩
  · rintro ⟨before, p, hp, hkind, hchars, hplace⟩
    obtain ⟨after, htext, hmaximal⟩ := htiles.exists_after hp
    rw [Piece.flatMap_text_cut] at htext
    exact ⟨before, p, after, hp, htext, hmaximal, hkind, hchars, hplace⟩
  · rintro ⟨before, p, after, h⟩
    exact ⟨before, p, h.stands, h.kind, h.chars, h.place⟩

theorem exists_lexeme {text : String} {before : List Char} {p : Piece}
    (h : Piece.StandsAt (Piece.cut text.toList) before p) (hkind : p.kind? ≠ none) :
    ∃ x ∈ lexemes text, ∃ after, x.ReadFrom text.toList before p after := by
  obtain ⟨kind, hkind⟩ := Option.ne_none_iff_exists'.mp hkind
  obtain ⟨after, htext, hmaximal⟩ := (Piece.tiles_cut text.toList).exists_after h
  rw [Piece.flatMap_text_cut] at htext
  have hread : Lexeme.ReadFrom ⟨(Place.behind before).token kind, p.text⟩ text.toList before p
      after :=
    ⟨h, htext, hmaximal, hkind, rfl, rfl⟩
  exact ⟨_, mem_lexemes.mpr ⟨before, p, after, hread⟩, after, hread⟩

namespace Lexeme.ReadFrom

variable {x : Lexeme} {cs before after : List Char} {p : Piece}

theorem start_eq (h : x.ReadFrom cs before p after) : x.start cs = before.length := by
  rw [start, h.place, h.text, Place.offset_behind]

theorem covers_iff (h : x.ReadFrom cs before p after) {i : Nat} :
    x.Covers cs i ↔ before.length ≤ i ∧ i < before.length + p.text.length := by
  rw [Covers, stop, h.start_eq, h.chars]

end Lexeme.ReadFrom

/-- The offset is in a comment: from a mark to just before the next newline or the end of the text
there is no newline and nothing of a lexeme. -/
def InComment (cs : List Char) (xs : List Lexeme) (i : Nat) : Prop :=
  ∃ first last, first ≤ i ∧ i < last ∧ cs[first]? = some '#' ∧
    (∀ j, first ≤ j → j < last → cs[j]? ≠ some '\n' ∧ ∀ x ∈ xs, ¬x.Covers cs j) ∧
    (cs[last]? = some '\n' ∨ last = cs.length)

/-- The lexemes tile the text, up to blanks and comments. -/
structure Tiling (cs : List Char) (xs : List Lexeme) : Prop where
  /-- The characters of a lexeme are those of its token. -/
  spelled : ∀ x ∈ xs, x.chars ≠ [] ∧ x.token.kind.SpelledBy x.chars
  /-- They are found where the token stands. -/
  found : ∀ x ∈ xs, x.chars <+: cs.drop (x.start cs)
  /-- Lines and columns are counted up to there. -/
  located : ∀ x ∈ xs, x.token.place = Place.behind (cs.take (x.start cs))
  ordered : xs.Pairwise fun x y => x.start cs < y.start cs ∧ x.stop cs ≤ y.start cs
  unmarked : ∀ x ∈ xs, '#' ∉ x.chars
  /-- What is in no lexeme is a blank or in a comment. -/
  gaps : ∀ i c, cs[i]? = some c → (∀ x ∈ xs, ¬x.Covers cs i) →
    Lexeme.isBlank c = true ∨ InComment cs xs i

section Gaps

variable {text : String} {before after : List Char} {p : Piece} {i : Nat}

/-- A piece that is no token is a blank or a comment. -/
theorem Piece.form_of_kind? (h : p.kind? = none) : p.form = .blank ∨ p.form = .comment := by
  obtain ⟨form, c, others⟩ := p
  cases form with
  | blank => exact .inl rfl
  | comment => exact .inr rfl
  | _ => contradiction

theorem getElem?_piece (h : text.toList = before ++ (p.text ++ after))
    (hi : before.length ≤ i ∧ i < before.length + p.text.length) :
    text.toList[i]? = p.text[i - before.length]? := by
  rw [h, List.getElem?_append_right hi.1, List.getElem?_append_left (by omega)]

/-- Nothing of a lexeme is in a piece that is no token. -/
theorem not_covers (h : Piece.StandsAt (Piece.cut text.toList) before p) (hkind : p.kind? = none)
    (hi : before.length ≤ i ∧ i < before.length + p.text.length) :
    ∀ x ∈ lexemes text, ¬x.Covers text.toList i := by
  intro x hx hcovers
  obtain ⟨before', q, after', hread⟩ := mem_lexemes.mp hx
  obtain rfl := h.unique hread.stands hi (hread.covers_iff.mp hcovers)
  rw [hread.kind] at hkind
  contradiction

theorem inComment (h : Piece.StandsAt (Piece.cut text.toList) before p)
    (htext : text.toList = before ++ (p.text ++ after)) (hmaximal : p.Maximal after)
    (hform : p.form = .comment) (hi : before.length ≤ i ∧ i < before.length + p.text.length) :
    InComment text.toList (lexemes text) i := by
  have hkind : p.kind? = none := by rw [Piece.kind?, hform]
  obtain ⟨others, hmark, hothers, hafter⟩ := Piece.text_of_comment hmaximal hform
  have hnewline : '\n' ∉ p.text := by
    rw [hmark]
    exact List.not_mem_cons_of_ne_of_not_mem (by decide) hothers
  refine ⟨before.length, before.length + p.text.length, hi.1, hi.2, ?_,
    fun j hj hj' => ⟨?_, ?_⟩, ?_⟩
  · rw [htext, List.getElem?_append_right le_rfl, Nat.sub_self, hmark]
    rfl
  · rw [getElem?_piece htext ⟨hj, hj'⟩]
    exact fun hsome => hnewline (List.mem_of_getElem? hsome)
  · exact not_covers h hkind ⟨hj, hj'⟩
  · rw [htext, ← List.append_assoc, List.getElem?_append_right (by simp), ← List.length_append,
      Nat.sub_self, ← List.head?_eq_getElem?]
    cases after with
    | nil => exact .inr (by simp)
    | cons c after => exact .inl (congrArg some (hafter c rfl))

end Gaps

theorem gap_cases {text : String} {i : Nat} {c : Char} (hc : text.toList[i]? = some c)
    (hi : ∀ x ∈ lexemes text, ¬x.Covers text.toList i) :
    Lexeme.isBlank c = true ∨ InComment text.toList (lexemes text) i := by
  have hlt : i < ((Piece.cut text.toList).flatMap Piece.text).length := by
    rw [Piece.flatMap_text_cut]
    exact (List.getElem?_eq_some_iff.mp hc).1
  obtain ⟨before, p, hp, hrange⟩ := Piece.exists_standsAt hlt
  have hkind : p.kind? = none := by
    -- Otherwise the lexeme of the piece covers the offset.
    by_contra hkind
    obtain ⟨x, hx, after, hread⟩ := exists_lexeme hp hkind
    exact hi x hx (hread.covers_iff.mpr hrange)
  obtain ⟨after, htext, hmaximal⟩ := (Piece.tiles_cut text.toList).exists_after hp
  rw [Piece.flatMap_text_cut] at htext
  rcases Piece.form_of_kind? hkind with hform | hform
  · left
    rw [getElem?_piece htext hrange] at hc
    exact Piece.isBlank_of_mem hmaximal hform (List.mem_of_getElem? hc)
  · exact .inr (inComment hp htext hmaximal hform hrange)

theorem tiling_lexemes (text : String) : Tiling text.toList (lexemes text) where
  spelled x hx := by
    obtain ⟨before, p, after, hread⟩ := mem_lexemes.mp hx
    rw [hread.chars]
    exact ⟨List.cons_ne_nil _ _, Piece.spelledBy_of_kind? hread.maximal hread.kind⟩
  found x hx := by
    obtain ⟨before, p, after, hread⟩ := mem_lexemes.mp hx
    rw [hread.start_eq, hread.text, List.drop_left, hread.chars]
    exact List.prefix_append _ _
  located x hx := by
    obtain ⟨before, p, after, hread⟩ := mem_lexemes.mp hx
    rw [hread.start_eq, hread.text, List.take_left, hread.place]
  ordered := by
    have hpairwise := (Piece.tiles_cut text.toList).pairwise_lexemes []
    rw [Piece.flatMap_text_cut] at hpairwise
    refine hpairwise.imp_of_mem fun {x y} hx _ hle => ⟨?_, hle⟩
    obtain ⟨before, p, after, hread⟩ := mem_lexemes.mp hx
    have hlength : 0 < x.chars.length := by rw [hread.chars]; exact Nat.succ_pos _
    exact Nat.lt_of_lt_of_le (Nat.lt_add_of_pos_right hlength) hle
  unmarked x hx := by
    obtain ⟨before, p, after, hread⟩ := mem_lexemes.mp hx
    rw [hread.chars]
    exact Piece.mark_not_mem hread.maximal (by rw [hread.kind]; rfl)
  gaps i c hc hi := gap_cases hc hi

/-- Tokens tile the text at the places that they report. The end of input comes last and nowhere
else, at the end of the text; the other tokens are those of the lexemes, which stand one behind the
other with nothing but blanks and comments between them. -/
theorem tokenize_tiles (text : String) : ∃ e : Token,
    tokenize text = (lexemes text).map Lexeme.token ++ [e] ∧ e.kind = .endOfInput ∧
    (∀ x ∈ lexemes text, x.token.kind ≠ .endOfInput) ∧
    e.place = Place.behind text.toList ∧ e.place.offset text.toList = text.toList.length ∧
    Tiling text.toList (lexemes text) := by
  obtain ⟨e, he⟩ : ∃ e, tokenize text = (lexemes text).map Lexeme.token ++ [e] :=
    Piece.exists_place_eq 1 1 _
  obtain rfl : (Place.behind text.toList).token .endOfInput = e := by
    have hlast := getLast?_tokenize text
    rw [he, List.getLast?_concat] at hlast
    exact (Option.some.inj hlast).symm
  refine ⟨_, he, rfl, fun x hx hend => ?_, rfl, ?_, tiling_lexemes text⟩
  · obtain ⟨before, p, after, hread⟩ := mem_lexemes.mp hx
    exact Piece.kind?_ne_end p (hend ▸ hread.kind)
  · have hoffset := Place.offset_behind text.toList []
    rwa [List.append_nil] at hoffset

end MatrixCalculator
