import Mathlib.Data.List.Chain
import MatrixCalculator.Proofs.Values
import MatrixCalculator.Proofs.Verdicts

namespace MatrixCalculator

open Assembly

/-- No opening parenthesis stands right before a closing one. -/
def Filled : List Token → Prop :=
  List.IsChain fun t u => t.kind = .symbol .leftParen → u.kind ≠ .symbol .rightParen

/-- The tokens can stand in parentheses and leave none empty. -/
def Fills (xs : List Token) : Prop :=
  ∀ l r : Place, Filled (l.mark .leftParen :: xs ++ [r.mark .rightParen])

structure Token.Plain (t : Token) : Prop where
  left : t.kind ≠ .symbol .leftParen
  right : t.kind ≠ .symbol .rightParen

theorem Place.mark_plain (p : Place) {s : Symbol} (hl : s ≠ .leftParen) (hr : s ≠ .rightParen) :
    (p.mark s).Plain :=
  ⟨fun h => hl (Kind.symbol.inj h), fun h => hr (Kind.symbol.inj h)⟩

theorem Separator.plain (s : Separator) : s.token.Plain := by
  cases s <;> exact ⟨nofun, nofun⟩

section Filled

variable {xs ys : List Token} {t u : Token}

theorem Filled.replace_last (h : Filled (xs ++ [t])) (hu : u.Plain) : Filled (xs ++ [u]) := by
  obtain ⟨hxs, _, _⟩ := List.isChain_append.mp h
  refine List.isChain_append.mpr ⟨hxs, .singleton u, fun x _ y hy _ => ?_⟩
  obtain rfl : u = y := by simpa using hy
  exact hu.right

theorem Filled.replace_first (h : Filled (t :: xs)) (hu : u.Plain) : Filled (u :: xs) :=
  List.isChain_cons.mpr ⟨fun _ _ hleft => absurd hleft hu.left, (List.isChain_cons.mp h).2⟩

theorem Fills.filled (h : Fills xs) : Filled xs := by
  have hall := (List.isChain_cons.mp (h ⟨0, 0⟩ ⟨0, 0⟩)).2
  exact (List.isChain_append.mp hall).1

theorem Fills.append_cons (hxs : Fills xs) (ht : t.Plain) (hys : Fills ys) :
    Fills (xs ++ t :: ys) := by
  intro l r
  rw [List.cons_append, List.append_assoc, List.cons_append, ← List.cons_append]
  exact List.isChain_split.mpr ⟨(hxs l r).replace_last ht, (hys l r).replace_first ht⟩

theorem Fills.cons (ht : t.Plain) (hys : Fills ys) : Fills (t :: ys) := by
  intro l r
  exact List.isChain_cons_cons.mpr ⟨fun _ => ht.right, (hys l r).replace_first ht⟩

theorem Fills.concat (hxs : Fills xs) (ht : t.Plain) : Fills (xs ++ [t]) := by
  intro l r
  rw [List.cons_append, List.append_assoc, ← List.cons_append]
  exact List.isChain_split.mpr ⟨(hxs l r).replace_last ht,
    List.isChain_pair.mpr fun hleft => absurd hleft ht.left⟩

theorem Fills.singleton (ht : t.Plain) : Fills [t] := by
  intro l r
  exact List.isChain_cons_cons.mpr ⟨fun _ => ht.right,
    List.isChain_pair.mpr fun hleft => absurd hleft ht.left⟩

theorem Fills.parens (hxs : Fills xs) (l r : Place) :
    Fills (l.mark .leftParen :: xs ++ [r.mark .rightParen]) := by
  intro l' r'
  have hinner : Filled ((l.mark .leftParen :: xs) ++ r.mark .rightParen :: [r'.mark .rightParen]) :=
    List.isChain_split.mpr ⟨hxs l r, List.isChain_pair.mpr nofun⟩
  rw [List.cons_append, List.append_assoc]
  exact List.isChain_cons_cons.mpr ⟨nofun, hinner⟩

theorem Fills.gap_append (gap : Gap) (hys : Fills ys) : Fills (gap.yield ++ ys) := by
  induction gap with
  | nil => exact hys
  | cons s gap ih => exact .cons s.plain ih

theorem Fills.append_gap (hxs : Fills xs) (gap : Gap) : Fills (xs ++ gap.yield) := by
  induction gap generalizing xs with
  | nil => rwa [Gap.yield, List.map_nil, List.append_nil]
  | cons s gap ih =>
    rw [Gap.yield, List.map_cons, List.append_cons]
    exact ih (hxs.concat s.plain)

end Filled

namespace Phrase

theorem fills_call {items : Phrase .items} (h : Fills items.yield) (name : String)
    (p l r : Place) : Fills (call name p l items r).yield :=
  .cons (t := p.token (.name name)) ⟨nofun, nofun⟩ (h.parens l r)

/-- A phrase leaves no parentheses empty if all of it can be evaluated, or executed. -/
theorem fills {c : Category} (p : Phrase c) (hc : c ≠ .program)
    (h : c.All Node.Evaluates Node.Executes p.tree) : Fills p.yield := by
  induction p with
  | ofTerm x ih => exact ih nofun h
  | sum left op p right ihl ihr =>
    exact (ihl nofun h.binary.1).append_cons
      (p.mark_plain (by cases op <;> decide) (by cases op <;> decide)) (ihr nofun h.binary.2)
  | ofUnary u ih => exact ih nofun h
  | product left op p right ihl ihr =>
    exact (ihl nofun h.binary.1).append_cons
      (p.mark_plain (by cases op <;> decide) (by cases op <;> decide)) (ihr nofun h.binary.2)
  | negated p operand ih => exact .cons (p.mark_plain (by decide) (by decide)) (ih nofun h.neg)
  | ofPower x ih => exact ih nofun h
  | ofIndexed x ih => exact ih nofun h
  | raised base p exponent ihb ihe =>
    exact (ihb nofun h.binary.1).append_cons (p.mark_plain (by decide) (by decide))
      (ihe nofun h.binary.2)
  | ofPrimary x ih => exact ih nofun h
  | part target l i r iht ihi =>
    have hi : i.tree.Evaluates := h.index.2 _ (by simp)
    exact ((iht nofun h.index.1).append_cons (l.mark_plain (by decide) (by decide))
      (ihi nofun hi)).concat (r.mark_plain (by decide) (by decide))
  | entry target l i comma j r iht ihi ihj =>
    have hi : i.tree.Evaluates := h.index.2 _ (by simp)
    have hj : j.tree.Evaluates := h.index.2 _ (by simp)
    exact (((iht nofun h.index.1).append_cons (l.mark_plain (by decide) (by decide))
      (ihi nofun hi)).append_cons (comma.mark_plain (by decide) (by decide))
      (ihj nofun hj)).concat (r.mark_plain (by decide) (by decide))
  | number value p => exact .singleton ⟨nofun, nofun⟩
  | ident name p => exact .singleton ⟨nofun, nofun⟩
  -- The one phrase with empty parentheses: no function takes no argument.
  | bareCall name p l r => exact absurd rfl h.call.1
  | call name p l args r ih => exact fills_call (ih nofun h.call.2) name p l r
  | group l inner r ih => exact (ih nofun h).parens l r
  | matrix l rows gap r ih =>
    exact ((Fills.cons (l.mark_plain (by decide) (by decide)) (ih nofun h.matrix)).append_gap
      gap).concat (r.mark_plain (by decide) (by decide))
  | item e ih => exact ih nofun (h _ (by simp))
  | more items comma e ihi ihe =>
    exact (ihi nofun fun node hnode => h node (List.mem_append_left _ hnode)).append_cons
      (comma.mark_plain (by decide) (by decide)) (ihe nofun (h _ (by simp)))
  | firstRow gap row ih => exact .gap_append gap (ih nofun (h _ (by simp)))
  | nextRow rows sep gap row ihr ih =>
    have hrows := ihr nofun fun nodes hnodes => h nodes (List.mem_append_left _ hnodes)
    have hrow := Fills.gap_append gap (ih nofun (h _ (by simp)))
    rw [yield, List.append_assoc]
    exact hrows.append_cons sep.plain hrow
  | assign name p equals value ih =>
    exact .cons (t := p.token (.name name)) ⟨nofun, nofun⟩
      (.cons (equals.mark_plain (by decide) (by decide)) (ih nofun h.assign))
  | bare e ih => exact ih nofun (Node.Executes.evaluates h e.proper)
  | firstStatement gap s ih => exact .gap_append gap (ih nofun (h _ (by simp)))
  | nextStatement before sep gap s ihb ih =>
    have hbefore := ihb nofun fun node hnode => h node (List.mem_append_left _ hnode)
    have hs := Fills.gap_append gap (ih nofun (h _ (by simp)))
    rw [yield, List.append_assoc]
    exact hbefore.append_cons sep.plain hs
  | blank gap => exact absurd rfl hc
  | full statements gap ih => exact absurd rfl hc

theorem filled {p : Phrase .program} (h : ∀ node ∈ p.tree, node.Executes) : Filled p.yield := by
  cases p with
  | blank gap =>
    cases gap with
    | nil => exact .nil
    | cons s gap => exact ((Fills.singleton s.plain).append_gap gap).filled
  | full statements gap => exact ((statements.fills nofun h).append_gap gap).filled

end Phrase

namespace Assembly

variable {limit : Nat} {ctx : Context} {p : Place} {q : Phrase .program}

theorem start_full (h : limit ≤ ctx.used) (t : Token) :
    start limit ctx t = reject t.place .tooDeep := by
  rw [start, if_pos h]

theorem operand_full (h : limit ≤ ctx.used) (ts : List Token) :
    run limit (.inside ctx .operand) ts ≠ .accepted q := by
  induction ts with
  | nil => nofun
  | cons t ts ih =>
    rw [run_cons, step]
    split
    · exact ih
    · simp [start_full h, reject]

theorem row_full (h : limit ≤ ctx.used + 1) (l : Place) (gap : Gap) (ts : List Token) :
    run limit (.inside ctx (.row l (.initial gap))) ts ≠ .accepted q := by
  induction ts generalizing gap with
  | nil => nofun
  | cons t ts ih =>
    rw [run_cons, step, startRow.eq_def]
    split
    · exact ih _
    · exact ih _
    · simp [reject]
    · contradiction
    · contradiction
    · rw [start_full (by rwa [Context.used_push]), reject, run_stopped]
      simp

/-- On the deepest level an argument list can only close. -/
theorem argument_full (h : limit ≤ ctx.used + 1) {name : String} {l : Place} {ts : List Token}
    {e : Token} (he : e.kind = .endOfInput)
    (hrun : run limit (.inside ctx (.argument name p l)) (ts ++ [e]) = .accepted q) :
    ∃ us r vs, ts = us ++ r :: vs ∧ (∀ u ∈ us, u.kind.isNewline = true) ∧
      r.kind = .symbol .rightParen := by
  induction ts with
  | nil =>
    rw [List.nil_append, run_cons, run_nil, step_end he, atEnd, wanting, if_pos h] at hrun
    contradiction
  | cons t ts ih =>
    rw [List.cons_append, run_cons, step, startArguments] at hrun
    split at hrun
    · rename_i hk
      obtain ⟨us, r, vs, rfl, hus, hr⟩ := ih hrun
      refine ⟨t :: us, r, vs, rfl, ?_, hr⟩
      rintro u hu
      rcases List.mem_cons.mp hu with rfl | hu
      · rw [hk]
        rfl
      · exact hus u hu
    · rename_i hk
      exact ⟨[], t, ts, rfl, by simp, hk⟩
    · rw [start_full (by rwa [Context.used_push]), reject, run_stopped] at hrun
      contradiction

theorem significant_newlines {l : Layout} (hl : l.drops = true) {us : List Token}
    (hus : ∀ u ∈ us, u.kind.isNewline = true) (ys : List Token) :
    significant l (us ++ ys) = significant l ys := by
  induction us with
  | nil => rfl
  | cons u us ih =>
    rw [List.cons_append, significant, if_pos (by simp [hus u List.mem_cons_self, hl])]
    exact ih fun v hv => hus v (List.mem_cons_of_mem u hv)

/-- What is malformed where it ends and becomes a program stands where an argument list opens, with
no level left for an argument. -/
theorem exists_argument_of_malformed {a : Assembly} {line column : Nat} {reason : Reason}
    (ha : a.Regular) (h : a.atEnd limit p = .stopped (.malformed line column reason)) {t : Token}
    {ts : List Token} (ht : t.kind = .newline) (hrun : run limit a (t :: ts) = .accepted q) :
    ∃ ctx name place l, a = .inside ctx (.argument name place l) ∧ limit ≤ ctx.used + 1 := by
  cases a with
  | accepted q => exact ha.elim
  | stopped stop => exact ha.elim
  | between lead => contradiction
  | inside ctx mode =>
    cases mode with
    | statement =>
      rw [run_cons, step, startStatement, if_pos (full_of_wanting h).1, reject, run_stopped] at hrun
      contradiction
    | target name q' =>
      rw [atEnd] at h
      split at h
      · rename_i hfull
        rw [run_cons, step, afterTarget, ht] at hrun
        dsimp only at hrun
        rw [if_pos hfull, reject, run_stopped] at hrun
        contradiction
      · exact absurd h (Context.atEnd_ne_malformed _ _)
    | operand => exact absurd hrun (operand_full (full_of_wanting h).1 _)
    | row l lead =>
      cases lead with
      | initial gap => exact absurd hrun (row_full (full_of_wanting h).1 l gap _)
      | following rows sep gap => simp [atEnd] at h
    | name name q' => exact absurd h (Context.atEnd_ne_malformed _ _)
    | value x => exact absurd h (Context.atEnd_ne_malformed _ _)
    -- Here alone the end of input is rejected where a closing parenthesis would not be.
    | argument name q' l => exact ⟨ctx, name, q', l, rfl, (full_of_wanting h).1⟩

/-- What is malformed where it ends can only become a program by an empty argument list. -/
theorem not_filled_of_malformed {a : Assembly} {line column : Nat} {reason : Reason}
    (ha : a.Regular) (h : a.atEnd limit p = .stopped (.malformed line column reason)) {t e : Token}
    {ts : List Token} (ht : t.kind = .newline) (hts : ∀ u ∈ t :: ts, u.kind ≠ .endOfInput)
    (he : e.kind = .endOfInput) (hrun : run limit a (t :: ts ++ [e]) = .accepted q) :
    ¬Filled q.yield := by
  obtain ⟨ctx, name, q', l, rfl, hfull⟩ := exists_argument_of_malformed ha h ht hrun
  obtain ⟨us, r, vs, hsplit, hus, hr⟩ := argument_full hfull he hrun
  have hyield := yield_of_accepted ha hts he hrun
  have hdrops : (Assembly.inside ctx (.argument name q' l)).layout.drops = true := by
    simp [layout, Mode.layout, Layout.drops]
  rw [hsplit, significant_newlines hdrops hus, significant,
    if_neg (by simp [hr, Kind.isNewline])] at hyield
  have hopen : (Assembly.inside ctx (.argument name q' l)).yield =
      (ctx.yield ++ [q'.token (.name name)]) ++ [l.mark .leftParen] := by
    simp [Assembly.yield, Mode.yield]
  rw [hopen, List.append_assoc, List.singleton_append] at hyield
  intro hfilled
  exact List.isChain_iff_forall_rel_of_append_cons_cons.mp hfilled hyield rfl hr

end Assembly

end MatrixCalculator
