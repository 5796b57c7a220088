import MatrixCalculator.Proofs.Arguments
import MatrixCalculator.Proofs.Relocation

namespace MatrixCalculator

open Assembly

/-- The outcome with statements in front of those that have been read. -/
def Outcome.prepend (before : List Node) : Outcome (List Node) → Outcome (List Node)
  | .complete nodes rest => .complete (before ++ nodes) rest
  | .incomplete => .incomplete
  | .malformed line column reason => .malformed line column reason
  | .broken b => .broken b

theorem Cursor.programFrom_append (fuel : Nat) (nodes before : List Node) (c : Cursor) :
    (programFrom fuel (nodes ++ before) c).1 =
      (programFrom fuel nodes c).1.prepend before.reverse := by
  induction fuel generalizing nodes c with
  | zero => rfl
  | succ fuel ih =>
    rw [programFrom, programFrom]
    cases c.skipSeparators with
    | error b => rfl
    | ok c' =>
      dsimp only
      by_cases hend : (c'.rest.head?.any fun t => t.kind.isEnd) = true
      · rw [if_pos hend, if_pos hend, List.reverse_append]
        rfl
      · rw [if_neg hend, if_neg hend]
        cases c'.statement with
        | mk outcome c'' =>
          cases outcome with
          | complete node remaining => exact ih (node :: nodes) c''
          | incomplete => rfl
          | malformed line column reason => rfl
          | broken b => rfl

/-- Between statements, what has been read stays in front of what can be read from there. -/
theorem outcome_between (lead : Lead .statements) {ts : List Token} (hts : Ended ts) :
    (run maxNesting (.between lead) ts).outcome =
      (parseProgram ts).prepend lead.statementTrees := by
  have hprogram : (Cursor.programFrom ts.length lead.statementTrees.reverse (.ofTokens ts)).1 =
      (run maxNesting (.between lead) ts).outcome :=
    Cursor.programFrom_eq ts.length (c := .ofTokens ts) rfl hts (awaits_between lead hts) le_rfl
  have happend := Cursor.programFrom_append ts.length [] lead.statementTrees.reverse (.ofTokens ts)
  rw [List.nil_append, List.reverse_reverse, hprogram] at happend
  exact happend

theorem Outcome.complete_of_prepend {before nodes : List Node} {rest : List Token}
    {outcome : Outcome (List Node)} (h : outcome.prepend before = .complete nodes rest) :
    ∃ nodes', outcome = .complete nodes' rest ∧ nodes = before ++ nodes' := by
  cases outcome with
  | complete nodes' rest' =>
    obtain ⟨rfl, rfl⟩ := Outcome.complete.inj h
    exact ⟨nodes', rfl, rfl⟩
  | incomplete => contradiction
  | malformed line column reason => contradiction
  | broken b => contradiction

namespace Assembly

variable {limit : Nat} {t : Token}

theorem close_newline {ctx : Context} (hgroups : ctx.groups = []) (x : Phrase .expression)
    (ht : t.kind = .newline) : close ctx x t =
      .between (.following (ctx.closeStatement (.bare x)) (.newline t.place) []) := by
  rw [close_of_groups hgroups, endStatement, ht]
  dsimp only
  rw [finish, terminate, ht]

theorem wanting_ne_accepted {levels : Nat} {p : Place} {q : Phrase .program} :
    wanting limit levels p ≠ .accepted q := by
  unfold wanting
  split <;> simp [reject]

theorem afterIndexed_newline_of_accepted {ctx : Context} {x : Phrase .indexed}
    {q : Phrase .program} (h : ctx.atEnd x = .accepted q) (ht : t.kind = .newline) :
    (t.kind.isNewline && ctx.isRound) = false ∧ ∃ lead : Lead .statements,
      afterIndexed ctx x t = .between lead ∧ lead.statementTrees = q.tree := by
  unfold Context.atEnd at h
  split at h
  · rename_i hgroups
    obtain rfl := Assembly.accepted.inj h
    rw [afterIndexed_eq_close ctx x (by simp [ht]), close_newline hgroups _ ht]
    exact ⟨by simp [Context.isRound, Context.enclosures, hgroups], _, rfl, rfl⟩
  · contradiction

/-- Behind a whole program a newline waits for the next statement. -/
theorem step_newline_of_accepted {a : Assembly} {p : Place} {q : Phrase .program}
    (h : a.atEnd limit p = .accepted q) (ha : a.Regular) (ht : t.kind = .newline) :
    ∃ lead : Lead .statements, step limit a t = .between lead ∧ lead.statementTrees = q.tree := by
  cases a with
  | accepted p => exact ha.elim
  | stopped stop => exact ha.elim
  | between lead =>
    obtain rfl := Assembly.accepted.inj h
    refine ⟨lead.add (.newline t.place), by rw [step, startLine, ht], ?_⟩
    rw [Lead.statementTrees_add, Lead.tree_program]
  | inside ctx mode =>
    cases mode with
    | statement => exact absurd h wanting_ne_accepted
    | target name q' =>
      rw [atEnd] at h
      split at h
      · contradiction
      · rename_i hroom
        obtain ⟨_, lead, hlead, htrees⟩ := afterIndexed_newline_of_accepted h ht
        refine ⟨lead, ?_, htrees⟩
        rw [step, afterTarget, ht]
        dsimp only
        rw [if_neg hroom, afterName_of_ne (by simp [ht]), hlead]
    | operand => exact absurd h wanting_ne_accepted
    | argument name q' l => exact absurd h wanting_ne_accepted
    | row l lead =>
      cases lead with
      | initial gap => exact absurd h wanting_ne_accepted
      | following rows sep gap => contradiction
    | name name q' =>
      obtain ⟨hkept, lead, hlead, htrees⟩ := afterIndexed_newline_of_accepted h ht
      refine ⟨lead, ?_, htrees⟩
      rw [step, hkept, if_neg Bool.false_ne_true, afterName_of_ne (by simp [ht]), hlead]
    | value x =>
      obtain ⟨hkept, lead, hlead, htrees⟩ := afterIndexed_newline_of_accepted h ht
      exact ⟨lead, by rw [step, hkept, if_neg Bool.false_ne_true, hlead], htrees⟩

end Assembly

theorem Token.ne_endOfInput_lower {ts : List Token} (hts : ∀ t ∈ ts, t.kind ≠ .endOfInput)
    (d : Nat) : ∀ t ∈ ts.map (Token.lower d), t.kind ≠ .endOfInput := by
  intro t ht
  obtain ⟨u, hu, rfl⟩ := List.mem_map.mp ht
  exact hts u hu

theorem Ended.lower {ts : List Token} (h : Ended ts) (d : Nat) :
    Ended (ts.map (Token.lower d)) := by
  induction h with
  | last h => exact .last h
  | cons h _ ih => exact .cons h ih

theorem complete_of_lower {ts : List Token} {e : Token} {d : Nat} {nodes : List Node}
    {rest : List Token} (hts : ∀ t ∈ ts, t.kind ≠ .endOfInput) (he : e.kind = .endOfInput)
    (h : parseProgram ((ts ++ [e]).map (Token.lower d)) = .complete nodes rest) :
    ∃ nodes', parseProgram (ts ++ [e]) = .complete nodes' [] ∧
      List.Forall₂ Node.ExecuteAlike nodes' nodes := by
  have hlower := Token.ne_endOfInput_lower hts d
  have hend : (e.lower d).kind = .endOfInput := he
  rw [List.map_append, List.map_singleton, parseProgram_eq (.append hlower hend)] at h
  obtain ⟨p, hp, rfl, _⟩ := outcome_eq_complete h
  obtain ⟨hderives, hdepth⟩ := (accepted_iff hlower hend).mp hp
  -- Lowering can be undone, so the derivation moves back with the tokens.
  let raise : Place → Place := fun q => ⟨q.line - d, q.column⟩
  have hraise : (ts.map (Token.lower d)).map (Token.move raise) = ts := by
    rw [List.map_map]
    refine List.map_id'' (fun t => ?_) ts
    simp [raise, Token.lower, Token.move, Token.place, Place.token]
  have hmoved : (p.move raise).Derives ts := hraise ▸ hderives.move raise
  refine ⟨(p.move raise).tree, ?_, p.agree_move raise⟩
  rw [parseProgram_eq (.append hts he),
    (accepted_iff hts he).mpr ⟨hmoved, by rwa [Phrase.depth_move]⟩]
  rfl

/-- Behind a program and a newline, a text is read as on its own, on lower lines. -/
theorem exists_parse_join {s : String} {first : List Node} {rest : List Token}
    (hs : parse s = .complete first rest) : ∃ (ts : List Token) (l c : Nat),
      tokenize s = ts ++ [⟨.endOfInput, l, c⟩] ∧ ∀ t, parse (s ++ "\n" ++ t) =
        (parseProgram ((tokenize t).map (Token.lower l))).prepend first := by
  obtain ⟨ts, l, c, hts, htokens, happend⟩ := exists_tokenize s
  refine ⟨ts, l, c, htokens, fun t => ?_⟩
  rw [parse, htokens, parseProgram_append hts rfl] at hs
  obtain ⟨p, hp, htree, _⟩ := outcome_eq_complete hs
  have hregular : (run maxNesting empty ts).Regular := regular_of_run hts fun _ _ hreject => by
    rw [hreject] at hp
    contradiction
  obtain ⟨lead, hlead, htrees⟩ :=
    step_newline_of_accepted (t := ⟨.newline, l, c⟩) hp hregular rfl
  rw [parse_eq, happend, run_append, run_cons, hlead,
    outcome_between lead ((tokenize_ended t).lower l), htrees, htree]

/-- If a text and the text joined to another are programs, so is the other, and the statements of
the first come first. -/
theorem complete_of_join {s t : String} {first nodes : List Node} {rest rest' : List Token}
    (hs : parse s = .complete first rest) (h : parse (s ++ "\n" ++ t) = .complete nodes rest') :
    ∃ second later, parse t = .complete second [] ∧ nodes = first ++ later ∧
      List.Forall₂ Node.ExecuteAlike second later := by
  obtain ⟨_, l, _, _, hjoin⟩ := exists_parse_join hs
  obtain ⟨us, l', c', hus, htokens, _⟩ := exists_tokenize t
  rw [hjoin] at h
  obtain ⟨later, hlater, rfl⟩ := Outcome.complete_of_prepend h
  rw [htokens] at hlater
  obtain ⟨second, hsecond, halike⟩ := complete_of_lower hus rfl hlater
  exact ⟨second, later, by rw [parse, htokens, hsecond], rfl, halike⟩

/-- If a text is malformed but joined to another is a program, that program cannot be executed. -/
theorem not_executes_of_join {s t : String} {line column : Nat} {reason : Reason}
    (hs : parse s = .malformed line column reason) {nodes : List Node} {rest : List Token}
    (h : parse (s ++ "\n" ++ t) = .complete nodes rest) : ¬∀ node ∈ nodes, node.Executes := by
  obtain ⟨ts, l, c, hts, htokens, happend⟩ := exists_tokenize s
  obtain ⟨us, l', c', hus, htokens', _⟩ := exists_tokenize t
  rw [parse, htokens, parseProgram_append hts rfl, outcome_eq_malformed] at hs
  rw [parse_eq, happend, htokens', run_append, List.map_append,
    List.map_singleton, ← List.cons_append] at h
  obtain ⟨q, hq, rfl, _⟩ := outcome_eq_complete h
  have hregular : (run maxNesting empty ts).Regular := regular_of_run hts fun _ _ hreject => by
    rw [hreject, reject, run_stopped] at hq
    contradiction
  have hrest : ∀ u ∈ ⟨.newline, l, c⟩ :: us.map (Token.lower l), u.kind ≠ .endOfInput :=
    List.forall_mem_cons.mpr ⟨by simp, Token.ne_endOfInput_lower hus l⟩
  intro hexecutes
  exact not_filled_of_malformed hregular hs rfl hrest rfl hq (Phrase.filled hexecutes)

end MatrixCalculator
