import MatrixCalculator.Proofs.Joining

namespace MatrixCalculator

open Evaluation

theorem Decimal.positional_ne_nil (wholeMark digits : List Char) (exponent : Int) :
    positional wholeMark digits exponent ≠ [] := by
  have hwhole : digits.take (exponent.toNat + 1) ++
      List.replicate (exponent.toNat + 1 - digits.length) '0' ≠ [] := by
    intro h
    have hlength := congrArg List.length h
    simp only [List.length_append, List.length_take, List.length_replicate,
      List.length_nil] at hlength
    omega
  unfold positional
  split
  · simp
  · dsimp only
    split <;> exact List.append_ne_nil_of_left_ne_nil hwhole _

theorem Decimal.layout_ne_nil (style : Decimal.Style) (d : Decimal) : layout style d ≠ [] := by
  unfold layout
  split
  · simp
  · dsimp only
    split
    · exact positional_ne_nil _ _ _
    · simp [scientific]

theorem Double.text_ne_empty (style : Decimal.Style) (decimal : Parts → Decimal) (x : Float) :
    text style decimal x ≠ "" := by
  unfold text
  split
  · split <;> simp [Decimal.layout_ne_nil]
  · split
    · simp
    · split <;> simp

theorem Value.render_ne_empty (precision : Nat) (v : Value) : v.render precision ≠ "" := by
  cases v with
  | scalar x => exact Double.text_ne_empty _ _ _
  | matrix m => simp [render, DenseMatrix.render]

theorem Value.ne_empty_of_render? {precision : Int} {v : Value} {text : String}
    (h : v.render? precision = .ok text) : text ≠ "" := by
  unfold render? at h
  split at h
  · contradiction
  · obtain rfl := Except.ok.inj h
    exact v.render_ne_empty _

theorem intercalate_ne_empty {lines : List String} (hne : lines ≠ [])
    (hlines : ∀ line ∈ lines, line ≠ "") : "\n".intercalate lines ≠ "" := by
  cases lines with
  | nil => contradiction
  | cons line lines =>
    cases lines with
    | nil => simpa using hlines
    | cons next lines => simp

theorem intercalate_groups {groups : List (List String)}
    (h : ∀ group ∈ groups, ∀ line ∈ group, line ≠ "") :
    "\n".intercalate ((groups.map "\n".intercalate).filter (· ≠ "")) =
      "\n".intercalate groups.flatten := by
  induction groups with
  | nil => rfl
  | cons group groups ih =>
    have hgroups := ih fun g hg => h g (List.mem_cons_of_mem group hg)
    rw [List.map_cons, List.flatten_cons]
    -- A group is joined to the others only if neither it nor all of them are empty.
    by_cases hgroup : group = []
    · rw [hgroup, String.intercalate_nil, List.filter_cons_of_neg (by simp), hgroups,
        List.nil_append]
    · have hfirst := intercalate_ne_empty hgroup (h group List.mem_cons_self)
      rw [List.filter_cons_of_pos (by simpa using hfirst)]
      by_cases hlater : groups.flatten = []
      · have hnone : (groups.map "\n".intercalate).filter (· ≠ "") = [] := by
          by_contra hsome
          have hempty := hgroups.trans (congrArg "\n".intercalate hlater)
          refine intercalate_ne_empty hsome (fun line hline => ?_) hempty
          simpa using (List.mem_filter.mp hline).2
        rw [hnone, hlater, List.append_nil, String.intercalate_singleton]
      · have hsome : (groups.map "\n".intercalate).filter (· ≠ "") ≠ [] := by
          intro hnone
          rw [hnone, String.intercalate_nil] at hgroups
          refine intercalate_ne_empty hlater (fun line hline => ?_) hgroups.symm
          obtain ⟨g, hg, hline⟩ := List.mem_flatten.mp hline
          exact h g (List.mem_cons_of_mem group hg) line hline
        rw [String.intercalate_cons_of_ne_nil hsome, hgroups,
          String.intercalate_append_of_ne_nil hgroup hlater]

namespace Session

/-- The replies to fragments, one after the other, and the session after them. -/
def submit (s : Session) (fragments : List String) (levels : Nat := maxDepth) :
    List (Except Fault Reply) × Session :=
  match fragments with
  | [] => ([], s)
  | fragment :: fragments =>
    let turn := s.evaluate fragment levels
    let later := turn.session.submit fragments levels
    (turn.reply :: later.1, later.2)

/-- The lines that statements give and the session after them, if all can be executed. -/
def executed? (s : Session) (nodes : List Node) (levels : Nat := maxDepth) :
    Option (List String × Session) :=
  match nodes with
  | [] => some ([], s)
  | node :: nodes =>
    (execute? s.env s.settings.tolerance levels node).bind fun r =>
      (r.1.render? s.settings.precision).toOption.bind fun text =>
        (executed? { s with env := r.2 } nodes levels).map fun later =>
          (text :: later.1, later.2)

variable {levels : Nat}

theorem executed?_cons {s s' : Session} {node : Node} {nodes : List Node} {texts : List String}
    (h : s.executed? (node :: nodes) levels = some (texts, s')) :
    ∃ v env text later, execute s.env s.settings.tolerance levels node = .ok (v, env) ∧
      v.render? s.settings.precision = .ok text ∧
      executed? { s with env } nodes levels = some (later, s') ∧ texts = text :: later := by
  rw [executed?, execute?] at h
  obtain ⟨⟨v, env⟩, hv, h⟩ := Option.bind_eq_some_iff.mp h
  obtain ⟨text, htext, h⟩ := Option.bind_eq_some_iff.mp h
  obtain ⟨⟨later, s''⟩, hlater, h⟩ := Option.map_eq_some_iff.mp h
  obtain ⟨rfl, rfl⟩ := Prod.mk.inj h
  exact ⟨v, env, text, later, eq_ok_of_toOption hv, eq_ok_of_toOption htext, hlater, rfl⟩

theorem runFrom_eq {s s' : Session} {nodes : List Node} {texts : List String}
    (h : s.executed? nodes levels = some (texts, s')) (lines : List String) :
    s.runFrom lines nodes levels = ⟨.ok (reply (lines ++ texts) false), s', none⟩ := by
  induction nodes generalizing s lines texts with
  | nil =>
    obtain ⟨rfl, rfl⟩ := Prod.mk.inj (Option.some.inj h)
    rw [runFrom, List.append_nil]
  | cons node nodes ih =>
    obtain ⟨v, env, text, later, hv, htext, hlater, rfl⟩ := executed?_cons h
    rw [runFrom, hv]
    dsimp only
    rw [htext]
    dsimp only
    rw [ih hlater, List.append_assoc, List.singleton_append]

theorem exists_executed? {s : Session} {nodes : List Node} {lines : List String} {r : Reply}
    (h : (s.runFrom lines nodes levels).reply = .ok r) (hr : r.isError = false) :
    ∃ texts s', s.executed? nodes levels = some (texts, s') := by
  induction nodes generalizing s lines with
  | nil => exact ⟨[], s, rfl⟩
  | cons node nodes ih =>
    rw [runFrom] at h
    split at h
    · rename_i v env hv
      split at h
      · rename_i text htext
        obtain ⟨texts, s', hlater⟩ := ih h
        refine ⟨text :: texts, s', ?_⟩
        simp only [executed?, execute?, hv, htext, hlater, Except.toOption, Option.bind_some,
          Option.map_some]
      · contradiction
    · obtain rfl := Except.ok.inj h
      contradiction
    · obtain rfl := Except.ok.inj h
      contradiction
    · contradiction

theorem executed?_append (s : Session) (first second : List Node) :
    s.executed? (first ++ second) levels = (s.executed? first levels).bind fun r =>
      (r.2.executed? second levels).map fun later => (r.1 ++ later.1, later.2) := by
  induction first generalizing s with
  | nil => simp [executed?]
  | cons node first ih =>
    simp only [List.cons_append, executed?, ih, Option.bind_assoc]
    congr 1
    funext r
    congr 1
    funext text
    cases executed? { s with env := r.2 } first levels with
    | none => rfl
    | some later => simp [Function.comp_def]

theorem executed?_congr {first second : List Node}
    (h : List.Forall₂ Node.ExecuteAlike first second) (s : Session) :
    s.executed? first levels = s.executed? second levels := by
  induction h generalizing s with
  | nil => rfl
  | cons hnode _ ih => simp only [executed?, hnode _ _ _, ih]

theorem executes_of_executed? {s s' : Session} {nodes : List Node} {texts : List String}
    (h : s.executed? nodes levels = some (texts, s')) :
    (∀ node ∈ nodes, node.Executes) ∧ (∀ text ∈ texts, text ≠ "") ∧ s'.buffer = s.buffer := by
  induction nodes generalizing s texts with
  | nil =>
    obtain ⟨rfl, rfl⟩ := Prod.mk.inj (Option.some.inj h)
    exact ⟨nofun, nofun, rfl⟩
  | cons node nodes ih =>
    obtain ⟨v, env, text, later, hv, htext, hlater, rfl⟩ := executed?_cons h
    obtain ⟨hnodes, htexts, hbuffer⟩ := ih hlater
    refine ⟨List.forall_mem_cons.mpr ⟨?_, hnodes⟩, List.forall_mem_cons.mpr ⟨?_, htexts⟩, hbuffer⟩
    · exact ⟨s.env, s.settings.tolerance, levels, (v, env), by rw [execute?, hv]; rfl⟩
    · exact Value.ne_empty_of_render? htext

theorem evaluate_of_complete {s s' : Session} {fragment : String} {nodes : List Node}
    {rest : List Token} {texts : List String}
    (hparse : parse ("\n".intercalate (s.buffer ++ [fragment])) = .complete nodes rest)
    (h : s.dropPending.executed? nodes levels = some (texts, s')) :
    s.evaluate fragment levels = ⟨.ok (reply texts false), s', none⟩ := by
  rw [evaluate, pendingSource, hparse]
  exact runFrom_eq h []

theorem evaluate_of_incomplete {s : Session} {fragment : String}
    (hparse : parse ("\n".intercalate (s.buffer ++ [fragment])) = .incomplete) (levels : Nat) :
    (s.evaluate fragment levels).reply = .ok ⟨"", pendingPrompt, false⟩ ∧
      (s.evaluate fragment levels).session = { s with buffer := s.buffer ++ [fragment] } := by
  rw [evaluate, pendingSource, hparse]
  exact ⟨rfl, rfl⟩

theorem dropPending_of_buffer {s : Session} (h : s.buffer = []) : s.dropPending = s := by
  rw [dropPending, ← h]

/-- The session takes the fragments one after the other, none with an error; each reply shows the
lines of one group. -/
inductive Takes (levels : Nat) : Session → List String → List (List String) → Session → Prop where
  | nil (s : Session) : Takes levels s [] [] s
  | cons {s s' : Session} {fragment : String} {fragments lines : List String}
      {groups : List (List String)} {r : Reply}
      (hreply : (s.evaluate fragment levels).reply = .ok r) (hr : r.isError = false)
      (houtput : r.output = "\n".intercalate lines)
      (later : Takes levels (s.evaluate fragment levels).session fragments groups s') :
      Takes levels s (fragment :: fragments) (lines :: groups) s'

theorem Takes.submit {s s' : Session} {fragments : List String} {groups : List (List String)}
    (h : s.Takes levels fragments groups s') : ∃ replies : List Reply,
      s.submit fragments levels = (replies.map .ok, s') ∧ (∀ r ∈ replies, r.isError = false) ∧
      replies.map Reply.output = groups.map "\n".intercalate := by
  induction h with
  | nil s => exact ⟨[], rfl, nofun, rfl⟩
  | @cons _ _ _ _ _ _ r hreply hr houtput later ih =>
    obtain ⟨replies, hsubmit, hreplies, houtputs⟩ := ih
    refine ⟨r :: replies, ?_, List.forall_mem_cons.mpr ⟨hr, hreplies⟩, ?_⟩
    · rw [Session.submit, hreply, hsubmit]
      rfl
    · rw [List.map_cons, List.map_cons, houtput, houtputs]

theorem Takes.of_complete {s s' s'' : Session} {fragment : String} {fragments : List String}
    {nodes : List Node} {rest : List Token} {texts : List String} {groups : List (List String)}
    (hparse : parse ("\n".intercalate (s.buffer ++ [fragment])) = .complete nodes rest)
    (h : s.dropPending.executed? nodes levels = some (texts, s'))
    (later : s'.Takes levels fragments groups s'') :
    s.Takes levels (fragment :: fragments) (texts :: groups) s'' := by
  have heval := evaluate_of_complete hparse h
  refine .cons (r := reply texts false) (by rw [heval]) rfl rfl ?_
  rwa [heval]

/-- Fragments that with the pending ones are a program are never rejected. Each gives some of the
lines of the program, and after the last the program has been executed. -/
theorem takes_of_complete {s s' : Session} {fragments : List String} {nodes : List Node}
    {rest : List Token} {texts : List String}
    (hparse : parse ("\n".intercalate (s.buffer ++ fragments)) = .complete nodes rest)
    (h : s.dropPending.executed? nodes levels = some (texts, s'))
    (hpending : fragments = [] → s.buffer = []) :
    ∃ groups, s.Takes levels fragments groups s' ∧ groups.flatten = texts := by
  -- The next fragment ends the pending program, lets it wait, or would have to be malformed: the
  -- invariant is that the pending fragments and those to come can be executed together.
  induction fragments generalizing s nodes rest texts with
  | nil =>
    have hbuffer := hpending rfl
    have hempty : parse ("\n".intercalate []) = .complete [] [] := by cbv
    rw [hbuffer, List.nil_append, hempty] at hparse
    obtain ⟨rfl, -⟩ := Outcome.complete.inj hparse
    obtain ⟨rfl, rfl⟩ := Prod.mk.inj (Option.some.inj h)
    rw [dropPending_of_buffer hbuffer]
    exact ⟨[], .nil s, rfl⟩
  | cons fragment fragments ih =>
    rw [List.append_cons] at hparse
    by_cases hlast : fragments = []
    · subst hlast
      rw [List.append_nil] at hparse
      exact ⟨[texts], .of_complete hparse h (.nil s'), List.append_nil _⟩
    have hjoin := hparse
    rw [String.intercalate_append_of_ne_nil (by simp) hlast] at hjoin
    cases hfirst : parse ("\n".intercalate (s.buffer ++ [fragment])) with
    | complete first rest' =>
      obtain ⟨second, later, hsecond, rfl, halike⟩ := complete_of_join hfirst hjoin
      rw [executed?_append] at h
      obtain ⟨⟨texts₁, s₁⟩, h₁, h⟩ := Option.bind_eq_some_iff.mp h
      obtain ⟨⟨texts₂, s₂⟩, h₂, h⟩ := Option.map_eq_some_iff.mp h
      obtain ⟨rfl, rfl⟩ := Prod.mk.inj h
      have hbuffer : s₁.buffer = [] := (executes_of_executed? h₁).2.2
      rw [← executed?_congr halike, ← dropPending_of_buffer hbuffer] at h₂
      obtain ⟨groups, htakes, rfl⟩ :=
        ih (s := s₁) (by rw [hbuffer]; exact hsecond) h₂ fun _ => hbuffer
      exact ⟨texts₁ :: groups, .of_complete hfirst h₁ htakes, rfl⟩
    | incomplete =>
      obtain ⟨hreply, hsession⟩ := evaluate_of_incomplete hfirst levels
      obtain ⟨groups, htakes, rfl⟩ :=
        ih (s := { s with buffer := s.buffer ++ [fragment] }) hparse h fun h => absurd h hlast
      exact ⟨[] :: groups, .cons hreply rfl rfl (by rwa [hsession]), rfl⟩
    | malformed line column reason =>
      exact absurd (executes_of_executed? h).1 (not_executes_of_join hfirst hjoin)
    | broken b => exact absurd hfirst (parse_ne_broken _ b)

/-- A text that an idle session accepts as a whole may be given to it in fragments, cut at newlines:
no fragment is an error, the session is idle again with the same variables, and the outputs that are
not empty are together the output of the whole. -/
theorem submit_fragments {s : Session} {fragments : List String} {r : Reply}
    (hidle : s.isIdle = true)
    (hreply : (s.evaluate ("\n".intercalate fragments) levels).reply = .ok r)
    (hr : r.isError = false)
    (hend : (s.evaluate ("\n".intercalate fragments) levels).session.isIdle = true) :
    ∃ replies : List Reply, (s.submit fragments levels).1 = replies.map .ok ∧
      (∀ reply ∈ replies, reply.isError = false) ∧ (s.submit fragments levels).2.isIdle = true ∧
      (s.submit fragments levels).2.env =
        (s.evaluate ("\n".intercalate fragments) levels).session.env ∧
      "\n".intercalate ((replies.map Reply.output).filter (· ≠ "")) = r.output := by
  have hbuffer : s.buffer = [] := List.isEmpty_iff.mp hidle
  have hwhole : "\n".intercalate (s.buffer ++ ["\n".intercalate fragments]) =
      "\n".intercalate (s.buffer ++ fragments) := by
    rw [hbuffer, List.nil_append, List.nil_append, String.intercalate_singleton]
  cases hparse : parse ("\n".intercalate (s.buffer ++ ["\n".intercalate fragments])) with
  | complete nodes rest =>
    obtain ⟨texts, s', h⟩ :
        ∃ texts s', s.dropPending.executed? nodes levels = some (texts, s') := by
      rw [evaluate, pendingSource, hparse] at hreply
      exact exists_executed? hreply hr
    have heval := evaluate_of_complete hparse h
    rw [heval] at hreply hend ⊢
    obtain rfl := Except.ok.inj hreply
    rw [hwhole] at hparse
    obtain ⟨groups, htakes, rfl⟩ := takes_of_complete hparse h fun _ => hbuffer
    obtain ⟨replies, hsubmit, hreplies, houtput⟩ := htakes.submit
    rw [hsubmit]
    refine ⟨replies, rfl, hreplies, hend, rfl, ?_⟩
    rw [houtput]
    refine intercalate_groups fun group hgroup line hline => ?_
    exact (executes_of_executed? h).2.1 line (List.mem_flatten_of_mem hgroup hline)
  | incomplete =>
    rw [(evaluate_of_incomplete hparse levels).2] at hend
    simp [isIdle] at hend
  | malformed line column reason =>
    rw [evaluate, pendingSource, hparse] at hreply
    obtain rfl := Except.ok.inj hreply
    contradiction
  | broken b => exact absurd hparse (parse_ne_broken _ b)

/-- A matrix over two lines, an empty line and the matrix again. -/
theorem submit_fragments_matrix : ∃ r : Reply,
    ((new .default).evaluate ("\n".intercalate ["x = [pi;", "e]", "", "x"])).reply = .ok r ∧
    r.isError = false ∧ ∃ replies : List Reply,
      ((new .default).submit ["x = [pi;", "e]", "", "x"]).1 = replies.map .ok ∧
      (∀ reply ∈ replies, reply.isError = false) ∧
      ((new .default).submit ["x = [pi;", "e]", "", "x"]).2.isIdle = true ∧
      ((new .default).submit ["x = [pi;", "e]", "", "x"]).2.env =
        ((new .default).evaluate ("\n".intercalate ["x = [pi;", "e]", "", "x"])).session.env ∧
      "\n".intercalate ((replies.map Reply.output).filter (· ≠ "")) = r.output := by
  have hparse : parse "x = [pi;\ne]\n\nx" =
      .complete [.assign "x" (.matrix [[.ident "pi" 1], [.ident "e" 2]] 1) 1, .ident "x" 4] [] := by
    rw [parse_eq]
    cbv
  obtain ⟨texts, s', h⟩ : ∃ texts s', (new .default).dropPending.executed?
      [.assign "x" (.matrix [[.ident "pi" 1], [.ident "e" 2]] 1) 1, .ident "x" 4] =
        some (texts, s') := ⟨_, _, rfl⟩
  have heval : (new .default).evaluate ("\n".intercalate ["x = [pi;", "e]", "", "x"]) =
      ⟨.ok (reply texts false), s', none⟩ := evaluate_of_complete hparse h
  have hreply : ((new .default).evaluate ("\n".intercalate ["x = [pi;", "e]", "", "x"])).reply =
      .ok (reply texts false) := by rw [heval]
  have hend : ((new .default).evaluate
      ("\n".intercalate ["x = [pi;", "e]", "", "x"])).session.isIdle = true := by
    rw [heval, isIdle, (executes_of_executed? h).2.2]
    rfl
  exact ⟨_, hreply, rfl, submit_fragments rfl hreply rfl hend⟩

end Session

end MatrixCalculator
