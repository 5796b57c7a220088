import MatrixCalculator.Proofs.Runs

namespace MatrixCalculator

open Evaluation

theorem Environment.Sound.update {env : Environment} {writes : List (String × Value)}
    (h : env.Sound) (hwrites : ∀ w ∈ writes, w.2.Sound) : (env.update writes).Sound := by
  induction writes generalizing env with
  | nil => exact h
  | cons w writes ih =>
    obtain ⟨hw, hwrites⟩ := List.forall_mem_cons.mp hwrites
    exact ih (h.set hw) hwrites

/-- A run over sound variables leaves sound variables and gives sound values. -/
theorem Runs.sound {tolerance : Float} {levels : Nat} {env env' : Environment} {nodes : List Node}
    {values : List Value} (h : Runs tolerance levels env nodes values env')
    (hnodes : ∀ node ∈ nodes, node.IsStatement) (henv : env.Sound) :
    env'.Sound ∧ ∀ v ∈ values, v.Sound := by
  induction h with
  | nil env => exact ⟨henv, by simp⟩
  | @cons env env' node nodes v values hresult later ih =>
    obtain ⟨hnode, hnodes⟩ := List.forall_mem_cons.mp hnodes
    have hyields := yields_result env tolerance hnode levels
    rw [hresult] at hyields
    have hv : v.Sound := hyields henv
    have hupdate : (env.update (node.writes v)).Sound := by
      refine henv.update fun w hw => ?_
      obtain ⟨name, _, rfl⟩ := List.mem_map.mp hw
      exact hv
    obtain ⟨henv', hvalues⟩ := ih hnodes hupdate
    exact ⟨henv', List.forall_mem_cons.mpr ⟨hv, hvalues⟩⟩

theorem Node.IsStatement.sound_part {node part : Node} (hnode : node.IsStatement)
    (hpart : Node.Part part node) {env : Environment} (henv : env.Sound) {tolerance : Float}
    {depth : Nat} {v : Value} (hv : eval env tolerance depth part = .ok v) : v.Sound := by
  cases hnode.part hpart with
  | @assign name value line hname hvalue =>
    -- An assignment is no expression.
    cases depth <;> contradiction
  | bare hexpression =>
    have hbehaves : Behaves env tolerance depth part := behaves hexpression depth
    rw [Behaves, hv] at hbehaves
    exact hbehaves henv

theorem not_infix_of_spelled {c : Char} {s word : String} (h : Spelled (· ≠ c) s)
    (hword : c ∈ word.toList) : ¬word.toList <:+: s.toList :=
  fun hpart => h c (hpart.subset hword) rfl

theorem Value.Sound.not_infix_render {v : Value} (h : v.Sound) (precision : Nat) :
    ∀ word ∈ ["inf", "nan"], ¬word.toList <:+: (v.render precision).toList := by
  intro word hword
  refine not_infix_of_spelled (Value.spelled_render_of_isFinite precision (sound_iff.mp h)) ?_
  have hwords : ∀ word ∈ ["inf", "nan"], 'n' ∈ word.toList := by decide
  exact hwords word hword

namespace Session

theorem constants_sound : constants.Sound := by
  refine List.forall_mem_cons.mpr ⟨?_, List.forall_mem_singleton.mpr ?_⟩
  · show Float.isFinite 2.718281828459045 = true
    decide
  · show Float.isFinite 3.141592653589793 = true
    decide

/-- The sessions that come of a new one by fragments and resets. -/
inductive Reachable (settings : Settings) : Session → Prop where
  | new : Reachable settings (new settings)
  | evaluate {s : Session} (h : Reachable settings s) (fragment : String) (levels : Nat) :
      Reachable settings (s.evaluate fragment levels).session
  | reset {s : Session} (h : Reachable settings s) : Reachable settings s.reset

/-- A fragment changes the variables by a run of statements, with or without a reply. -/
theorem evaluate_steps (s : Session) (fragment : String) (levels : Nat) :
    (s.evaluate fragment levels).session.settings = s.settings ∧ ∃ done values,
      (∀ node ∈ done, node.IsStatement) ∧
      Runs s.settings.tolerance levels s.env done values
        (s.evaluate fragment levels).session.env := by
  by_cases hreadable : ∃ nodes rest, parse (s.sourceWith fragment) = .complete nodes rest
  · obtain ⟨nodes, rest, hparse⟩ := hreadable
    obtain ⟨done, later, values, env, rfl, hdone, _, hruns, hsession, _⟩ :=
      exists_run_ends hparse levels
    rw [hsession]
    exact ⟨rfl, done, values, hdone, hruns⟩
  · obtain ⟨henv, hsettings, _⟩ :=
      evaluate_of_unreadable (fun nodes rest hparse => hreadable ⟨nodes, rest, hparse⟩) levels
    rw [henv]
    exact ⟨hsettings, [], [], by simp, .nil s.env⟩

theorem Reachable.sound {settings : Settings} {s : Session} (h : s.Reachable settings) :
    s.settings = settings ∧ s.env.Sound := by
  induction h with
  | new => exact ⟨rfl, constants_sound⟩
  | @evaluate s h fragment levels ih =>
    obtain ⟨hsettings, done, values, hdone, hruns⟩ := s.evaluate_steps fragment levels
    exact ⟨hsettings.trans ih.1, (hruns.sound hdone ih.2).1⟩
  | reset h ih => exact ⟨ih.1, constants_sound⟩

/-- In a session with any history all variables are finite, and so is what any part of a statement
comes to, at any point of a run; no line for a value has a word for a number that is not. -/
theorem finite_of_reachable {settings : Settings} {s : Session} (h : s.Reachable settings) :
    s.env.Sound ∧ ∀ fragment levels,
      (∀ nodes rest, parse (s.sourceWith fragment) = .complete nodes rest →
        (∀ done later values env, nodes = done ++ later →
          Runs settings.tolerance levels s.env done values env → ∀ node ∈ nodes, ∀ part depth v,
            Node.Part part node → eval env settings.tolerance depth part = .ok v → v.Sound) ∧
        ∀ r, (s.evaluate fragment levels).reply = .ok r → ∃ done later values report,
          nodes = done ++ later ∧
          Runs settings.tolerance levels s.env done values
            (s.evaluate fragment levels).session.env ∧
          Reports settings levels (s.evaluate fragment levels).session.env later report ∧
          r.output = "\n".intercalate (values.map (·.render settings.precision) ++ report) ∧
          ∀ v ∈ values, ∀ word ∈ ["inf", "nan"],
            ¬word.toList <:+: (v.render settings.precision).toList) ∧
      ((∀ nodes rest, parse (s.sourceWith fragment) ≠ .complete nodes rest) →
        ∀ r, (s.evaluate fragment levels).reply = .ok r → r.isError = false →
          r.output = "") := by
  obtain ⟨rfl, henv⟩ := h.sound
  refine ⟨henv, fun fragment levels =>
    ⟨fun nodes rest hparse => ?_, fun hunreadable r hreply hr => ?_⟩⟩
  · have hstatements := isStatement_of_parse hparse
    refine ⟨?_, fun r hreply => ?_⟩
    · rintro done later values env rfl hruns node hnode part depth v hpart hv
      have henv' := (hruns.sound (List.forall_mem_append.mp hstatements).1 henv).1
      exact (hstatements node hnode).sound_part hpart henv' hv
    · obtain ⟨done, later, values, report, rfl, hruns, hreport, houtput, _⟩ :=
        exists_run hparse hreply
      have hvalues := (hruns.sound (List.forall_mem_append.mp hstatements).1 henv).2
      exact ⟨done, later, values, report, rfl, hruns, hreport, houtput,
        fun v hv => (hvalues v hv).not_infix_render _⟩
  · obtain ⟨_, _, r', hreply', houtput⟩ := evaluate_of_unreadable hunreadable levels
    rw [hreply] at hreply'
    obtain rfl := Except.ok.inj hreply'
    exact houtput hr

/-- A session that has bound a matrix with a negated entry, and a part of what it may be given
next. -/
theorem finite_of_reachable_matrix : ∃ s : Session, s.Reachable .default ∧
    (s.env.get? "x").isSome = true ∧
    parse (s.sourceWith "x - e") = .complete [.binary .sub (.ident "x" 1) (.ident "e" 1) 1] [] ∧
    s.env.Sound ∧ ∀ depth v,
      eval s.env Settings.default.tolerance depth (.ident "x" 1) = .ok v → v.Sound := by
  have hparse : parse ((new .default).sourceWith "x = [-pi; e]") =
      .complete [.assign "x" (.matrix [[.neg (.ident "pi" 1) 1], [.ident "e" 1]] 1) 1] [] := by
    show parse "x = [-pi; e]" = _
    rw [parse_eq]
    cbv
  have hreachable : ((new .default).evaluate "x = [-pi; e]").session.Reachable .default :=
    .evaluate .new _ _
  rw [evaluate_of_readable hparse] at hreachable
  have hnext : parse "x - e" = .complete [.binary .sub (.ident "x" 1) (.ident "e" 1) 1] [] := by
    rw [parse_eq]
    cbv
  obtain ⟨henv, hfinite⟩ := finite_of_reachable hreachable
  refine ⟨_, hreachable, rfl, hnext, henv, fun depth v hv => ?_⟩
  exact ((hfinite "x - e" maxDepth).1 _ _ hnext).1 [] _ [] _ rfl (.nil _) _ List.mem_cons_self
    (.ident "x" 1) depth v (.left .whole) hv

/-- The run of a fragment gets to a statement that is such, with the variables there. -/
def Arrives (s : Session) (fragment : String) (levels : Nat) (p : Environment → Node → Prop) :
    Prop :=
  ∃ done node later rest values env,
    parse (s.sourceWith fragment) = .complete (done ++ node :: later) rest ∧
      Runs s.settings.tolerance levels s.env done values env ∧ p env node

/-- The run executes a call that asks for too much: zeros with too many entries, or a count of rows,
columns or pivots that no double holds. -/
def Executes (s : Session) (fragment : String) (levels : Nat) (x : Excess) : Prop :=
  s.Arrives fragment levels fun env node => Reaches env s.settings.tolerance levels x node

section

variable {s : Session} {levels : Nat} {fragment : String}

end

end Session

end MatrixCalculator
