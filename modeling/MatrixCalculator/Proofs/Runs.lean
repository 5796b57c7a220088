import MatrixCalculator.Proofs.Fragments
import MatrixCalculator.Proofs.Soundness

namespace MatrixCalculator

namespace Environment

def update (env : Environment) (writes : List (String × Value)) : Environment :=
  writes.foldl (fun env w => env.set w.1 w.2) env

theorem update_append (env : Environment) (first second : List (String × Value)) :
    env.update (first ++ second) = (env.update first).update second :=
  List.foldl_append

def lastWrite? (writes : List (String × Value)) (name : String) : Option Value :=
  (writes.reverse.find? fun w => w.1 == name).map Prod.snd

theorem find?_eq_of_get? {env : Environment} {name : String} {v : Value}
    (h : env.get? name = some v) : env.bindings.find? (fun b => b.1 == name) = some (name, v) := by
  obtain ⟨b, hb, rfl⟩ := Option.map_eq_some_iff.mp h
  have hname : b.1 = name := by simpa using List.find?_some hb
  rw [hb, ← hname]

theorem find?_replace (bindings : List (String × Value)) (name other : String) (v : Value) :
    (bindings.map fun b => if b.1 == name then (name, v) else b).find? (fun b => b.1 == other) =
      (bindings.find? fun b => b.1 == other).map fun b =>
        if b.1 == name then (name, v) else b := by
  rw [List.find?_map]
  congr 2
  funext b
  by_cases h : b.1 = name <;> simp [h]

theorem get?_set (env : Environment) (name : String) (v : Value) (other : String) :
    (env.set name v).get? other = if other = name then some v else env.get? other := by
  unfold set
  split
  · rename_i hhas
    obtain ⟨w, hw⟩ := Option.isSome_iff_exists.mp hhas
    rw [get?, find?_replace]
    by_cases h : other = name
    · subst h
      rw [find?_eq_of_get? hw]
      simp
    · rw [if_neg h]
      cases hother : env.get? other with
      | none =>
        rw [Option.map_eq_none_iff.mp hother]
        rfl
      | some w' =>
        rw [find?_eq_of_get? hother]
        simp [h]
  · rename_i hhas
    have hnone : env.get? name = none := by simpa [has] using hhas
    rw [get?, List.find?_append]
    by_cases h : other = name
    · subst h
      rw [Option.map_eq_none_iff.mp hnone]
      simp
    · have hne : (name == other) = false := by simpa using Ne.symm h
      rw [if_neg h, List.find?_singleton, hne]
      simp [get?]

theorem get?_update (env : Environment) (writes : List (String × Value)) (name : String) :
    (env.update writes).get? name = (lastWrite? writes name).or (env.get? name) := by
  induction writes generalizing env with
  | nil => rfl
  | cons w writes ih =>
    have hcons : env.update (w :: writes) = (env.set w.1 w.2).update writes := rfl
    rw [hcons, ih, get?_set, lastWrite?, lastWrite?, List.reverse_cons, List.find?_append]
    cases hlater : writes.reverse.find? fun w => w.1 == name with
    | some w' => rfl
    | none =>
      by_cases h : name = w.1
      · simp [h]
      · have hne : (w.1 == name) = false := by simpa using Ne.symm h
        simp [h, hne]

theorem Sound.set {env : Environment} {name : String} {v : Value} (h : env.Sound) (hv : v.Sound) :
    (env.set name v).Sound := by
  unfold Environment.set
  split
  · intro b hb
    obtain ⟨b', hb', rfl⟩ := List.mem_map.mp hb
    split
    · exact hv
    · exact h b' hb'
  · exact List.forall_mem_append.mpr ⟨h, List.forall_mem_singleton.mpr hv⟩

end Environment

namespace Node

def targets : Node → List String
  | .assign name value _ => name :: value.targets
  | _ => []

def body : Node → Node
  | .assign _ value _ => value.body
  | node => node

/-- The bindings of a statement with this value; the name next to the expression is bound first. -/
def writes (node : Node) (v : Value) : List (String × Value) :=
  node.targets.reverse.map fun name => (name, v)

theorem targets_of_isAssign_eq_false {node : Node} (h : node.isAssign = false) :
    node.targets = [] ∧ node.body = node := by
  cases node with
  | assign name value line => contradiction
  | _ => exact ⟨rfl, rfl⟩

theorem IsExpression.isAssign_eq_false {node : Node} (h : node.IsExpression) :
    node.isAssign = false := by
  cases h <;> rfl

theorem IsStatement.body {node : Node} (h : node.IsStatement) : node.body.IsExpression := by
  induction h with
  | assign hname hvalue ih => exact ih
  | bare h =>
    rw [(targets_of_isAssign_eq_false h.isAssign_eq_false).2]
    exact h

theorem Part.of_body {leaf node : Node} (h : Part leaf node.body) : Part leaf node := by
  induction node using body.induct with
  | case1 name value line ih => exact .value (ih h)
  | case2 node hassign =>
    rw [body] at h
    · exact h
    · exact hassign

end Node

/-- The name in front is bound after those behind it. -/
theorem Environment.update_writes_assign (env : Environment) (name : String) (value : Node)
    (line : Nat) (v : Value) : env.update ((Node.assign name value line).writes v) =
      (env.update (value.writes v)).set name v := by
  have hwrites : (Node.assign name value line).writes v = value.writes v ++ [(name, v)] := by
    simp [Node.writes, Node.targets]
  rw [hwrites, update_append]
  rfl

namespace Evaluation

variable (env : Environment) (tolerance : Float)

/-- The value of a statement, which is that of the expression behind its names. -/
def result (depth : Nat) (node : Node) : Except Failure Value :=
  if node.targets.length < depth then eval env tolerance (depth - 1 - node.targets.length) node.body
  else fault .nestedEvaluation

theorem result_assign (depth : Nat) (name : String) (value : Node) (line : Nat) :
    result env tolerance (depth + 1) (.assign name value line) =
      result env tolerance depth value := by
  have hlength : (Node.assign name value line).targets.length = value.targets.length + 1 := rfl
  have hdepth : depth + 1 - 1 - (value.targets.length + 1) = depth - 1 - value.targets.length := by
    omega
  rw [result, result, hlength, hdepth]
  by_cases h : value.targets.length < depth
  · rw [if_pos h, if_pos (by omega)]
    rfl
  · rw [if_neg h, if_neg (by omega)]

theorem result_of_isAssign_eq_false {node : Node} (h : node.isAssign = false) (depth : Nat) :
    result env tolerance (depth + 1) node = eval env tolerance depth node := by
  obtain ⟨htargets, hbody⟩ := Node.targets_of_isAssign_eq_false h
  rw [result, htargets, hbody, if_pos (by simp)]
  rfl

theorem map_eq_bind {α β : Type} {r : Except Failure α} (f : α → β) :
    (r >>= fun a => pure (f a)) = r.map f := by
  cases r <;> rfl

/-- A statement binds all its names to its value, or none. -/
theorem execute_eq (depth : Nat) (node : Node) :
    execute env tolerance depth node =
      (result env tolerance depth node).map fun v => (v, env.update (node.writes v)) := by
  induction depth generalizing node with
  | zero =>
    rw [execute, result, if_neg (Nat.not_lt_zero _)]
    rfl
  | succ depth ih =>
    cases node with
    | assign name value line =>
      rw [execute, ih, result_assign]
      cases result env tolerance depth value with
      | error e => rfl
      | ok v =>
        show Except.ok (v, (env.update (value.writes v)).set name v) =
          .ok (v, env.update ((Node.assign name value line).writes v))
        rw [Environment.update_writes_assign]
    | _ =>
      rw [execute, result_of_isAssign_eq_false _ _ rfl]
      · exact map_eq_bind _
      · simp

/-- The evaluation of the statement, with so many levels, gets as far as a call that asks for too
much. -/
def Reaches (levels : Nat) (x : Excess) (node : Node) : Prop :=
  node.targets.length < levels ∧
    ComesTo env tolerance x (levels - 1 - node.targets.length) node.body

theorem yields_result {node : Node} (h : node.IsStatement) (levels : Nat) :
    Yields (fun v => env.Sound → v.Sound)
      (Failure.Foreseen (ZeroCounts tolerance ∨ LogVanishes) fun x =>
        Reaches env tolerance levels x node)
      (result env tolerance levels node) := by
  unfold result
  split
  · rename_i htargets
    exact (behaves h.body _).mono (fun _ hv => hv) fun e he => he.mono id fun x hx =>
      ⟨htargets, hx⟩
  · exact Failure.Foreseen.nestedEvaluation

variable {env tolerance}

end Evaluation

open Evaluation

/-- Statements that are executed one after the other, with their values and the variables after
them. -/
inductive Runs (tolerance : Float) (levels : Nat) :
    Environment → List Node → List Value → Environment → Prop where
  | nil (env : Environment) : Runs tolerance levels env [] [] env
  | cons {env env' : Environment} {node : Node} {nodes : List Node} {v : Value}
      {values : List Value} (h : result env tolerance levels node = .ok v)
      (later : Runs tolerance levels (env.update (node.writes v)) nodes values env') :
      Runs tolerance levels env (node :: nodes) (v :: values) env'

/-- The bindings of statements with these values, in the order of their execution. -/
def writes (nodes : List Node) (values : List Value) : List (String × Value) :=
  (nodes.zip values).flatMap fun p => p.1.writes p.2

namespace Runs

variable {tolerance : Float} {levels : Nat} {env env' : Environment} {nodes : List Node}
  {values : List Value}

theorem env_eq (h : Runs tolerance levels env nodes values env') :
    env' = env.update (writes nodes values) := by
  induction h with
  | nil env => rfl
  | @cons env env' node nodes v values h later ih =>
    have hwrites : writes (node :: nodes) (v :: values) = node.writes v ++ writes nodes values :=
      rfl
    rw [hwrites, Environment.update_append, ← ih]

end Runs

/-- The error that is shown for a failure in a statement on the line; other faults are not shown. -/
def Failure.shown? (line : Nat) : Failure → Option Error
  | .error e => some e
  | .fault .nestedEvaluation => some ⟨.tooDeep, some line⟩
  | .fault _ => none

theorem Failure.fault_of_shown?_eq_none {line : Nat} {failure : Failure}
    (h : failure.shown? line = none) : ∃ f, failure = .fault f ∧ f ≠ .nestedEvaluation := by
  cases failure with
  | error e => contradiction
  | fault f =>
    refine ⟨f, rfl, ?_⟩
    rintro rfl
    contradiction

theorem Failure.Foreseen.isLine {zero : Prop} {large : Excess → Prop} {line : Nat}
    {failure : Failure} {e : Error} (h : failure.Foreseen zero large)
    (he : failure.shown? line = some e) : e.cause.IsLine := by
  cases h with
  | error h => exact Option.some.inj he ▸ h
  | zeroPivot h => contradiction
  | @excess x h => cases x <;> contradiction
  | nestedEvaluation =>
    obtain rfl := Option.some.inj he
    show OneLine "Expression nested too deeply to evaluate"
    decide

namespace Session

/-- What comes of statements, behind those that gave the lines. -/
inductive Ends (settings : Settings) (levels : Nat) (env : Environment)
    (lines : List String) : List Node → Except Fault Reply → Prop where
  | finished : Ends settings levels env lines [] (.ok (reply lines false))
  | failed {node : Node} {later : List Node} {failure : Failure} {e : Error}
      (h : result env settings.tolerance levels node = .error failure)
      (he : failure.shown? node.line = some e) :
      Ends settings levels env lines (node :: later) (.ok (reply (lines ++ [e.report]) true))
  | faulted {node : Node} {later : List Node} {f : Fault}
      (h : result env settings.tolerance levels node = .error (.fault f))
      (hf : f ≠ .nestedEvaluation) : Ends settings levels env lines (node :: later) (.error f)
  | unwritten {later : List Node} (h : Value.maxPrecision < settings.precision) :
      Ends settings levels env lines later (.error (.digitCount settings.precision))

section Steps

variable {s : Session} {levels : Nat} {lines : List String} {node : Node} {nodes : List Node}

theorem runFrom_of_ok {v : Value}
    (h : result s.env s.settings.tolerance levels node = .ok v)
    (hprecision : s.settings.precision ≤ Value.maxPrecision) :
    s.runFrom lines (node :: nodes) levels = runFrom { s with env := s.env.update (node.writes v) }
      (lines ++ [v.render s.settings.precision]) nodes levels := by
  have htext : v.render? s.settings.precision = .ok (v.render s.settings.precision) :=
    if_neg (by omega)
  rw [runFrom, execute_eq, h]
  dsimp only [Except.map]
  rw [htext]

theorem runFrom_of_unwritten {v : Value}
    (h : result s.env s.settings.tolerance levels node = .ok v)
    (hprecision : Value.maxPrecision < s.settings.precision) :
    s.runFrom lines (node :: nodes) levels = ⟨.error (.digitCount s.settings.precision),
      { s with env := s.env.update (node.writes v) }, none⟩ := by
  have htext : v.render? s.settings.precision = .error (.digitCount s.settings.precision) :=
    if_pos (by omega)
  rw [runFrom, execute_eq, h]
  dsimp only [Except.map]
  rw [htext]

theorem runFrom_of_shown {failure : Failure} {e : Error}
    (h : result s.env s.settings.tolerance levels node = .error failure)
    (he : failure.shown? node.line = some e) :
    s.runFrom lines (node :: nodes) levels = s.failing lines e := by
  rw [runFrom, execute_eq, h]
  unfold Failure.shown? at he
  split at he
  · obtain rfl := Option.some.inj he
    rfl
  · obtain rfl := Option.some.inj he
    rfl
  · contradiction

theorem runFrom_of_fault {f : Fault}
    (h : result s.env s.settings.tolerance levels node = .error (.fault f))
    (hf : f ≠ .nestedEvaluation) :
    s.runFrom lines (node :: nodes) levels = ⟨.error f, s, none⟩ := by
  rw [runFrom, execute_eq, h]
  cases f with
  | nestedEvaluation => exact absurd rfl hf
  | _ => rfl

end Steps

/-- All that a run can do: it executes some of the statements and then ends. -/
theorem runFrom_cases (s : Session) (lines : List String) (nodes : List Node) (levels : Nat) :
    ∃ done later values env, nodes = done ++ later ∧
      Runs s.settings.tolerance levels s.env done values env ∧
      (s.runFrom lines nodes levels).session = { s with env } ∧
      Ends s.settings levels env (lines ++ values.map (·.render s.settings.precision)) later
        (s.runFrom lines nodes levels).reply := by
  induction nodes generalizing s lines with
  | nil =>
    refine ⟨[], [], [], s.env, rfl, .nil s.env, rfl, ?_⟩
    rw [List.map_nil, List.append_nil]
    exact .finished
  | cons node nodes ih =>
    cases hresult : result s.env s.settings.tolerance levels node with
    | ok v =>
      by_cases hprecision : s.settings.precision ≤ Value.maxPrecision
      · obtain ⟨done, later, values, env, rfl, hruns, hsession, hends⟩ :=
          ih { s with env := s.env.update (node.writes v) }
            (lines ++ [v.render s.settings.precision])
        rw [runFrom_of_ok hresult hprecision]
        refine ⟨node :: done, later, v :: values, env, rfl, .cons hresult hruns, hsession, ?_⟩
        rw [List.append_assoc] at hends
        exact hends
      · rw [runFrom_of_unwritten hresult (by omega)]
        exact ⟨[node], nodes, [v], _, rfl, .cons hresult (.nil _), rfl, .unwritten (by omega)⟩
    | error failure =>
      refine ⟨[], node :: nodes, [], s.env, rfl, .nil s.env, ?_⟩
      rw [List.map_nil, List.append_nil]
      cases hshown : failure.shown? node.line with
      | some e =>
        rw [runFrom_of_shown hresult hshown]
        exact ⟨rfl, .failed hresult hshown⟩
      | none =>
        obtain ⟨f, rfl, hf⟩ := Failure.fault_of_shown?_eq_none hshown
        rw [runFrom_of_fault hresult hf]
        exact ⟨rfl, .faulted hresult hf⟩

/-- What is shown behind the lines: nothing if all statements are done, and otherwise one line for
the error of the next. -/
structure Reports (settings : Settings) (levels : Nat) (env : Environment) (later : List Node)
    (report : List String) : Prop where
  oneLine : ∀ line ∈ report, OneLine line
  nil : later = [] → report = []
  cons : ∀ node rest, later = node :: rest → ∃ failure e,
    result env settings.tolerance levels node = .error failure ∧
      failure.shown? node.line = some e ∧ report = [e.cause.kind ++ ": " ++ e.message]

theorem Ends.exists_reports {settings : Settings} {env : Environment} {levels : Nat}
    {lines : List String} {later : List Node} {r : Reply}
    (h : Ends settings levels env lines later (.ok r))
    (hlater : ∀ node ∈ later, node.IsStatement) :
    ∃ report, Reports settings levels env later report ∧
      r.output = "\n".intercalate (lines ++ report) ∧ (r.isError = true ↔ later ≠ []) := by
  cases h with
  | finished =>
    refine ⟨[], ⟨by simp, fun _ => rfl, by simp⟩, ?_, by simp [reply]⟩
    rw [List.append_nil]
    rfl
  | @failed node rest failure e hresult he =>
    have hyields := yields_result env settings.tolerance (hlater node List.mem_cons_self) levels
    rw [hresult] at hyields
    have hline : OneLine e.report := Error.oneLine_report (Failure.Foreseen.isLine hyields he)
    refine ⟨[e.report], ⟨by simpa using hline, by simp, ?_⟩, rfl, by simp [reply]⟩
    intro node' rest' hnode
    obtain ⟨rfl, rfl⟩ := List.cons.inj hnode
    exact ⟨failure, e, hresult, he, rfl⟩

def sourceWith (s : Session) (fragment : String) : String :=
  "\n".intercalate (s.buffer ++ [fragment])

variable {s : Session} {fragment : String} {levels : Nat}

theorem evaluate_of_readable {nodes : List Node} {rest : List Token}
    (h : parse (s.sourceWith fragment) = .complete nodes rest) :
    s.evaluate fragment levels = s.dropPending.runFrom [] nodes levels := by
  rw [sourceWith] at h
  rw [evaluate, pendingSource, h]
  rfl

theorem evaluate_of_unreadable
    (h : ∀ nodes rest, parse (s.sourceWith fragment) ≠ .complete nodes rest) (levels : Nat) :
    (s.evaluate fragment levels).session.env = s.env ∧
      (s.evaluate fragment levels).session.settings = s.settings ∧
      ∃ r, (s.evaluate fragment levels).reply = .ok r ∧ (r.isError = false → r.output = "") := by
  cases hparse : parse (s.sourceWith fragment) with
  | complete nodes rest => exact absurd hparse (h nodes rest)
  | incomplete =>
    obtain ⟨hreply, hsession⟩ := evaluate_of_incomplete hparse levels
    rw [hsession]
    exact ⟨rfl, rfl, _, hreply, fun _ => rfl⟩
  | malformed line column reason =>
    rw [sourceWith] at hparse
    rw [evaluate, pendingSource, hparse]
    exact ⟨rfl, rfl, _, rfl, by simp [reply]⟩
  | broken b => exact absurd hparse (parse_ne_broken _ b)

theorem exists_run_ends {nodes : List Node} {rest : List Token}
    (hparse : parse (s.sourceWith fragment) = .complete nodes rest) (levels : Nat) :
    ∃ done later values env, nodes = done ++ later ∧ (∀ node ∈ done, node.IsStatement) ∧
      (∀ node ∈ later, node.IsStatement) ∧ Runs s.settings.tolerance levels s.env done values env ∧
      (s.evaluate fragment levels).session = { s.dropPending with env } ∧
      Ends s.settings levels env (values.map (·.render s.settings.precision)) later
        (s.evaluate fragment levels).reply := by
  have hstatements := isStatement_of_parse hparse
  obtain ⟨done, later, values, env, rfl, hruns, hsession, hends⟩ :=
    s.dropPending.runFrom_cases [] nodes levels
  obtain ⟨hdone, hlater⟩ := List.forall_mem_append.mp hstatements
  rw [← evaluate_of_readable hparse] at hsession hends
  exact ⟨done, later, values, env, rfl, hdone, hlater, hruns, hsession, hends⟩

theorem exists_run {nodes : List Node} {rest : List Token} {r : Reply}
    (hparse : parse (s.sourceWith fragment) = .complete nodes rest)
    (hreply : (s.evaluate fragment levels).reply = .ok r) :
    ∃ done later values report, nodes = done ++ later ∧
      Runs s.settings.tolerance levels s.env done values (s.evaluate fragment levels).session.env ∧
      Reports s.settings levels (s.evaluate fragment levels).session.env later report ∧
      r.output = "\n".intercalate (values.map (·.render s.settings.precision) ++ report) ∧
      (r.isError = true ↔ later ≠ []) := by
  obtain ⟨done, later, values, env, rfl, _, hlater, hruns, hsession, hends⟩ :=
    exists_run_ends hparse levels
  rw [hreply] at hends
  obtain ⟨report, hreport, houtput, herror⟩ := hends.exists_reports hlater
  rw [hsession]
  exact ⟨done, later, values, report, rfl, hruns, hreport, houtput, herror⟩

/-- A fragment commits what its statements assign, up to the first that fails. A text that cannot be
read or is not finished commits nothing. Of a chain of assignments all names get the value, or none
does. The output has a line for every value and then, if a statement failed, one for the error. -/
theorem evaluate_commits {r : Reply} (hreply : (s.evaluate fragment levels).reply = .ok r) :
    (parse (s.sourceWith fragment) = .incomplete ∨
        (∃ line column reason, parse (s.sourceWith fragment) = .malformed line column reason) →
      (s.evaluate fragment levels).session.env = s.env) ∧
    ∀ nodes rest, parse (s.sourceWith fragment) = .complete nodes rest →
      ∃ done later values report, nodes = done ++ later ∧
        Runs s.settings.tolerance levels s.env done values
          (s.evaluate fragment levels).session.env ∧
        (s.evaluate fragment levels).session.env = s.env.update (writes done values) ∧
        (∀ name, (s.evaluate fragment levels).session.env.get? name =
          (Environment.lastWrite? (writes done values) name).or (s.env.get? name)) ∧
        Reports s.settings levels (s.evaluate fragment levels).session.env later report ∧
        (∀ v ∈ values, OneLine (v.render s.settings.precision)) ∧
        r.output = "\n".intercalate (values.map (·.render s.settings.precision) ++ report) ∧
        (r.isError = true ↔ later ≠ []) := by
  refine ⟨fun hparse => (evaluate_of_unreadable (fun nodes rest hcomplete => ?_) levels).1,
    fun nodes rest hparse => ?_⟩
  · rw [hcomplete] at hparse
    rcases hparse with hparse | ⟨line, column, reason, hparse⟩ <;> contradiction
  · obtain ⟨done, later, values, report, hnodes, hruns, hreport, houtput, herror⟩ :=
      exists_run hparse hreply
    refine ⟨done, later, values, report, hnodes, hruns, hruns.env_eq, fun name => ?_, hreport,
      fun v _ => v.oneLine_render _, houtput, herror⟩
    rw [hruns.env_eq]
    exact Environment.get?_update _ _ _

/-- The first chain is committed, and the second is not although its right side alone fails. -/
theorem evaluate_commits_chain : ∃ r : Reply,
    ((new .default).evaluate "x = y = pi\nx = z = q").reply = .ok r ∧ r.isError = true ∧
      ∃ done later values report, [Node.assign "x" (.assign "y" (.ident "pi" 1) 1) 1,
          .assign "x" (.assign "z" (.ident "q" 2) 2) 2] = done ++ later ∧
        Runs Settings.default.tolerance maxDepth constants done values
          ((new .default).evaluate "x = y = pi\nx = z = q").session.env ∧
        ((new .default).evaluate "x = y = pi\nx = z = q").session.env =
          constants.update (writes done values) ∧
        (∀ name, ((new .default).evaluate "x = y = pi\nx = z = q").session.env.get? name =
          (Environment.lastWrite? (writes done values) name).or (constants.get? name)) ∧
        Reports .default maxDepth ((new .default).evaluate "x = y = pi\nx = z = q").session.env
          later report ∧
        (∀ v ∈ values, OneLine (v.render Settings.default.precision)) ∧
        r.output = "\n".intercalate (values.map (·.render Settings.default.precision) ++ report) ∧
        (r.isError = true ↔ later ≠ []) := by
  have hparse : parse ((new .default).sourceWith "x = y = pi\nx = z = q") =
      .complete [.assign "x" (.assign "y" (.ident "pi" 1) 1) 1,
        .assign "x" (.assign "z" (.ident "q" 2) 2) 2] [] := by
    show parse "x = y = pi\nx = z = q" = _
    rw [parse_eq]
    cbv
  obtain ⟨r, hreply, herror⟩ : ∃ r : Reply,
      ((new .default).evaluate "x = y = pi\nx = z = q").reply = .ok r ∧ r.isError = true := by
    rw [evaluate_of_readable hparse]
    exact ⟨_, rfl, rfl⟩
  exact ⟨r, hreply, herror, (evaluate_commits hreply).2 _ _ hparse⟩

end Session

end MatrixCalculator
