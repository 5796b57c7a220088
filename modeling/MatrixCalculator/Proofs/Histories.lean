import MatrixCalculator.Proofs.Sessions

namespace MatrixCalculator.Session

open Evaluation

inductive Action where
  | evaluate (fragment : String)
  | reset

def act (s : Session) : Action → Session
  | .evaluate fragment => (s.evaluate fragment).session
  | .reset => s.reset

def after (s : Session) (history : List Action) : Session := history.foldl act s

theorem after_concat (s : Session) (history : List Action) (action : Action) :
    s.after (history ++ [action]) = (s.after history).act action :=
  List.foldl_concat ..

theorem Ends.prompt_eq {settings : Settings} {levels : Nat} {env : Environment}
    {lines : List String} {later : List Node} {r : Reply}
    (h : Ends settings levels env lines later (.ok r)) :
    r.prompt = standbyPrompt := by
  cases h <;> rfl

theorem evaluate_of_malformed {s : Session} {fragment : String} {line column : Nat}
    {reason : Reason} (h : parse (s.sourceWith fragment) = .malformed line column reason)
    (levels : Nat) :
    ∃ e note, s.evaluate fragment levels =
      ⟨.ok (reply [Error.report e] true), s.dropPending, some note⟩ := by
  rw [sourceWith] at h
  rw [evaluate, pendingSource, h]
  exact ⟨_, _, rfl⟩

/-- A fragment is kept if the pending input is unfinished with it. Otherwise nothing is pending
after it, with or without a reply. -/
theorem evaluate_pending (s : Session) (fragment : String) :
    (parse (s.sourceWith fragment) = .incomplete ∧
      (s.evaluate fragment).reply = .ok ⟨"", pendingPrompt, false⟩ ∧
      (s.evaluate fragment).session = { s with buffer := s.buffer ++ [fragment] }) ∨
    (parse (s.sourceWith fragment) ≠ .incomplete ∧
      (∀ r, (s.evaluate fragment).reply = .ok r → r.prompt = standbyPrompt) ∧
      (s.evaluate fragment).session.buffer = []) := by
  cases hparse : parse (s.sourceWith fragment) with
  | incomplete => exact .inl ⟨rfl, evaluate_of_incomplete hparse maxDepth⟩
  | complete nodes rest =>
    obtain ⟨done, later, values, env, _, _, _, _, hsession, hends⟩ :=
      exists_run_ends hparse maxDepth
    refine .inr ⟨by simp, fun r hreply => ?_, by rw [hsession]; rfl⟩
    rw [hreply] at hends
    exact hends.prompt_eq
  | malformed line column reason =>
    obtain ⟨e, note, heval⟩ := evaluate_of_malformed hparse maxDepth
    rw [heval]
    refine .inr ⟨by simp, fun r hreply => ?_, rfl⟩
    obtain rfl := Except.ok.inj hreply
    rfl
  | broken b => exact absurd hparse (parse_ne_broken _ b)

/-- The session, which was idle as `start`, was then given the fragments, and waits for more. -/
structure Waits (start s : Session) (fragments : List String) : Prop where
  idle : start.isIdle = true
  busy : ∀ first, first ≠ [] → first <+: fragments →
    (start.after (first.map .evaluate)).isIdle = false
  buffer : s.buffer = fragments
  unfinished : ∀ first, first ≠ [] → first <+: fragments →
    parse ("\n".intercalate first) = .incomplete
  env : s.env = start.env

namespace Waits

theorem refl {s : Session} (h : s.buffer = []) : s.Waits s [] where
  idle := List.isEmpty_iff.mpr h
  busy _ hne hfirst := absurd (List.prefix_nil.mp hfirst) hne
  buffer := h
  unfinished _ hne hfirst := absurd (List.prefix_nil.mp hfirst) hne
  env := rfl

theorem concat {start s : Session} {fragments : List String} {fragment : String}
    (h : start.Waits s fragments) (hs : s = start.after (fragments.map .evaluate))
    (hparse : parse (s.sourceWith fragment) = .incomplete) :
    start.Waits (s.evaluate fragment).session (fragments ++ [fragment]) := by
  obtain ⟨_, hsession⟩ := evaluate_of_incomplete hparse maxDepth
  have hbuffer : (s.evaluate fragment).session.buffer = fragments ++ [fragment] := by
    rw [hsession, ← h.buffer]
  refine ⟨h.idle, fun first hne hfirst => ?_, hbuffer, fun first hne hfirst => ?_, ?_⟩
  · rcases List.prefix_concat_iff.mp hfirst with rfl | hfirst
    · rw [List.map_append, List.map_singleton, after_concat, ← hs, act, isIdle, hbuffer]
      simp
    · exact h.busy first hne hfirst
  · rcases List.prefix_concat_iff.mp hfirst with rfl | hfirst
    · rw [← h.buffer]
      exact hparse
    · exact h.unfinished first hne hfirst
  · rw [hsession]
    exact h.env

end Waits

/-- Every history ends with the fragments that are pending after it. -/
theorem exists_waits (settings : Settings) (history : List Action) :
    ∃ earlier fragments, history = earlier ++ fragments.map .evaluate ∧
      Waits ((new settings).after earlier) ((new settings).after history) fragments := by
  induction history using List.reverseRecOn with
  | nil => exact ⟨[], [], rfl, .refl rfl⟩
  | append_singleton history action ih =>
    obtain ⟨earlier, fragments, hhistory, hwaits⟩ := ih
    -- After an action that leaves nothing pending the session is idle, so its input starts anew.
    have hfresh : ((new settings).after (history ++ [action])).buffer = [] → ∃ earlier fragments,
        history ++ [action] = earlier ++ fragments.map .evaluate ∧
          Waits ((new settings).after earlier) ((new settings).after (history ++ [action]))
            fragments :=
      fun hbuffer => ⟨history ++ [action], [], (List.append_nil _).symm, .refl hbuffer⟩
    rw [after_concat] at hfresh ⊢
    cases action with
    | reset => exact hfresh rfl
    | evaluate fragment =>
      rcases ((new settings).after history).evaluate_pending fragment with
        ⟨hparse, _⟩ | ⟨_, _, hbuffer⟩
      · refine ⟨earlier, fragments ++ [fragment], ?_, hwaits.concat ?_ hparse⟩
        · rw [hhistory, List.append_assoc, List.map_append]
          rfl
        · rw [hhistory, after, List.foldl_append]
          rfl
      · exact hfresh hbuffer

/-- After any history: pending input is what was given since the session was last idle, it is
unfinished and so is every start of it, and the variables are those from then. The prompt of a reply
is that of the session after it, and the pending one exactly if the input was unfinished. A fragment
without a reply leaves nothing pending. -/
theorem pending_after (settings : Settings) (history : List Action) :
    (((new settings).after history).buffer ≠ [] → ∃ earlier fragments,
      history = earlier ++ fragments.map .evaluate ∧
      Waits ((new settings).after earlier) ((new settings).after history) fragments ∧
      ((new settings).after history).pendingSource = "\n".intercalate fragments ∧
      parse ((new settings).after history).pendingSource = .incomplete) ∧
    (∀ fragment r, (((new settings).after history).evaluate fragment).reply = .ok r →
      r.prompt = (((new settings).after history).evaluate fragment).session.prompt ∧
      (r.prompt = pendingPrompt ↔
        parse (((new settings).after history).sourceWith fragment) = .incomplete)) ∧
    ∀ fragment f, (((new settings).after history).evaluate fragment).reply = .error f →
      (((new settings).after history).evaluate fragment).session.buffer = [] := by
  refine ⟨fun hbuffer => ?_, fun fragment r hreply => ?_, fun fragment f hreply => ?_⟩
  · obtain ⟨earlier, fragments, hhistory, hwaits⟩ := exists_waits settings history
    have hsource : ((new settings).after history).pendingSource = "\n".intercalate fragments := by
      rw [pendingSource, hwaits.buffer]
    refine ⟨earlier, fragments, hhistory, hwaits, hsource, ?_⟩
    rw [hsource]
    rw [hwaits.buffer] at hbuffer
    exact hwaits.unfinished fragments hbuffer List.prefix_rfl
  · rcases ((new settings).after history).evaluate_pending fragment with
      ⟨hparse, hwaiting, hsession⟩ | ⟨hparse, hprompt, hbuffer⟩
    · rw [hreply] at hwaiting
      obtain rfl := Except.ok.inj hwaiting
      rw [hsession, prompt, isIdle]
      simp [hparse]
    · rw [hprompt r hreply, prompt, isIdle, hbuffer]
      exact ⟨rfl, by simp [hparse, standbyPrompt, pendingPrompt]⟩
  · rcases ((new settings).after history).evaluate_pending fragment with
      ⟨_, hwaiting, _⟩ | ⟨_, _, hbuffer⟩
    · rw [hreply] at hwaiting
      contradiction
    · exact hbuffer

/-- A matrix that is begun after a reset waits for the rest of its second row. -/
theorem pending_after_matrix : ∃ history : List Action,
    ((new .default).after history).buffer ≠ [] ∧ ∃ earlier fragments,
      history = earlier ++ fragments.map .evaluate ∧
      Waits ((new .default).after earlier) ((new .default).after history) fragments ∧
      ((new .default).after history).pendingSource = "\n".intercalate fragments ∧
      parse ((new .default).after history).pendingSource = .incomplete := by
  let s := ((new .default).evaluate "x = pi").session.reset
  have hfirst : parse (s.sourceWith "[pi;") = .incomplete := by
    show parse "[pi;" = _
    rw [parse_eq]
    cbv
  obtain ⟨_, hs⟩ := evaluate_of_incomplete hfirst maxDepth
  have hsecond : parse ((s.evaluate "[pi;").session.sourceWith "e,") = .incomplete := by
    rw [hs]
    show parse "[pi;\ne," = _
    rw [parse_eq]
    cbv
  obtain ⟨_, hs'⟩ := evaluate_of_incomplete hsecond maxDepth
  have hbuffer : ((new .default).after
      [.evaluate "x = pi", .reset, .evaluate "[pi;", .evaluate "e,"]).buffer ≠ [] := by
    show ((s.evaluate "[pi;").session.evaluate "e,").session.buffer ≠ []
    rw [hs']
    simp
  exact ⟨_, hbuffer, (pending_after _ _).1 hbuffer⟩

end MatrixCalculator.Session
