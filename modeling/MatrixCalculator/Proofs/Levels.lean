import MatrixCalculator.Proofs.Chains
import MatrixCalculator.Proofs.Histories
import MatrixCalculator.Terminal.Listing

namespace MatrixCalculator

namespace Evaluation

variable {env : Environment} {tolerance : Float} {levels levels' : Nat}

theorem matches_result (hle : levels ≤ levels') (node : Node) :
    Matches True (result env tolerance levels node) (result env tolerance levels' node) := by
  unfold result
  by_cases h : node.targets.length < levels
  · rw [if_pos h, if_pos (by omega)]
    exact matches_of_le (by omega) node.body
  · rw [if_neg h]
    exact .inr ⟨trivial, rfl⟩

theorem execute_of_le {node : Node} {r : Value × Environment} (hle : levels ≤ levels')
    (h : execute env tolerance levels node = .ok r) :
    execute env tolerance levels' node = .ok r := by
  rw [execute_eq] at h ⊢
  rcases matches_result hle node with heq | ⟨-, hfault⟩
  · rwa [← heq]
  · rw [hfault] at h
    contradiction

end Evaluation

open Evaluation

namespace Session

variable {s : Session} {levels levels' : Nat}

/-- The run of the fragment gets to a statement that takes more levels. -/
def Exhausts (s : Session) (fragment : String) (levels : Nat) : Prop :=
  s.Arrives fragment levels fun env node =>
    result env s.settings.tolerance levels node = fault .nestedEvaluation

theorem executed?_of_le {nodes : List Node} {texts : List String} {s' : Session}
    (hle : levels ≤ levels') (h : s.executed? nodes levels = some (texts, s')) :
    s.executed? nodes levels' = some (texts, s') := by
  induction nodes generalizing s texts with
  | nil => exact h
  | cons node nodes ih =>
    obtain ⟨v, env, text, later, hv, htext, hlater, rfl⟩ := executed?_cons h
    simp only [executed?, execute?, execute_of_le hle hv, htext, ih hlater, Except.toOption,
      Option.bind_some, Option.map_some]

theorem runFrom_of_le {nodes : List Node} (hle : levels ≤ levels') (lines : List String)
    (h : ∀ done node later values env, nodes = done ++ node :: later →
      Runs s.settings.tolerance levels s.env done values env →
        result env s.settings.tolerance levels node ≠ fault .nestedEvaluation) :
    s.runFrom lines nodes levels' = s.runFrom lines nodes levels := by
  induction nodes generalizing s lines with
  | nil => rw [runFrom, runFrom]
  | cons node nodes ih =>
    have heq : result s.env s.settings.tolerance levels node =
        result s.env s.settings.tolerance levels' node :=
      (matches_result hle node).resolve_right fun hfault =>
        h [] node nodes [] s.env rfl (.nil s.env) hfault.2
    rw [runFrom, runFrom, execute_eq, execute_eq, ← heq]
    cases hresult : result s.env s.settings.tolerance levels node with
    | error failure =>
      rcases failure with _ | f
      · rfl
      · cases f <;> rfl
    | ok v =>
      dsimp only [Except.map]
      cases v.render? s.settings.precision with
      | error f => rfl
      | ok text =>
        refine ih _ fun done next later values env hnodes hruns => ?_
        exact h (node :: done) next later (v :: values) env (by rw [hnodes]; rfl)
          (.cons hresult hruns)

/-- More levels change nothing, unless a statement takes more than there were. -/
theorem evaluate_of_le {fragment : String} (hle : levels ≤ levels')
    (h : ¬s.Exhausts fragment levels) :
    s.evaluate fragment levels' = s.evaluate fragment levels := by
  cases hparse : parse (s.sourceWith fragment) with
  | complete nodes rest =>
    rw [evaluate_of_readable hparse, evaluate_of_readable hparse]
    refine runFrom_of_le hle [] fun done node later values env hnodes hruns hfault => h ?_
    exact ⟨done, node, later, rest, values, env, hnodes ▸ hparse, hruns, hfault⟩
  | _ =>
    rw [sourceWith] at hparse
    rw [evaluate, evaluate, pendingSource, hparse]
    rfl

/-- None of the fragments takes more levels, one given after the other. -/
def Suffices (s : Session) (fragments : List String) (levels : Nat) : Prop :=
  ∀ before fragment later, fragments = before ++ fragment :: later →
    ¬(s.submit before levels).2.Exhausts fragment levels

/-- Two numbers of levels that are the same for the fragments: they are equal, or the smaller one
suffices. -/
def Indifferent (s : Session) (fragments : List String) (levels levels' : Nat) : Prop :=
  levels ≠ levels' → s.Suffices fragments (min levels levels')

namespace Suffices

variable {fragment : String} {fragments : List String}

theorem head (h : s.Suffices (fragment :: fragments) levels) : ¬s.Exhausts fragment levels :=
  h [] fragment fragments rfl

theorem tail (h : s.Suffices (fragment :: fragments) levels) :
    (s.evaluate fragment levels).session.Suffices fragments levels :=
  fun before next later hfragments => h (fragment :: before) next later (by rw [hfragments]; rfl)

end Suffices

namespace Indifferent

variable {fragment : String} {fragments : List String}

theorem tail (h : s.Indifferent (fragment :: fragments) levels levels') :
    (s.evaluate fragment levels).session.Indifferent fragments levels levels' := by
  intro hne
  rw [evaluate_of_le (Nat.min_le_left levels levels') (h hne).head]
  exact (h hne).tail

end Indifferent

end Session

namespace Node

theorem below?_succ {depth : Nat} {node : Node} (h : node.below? depth = none) :
    node.below? (depth + 1) = none := by
  induction depth generalizing node with
  | zero => contradiction
  | succ depth ih =>
    cases node with
    | neg operand line | assign name value line => exact ih h
    | binary op left right line =>
      rw [below?, Option.orElse_eq_none] at h ⊢
      exact ⟨ih h.1, ih h.2⟩
    | matrix rows line =>
      refine List.findSome?_eq_none_iff.mpr fun row hrow => ?_
      refine List.findSome?_eq_none_iff.mpr fun e he => ih ?_
      exact List.findSome?_eq_none_iff.mp (List.findSome?_eq_none_iff.mp h row hrow) e he
    | call name args line =>
      exact List.findSome?_eq_none_iff.mpr fun e he => ih (List.findSome?_eq_none_iff.mp h e he)
    | index target indices line =>
      rw [below?, Option.orElse_eq_none] at h ⊢
      exact ⟨ih h.1, List.findSome?_eq_none_iff.mpr fun e he =>
        ih (List.findSome?_eq_none_iff.mp h.2 e he)⟩
    | _ => rfl

theorem below?_of_le {depth depth' : Nat} {node : Node} (hle : depth ≤ depth')
    (h : node.below? depth = none) : node.below? depth' = none := by
  induction hle with
  | refl => exact h
  | step _ ih => exact below?_succ ih

end Node

end MatrixCalculator
