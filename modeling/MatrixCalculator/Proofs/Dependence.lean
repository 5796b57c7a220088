import Mathlib
import MatrixCalculator.Proofs.Chains
import MatrixCalculator.Proofs.Runs

namespace MatrixCalculator

/-- The name stands in the tree as a variable. Names of functions and assigned names do not
count. -/
def Node.Mentions (node : Node) (name : String) : Prop := ∃ line, Part (.ident name line) node

/-- The same value or the same lack of one under every name that the tree mentions. -/
def Environment.AgreeOn (node : Node) (env₁ env₂ : Environment) : Prop :=
  ∀ name, node.Mentions name → env₁.get? name = env₂.get? name

theorem Environment.AgreeOn.part {part node : Node} {env₁ env₂ : Environment}
    (h : AgreeOn node env₁ env₂)
    (hpart : ∀ {leaf : Node}, Node.Part leaf part → Node.Part leaf node) :
    AgreeOn part env₁ env₂ :=
  fun name hname => h name (hname.imp fun _ => hpart)

/-- A statement writes its value under every name that it assigns, however often. -/
theorem Environment.get?_update_writes (env : Environment) (node : Node) (v : Value)
    (name : String) : (env.update (node.writes v)).get? name =
      if name ∈ node.targets then some v else env.get? name := by
  induction node using Node.targets.induct with
  | case1 target value line ih =>
    rw [update_writes_assign, get?_set, ih, Node.targets]
    by_cases h : name = target <;> simp [h]
  | case2 node hassign =>
    have htargets : node.targets = [] := by
      rw [Node.targets]
      exact hassign
    simp [Node.writes, htargets, update]

open Environment (AgreeOn)

namespace Evaluation

variable {env₁ env₂ : Environment} {tolerance : Float}

theorem mapM_congr {α β : Type} {f g : α → Except Failure β} {xs : List α}
    (h : ∀ x ∈ xs, f x = g x) : xs.mapM f = xs.mapM g := by
  induction xs with
  | nil => rfl
  | cons x xs ih =>
    obtain ⟨hx, hxs⟩ := List.forall_mem_cons.mp h
    rw [List.mapM_cons, List.mapM_cons, hx, ih hxs]

theorem eval_congr_of_succ {node : Node}
    (h : ∀ depth, eval env₁ tolerance (depth + 1) node = eval env₂ tolerance (depth + 1) node)
    (depth : Nat) : eval env₁ tolerance depth node = eval env₂ tolerance depth node := by
  cases depth with
  | zero => rw [eval_zero, eval_zero]
  | succ depth => exact h depth

/-- An expression comes to the same in both environments, at every depth. -/
theorem eval_congr {node : Node} (h : AgreeOn node env₁ env₂) (depth : Nat) :
    eval env₁ tolerance depth node = eval env₂ tolerance depth node := by
  -- An operator in the left operand stays on the level of the chain, so the depth is general.
  refine eval_congr_of_succ (fun depth => ?_) depth
  induction node using Node.plainText.induct generalizing depth with
  | case1 value line => rw [eval, eval]
  | case2 name line => rw [eval, eval, Environment.get, Environment.get, h name ⟨line, .whole⟩]
  | case3 rows line ih =>
    have hrows : ∀ row ∈ rows, ∀ e ∈ row,
        eval env₁ tolerance depth e = eval env₂ tolerance depth e := fun row hrow e he =>
      eval_congr_of_succ (ih row hrow e he (h.part (.cell hrow he))) depth
    rw [eval, eval]
    congr 1
    exact mapM_congr fun row hrow => mapM_congr fun e he => by rw [hrows row hrow e he]
  | case4 operand line ih =>
    rw [eval, eval, eval_congr_of_succ (ih (h.part .operand)) depth]
  | case5 op left right line ihl ihr =>
    rw [eval_binary, eval_binary, eval_congr_of_succ (ihl (h.part .left)),
      eval_congr_of_succ (ihr (h.part .right)) depth]
  | case6 name args line ih =>
    have hargs : args.mapM (eval env₁ tolerance depth) = args.mapM (eval env₂ tolerance depth) :=
      mapM_congr fun e he => eval_congr_of_succ (ih e he (h.part (.argument he))) depth
    rw [eval, eval, hargs]
  | case7 target indices line iht ih =>
    have hindices :
        indices.mapM (eval env₁ tolerance depth) = indices.mapM (eval env₂ tolerance depth) :=
      mapM_congr fun e he => eval_congr_of_succ (ih e he (h.part (.position he))) depth
    rw [eval, eval, eval_congr_of_succ (iht (h.part .target)) depth, hindices]
  | case8 name value line ih =>
    rw [eval, eval]
    all_goals simp
  | case9 tag fields =>
    rw [eval, eval]
    all_goals simp

theorem result_congr {node : Node} (h : AgreeOn node env₁ env₂) (depth : Nat) :
    result env₁ tolerance depth node = result env₂ tolerance depth node := by
  rw [result, result, eval_congr (h.part Node.Part.of_body)]

/-- A statement in two environments that agree on the variables it mentions: it fails in the same
way in both, or it has the same value in both, and each holds that value under the assigned names
and what it held before under all others. -/
theorem execute_depends_on_mentioned {node : Node} {env₁ env₂ : Environment}
    (h : ∀ name, node.Mentions name → env₁.get? name = env₂.get? name) (tolerance : Float)
    (depth : Nat) :
    (∃ failure, execute env₁ tolerance depth node = .error failure ∧
      execute env₂ tolerance depth node = .error failure) ∨
    ∃ v env₁' env₂', execute env₁ tolerance depth node = .ok (v, env₁') ∧
      execute env₂ tolerance depth node = .ok (v, env₂') ∧
      ∀ name, env₁'.get? name = (if name ∈ node.targets then some v else env₁.get? name) ∧
        env₂'.get? name = if name ∈ node.targets then some v else env₂.get? name := by
  have hresult : result env₁ tolerance depth node = result env₂ tolerance depth node :=
    result_congr h depth
  rw [execute_eq, execute_eq, hresult]
  cases result env₂ tolerance depth node with
  | error failure => exact .inl ⟨failure, rfl, rfl⟩
  | ok v =>
    exact .inr ⟨v, _, _, rfl, rfl, fun name =>
      ⟨env₁.get?_update_writes node v name, env₂.get?_update_writes node v name⟩⟩

/-- The names of the function and of the assigned variable are bound in one of the environments. -/
theorem execute_depends_on_mentioned_call :
    parse "a = transpose(x)" =
      .complete [.assign "a" (.call "transpose" [.ident "x" 1] 1) 1] [] ∧
    (∀ name, (Node.assign "a" (.call "transpose" [.ident "x" 1] 1) 1).Mentions name →
      Environment.get? ⟨[("transpose", .scalar 1), ("x", .scalar 3)]⟩ name =
        Environment.get? ⟨[("x", .scalar 3), ("a", .scalar 5)]⟩ name) ∧
    ∃ env₁' env₂', execute ⟨[("transpose", .scalar 1), ("x", .scalar 3)]⟩ 0 4
        (.assign "a" (.call "transpose" [.ident "x" 1] 1) 1) = .ok (.scalar 3, env₁') ∧
      execute ⟨[("x", .scalar 3), ("a", .scalar 5)]⟩ 0 4
        (.assign "a" (.call "transpose" [.ident "x" 1] 1) 1) = .ok (.scalar 3, env₂') ∧
      env₁'.get? "a" = env₂'.get? "a" := by
  have hagree : ∀ name, (Node.assign "a" (.call "transpose" [.ident "x" 1] 1) 1).Mentions name →
      Environment.get? ⟨[("transpose", .scalar 1), ("x", .scalar 3)]⟩ name =
        Environment.get? ⟨[("x", .scalar 3), ("a", .scalar 5)]⟩ name := by
    rintro name ⟨line, h⟩
    cases h with | value h =>
    cases h with | argument he h =>
    obtain rfl := List.mem_singleton.mp he
    cases h
    rfl
  have hfirst : execute ⟨[("transpose", .scalar 1), ("x", .scalar 3)]⟩ 0 4
      (.assign "a" (.call "transpose" [.ident "x" 1] 1) 1) =
        .ok (.scalar 3, ⟨[("transpose", .scalar 1), ("x", .scalar 3), ("a", .scalar 3)]⟩) := by
    have hcheck : Value.checkFinite "transpose()" (.scalar 3) = .ok (.scalar 3) :=
      if_pos (by decide)
    have hresult : result ⟨[("transpose", .scalar 1), ("x", .scalar 3)]⟩ 0 4
        (.assign "a" (.call "transpose" [.ident "x" 1] 1) 1) =
          attachLine 1 (Value.checkFinite "transpose()" (.scalar 3)) := by rfl
    rw [execute_eq, hresult, hcheck]
    rfl
  refine ⟨by cbv, hagree, ?_⟩
  rcases execute_depends_on_mentioned hagree 0 4 with ⟨failure, h, -⟩ | ⟨v, env₁', env₂', h₁, h₂, h⟩
  · rw [hfirst] at h
    contradiction
  · obtain ⟨rfl, rfl⟩ := Prod.mk.inj (Except.ok.inj (hfirst.symm.trans h₁))
    exact ⟨_, _, h₁, h₂, (h "a").1.trans (h "a").2.symm⟩

end Evaluation

end MatrixCalculator
