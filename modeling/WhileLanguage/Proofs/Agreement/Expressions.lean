import WhileLanguage.Proofs.BigStep.Expressions
import WhileLanguage.Proofs.SmallStep.Expressions

/-!
# The three ways to run an expression agree

An expression can be evaluated, compiled and called, or reduced by a machine. By
`Expr.strategies_agree` all three come to the same value or fail with the same fault in every
environment, and the machine always stops and never touches the environment. The function
that the expression denotes is the middle term: `Expr.evaluate_none` ties evaluation to it,
`Expr.exists_ends` the machine.
-/

namespace WhileLanguage

namespace Machine

/-- A step of a machine that runs an expression leaves an expression and the environment. -/
theorem step_of_expr {machine next : Machine} {e : Expr} (he : machine.state.phrase = .expr e)
    (h : machine.step = ⟨next, none⟩) :
    (∃ reduced, next.state.phrase = .expr reduced) ∧ next.state.env = machine.state.env := by
  obtain ⟨⟨phrase, env⟩, steps, limit⟩ := machine
  obtain rfl : phrase = .expr e := he
  obtain ⟨hreduce, -, -⟩ := step_eq_ok h
  obtain ⟨reduced, -, hnext⟩ := except_map_eq_ok_iff.1 hreduce
  rw [← hnext]
  exact ⟨⟨reduced, rfl⟩, rfl⟩

/-- However many steps are made of an expression, its environment stays the same. -/
theorem advance_of_expr {machine : Machine} {e : Expr} (he : machine.state.phrase = .expr e)
    (count : Nat) : (machine.advance count).machine.state.env = machine.state.env := by
  induction count generalizing machine e with
  | zero => rfl
  | succ count ih =>
      obtain ⟨next, hstep⟩ | ⟨fault, hstep⟩ := machine.step_cases
      · obtain ⟨⟨reduced, hreduced⟩, henv⟩ := step_of_expr he hstep
        simp only [advance, hstep, ih hreduced, henv]
      · simp only [advance, hstep]

end Machine

namespace Expr

/-- A result that all ways to run an expression in an environment come to. -/
structure Agreed (e : Expr) (env : Environment) (result : Except Fault Value) : Prop where
  evaluated : (({} : Evaluator).expr e env).1 = result
  called : e.compile.call env = result
  reduced : ∃ halt, (Machine.ofState ⟨.expr e, env⟩).Returns halt ∧
    halt.result = result.map fun v => ⟨.expr (literal v), env⟩
  unchanged : ∀ count, ((Machine.ofState ⟨.expr e, env⟩).advance count).machine.state.env = env

/-- An evaluation of an expression on a new account gives what the expression denotes. -/
theorem evaluator_expr (e : Expr) (env : Environment) :
    (({} : Evaluator).expr e env).1 = e.denote env := by
  simp only [Evaluator.expr, evaluate_none]

/-- What an expression denotes is what all ways to run it come to. -/
theorem agreed_denote (e : Expr) (env : Environment) : e.Agreed env (e.denote env) where
  evaluated := evaluator_expr e env
  called := rfl
  reduced := by
    obtain ⟨steps, hends⟩ := exists_ends env e
    obtain ⟨halt, hreturns, -, hresult⟩ := Machine.ends_iff_returns.1 hends
    exact ⟨halt, hreturns, hresult⟩
  unchanged := Machine.advance_of_expr rfl

/-- Evaluation, the compiled function and the machine agree on every expression in every
environment, on values and on faults, and in all the calls of one compiled expression. -/
theorem strategies_agree (e : Expr) :
    (∀ env, ∃ result, e.Agreed env result) ∧
      ∀ envs : List Environment,
        envs.map e.compile.call = envs.map fun env => (({} : Evaluator).expr e env).1 := by
  refine ⟨fun env => ⟨e.denote env, agreed_denote e env⟩, fun envs => ?_⟩
  refine List.map_congr_left fun env _ => ?_
  have h := agreed_denote e env
  rw [h.called, h.evaluated]

end Expr

end WhileLanguage
