import WhileLanguage.BigStep.Gas
import WhileLanguage.Environment
import WhileLanguage.Operation
import WhileLanguage.Phrase

/-!
# Evaluation in one go

An expression is evaluated to its value and a command to the environment that it leaves, by
recursion on the phrase, which stays as it is. Operands are evaluated from left to right.
A loop is charged once where it is entered, and then for its condition and its body in every
round. An `Evaluator` keeps the gas that its evaluations have used together.
-/

namespace WhileLanguage

/-- The value of an expression. -/
def Expr.evaluate (limit : Option Nat) (env : Environment) : Expr → Charged Value
  | literal value => do
      charge limit
      return value
  | var name => do
      charge limit
      .ofExcept (env.lookup name)
  | binary op left right => do
      charge limit
      let a ← left.evaluate limit env
      let b ← right.evaluate limit env
      .ofExcept (op.apply a b)

/-- Whether a condition holds. -/
def Expr.holds (limit : Option Nat) (condition : Expr) (env : Environment) : Charged Bool := do
  .ofExcept (← condition.evaluate limit env).truth

/-- The environment that a command leaves, if none of its loops makes `bound` rounds. -/
def Command.evaluate (bound : Nat) (limit : Option Nat) :
    Command → Environment → Bounded Environment
  | skip, env => do
      charge limit
      return env
  | assign name value, env => do
      charge limit
      return env.insert name (← value.evaluate limit env)
  | branch condition yes no, env => do
      charge limit
      if ← condition.holds limit env then yes.evaluate bound limit env
      else no.evaluate bound limit env
  | seq first second, env => do
      charge limit
      second.evaluate bound limit (← first.evaluate bound limit env)
  | loop condition body, env => do
      charge limit
      Bounded.iterate (condition.holds limit) (body.evaluate bound limit) bound env

/-- What a phrase comes to: an expression to a value, a command to an environment. -/
inductive Outcome where
  | value (v : Value)
  | env (env : Environment)
deriving DecidableEq

/-- An account of the gas that evaluations have used, and its limit if it has one. -/
structure Evaluator where
  used : Nat := 0
  limit : Option Nat := none
deriving DecidableEq

namespace Evaluator

/-- Evaluates an expression on an account. -/
def expr (evaluator : Evaluator) (e : Expr) (env : Environment) :
    Except Fault Value × Evaluator :=
  let (result, used) := e.evaluate evaluator.limit env evaluator.used
  (result, ⟨used, evaluator.limit⟩)

/-- Evaluates a command on an account, if none of its loops makes `bound` rounds. -/
def command (bound : Nat) (evaluator : Evaluator) (c : Command) (env : Environment) :
    Option (Except Fault Environment × Evaluator) :=
  (c.evaluate bound evaluator.limit env evaluator.used).map fun (result, used) =>
    (result, ⟨used, evaluator.limit⟩)

/-- Evaluates a phrase on an account, if none of its loops makes `bound` rounds. -/
def phrase (bound : Nat) (evaluator : Evaluator) (env : Environment) :
    Phrase → Option (Except Fault Outcome × Evaluator)
  | .expr e =>
      let (result, after) := evaluator.expr e env
      some (result.map .value, after)
  | .command c =>
      (evaluator.command bound c env).map fun (result, after) => (result.map .env, after)

end Evaluator

end WhileLanguage
