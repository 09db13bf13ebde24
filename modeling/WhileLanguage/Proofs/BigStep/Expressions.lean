import WhileLanguage.BigStep.Evaluation
import WhileLanguage.Compiled

/-!
# What an expression comes to, and for how much

Without a limit an expression's evaluation gives the value of the function that the expression
denotes, and uses an amount of gas that depends on the environment alone: read
`Expr.evaluate_none`. A condition's `Expr.truth` is that value read as a boolean.
-/

namespace WhileLanguage.Expr

/-- The gas that the evaluation of an expression uses: a unit for every node up to a fault. -/
def cost (env : Environment) : Expr → Nat
  | literal _ => 1
  | var _ => 1
  | binary _ left right =>
      1 + left.cost env +
        match left.denote env with
        | .ok _ => right.cost env
        | .error _ => 0

/-- Whether an expression that stands as a condition holds. -/
def truth (condition : Expr) (env : Environment) : Except Fault Bool :=
  condition.denote env >>= Value.truth

/-- Every evaluation of an expression uses gas. -/
theorem cost_pos (env : Environment) (e : Expr) : 0 < e.cost env := by
  cases e <;> simp only [cost] <;> omega

/-- An operator that applies has the value of its operands. -/
theorem denote_binary_of_ok {op : Operator} {left right : Expr} {env : Environment} {v : Value}
    (h : left.denote env = .ok v) :
    (binary op left right).denote env = right.denote env >>= op.apply v := by
  simp [denote, h, bind, Except.bind]

/-- An operator fails where its left operand does. -/
theorem denote_binary_of_error {op : Operator} {left right : Expr} {env : Environment}
    {fault : Fault} (h : left.denote env = .error fault) :
    (binary op left right).denote env = .error fault := by
  simp [denote, h, bind, Except.bind]

/-- Without a limit, an evaluation gives what the expression denotes and adds its cost. -/
theorem evaluate_none (env : Environment) (e : Expr) (used : Nat) :
    e.evaluate none env used = (e.denote env, used + e.cost env) := by
  induction e generalizing used with
  | literal v => rfl
  | var name => rfl
  | binary op left right ihleft ihright =>
      simp only [evaluate, Charged.bind_apply, charge_none, ihleft, cost]
      cases hleft : left.denote env with
      | error fault =>
          rw [denote_binary_of_error hleft]
          simp only [Nat.add_assoc, Nat.add_zero]
      | ok a =>
          rw [denote_binary_of_ok hleft]
          simp only [ihright]
          cases right.denote env <;> simp [Charged.ofExcept, bind, Except.bind, Nat.add_assoc]

/-- Without a limit, a test of a condition gives its truth and adds its cost. -/
theorem holds_none (condition : Expr) (env : Environment) (used : Nat) :
    condition.holds none env used = (condition.truth env, used + condition.cost env) := by
  simp only [holds, Charged.bind_apply, evaluate_none, truth]
  cases condition.denote env <;> rfl

end WhileLanguage.Expr
