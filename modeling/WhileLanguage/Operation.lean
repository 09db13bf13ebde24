import WhileLanguage.Fault

/-!
# Operations that check kinds

Operators take two numbers, and a condition is a boolean; any other value is a fault. Sums
and products wrap at the ends of the 64-bit range. `Operator.apply_isOk_iff` says that only
the kinds of the operands decide whether an operator succeeds.
-/

namespace WhileLanguage

/-- Applies an operator to two numbers; other operands are a fault that names both kinds. -/
def Operator.apply (op : Operator) : Value → Value → Except Fault Value
  | .number a, .number b =>
      .ok <| match op with
        | add => .number (a + b)
        | multiply => .number (a * b)
        | lessThan => .boolean (a < b)
  | left, right => .error (.operands op left.kind right.kind)

/-- The truth of a value that stands as a condition; a number is a fault. -/
def Value.truth : Value → Except Fault Bool
  | boolean b => .ok b
  | number n => .error (.condition n)

/-- The kind of an operator's results. -/
def Operator.resultKind : Operator → Kind
  | add => .number
  | multiply => .number
  | lessThan => .boolean

/-- An operator succeeds exactly on two numbers. -/
theorem Operator.apply_isOk_iff {op : Operator} {left right : Value} :
    (∃ v, op.apply left right = .ok v) ↔ left.kind = .number ∧ right.kind = .number := by
  cases left <;> cases right <;> simp [apply, Value.kind]

/-- An operator's result has the kind that goes with the operator. -/
theorem Operator.kind_of_apply {op : Operator} {left right v : Value}
    (h : op.apply left right = .ok v) : v.kind = op.resultKind := by
  cases left <;> cases right <;> cases op <;> simp_all [apply] <;> subst h <;> rfl

/-- A condition has a truth exactly when it is a boolean. -/
theorem Value.truth_eq_ok_iff {v : Value} {b : Bool} : v.truth = .ok b ↔ v = .boolean b := by
  cases v <;> simp [truth]

end WhileLanguage
