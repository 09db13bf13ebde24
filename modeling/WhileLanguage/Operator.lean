/-!
# Binary operators

The three operators of the language, how each is written, and how tightly it binds its
operands: `<` the loosest, then `+`, then `*`.
-/

namespace WhileLanguage

/-- A binary operator. -/
inductive Operator where
  | add
  | multiply
  | lessThan
deriving DecidableEq

namespace Operator

/-- The sign that stands between the operands. -/
def symbol : Operator → String
  | add => "+"
  | multiply => "*"
  | lessThan => "<"

/-- The strength with which an operator binds; the greater binds the tighter. -/
def precedence : Operator → Nat
  | lessThan => 1
  | add => 2
  | multiply => 3

/-- Every strength below that of atoms is that of an operator. -/
theorem exists_precedence_eq {strength : Nat} (hpos : 1 ≤ strength)
    (hlt : strength < 4) : ∃ op : Operator, op.precedence = strength := by
  obtain rfl | rfl | rfl : strength = 1 ∨ strength = 2 ∨ strength = 3 := by omega
  · exact ⟨.lessThan, rfl⟩
  · exact ⟨.add, rfl⟩
  · exact ⟨.multiply, rfl⟩

/-- The loosest operators bind with strength one. -/
theorem precedence_pos (op : Operator) : 1 ≤ op.precedence := by
  cases op <;> decide

/-- Operators bind less tightly than atoms. -/
theorem precedence_lt_four (op : Operator) : op.precedence < 4 := by
  cases op <;> decide

/-- Operators that bind alike are the same. -/
theorem precedence_injective {op other : Operator}
    (h : op.precedence = other.precedence) : op = other := by
  cases op <;> cases other <;> first | rfl | cases h

end Operator

end WhileLanguage
