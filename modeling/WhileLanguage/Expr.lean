import WhileLanguage.Operator
import WhileLanguage.Value

/-!
# Expressions

Literals, variables, and applications of the binary operators. A text of an expression has
the brackets that its operators need and no others: operators group to the left, so a left
operand is bracketed if it binds less tightly than its operator, and a right operand also if
it binds as tightly. Literals and variables bind tighter than any operator, a negative number
included.
-/

namespace WhileLanguage

/-- An expression. -/
inductive Expr where
  | literal (value : Value)
  | var (name : String)
  | binary (op : Operator) (left right : Expr)
deriving DecidableEq

namespace Expr

/-- The value that an expression already is, if it is a literal. -/
def value? : Expr → Option Value
  | literal value => some value
  | _ => none

/-- The operator of an expression and its operands, if it has one. -/
def operation? : Expr → Option (Operator × Expr × Expr)
  | binary op left right => some (op, left, right)
  | _ => none

/-- Whether an expression is anything but a literal, so that a step can be made in it. -/
def isReducible : Expr → Bool
  | literal _ => false
  | _ => true

/-- The strength with which an expression holds together as an operand. -/
def precedence : Expr → Nat
  | binary op _ _ => op.precedence
  | _ => 4

/-- Puts brackets around a text where they are needed. -/
def bracketed (needed : Bool) (text : String) : String :=
  if needed then "(" ++ text ++ ")" else text

/-- The text of an expression, with the brackets that it needs. -/
def text : Expr → String
  | literal value => value.text
  | var name => name
  | binary op left right =>
      bracketed (left.precedence < op.precedence) left.text ++ " " ++ op.symbol ++ " " ++
        bracketed (right.precedence ≤ op.precedence) right.text

/-- What has no step is a literal. -/
theorem isReducible_eq_false_iff {e : Expr} : e.isReducible = false ↔ ∃ v, e = literal v := by
  cases e <;> simp [isReducible]

/-- What is not a value has a step left. -/
theorem isReducible_of_forall_ne {e : Expr} (h : ∀ v, e ≠ literal v) : e.isReducible = true := by
  rw [← Bool.not_eq_false, isReducible_eq_false_iff]
  rintro ⟨v, hv⟩
  exact h v hv

/-- Every expression holds together as strongly as some operator. -/
theorem precedence_pos (e : Expr) : 1 ≤ e.precedence := by
  cases e with
  | literal | var => exact Nat.le_add_left 1 3
  | binary op left right => exact op.precedence_pos

end Expr

end WhileLanguage
