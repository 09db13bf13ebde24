/-!
# Values

A value is a 64-bit signed number or a boolean, and its kind says which. The numbers are
machine words: they wrap at the ends of their range. Every value is written in one way only,
a number in decimal and a boolean as `true` or `false`.
-/

namespace WhileLanguage

/-- The kind of a value. -/
inductive Kind where
  | number
  | boolean
deriving DecidableEq

/-- The word for a kind in a message. -/
def Kind.text : Kind → String
  | .number => "number"
  | .boolean => "boolean"

/-- A result of evaluation. -/
inductive Value where
  | number (n : Int64)
  | boolean (b : Bool)
deriving DecidableEq

namespace Value

/-- The kind of a value. -/
def kind : Value → Kind
  | number _ => .number
  | boolean _ => .boolean

/-- The number that a value is, if it is one. -/
def number? : Value → Option Int64
  | number n => some n
  | boolean _ => none

/-- The boolean that a value is, if it is one. -/
def boolean? : Value → Option Bool
  | number _ => none
  | boolean b => some b

/-- A number is written in decimal, with a sign if it is negative; a boolean as its word. -/
def text : Value → String
  | number n => n.toInt.repr
  | boolean true => "true"
  | boolean false => "false"

/-- A value is a boolean exactly when its kind is that of booleans. -/
theorem kind_eq_boolean_iff {v : Value} : v.kind = .boolean ↔ ∃ b, v = boolean b := by
  cases v <;> simp [kind]

end Value

end WhileLanguage
