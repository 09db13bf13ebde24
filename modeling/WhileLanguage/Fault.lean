import WhileLanguage.Operator
import WhileLanguage.Value

/-!
# Faults

Evaluation stops early for one of five causes. `Fault` holds the cause and what it is about;
its class and its wording follow from that. A message is the heading of the fault's class
and the fault's own detail, and `FaultClass.describe` joins the two.
-/

namespace WhileLanguage

/-- What cannot be reduced any further: a value, or a program that has ended. -/
inductive NormalForm where
  | value (v : Value)
  | done
deriving DecidableEq

/-- A normal form is written as the phrase that it is. -/
def NormalForm.text : NormalForm → String
  | value v => v.text
  | done => "do-nothing"

/-- The causes for which evaluation stops without a result. -/
inductive Fault where
  /-- A name was used that has no value. -/
  | unbound (name : String)
  /-- An operator met operands that are not both numbers. -/
  | operands (op : Operator) (left right : Kind)
  /-- A condition came out as a number. -/
  | condition (n : Int64)
  /-- A reduction was asked of what has none. -/
  | irreducible (form : NormalForm)
  /-- The next step would pass the limit. -/
  | exhausted (limit : Nat)
deriving DecidableEq

/-- The four classes under which faults are reported. -/
inductive FaultClass where
  | unboundVariable
  | typeMismatch
  | contractViolation
  | gasExhausted
deriving DecidableEq

namespace FaultClass

/-- The message of a fault of the given class with the given detail. -/
def describe (detail : String) : FaultClass → String
  | unboundVariable => "unbound variable: " ++ detail
  | typeMismatch => "type mismatch: " ++ detail
  | contractViolation => "contract violation: " ++ detail
  | gasExhausted => "gas exhausted after " ++ detail ++ " steps"

end FaultClass

namespace Fault

/-- The class of a fault. Operands and conditions of the wrong kind share one. -/
def faultClass : Fault → FaultClass
  | unbound _ => .unboundVariable
  | operands .. => .typeMismatch
  | condition _ => .typeMismatch
  | irreducible _ => .contractViolation
  | exhausted _ => .gasExhausted

/-- The part of a fault's message that tells it from others of its class. -/
def detail : Fault → String
  | unbound name => name
  | operands op left right =>
      "cannot apply '" ++ op.symbol ++ "' to " ++ left.text ++ " and " ++ right.text
  | condition n =>
      "condition must be a boolean, got " ++ Kind.number.text ++ " " ++ (Value.number n).text
  | irreducible form => "cannot reduce `" ++ form.text ++ "`: already in normal form"
  | exhausted limit => limit.repr

/-- The message that reports a fault. -/
def message (f : Fault) : String :=
  f.faultClass.describe f.detail

end Fault

end WhileLanguage
