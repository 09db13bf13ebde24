import WhileLanguage.Expr
import WhileLanguage.Fault

/-!
# Commands

What a program does: nothing, an assignment, a choice between two commands, one command after
another, or a loop that runs its body as long as its condition holds. The text of a sequence
does not show how its parts are grouped.
-/

namespace WhileLanguage

/-- A command. -/
inductive Command where
  | skip
  | assign (name : String) (value : Expr)
  | branch (condition : Expr) (yes no : Command)
  | seq (first second : Command)
  | loop (condition : Expr) (body : Command)
deriving DecidableEq

namespace Command

/-- Whether a command is anything but the one that does nothing. -/
def isReducible : Command → Bool
  | skip => false
  | _ => true

/-- A command as the body of a branch or a loop. -/
def block (text : String) : String :=
  "\x7b " ++ text ++ " \x7d"

/-- The text of a command. -/
def text : Command → String
  | skip => NormalForm.done.text
  | assign name value => name ++ " = " ++ value.text
  | branch condition yes no =>
      "if (" ++ condition.text ++ ") " ++ block yes.text ++ " else " ++ block no.text
  | seq first second => first.text ++ "; " ++ second.text
  | loop condition body => "while (" ++ condition.text ++ ") " ++ block body.text

/-- What has no step does nothing. -/
theorem isReducible_eq_false_iff {c : Command} : c.isReducible = false ↔ c = skip := by
  cases c <;> simp [isReducible]

/-- What does something has a step left. -/
theorem isReducible_of_ne {c : Command} (h : c ≠ skip) : c.isReducible = true := by
  rwa [← Bool.not_eq_false, isReducible_eq_false_iff]

end Command

end WhileLanguage
