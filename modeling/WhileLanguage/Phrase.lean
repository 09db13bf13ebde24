import WhileLanguage.Command

/-!
# Phrases

A phrase is what can be run: an expression, for its value, or a command, for its effect.
`Phrase.isReducible_eq_false_iff` says that a phrase without a step is a normal form.
-/

namespace WhileLanguage

/-- An expression or a command. -/
inductive Phrase where
  | expr (e : Expr)
  | command (c : Command)
deriving DecidableEq

/-- A normal form as the phrase that it is. -/
def NormalForm.toPhrase : NormalForm → Phrase
  | value v => .expr (.literal v)
  | done => .command .skip

namespace Phrase

/-- Whether a step can be made in a phrase. -/
def isReducible : Phrase → Bool
  | expr e => e.isReducible
  | command c => c.isReducible

/-- The text of a phrase. -/
def text : Phrase → String
  | expr e => e.text
  | command c => c.text

/-- What has no step is a normal form. -/
theorem isReducible_eq_false_iff {p : Phrase} :
    p.isReducible = false ↔ ∃ form : NormalForm, p = form.toPhrase := by
  constructor
  · intro h
    cases p with
    | expr e =>
        obtain ⟨v, rfl⟩ := Expr.isReducible_eq_false_iff.1 h
        exact ⟨.value v, rfl⟩
    | command c =>
        obtain rfl := Command.isReducible_eq_false_iff.1 h
        exact ⟨.done, rfl⟩
  · rintro ⟨form, rfl⟩
    cases form <;> rfl

end Phrase

end WhileLanguage
