import WhileLanguage.Environment
import WhileLanguage.Expr
import WhileLanguage.Operation
import WhileLanguage.Text.Quoted

/-!
# Compiled expressions

An expression denotes a function from environments to values. A compiled expression holds
that function beside the text that it was made from, and can be called in any number of
environments. Compilation never fails: faults show when the function is called.
-/

namespace WhileLanguage

/-- The function that an expression denotes. The left operand is called first. -/
def Expr.denote : Expr → Environment → Except Fault Value
  | literal value => fun _ => .ok value
  | var name => fun env => env.lookup name
  | binary op left right =>
      let leftValue := left.denote
      let rightValue := right.denote
      fun env => do
        let a ← leftValue env
        let b ← rightValue env
        op.apply a b

/-- A function from environments to values, with the text of the expression that it is for. -/
structure Compiled where
  source : String
  call : Environment → Except Fault Value

/-- Compiles an expression. -/
def Expr.compile (e : Expr) : Compiled :=
  ⟨e.text, e.denote⟩

namespace Compiled

/-- A compiled expression is written as a function of an environment. -/
def text (compiled : Compiled) : String :=
  "|env| " ++ compiled.source

/-- The text for a developer, on one line. The function is left out of it. -/
def debugText (compiled : Compiled) : String :=
  "CompiledExpr \x7b source: " ++ Quoted.quote compiled.source ++ ", .. \x7d"

/-- The text for a developer, with a line for each part. -/
def debugLines (compiled : Compiled) : String :=
  "CompiledExpr \x7b\n    source: " ++ Quoted.quote compiled.source ++ ",\n    ..\n\x7d"

end Compiled

end WhileLanguage
