import WhileLanguage.Environment
import WhileLanguage.Phrase

/-!
# Names and nodes of phrases

The names that occur in a phrase, each as often as it occurs, those of them that it assigns to, and
the numbers of the operators and of all nodes that a phrase is made of.
-/

namespace WhileLanguage

/-- The names that are bound in an environment. -/
def Environment.names {Map : Type} [OrderedMap Map] (env : Environment Map) : List String :=
  env.toList.map Prod.fst

/-- The names that occur in an expression. -/
def Expr.names : Expr → List String
  | literal _ => []
  | var name => [name]
  | binary _ left right => left.names ++ right.names

/-- The names that occur in a command, those it assigns to and those it uses. -/
def Command.names : Command → List String
  | skip => []
  | assign name value => name :: value.names
  | branch condition yes no => condition.names ++ yes.names ++ no.names
  | seq first second => first.names ++ second.names
  | loop condition body => condition.names ++ body.names

/-- The names that occur in a phrase. -/
def Phrase.names : Phrase → List String
  | expr e => e.names
  | command c => c.names

/-- The names that a command assigns to. -/
def Command.targets : Command → List String
  | skip => []
  | assign name _ => [name]
  | branch _ yes no => yes.targets ++ no.targets
  | seq first second => first.targets ++ second.targets
  | loop _ body => body.targets

/-- The number of operators in an expression. -/
def Expr.operators : Expr → Nat
  | literal _ => 0
  | var _ => 0
  | binary _ left right => left.operators + right.operators + 1

/-- The number of nodes of an expression. -/
def Expr.nodes : Expr → Nat
  | literal _ => 1
  | var _ => 1
  | binary _ left right => 1 + left.nodes + right.nodes

/-- The number of nodes of a command, those of its expressions included. -/
def Command.nodes : Command → Nat
  | skip => 1
  | assign _ value => 1 + value.nodes
  | branch condition yes no => 1 + condition.nodes + yes.nodes + no.nodes
  | seq first second => 1 + first.nodes + second.nodes
  | loop condition body => 1 + condition.nodes + body.nodes

/-- The number of nodes of a phrase. -/
def Phrase.nodes : Phrase → Nat
  | expr e => e.nodes
  | command c => c.nodes

/-- Every expression is a node at least. -/
theorem Expr.nodes_pos (e : Expr) : 0 < e.nodes := by
  cases e <;> simp only [nodes] <;> omega

/-- Every command is a node at least. -/
theorem Command.nodes_pos (c : Command) : 0 < c.nodes := by
  cases c <;> simp only [nodes] <;> omega

end WhileLanguage
