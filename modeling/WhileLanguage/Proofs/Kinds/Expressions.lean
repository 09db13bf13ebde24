import WhileLanguage.Proofs.SmallStep.Expressions

/-!
# Kinds of expressions

The kind of an expression follows from the kinds of its names: read `Expr.kind?` for the rules.
In an environment with those kinds, the expressions that have a kind are those that denote a
value, and the value has that kind: `Expr.kind?_eq_some_iff`. So a step of an expression keeps
its kind, and an expression that has a kind does not fail.
-/

namespace WhileLanguage

/-- The kinds of the names that an environment binds. -/
def Environment.kinds (env : Environment) (name : String) : Option Kind :=
  (env.get? name).map Value.kind

/-- An environment keeps its kinds if a name is bound to a value of the kind that it has. -/
theorem Environment.kinds_insert {env : Environment} {name : String} {v : Value}
    (h : env.kinds name = some v.kind) : (env.insert name v).kinds = env.kinds := by
  funext other
  rw [kinds, get?_insert]
  split
  next heq => rw [heq, h, Option.map_some]
  next => rfl

namespace Expr

/-- The kind of an expression, if it has one where names have the given kinds. -/
def kind? (kinds : String → Option Kind) : Expr → Option Kind
  | literal v => some v.kind
  | var name => kinds name
  | binary op left right =>
      if left.kind? kinds = some .number ∧ right.kind? kinds = some .number then
        some op.resultKind
      else none

variable {env : Environment} {e next : Expr} {kind : Kind} {fault : Fault}

/-- An operator has the kind of its results if both operands are numbers, and none if not. -/
theorem kind?_binary_eq_some_iff {kinds : String → Option Kind} {op : Operator}
    {left right : Expr} :
    (binary op left right).kind? kinds = some kind ↔
      left.kind? kinds = some .number ∧ right.kind? kinds = some .number ∧
        op.resultKind = kind := by
  rw [kind?, Option.ite_none_right_eq_some, Option.some.injEq, and_assoc]

/-- An operator denotes what it gives for the values of its operands. -/
theorem denote_binary_eq_ok_iff {op : Operator} {left right : Expr} {v : Value} :
    (binary op left right).denote env = .ok v ↔
      ∃ a b, left.denote env = .ok a ∧ right.denote env = .ok b ∧ op.apply a b = .ok v := by
  cases hleft : left.denote env with
  | error fault => simp [denote, hleft, bind, Except.bind]
  | ok a =>
      cases hright : right.denote env with
      | error fault => simp [denote, hleft, hright, bind, Except.bind]
      | ok b => simp [denote, hleft, hright, bind, Except.bind]

/-- An expression has a kind exactly where it denotes a value of that kind. -/
theorem kind?_eq_some_iff :
    e.kind? env.kinds = some kind ↔ ∃ v, e.denote env = .ok v ∧ v.kind = kind := by
  induction e generalizing kind with
  | literal v => simp [kind?, denote]
  | var name =>
      simp only [kind?, denote, Environment.kinds, Environment.lookup]
      cases env.get? name <;> simp
  | binary op left right ihleft ihright =>
      rw [kind?_binary_eq_some_iff, ihleft, ihright]
      constructor
      · rintro ⟨⟨a, hleft, ha⟩, ⟨b, hright, hb⟩, rfl⟩
        obtain ⟨v, hv⟩ := Operator.apply_isOk_iff.2 ⟨ha, hb⟩
        exact ⟨v, denote_binary_eq_ok_iff.2 ⟨a, b, hleft, hright, hv⟩, Operator.kind_of_apply hv⟩
      · rintro ⟨v, hv, rfl⟩
        obtain ⟨a, b, hleft, hright, happly⟩ := denote_binary_eq_ok_iff.1 hv
        obtain ⟨ha, hb⟩ := Operator.apply_isOk_iff.1 ⟨v, happly⟩
        exact ⟨⟨a, hleft, ha⟩, ⟨b, hright, hb⟩, (Operator.kind_of_apply happly).symm⟩

/-- A step keeps the kind of an expression. -/
theorem kind?_of_reduce (h : e.kind? env.kinds = some kind) (hstep : e.reduce env = .ok next) :
    next.kind? env.kinds = some kind := by
  rw [kind?_eq_some_iff] at h ⊢
  rwa [denote_of_reduce hstep]

/-- An expression that has a kind is a literal or has a step that succeeds. -/
theorem exists_reduce_of_kind? (h : e.kind? env.kinds = some kind)
    (hreducible : e.isReducible = true) : ∃ next, e.reduce env = .ok next := by
  cases hstep : e.reduce env with
  | ok next => exact ⟨next, rfl⟩
  | error fault =>
      obtain ⟨v, hv, -⟩ := kind?_eq_some_iff.1 h
      rw [denote_of_reduce_error hreducible hstep] at hv
      cases hv

end Expr

end WhileLanguage
