import WhileLanguage.Proofs.Agreement.Expressions
import WhileLanguage.Proofs.Kinds.Expressions
import WhileLanguage.Proofs.Matching

/-!
# Kinds decide whether an expression fails, and how

An operator asks only for the kinds of its operands, so which of several operands that would fail
is the one to be reported, and what is said of it, can be told from the kinds of the names.
`Expr.check` tells it: it goes through an expression as evaluation does, with kinds in place of
values, and by `Expr.map_kind_denote` it comes to the kind of the value or to the same fault. Read
`Expr.succeeds_by_kinds` for what that says of evaluations.
-/

namespace WhileLanguage

/-- The kind of an operator's result for operands of two kinds, or the fault that they are. -/
def Operator.check (op : Operator) : Kind → Kind → Except Fault Kind
  | .number, .number => .ok op.resultKind
  | left, right => .error (.operands op left right)

/-- An operator comes to what the kinds of its operands say. -/
theorem Operator.map_kind_apply (op : Operator) (a b : Value) :
    (op.apply a b).map Value.kind = op.check a.kind b.kind := by
  cases hresult : op.apply a b with
  | ok v =>
      obtain ⟨ha, hb⟩ := apply_isOk_iff.1 ⟨v, hresult⟩
      rw [ha, hb, Except.map, kind_of_apply hresult]
      rfl
  | error fault =>
      cases a with
      | boolean left => exact congrArg Except.error (fault_of_apply hresult)
      | number m =>
          cases b with
          | boolean right => exact congrArg Except.error (fault_of_apply hresult)
          | number n => cases hresult

namespace Expr

/-- The kind of an expression where names have the given kinds, or the fault that it has there. -/
def check (kinds : String → Option Kind) : Expr → Except Fault Kind
  | literal v => .ok v.kind
  | var name =>
      match kinds name with
      | some kind => .ok kind
      | none => .error (.unbound name)
  | binary op left right => do
      let a ← left.check kinds
      let b ← right.check kinds
      op.check a b

/-- What an expression denotes has the kind, or is the fault, that the kinds of the names say. -/
theorem map_kind_denote (env : Environment) (e : Expr) :
    (e.denote env).map Value.kind = e.check env.kinds := by
  induction e with
  | literal v => rfl
  | var name =>
      unfold denote check Environment.lookup Environment.kinds
      cases env.get? name <;> rfl
  | binary op left right ihleft ihright =>
      rw [check, ← ihleft, ← ihright]
      cases hleft : left.denote env with
      | error fault => rw [denote_binary_of_error hleft]; rfl
      | ok a =>
          rw [denote_binary_of_ok hleft]
          cases right.denote env with
          | error fault => rfl
          | ok b => exact op.map_kind_apply a b

/-- Kinds alone decide what an evaluation of an expression comes to, but for the payload of its
value. It succeeds exactly where the expression has a kind, with a value of that kind. In any two
environments that bind the same names to values of the same kinds, either both evaluations succeed
with values of one kind, or both fail with the same fault. -/
theorem succeeds_by_kinds (e : Expr) (env : Environment) :
    ((∃ v, (({} : Evaluator).expr e env).1 = .ok v) ↔ ∃ kind, e.kind? env.kinds = some kind) ∧
    (∀ v, (({} : Evaluator).expr e env).1 = .ok v → e.kind? env.kinds = some v.kind) ∧
    ∀ other : Environment, (∀ name, other.kinds name = env.kinds name) →
      Matching id (fun v w => v.kind = w.kind) (({} : Evaluator).expr e env).1
        (({} : Evaluator).expr e other).1 := by
  simp only [evaluator_expr]
  refine ⟨⟨?_, ?_⟩, fun v hv => kind?_eq_some_iff.2 ⟨v, hv, rfl⟩, fun other hkinds => ?_⟩
  · rintro ⟨v, hv⟩
    exact ⟨v.kind, kind?_eq_some_iff.2 ⟨v, hv, rfl⟩⟩
  · rintro ⟨kind, hkind⟩
    obtain ⟨v, hv, -⟩ := kind?_eq_some_iff.1 hkind
    exact ⟨v, hv⟩
  · have heq : other.kinds = env.kinds := funext hkinds
    refine Matching.of_map_eq ?_
    rw [map_kind_denote, map_kind_denote, heq]

/-- Both operands of `x * (flag + x) < missing + true` would fail. The first is the one to be
reported, with one message for any number `x` and any boolean `flag`. -/
theorem fault_of_first_operand :
    let env := (Environment.empty.insert "flag" (.boolean true)).insert "x" (.number 3)
    let other := (Environment.empty.insert "x" (.number (-8))).insert "flag" (.boolean false)
    let first : Expr := .binary .multiply (.var "x") (.binary .add (.var "flag") (.var "x"))
    let e : Expr :=
      .binary .lessThan first (.binary .add (.var "missing") (.literal (.boolean true)))
    (∀ name, other.kinds name = env.kinds name) ∧ e.kind? env.kinds = none ∧
      (({} : Evaluator).expr e env).1 = .error (.operands .add .boolean .number) ∧
      (({} : Evaluator).expr e other).1 = .error (.operands .add .boolean .number) := by
  intro env other first e
  have hkinds : ∀ name, other.kinds name = env.kinds name := by
    intro name
    simp only [env, other, Environment.kinds, Environment.get?_insert]
    by_cases hx : name = "x" <;> by_cases hflag : name = "flag" <;> simp_all [Value.kind]
  have hresult : (({} : Evaluator).expr e env).1 = .error (.operands .add .boolean .number) := rfl
  obtain ⟨-, -, hother⟩ := succeeds_by_kinds e env
  have hmatch := hother other hkinds
  rw [hresult] at hmatch
  refine ⟨hkinds, rfl, hresult, ?_⟩
  generalize (({} : Evaluator).expr e other).1 = result at hmatch ⊢
  cases hmatch with
  | error fault => rfl

end Expr

end WhileLanguage
