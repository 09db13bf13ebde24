import WhileLanguage.Proofs.SmallStep.Frames

/-!
# Steps behind guards

`Expr.reduce` and `Command.reduce` see by the form of a phrase at which place of it the next step is
to be made. One can ask the places instead. Those that say that they have a step make it, and those
that say that they have none must be values, or the contract of reduction is violated. Read
`State.guardedReduce_eq`: asking comes to the same step or to the same report, so no place that says
that it has no step is ever anything but a value.
-/

namespace WhileLanguage

/-- A fault as it is reported: its class and the detail of its message. -/
structure Report where
  faultClass : FaultClass
  detail : String
deriving DecidableEq

/-- The report of a fault. -/
def Fault.report (fault : Fault) : Report :=
  ⟨fault.faultClass, fault.detail⟩

/-- The value of an expression that has no step left; any other one violates the contract. -/
def Expr.operandValue (e : Expr) : Except Report Value :=
  match e.value? with
  | some v => .ok v
  | none => .error ⟨.contractViolation, "`" ++ e.text ++ "` is not a value"⟩

/-- One step of an expression, at the first operand that says that it has one. -/
def Expr.guardedReduce (env : Environment) : Expr → Except Report Expr
  | literal v => .error (Fault.irreducible (.value v)).report
  | var name => ((env.lookup name).mapError Fault.report).map literal
  | binary op left right =>
      if left.isReducible then (left.guardedReduce env).map (binary op · right)
      else if right.isReducible then (right.guardedReduce env).map (binary op left)
      else do
        let a ← left.operandValue
        let b ← right.operandValue
        ((op.apply a b).mapError Fault.report).map literal

/-- One step of a command, of its expression if that says that it has one. -/
def Command.guardedReduce (env : Environment) :
    Command → Except Report (Command × Environment)
  | skip => .error (Fault.irreducible .done).report
  | assign name value =>
      if value.isReducible then
        (value.guardedReduce env).map fun value => (assign name value, env)
      else value.operandValue.map fun v => (skip, env.insert name v)
  | branch condition yes no =>
      if condition.isReducible then
        (condition.guardedReduce env).map fun condition => (branch condition yes no, env)
      else do
        let v ← condition.operandValue
        (v.truth.mapError Fault.report).map fun holds => (if holds then yes else no, env)
  | seq skip second => .ok (second, env)
  | seq first second => (first.guardedReduce env).map fun next => (seq next.1 second, next.2)
  | loop condition body => .ok (branch condition (seq body (loop condition body)) skip, env)

/-- One step of a state, behind guards. -/
def State.guardedReduce (state : State) : Except Report State :=
  match state.phrase with
  | .expr e => (e.guardedReduce state.env).map fun e => ⟨.expr e, state.env⟩
  | .command c => (c.guardedReduce state.env).map fun next => ⟨.command next.1, next.2⟩

/-- A result is mapped and its fault reported in either order. -/
theorem except_mapError_map {ε δ α β : Type} (f : α → β) (g : ε → δ) (x : Except ε α) :
    (x.map f).mapError g = (x.mapError g).map f := by
  cases x <;> rfl

variable {env : Environment}

/-- One step of an expression is the same if its operands are asked. -/
theorem Expr.guardedReduce_eq (e : Expr) :
    e.guardedReduce env = (e.reduce env).mapError Fault.report := by
  induction e with
  | literal v => rfl
  | var name => rw [guardedReduce, reduce, except_mapError_map]
  | binary op left right ihleft ihright =>
      rw [guardedReduce, ihleft, ihright]
      cases hleft : left.isReducible with
      | true => rw [if_pos rfl, reduce_left hleft, except_mapError_map]
      | false =>
          obtain ⟨a, rfl⟩ := isReducible_eq_false_iff.1 hleft
          cases hright : right.isReducible with
          | true =>
              rw [if_neg Bool.false_ne_true, if_pos rfl, reduce_right hright, except_mapError_map]
          | false =>
              obtain ⟨b, rfl⟩ := isReducible_eq_false_iff.1 hright
              show ((op.apply a b).mapError Fault.report).map literal = _
              rw [reduce, except_mapError_map]

/-- One step of a command is the same if its expressions are asked. -/
theorem Command.guardedReduce_eq (c : Command) :
    c.guardedReduce env = (c.reduce env).mapError Fault.report := by
  induction c with
  | skip | loop => rfl
  | assign name value =>
      rw [guardedReduce, Expr.guardedReduce_eq]
      cases hvalue : value.isReducible with
      | true => rw [if_pos rfl, reduce_assign hvalue, except_mapError_map]
      | false =>
          obtain ⟨v, rfl⟩ := Expr.isReducible_eq_false_iff.1 hvalue
          rfl
  | branch condition yes no _ _ =>
      rw [guardedReduce, Expr.guardedReduce_eq]
      cases hcondition : condition.isReducible with
      | true => rw [if_pos rfl, reduce_branch hcondition, except_mapError_map]
      | false =>
          obtain ⟨v, rfl⟩ := Expr.isReducible_eq_false_iff.1 hcondition
          show (v.truth.mapError Fault.report).map _ = _
          rw [reduce, except_mapError_map]
  | seq first second ih _ =>
      cases hfirst : first.isReducible with
      | true =>
          rw [reduce_seq hfirst, except_mapError_map, ← ih]
          cases first with
          | skip => cases hfirst
          | assign | branch | seq | loop => rfl
      | false =>
          obtain rfl := isReducible_eq_false_iff.1 hfirst
          rfl

/-- One step is the same, and is reported alike where it fails, if the places of a phrase are asked
whether they have one. -/
theorem State.guardedReduce_eq (state : State) :
    state.guardedReduce = state.reduce.mapError Fault.report := by
  obtain ⟨phrase, env⟩ := state
  cases phrase with
  | expr e =>
      show (e.guardedReduce env).map _ = ((e.reduce env).map _).mapError Fault.report
      rw [Expr.guardedReduce_eq, except_mapError_map]
  | command c =>
      show (c.guardedReduce env).map _ = ((c.reduce env).map _).mapError Fault.report
      rw [Command.guardedReduce_eq, except_mapError_map]

end WhileLanguage
