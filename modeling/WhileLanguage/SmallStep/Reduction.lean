import WhileLanguage.Environment
import WhileLanguage.Operation
import WhileLanguage.Phrase

/-!
# Reduction by single steps

One step of an expression or a command. A step is made at the leftmost place that is ready:
operands are reduced from left to right, then their operator is applied; a condition is
reduced to a value before it selects; the first part of a sequence ends before the second
begins; a loop becomes a choice between one more round and nothing. Read
`State.reduce_eq_irreducible_iff` first: asking for a step fails for want of one exactly on
normal forms.
-/

namespace WhileLanguage

/-- One step of an expression. -/
def Expr.reduce (env : Environment) : Expr → Except Fault Expr
  | literal value => .error (.irreducible (.value value))
  | var name => (env.lookup name).map literal
  | binary op (literal a) (literal b) => (op.apply a b).map literal
  | binary op (literal a) right => (right.reduce env).map (binary op (literal a))
  | binary op left right => (left.reduce env).map (binary op · right)

/-- One step of a command, with the environment after it. -/
def Command.reduce (env : Environment) : Command → Except Fault (Command × Environment)
  | skip => .error (.irreducible .done)
  | assign name (.literal value) => .ok (skip, env.insert name value)
  | assign name value => (value.reduce env).map fun value => (assign name value, env)
  | branch (.literal value) yes no =>
      value.truth.map fun holds => (if holds then yes else no, env)
  | branch condition yes no =>
      (condition.reduce env).map fun condition => (branch condition yes no, env)
  | seq skip second => .ok (second, env)
  | seq first second => (first.reduce env).map fun next => (seq next.1 second, next.2)
  | loop condition body => .ok (branch condition (seq body (loop condition body)) skip, env)

/-- A phrase that is being run, with the values of its names. -/
structure State where
  phrase : Phrase
  env : Environment
deriving DecidableEq

namespace State

/-- Whether a step can be made. -/
def isReducible (state : State) : Bool :=
  state.phrase.isReducible

/-- A state is written as its phrase and its environment with a comma between them. -/
def text (state : State) : String :=
  state.phrase.text ++ ", " ++ state.env.text

/-- One step. The environment changes by a command alone. -/
def reduce (state : State) : Except Fault State :=
  match state.phrase with
  | .expr e => (e.reduce state.env).map fun e => ⟨.expr e, state.env⟩
  | .command c => (c.reduce state.env).map fun next => ⟨.command next.1, next.2⟩

/-- The first steps of a run, each with the state in which it was made, to a fault at most. -/
def reductions : Nat → State → List (State × Except Fault State)
  | 0, _ => []
  | count + 1, state =>
      match state.reduce with
      | .ok next => (state, .ok next) :: reductions count next
      | .error fault => [(state, .error fault)]

end State

/-- A step that is mapped over fails as the step does. -/
theorem except_map_eq_error_iff {ε α β : Type} {f : α → β} {x : Except ε α} {e : ε} :
    x.map f = .error e ↔ x = .error e := by
  cases x <;> simp [Except.map]

/-- An operator that fails has met operands of the wrong kind. -/
theorem Operator.fault_of_apply {op : Operator} {a b : Value} {fault : Fault}
    (h : op.apply a b = .error fault) : fault = .operands op a.kind b.kind := by
  cases a <;> cases b <;> simp_all [apply]

/-- The step of an expression is missing exactly where the expression is a literal. -/
theorem Expr.reduce_eq_irreducible_iff {env : Environment} {e : Expr} {form : NormalForm} :
    e.reduce env = .error (.irreducible form) ↔ Phrase.expr e = form.toPhrase := by
  fun_induction Expr.reduce env e with
  | case1 v => cases form <;> simp [NormalForm.toPhrase, eq_comm]
  | case2 name =>
      rw [except_map_eq_error_iff, Environment.lookup]
      cases form <;> split <;> simp [NormalForm.toPhrase]
  | case3 op a b =>
      rw [except_map_eq_error_iff]
      constructor
      · intro h
        exact nomatch Operator.fault_of_apply h
      · cases form <;> simp [NormalForm.toPhrase]
  | case4 op a right hright ih =>
      rw [except_map_eq_error_iff, ih]
      cases form with
      | value v => simpa [NormalForm.toPhrase] using hright v
      | done => simp [NormalForm.toPhrase]
  | case5 op left right hboth hleft ih =>
      rw [except_map_eq_error_iff, ih]
      cases form with
      | value v => simpa [NormalForm.toPhrase] using hleft v
      | done => simp [NormalForm.toPhrase]

/-- The step of a command is missing exactly where the command does nothing. -/
theorem Command.reduce_eq_irreducible_iff {env : Environment} {c : Command} {form : NormalForm} :
    c.reduce env = .error (.irreducible form) ↔ Phrase.command c = form.toPhrase := by
  fun_induction Command.reduce env c with
  | case1 => cases form <;> simp [NormalForm.toPhrase]
  | case2 name v => cases form <;> simp [NormalForm.toPhrase]
  | case3 name value hvalue =>
      rw [except_map_eq_error_iff, Expr.reduce_eq_irreducible_iff]
      cases form with
      | value v => simpa [NormalForm.toPhrase] using hvalue v
      | done => simp [NormalForm.toPhrase]
  | case4 v yes no =>
      rw [except_map_eq_error_iff]
      cases v <;> cases form <;> simp [Value.truth, NormalForm.toPhrase]
  | case5 condition yes no hcondition =>
      rw [except_map_eq_error_iff, Expr.reduce_eq_irreducible_iff]
      cases form with
      | value v => simpa [NormalForm.toPhrase] using hcondition v
      | done => simp [NormalForm.toPhrase]
  | case6 second => cases form <;> simp [NormalForm.toPhrase]
  | case7 first second hfirst ih =>
      rw [except_map_eq_error_iff, ih]
      cases form with
      | value v => simp [NormalForm.toPhrase]
      | done => simpa [NormalForm.toPhrase] using hfirst
  | case8 condition body => cases form <;> simp [NormalForm.toPhrase]

/-- A step is missing exactly in a normal form, and the fault then names that form. -/
theorem State.reduce_eq_irreducible_iff {state : State} {form : NormalForm} :
    state.reduce = .error (.irreducible form) ↔ state.phrase = form.toPhrase := by
  obtain ⟨phrase, env⟩ := state
  cases phrase with
  | expr e =>
      simp only [reduce, except_map_eq_error_iff]
      exact Expr.reduce_eq_irreducible_iff
  | command c =>
      simp only [reduce, except_map_eq_error_iff]
      exact Command.reduce_eq_irreducible_iff

end WhileLanguage
