import WhileLanguage.Proofs.Agreement.Phrases
import WhileLanguage.Proofs.Names.Assignments
import WhileLanguage.Proofs.SmallStep.Guards

/-!
# Faults are due to the program

A program that fails without a limit has met values of the wrong kind, or a name of its own that has
no value: read `Fault.DueTo` for what that says, and `Phrase.faults_due` for all the ways to run a
phrase. A step that fails is due to the phrase that is left then, by `State.Stops.dueTo`. It is due
to the start of the run as well, since steps bring in no names and take no name's value away, by
`State.Follows.of_reduce`. That a step is missing is a fault of another class, which nothing reports
but a step that is asked of a normal form.
-/

namespace WhileLanguage

namespace Fault

/-- A fault is due to a phrase in an environment if it is of the class of names without a value or
of that of wrong kinds, and the name that it is about, if there is one, occurs in the phrase and has
no value in the environment. -/
structure DueTo (p : Phrase) (env : Environment) (fault : Fault) : Prop where
  faultClass : fault.faultClass = .unboundVariable ∨ fault.faultClass = .typeMismatch
  occurs : ∀ name, fault = .unbound name → name ∈ p.names
  missing : ∀ name, fault = .unbound name → env.contains name = false

variable {p whole : Phrase} {env start : Environment} {fault : Fault}

/-- A name that occurs and has no value is a due fault. -/
theorem dueTo_unbound {name : String} (hmem : name ∈ p.names)
    (hmissing : env.contains name = false) : (unbound name).DueTo p env where
  faultClass := .inl rfl
  occurs _ heq := unbound.inj heq ▸ hmem
  missing _ heq := unbound.inj heq ▸ hmissing

/-- Values of the wrong kind are a due fault. -/
theorem dueTo_of_typeMismatch (h : fault.faultClass = .typeMismatch) : fault.DueTo p env where
  faultClass := .inr h
  occurs name heq := by
    subst heq
    cases h
  missing name heq := by
    subst heq
    cases h

/-- A fault is due to every phrase with the same names, and where no more names have a value. -/
theorem DueTo.mono (h : fault.DueTo p env) (hnames : p.names ⊆ whole.names)
    (hbound : ∀ name, start.contains name = true → env.contains name = true) :
    fault.DueTo whole start where
  faultClass := h.faultClass
  occurs name heq := hnames (h.occurs name heq)
  missing name heq := by
    have hmissing := h.missing name heq
    cases hstart : start.contains name with
    | false => rfl
    | true => rw [hbound name hstart] at hmissing; cases hmissing

end Fault

/-! ## Steps that fail -/

section Steps

variable {env : Environment} {fault : Fault}

/-- A step that an expression fails to make is due to it. -/
theorem Expr.dueTo_of_reduce_error {e : Expr} (hreducible : e.isReducible = true)
    (h : e.reduce env = .error fault) : fault.DueTo (.expr e) env := by
  fun_induction Expr.reduce env e with
  | case1 v => cases hreducible
  | case2 name =>
      obtain ⟨rfl, hmissing⟩ := Environment.lookup_eq_error_iff.1 (except_map_eq_error_iff.1 h)
      exact Fault.dueTo_unbound (List.mem_singleton_self name) hmissing
  | case3 op a b =>
      rw [Operator.fault_of_apply (except_map_eq_error_iff.1 h)]
      exact Fault.dueTo_of_typeMismatch rfl
  | case4 op a right hright ih =>
      have hfault := ih (isReducible_of_forall_ne hright) (except_map_eq_error_iff.1 h)
      exact hfault.mono (List.subset_append_right _ _) fun _ hname => hname
  | case5 op left right _ hleft ih =>
      have hfault := ih (isReducible_of_forall_ne hleft) (except_map_eq_error_iff.1 h)
      exact hfault.mono (List.subset_append_left _ _) fun _ hname => hname

/-- A step that a command fails to make is due to it. -/
theorem Command.dueTo_of_reduce_error {c : Command} (hreducible : c.isReducible = true)
    (h : c.reduce env = .error fault) : fault.DueTo (.command c) env := by
  fun_induction Command.reduce env c with
  | case1 => cases hreducible
  | case2 | case6 | case8 => cases h
  | case3 name value hvalue =>
      have hfault := Expr.dueTo_of_reduce_error (Expr.isReducible_of_forall_ne hvalue)
        (except_map_eq_error_iff.1 h)
      exact hfault.mono (List.subset_cons_self _ _) fun _ hname => hname
  | case4 v yes no =>
      have htruth := except_map_eq_error_iff.1 h
      cases v with
      | boolean holds => cases htruth
      | number n =>
          obtain rfl := Except.error.inj htruth
          exact Fault.dueTo_of_typeMismatch rfl
  | case5 condition yes no hcondition =>
      have hfault := Expr.dueTo_of_reduce_error (Expr.isReducible_of_forall_ne hcondition)
        (except_map_eq_error_iff.1 h)
      refine hfault.mono ?_ fun _ hname => hname
      show condition.names ⊆ condition.names ++ yes.names ++ no.names
      rw [List.append_assoc]
      exact List.subset_append_left _ _
  | case7 first second hfirst ih =>
      have hfault := ih (isReducible_of_ne hfirst) (except_map_eq_error_iff.1 h)
      exact hfault.mono (List.subset_append_left _ _) fun _ hname => hname

/-- A fault that stops a state is due to its phrase. -/
theorem State.Stops.dueTo {state : State} (h : state.Stops (some fault)) :
    fault.DueTo state.phrase state.env := by
  obtain ⟨phrase, env⟩ := state
  obtain ⟨hreducible, hreduce⟩ := h
  cases phrase with
  | expr e => exact Expr.dueTo_of_reduce_error hreducible (except_map_eq_error_iff.1 hreduce)
  | command c => exact Command.dueTo_of_reduce_error hreducible (except_map_eq_error_iff.1 hreduce)

/-- A step fails for want of one exactly on a normal form. -/
theorem State.exists_contractViolation_iff {state : State} :
    (∃ fault, state.reduce = .error fault ∧ fault.faultClass = .contractViolation) ↔
      state.isReducible = false := by
  constructor
  · intro h
    obtain ⟨fault, hreduce, hclass⟩ := h
    cases hreducible : state.isReducible with
    | false => rfl
    | true =>
        have hstops : state.Stops (some fault) := ⟨hreducible, hreduce⟩
        rcases hstops.dueTo.faultClass with hother | hother <;> cases hclass.symm.trans hother
  · intro h
    obtain ⟨form, hform⟩ := Phrase.isReducible_eq_false_iff.1 h
    exact ⟨.irreducible form, reduce_eq_irreducible_iff.2 hform, rfl⟩

end Steps

/-! ## Runs -/

/-- What holds of a state on the way from `start`: its phrase has no other names, and names that had
a value have one. -/
structure State.Follows (start state : State) : Prop where
  names : state.phrase.names ⊆ start.phrase.names
  bound : ∀ name, start.env.contains name = true → state.env.contains name = true

namespace State.Follows

variable {start state next : State}

/-- A state is on the way from itself. -/
protected theorem refl (start : State) : start.Follows start where
  names := List.Subset.refl _
  bound _ h := h

/-- A step brings in no names, and takes no name's value away. -/
theorem of_reduce (h : start.Follows state) (hstep : state.reduce = .ok next) :
    start.Follows next := by
  obtain ⟨phrase, env⟩ := state
  obtain ⟨hnames, hbound⟩ := h
  cases phrase with
  | expr e =>
      obtain ⟨reduced, hreduced, rfl⟩ := except_map_eq_ok_iff.1 hstep
      exact ⟨List.Subset.trans (Expr.names_of_reduce hreduced) hnames, hbound⟩
  | command c =>
      obtain ⟨reduced, after, hrule, rfl⟩ := State.exists_stepsTo hstep
      refine ⟨List.Subset.trans hrule.names_subset hnames, fun name hname => ?_⟩
      have hbefore := hbound name hname
      rcases hrule.env_eq with rfl | ⟨target, -, v, rfl⟩
      · exact hbefore
      · exact Environment.contains_insert.2 (.inr hbefore)

end State.Follows

/-- A fault that ends a run without a limit is due to the phrase that was run, and to the one that
is left where the run has stopped. -/
theorem Machine.Returns.dueTo {start : State} {last : Machine} {fault : Fault}
    (h : (ofState start).Returns ⟨last, some fault⟩) :
    fault.DueTo start.phrase start.env ∧ fault.DueTo last.state.phrase last.state.env := by
  obtain ⟨-, hafter, hstops⟩ := ofState_returns_iff.1 h
  have hlast := hstops.dueTo
  have hfollows := State.after_keeps State.Follows.of_reduce (State.Follows.refl start) hafter
  exact ⟨hlast.mono hfollows.names hfollows.bound, hlast⟩

namespace Phrase

/-- A fault that an evaluation without a limit returns is due to the phrase. -/
theorem Returns.dueTo {p : Phrase} {env : Environment} {fault : Fault}
    (h : p.Returns env (.error fault)) : fault.DueTo p env := by
  obtain ⟨⟨last, fault?⟩, hreturns, hresult⟩ := runReturns_iff.2 ⟨_, h, rfl⟩
  cases fault? with
  | none => cases hresult
  | some other =>
      obtain rfl := Except.error.inj hresult
      exact hreturns.dueTo.1

/-- A step of a phrase violates the contract exactly if the phrase says that it has none, and this
stays so if the places in it are asked as well. Without a limit, a run, an evaluation and the call
of a compiled expression fail with nothing but what is due to the phrase in the environment of the
start: values of the wrong kind, or a name that occurs in it and has no value there. Such a name has
no value where the run has stopped either. -/
theorem faults_due (p : Phrase) (env : Environment) :
    ((∃ fault, State.reduce ⟨p, env⟩ = .error fault ∧ fault.faultClass = .contractViolation) ↔
      p.isReducible = false) ∧
    State.guardedReduce ⟨p, env⟩ = (State.reduce ⟨p, env⟩).mapError Fault.report ∧
    (∀ last fault, (Machine.ofState ⟨p, env⟩).Returns ⟨last, some fault⟩ →
      fault.DueTo p env ∧
        ∀ name, fault = .unbound name → last.state.env.contains name = false) ∧
    (∀ fault, p.Returns env (.error fault) → fault.DueTo p env) ∧
    ∀ e, p = .expr e → ∀ fault, e.compile.call env = .error fault → fault.DueTo p env := by
  refine ⟨State.exists_contractViolation_iff, State.guardedReduce_eq _, fun last fault h => ?run,
    fun fault h => h.dueTo, fun e he fault h => ?call⟩
  case run =>
    obtain ⟨hstart, hlast⟩ := h.dueTo
    exact ⟨hstart, hlast.missing⟩
  case call =>
    subst he
    have hcall : e.denote env = .error fault := h
    have hreturns : (expr e).Returns env (.error fault) := by
      rw [returns_expr_iff, hcall]
      rfl
    exact hreturns.dueTo

/-- In `x = 1; y = x + missing` the first part binds `x`, and the second fails in its right operand.
The run stops there, and the evaluation returns the same fault. -/
theorem faults_due_after_assignment :
    let env := Environment.empty.insert "z" (.boolean true)
    let c : Command := .seq (.assign "x" (.literal (.number 1)))
      (.assign "y" (.binary .add (.var "x") (.var "missing")))
    (command c).Returns env (.error (.unbound "missing")) ∧
      "missing" ∈ (command c).names ∧ env.contains "missing" = false ∧
      ∃ last : Machine,
        (Machine.ofState ⟨command c, env⟩).Returns ⟨last, some (.unbound "missing")⟩ ∧
        last.state.env.contains "x" = true ∧ last.state.env.contains "missing" = false := by
  intro env c
  have hreturns : (command c).Returns env (.error (.unbound "missing")) := ⟨0, ⟨7, none⟩, rfl⟩
  obtain ⟨-, -, hrun, heval, -⟩ := faults_due (command c) env
  have hdue := heval _ hreturns
  let last : Machine :=
    ⟨⟨command (.assign "y" (.binary .add (.literal (.number 1)) (.var "missing"))),
      env.insert "x" (.number 1)⟩, 3, none⟩
  have hlast : (Machine.ofState ⟨command c, env⟩).Returns ⟨last, some (.unbound "missing")⟩ :=
    ⟨4, rfl⟩
  refine ⟨hreturns, hdue.occurs _ rfl, hdue.missing _ rfl, last, hlast, rfl, ?_⟩
  exact (hrun last _ hlast).2 _ rfl

end Phrase

end WhileLanguage
