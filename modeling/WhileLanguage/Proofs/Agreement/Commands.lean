import WhileLanguage.Proofs.BigStep.Derivations
import WhileLanguage.Proofs.SmallStep.Commands
import WhileLanguage.Proofs.SmallStep.Steps

/-!
# Evaluation and reduction of a command agree

By `Command.evaluate_iff_run` a command that is evaluated without a limit returns an
environment or a fault exactly where the machine's run of it ends with that, and one of the
two returns if the other does. One direction is an induction on a derivation of the
evaluation, which builds the reductions; the other is an induction on the number of
reductions, and shows that a derivation for the state after a step is one for the state before.
-/

namespace WhileLanguage

/-! ## What is returned -/

namespace Phrase

/-- The evaluation of the phrase on a new account without a limit returns this result. -/
def Returns (p : Phrase) (env : Environment) (result : Except Fault Outcome) : Prop :=
  ∃ bound after, ({} : Evaluator).phrase bound env p = some (result, after)

/-- The machine's run of the phrase ends with this result. -/
def RunReturns (p : Phrase) (env : Environment) (result : Except Fault State) : Prop :=
  ∃ halt, (Machine.ofState ⟨p, env⟩).Returns halt ∧ halt.result = result

end Phrase

/-- Results are equal if they are so after a function that keeps values apart. -/
theorem except_map_inj {ε α β : Type} {f : α → β} (hf : ∀ {a b}, f a = f b → a = b)
    {x y : Except ε α} (h : x.map f = y.map f) : x = y := by
  cases x with
  | error fault =>
      cases y with
      | error other => exact congrArg Except.error (Except.error.inj h)
      | ok b => cases h
  | ok a =>
      cases y with
      | error other => cases h
      | ok b => exact congrArg Except.ok (hf (Except.ok.inj h))

namespace Command

/-- The evaluation of a command on a new account without a limit returns this environment or
fault. -/
def Returns (c : Command) (env : Environment) (result : Except Fault Environment) : Prop :=
  (Phrase.command c).Returns env (result.map .env)

/-- The machine's run of a command ends with this result. -/
def RunReturns (c : Command) (env : Environment) (result : Except Fault State) : Prop :=
  (Phrase.command c).RunReturns env result

/-- What the evaluation of a command gives is returned. -/
theorem returns_of_command {c : Command} {env : Environment} {result : Except Fault Environment}
    {bound : Nat} {after : Evaluator}
    (h : ({} : Evaluator).command bound c env = some (result, after)) : c.Returns env result :=
  ⟨bound, after, Option.map_eq_some_iff.2 ⟨_, h, rfl⟩⟩

/-- A new account without a limit gives what a derivation says, and has used its gas by then. -/
theorem exists_command_iff {c : Command} {env : Environment} {result : Except Fault Environment}
    {after : Evaluator} :
    (∃ bound, ({} : Evaluator).command bound c env = some (result, after)) ↔
      after.limit = none ∧ c.ComesTo env result after.used := by
  obtain ⟨used, limit⟩ := after
  rw [comesTo_iff 0, Nat.zero_add]
  constructor
  · intro h
    obtain ⟨bound, h⟩ := h
    obtain ⟨⟨other, spent⟩, hrun, heq⟩ := Option.map_eq_some_iff.1 h
    cases heq
    exact ⟨rfl, bound, hrun⟩
  · intro h
    obtain ⟨hlimit, bound, hrun⟩ := h
    dsimp only at hlimit
    subst hlimit
    exact ⟨bound, Option.map_eq_some_iff.2 ⟨_, hrun, rfl⟩⟩

/-- An evaluation returns exactly what has a derivation. -/
theorem returns_iff {c : Command} {env : Environment} {result : Except Fault Environment} :
    c.Returns env result ↔ ∃ gas, c.ComesTo env result gas := by
  constructor
  · intro h
    obtain ⟨bound, after, h⟩ := h
    obtain ⟨⟨other, spent⟩, hrun, heq⟩ := Option.map_eq_some_iff.1 h
    obtain ⟨hresult, rfl⟩ := Prod.mk.inj heq
    obtain rfl := except_map_inj Outcome.env.inj hresult
    exact ⟨spent.used, (exists_command_iff.1 ⟨bound, hrun⟩).2⟩
  · intro h
    obtain ⟨gas, h⟩ := h
    have hafter : (⟨gas, none⟩ : Evaluator).limit = none ∧ c.ComesTo env result gas := ⟨rfl, h⟩
    obtain ⟨bound, h⟩ := exists_command_iff.2 hafter
    exact returns_of_command h

/-- An evaluation returns one result only. -/
theorem Returns.unique {c : Command} {env : Environment} {result other : Except Fault Environment}
    (h : c.Returns env result) (hother : c.Returns env other) : result = other := by
  obtain ⟨gas, h⟩ := returns_iff.1 h
  obtain ⟨spent, hother⟩ := returns_iff.1 hother
  exact (h.unique hother).1

/-- Every derivation uses gas. -/
theorem ComesTo.gas_pos {c : Command} {env : Environment} {result : Except Fault Environment}
    {gas : Nat} (h : c.ComesTo env result gas) : 0 < gas := by
  cases h <;> omega

/-! ## From derivations to reductions -/

/-- Reductions end with what a derivation says. -/
theorem ComesTo.exists_reducesTo {c : Command} {env : Environment}
    {result : Except Fault Environment} {gas : Nat} (h : c.ComesTo env result gas) :
    ∃ steps, c.ReducesTo env result steps := by
  induction h with
  | skip => exact ⟨0, .skip⟩
  | @assign name value env =>
      cases hdenote : value.denote env with
      | ok v => exact ⟨_, .assign hdenote⟩
      | error fault => exact ReducesTo.assign_fault hdenote
  | branchFault htruth => exact ReducesTo.branch_fault htruth
  | branch htruth _ ih =>
      obtain ⟨steps, ih⟩ := ih
      exact ⟨_, .branch htruth ih⟩
  | seqFault _ ih =>
      obtain ⟨steps, ih⟩ := ih
      exact ⟨steps, ih.seq_fault⟩
  | seq _ _ ihfirst ihsecond =>
      obtain ⟨steps, ihfirst⟩ := ihfirst
      obtain ⟨more, ihsecond⟩ := ihsecond
      exact ⟨_, ihfirst.seq ihsecond⟩
  | loopFault htruth =>
      obtain ⟨steps, hbranch⟩ := ReducesTo.branch_fault htruth
      exact ⟨steps + 1, hbranch.loop⟩
  | loopEnd htruth => exact ⟨_, (ReducesTo.branch htruth .skip).loop⟩
  | loopBodyFault htruth _ ih =>
      obtain ⟨steps, ih⟩ := ih
      exact ⟨_, (ReducesTo.branch htruth ih.seq_fault).loop⟩
  | loopRound htruth _ _ ihbody ihloop =>
      obtain ⟨steps, ihbody⟩ := ihbody
      obtain ⟨more, ihloop⟩ := ihloop
      exact ⟨_, (ReducesTo.branch htruth (ihbody.seq ihloop)).loop⟩

/-! ## From reductions to derivations -/

/-- A step of a condition keeps its truth. -/
theorem truth_of_reduce {condition next : Expr} {env : Environment}
    (h : condition.reduce env = .ok next) : next.truth env = condition.truth env := by
  rw [Expr.truth, Expr.truth, Expr.denote_of_reduce h]

/-- A derivation for the branch that a loop becomes is one for the loop. -/
theorem ComesTo.of_unrolled {condition : Expr} {body : Command} {env : Environment}
    {result : Except Fault Environment} {gas : Nat}
    (h : ComesTo (.branch condition (.seq body (.loop condition body)) .skip) env result gas) :
    ∃ spent, ComesTo (.loop condition body) env result spent := by
  cases h with
  | branchFault htruth => exact ⟨_, .loopFault htruth⟩
  | @branch _ _ _ _ holds _ _ htruth h =>
      cases holds with
      | false =>
          cases h
          exact ⟨_, .loopEnd htruth⟩
      | true =>
          -- The loop that follows the body is entered again, and that unit is not charged here.
          cases h with
          | seqFault hbody => exact ⟨_, .loopBodyFault htruth hbody⟩
          | @seq _ _ _ _ _ _ rest hbody hloop =>
              obtain ⟨rounds, rfl⟩ : ∃ rounds, rest = 1 + rounds :=
                ⟨rest - 1, by have := hloop.gas_pos; omega⟩
              exact ⟨_, .loopRound htruth hbody hloop⟩

/-- A derivation for what a step leads to is one for what the step is made in. -/
theorem ComesTo.of_stepsTo {c next : Command} {env after : Environment}
    {result : Except Fault Environment} {gas : Nat} (hstep : c.StepsTo env next after)
    (h : next.ComesTo after result gas) : ∃ spent, c.ComesTo env result spent := by
  induction hstep generalizing result gas with
  | assigned hvalue =>
      cases h
      rw [Expr.denote_of_reduce hvalue]
      exact ⟨_, .assign⟩
  | bind =>
      cases h
      exact ⟨_, .assign⟩
  | tested hcondition =>
      have hkeep := truth_of_reduce hcondition
      cases h with
      | branchFault htruth => exact ⟨_, .branchFault (hkeep ▸ htruth)⟩
      | branch htruth h => exact ⟨_, .branch (hkeep ▸ htruth) h⟩
  | select htruth => exact ⟨_, .branch htruth h⟩
  | first _ ih =>
      cases h with
      | seqFault hfirst =>
          obtain ⟨spent, hfirst⟩ := ih hfirst
          exact ⟨_, .seqFault hfirst⟩
      | seq hfirst hsecond =>
          obtain ⟨spent, hfirst⟩ := ih hfirst
          exact ⟨_, .seq hfirst hsecond⟩
  | drop => exact ⟨_, .seq .skip h⟩
  | unroll => exact h.of_unrolled

/-- Where a step fails there is a derivation of its fault. -/
theorem exists_comesTo_of_reduce_error {c : Command} {env : Environment} {fault : Fault}
    (hreducible : c.isReducible = true) (h : c.reduce env = .error fault) :
    ∃ gas, c.ComesTo env (.error fault) gas := by
  fun_induction Command.reduce env c with
  | case1 => cases hreducible
  | case2 name v => cases h
  | case3 name value hvalue =>
      have hdenote := Expr.denote_of_reduce_error (Expr.isReducible_of_forall_ne hvalue)
        (except_map_eq_error_iff.1 h)
      exact ⟨_, .assign_of_error hdenote⟩
  | case4 v yes no => exact ⟨_, .branchFault (except_map_eq_error_iff.1 h)⟩
  | case5 condition yes no hcondition =>
      have hdenote := Expr.denote_of_reduce_error (Expr.isReducible_of_forall_ne hcondition)
        (except_map_eq_error_iff.1 h)
      exact ⟨_, .branchFault (Expr.truth_eq_error_iff.2 (.inl hdenote))⟩
  | case6 second => cases h
  | case7 first second hfirst ih =>
      obtain ⟨gas, ih⟩ := ih (isReducible_of_ne hfirst) (except_map_eq_error_iff.1 h)
      exact ⟨_, .seqFault ih⟩
  | case8 condition body => cases h

/-- Where reductions end there is a derivation of what they end with. -/
theorem exists_comesTo_of_ends {c : Command} {env : Environment} {steps : Nat}
    {result : Except Fault State} (h : State.Ends ⟨.command c, env⟩ steps result) :
    ∃ final gas, c.ComesTo env final gas ∧
      result = final.map fun final => ⟨.command skip, final⟩ := by
  -- The derivation for the last state is carried back over the steps, up to the first one.
  induction steps generalizing c env with
  | zero =>
      obtain ⟨last, hafter, hstop⟩ := h
      cases hafter
      cases result with
      | ok final =>
          obtain ⟨rfl, hnormal⟩ := hstop
          obtain rfl := isReducible_eq_false_iff.1 hnormal
          exact ⟨.ok env, 1, .skip, rfl⟩
      | error fault =>
          obtain ⟨hreducible, hreduce⟩ := hstop
          obtain ⟨gas, hfault⟩ :=
            exists_comesTo_of_reduce_error hreducible (except_map_eq_error_iff.1 hreduce)
          exact ⟨.error fault, gas, hfault, rfl⟩
  | succ steps ih =>
      obtain ⟨last, hafter, hstop⟩ := h
      obtain ⟨next, hreduce, hrest⟩ := State.reduce_of_after_succ hafter
      obtain ⟨reduced, after, hrule, rfl⟩ := State.exists_stepsTo hreduce
      obtain ⟨final, gas, hfinal, hresult⟩ := ih ⟨last, hrest, hstop⟩
      obtain ⟨spent, hfinal⟩ := ComesTo.of_stepsTo hrule hfinal
      exact ⟨final, spent, hfinal, hresult⟩

/-! ## Agreement -/

/-- A command's evaluation returns a result exactly where its run ends with it. -/
theorem returns_iff_runReturns {c : Command} {env : Environment}
    {result : Except Fault Environment} :
    c.Returns env result ↔
      c.RunReturns env (result.map fun final => ⟨.command skip, final⟩) := by
  rw [returns_iff]
  constructor
  · rintro ⟨gas, h⟩
    obtain ⟨steps, hends⟩ := h.exists_reducesTo
    obtain ⟨halt, hreturns, -, hresult⟩ := Machine.ends_iff_returns.1 hends
    exact ⟨halt, hreturns, hresult⟩
  · rintro ⟨halt, hreturns, hresult⟩
    have hends := Machine.ends_iff_returns.2 ⟨halt, hreturns, rfl, hresult⟩
    obtain ⟨final, gas, hfinal, heq⟩ := exists_comesTo_of_ends hends
    refine ⟨gas, ?_⟩
    cases result <;> cases final <;> cases heq <;> exact hfinal

/-- Evaluation without a limit and the machine's run agree on every command in every
environment: on environments, on faults, and on whether they return at all. -/
theorem evaluate_iff_run (c : Command) (env : Environment) :
    (∀ final, c.Returns env (.ok final) ↔ c.RunReturns env (.ok ⟨.command skip, final⟩)) ∧
    (∀ fault, c.Returns env (.error fault) ↔ c.RunReturns env (.error fault)) ∧
    ((∀ result, ¬ c.Returns env result) ↔ ∀ result, ¬ c.RunReturns env result) := by
  refine ⟨fun final => returns_iff_runReturns, fun fault => returns_iff_runReturns, ?_⟩
  constructor
  · rintro h result ⟨halt, hreturns, hresult⟩
    have hends := Machine.ends_iff_returns.2 ⟨halt, hreturns, rfl, hresult⟩
    obtain ⟨final, gas, hfinal, -⟩ := exists_comesTo_of_ends hends
    exact h final (returns_iff.2 ⟨gas, hfinal⟩)
  · intro h result hresult
    exact h _ (returns_iff_runReturns.1 hresult)

end Command

end WhileLanguage
