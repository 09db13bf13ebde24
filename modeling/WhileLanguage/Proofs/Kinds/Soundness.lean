import WhileLanguage.Proofs.Agreement.Commands
import WhileLanguage.Proofs.BigStep.Metering
import WhileLanguage.Proofs.Kinds.Expressions
import WhileLanguage.Proofs.SmallStep.Histories

/-!
# Commands that respect kinds do not fail

Where names have kinds, a command respects them if it assigns to them values of their kinds
only, and tests booleans only. Read `Command.WellKinded.runs_without_fault`: such a command runs
without a fault in every environment with those kinds, by steps and in one go, but for a limit.
`Command.WellKinded.of_stepsTo` and `Command.WellKinded.exists_reduce` are the two facts about a
step that carry this over a run.
-/

namespace WhileLanguage

namespace Command

/-- A command that respects the kinds of names: it assigns to names that have a kind, of that
kind, and all its conditions are booleans. -/
inductive WellKinded (kinds : String → Option Kind) : Command → Prop where
  | skip : WellKinded kinds skip
  | assign {name value kind} :
      kinds name = some kind → value.kind? kinds = some kind →
      WellKinded kinds (assign name value)
  | branch {condition yes no} :
      condition.kind? kinds = some .boolean → WellKinded kinds yes → WellKinded kinds no →
      WellKinded kinds (branch condition yes no)
  | seq {first second} :
      WellKinded kinds first → WellKinded kinds second → WellKinded kinds (seq first second)
  | loop {condition body} :
      condition.kind? kinds = some .boolean → WellKinded kinds body →
      WellKinded kinds (loop condition body)

namespace WellKinded

variable {env after : Environment} {c next : Command}

/-- A step leads to a command that respects the same kinds, and does not change them. -/
theorem of_stepsTo (h : c.WellKinded env.kinds) (hstep : c.StepsTo env next after) :
    next.WellKinded env.kinds ∧ after.kinds = env.kinds := by
  induction hstep with
  | assigned hreduced =>
      cases h with
      | assign hname hvalue =>
          exact ⟨.assign hname (Expr.kind?_of_reduce hvalue hreduced), rfl⟩
  | bind =>
      cases h with
      | assign hname hvalue =>
          rw [← hvalue] at hname
          exact ⟨.skip, Environment.kinds_insert hname⟩
  | tested hreduced =>
      cases h with
      | branch hcondition hyes hno =>
          exact ⟨.branch (Expr.kind?_of_reduce hcondition hreduced) hyes hno, rfl⟩
  | @select _ holds _ _ _ =>
      cases h with
      | branch _ hyes hno => exact ⟨by cases holds <;> assumption, rfl⟩
  | first _ ih =>
      cases h with
      | seq hfirst hsecond =>
          obtain ⟨hnext, hkinds⟩ := ih hfirst
          exact ⟨.seq hnext hsecond, hkinds⟩
  | drop =>
      cases h with
      | seq _ hsecond => exact ⟨hsecond, rfl⟩
  | unroll =>
      cases h with
      | loop hcondition hbody =>
          exact ⟨.branch hcondition (.seq hbody (.loop hcondition hbody)) .skip, rfl⟩

/-- A command that respects kinds does nothing or has a step that succeeds. -/
theorem exists_reduce (h : c.WellKinded env.kinds) (hreducible : c.isReducible = true) :
    ∃ result, c.reduce env = .ok result := by
  fun_induction Command.reduce env c with
  | case1 => cases hreducible
  | case2 name v => exact ⟨_, rfl⟩
  | case3 name value hvalue =>
      cases h with
      | assign _ hkind =>
          obtain ⟨reduced, hreduced⟩ :=
            Expr.exists_reduce_of_kind? hkind (Expr.isReducible_of_forall_ne hvalue)
          exact ⟨_, except_map_eq_ok_iff.2 ⟨reduced, hreduced, rfl⟩⟩
  | case4 v yes no =>
      cases h with
      | branch hcondition _ _ =>
          obtain ⟨holds, rfl⟩ := Value.kind_eq_boolean_iff.1 (Option.some.inj hcondition)
          exact ⟨_, rfl⟩
  | case5 condition yes no hvalue =>
      cases h with
      | branch hcondition _ _ =>
          obtain ⟨reduced, hreduced⟩ :=
            Expr.exists_reduce_of_kind? hcondition (Expr.isReducible_of_forall_ne hvalue)
          exact ⟨_, except_map_eq_ok_iff.2 ⟨reduced, hreduced, rfl⟩⟩
  | case6 second => exact ⟨_, rfl⟩
  | case7 first second hfirst ih =>
      cases h with
      | seq hkinded _ =>
          obtain ⟨result, hresult⟩ := ih hkinded (isReducible_of_ne hfirst)
          exact ⟨_, except_map_eq_ok_iff.2 ⟨result, hresult, rfl⟩⟩
  | case8 condition body => exact ⟨_, rfl⟩

end WellKinded

end Command

/-! ## Runs -/

/-- A state whose command respects the kinds, in an environment that has just these. -/
def State.WellKinded (kinds : String → Option Kind) (state : State) : Prop :=
  ∃ c, state.phrase = .command c ∧ c.WellKinded kinds ∧ state.env.kinds = kinds

namespace State.WellKinded

variable {kinds : String → Option Kind} {state next : State}

/-- A step leads to a state that respects the same kinds. -/
theorem of_reduce (h : state.WellKinded kinds) (hstep : state.reduce = .ok next) :
    next.WellKinded kinds := by
  obtain ⟨phrase, env⟩ := state
  obtain ⟨c, rfl, hc, rfl⟩ := h
  obtain ⟨reduced, after, hrule, rfl⟩ := State.exists_stepsTo hstep
  obtain ⟨hnext, hkinds⟩ := hc.of_stepsTo hrule
  exact ⟨reduced, rfl, hnext, hkinds⟩

/-- A state that respects kinds has nothing left to do or a step that succeeds. -/
theorem exists_reduce (h : state.WellKinded kinds) :
    state.phrase = .command .skip ∨ ∃ next, state.reduce = .ok next := by
  obtain ⟨phrase, env⟩ := state
  obtain ⟨c, rfl, hc, rfl⟩ := h
  cases hreducible : c.isReducible with
  | false => exact .inl (congrArg _ (Command.isReducible_eq_false_iff.1 hreducible))
  | true =>
      obtain ⟨result, hresult⟩ := hc.exists_reduce hreducible
      exact .inr ⟨_, except_map_eq_ok_iff.2 ⟨result, hresult, rfl⟩⟩

/-- No fault stops a state that respects kinds. -/
theorem not_stops (h : state.WellKinded kinds) (fault : Fault) : ¬ state.Stops (some fault) := by
  rintro ⟨hreducible, hstep⟩
  rcases h.exists_reduce with hdone | ⟨next, hnext⟩
  · rw [isReducible, hdone] at hreducible
    cases hreducible
  · rw [hnext] at hstep
    cases hstep

/-- The only fault of a run from a state that respects kinds is that of a limit. -/
theorem of_returns {machine last : Machine} {fault : Fault}
    (h : machine.state.WellKinded kinds) (hreturns : machine.Returns ⟨last, some fault⟩) :
    ∃ limit, machine.limit = some limit ∧ fault = .exhausted limit := by
  obtain ⟨count, state, -, hafter, rfl, hstops⟩ := hreturns.exists_after
  have hlast := State.after_keeps of_reduce h hafter
  rcases Machine.reduce_or_limit_of_step_fault hstops.2 with hreduce | hlimit
  · exact absurd ⟨by simpa [Machine.isNormal] using hstops.1, hreduce⟩ (hlast.not_stops fault)
  · exact hlimit

end State.WellKinded

namespace Command.WellKinded

variable {kinds : String → Option Kind} {c : Command} {env : Environment}

/-- An evaluation without a limit does not fail on a command that respects kinds. -/
theorem not_returns_error (hc : c.WellKinded kinds) (henv : env.kinds = kinds) (fault : Fault) :
    ¬ c.Returns env (.error fault) := by
  intro h
  obtain ⟨⟨last, fault?⟩, hreturns, hresult⟩ := returns_iff_runReturns.1 h
  cases fault? with
  | none => cases hresult
  | some other =>
      have hstart : State.WellKinded kinds ⟨.command c, env⟩ := ⟨c, rfl, hc, henv⟩
      obtain ⟨limit, hlimit, -⟩ := State.WellKinded.of_returns hstart hreturns
      cases hlimit

/-- The only fault of an evaluation under a limit is that of the limit. -/
theorem evaluate_eq_error (hc : c.WellKinded kinds) (henv : env.kinds = kinds)
    {bound limit used after : Nat} {fault : Fault}
    (h : c.evaluate bound (some limit) env used = some (.error fault, after)) :
    fault = .exhausted limit := by
  rcases Nat.lt_or_ge used limit with hlt | hle
  · rcases (c.evaluate_metered limit bound env).of_error (Nat.le_of_lt hlt) h with hfault | hplain
    · exact hfault
    · obtain ⟨gas, -, hcomes⟩ := comesTo_of_evaluate hplain
      exact absurd (returns_iff.2 ⟨gas, hcomes⟩) (hc.not_returns_error henv fault)
  · rw [c.evaluate_of_limit_le hle] at h
    cases h
    rfl

/-- A command that respects kinds runs without a fault in an environment with just those kinds.
After any number of steps the command that is left respects them too, the environment has them
still, and there is a step that succeeds or nothing left to do. So neither a run nor an
evaluation without a limit fails, and under a limit both fail with the limit's fault only. -/
theorem runs_without_fault (hc : c.WellKinded kinds) (henv : env.kinds = kinds) :
    (∀ limit count,
      let reached := ((Machine.new ⟨.command c, env⟩ limit).advance count).machine.state
      reached.WellKinded kinds ∧
        (reached.phrase = .command .skip ∨ ∃ next, reached.reduce = .ok next)) ∧
    (∀ fault, ¬ c.RunReturns env (.error fault)) ∧
    (∀ fault, ¬ c.Returns env (.error fault)) ∧
    (∀ limit last fault,
      (Machine.new ⟨.command c, env⟩ (some limit)).Returns ⟨last, some fault⟩ →
        fault = .exhausted limit) ∧
    (∀ bound used limit fault after,
      (⟨used, some limit⟩ : Evaluator).command bound c env = some (.error fault, after) →
        fault = .exhausted limit) := by
  have hstart : ∀ limit, (Machine.new ⟨.command c, env⟩ limit).state.WellKinded kinds := by
    intro limit
    rw [Machine.new_eq]
    exact ⟨c, rfl, hc, henv⟩
  refine ⟨fun limit count => ?steps, fun fault h => ?run, hc.not_returns_error henv,
    fun limit last fault h => ?limitedRun, fun bound used limit fault after h => ?limited⟩
  case steps =>
    have hreached := Machine.advance_keeps State.WellKinded.of_reduce (hstart limit) count
    exact ⟨hreached, hreached.exists_reduce⟩
  case run => exact hc.not_returns_error henv fault (returns_iff_runReturns.2 h)
  case limitedRun =>
    obtain ⟨other, hother, hfault⟩ := (hstart (some limit)).of_returns h
    rw [Machine.new_eq] at hother
    cases hother
    exact hfault
  case limited =>
    obtain ⟨⟨result, spent⟩, hrun, heq⟩ := Option.map_eq_some_iff.1 h
    cases heq
    exact hc.evaluate_eq_error henv hrun

/-- A loop that counts to three and sets a flag in every round keeps the kinds of both names. -/
theorem counting_runs_without_fault :
    let env := (Environment.empty.insert "flag" (.boolean true)).insert "i" (.number 0)
    let round : Command :=
      .seq (.assign "i" (.binary .add (.var "i") (.literal (.number 1))))
        (.assign "flag" (.binary .lessThan (.var "i") (.literal (.number 2))))
    let c : Command := .loop (.binary .lessThan (.var "i") (.literal (.number 3))) round
    c.WellKinded env.kinds ∧
      ((Machine.new ⟨.command c, env⟩ none).advance 12).machine.state.WellKinded env.kinds ∧
      (∀ fault, ¬ c.RunReturns env (.error fault)) ∧
      (∀ fault, ¬ c.Returns env (.error fault)) ∧
      ∀ last fault, (Machine.new ⟨.command c, env⟩ (some 7)).Returns ⟨last, some fault⟩ →
        fault = .exhausted 7 := by
  intro env round c
  have hi : env.kinds "i" = some .number := rfl
  have hflag : env.kinds "flag" = some .boolean := rfl
  have hless : ∀ n, Expr.kind? env.kinds (.binary .lessThan (.var "i") (.literal (.number n))) =
      some .boolean := fun n => Expr.kind?_binary_eq_some_iff.2 ⟨hi, rfl, rfl⟩
  have hsum : Expr.kind? env.kinds (.binary .add (.var "i") (.literal (.number 1))) =
      some .number := Expr.kind?_binary_eq_some_iff.2 ⟨hi, rfl, rfl⟩
  have hc : c.WellKinded env.kinds :=
    .loop (hless 3) (.seq (.assign hi hsum) (.assign hflag (hless 2)))
  obtain ⟨hsteps, hrun, hreturns, hlimited, -⟩ := hc.runs_without_fault rfl
  exact ⟨hc, (hsteps none 12).1, hrun, hreturns, hlimited 7⟩

end Command.WellKinded

end WhileLanguage
