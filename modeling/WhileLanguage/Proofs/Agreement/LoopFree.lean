import WhileLanguage.Proofs.Agreement.Costs
import WhileLanguage.Proofs.BigStep.Metering
import WhileLanguage.Proofs.SmallStep.Limits

/-!
# Commands without loops

A command without loops always comes to an end, within its size: read
`Command.LoopFree.finishes_within_nodes`. An evaluation visits every node once at most. Every step
of a run lowers `Command.work`, which is at most the number of nodes to begin with, and of which
something is left where a step fails. So a limit of as many units of gas, or of as many steps, as
the command has nodes changes nothing.
-/

namespace WhileLanguage

namespace Command

variable {c next : Command} {env after : Environment}

/-- A command in which no loop occurs. -/
inductive LoopFree : Command → Prop where
  | skip : LoopFree skip
  | assign (name : String) (value : Expr) : LoopFree (assign name value)
  | branch (condition : Expr) {yes no} :
      LoopFree yes → LoopFree no → LoopFree (branch condition yes no)
  | seq {first second} : LoopFree first → LoopFree second → LoopFree (seq first second)

/-! ## Evaluations -/

/-- A command without loops comes to a result, for a unit of gas for each node at most. -/
theorem LoopFree.exists_comesTo (h : c.LoopFree) (env : Environment) :
    ∃ result gas, c.ComesTo env result gas ∧ gas ≤ c.nodes := by
  induction h generalizing env with
  | skip => exact ⟨.ok env, 1, .skip, Nat.le_refl 1⟩
  | assign name value =>
      exact ⟨_, _, .assign, Nat.add_le_add_left (value.cost_le_nodes env) 1⟩
  | @branch condition yes no _ _ ihyes ihno =>
      have hcost := condition.cost_le_nodes env
      cases htruth : condition.truth env with
      | error fault =>
          refine ⟨_, _, .branchFault htruth, ?_⟩
          unfold nodes
          omega
      | ok holds =>
          obtain ⟨result, gas, hselected, hgas⟩ : ∃ result gas,
              (if holds then yes else no).ComesTo env result gas ∧ gas ≤ yes.nodes + no.nodes := by
            cases holds with
            | true =>
                obtain ⟨result, gas, hyes, hgas⟩ := ihyes env
                exact ⟨result, gas, hyes, Nat.le_add_right_of_le hgas⟩
            | false =>
                obtain ⟨result, gas, hno, hgas⟩ := ihno env
                exact ⟨result, gas, hno, Nat.le_add_left_of_le hgas⟩
          refine ⟨result, _, .branch htruth hselected, ?_⟩
          unfold nodes
          omega
  | @seq first second _ _ ihfirst ihsecond =>
      obtain ⟨result, gas, hfirst, hgas⟩ := ihfirst env
      cases result with
      | error fault =>
          refine ⟨_, _, .seqFault hfirst, ?_⟩
          unfold nodes
          omega
      | ok middle =>
          obtain ⟨final, rest, hsecond, hrest⟩ := ihsecond middle
          refine ⟨final, _, .seq hfirst hsecond, ?_⟩
          unfold nodes
          omega

/-- A bound on rounds makes no difference to a command that makes none. -/
theorem LoopFree.evaluate_eq (h : c.LoopFree) (bound greater : Nat) (limit : Option Nat)
    (env : Environment) : c.evaluate bound limit env = c.evaluate greater limit env := by
  induction h generalizing env with
  | skip | assign => rfl
  | branch _ _ _ ihyes ihno => simp only [evaluate, ihyes, ihno]
  | seq _ _ ihfirst ihsecond => simp only [evaluate, ihfirst, ihsecond]

/-- A command without loops is evaluated alike without a limit and under its number of nodes. -/
theorem LoopFree.exists_command (h : c.LoopFree) (env : Environment) :
    ∃ result gas,
      (∀ bound, ({} : Evaluator).command bound c env = some (result, ⟨gas, none⟩)) ∧
      ∀ bound, (⟨0, some c.nodes⟩ : Evaluator).command bound c env =
        some (result, ⟨gas, some c.nodes⟩) := by
  obtain ⟨result, gas, hcomes, hgas⟩ := h.exists_comesTo env
  obtain ⟨enough, hevaluate⟩ := (comesTo_iff 0).1 hcomes
  have hplain bound : c.evaluate bound none env 0 = some (result, gas) := by
    rw [h.evaluate_eq bound enough, hevaluate, Nat.zero_add]
  refine ⟨result, gas, fun bound => ?plain, fun bound => ?limited⟩
  case plain =>
    unfold Evaluator.command
    rw [hplain]
    rfl
  case limited =>
    have hcapped := (c.evaluate_metered c.nodes bound env).capped 0 _ (Nat.zero_le _) (hplain bound)
    rw [Bounded.capped_of_le hgas] at hcapped
    unfold Evaluator.command
    rw [hcapped]
    rfl

/-! ## Runs -/

/-- The steps that are left to make in a command without loops, at most: those of its expressions,
and one for every name to bind, every branch to select and every first part to drop. Of a loop only
the step that unrolls it is counted. -/
def work : Command → Nat
  | skip => 0
  | assign _ value => value.work + 1
  | branch condition yes no => condition.work + 1 + max yes.work no.work
  | seq first second => first.work + 1 + second.work
  | loop _ _ => 1

/-- What has a step has work left. -/
theorem work_pos (h : c.isReducible = true) : 0 < c.work := by
  cases c with
  | skip => cases h
  | assign | branch | seq | loop => unfold work; omega

/-- Every step of a command without loops is made at a node of its own. -/
theorem work_le_nodes (c : Command) : c.work ≤ c.nodes := by
  induction c with
  | skip => exact Nat.zero_le 1
  | assign name value =>
      have hvalue := value.work_le_nodes
      unfold work nodes
      omega
  | branch condition yes no ihyes ihno =>
      have hcondition := condition.work_le_nodes
      unfold work nodes
      omega
  | seq first second ihfirst ihsecond =>
      unfold work nodes
      omega
  | loop condition body _ =>
      unfold work nodes
      omega

/-- A step of a command without loops brings no loop in, and makes some of the work. -/
theorem LoopFree.of_stepsTo (h : c.LoopFree) (hstep : c.StepsTo env next after) :
    next.LoopFree ∧ next.work < c.work := by
  induction hstep with
  | assigned hvalue =>
      have hwork := Expr.work_of_reduce hvalue
      refine ⟨.assign _ _, ?_⟩
      unfold work
      omega
  | bind => exact ⟨.skip, Nat.succ_pos _⟩
  | tested hcondition =>
      have hwork := Expr.work_of_reduce hcondition
      cases h with
      | branch _ hyes hno =>
          refine ⟨.branch _ hyes hno, ?_⟩
          simp only [work]
          omega
  | @select v holds yes no _ =>
      cases h with
      | branch _ hyes hno =>
          simp only [work]
          cases holds with
          | true => exact ⟨hyes, by simp only [if_true]; omega⟩
          | false => exact ⟨hno, by simp only [Bool.false_eq_true, if_false]; omega⟩
  | first _ ih =>
      cases h with
      | seq hfirst hsecond =>
          obtain ⟨hnext, hlt⟩ := ih hfirst
          refine ⟨.seq hnext hsecond, ?_⟩
          simp only [work]
          omega
  | drop =>
      cases h with
      | seq _ hsecond =>
          refine ⟨hsecond, ?_⟩
          simp only [work]
          omega
  | unroll => cases h

/-- Reductions of a command without loops come to what stops them before they have made more than
its work. -/
theorem LoopFree.exists_stops (h : c.LoopFree) (env : Environment) :
    ∃ steps last final fault?, State.after steps ⟨.command c, env⟩ = .ok ⟨.command last, final⟩ ∧
      State.Stops ⟨.command last, final⟩ fault? ∧ steps + last.work ≤ c.work := by
  -- The induction is on the work that is left, since a step rewrites the command anywhere.
  induction hwork : c.work using Nat.strongRecOn generalizing c env with
  | ind work ih =>
      cases hreduce : c.reduce env with
      | ok reduced =>
          obtain ⟨next, after⟩ := reduced
          obtain ⟨hnext, hlt⟩ := h.of_stepsTo (reduce_eq_ok_iff.1 hreduce)
          obtain ⟨steps, last, final, fault?, hafter, hstops, hle⟩ :=
            ih next.work (by omega) hnext after rfl
          have hstep : State.reduce ⟨.command c, env⟩ = .ok ⟨.command next, after⟩ :=
            except_map_eq_ok_iff.2 ⟨_, hreduce, rfl⟩
          exact ⟨steps + 1, last, final, fault?,
            (State.after_succ_of_ok hstep steps).trans hafter, hstops, by omega⟩
      | error fault =>
          cases hreducible : c.isReducible with
          | true =>
              have hstops : State.Stops ⟨.command c, env⟩ (some fault) :=
                ⟨hreducible, except_map_eq_error_iff.2 hreduce⟩
              exact ⟨0, c, env, some fault, rfl, hstops, by omega⟩
          | false => exact ⟨0, c, env, none, rfl, hreducible, by omega⟩

/-- A run of a command without loops returns alike without a limit and under its number of nodes,
and no limit is what it fails with. -/
theorem LoopFree.exists_returns (h : c.LoopFree) (env : Environment) :
    ∃ halt, (Machine.ofState ⟨.command c, env⟩).Returns halt ∧
      ((Machine.ofState ⟨.command c, env⟩).withLimit c.nodes).Returns
        ⟨halt.machine.withLimit c.nodes, halt.fault?⟩ ∧
      ∀ limit, halt.result ≠ .error (.exhausted limit) := by
  obtain ⟨steps, last, final, fault?, hafter, hstops, hsteps⟩ := h.exists_stops env
  have hnodes := c.work_le_nodes
  have hwithin : steps ≤ c.nodes := by omega
  have hbefore (hreducible : last.isReducible = true) : steps < c.nodes := by
    have hleft := work_pos hreducible
    omega
  refine ⟨⟨⟨⟨.command last, final⟩, steps, none⟩, fault?⟩, ?_, ?_, fun limit hexhausted => ?_⟩
  · exact Machine.ofState_returns_iff.2 ⟨rfl, hafter, hstops⟩
  · exact Machine.returns_withLimit_of_stops hwithin hbefore hafter hstops
  · cases fault? with
    | none => cases hexhausted
    | some fault =>
        obtain rfl : fault = .exhausted limit := Except.error.inj hexhausted
        exact State.reduce_ne_exhausted _ limit hstops.2

/-- A command without loops ends within its size, in an environment or with a fault of its own. A
new evaluator under a limit of as many units of gas as the command has nodes, and a new machine
under a limit of as many steps, do not come to the limit. So they return what they return without a
limit, which they always do. -/
theorem LoopFree.finishes_within_nodes (h : c.LoopFree) (env : Environment) :
    ∃ result gas halt,
      (∀ limit, result ≠ .error (.exhausted limit)) ∧
      (∀ bound, ({} : Evaluator).command bound c env = some (result, ⟨gas, none⟩)) ∧
      (∀ bound, (⟨0, some c.nodes⟩ : Evaluator).command bound c env =
        some (result, ⟨gas, some c.nodes⟩)) ∧
      (Machine.ofState ⟨.command c, env⟩).Returns halt ∧
      ((Machine.ofState ⟨.command c, env⟩).withLimit c.nodes).Returns
        ⟨halt.machine.withLimit c.nodes, halt.fault?⟩ ∧
      halt.result = result.map fun final => ⟨.command .skip, final⟩ := by
  obtain ⟨result, gas, hplain, hlimited⟩ := h.exists_command env
  obtain ⟨halt, hreturns, hwithin, hown⟩ := h.exists_returns env
  obtain ⟨other, hother, hresult⟩ := returns_iff_runReturns.1 (returns_of_command (hplain 0))
  obtain rfl := hreturns.unique hother
  refine ⟨result, gas, halt, fun limit hexhausted => ?own, hplain, hlimited, hreturns, hwithin,
    hresult⟩
  case own =>
    rw [hexhausted] at hresult
    exact hown limit hresult

/-- Two assignments of variables have five nodes, of which each takes a unit of gas. Four of the
nodes take a step, and to drop the first assignment takes the fifth. -/
theorem LoopFree.finishes_within_five_nodes :
    let env := Environment.empty.insert "x" (.number 1)
    let final := (env.insert "y" (.number 1)).insert "z" (.number 1)
    let c : Command := .seq (.assign "y" (.var "x")) (.assign "z" (.var "y"))
    c.LoopFree ∧ c.nodes = 5 ∧
      (⟨0, some 5⟩ : Evaluator).command 0 c env = some (.ok final, ⟨5, some 5⟩) ∧
      ((Machine.ofState ⟨.command c, env⟩).withLimit 5).Returns
        ⟨⟨⟨.command .skip, final⟩, 5, some 5⟩, none⟩ := by
  intro env final c
  have h : c.LoopFree := .seq (.assign _ _) (.assign _ _)
  have hplain : ({} : Evaluator).command 0 c env = some (.ok final, ⟨5, none⟩) := rfl
  have hrun : (Machine.ofState ⟨.command c, env⟩).Returns
      ⟨⟨⟨.command .skip, final⟩, 5, none⟩, none⟩ := ⟨6, rfl⟩
  obtain ⟨result, gas, halt, -, hcommand, hlimited, hreturns, hmachine, -⟩ :=
    h.finishes_within_nodes env
  cases hplain.symm.trans (hcommand 0)
  obtain rfl := hreturns.unique hrun
  exact ⟨h, rfl, hlimited 0, hmachine⟩

end Command

end WhileLanguage
