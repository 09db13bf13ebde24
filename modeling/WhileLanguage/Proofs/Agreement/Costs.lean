import WhileLanguage.Proofs.Agreement.Commands
import WhileLanguage.Proofs.Agreement.Expressions
import WhileLanguage.Proofs.Syntax

/-!
# Gas and steps

An evaluation is charged for nodes and a machine for steps. Of an expression both amounts can be
counted before it is run: read `Expr.exact_cost`. Of a command each of the two bounds the other up
to a factor: read `Command.steps_of_gas`. Literals cost gas but no steps, while choosing a branch,
dropping the ended part of a sequence and unrolling a loop cost steps but no gas. Rule by rule of a
derivation the two stay in proportion, which is `Command.ComesTo.exists_inProportion`.
-/

namespace WhileLanguage

namespace Expr

variable {env : Environment} {e : Expr}

/-- The evaluation of an expression that succeeds is charged for all its nodes. -/
theorem cost_eq_nodes {v : Value} (h : e.denote env = .ok v) : e.cost env = e.nodes := by
  induction e generalizing v with
  | literal | var => rfl
  | binary op left right ihleft ihright =>
      cases hleft : left.denote env with
      | error fault =>
          rw [denote_binary_of_error hleft] at h
          cases h
      | ok a =>
          cases hright : right.denote env with
          | error fault =>
              rw [denote_binary_of_ok hleft, hright] at h
              cases h
          | ok b => simp only [cost, nodes, hleft, ihleft hleft, ihright hright]

/-- The evaluation of an expression is never charged for more than its nodes. -/
theorem cost_le_nodes (env : Environment) (e : Expr) : e.cost env ≤ e.nodes := by
  induction e with
  | literal | var => exact Nat.le_refl 1
  | binary op left right ihleft ihright =>
      unfold cost nodes
      split <;> omega

/-- The work of an expression is made of its variables and its operators. -/
theorem work_eq (e : Expr) : e.work = e.names.length + e.operators := by
  induction e with
  | literal | var => rfl
  | binary op left right ihleft ihright =>
      simp only [work, names, operators, List.length_append]
      omega

/-- What is no literal has work left. -/
theorem work_pos (h : e.isReducible = true) : 0 < e.work := by
  cases e with
  | literal v => cases h
  | var name => exact Nat.one_pos
  | binary op left right => exact Nat.succ_pos _

/-- Every step of an expression is made at a node of its own. -/
theorem work_le_nodes (e : Expr) : e.work ≤ e.nodes := by
  induction e with
  | literal v => exact Nat.zero_le 1
  | var name => exact Nat.le_refl 1
  | binary op left right ihleft ihright =>
      unfold work nodes
      omega

/-- There is one literal more than operators at most. -/
theorem nodes_le (e : Expr) : e.nodes ≤ 2 * e.work + 1 := by
  induction e with
  | literal v => exact Nat.le_refl 1
  | var name => exact Nat.le_add_left 1 2
  | binary op left right ihleft ihright =>
      unfold work nodes
      omega

/-- The work of an expression that succeeds is bounded by its cost. -/
theorem work_le_cost {v : Value} (h : e.denote env = .ok v) : e.work ≤ e.cost env := by
  rw [cost_eq_nodes h]
  exact e.work_le_nodes

/-- The cost of an expression that succeeds is bounded by its work. -/
theorem cost_le {v : Value} (h : e.denote env = .ok v) : e.cost env ≤ 2 * e.work + 1 := by
  rw [cost_eq_nodes h]
  exact e.nodes_le

/-- A run of an expression that denotes a value makes all of its work, and no more. -/
theorem returns_of_denote_ok {v : Value} (h : e.denote env = .ok v) :
    (Machine.ofState ⟨.expr e, env⟩).Returns ⟨⟨⟨.expr (literal v), env⟩, e.work, none⟩, none⟩ := by
  obtain ⟨steps, last, hafter, hwork, hlast⟩ := e.exists_after env
  rw [h] at hlast
  obtain rfl : last = literal v := hlast
  obtain rfl : steps = e.work := hwork
  exact Machine.ofState_returns_iff.2 ⟨rfl, hafter, rfl⟩

/-- A run of an expression that denotes a fault stops with it before all of the work is made. -/
theorem exists_returns_of_denote_error {fault : Fault} (h : e.denote env = .error fault) :
    ∃ last steps, (Machine.ofState ⟨.expr e, env⟩).Returns
      ⟨⟨⟨.expr last, env⟩, steps, none⟩, some fault⟩ ∧ steps < e.work := by
  obtain ⟨steps, last, hafter, hwork, hlast⟩ := e.exists_after env
  rw [h] at hlast
  have hleft := work_pos hlast.1
  exact ⟨last, steps, Machine.ofState_returns_iff.2 ⟨rfl, hafter, hlast⟩, by omega⟩

/-- What an expression costs can be counted. If it succeeds, its evaluation uses a unit of gas for
every node, and its run makes a step for every occurrence of a variable and every operator. If it
fails, the evaluation uses some gas but no more than that, and the run stops after fewer steps.
Every step that succeeds takes one from the number of variables and operators. -/
theorem exact_cost (e : Expr) (env : Environment) :
    (∀ v after, ({} : Evaluator).expr e env = (.ok v, after) →
      after.used = e.nodes ∧
        (Machine.ofState ⟨.expr e, env⟩).Returns
          ⟨⟨⟨.expr (literal v), env⟩, e.names.length + e.operators, none⟩, none⟩) ∧
    (∀ fault after, ({} : Evaluator).expr e env = (.error fault, after) →
      1 ≤ after.used ∧ after.used ≤ e.nodes ∧
        ∃ halt, (Machine.ofState ⟨.expr e, env⟩).Returns halt ∧ halt.result = .error fault ∧
          halt.machine.steps < e.names.length + e.operators) ∧
    ∀ next, e.reduce env = .ok next →
      next.names.length + next.operators + 1 = e.names.length + e.operators := by
  have hevaluate : ({} : Evaluator).expr e env = (e.denote env, ⟨e.cost env, none⟩) := by
    unfold Evaluator.expr
    rw [evaluate_none, Nat.zero_add]
  rw [hevaluate, ← work_eq]
  refine ⟨fun v after h => ?value, fun fault after h => ?fault, fun next h => ?step⟩
  case value =>
    obtain ⟨hdenote, rfl⟩ := Prod.mk.inj h
    exact ⟨cost_eq_nodes hdenote, returns_of_denote_ok hdenote⟩
  case fault =>
    obtain ⟨hdenote, rfl⟩ := Prod.mk.inj h
    obtain ⟨last, steps, hreturns, hlt⟩ := exists_returns_of_denote_error hdenote
    exact ⟨e.cost_pos env, e.cost_le_nodes env, _, hreturns, rfl, hlt⟩
  case step =>
    rw [← work_eq]
    exact work_of_reduce h

/-- `(x + y) * (x + 1)` has seven nodes, three occurrences of variables and three operators. Where
`y` has no value, the second factor is not evaluated. -/
theorem exact_cost_of_product :
    let sum (e : Expr) : Expr := .binary .add (.var "x") e
    let e : Expr := .binary .multiply (sum (.var "y")) (sum (.literal (.number 1)))
    let partly := Environment.empty.insert "x" (.number 2)
    let env := partly.insert "y" (.number 5)
    ({} : Evaluator).expr e env = (.ok (.number 21), ⟨7, none⟩) ∧
      (Machine.ofState ⟨.expr e, env⟩).Returns
        ⟨⟨⟨.expr (literal (.number 21)), env⟩, 6, none⟩, none⟩ ∧
      ({} : Evaluator).expr e partly = (.error (.unbound "y"), ⟨4, none⟩) ∧ 4 ≤ e.nodes ∧
      ∃ halt, (Machine.ofState ⟨.expr e, partly⟩).Returns halt ∧
        halt.result = .error (.unbound "y") ∧ halt.machine.steps < 6 := by
  intro sum e partly env
  have hvalue : ({} : Evaluator).expr e env = (.ok (.number 21), ⟨7, none⟩) := rfl
  have hfault : ({} : Evaluator).expr e partly = (.error (.unbound "y"), ⟨4, none⟩) := rfl
  obtain ⟨-, hreturns⟩ := (exact_cost e env).1 _ _ hvalue
  obtain ⟨-, hle, hstopped⟩ := (exact_cost e partly).2.1 _ _ hfault
  exact ⟨hvalue, hreturns, hfault, hle, hstopped⟩

end Expr

namespace Command

/-- Steps and gas are in proportion: fewer than three steps for a unit of gas, and no more than
two units for a step, but for one. -/
structure InProportion (steps gas : Nat) : Prop where
  steps_lt : steps < 3 * gas
  gas_le : gas ≤ 2 * steps + 1

/-- The reductions to what a derivation comes to are in proportion to its gas. -/
theorem ComesTo.exists_inProportion {c : Command} {env final : Environment} {gas : Nat}
    (h : c.ComesTo env (.ok final) gas) :
    ∃ steps, c.ReducesTo env (.ok final) steps ∧ InProportion steps gas := by
  generalize hresult : Except.ok final = result at h
  induction h generalizing final with
  | branchFault | seqFault | loopFault | loopBodyFault => cases hresult
  | skip =>
      cases hresult
      exact ⟨0, .skip, by decide, by decide⟩
  | @assign name value env =>
      cases hdenote : value.denote env with
      | error fault =>
          rw [hdenote] at hresult
          cases hresult
      | ok v =>
          rw [hdenote] at hresult
          cases hresult
          have hwork := Expr.work_le_cost hdenote
          have hcost := Expr.cost_le hdenote
          exact ⟨value.work + 1, .assign hdenote, by omega, by omega⟩
  | branch htruth _ ih =>
      subst hresult
      obtain ⟨steps, hsteps, hlt, hle⟩ := ih rfl
      have hwork := Expr.work_le_cost (Expr.truth_eq_ok_iff.1 htruth)
      have hcost := Expr.cost_le (Expr.truth_eq_ok_iff.1 htruth)
      exact ⟨_, .branch htruth hsteps, by omega, by omega⟩
  | seq _ _ ihfirst ihsecond =>
      subst hresult
      obtain ⟨steps, hfirst, hfirstLt, hfirstLe⟩ := ihfirst rfl
      obtain ⟨more, hsecond, hsecondLt, hsecondLe⟩ := ihsecond rfl
      exact ⟨_, hfirst.seq hsecond, by omega, by omega⟩
  | loopEnd htruth =>
      cases hresult
      have hwork := Expr.work_le_cost (Expr.truth_eq_ok_iff.1 htruth)
      have hcost := Expr.cost_le (Expr.truth_eq_ok_iff.1 htruth)
      exact ⟨_, (ReducesTo.branch htruth .skip).loop, by omega, by omega⟩
  | @loopRound condition _ env _ _ _ _ htruth _ _ ihbody ihloop =>
      subst hresult
      obtain ⟨steps, hbody, hbodyLt, hbodyLe⟩ := ihbody rfl
      obtain ⟨more, hloop, hloopLt, hloopLe⟩ := ihloop rfl
      have hpos := condition.cost_pos env
      have hwork := Expr.work_le_cost (Expr.truth_eq_ok_iff.1 htruth)
      have hcost := Expr.cost_le (Expr.truth_eq_ok_iff.1 htruth)
      -- A round is unrolled, selects and drops its body, for which the condition alone must pay.
      exact ⟨_, (ReducesTo.branch htruth (hbody.seq hloop)).loop, by omega, by omega⟩

/-- A command whose evaluation without a limit leaves an environment has a run without a limit to
that environment, in fewer than three steps for each unit of gas that the evaluation has used. The
gas is no more than one unit and two for each step. -/
theorem steps_of_gas {bound : Nat} {c : Command} {env final : Environment} {after : Evaluator}
    (h : ({} : Evaluator).command bound c env = some (.ok final, after)) :
    ∃ halt, (Machine.ofState ⟨.command c, env⟩).Returns halt ∧
      halt.result = .ok ⟨.command skip, final⟩ ∧
      halt.machine.steps < 3 * after.used ∧ after.used ≤ 2 * halt.machine.steps + 1 := by
  obtain ⟨-, hcomes⟩ := exists_command_iff.1 ⟨bound, h⟩
  obtain ⟨steps, hends, hlt, hle⟩ := hcomes.exists_inProportion
  obtain ⟨halt, hreturns, hsteps, hresult⟩ := Machine.ends_iff_returns.1 hends
  subst hsteps
  exact ⟨halt, hreturns, hresult, hlt, hle⟩

/-- Of three loops around an assignment that ends them all, the steps are twice the gas, so that a
factor of two would not do. -/
theorem steps_of_nested_loops :
    let env := Environment.empty.insert "a" (.boolean true)
    let final := Environment.empty.insert "a" (.boolean false)
    let around (body : Command) : Command := .loop (.var "a") body
    let c := around (around (around (.assign "a" (.literal (.boolean false)))))
    ({} : Evaluator).command 3 c env = some (.ok final, ⟨11, none⟩) ∧
      ∃ halt, (Machine.ofState ⟨.command c, env⟩).Returns halt ∧
        halt.result = .ok ⟨.command skip, final⟩ ∧ halt.machine.steps = 2 * 11 ∧
        halt.machine.steps < 3 * 11 ∧ 11 ≤ 2 * halt.machine.steps + 1 := by
  intro env final around c
  have h : ({} : Evaluator).command 3 c env = some (.ok final, ⟨11, none⟩) := rfl
  have hrun : (Machine.ofState ⟨.command c, env⟩).Returns
      ⟨⟨⟨.command skip, final⟩, 22, none⟩, none⟩ := ⟨23, rfl⟩
  obtain ⟨halt, hreturns, hresult, hlt, hle⟩ := steps_of_gas h
  obtain rfl := hreturns.unique hrun
  exact ⟨h, _, hrun, hresult, rfl, hlt, hle⟩

end Command

end WhileLanguage
