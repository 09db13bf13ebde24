import WhileLanguage.Proofs.BigStep.Sessions
import WhileLanguage.Proofs.SmallStep.Traces

/-!
# A limit always ends a run

Whatever is evaluated or run under a limit comes to an end, loops without end included: read
`Evaluator.stops_under_limit`. Every test of a loop takes gas and every step of a machine counts,
so that what is left of the limit bounds both.
-/

namespace WhileLanguage

/-- An evaluator that answers a call under a limit has used gas for it, and passes the limit, or
what was used before if that is more, by one unit at most. -/
theorem Call.used_of_answers {call : Call} {limit used after : Nat} {result : Except Fault Outcome}
    (h : Evaluator.Answers ⟨used, some limit⟩ call result ⟨after, some limit⟩) :
    used < after ∧ after ≤ max used limit + 1 := by
  have hafter {other : Except Fault Outcome} {spent : Nat}
      (hother : Evaluator.Answers ⟨used, some limit⟩ call other ⟨spent, some limit⟩) :
      after = spent := by
    obtain ⟨bound, hrun⟩ := answers_iff.1 h
    obtain ⟨greater, hgreater⟩ := answers_iff.1 hother
    cases Bounded.Extends.unique (fun hle => evaluate_extends hle (some limit) call) hrun hgreater
    rfl
  by_cases hpast : limit ≤ used
  · have hrefused := hafter (answers_of_limit_le hpast call)
    omega
  by_cases hcovers : used + call.cost ≤ limit
  · obtain ⟨_, gas, hcomes, hcost⟩ := exists_comesTo_of_cost_le (le_add_self.trans hcovers)
    rw [hcost] at hcovers
    have hle : used + gas ≤ limit := by exact_mod_cast hcovers
    have hspent := hafter (hcomes.answers_withLimit hle)
    have hpos := hcomes.gas_pos
    omega
  · have hrefused := hafter (answers_of_lt_cost (Nat.le_of_not_le hpast) (not_le.1 hcovers))
    omega

/-- The run of a machine with a limit returns, after as many steps as the limit leaves at most. -/
theorem Machine.exists_returns_of_limit {machine : Machine} {limit : Nat}
    (h : machine.limit = some limit) :
    ∃ halt, machine.Returns halt ∧ machine.steps ≤ halt.machine.steps ∧
      halt.machine.steps - machine.steps ≤ limit - machine.steps := by
  have hstopped {machine : Machine} {fault : Fault} (left : Nat)
      (hstep : machine.step = ⟨machine, some fault⟩) :
      ∃ halt, machine.Returns halt ∧ machine.steps ≤ halt.machine.steps ∧
        halt.machine.steps - machine.steps ≤ left := by
    obtain ⟨fault?, hstops⟩ := exists_stops_of_step_fault hstep
    refine ⟨_, hstops.returns, Nat.le_refl _, ?_⟩
    show machine.steps - machine.steps ≤ left
    omega
  -- Every step takes one from what the limit leaves.
  induction hleft : limit - machine.steps generalizing machine with
  | zero => exact hstopped 0 (step_of_limit_le h (Nat.le_of_sub_eq_zero hleft))
  | succ left ih =>
      obtain ⟨next, hstep⟩ | ⟨fault, hstep⟩ := machine.step_cases
      · obtain ⟨-, hsteps, hlimit⟩ := step_eq_ok hstep
        obtain ⟨halt, hreturns, hle, hmore⟩ := ih (hlimit.trans h) (by omega)
        exact ⟨halt, (returns_iff_of_step hstep).2 hreturns, by omega, by omega⟩
      · exact hstopped (left + 1) hstep

/-- Under a limit every evaluation and every run returns. An evaluator that has used any amount of
gas answers every phrase, with more gas used and at most one unit past the limit or past what was
used before; no loop makes more rounds than the limit. A machine that has made any number of steps
stops after as many steps as the limit leaves at most, so with none if it leaves none. -/
theorem Evaluator.stops_under_limit (limit : Nat) :
    (∀ used phrase env, ∃ result after,
      (⟨used, some limit⟩ : Evaluator).phrase (limit + 1) env phrase =
        some (result, ⟨after, some limit⟩) ∧
      used < after ∧ after ≤ max used limit + 1) ∧
    ∀ state steps, ∃ halt, (⟨state, steps, some limit⟩ : Machine).Returns halt ∧
      steps ≤ halt.machine.steps ∧ halt.machine.steps - steps ≤ limit - steps := by
  refine ⟨fun used phrase env => ?evaluator, fun state steps => ?machine⟩
  case evaluator =>
    obtain ⟨⟨result, after⟩, hrun⟩ := Option.isSome_iff_exists.1
      (Call.total_evaluate (Nat.lt_succ_self limit) ⟨phrase, env⟩ used)
    refine ⟨result, after, ?_, Call.used_of_answers (Call.answers_iff.2 ⟨limit + 1, hrun⟩)⟩
    rw [Call.phrase_eq ⟨used, some limit⟩ ⟨phrase, env⟩, hrun]
    rfl
  case machine => exact Machine.exists_returns_of_limit rfl

end WhileLanguage
