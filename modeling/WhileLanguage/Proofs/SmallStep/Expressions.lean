import WhileLanguage.Compiled
import WhileLanguage.Proofs.SmallStep.Runs

/-!
# Reductions of an expression

Every step of an expression keeps what it denotes and takes one unit from its `Expr.work`, the
number of its variables and operators. So reductions of an expression come to an end: read
`Expr.exists_after`, which says that they end with what the expression denotes.
-/

namespace WhileLanguage.Expr

variable {env : Environment}

/-- The steps that are left to make in an expression: one for a variable or an operator. -/
def work : Expr → Nat
  | literal _ => 0
  | var _ => 1
  | binary _ left right => left.work + right.work + 1

/-- A step makes one unit of the work. -/
theorem work_of_reduce {e next : Expr} (h : e.reduce env = .ok next) :
    next.work + 1 = e.work := by
  fun_induction Expr.reduce env e generalizing next with
  | case1 v => cases h
  | case2 name =>
      obtain ⟨v, -, rfl⟩ := except_map_eq_ok_iff.1 h
      rfl
  | case3 op a b =>
      obtain ⟨v, -, rfl⟩ := except_map_eq_ok_iff.1 h
      rfl
  | case4 op a right _ ih =>
      obtain ⟨reduced, hreduced, rfl⟩ := except_map_eq_ok_iff.1 h
      simp only [work, ← ih hreduced]
      omega
  | case5 op left right _ _ ih =>
      obtain ⟨reduced, hreduced, rfl⟩ := except_map_eq_ok_iff.1 h
      simp only [work, ← ih hreduced]
      omega

/-- A step keeps what an expression denotes. -/
theorem denote_of_reduce {e next : Expr} (h : e.reduce env = .ok next) :
    next.denote env = e.denote env := by
  fun_induction Expr.reduce env e generalizing next with
  | case1 v => cases h
  | case2 name =>
      obtain ⟨v, hv, rfl⟩ := except_map_eq_ok_iff.1 h
      exact hv.symm
  | case3 op a b =>
      obtain ⟨v, hv, rfl⟩ := except_map_eq_ok_iff.1 h
      exact hv.symm
  | case4 op a right _ ih =>
      obtain ⟨reduced, hreduced, rfl⟩ := except_map_eq_ok_iff.1 h
      simp only [denote, ih hreduced]
  | case5 op left right _ _ ih =>
      obtain ⟨reduced, hreduced, rfl⟩ := except_map_eq_ok_iff.1 h
      simp only [denote, ih hreduced]

/-- Where a step fails, an expression denotes nothing but the fault of the step. -/
theorem denote_of_reduce_error {e : Expr} {fault : Fault} (hreducible : e.isReducible = true)
    (h : e.reduce env = .error fault) : e.denote env = .error fault := by
  fun_induction Expr.reduce env e with
  | case1 v => cases hreducible
  | case2 name => exact except_map_eq_error_iff.1 h
  | case3 op a b => exact except_map_eq_error_iff.1 h
  | case4 op a right hright ih =>
      have hfault := ih (isReducible_of_forall_ne hright) (except_map_eq_error_iff.1 h)
      simp [denote, hfault, bind, Except.bind]
  | case5 op left right _ hleft ih =>
      have hfault := ih (isReducible_of_forall_ne hleft) (except_map_eq_error_iff.1 h)
      simp [denote, hfault, bind, Except.bind]

/-- Reductions of an expression go on until it is the literal of what it denotes, or meet the
fault that it denotes, having made all of its work but what is left then. -/
theorem exists_after (env : Environment) (e : Expr) :
    ∃ steps last, State.after steps ⟨.expr e, env⟩ = .ok ⟨.expr last, env⟩ ∧
      steps + last.work = e.work ∧
      match e.denote env with
      | .ok v => last = literal v
      | .error fault => State.Stops ⟨.expr last, env⟩ (some fault) := by
  -- The induction is on the work that is left, since a step rewrites the expression anywhere.
  induction hwork : e.work using Nat.strongRecOn generalizing e with
  | ind work ih =>
      cases hreduce : e.reduce env with
      | ok next =>
          have hlt := work_of_reduce hreduce
          obtain ⟨steps, last, hafter, hleft, hlast⟩ := ih next.work (by omega) next rfl
          have hstep : State.reduce ⟨.expr e, env⟩ = .ok ⟨.expr next, env⟩ := by
            simp [State.reduce, hreduce, Except.map]
          refine ⟨steps + 1, last, (State.after_succ_of_ok hstep steps).trans hafter, by omega, ?_⟩
          rwa [denote_of_reduce hreduce] at hlast
      | error fault =>
          refine ⟨0, e, rfl, by omega, ?_⟩
          cases hreducible : e.isReducible with
          | true =>
              rw [denote_of_reduce_error hreducible hreduce]
              exact ⟨hreducible, by simp [State.reduce, hreduce, Except.map]⟩
          | false =>
              obtain ⟨v, rfl⟩ := isReducible_eq_false_iff.1 hreducible
              rfl

/-- Reductions of an expression end, with what the expression denotes. -/
theorem exists_ends (env : Environment) (e : Expr) :
    ∃ steps, State.Ends ⟨.expr e, env⟩ steps
      ((e.denote env).map fun v => ⟨.expr (literal v), env⟩) := by
  obtain ⟨steps, last, hafter, -, hlast⟩ := e.exists_after env
  refine ⟨steps, ⟨.expr last, env⟩, hafter, ?_⟩
  cases hdenote : e.denote env with
  | ok v =>
      rw [hdenote] at hlast
      exact ⟨by rw [hlast], by rw [hlast]; rfl⟩
  | error fault =>
      rw [hdenote] at hlast
      exact hlast

end WhileLanguage.Expr
