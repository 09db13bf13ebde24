import WhileLanguage.Proofs.BigStep.Expressions
import WhileLanguage.Proofs.SmallStep.Expressions
import WhileLanguage.Proofs.SmallStep.Frames

/-!
# Reductions of a command

`Command.ReducesTo` says how the reductions of a command end, and after how many steps. It has
a rule for every way in which a command's parts can end: an expression in its place takes as
many steps as it has work, a condition one more to select, a sequence one more to drop its
ended first part, and a loop one more to become a branch.
-/

namespace WhileLanguage

/-- An expression in the place of a frame makes all of its work and leaves its value there. -/
theorem Frame.Fills.after_work {frame : Frame} {e : Expr} {env : Environment} {v : Value}
    {outer : State} (h : frame.Fills ⟨.expr e, env⟩ outer) (hdenote : e.denote env = .ok v) :
    ∃ result, outer.after e.work = .ok result ∧ frame.Fills ⟨.expr (.literal v), env⟩ result := by
  obtain ⟨steps, last, hafter, hwork, hlast⟩ := e.exists_after env
  rw [hdenote] at hlast
  subst hlast
  rw [← hwork]
  exact h.after hafter

/-- An expression in the place of a frame ends the whole with its fault. -/
theorem Frame.Fills.exists_ends {frame : Frame} {e : Expr} {env : Environment} {fault : Fault}
    {outer : State} (h : frame.Fills ⟨.expr e, env⟩ outer)
    (hdenote : e.denote env = .error fault) : ∃ steps, outer.Ends steps (.error fault) := by
  obtain ⟨steps, last, hafter, -, hlast⟩ := e.exists_after env
  rw [hdenote] at hlast
  obtain ⟨result, hresult, hfills⟩ := h.after hafter
  exact ⟨steps, result, hresult, hfills.stops hlast⟩

/-- A condition holds or not if it denotes that boolean. -/
theorem Expr.truth_eq_ok_iff {condition : Expr} {env : Environment} {holds : Bool} :
    condition.truth env = .ok holds ↔ condition.denote env = .ok (.boolean holds) := by
  rw [truth]
  cases condition.denote env with
  | error fault => simp [bind, Except.bind]
  | ok v => simp [bind, Except.bind, Value.truth_eq_ok_iff]

/-- A condition's truth is a fault if it denotes that fault or a value without a truth. -/
theorem Expr.truth_eq_error_iff {condition : Expr} {env : Environment} {fault : Fault} :
    condition.truth env = .error fault ↔
      condition.denote env = .error fault ∨
        ∃ v, condition.denote env = .ok v ∧ v.truth = .error fault := by
  rw [truth]
  cases condition.denote env <;> simp [bind, Except.bind]

namespace Command

/-- `ReducesTo c env result steps` says that reductions of `c` in `env` end after `steps`, with
nothing left to do in the environment of `result` or with its fault. -/
def ReducesTo (c : Command) (env : Environment) (result : Except Fault Environment)
    (steps : Nat) : Prop :=
  State.Ends ⟨.command c, env⟩ steps (result.map fun final => ⟨.command skip, final⟩)

namespace ReducesTo

variable {env middle : Environment} {result : Except Fault Environment} {fault : Fault}
  {steps more : Nat}

/-- Nothing is left to do in the command that does nothing. -/
protected theorem skip : skip.ReducesTo env (.ok env) 0 :=
  ⟨⟨.command .skip, env⟩, rfl, rfl, rfl⟩

/-- An assignment makes the work of its expression and a step to bind its name. -/
protected theorem assign {name : String} {value : Expr} {v : Value}
    (h : value.denote env = .ok v) :
    (assign name value).ReducesTo env (.ok (env.insert name v)) (value.work + 1) := by
  have hfills := Frame.fills_assigned name value env
  obtain ⟨⟨phrase, other⟩, hafter, hfill, rfl⟩ := hfills.after_work h
  cases hfill
  exact .of_after hafter (.of_reduce rfl ReducesTo.skip)

/-- An assignment ends with the fault of its expression. -/
theorem assign_fault {name : String} {value : Expr} (h : value.denote env = .error fault) :
    ∃ steps, (assign name value).ReducesTo env (.error fault) steps := by
  have hfills := Frame.fills_assigned name value env
  exact hfills.exists_ends h

/-- A branch makes the work of its condition, a step to select, and the steps of what that
selects. -/
protected theorem branch {condition : Expr} {yes no : Command} {holds : Bool}
    (htruth : condition.truth env = .ok holds)
    (h : ReducesTo (if holds then yes else no) env result steps) :
    (branch condition yes no).ReducesTo env result (condition.work + (steps + 1)) := by
  have hfills := Frame.fills_tested condition yes no env
  obtain ⟨⟨phrase, other⟩, hafter, hfill, rfl⟩ :=
    hfills.after_work (Expr.truth_eq_ok_iff.1 htruth)
  cases hfill
  exact .of_after hafter (.of_reduce rfl h)

/-- A branch ends with the fault of its condition. -/
theorem branch_fault {condition : Expr} {yes no : Command}
    (htruth : condition.truth env = .error fault) :
    ∃ steps, (branch condition yes no).ReducesTo env (.error fault) steps := by
  have hfills := Frame.fills_tested condition yes no env
  rcases Expr.truth_eq_error_iff.1 htruth with hdenote | ⟨v, hdenote, hv⟩
  · exact hfills.exists_ends hdenote
  · obtain ⟨⟨phrase, other⟩, hafter, hfill, rfl⟩ := hfills.after_work hdenote
    cases hfill
    refine ⟨condition.work, _, hafter, rfl, ?_⟩
    simp [State.reduce, reduce, hv, Except.map]

/-- A sequence makes the steps of its first part, a step to drop it, and those of the second. -/
protected theorem seq {first second : Command} (hfirst : first.ReducesTo env (.ok middle) steps)
    (hsecond : second.ReducesTo middle result more) :
    (seq first second).ReducesTo env result (steps + (more + 1)) := by
  have hfills := Frame.fills_first first second env
  obtain ⟨last, hafter, rfl, -⟩ := hfirst
  obtain ⟨⟨phrase, other⟩, houter, hfill, rfl⟩ := hfills.after hafter
  cases hfill
  exact .of_after houter (.of_reduce rfl hsecond)

/-- A sequence ends with the fault of its first part. -/
theorem seq_fault {first second : Command} (h : first.ReducesTo env (.error fault) steps) :
    (seq first second).ReducesTo env (.error fault) steps := by
  have hfills := Frame.fills_first first second env
  obtain ⟨last, hafter, hstops⟩ := h
  obtain ⟨outer, houter, hlast⟩ := hfills.after hafter
  exact ⟨outer, houter, hlast.stops hstops⟩

/-- A loop makes one step to become a branch between a round and nothing. -/
protected theorem loop {condition : Expr} {body : Command}
    (h : (branch condition (seq body (loop condition body)) skip).ReducesTo env result steps) :
    (loop condition body).ReducesTo env result (steps + 1) :=
  State.Ends.of_reduce rfl h

end ReducesTo

end Command

end WhileLanguage
