import WhileLanguage.Proofs.SmallStep.Frames
import WhileLanguage.Proofs.Syntax

/-!
# What a step of a command does

`Command.StepsTo` has a rule for each step that a command can make, and `Command.reduce_eq_ok_iff`
says that it has all of them. So what steps keep is shown rule by rule: no step brings a name into
a phrase, or a new name among those that a command assigns to, and none changes the environment
but at one of these. Where no step can be made, the fault is never that of a limit, which is a
matter of machines: read `State.reduce_ne_exhausted`.
-/

namespace WhileLanguage

variable {env : Environment}

/-- A step of an expression brings in no names. -/
theorem Expr.names_of_reduce {e next : Expr} (h : e.reduce env = .ok next) :
    next.names ⊆ e.names := by
  fun_induction Expr.reduce env e generalizing next with
  | case1 v => cases h
  | case2 name =>
      obtain ⟨v, -, rfl⟩ := except_map_eq_ok_iff.1 h
      exact List.nil_subset _
  | case3 op a b =>
      obtain ⟨v, -, rfl⟩ := except_map_eq_ok_iff.1 h
      exact List.nil_subset _
  | case4 op a right _ ih =>
      obtain ⟨reduced, hreduced, rfl⟩ := except_map_eq_ok_iff.1 h
      show reduced.names ⊆ right.names
      exact ih hreduced
  | case5 op left right _ _ ih =>
      obtain ⟨reduced, hreduced, rfl⟩ := except_map_eq_ok_iff.1 h
      exact List.append_subset.2 ⟨List.subset_append_of_subset_left _ (ih hreduced),
        List.subset_append_right _ _⟩

/-- Only an expression that is not a literal has a step. -/
theorem Expr.isReducible_of_reduce {e next : Expr} (h : e.reduce env = .ok next) :
    e.isReducible = true :=
  isReducible_of_forall_ne fun v hv => by
    subst hv
    cases h

namespace Command

variable {c next : Command} {after : Environment}

/-- `StepsTo env c next after` says that `c` makes a step in `env`, to `next` in `after`. -/
inductive StepsTo (env : Environment) : Command → Command → Environment → Prop where
  | assigned {name value reduced} :
      value.reduce env = .ok reduced → StepsTo env (assign name value) (assign name reduced) env
  | bind {name v} : StepsTo env (assign name (.literal v)) skip (env.insert name v)
  | tested {condition reduced yes no} :
      condition.reduce env = .ok reduced →
      StepsTo env (branch condition yes no) (branch reduced yes no) env
  | select {v holds yes no} :
      v.truth = .ok holds →
      StepsTo env (branch (.literal v) yes no) (if holds then yes else no) env
  | first {first next second after} :
      StepsTo env first next after → StepsTo env (seq first second) (seq next second) after
  | drop {second} : StepsTo env (seq skip second) second env
  | unroll {condition body} :
      StepsTo env (loop condition body)
        (branch condition (seq body (loop condition body)) skip) env

/-- What has a step is not the command that does nothing. -/
theorem StepsTo.isReducible (h : c.StepsTo env next after) : c.isReducible = true := by
  cases h <;> rfl

/-- A step that is made is one of the rules. -/
theorem StepsTo.of_reduce (h : c.reduce env = .ok (next, after)) : c.StepsTo env next after := by
  fun_induction Command.reduce env c generalizing next with
  | case1 => cases h
  | case2 name v =>
      cases h
      exact .bind
  | case3 name value _ =>
      obtain ⟨reduced, hreduced, hnext⟩ := except_map_eq_ok_iff.1 h
      cases hnext
      exact .assigned hreduced
  | case4 v yes no =>
      obtain ⟨holds, htruth, hnext⟩ := except_map_eq_ok_iff.1 h
      cases hnext
      exact .select htruth
  | case5 condition yes no _ =>
      obtain ⟨reduced, hreduced, hnext⟩ := except_map_eq_ok_iff.1 h
      cases hnext
      exact .tested hreduced
  | case6 second =>
      cases h
      exact .drop
  | case7 first second _ ih =>
      obtain ⟨⟨reduced, middle⟩, hreduced, hnext⟩ := except_map_eq_ok_iff.1 h
      cases hnext
      exact .first (ih hreduced)
  | case8 condition body =>
      cases h
      exact .unroll

/-- The steps that a command can make are those of the rules. -/
theorem reduce_eq_ok_iff : c.reduce env = .ok (next, after) ↔ c.StepsTo env next after := by
  refine ⟨StepsTo.of_reduce, fun h => ?_⟩
  induction h with
  | assigned hvalue => rw [reduce_assign (Expr.isReducible_of_reduce hvalue), hvalue]; rfl
  | bind => rfl
  | tested hcondition =>
      rw [reduce_branch (Expr.isReducible_of_reduce hcondition), hcondition]; rfl
  | select htruth => rw [reduce, htruth]; rfl
  | first hfirst ih => rw [reduce_seq hfirst.isReducible, ih]; rfl
  | drop => rfl
  | unroll => rfl

/-- A step of a command brings in no names. -/
theorem StepsTo.names_subset (h : c.StepsTo env next after) : next.names ⊆ c.names := by
  induction h with
  | assigned hvalue => exact List.cons_subset_cons _ (Expr.names_of_reduce hvalue)
  | bind => exact List.nil_subset _
  | @tested condition reduced yes no hcondition =>
      have hnames := Expr.names_of_reduce hcondition
      simp only [names, List.append_assoc]
      exact List.append_subset.2 ⟨List.subset_append_of_subset_left _ hnames,
        List.subset_append_right _ _⟩
  | @select v holds yes no _ =>
      cases holds with
      | true => exact List.subset_append_left _ _
      | false => exact List.subset_append_right _ _
  | first _ ih =>
      exact List.append_subset.2 ⟨List.subset_append_of_subset_left _ ih,
        List.subset_append_right _ _⟩
  | drop => exact List.Subset.refl _
  | unroll => simp [names]

/-- A step leaves a command that assigns to no other names. -/
theorem StepsTo.targets_subset (h : c.StepsTo env next after) : next.targets ⊆ c.targets := by
  induction h with
  | assigned | tested | drop => exact List.Subset.refl _
  | bind => exact List.nil_subset _
  | @select v holds yes no _ =>
      cases holds with
      | true => exact List.subset_append_left _ _
      | false => exact List.subset_append_right _ _
  | first _ ih =>
      exact List.append_subset.2 ⟨List.subset_append_of_subset_left _ ih,
        List.subset_append_right _ _⟩
  | unroll => simp [targets]

/-- A step leaves the environment as it is, or binds one name that the command assigns to. -/
theorem StepsTo.env_eq (h : c.StepsTo env next after) :
    after = env ∨ ∃ name ∈ c.targets, ∃ v, after = env.insert name v := by
  induction h with
  | assigned | tested | select | drop | unroll => exact .inl rfl
  | @bind name v => exact .inr ⟨name, List.mem_singleton_self name, v, rfl⟩
  | first _ ih =>
      refine ih.imp_right fun hbound => ?_
      obtain ⟨name, hname, v, hafter⟩ := hbound
      exact ⟨name, List.mem_append_left _ hname, v, hafter⟩

end Command

/-- A state with a command goes on as one of the command's rules says. -/
theorem State.exists_stepsTo {c : Command} {next : State}
    (h : State.reduce ⟨.command c, env⟩ = .ok next) :
    ∃ reduced after, c.StepsTo env reduced after ∧ next = ⟨.command reduced, after⟩ := by
  obtain ⟨⟨reduced, after⟩, hreduce, rfl⟩ := except_map_eq_ok_iff.1 h
  exact ⟨reduced, after, Command.reduce_eq_ok_iff.1 hreduce, rfl⟩

/-! ## Steps that fail -/

/-- No step of an expression fails because of a limit. -/
theorem Expr.reduce_ne_exhausted (env : Environment) (e : Expr) (limit : Nat) :
    e.reduce env ≠ .error (.exhausted limit) := by
  intro h
  fun_induction Expr.reduce env e with
  | case1 v => cases h
  | case2 name =>
      rw [except_map_eq_error_iff, Environment.lookup] at h
      split at h <;> cases h
  | case3 op a b => cases Operator.fault_of_apply (except_map_eq_error_iff.1 h)
  | case4 op a right _ ih => exact ih (except_map_eq_error_iff.1 h)
  | case5 op left right _ _ ih => exact ih (except_map_eq_error_iff.1 h)

/-- No step of a command fails because of a limit. -/
theorem Command.reduce_ne_exhausted (env : Environment) (c : Command) (limit : Nat) :
    c.reduce env ≠ .error (.exhausted limit) := by
  intro h
  fun_induction Command.reduce env c with
  | case1 | case2 | case6 | case8 => cases h
  | case3 name value _ =>
      exact value.reduce_ne_exhausted env limit (except_map_eq_error_iff.1 h)
  | case4 v yes no =>
      rw [except_map_eq_error_iff] at h
      cases v <;> cases h
  | case5 condition yes no _ =>
      exact condition.reduce_ne_exhausted env limit (except_map_eq_error_iff.1 h)
  | case7 first second _ ih => exact ih (except_map_eq_error_iff.1 h)

/-- No step of a state fails because of a limit. -/
theorem State.reduce_ne_exhausted (state : State) (limit : Nat) :
    state.reduce ≠ .error (.exhausted limit) := by
  intro h
  obtain ⟨phrase, env⟩ := state
  cases phrase with
  | expr e => exact e.reduce_ne_exhausted env limit (except_map_eq_error_iff.1 h)
  | command c => exact c.reduce_ne_exhausted env limit (except_map_eq_error_iff.1 h)

end WhileLanguage
