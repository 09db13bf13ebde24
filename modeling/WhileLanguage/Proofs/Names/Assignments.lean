import WhileLanguage.Proofs.Agreement.Commands
import WhileLanguage.Proofs.BigStep.Metering
import WhileLanguage.Proofs.SmallStep.Histories
import WhileLanguage.Proofs.SmallStep.Steps

/-!
# What assignments change

A command changes the values of names that it assigns to, and of no others, and no name loses its
value: read `Environment.ChangesAt` for what that says of two environments. It holds of the start
of a run and every state on its way, by `State.AssignsAt.of_reduce` for one step, and of what an
evaluation leaves: read `Command.changes_only_targets`.
-/

namespace WhileLanguage

namespace Environment

/-- `before.ChangesAt names after` says that names of the list alone have got other values, and
that no name has lost its value. -/
structure ChangesAt (names : List String) (before after : Environment) : Prop where
  keeps : ∀ name, before.contains name = true → after.contains name = true
  adds : ∀ name, after.contains name = true → before.contains name = true ∨ name ∈ names
  same : ∀ name, name ∉ names → after.get? name = before.get? name

/-- After an insertion the inserted name has a value, and the names that had one. -/
theorem contains_insert {env : Environment} {name other : String} {v : Value} :
    (env.insert name v).contains other = true ↔ other = name ∨ env.contains other = true := by
  rw [contains_eq_isSome, contains_eq_isSome, get?_insert]
  by_cases h : other = name <;> simp [h]

namespace ChangesAt

variable {names : List String} {before after : Environment}

/-- An environment that stays as it is has no changes. -/
protected theorem refl (names : List String) (env : Environment) : env.ChangesAt names env where
  keeps _ h := h
  adds _ h := .inl h
  same _ _ := rfl

/-- A name of the list may be bound. -/
theorem insert (h : before.ChangesAt names after) {name : String} (hmem : name ∈ names)
    (v : Value) : before.ChangesAt names (after.insert name v) where
  keeps other hother := contains_insert.2 (.inr (h.keeps other hother))
  adds other hother := by
    rcases contains_insert.1 hother with rfl | hother
    · exact .inr hmem
    · exact h.adds other hother
  same other hother := by
    have hne : other ≠ name := fun heq => hother (heq ▸ hmem)
    rw [get?_insert, if_neg hne, h.same other hother]

end ChangesAt

end Environment

/-! ## Runs -/

/-- A state whose command assigns to names of a list only, in an environment that differs from an
earlier one at these only. -/
def State.AssignsAt (names : List String) (before : Environment) (state : State) : Prop :=
  ∃ c, state.phrase = .command c ∧ c.targets ⊆ names ∧ before.ChangesAt names state.env

namespace State.AssignsAt

variable {names : List String} {before : Environment} {state next : State}

/-- A step binds a name of the list or none, and leaves a command that assigns to no others. -/
theorem of_reduce (h : state.AssignsAt names before) (hstep : state.reduce = .ok next) :
    next.AssignsAt names before ∧
      (next.env = state.env ∨ ∃ name ∈ names, ∃ v, next.env = state.env.insert name v) := by
  obtain ⟨phrase, env⟩ := state
  obtain ⟨c, rfl, htargets, hchanges⟩ := h
  obtain ⟨reduced, after, hrule, rfl⟩ := State.exists_stepsTo hstep
  have hreduced : reduced.targets ⊆ names := List.Subset.trans hrule.targets_subset htargets
  rcases hrule.env_eq with rfl | ⟨name, hname, v, rfl⟩
  · exact ⟨⟨reduced, rfl, hreduced, hchanges⟩, .inl rfl⟩
  · have hmem := htargets hname
    exact ⟨⟨reduced, rfl, hreduced, hchanges.insert hmem v⟩, .inr ⟨name, hmem, v, rfl⟩⟩

/-- Where a run has come to, names of the list alone have been bound. -/
theorem changesAt (h : state.AssignsAt names before) : before.ChangesAt names state.env := by
  obtain ⟨c, -, -, hchanges⟩ := h
  exact hchanges

/-- A run that ends has bound names of the list alone. -/
theorem of_returns {machine : Machine} {halt : Halt} (h : machine.state.AssignsAt names before)
    (hreturns : machine.Returns halt) : halt.machine.state.AssignsAt names before := by
  obtain ⟨count, last, -, hafter, hhalt, -⟩ := hreturns.exists_after
  rw [hhalt]
  exact State.after_keeps (fun hstate hstep => (of_reduce hstate hstep).1) h hafter

end State.AssignsAt

namespace Command

/-- A command that starts to run has changed nothing. -/
theorem assignsAt_start (c : Command) (env : Environment) :
    State.AssignsAt c.targets env ⟨.command c, env⟩ :=
  ⟨c, rfl, List.Subset.refl _, .refl _ _⟩

/-- What an evaluation leaves, it leaves without a limit too, on a new account. -/
theorem returns_of_evaluate_ok {c : Command} {env final : Environment} {bound used after : Nat}
    {limit : Option Nat} (h : c.evaluate bound limit env used = some (.ok final, after)) :
    c.Returns env (.ok final) := by
  have hplain : c.evaluate bound none env used = some (.ok final, after) := by
    cases limit with
    | none => exact h
    | some limit =>
        rcases Nat.lt_or_ge used limit with hlt | hle
        · exact ((c.evaluate_metered limit bound env).of_ok (Nat.le_of_lt hlt) h).1
        · rw [c.evaluate_of_limit_le hle] at h
          cases h
  obtain ⟨gas, -, hcomes⟩ := comesTo_of_evaluate hplain
  exact returns_iff.2 ⟨gas, hcomes⟩

/-- A command changes nothing but the values of names that it assigns to. Under any limit, or none,
and after any number of steps, every name that had a value has one, every name that has one had one
or is assigned to, and every name that is not assigned to has the value that it had, or none. Each
step leaves the environment as it is or binds one name that is assigned to. What an evaluation
leaves, by any evaluator, has changed in the same way. -/
theorem changes_only_targets (c : Command) (env : Environment) :
    (∀ limit count,
      let reached := ((Machine.new ⟨.command c, env⟩ limit).advance count).machine
      env.ChangesAt c.targets reached.state.env ∧
        ∀ next, reached.step = ⟨next, none⟩ →
          next.state.env = reached.state.env ∨
            ∃ name ∈ c.targets, ∃ v, next.state.env = reached.state.env.insert name v) ∧
    ∀ evaluator bound final after,
      Evaluator.command bound evaluator c env = some (.ok final, after) →
        env.ChangesAt c.targets final := by
  refine ⟨fun limit count => ?run, fun evaluator bound final after h => ?evaluation⟩
  case run =>
    have hstart : (Machine.new ⟨.command c, env⟩ limit).state.AssignsAt c.targets env := by
      rw [Machine.new_eq]
      exact c.assignsAt_start env
    have hreached := Machine.advance_keeps (fun hstate hstep =>
      (State.AssignsAt.of_reduce hstate hstep).1) hstart count
    refine ⟨hreached.changesAt, fun next hstep => ?_⟩
    exact (hreached.of_reduce (Machine.step_eq_ok hstep).1).2
  case evaluation =>
    obtain ⟨⟨result, spent⟩, hevaluate, heq⟩ := Option.map_eq_some_iff.1 h
    cases heq
    obtain ⟨⟨machine, fault?⟩, hreturns, hresult⟩ :=
      returns_iff_runReturns.1 (returns_of_evaluate_ok hevaluate)
    have hlast := State.AssignsAt.of_returns (c.assignsAt_start env) hreturns
    cases fault? with
    | some fault => cases hresult
    | none =>
        have hstate : machine.state = ⟨.command skip, final⟩ := Except.ok.inj hresult
        rw [hstate] at hlast
        exact hlast.changesAt

end Command

end WhileLanguage
