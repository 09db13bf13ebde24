import WhileLanguage.Proofs.SmallStep.Runs

/-!
# Machines with a history

A machine is stepped, run and given limits in any order, and its operations may fail. Nothing of
that is left in it but a count of steps and the last limit: read `Machine.history_irrelevant`,
which says that its state is where so many reductions of its start lead, and that within its
limit it runs as a new machine does. `Machine.returns_iff_of_after` is the reason: a run returns
the same from every state that it passes.
-/

namespace WhileLanguage.Machine

/-- A new machine, with a limit if one is given. -/
def new (start : State) : Option Nat → Machine
  | none => ofState start
  | some limit => (ofState start).withLimit limit

/-- A new machine has made no steps. -/
theorem new_eq (start : State) (limit : Option Nat) : new start limit = ⟨start, 0, limit⟩ := by
  cases limit <;> rfl

/-! ## Operations -/

/-- What can be asked of a machine. -/
inductive Operation where
  | step
  | run
  | withLimit (limit : Nat)
deriving DecidableEq

/-- The machine that an operation leaves, with the fault if it fails. A run that does not return
leaves none. -/
def Operation.Leaves (machine : Machine) : Operation → Halt → Prop
  | step, halt => machine.step = halt
  | run, halt => machine.Returns halt
  | withLimit limit, halt => ⟨machine.withLimit limit, none⟩ = halt

/-- The machine that operations on a new one leave, one after another, failing or not. -/
inductive Reaches (start : State) : List Operation → Machine → Prop where
  | new : Reaches start [] (ofState start)
  | operate {operations machine operation halt} :
      Reaches start operations machine → operation.Leaves machine halt →
      Reaches start (operations ++ [operation]) halt.machine

/-- An operation makes some of the reductions that are left. -/
theorem Operation.Leaves.exists_after {machine : Machine} {operation : Operation} {halt : Halt}
    (h : operation.Leaves machine halt) :
    ∃ count, machine.state.after count = .ok halt.machine.state ∧
      halt.machine.steps = machine.steps + count := by
  cases operation with
  | step =>
      rw [Leaves] at h
      subst h
      obtain ⟨next, hstep⟩ | ⟨fault, hstep⟩ := machine.step_cases
      · rw [hstep]
        obtain ⟨hreduce, hsteps, -⟩ := step_eq_ok hstep
        exact ⟨1, State.after_succ_of_ok hreduce 0, hsteps⟩
      · rw [hstep]
        exact ⟨0, rfl, rfl⟩
  | run =>
      obtain ⟨count, last, -, hafter, hhalt, -⟩ := Returns.exists_after h
      rw [hhalt]
      exact ⟨count, hafter, rfl⟩
  | withLimit limit =>
      subst h
      exact ⟨0, rfl, rfl⟩

/-- A machine is where its steps lead from its start, whatever has been asked of it. -/
theorem Reaches.after_steps {start : State} {operations : List Operation} {machine : Machine}
    (h : Reaches start operations machine) : start.after machine.steps = .ok machine.state := by
  induction h with
  | new => rfl
  | operate _ hleaves ih =>
      obtain ⟨count, hafter, hsteps⟩ := hleaves.exists_after
      rw [hsteps, State.after_add ih, hafter]

/-- A machine that a fault stops fails again with it, and stays as it is. -/
theorem Stops.leaves {machine : Machine} {fault : Fault} (h : machine.Stops (some fault)) :
    Operation.step.Leaves machine ⟨machine, some fault⟩ ∧
      Operation.run.Leaves machine ⟨machine, some fault⟩ :=
  ⟨h.2, h.returns⟩

/-- A machine of any history is where as many reductions of its start lead as it has made steps.
A step that fails changes nothing; a run that fails leaves a machine whose next step and run fail
alike and change nothing; and a machine within its limit runs as a new one with that limit does,
to the same end or to none. -/
theorem history_irrelevant {start : State} {operations : List Operation} {machine : Machine}
    (h : Reaches start operations machine) :
    start.after machine.steps = .ok machine.state ∧
    (∀ left fault, Operation.step.Leaves machine ⟨left, some fault⟩ → left = machine) ∧
    (∀ left fault, Operation.run.Leaves machine ⟨left, some fault⟩ →
      Operation.step.Leaves left ⟨left, some fault⟩ ∧
        Operation.run.Leaves left ⟨left, some fault⟩) ∧
    ((∀ limit, machine.limit = some limit → machine.steps ≤ limit) →
      ∀ halt, machine.Returns halt ↔ (new start machine.limit).Returns halt) := by
  refine ⟨h.after_steps, fun left fault hleaves => step_eq_fault hleaves, ?run, ?resume⟩
  case run =>
    intro left fault hleaves
    obtain ⟨_, _, _, _, _, hstops⟩ := Returns.exists_after hleaves
    exact Stops.leaves hstops
  case resume =>
    intro hle halt
    have hallows : (new start machine.limit).Allows machine.steps := by
      intro limit hlimit
      rw [new_eq] at hlimit ⊢
      exact hle limit hlimit
    rw [new_eq] at hallows ⊢
    rw [returns_iff_of_after hallows h.after_steps, Nat.zero_add]

/-- A limit of two stops the run of a sequence before its fault. With a limit of five the machine
goes on by a step, and its run then fails where the run of a new machine with that limit does. -/
theorem history_of_raised_limit :
    let start : State :=
      ⟨.command (.seq (.assign "x" (.literal (.number 1)))
        (.branch (.binary .lessThan (.var "x") (.literal (.boolean true))) .skip .skip)), .empty⟩
    let env : Environment := Environment.empty.insert "x" (.number 1)
    let last : State :=
      ⟨.command (.branch (.binary .lessThan (.literal (.number 1)) (.literal (.boolean true)))
        .skip .skip), env⟩
    let machine : Machine := ⟨last, 3, some 5⟩
    let fault : Fault := .operands .lessThan .number .boolean
    Reaches start [.withLimit 2, .run, .withLimit 5, .step] machine ∧
      start.after 3 = .ok last ∧
      Operation.run.Leaves machine ⟨machine, some fault⟩ ∧
      Operation.step.Leaves machine ⟨machine, some fault⟩ ∧
      (new start (some 5)).Returns ⟨machine, some fault⟩ := by
  intro start env last machine fault
  let halfway : State :=
    ⟨.command (.branch (.binary .lessThan (.var "x") (.literal (.boolean true))) .skip .skip), env⟩
  have hlimit : (Operation.withLimit 2).Leaves (ofState start) ⟨⟨start, 0, some 2⟩, none⟩ := rfl
  have hcut : Operation.run.Leaves ⟨start, 0, some 2⟩
      ⟨⟨halfway, 2, some 2⟩, some (.exhausted 2)⟩ := ⟨3, rfl⟩
  have hraise : (Operation.withLimit 5).Leaves ⟨halfway, 2, some 2⟩
      ⟨⟨halfway, 2, some 5⟩, none⟩ := rfl
  have hstep : Operation.step.Leaves ⟨halfway, 2, some 5⟩ ⟨machine, none⟩ := rfl
  have hreaches : Reaches start [.withLimit 2, .run, .withLimit 5, .step] machine :=
    .operate (.operate (.operate (.operate .new hlimit) hcut) hraise) hstep
  have hleaves : Operation.run.Leaves machine ⟨machine, some fault⟩ := ⟨1, rfl⟩
  obtain ⟨hafter, -, hfails, hresume⟩ := history_irrelevant hreaches
  refine ⟨hreaches, hafter, hleaves, (hfails machine fault hleaves).1, ?_⟩
  refine (hresume (fun limit hlimit => ?_) _).1 hleaves
  obtain rfl := Option.some.inj hlimit
  decide

end WhileLanguage.Machine
