import WhileLanguage.Proofs.Names.Assignments
import WhileLanguage.Proofs.Names.Noninterference

/-!
# Commands that may change places

Commands of which neither assigns to a name of the other are `Command.Independent`. Each of them
finds the names that it mentions as they were before the other one, so it makes the same steps for
the same gas on either side of it: read `Command.Independent.commute`. What both leave together has
the names of each as that one leaves them, whichever comes first, by `Environment.eq_of_exchange`.
-/

namespace WhileLanguage

namespace Environment

/-- Environments agree on names that are not among those that have changed. -/
theorem ChangesAt.agreesOn {targets names : List String} {before after : Environment}
    (h : before.ChangesAt targets after) (hnames : ∀ name ∈ targets, name ∉ names) :
    before.AgreesOn names after := by
  intro name hname
  exact (h.same name fun htarget => hnames name htarget hname).symm

/-- Agreement on names has no direction. -/
theorem AgreesOn.symm {names : List String} {left right : Environment}
    (h : left.AgreesOn names right) : right.AgreesOn names left :=
  fun name hname => (h name hname).symm

/-- What two changes leave does not depend on which comes first, if each of them is the same on the
names that it is about before and after the other one. -/
theorem eq_of_exchange {names others : List String} {env middle final other last : Environment}
    (hmiddle : middle.AgreesOn names final)
    (hother : Undisturbed others middle env final other)
    (hlast : Undisturbed names env other middle last) : last = final := by
  refine ext_get? fun name => ?_
  by_cases hname : name ∈ names
  · rw [← hlast.agrees name hname, hmiddle name hname]
  · rw [hlast.keepsRight name hname]
    by_cases hmember : name ∈ others
    · rw [hother.agrees name hmember]
    · rw [hother.keepsRight name hmember, hother.keepsLeft name hmember,
        hlast.keepsLeft name hname]

end Environment

namespace Command

variable {c first second : Command} {env left right final result : Environment} {gas steps : Nat}

/-! ## What a command leaves, and for how much -/

/-- `c.Leaves env final gas steps` says that `c` comes to `final` in `env` for this much gas, and
that its reductions end there after so many steps. -/
structure Leaves (c : Command) (env final : Environment) (gas steps : Nat) : Prop where
  comesTo : c.ComesTo env (.ok final) gas
  reducesTo : c.ReducesTo env (.ok final) steps

/-- Reductions of a command end with an environment where a run of it returns, with nothing left to
do in that environment. -/
theorem reducesTo_ok_iff :
    c.ReducesTo env (.ok final) steps ↔
      (Machine.ofState ⟨.command c, env⟩).Returns
        ⟨⟨⟨.command skip, final⟩, steps, none⟩, none⟩ := by
  rw [Machine.ofState_returns_iff]
  constructor
  · intro h
    obtain ⟨last, hafter, rfl, hstop⟩ := h
    exact ⟨rfl, hafter, hstop⟩
  · intro h
    obtain ⟨-, hafter, hstop⟩ := h
    exact ⟨_, hafter, rfl, hstop⟩

/-- What a command comes to, its reductions end with after some number of steps. -/
theorem ComesTo.exists_leaves (h : c.ComesTo env (.ok final) gas) :
    ∃ steps, c.Leaves env final gas steps := by
  obtain ⟨steps, hreduces⟩ := h.exists_reducesTo
  exact ⟨steps, h, hreduces⟩

/-- A sequence costs a unit of gas and a step more than its parts. -/
theorem Leaves.seq {middle : Environment} {rest more : Nat}
    (hfirst : first.Leaves env middle gas steps) (hsecond : second.Leaves middle final rest more) :
    (seq first second).Leaves env final (1 + gas + rest) (steps + (more + 1)) :=
  ⟨.seq hfirst.comesTo hsecond.comesTo, .seq hfirst.reducesTo hsecond.reducesTo⟩

/-- What a command leaves has changed at names that it assigns to alone. -/
theorem Leaves.changesAt (h : c.Leaves env final gas steps) : env.ChangesAt c.targets final := by
  obtain ⟨last, hafter, rfl, -⟩ := h.reducesTo
  have hlast := State.after_keeps (fun hstate hstep => (State.AssignsAt.of_reduce hstate hstep).1)
    (c.assignsAt_start env) hafter
  exact hlast.changesAt

/-- A command comes to an environment for the same gas where its names have the same values. -/
theorem ComesTo.of_agreesOn (h : c.ComesTo left (.ok result) gas)
    (hagrees : left.AgreesOn c.names right) :
    ∃ other, c.ComesTo right (.ok other) gas ∧
      Environment.Undisturbed c.names left right result other := by
  obtain ⟨bound, hrun⟩ := (comesTo_iff 0).1 h
  have hevaluate := (Correspondence.undisturbed c.names left right).evaluate_command
    hagrees.undisturbed bound none fun name hname => hname
  rw [Fault.rename_id, rename_id] at hevaluate
  obtain ⟨⟨found, after⟩, hother, hfound, rfl⟩ := exists_some_of_rel (hevaluate 0) hrun
  obtain ⟨other, rfl, hundisturbed⟩ := hfound.exists_ok
  exact ⟨other, (comesTo_iff 0).2 ⟨bound, hother⟩, hundisturbed⟩

/-- A command reduces in as many steps where its names have the same values. -/
theorem ReducesTo.of_agreesOn (h : c.ReducesTo left (.ok result) steps)
    (hagrees : left.AgreesOn c.names right) :
    ∃ other, c.ReducesTo right (.ok other) steps ∧
      Environment.Undisturbed c.names left right result other := by
  have hlockstep := (Correspondence.undisturbed c.names left right).lockstep
  rw [Fault.rename_id] at hlockstep
  have hstates : State.Undisturbed c.names left right ⟨.command c, left⟩ ⟨.command c, right⟩ :=
    ⟨rfl, hagrees.undisturbed⟩
  have hstart : (Machine.ofState ⟨.command c, left⟩).Matching
      (Correspondence.undisturbed c.names left right).States
      (Machine.ofState ⟨.command c, right⟩) :=
    ⟨Correspondence.states_undisturbed_iff.2 ⟨List.Subset.refl _, hstates⟩, rfl, rfl⟩
  obtain ⟨bound, hrun⟩ := reducesTo_ok_iff.1 h
  obtain ⟨⟨⟨⟨phrase, other⟩, count, limit⟩, fault?⟩, hother, hmatch⟩ :=
    exists_some_of_rel (hlockstep.run hstart bound) hrun
  obtain ⟨-, hphrase, hundisturbed⟩ := Correspondence.states_undisturbed_iff.1 hmatch.machine.state
  obtain rfl : Phrase.command skip = phrase := hphrase
  obtain rfl : steps = count := hmatch.machine.steps
  obtain rfl : none = limit := hmatch.machine.limit
  obtain rfl : fault? = none := hmatch.fault?
  exact ⟨other, reducesTo_ok_iff.2 ⟨bound, hother⟩, hundisturbed⟩

/-- A command leaves an environment for the same gas and after as many steps where its names have
the same values. -/
theorem Leaves.of_agreesOn (h : c.Leaves left result gas steps)
    (hagrees : left.AgreesOn c.names right) :
    ∃ other, c.Leaves right other gas steps ∧
      Environment.Undisturbed c.names left right result other := by
  obtain ⟨other, hcomes, hundisturbed⟩ := h.comesTo.of_agreesOn hagrees
  obtain ⟨found, hreduces, hfound⟩ := h.reducesTo.of_agreesOn hagrees
  obtain rfl := hundisturbed.unique hfound
  exact ⟨other, ⟨hcomes, hreduces⟩, hundisturbed⟩

/-! ## Commands in either order -/

/-- Two commands are independent if neither assigns to a name that occurs in the other. -/
structure Independent (first second : Command) : Prop where
  first_targets : ∀ name ∈ first.targets, name ∉ second.names
  second_targets : ∀ name ∈ second.targets, name ∉ first.names

/-- Independent commands leave one environment in either order, for the same gas and after as many
steps. -/
theorem Independent.leaves_seq (h : first.Independent second) {middle : Environment}
    {rest more : Nat} (hfirst : first.Leaves env middle gas steps)
    (hsecond : second.Leaves middle final rest more) :
    (seq second first).Leaves env final (1 + rest + gas) (more + (steps + 1)) := by
  obtain ⟨other, hbefore, hother⟩ :=
    hsecond.of_agreesOn (hfirst.changesAt.agreesOn h.first_targets).symm
  obtain ⟨last, hafter, hlast⟩ :=
    hfirst.of_agreesOn (hbefore.changesAt.agreesOn h.second_targets)
  have hmiddle := hsecond.changesAt.agreesOn h.second_targets
  obtain rfl := Environment.eq_of_exchange hmiddle hother hlast
  exact hbefore.seq hafter

/-- Independent commands may change places. If an evaluation of the one after the other leaves an
environment, then in the other order it leaves the same one and has used the same gas, and the runs
of both orders stop alike, in that environment and after the same number of steps. -/
theorem Independent.commute (h : first.Independent second) {bound : Nat} {after : Evaluator}
    (hrun : ({} : Evaluator).command bound (.seq first second) env = some (.ok final, after)) :
    (∃ bound, ({} : Evaluator).command bound (.seq second first) env = some (.ok final, after)) ∧
      ∃ halt, (Machine.ofState ⟨.command (.seq first second), env⟩).Returns halt ∧
        (Machine.ofState ⟨.command (.seq second first), env⟩).Returns halt ∧
        halt.result = .ok ⟨.command skip, final⟩ := by
  obtain ⟨hlimit, hcomes⟩ := exists_command_iff.1 ⟨bound, hrun⟩
  obtain ⟨middle, gas, rest, hfirst, hsecond, hgas⟩ := comesTo_seq_ok_iff.1 hcomes
  obtain ⟨steps, hfirst⟩ := hfirst.exists_leaves
  obtain ⟨more, hsecond⟩ := hsecond.exists_leaves
  have hinorder := hfirst.seq hsecond
  have hswapped := h.leaves_seq hfirst hsecond
  have hused : 1 + rest + gas = after.used := by omega
  have hcount : more + (steps + 1) = steps + (more + 1) := by omega
  rw [hused, hcount] at hswapped
  exact ⟨exists_command_iff.2 ⟨hlimit, hswapped.comesTo⟩, _, reducesTo_ok_iff.1 hinorder.reducesTo,
    reducesTo_ok_iff.1 hswapped.reducesTo, rfl⟩

/-- Two loops that read one bound and count in names of their own may change places. -/
theorem Independent.commute_of_loops :
    let counters (x y sum : Int64) : Environment :=
      Environment.ofList
        [("bound", .number 3), ("x", .number x), ("y", .number y), ("sum", .number sum)]
    let less (name : String) : Expr := .binary .lessThan (.var name) (.var "bound")
    let add (name : String) (more : Expr) : Command :=
      .assign name (.binary .add (.var name) more)
    let first : Command := .loop (less "x") (add "x" (.literal (.number 1)))
    let second : Command :=
      .loop (less "y") (.seq (add "sum" (.var "y")) (add "y" (.literal (.number 2))))
    first.Independent second ∧
      ({} : Evaluator).command 4 (.seq first second) (counters 0 0 0) =
        some (.ok (counters 3 4 2), ⟨54, none⟩) ∧
      (∃ bound, ({} : Evaluator).command bound (.seq second first) (counters 0 0 0) =
        some (.ok (counters 3 4 2), ⟨54, none⟩)) ∧
      (Machine.ofState ⟨.command (.seq second first), counters 0 0 0⟩).Returns
        ⟨⟨⟨.command skip, counters 3 4 2⟩, 66, none⟩, none⟩ := by
  intro counters less add first second
  have h : first.Independent second := ⟨by decide, by decide⟩
  have hrun : ({} : Evaluator).command 4 (.seq first second) (counters 0 0 0) =
      some (.ok (counters 3 4 2), ⟨54, none⟩) := rfl
  have hinorder : (Machine.ofState ⟨.command (.seq first second), counters 0 0 0⟩).Returns
      ⟨⟨⟨.command skip, counters 3 4 2⟩, 66, none⟩, none⟩ := ⟨67, rfl⟩
  obtain ⟨hswapped, halt, hreturns, hother, -⟩ := h.commute hrun
  obtain rfl := hreturns.unique hinorder
  exact ⟨h, hrun, hswapped, hother⟩

end Command

end WhileLanguage
