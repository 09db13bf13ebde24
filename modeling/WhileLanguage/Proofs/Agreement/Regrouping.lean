import WhileLanguage.Proofs.Agreement.Commands
import WhileLanguage.Proofs.Matching
import WhileLanguage.Proofs.Regrouping
import WhileLanguage.Proofs.SmallStep.Histories

/-!
# Regrouping does not show in runs

Commands that differ only in the grouping of sequences run in lockstep and come to the same end
for the same gas: read `Command.Regroups.unobservable`. A sequence looks at its first part alone,
so the grouping decides how deep a step is made, but not which step: `Command.Regroups.reduce`
says so of one step, and `State.Regroups.lockstep` carries it over runs. The gas of an evaluation
does not show in the run, so that `Command.Regroups.comesTo_iff` goes by derivations instead.
-/

namespace WhileLanguage

namespace Command

variable {c d : Command}

/-! ## One step -/

/-- Steps that lead to one environment and to commands that regroup to one another, or that fail
with one fault. -/
inductive StepsAlike :
    Except Fault (Command × Environment) → Except Fault (Command × Environment) → Prop where
  | ok {c d : Command} (h : c.Regroups d) (env : Environment) :
      StepsAlike (.ok (c, env)) (.ok (d, env))
  | error (fault : Fault) : StepsAlike (.error fault) (.error fault)

namespace StepsAlike

variable {x y z : Except Fault (Command × Environment)}

/-- A step is like itself. -/
protected theorem refl (x : Except Fault (Command × Environment)) : StepsAlike x x := by
  cases x with
  | error fault => exact .error fault
  | ok next => exact .ok (.refl next.1) next.2

/-- Likeness of steps is mutual. -/
protected theorem symm (h : StepsAlike x y) : StepsAlike y x := by
  cases h with
  | ok h env => exact .ok h.symm env
  | error fault => exact .error fault

/-- Likeness of steps is passed on. -/
protected theorem trans (hfirst : StepsAlike x y) (hsecond : StepsAlike y z) :
    StepsAlike x z := by
  cases hfirst with
  | error fault => exact hsecond
  | ok h env =>
      cases hsecond with
      | ok hother env => exact .ok (h.trans hother) env

/-- Steps that are alike stay so in places that regroup to one another. -/
protected theorem map (h : StepsAlike x y) {f g : Command → Command}
    (hplace : ∀ {c d : Command}, c.Regroups d → (f c).Regroups (g d)) :
    StepsAlike (x.map fun next => (f next.1, next.2)) (y.map fun next => (g next.1, next.2)) := by
  cases h with
  | ok h env => exact .ok (hplace h) env
  | error fault => exact .error fault

/-- A result that is put in places that regroup to one another makes steps that are alike. -/
theorem of_result {α : Type} (result : Except Fault α) {f g : α → Command}
    (hplace : ∀ a, (f a).Regroups (g a)) (env : Environment) :
    StepsAlike (result.map fun a => (f a, env)) (result.map fun a => (g a, env)) := by
  cases result with
  | error fault => exact .error fault
  | ok a => exact .ok (hplace a) env

end StepsAlike

namespace Regroups

/-- Of commands that regroup to one another, both have a step or none has. -/
theorem isReducible_eq (h : c.Regroups d) : c.isReducible = d.isReducible := by
  induction h with
  | refl | assoc | branch | seq | loop => rfl
  | symm _ ih => exact ih.symm
  | trans _ _ ihfirst ihsecond => exact ihfirst.trans ihsecond

/-- Nothing but the command that does nothing regroups to it. -/
theorem eq_skip (h : c.Regroups skip) : c = skip :=
  isReducible_eq_false_iff.1 h.isReducible_eq

/-- Commands that regroup to one another make steps that are alike. -/
theorem reduce (h : c.Regroups d) (env : Environment) :
    StepsAlike (c.reduce env) (d.reduce env) := by
  induction h with
  | refl c => exact .refl _
  | symm _ ih => exact ih.symm
  | trans _ _ ihfirst ihsecond => exact ihfirst.trans ihsecond
  | assoc a b c =>
      by_cases ha : a = skip
      -- The ended part is dropped at either depth, and the same sequence is left.
      · subst ha
        exact .refl (.ok (.seq b c, env))
      · have hfirst := isReducible_of_ne ha
        rw [reduce_seq rfl, reduce_seq hfirst, reduce_seq hfirst]
        cases a.reduce env with
        | error fault => exact .error fault
        | ok next => exact .ok (.assoc next.1 b c) next.2
  | @branch condition yes yes' no no' hyes hno _ _ =>
      have hselected (holds : Bool) :
          Regroups (if holds then yes else no) (if holds then yes' else no') := by
        cases holds with
        | true => exact hyes
        | false => exact hno
      cases condition with
      | literal v => exact .of_result v.truth hselected env
      | var | binary =>
          rw [reduce_branch rfl, reduce_branch rfl]
          exact .of_result _ (fun condition => .branch condition hyes hno) env
  | @seq first first' second second' hfirst hsecond ihfirst _ =>
      by_cases hskip : first = skip
      · subst hskip
        obtain rfl := hfirst.symm.eq_skip
        exact .ok hsecond env
      · have hreducible := isReducible_of_ne hskip
        rw [reduce_seq hreducible, reduce_seq (hfirst.isReducible_eq ▸ hreducible)]
        exact ihfirst.map fun h => .seq h hsecond
  | loop condition hbody _ =>
      exact .ok (.branch condition (.seq hbody (.loop condition hbody)) (.refl skip)) env

end Regroups

end Command

/-! ## Runs -/

/-- States in one environment, of commands that regroup to one another. -/
def State.Regroups (left right : State) : Prop :=
  ∃ c d : Command, left.phrase = .command c ∧ right.phrase = .command d ∧ c.Regroups d ∧
    left.env = right.env

namespace State.Regroups

variable {left right : State}

/-- Of states that regroup to one another, both have a step or none has. -/
theorem isReducible_eq (h : left.Regroups right) : left.isReducible = right.isReducible := by
  obtain ⟨c, d, hleft, hright, hregroups, -⟩ := h
  unfold isReducible
  rw [hleft, hright]
  exact hregroups.isReducible_eq

/-- States that regroup to one another have steps to such states, or fail with one fault. -/
theorem lockstep : State.Lockstep id State.Regroups where
  exhausted _ := rfl
  isReducible h := h.isReducible_eq
  reduce {left right} h := by
    obtain ⟨phrase, env⟩ := left
    obtain ⟨other, env'⟩ := right
    obtain ⟨c, d, rfl, rfl, hregroups, rfl⟩ := h
    show Matching id State.Regroups ((c.reduce env).map _) ((d.reduce env).map _)
    have halike := hregroups.reduce env
    generalize c.reduce env = x at halike ⊢
    generalize d.reduce env = y at halike ⊢
    cases halike with
    | ok hnext after => exact .ok ⟨_, _, rfl, rfl, hnext, rfl⟩
    | error fault => exact .error fault

/-- Nothing but itself regroups to a state with nothing left to do. -/
theorem eq_of_skip {env : Environment} (h : State.Regroups ⟨.command .skip, env⟩ right) :
    right = ⟨.command .skip, env⟩ := by
  obtain ⟨phrase, after⟩ := right
  obtain ⟨c, d, hleft, rfl, hregroups, rfl⟩ := h
  cases hleft
  obtain rfl := hregroups.symm.eq_skip
  rfl

end State.Regroups

namespace Machine

/-- Machines match that have made as many steps under the same limit, to states that regroup to one
another. -/
abbrev Alike (left right : Machine) : Prop :=
  left.Matching State.Regroups right

namespace Alike

variable {left right : Machine}

/-- Of machines that are alike, both are done or none is. -/
theorem isNormal_eq (h : left.Alike right) : left.isNormal = right.isNormal :=
  State.Regroups.lockstep.isNormal_eq h

/-- Machines that are alike make a step or fail it with the same fault. -/
theorem fault?_step (h : left.Alike right) : left.step.fault? = right.step.fault? := by
  have hfault := (State.Regroups.lockstep.step h).fault?
  rw [Option.map_id] at hfault
  exact hfault.symm

/-- Machines that are alike are so after any number of steps, which are made or fail alike. -/
theorem advance (h : left.Alike right) (count : Nat) :
    (left.advance count).machine.Alike (right.advance count).machine ∧
      (left.advance count).fault? = (right.advance count).fault? := by
  have hhalt := State.Regroups.lockstep.advance h count
  have hfault := hhalt.fault?
  rw [Option.map_id] at hfault
  exact ⟨hhalt.machine, hfault.symm⟩

/-- Where the run of a machine returns, so does that of one that is alike, at a machine that is
alike and with the same fault. -/
theorem exists_returns (h : left.Alike right) {halt : Halt} (hreturns : left.Returns halt) :
    ∃ other, right.Returns other ∧ halt.machine.Alike other.machine ∧
      halt.fault? = other.fault? := by
  obtain ⟨bound, hrun⟩ := hreturns
  obtain ⟨other, hother, hhalt⟩ :=
    exists_some_of_rel (State.Regroups.lockstep.run h bound) hrun
  have hfault := hhalt.fault?
  rw [Option.map_id] at hfault
  exact ⟨other, ⟨bound, hother⟩, hhalt.machine, hfault.symm⟩

end Alike

end Machine

namespace Command.Regroups

variable {c d : Command} {env : Environment}

/-- New machines for commands that regroup to one another are alike. -/
theorem alike (h : c.Regroups d) (env : Environment) (limit : Option Nat) :
    (Machine.new ⟨.command c, env⟩ limit).Alike (Machine.new ⟨.command d, env⟩ limit) := by
  rw [Machine.new_eq, Machine.new_eq]
  exact ⟨⟨c, d, rfl, rfl, h, rfl⟩, rfl, rfl⟩

/-- What a command's evaluation returns, that of a command that regroups to it returns too. -/
theorem returns (h : c.Regroups d) {result : Except Fault Environment}
    (hreturns : c.Returns env result) : d.Returns env result := by
  obtain ⟨⟨machine, fault?⟩, hrun, hresult⟩ := returns_iff_runReturns.1 hreturns
  obtain ⟨⟨other, fault'⟩, hother, halike, hfault⟩ := (h.alike env none).exists_returns hrun
  dsimp only at halike hfault
  subst hfault
  refine returns_iff_runReturns.2 ⟨⟨other, fault?⟩, hother, ?_⟩
  cases fault? with
  | some fault => exact hresult
  | none =>
      cases result with
      | error fault => cases hresult
      | ok final =>
          have hstate : machine.state = ⟨.command skip, final⟩ := Except.ok.inj hresult
          have hregroups := halike.state
          rw [hstate] at hregroups
          exact congrArg Except.ok hregroups.eq_of_skip

/-! ## Gas -/

/-- Commands that regroup to one another come to the same environments for the same gas. -/
theorem comesTo_iff (h : c.Regroups d) {final : Environment} {gas : Nat} :
    c.ComesTo env (.ok final) gas ↔ d.ComesTo env (.ok final) gas := by
  induction h generalizing env final gas with
  | refl => exact Iff.rfl
  | symm _ ih => exact ih.symm
  | trans _ _ ihfirst ihsecond => exact ihfirst.trans ihsecond
  | assoc a b c =>
      simp only [comesTo_seq_ok_iff]
      constructor
      · intro h
        obtain ⟨after, _, third, ⟨middle, first, second, ha, hb, rfl⟩, hc, rfl⟩ := h
        exact ⟨middle, first, _, ha, ⟨after, second, third, hb, hc, rfl⟩, by omega⟩
      · intro h
        obtain ⟨middle, first, _, ha, ⟨after, second, third, hb, hc, rfl⟩, rfl⟩ := h
        exact ⟨after, _, third, ⟨middle, first, second, ha, hb, rfl⟩, hc, by omega⟩
  | @branch condition yes yes' no no' _ _ ihyes ihno =>
      have hselected (holds : Bool) (spent : Nat) :
          ComesTo (if holds then yes else no) env (.ok final) spent ↔
            ComesTo (if holds then yes' else no') env (.ok final) spent := by
        cases holds with
        | true => exact ihyes
        | false => exact ihno
      simp only [comesTo_branch_ok_iff, hselected]
  | seq _ _ ihfirst ihsecond => simp only [comesTo_seq_ok_iff, ihfirst, ihsecond]
  | loop condition _ ih => exact ⟨.loop_of_body ih.1, .loop_of_body ih.2⟩

/-- Commands that differ in the grouping of sequences cannot be told apart by running them. Under
any limit, or none, machines are alike after every number of steps: in one environment, with
commands that regroup to one another, both done or neither, and failing with one fault. Without
a limit evaluations return the same environment or fault, or both return nothing, and what they
return without a fault has cost the same. -/
theorem unobservable (h : c.Regroups d) (env : Environment) :
    (∀ limit count,
      let left := (Machine.new ⟨.command c, env⟩ limit).advance count
      let right := (Machine.new ⟨.command d, env⟩ limit).advance count
      left.machine.Alike right.machine ∧ left.fault? = right.fault? ∧
        left.machine.isNormal = right.machine.isNormal ∧
        left.machine.step.fault? = right.machine.step.fault?) ∧
    (∀ result, c.Returns env result ↔ d.Returns env result) ∧
    ∀ final after,
      (∃ bound, ({} : Evaluator).command bound c env = some (.ok final, after)) ↔
        ∃ bound, ({} : Evaluator).command bound d env = some (.ok final, after) := by
  refine ⟨fun limit count => ?steps, fun result => ⟨h.returns, h.symm.returns⟩,
    fun final after => ?gas⟩
  case steps =>
    obtain ⟨halike, hfault⟩ := (h.alike env limit).advance count
    exact ⟨halike, hfault, halike.isNormal_eq, halike.fault?_step⟩
  case gas => rw [exists_command_iff, exists_command_iff, h.comesTo_iff]

/-- A loop whose rounds are grouped in two ways makes the same steps to its third environment, and
runs out of a limit of nine steps in both groupings. -/
theorem unobservable_in_rounds :
    let env := Environment.empty.insert "i" (.number 0)
    let raise : Command := .assign "i" (.binary .add (.var "i") (.literal (.number 1)))
    let less : Expr := .binary .lessThan (.var "i") (.literal (.number 2))
    let c : Command := .loop less (.seq (.seq .skip raise) .skip)
    let d : Command := .loop less (.seq .skip (.seq raise .skip))
    c.Regroups d ∧
      ((Machine.new ⟨.command c, env⟩ none).advance 9).machine.Alike
        ((Machine.new ⟨.command d, env⟩ none).advance 9).machine ∧
      ((Machine.new ⟨.command d, env⟩ (some 9)).advance 9).machine.step.fault? =
        some (.exhausted 9) ∧
      (∃ bound, ({} : Evaluator).command bound d env =
        some (.ok (env.insert "i" (.number 2)), ⟨26, none⟩)) := by
  intro env raise less c d
  have h : c.Regroups d := .loop less (.assoc .skip raise .skip)
  obtain ⟨hsteps, -, hgas⟩ := h.unobservable env
  refine ⟨h, (hsteps none 9).1, (hsteps (some 9) 9).2.2.2.symm.trans rfl, ?_⟩
  exact (hgas (env.insert "i" (.number 2)) ⟨26, none⟩).1 ⟨3, rfl⟩

end Command.Regroups

end WhileLanguage
