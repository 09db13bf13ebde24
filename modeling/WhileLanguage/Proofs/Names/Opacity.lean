import Mathlib.Logic.Equiv.Basic
import WhileLanguage.Proofs.BigStep.Sessions
import WhileLanguage.Proofs.Names.Correspondence
import WhileLanguage.Proofs.SmallStep.Histories

/-!
# Any names will do

A name counts by being the same as another one or not, and by nothing else. So a renaming that
gives different names to different names may be made before or after a phrase is run: read
`Phrase.commutes_with_renaming`. An environment corresponds to the renamed one, although that has
its bindings in another order, since look-ups and bindings do not see the order.
-/

namespace WhileLanguage

variable {r : String → String}

/-- If different names get different ones, an environment corresponds to the renamed one. -/
def Correspondence.renamed (hr : Function.Injective r) : Correspondence r (fun _ => True) where
  related left right := right = left.rename r
  get?_eq h _ := by
    rw [h, Environment.get?_rename hr]
  insert v h _ := by
    rw [h, Environment.rename_insert hr]

namespace Correspondence

variable (hr : Function.Injective r)

/-- A state corresponds to the renamed one, and to no other. -/
theorem states_renamed_iff {left right : State} :
    (renamed hr).States left right ↔ right = left.rename r := by
  obtain ⟨phrase, env⟩ := right
  unfold States State.rename
  rw [State.mk.injEq]
  constructor
  · intro h
    obtain ⟨hphrase, -, henv⟩ := h
    exact ⟨hphrase, henv⟩
  · intro h
    obtain ⟨hphrase, henv⟩ := h
    exact ⟨hphrase, fun _ _ => trivial, henv⟩

/-- Machines match if one is the other renamed. -/
theorem eq_rename_of_matching {left right : Machine}
    (h : left.Matching (renamed hr).States right) : right = left.rename r := by
  obtain ⟨state, steps, limit⟩ := right
  obtain ⟨hstate, hsteps, hlimit⟩ := h
  obtain rfl : state = left.state.rename r := (states_renamed_iff hr).1 hstate
  dsimp only at hsteps hlimit
  rw [← hsteps, ← hlimit, Machine.rename]

/-- Machines that have stopped match if one is the other renamed. -/
theorem halt_eq_rename_of_matching {left right : Halt}
    (h : left.Matching (Fault.rename r) (renamed hr).States right) : right = left.rename r := by
  obtain ⟨machine, fault?⟩ := right
  obtain ⟨hmachine, hfault⟩ := h
  obtain rfl : machine = left.machine.rename r := eq_rename_of_matching hr hmachine
  dsimp only at hfault
  rw [hfault, Halt.rename]

/-- An environment corresponds to the renamed one. -/
theorem related_renamed (env : Environment) : (renamed hr).related env (env.rename r) := rfl

include hr in
/-- A renamed phrase comes to the renamed outcome in the renamed environment. -/
theorem evaluate_renamed (bound : Nat) (limit : Option Nat) (env : Environment) (p : Phrase) :
    Bounded.Matching (Fault.rename r) (fun outcome other => other = outcome.rename r)
      (Call.evaluate bound limit ⟨p, env⟩)
      (Call.evaluate bound limit ⟨p.rename r, env.rename r⟩) := by
  cases p with
  | expr e =>
      have hvalue := (renamed hr).evaluate_expr (related_renamed hr env) limit (e := e)
        fun _ _ => trivial
      refine .bind hvalue fun v _ hv => ?_
      subst hv
      exact .free (.ok rfl) (fun _ => rfl) fun _ => rfl
  | command c =>
      have hfinal := (renamed hr).evaluate_command (related_renamed hr env) bound limit (c := c)
        fun _ _ => trivial
      exact .bind hfinal fun final other hother =>
        .free (.ok (congrArg Outcome.env hother)) (fun _ => rfl) fun _ => rfl

end Correspondence

/-- Different names for different names commute with all ways to run a phrase. In the renamed
environment every evaluator answers for the renamed phrase with the renamed outcome or fault, for
the same gas, or it does not answer for either. A compiled expression has the same values and the
renamed faults. Under any limit, or none, a machine is after every number of steps in the renamed
state, and its run returns that or does not return. -/
theorem Phrase.commutes_with_renaming (hr : Function.Injective r) (p : Phrase)
    (env : Environment) :
    (∀ evaluator bound,
      Evaluator.phrase bound evaluator (env.rename r) (p.rename r) =
        (Evaluator.phrase bound evaluator env p).map fun (result, after) =>
          ((result.map (Outcome.rename r)).mapError (Fault.rename r), after)) ∧
    (∀ e : Expr, (e.rename r).compile.call (env.rename r) =
      (e.compile.call env).mapError (Fault.rename r)) ∧
    (∀ limit count, (Machine.new (State.rename r ⟨p, env⟩) limit).advance count =
      ((Machine.new ⟨p, env⟩ limit).advance count).rename r) ∧
    ∀ limit bound, (Machine.new (State.rename r ⟨p, env⟩) limit).run bound =
      ((Machine.new ⟨p, env⟩ limit).run bound).map (Halt.rename r) := by
  have hlockstep := (Correspondence.renamed hr).lockstep
  have hstart limit : (Machine.new ⟨p, env⟩ limit).Matching (Correspondence.renamed hr).States
      (Machine.new (State.rename r ⟨p, env⟩) limit) := by
    rw [Machine.new_eq, Machine.new_eq]
    exact ⟨(Correspondence.states_renamed_iff hr).2 rfl, rfl, rfl⟩
  refine ⟨fun evaluator bound => ?evaluation, fun e => ?call, fun limit count => ?steps,
    fun limit bound => ?run⟩
  case evaluation =>
    have hanswer := (Correspondence.evaluate_renamed hr bound evaluator.limit env p).onAccount
      evaluator
    rw [← Call.phrase_eq evaluator ⟨p, env⟩, ← Call.phrase_eq evaluator ⟨p.rename r, env.rename r⟩]
      at hanswer
    refine eq_map_of_rel (rel_imp hanswer fun first second hmatch => ?_)
    exact Prod.ext hmatch.1.eq_map hmatch.2.symm
  case call =>
    have hdenote := (Correspondence.renamed hr).denote (Correspondence.related_renamed hr env)
      (e := e) fun _ _ => trivial
    exact hdenote.eq_mapError
  case steps =>
    exact Correspondence.halt_eq_rename_of_matching hr (hlockstep.advance (hstart limit) count)
  case run =>
    refine eq_map_of_rel (rel_imp (hlockstep.run (hstart limit) bound) fun halt other hmatch => ?_)
    exact Correspondence.halt_eq_rename_of_matching hr hmatch

/-- A loop whose counter is called as the loop's own keyword, and that uses a name without letters
and without a value in its second round, fails there after the same steps and for the same gas. -/
theorem Phrase.commutes_with_renaming_to_keyword :
    let r : String → String := (Equiv.swap "i" "while").trans (Equiv.swap "spare" "")
    let env := (Environment.empty.insert "i" (.number 0)).insert "last" (.boolean true)
    let less (n : Int64) : Expr := .binary .lessThan (.var "i") (.literal (.number n))
    let raise : Command := .assign "i" (.binary .add (.var "i") (.literal (.number 1)))
    let c : Command := .loop (less 2)
      (.seq (.assign "last" (.var "i")) (.branch (less 1) raise (.assign "i" (.var "spare"))))
    Function.Injective r ∧
      (env.rename r).toList = [("last", .boolean true), ("while", .number 0)] ∧
      Evaluator.phrase 3 {} (env.rename r) (.command (c.rename r)) =
        some (.error (.unbound ""), ⟨27, none⟩) ∧
      (Expr.rename r (.var "spare")).compile.call (env.rename r) = .error (.unbound "") ∧
      ∃ halt, (Machine.new ⟨.command (c.rename r), env.rename r⟩ none).run 25 = some halt ∧
        halt.machine.steps = 24 ∧ halt.fault? = some (.unbound "") ∧
        halt.machine.state.env.get? "while" = some (.number 1) := by
  intro r env less raise c
  have hr : Function.Injective r := Equiv.injective _
  obtain ⟨hevaluate, hcall, -, hrun⟩ := commutes_with_renaming hr (.command c) env
  refine ⟨hr, by decide, (hevaluate {} 3).trans rfl, (hcall (.var "spare")).trans rfl, ?run⟩
  case run =>
    have hplain : ∃ halt, (Machine.new ⟨.command c, env⟩ none).run 25 = some halt ∧
        halt.machine.steps = 24 ∧ halt.fault? = some (.unbound "spare") ∧
        halt.machine.state.env.get? "i" = some (.number 1) := ⟨_, rfl, rfl, rfl, rfl⟩
    obtain ⟨halt, hhalt, hsteps, hfault, hi⟩ := hplain
    refine ⟨halt.rename r, ?_, hsteps, congrArg (Option.map (Fault.rename r)) hfault,
      (Environment.get?_rename hr "i").trans hi⟩
    rw [← Option.map_some, ← hhalt]
    exact hrun none 25

end WhileLanguage
