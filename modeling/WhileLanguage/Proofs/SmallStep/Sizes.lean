import Mathlib.Tactic.Linarith
import WhileLanguage.Proofs.SmallStep.Histories
import WhileLanguage.Proofs.SmallStep.Steps

/-!
# How large a run makes a command

A loop that is unrolled is put behind a copy of its body, and the copy is gone by the time the loop
is unrolled again. `Command.peak` says how large a command can get in between. It bounds the nodes
of the command, by `Command.nodes_le_peak`, and no step raises it, by `Command.StepsTo.peak_le`, so
it bounds the nodes of all that a run comes to. Read `Command.nodes_of_reached_le`: however long a
run is, what it comes to has at most the square of the nodes that it started with.
-/

namespace WhileLanguage

variable {env after : Environment}

/-- A step of an expression adds no nodes. -/
theorem Expr.nodes_of_reduce {e next : Expr} (h : e.reduce env = .ok next) :
    next.nodes ≤ e.nodes := by
  fun_induction Expr.reduce env e generalizing next with
  | case1 v => cases h
  | case2 name =>
      obtain ⟨v, -, rfl⟩ := except_map_eq_ok_iff.1 h
      exact Nat.le_refl 1
  | case3 op a b =>
      obtain ⟨v, -, rfl⟩ := except_map_eq_ok_iff.1 h
      exact Nat.le_add_left 1 2
  | case4 op a right _ ih =>
      obtain ⟨reduced, hreduced, rfl⟩ := except_map_eq_ok_iff.1 h
      have hle := ih hreduced
      simp only [nodes]
      omega
  | case5 op left right _ _ ih =>
      obtain ⟨reduced, hreduced, rfl⟩ := except_map_eq_ok_iff.1 h
      have hle := ih hreduced
      simp only [nodes]
      omega

namespace Command

variable {c next : Command}

/-- The nodes that a command has at most while it is run. A loop is largest where it has just been
unrolled, or where the copy of its body is. -/
def peak : Command → Nat
  | skip => 1
  | assign _ value => 1 + value.nodes
  | branch condition yes no =>
      max (1 + condition.nodes + yes.nodes + no.nodes) (max yes.peak no.peak)
  | seq first second => max (1 + first.peak + second.nodes) second.peak
  | loop condition body =>
      max (4 + 2 * condition.nodes + 2 * body.nodes) (2 + condition.nodes + body.nodes + body.peak)

/-- A command that has not been run yet is no larger than its peak. -/
theorem nodes_le_peak (c : Command) : c.nodes ≤ c.peak := by
  induction c with
  | skip => exact Nat.le_refl 1
  | assign name value => exact Nat.le_refl (1 + value.nodes)
  | branch condition yes no _ _ => exact Nat.le_max_left _ _
  | seq first second ihfirst _ =>
      simp only [nodes, peak]
      omega
  | loop condition body _ =>
      simp only [nodes, peak]
      omega

/-- A loop and what it is unrolled to have one peak. -/
theorem peak_unrolled (condition : Expr) (body : Command) :
    (branch condition (seq body (loop condition body)) skip).peak =
      (loop condition body).peak := by
  have hpositive := body.nodes_pos
  simp only [peak, nodes]
  omega

/-- No step raises the peak of a command. -/
theorem StepsTo.peak_le (h : c.StepsTo env next after) : next.peak ≤ c.peak := by
  induction h with
  | assigned hvalue => exact Nat.add_le_add_left (Expr.nodes_of_reduce hvalue) 1
  | bind => exact Nat.le_add_right 1 _
  | tested hcondition =>
      have hle := Expr.nodes_of_reduce hcondition
      simp only [peak]
      omega
  | @select v holds yes no _ =>
      simp only [peak]
      cases holds with
      | true => simp only [if_true]; omega
      | false => simp only [Bool.false_eq_true, if_false]; omega
  | first _ ih =>
      simp only [peak]
      omega
  | drop => exact Nat.le_max_right _ _
  | @unroll condition body => exact Nat.le_of_eq (peak_unrolled condition body)

/-- A part's peak is below the square of the whole, if the part's nodes are among its nodes. -/
theorem peak_le_of_nodes_le {bound : Nat} (h : c.peak ≤ c.nodes * c.nodes)
    (hle : c.nodes ≤ bound) : c.peak ≤ bound * bound :=
  Nat.le_trans h (Nat.mul_self_le_mul_self hle)

/-- The peak of a command is at most the square of its nodes. -/
theorem peak_le (c : Command) : c.peak ≤ c.nodes * c.nodes := by
  induction c with
  | skip => exact Nat.le_refl 1
  | assign name value => exact Nat.le_mul_self (1 + value.nodes)
  | branch condition yes no ihyes ihno =>
      have hyes : yes.peak ≤ (branch condition yes no).nodes * (branch condition yes no).nodes :=
        peak_le_of_nodes_le ihyes (by simp only [nodes]; omega)
      have hno : no.peak ≤ (branch condition yes no).nodes * (branch condition yes no).nodes :=
        peak_le_of_nodes_le ihno (by simp only [nodes]; omega)
      exact Nat.max_le.2 ⟨Nat.le_mul_self _, Nat.max_le.2 ⟨hyes, hno⟩⟩
  | seq first second ihfirst ihsecond =>
      have hsecond : second.peak ≤ (seq first second).nodes * (seq first second).nodes :=
        peak_le_of_nodes_le ihsecond (by simp only [nodes]; omega)
      refine Nat.max_le.2 ⟨?_, hsecond⟩
      calc 1 + first.peak + second.nodes
          ≤ first.nodes * first.nodes + (1 + second.nodes) := by omega
        _ ≤ (1 + first.nodes + second.nodes) * (1 + first.nodes + second.nodes) := by nlinarith
  | loop condition body ih =>
      have hcondition := condition.nodes_pos
      have hbody := body.nodes_pos
      refine Nat.max_le.2 ⟨?_, ?_⟩
      · simp only [nodes]
        nlinarith
      · calc 2 + condition.nodes + body.nodes + body.peak
            ≤ 2 + condition.nodes + body.nodes + body.nodes * body.nodes := by omega
          _ ≤ (1 + condition.nodes + body.nodes) * (1 + condition.nodes + body.nodes) := by
              nlinarith

end Command

/-! ## Runs -/

/-- A state whose command has a peak of at most so many nodes. -/
def State.PeaksBelow (bound : Nat) (state : State) : Prop :=
  ∃ c, state.phrase = .command c ∧ c.peak ≤ bound

/-- A step leads to a state with no higher peak. -/
theorem State.PeaksBelow.of_reduce {bound : Nat} {state next : State}
    (h : state.PeaksBelow bound) (hstep : state.reduce = .ok next) : next.PeaksBelow bound := by
  obtain ⟨phrase, env⟩ := state
  obtain ⟨c, rfl, hpeak⟩ := h
  obtain ⟨reduced, after, hrule, rfl⟩ := State.exists_stepsTo hstep
  exact ⟨reduced, rfl, Nat.le_trans hrule.peak_le hpeak⟩

/-- What a state holds is no larger than the peak of its command. -/
theorem State.PeaksBelow.nodes_le {bound : Nat} {state : State} (h : state.PeaksBelow bound) :
    state.phrase.nodes ≤ bound := by
  obtain ⟨c, hphrase, hpeak⟩ := h
  rw [hphrase]
  exact Nat.le_trans c.nodes_le_peak hpeak

/-- Unrolled loops do not accumulate. Under any limit, or none, and after any number of steps, what
a command has come to has at most the square of the nodes that the command has. -/
theorem Command.nodes_of_reached_le (c : Command) (env : Environment) (limit : Option Nat)
    (count : Nat) :
    ((Machine.new ⟨.command c, env⟩ limit).advance count).machine.state.phrase.nodes ≤
      c.nodes * c.nodes := by
  have hstart : (Machine.new ⟨.command c, env⟩ limit).state.PeaksBelow c.peak := by
    rw [Machine.new_eq]
    exact ⟨c, rfl, Nat.le_refl _⟩
  have hreached := Machine.advance_keeps State.PeaksBelow.of_reduce hstart count
  exact Nat.le_trans hreached.nodes_le c.peak_le

/-- A loop without a body comes close to the bound: it has three nodes, and eight once unrolled. -/
example :
    let c : Command := .loop (.literal (.boolean true)) .skip
    c.nodes = 3 ∧ ((Machine.new ⟨.command c, .empty⟩ none).advance 1).machine.state.phrase.nodes =
      8 := by
  decide

end WhileLanguage
