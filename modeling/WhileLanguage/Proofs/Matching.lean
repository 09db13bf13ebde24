import WhileLanguage.BigStep.Evaluation
import WhileLanguage.SmallStep.Machine

/-!
# Computations that match

Two computations match if they end together, for the same gas or after the same number of steps,
with values that are related or with faults that correspond. `Matching` says so of two results,
`Bounded.Matching` of two evaluations, which match as their parts do, and `Halt.Matching` of two
machines that have stopped. Read `State.Lockstep` first: where every step keeps a relation between
states, machines that start in related states match after any number of steps and in their runs,
by `State.Lockstep.advance` and `State.Lockstep.run`.
-/

namespace WhileLanguage

/-- Two results match if they are values that are related, or faults of which the second is the
one that corresponds to the first. -/
inductive Matching (faults : Fault → Fault) {α β : Type} (related : α → β → Prop) :
    Except Fault α → Except Fault β → Prop where
  | ok {a : α} {b : β} : related a b → Matching faults related (.ok a) (.ok b)
  | error (fault : Fault) : Matching faults related (.error fault) (.error (faults fault))

variable {faults : Fault → Fault} {α β γ δ : Type} {related : α → β → Prop}
  {linked : γ → δ → Prop}

/-- Results that match do so after functions that keep the relation of the values there are. -/
theorem Matching.map {x : Except Fault α} {y : Except Fault β} {f : α → γ} {g : β → δ}
    (h : Matching faults related x y)
    (hrelated : ∀ a b, x = .ok a → related a b → linked (f a) (g b)) :
    Matching faults linked (x.map f) (y.map g) := by
  cases h with
  | ok h => exact .ok (hrelated _ _ rfl h)
  | error fault => exact .error fault

/-- What matches a value is a value that is related to it. -/
theorem Matching.exists_ok {a : α} {y : Except Fault β} (h : Matching faults related (.ok a) y) :
    ∃ b, y = .ok b ∧ related a b := by
  cases h with
  | ok h => exact ⟨_, rfl, h⟩

/-- Results that a function makes the same match by its values. -/
theorem Matching.of_map_eq {f : α → γ} {g : β → γ} {x : Except Fault α} {y : Except Fault β}
    (h : x.map f = y.map g) : Matching id (fun a b => f a = g b) x y := by
  cases x with
  | ok a =>
      cases y with
      | ok b => exact .ok (Except.ok.inj h)
      | error fault => cases h
  | error fault =>
      cases y with
      | ok b => cases h
      | error other =>
          obtain rfl := Except.error.inj h
          exact .error fault

/-- What matches by equality is the same result, up to faults. -/
theorem Matching.eq_mapError {x y : Except Fault α} (h : Matching faults Eq x y) :
    y = x.mapError faults := by
  cases h with
  | ok h => exact congrArg Except.ok h.symm
  | error fault => rfl

/-- What matches by a function is what the function makes of a result, up to faults. -/
theorem Matching.eq_map {f : α → β} {x : Except Fault α} {y : Except Fault β}
    (h : Matching faults (fun a b => b = f a) x y) : y = (x.map f).mapError faults := by
  cases h with
  | ok h => exact congrArg Except.ok h
  | error fault => rfl

/-- Outcomes that are related still are if less is asked of them. -/
theorem rel_imp {weaker : α → β → Prop} {x : Option α} {y : Option β} (h : Option.Rel related x y)
    (himp : ∀ a b, related a b → weaker a b) : Option.Rel weaker x y := by
  cases h with
  | none => exact .none
  | some h => exact .some (himp _ _ h)

/-- Where one of two outcomes that are related is there, the other one is. -/
theorem exists_some_of_rel {x : Option α} {y : Option β} (h : Option.Rel related x y) {a : α}
    (hx : x = some a) : ∃ b, y = some b ∧ related a b := by
  subst hx
  cases h with
  | some h => exact ⟨_, rfl, h⟩

/-- Outcomes that are related by a function are there together, and the second is a value of it. -/
theorem eq_map_of_rel {f : α → β} {x : Option α} {y : Option β}
    (h : Option.Rel (fun a b => b = f a) x y) : y = x.map f := by
  cases h with
  | none => rfl
  | some h => exact congrArg some h

/-! ## Evaluations -/

namespace Bounded

/-- Two evaluations match if from any gas that was used before both are cut short, or both have
results that match, for the same gas. -/
def Matching (faults : Fault → Fault) (related : α → β → Prop) (x : Bounded α) (y : Bounded β) :
    Prop :=
  ∀ used, Option.Rel (fun first second =>
    WhileLanguage.Matching faults related first.1 second.1 ∧ first.2 = second.2) (x used) (y used)

namespace Matching

/-- Results that match do so where they cost nothing. -/
protected theorem free {x : Bounded α} {y : Bounded β} {first : Except Fault α}
    {second : Except Fault β} (h : WhileLanguage.Matching faults related first second)
    (hx : ∀ used, x used = some (first, used)) (hy : ∀ used, y used = some (second, used)) :
    Matching faults related x y := by
  intro used
  rw [hx, hy]
  exact .some ⟨h, rfl⟩

/-- A unit of gas is taken or refused on both sides. -/
protected theorem charge (hfaults : ∀ limit, faults (.exhausted limit) = .exhausted limit)
    (limit : Option Nat) :
    Matching faults Eq (liftM (charge limit)) (liftM (charge limit)) := by
  intro used
  rw [lift_apply]
  cases limit with
  | none => exact .some ⟨.ok rfl, rfl⟩
  | some limit =>
      rw [charge_some]
      refine .some ⟨?_, rfl⟩
      split
      · have herror : WhileLanguage.Matching faults (Eq : Unit → Unit → Prop) _ _ :=
          .error (.exhausted limit)
        rwa [hfaults] at herror
      · exact .ok rfl

/-- Evaluations that are continued match as their parts do. -/
protected theorem bind {x : Bounded α} {y : Bounded β} {f : α → Bounded γ} {g : β → Bounded δ}
    (h : Matching faults related x y)
    (hrest : ∀ a b, related a b → Matching faults linked (f a) (g b)) :
    Matching faults linked (x >>= f) (y >>= g) := by
  intro used
  rw [bind_apply, bind_apply]
  have hparts := h used
  generalize x used = first at hparts ⊢
  generalize y used = second at hparts ⊢
  cases hparts with
  | none => exact .none
  | @some a b hmatch =>
      obtain ⟨result, after⟩ := a
      obtain ⟨other, spent⟩ := b
      obtain ⟨hresult, hspent⟩ := hmatch
      dsimp only at hresult hspent
      subst hspent
      cases hresult with
      | ok hrelated => exact hrest _ _ hrelated after
      | error fault => exact .some ⟨.error fault, rfl⟩

/-- Repetitions match as their tests and their bodies do. -/
protected theorem iterate {test : α → Charged Bool} {other : β → Charged Bool}
    {body : α → Bounded α} {round : β → Bounded β}
    (htest : ∀ a b, related a b → Matching faults Eq (liftM (test a)) (liftM (other b)))
    (hbody : ∀ a b, related a b → Matching faults related (body a) (round b)) (bound : Nat)
    {a : α} {b : β} (h : related a b) :
    Matching faults related (iterate test body bound a) (iterate other round bound b) := by
  induction bound generalizing a b with
  | zero => exact fun _ => .none
  | succ bound ih =>
      refine Matching.bind (htest a b h) fun holds same hholds => ?_
      subst hholds
      cases holds with
      | false => exact .free (.ok h) (fun _ => rfl) fun _ => rfl
      | true => exact .bind (hbody a b h) fun _ _ => ih

/-- Evaluations that match give results that match to one account, and leave one account. -/
theorem onAccount {x : Bounded α} {y : Bounded β} (h : Matching faults related x y)
    (evaluator : Evaluator) :
    Option.Rel
      (fun first second =>
        WhileLanguage.Matching faults related first.1 second.1 ∧ first.2 = second.2)
      ((x evaluator.used).map fun (result, used) =>
        (result, Evaluator.mk used evaluator.limit))
      ((y evaluator.used).map fun (result, used) =>
        (result, Evaluator.mk used evaluator.limit)) := by
  have hused := h evaluator.used
  generalize x evaluator.used = first at hused ⊢
  generalize y evaluator.used = second at hused ⊢
  cases hused with
  | none => exact .none
  | some hmatch =>
      obtain ⟨hresult, hafter⟩ := hmatch
      exact .some ⟨hresult, congrArg (Evaluator.mk · evaluator.limit) hafter⟩

end Matching

end Bounded

/-! ## Runs -/

/-- Two machines match if they are in related states and have made as many steps under the same
limit. -/
structure Machine.Matching (related : State → State → Prop) (left right : Machine) : Prop where
  state : related left.state right.state
  steps : left.steps = right.steps
  limit : left.limit = right.limit

/-- Two machines that have stopped match if they did before, and what stopped them corresponds. -/
structure Halt.Matching (faults : Fault → Fault) (related : State → State → Prop)
    (left right : Halt) : Prop where
  machine : left.machine.Matching related right.machine
  fault? : right.fault? = left.fault?.map faults

/-- Machines that match still do if less is asked of their states. -/
theorem Halt.Matching.imp {related linked : State → State → Prop} {left right : Halt}
    (h : left.Matching faults related right) (himp : ∀ a b, related a b → linked a b) :
    left.Matching faults linked right :=
  ⟨⟨himp _ _ h.machine.state, h.machine.steps, h.machine.limit⟩, h.fault?⟩

/-- A relation that steps keep: related states are normal forms together, and their steps lead to
related states or fail with faults that correspond. -/
structure State.Lockstep (faults : Fault → Fault) (related : State → State → Prop) : Prop where
  exhausted : ∀ limit, faults (.exhausted limit) = .exhausted limit
  isReducible : ∀ {left right}, related left right → left.isReducible = right.isReducible
  reduce : ∀ {left right}, related left right → Matching faults related left.reduce right.reduce

namespace State.Lockstep

variable {related : State → State → Prop} {left right : Machine}

/-- Machines that match are done together. -/
theorem isNormal_eq (h : Lockstep faults related) (hmatch : left.Matching related right) :
    left.isNormal = right.isNormal := by
  unfold Machine.isNormal
  rw [h.isReducible hmatch.state]

/-- Machines that match do so after a step, which both make or both fail. -/
theorem step (h : Lockstep faults related) (hmatch : left.Matching related right) :
    left.step.Matching faults related right.step := by
  unfold Machine.step Machine.exhaustion?
  rw [← hmatch.limit, ← hmatch.steps]
  have hreduce := h.reduce hmatch.state
  generalize left.state.reduce = first at hreduce ⊢
  generalize right.state.reduce = second at hreduce ⊢
  cases left.limit with
  | none =>
      cases hreduce with
      | ok hnext => exact ⟨⟨hnext, rfl, rfl⟩, rfl⟩
      | error fault => exact ⟨hmatch, rfl⟩
  | some limit =>
      by_cases hpast : limit ≤ left.steps
      · simp only [if_pos hpast]
        exact ⟨hmatch, congrArg some (h.exhausted limit).symm⟩
      · simp only [if_neg hpast]
        cases hreduce with
        | ok hnext => exact ⟨⟨hnext, rfl, rfl⟩, rfl⟩
        | error fault => exact ⟨hmatch, rfl⟩

/-- Machines that match do so after any number of steps. -/
theorem advance (h : Lockstep faults related) (hmatch : left.Matching related right)
    (count : Nat) : (left.advance count).Matching faults related (right.advance count) := by
  induction count generalizing left right with
  | zero => exact ⟨hmatch, rfl⟩
  | succ count ih =>
      unfold Machine.advance
      have hstep := h.step hmatch
      generalize left.step = first at hstep ⊢
      generalize right.step = second at hstep ⊢
      obtain ⟨next, fault?⟩ := first
      obtain ⟨other, other?⟩ := second
      obtain ⟨hmachine, hfault⟩ := hstep
      obtain rfl : other? = fault?.map faults := hfault
      cases fault? with
      | none => exact ih hmachine
      | some fault => exact ⟨hmachine, rfl⟩

/-- Of machines that match both runs return, and match then, or none does. -/
theorem run (h : Lockstep faults related) (hmatch : left.Matching related right) (bound : Nat) :
    Option.Rel (Halt.Matching faults related) (left.run bound) (right.run bound) := by
  induction bound generalizing left right with
  | zero => exact .none
  | succ bound ih =>
      unfold Machine.run
      rw [← h.isNormal_eq hmatch]
      split
      · exact .some ⟨hmatch, rfl⟩
      · have hstep := h.step hmatch
        generalize left.step = first at hstep ⊢
        generalize right.step = second at hstep ⊢
        obtain ⟨next, fault?⟩ := first
        obtain ⟨other, other?⟩ := second
        obtain ⟨hmachine, hfault⟩ := hstep
        obtain rfl : other? = fault?.map faults := hfault
        cases fault? with
        | none => exact ih hmachine
        | some fault => exact .some ⟨hmachine, rfl⟩

end State.Lockstep

end WhileLanguage
