import WhileLanguage.Proofs.BigStep.Derivations

/-!
# Evaluation under a limit

A limit on gas only cuts an evaluation short. `Bounded.Metered` relates a computation to the
same one under a limit, and is closed under every way in which evaluations are put together;
read `Command.evaluate_metered`, which says so of whole evaluations. Loops need no bound of
their own under a limit, since every test takes gas: see `Command.total_evaluate`.
-/

namespace WhileLanguage

namespace Bounded

variable {α β : Type}

/-- The outcome of a computation that needs a unit of gas more than the limit. -/
def overdrawn (limit : Nat) : Except Fault α × Nat :=
  (.error (.exhausted limit), limit + 1)

/-- What is left under a limit of an outcome: all of it if its gas is within the limit. -/
def capped (limit : Nat) (outcome : Except Fault α × Nat) : Except Fault α × Nat :=
  if outcome.2 ≤ limit then outcome else overdrawn limit

/-- An outcome within the limit is left as it is. -/
theorem capped_of_le {limit : Nat} {outcome : Except Fault α × Nat} (h : outcome.2 ≤ limit) :
    capped limit outcome = outcome :=
  if_pos h

/-- Of an outcome past the limit nothing is left. -/
theorem capped_of_lt {limit : Nat} {outcome : Except Fault α × Nat} (h : limit < outcome.2) :
    capped limit outcome = overdrawn limit :=
  if_neg (Nat.not_le.2 h)

/-- The second computation is the first one under a limit. A first one that is cut short may
have used any amount of gas by then, so the second one may have come to the limit or not. -/
structure Metered (limit : Nat) (plain metered : Bounded α) : Prop where
  grows : ∀ used outcome, plain used = some outcome → used ≤ outcome.2
  capped : ∀ used outcome, used ≤ limit → plain used = some outcome →
    metered used = some (capped limit outcome)
  cut : ∀ used outcome, used ≤ limit → plain used = none → metered used = some outcome →
    outcome = overdrawn limit

namespace Metered

variable {limit : Nat}

/-- What takes no gas is the same under a limit. -/
protected theorem free {x : Bounded α} {result : Except Fault α}
    (h : ∀ used, x used = some (result, used)) : Metered limit x x where
  grows used outcome hrun := by
    obtain rfl := Option.some.inj ((h used).symm.trans hrun)
    exact Nat.le_refl used
  capped used outcome hle hrun := by
    obtain rfl := Option.some.inj ((h used).symm.trans hrun)
    rw [h, capped_of_le hle]
  cut used outcome _ hnone _ := by
    rw [h] at hnone
    cases hnone

/-- A unit of gas is taken alike under a limit that it does not pass. -/
protected theorem charge :
    Metered limit (liftM (charge none)) (liftM (charge (some limit))) where
  grows used outcome hrun := by
    rw [lift_apply, charge_none] at hrun
    cases hrun
    exact Nat.le_succ used
  capped used outcome hle hrun := by
    rw [lift_apply, charge_none] at hrun
    cases hrun
    rw [lift_apply, charge_some]
    rcases Nat.lt_or_eq_of_le hle with hlt | rfl
    · rw [if_neg (Nat.not_le.2 hlt), capped_of_le hlt]
    · rw [if_pos (Nat.le_refl used), capped_of_lt (Nat.lt_succ_self used)]
      rfl
  cut used outcome _ hnone _ := by cases hnone

/-- Computations that are continued are under the limit as their parts are. -/
protected theorem bind {x y : Bounded α} {f g : α → Bounded β} (h : Metered limit x y)
    (hrest : ∀ a, Metered limit (f a) (g a)) : Metered limit (x >>= f) (y >>= g) where
  grows used outcome hrun := by
    rw [bind_apply] at hrun
    split at hrun
    next a after hx => exact Nat.le_trans (h.grows _ _ hx) ((hrest a).grows _ _ hrun)
    next fault after hx =>
      cases hrun
      exact h.grows _ _ hx
    next => cases hrun
  capped used outcome hle hrun := by
    rw [bind_apply] at hrun
    split at hrun
    next a after hx =>
      have hy := h.capped _ _ hle hx
      rcases Nat.lt_or_ge limit after with hpast | hwithin
      · -- What follows only adds gas, so that the whole is past the limit as its first part is.
        have hgrows := (hrest a).grows _ _ hrun
        rw [capped_of_lt hpast] at hy
        rw [bind_apply, hy, capped_of_lt (Nat.lt_of_lt_of_le hpast hgrows)]
        rfl
      · rw [capped_of_le hwithin] at hy
        rw [bind_apply, hy]
        exact (hrest a).capped _ _ hwithin hrun
    next fault after hx =>
      cases hrun
      have hy := h.capped _ _ hle hx
      rcases Nat.lt_or_ge limit after with hpast | hwithin
      · rw [bind_apply, hy, capped_of_lt hpast, capped_of_lt hpast]
        rfl
      · rw [bind_apply, hy, capped_of_le hwithin, capped_of_le hwithin]
    next => cases hrun
  cut used outcome hle hnone hrun := by
    rw [bind_apply] at hnone hrun
    -- Either part may be the one that is cut short; the second is only if the first ends well.
    cases hx : x used with
    | none =>
        split at hrun
        next a after hy => cases h.cut _ _ hle hx hy
        next fault after hy =>
          cases hrun
          cases h.cut _ _ hle hx hy
          rfl
        next => cases hrun
    | some first =>
        have hy := h.capped _ _ hle hx
        rw [hx] at hnone
        obtain ⟨_ | a, after⟩ := first
        · cases hnone
        · rcases Nat.lt_or_ge limit after with hpast | hwithin
          · rw [hy, capped_of_lt hpast] at hrun
            cases hrun
            rfl
          · rw [hy, capped_of_le hwithin] at hrun
            exact (hrest a).cut _ _ hwithin hnone hrun

/-- A repetition is under the limit as its test and its body are. -/
protected theorem iterate {test meteredTest : α → Charged Bool} {body meteredBody : α → Bounded α}
    (htest : ∀ a, Metered limit (liftM (test a)) (liftM (meteredTest a)))
    (hbody : ∀ a, Metered limit (body a) (meteredBody a)) (bound : Nat) (a : α) :
    Metered limit (iterate test body bound a) (iterate meteredTest meteredBody bound a) := by
  induction bound generalizing a with
  | zero =>
      refine ⟨fun used outcome h => ?_, fun used outcome _ h => ?_, fun used outcome _ _ h => ?_⟩
        <;> cases h
  | succ bound ih =>
      refine Metered.bind (htest a) fun holds => ?_
      cases holds with
      | false => exact .free fun _ => rfl
      | true => exact .bind (hbody a) ih

/-- A success under a limit is a success within it that no limit is needed for. -/
theorem of_ok {plain metered : Bounded α} (h : Metered limit plain metered) {used after : Nat}
    {a : α} (hle : used ≤ limit) (hrun : metered used = some (.ok a, after)) :
    plain used = some (.ok a, after) ∧ after ≤ limit := by
  cases hplain : plain used with
  | none => cases h.cut _ _ hle hplain hrun
  | some outcome =>
      have hcapped := hrun.symm.trans (h.capped _ _ hle hplain)
      rcases Nat.lt_or_ge limit outcome.2 with hpast | hwithin
      · rw [capped_of_lt hpast] at hcapped
        cases hcapped
      · rw [capped_of_le hwithin] at hcapped
        obtain rfl := Option.some.inj hcapped
        exact ⟨rfl, hwithin⟩

/-- A fault under a limit is that of the limit, or one that is met without a limit too. -/
theorem of_error {plain metered : Bounded α} (h : Metered limit plain metered)
    {used after : Nat} {fault : Fault} (hle : used ≤ limit)
    (hrun : metered used = some (.error fault, after)) :
    fault = .exhausted limit ∨ plain used = some (.error fault, after) := by
  cases hplain : plain used with
  | none =>
      cases h.cut _ _ hle hplain hrun
      exact .inl rfl
  | some outcome =>
      have hcapped := hrun.symm.trans (h.capped _ _ hle hplain)
      rcases Nat.lt_or_ge limit outcome.2 with hpast | hwithin
      · rw [capped_of_lt hpast] at hcapped
        cases hcapped
        exact .inl rfl
      · rw [capped_of_le hwithin] at hcapped
        exact .inr hcapped.symm

end Metered

/-- A charged computation is continued in the same way where a bounded one is called for. -/
theorem lift_bind {x : Charged α} {f : α → Charged β} :
    (liftM (x >>= f) : Bounded β) = (liftM x : Bounded α) >>= fun a => liftM (f a) := by
  funext used
  rw [lift_apply, bind_apply, lift_apply, Charged.bind_apply]
  rcases x used with ⟨_ | a, after⟩ <;> rfl

end Bounded

namespace Expr

/-- An expression's evaluation is only cut short by a limit. -/
theorem evaluate_metered (limit : Nat) (env : Environment) (e : Expr) :
    Bounded.Metered limit (liftM (e.evaluate none env)) (liftM (e.evaluate (some limit) env)) := by
  induction e with
  | literal v =>
      simp only [evaluate, Bounded.lift_bind]
      exact .bind .charge fun _ => .free fun _ => rfl
  | var name =>
      simp only [evaluate, Bounded.lift_bind]
      exact .bind .charge fun _ => .free fun _ => rfl
  | binary op left right ihleft ihright =>
      simp only [evaluate, Bounded.lift_bind]
      exact .bind .charge fun _ => .bind ihleft fun _ => .bind ihright fun _ =>
        .free fun _ => rfl

/-- A condition's test is only cut short by a limit. -/
theorem holds_metered (limit : Nat) (env : Environment) (condition : Expr) :
    Bounded.Metered limit (liftM (condition.holds none env))
      (liftM (condition.holds (some limit) env)) := by
  simp only [holds, Bounded.lift_bind]
  exact .bind (evaluate_metered limit env condition) fun _ => .free fun _ => rfl

end Expr

namespace Command

/-- A command's evaluation is only cut short by a limit. -/
theorem evaluate_metered (limit bound : Nat) (c : Command) (env : Environment) :
    Bounded.Metered limit (c.evaluate bound none env) (c.evaluate bound (some limit) env) := by
  induction c generalizing env with
  | skip => exact .bind .charge fun _ => .free fun _ => rfl
  | assign name value =>
      exact .bind .charge fun _ => .bind (value.evaluate_metered limit env) fun _ =>
        .free fun _ => rfl
  | branch condition yes no ihyes ihno =>
      refine .bind .charge fun _ => .bind (condition.holds_metered limit env) fun holds => ?_
      cases holds with
      | true => exact ihyes env
      | false => exact ihno env
  | seq first second ihfirst ihsecond =>
      exact .bind .charge fun _ => .bind (ihfirst env) ihsecond
  | loop condition body ih =>
      exact .bind .charge fun _ => .iterate (fun env => condition.holds_metered limit env) ih
        bound env

end Command

/-! ## Evaluation under a limit always has an outcome -/

namespace Bounded

variable {α β : Type}

/-- The computation has an outcome, whatever gas was used before it. -/
def Total (x : Bounded α) : Prop :=
  ∀ used, (x used).isSome = true

/-- A charged computation has an outcome. -/
theorem total_lift (x : Charged α) : Total (liftM x) := fun _ => rfl

/-- A computation has an outcome if its parts have. -/
theorem Total.bind {x : Bounded α} {f : α → Bounded β} (h : Total x)
    (hrest : ∀ a, Total (f a)) : Total (x >>= f) := by
  intro used
  rw [bind_apply]
  split
  next a after _ => exact hrest a after
  next => rfl
  next hnone =>
    have hsome := h used
    rw [hnone] at hsome
    cases hsome

end Bounded

/-- An expression is refused its first unit of gas if the limit has been used up. -/
theorem Expr.evaluate_of_limit_le {limit used : Nat} (h : limit ≤ used) (e : Expr)
    (env : Environment) :
    e.evaluate (some limit) env used = (.error (.exhausted limit), used + 1) := by
  cases e <;> simp only [evaluate, Charged.bind_apply, charge_some, if_pos h]

namespace Command

/-- A command is refused its first unit of gas if the limit has been used up. -/
theorem evaluate_of_limit_le {limit bound used : Nat} (h : limit ≤ used) (c : Command)
    (env : Environment) :
    c.evaluate bound (some limit) env used = some (.error (.exhausted limit), used + 1) := by
  cases c <;>
    simp only [evaluate, Bounded.bind_apply, Bounded.lift_apply, charge_some, if_pos h]

variable {limit bound count : Nat} {condition : Expr} {body : Command}

/-- Rounds that start within a limit come to an end, since each of them takes gas. -/
theorem isSome_iterate_of_le
    (hbody : ∀ env, Bounded.Total (body.evaluate bound (some limit) env))
    {env : Environment} {used : Nat} (hused : used ≤ limit) (hcount : limit < used + count) :
    (Bounded.iterate (condition.holds (some limit)) (body.evaluate bound (some limit))
      count env used).isSome = true := by
  induction count generalizing env used with
  | zero => omega
  | succ count ih =>
      rw [Bounded.iterate, Bounded.bind_apply]
      split
      next holds after htest =>
        obtain ⟨hplain, hafter⟩ := (condition.holds_metered limit env).of_ok hused htest
        rw [Bounded.lift_apply, Expr.holds_none, Option.some.injEq, Prod.mk.injEq] at hplain
        obtain ⟨-, rfl⟩ := hplain
        cases holds with
        | false => rfl
        | true =>
            have hmetered := evaluate_metered limit bound body env
            rw [if_pos rfl, Bounded.bind_apply]
            split
            next middle after hrun =>
              -- The test and the body have used gas, so that one round less is enough.
              obtain ⟨hbefore, hwithin⟩ := hmetered.of_ok hafter hrun
              have hgrows := hmetered.grows _ _ hbefore
              have hcost := condition.cost_pos env
              exact ih hwithin (by omega)
            next => rfl
            next hnone =>
              have hsome := hbody env (used + condition.cost env)
              rw [hnone] at hsome
              cases hsome
      next => rfl
      next hnone => cases hnone

/-- Rounds come to an end under a limit below the number of tests that they may make. -/
theorem total_iterate (hbody : ∀ env, Bounded.Total (body.evaluate bound (some limit) env))
    (hcount : limit < count) (env : Environment) :
    Bounded.Total (Bounded.iterate (condition.holds (some limit))
      (body.evaluate bound (some limit)) count env) := by
  intro used
  -- Past the limit the first test is refused, so that one round is enough.
  rcases Nat.lt_or_ge limit used with hlt | hle
  · obtain ⟨more, rfl⟩ : ∃ more, count = more + 1 := ⟨count - 1, by omega⟩
    have hrefused := condition.evaluate_of_limit_le (Nat.le_of_lt hlt) env
    simp only [Bounded.iterate, Bounded.bind_apply, Bounded.lift_apply, Expr.holds,
      Charged.bind_apply, hrefused, Option.isSome_some]
  · exact isSome_iterate_of_le hbody hle (Nat.lt_of_lt_of_le hcount (Nat.le_add_left count used))

/-- Under a limit an evaluation has an outcome, for any bound on rounds above the limit. -/
theorem total_evaluate (hbound : limit < bound) (c : Command) (env : Environment) :
    Bounded.Total (c.evaluate bound (some limit) env) := by
  induction c generalizing env with
  | skip => exact .bind (Bounded.total_lift _) fun _ _ => rfl
  | assign name value =>
      exact .bind (Bounded.total_lift _) fun _ => .bind (Bounded.total_lift _) fun _ _ => rfl
  | branch condition yes no ihyes ihno =>
      refine .bind (Bounded.total_lift _) fun _ => .bind (Bounded.total_lift _) fun holds => ?_
      cases holds with
      | true => exact ihyes env
      | false => exact ihno env
  | seq first second ihfirst ihsecond =>
      exact .bind (Bounded.total_lift _) fun _ => .bind (ihfirst env) ihsecond
  | loop condition body ih =>
      exact .bind (Bounded.total_lift _) fun _ => total_iterate ih hbound env

end Command

end WhileLanguage
