import WhileLanguage.Proofs.BigStep.Expressions

/-!
# Derivations of what a command comes to

`Command.ComesTo` derives the result of a command and the gas that it uses, rule by rule and
without a bound on rounds. `Command.comesTo_iff` says that the derivations are the evaluations
without a limit; statements about evaluations are proved by induction on a derivation. A
greater bound never changes an outcome, by `Command.evaluate_mono`.
-/

namespace WhileLanguage

namespace Bounded

variable {α β : Type}

/-- Wherever the first computation has an outcome, the second has the same one. -/
def Extends (x y : Bounded α) : Prop :=
  ∀ used outcome, x used = some outcome → y used = some outcome

/-- Computations that are continued alike extend as their parts do. -/
theorem Extends.bind {x y : Bounded α} {f g : α → Bounded β} (h : Extends x y)
    (hrest : ∀ a, Extends (f a) (g a)) : Extends (x >>= f) (y >>= g) := by
  intro used outcome hrun
  rw [bind_apply] at hrun ⊢
  cases hx : x used with
  | none => simp [hx] at hrun
  | some first =>
      obtain ⟨result, after⟩ := first
      rw [hx] at hrun
      rw [h used _ hx]
      cases result with
      | error fault => exact hrun
      | ok a => exact hrest a after outcome hrun

/-- A repetition extends with its body and with the number of tests that it may make. -/
theorem Extends.iterate {test : α → Charged Bool} {body other : α → Bounded α}
    (hbody : ∀ a, Extends (body a) (other a)) {bound greater : Nat} (hle : bound ≤ greater)
    (a : α) : Extends (iterate test body bound a) (iterate test other greater a) := by
  induction bound generalizing greater a with
  | zero =>
      intro used outcome hrun
      cases hrun
  | succ bound ih =>
      obtain ⟨greater, rfl⟩ : ∃ rest, greater = rest + 1 := ⟨greater - 1, by omega⟩
      refine Extends.bind (fun _ _ h => h) fun holds => ?_
      cases holds with
      | false => exact fun _ _ h => h
      | true => exact Extends.bind (hbody a) fun middle => ih (Nat.le_of_succ_le_succ hle) middle

/-- A computation that extends with its bound has one outcome only, for all bounds together. -/
theorem Extends.unique {x : Nat → Bounded α} (hx : ∀ {n m}, n ≤ m → Extends (x n) (x m))
    {bound greater used : Nat} {outcome other : Except Fault α × Nat}
    (h : x bound used = some outcome) (hother : x greater used = some other) :
    outcome = other := by
  have hmax := hx (Nat.le_max_left bound greater) used outcome h
  rw [hx (Nat.le_max_right bound greater) used other hother] at hmax
  exact (Option.some.inj hmax).symm

end Bounded

namespace Command

/-- An outcome of an evaluation holds for every greater bound on rounds. -/
theorem evaluate_extends {bound greater : Nat} (hle : bound ≤ greater) (limit : Option Nat)
    (c : Command) (env : Environment) :
    Bounded.Extends (c.evaluate bound limit env) (c.evaluate greater limit env) := by
  induction c generalizing env with
  | skip => exact fun _ _ h => h
  | assign name value => exact fun _ _ h => h
  | branch condition yes no ihyes ihno =>
      refine .bind (fun _ _ h => h) fun _ => .bind (fun _ _ h => h) fun holds => ?_
      cases holds with
      | true => exact ihyes env
      | false => exact ihno env
  | seq first second ihfirst ihsecond =>
      exact .bind (fun _ _ h => h) fun _ => .bind (ihfirst env) ihsecond
  | loop condition body ih =>
      exact .bind (fun _ _ h => h) fun _ => .iterate ih hle env

/-- An outcome of an evaluation holds for every greater bound on rounds. -/
theorem evaluate_mono {bound greater used : Nat} {limit : Option Nat} {c : Command}
    {env : Environment} {outcome : Except Fault Environment × Nat}
    (h : c.evaluate bound limit env used = some outcome) (hle : bound ≤ greater) :
    c.evaluate greater limit env used = some outcome :=
  evaluate_extends hle limit c env used outcome h

/-! ## Evaluation without a limit, one command at a time -/

section Unlimited

variable {bound used : Nat} {env : Environment}

/-- Doing nothing takes one unit of gas. -/
theorem evaluate_skip_none : skip.evaluate bound none env used = some (.ok env, used + 1) := rfl

/-- An assignment binds its name to its expression's value, and fails with the expression. -/
theorem evaluate_assign_none {name : String} {value : Expr} :
    (assign name value).evaluate bound none env used =
      some ((value.denote env).map (env.insert name), used + 1 + value.cost env) := by
  simp only [evaluate, Bounded.bind_apply, Bounded.lift_apply, charge_none, Expr.evaluate_none]
  cases value.denote env <;> rfl

/-- A branch goes on with the command that its condition selects. -/
theorem evaluate_branch_none {condition : Expr} {yes no : Command} :
    (branch condition yes no).evaluate bound none env used =
      match condition.truth env with
      | .ok holds =>
          (if holds then yes else no).evaluate bound none env (used + 1 + condition.cost env)
      | .error fault => some (.error fault, used + 1 + condition.cost env) := by
  simp only [evaluate, Bounded.bind_apply, Bounded.lift_apply, charge_none, Expr.holds_none]
  cases condition.truth env with
  | error fault => rfl
  | ok holds => cases holds <;> rfl

/-- A sequence goes on with its second part where the first one succeeds. -/
theorem evaluate_seq_none {first second : Command} :
    (seq first second).evaluate bound none env used =
      match first.evaluate bound none env (used + 1) with
      | some (.ok middle, after) => second.evaluate bound none middle after
      | some (.error fault, after) => some (.error fault, after)
      | none => none := by
  simp only [evaluate, Bounded.bind_apply, Bounded.lift_apply, charge_none]
  rcases first.evaluate bound none env (used + 1) with _ | ⟨_ | _, _⟩ <;> rfl

/-- The rounds of a loop that is evaluated without a limit. -/
def rounds (condition : Expr) (body : Command) (bound count : Nat) (env : Environment) :
    Bounded Environment :=
  Bounded.iterate (condition.holds none) (body.evaluate bound none) count env

/-- A loop takes a unit of gas where it is entered, and goes on with its rounds. -/
theorem evaluate_loop_none {condition : Expr} {body : Command} :
    (loop condition body).evaluate bound none env used =
      rounds condition body bound bound env (used + 1) := by
  simp only [evaluate, Bounded.bind_apply, Bounded.lift_apply, charge_none, rounds]

/-- A round tests the condition, runs the body if it holds, and goes on with the next one. -/
theorem rounds_succ {condition : Expr} {body : Command} {count : Nat} :
    rounds condition body bound (count + 1) env used =
      match condition.truth env with
      | .ok true =>
          match body.evaluate bound none env (used + condition.cost env) with
          | some (.ok middle, after) => rounds condition body bound count middle after
          | some (.error fault, after) => some (.error fault, after)
          | none => none
      | .ok false => some (.ok env, used + condition.cost env)
      | .error fault => some (.error fault, used + condition.cost env) := by
  simp only [rounds, Bounded.iterate, Bounded.bind_apply, Bounded.lift_apply, Expr.holds_none]
  cases condition.truth env with
  | error fault => rfl
  | ok holds =>
      cases holds with
      | false => rfl
      | true =>
          simp only [if_true, Bounded.bind_apply]
          rcases body.evaluate bound none env (used + condition.cost env) with _ | ⟨_ | _, _⟩ <;>
            rfl

end Unlimited

/-! ## Derivations -/

/-- `ComesTo c env result gas` says that `c` comes to `result` in `env`, for this much gas. -/
inductive ComesTo : Command → Environment → Except Fault Environment → Nat → Prop where
  | skip {env} : ComesTo skip env (.ok env) 1
  | assign {name value env} :
      ComesTo (assign name value) env ((value.denote env).map (env.insert name))
        (1 + value.cost env)
  | branchFault {condition yes no env fault} :
      condition.truth env = .error fault →
      ComesTo (branch condition yes no) env (.error fault) (1 + condition.cost env)
  | branch {condition yes no env holds result gas} :
      condition.truth env = .ok holds →
      ComesTo (if holds then yes else no) env result gas →
      ComesTo (branch condition yes no) env result (1 + condition.cost env + gas)
  | seqFault {first second env fault gas} :
      ComesTo first env (.error fault) gas →
      ComesTo (seq first second) env (.error fault) (1 + gas)
  | seq {first second env middle result gas rest} :
      ComesTo first env (.ok middle) gas →
      ComesTo second middle result rest →
      ComesTo (seq first second) env result (1 + gas + rest)
  | loopFault {condition body env fault} :
      condition.truth env = .error fault →
      ComesTo (loop condition body) env (.error fault) (1 + condition.cost env)
  | loopEnd {condition body env} :
      condition.truth env = .ok false →
      ComesTo (loop condition body) env (.ok env) (1 + condition.cost env)
  | loopBodyFault {condition body env fault gas} :
      condition.truth env = .ok true →
      ComesTo body env (.error fault) gas →
      ComesTo (loop condition body) env (.error fault) (1 + condition.cost env + gas)
  -- The loop is entered once, so the rounds that follow are charged one unit less than it.
  | loopRound {condition body env middle result gas rest} :
      condition.truth env = .ok true →
      ComesTo body env (.ok middle) gas →
      ComesTo (loop condition body) middle result (1 + rest) →
      ComesTo (loop condition body) env result (1 + condition.cost env + gas + rest)

/-- An assignment comes to the fault of its expression. -/
theorem ComesTo.assign_of_error {name : String} {value : Expr} {env : Environment} {fault : Fault}
    (h : value.denote env = .error fault) :
    ComesTo (.assign name value) env (.error fault) (1 + value.cost env) := by
  have hassign : ComesTo (.assign name value) env _ _ := .assign
  rwa [h] at hassign

/-- More rounds than needed make no difference to a loop's. -/
theorem rounds_mono {condition : Expr} {body : Command} {bound greater count more used : Nat}
    {env : Environment} {outcome : Except Fault Environment × Nat}
    (h : rounds condition body bound count env used = some outcome) (hbound : bound ≤ greater)
    (hcount : count ≤ more) : rounds condition body greater more env used = some outcome :=
  Bounded.Extends.iterate (evaluate_extends hbound none body) hcount env used outcome h

/-- What a derivation says is what an evaluation without a limit gives. -/
theorem ComesTo.exists_evaluate {c : Command} {env : Environment}
    {result : Except Fault Environment} {gas : Nat} (h : c.ComesTo env result gas) :
    ∃ bound, ∀ used, c.evaluate bound none env used = some (result, used + gas) := by
  induction h with
  | skip => exact ⟨0, fun used => evaluate_skip_none⟩
  | assign => exact ⟨0, fun used => by rw [evaluate_assign_none, Nat.add_assoc]⟩
  | branchFault htruth =>
      refine ⟨0, fun used => ?_⟩
      simp only [evaluate_branch_none, htruth, Nat.add_assoc]
  | branch htruth _ ih =>
      obtain ⟨bound, ih⟩ := ih
      refine ⟨bound, fun used => ?_⟩
      simp only [evaluate_branch_none, htruth, ih, Nat.add_assoc]
  | seqFault _ ih =>
      obtain ⟨bound, ih⟩ := ih
      refine ⟨bound, fun used => ?_⟩
      simp only [evaluate_seq_none, ih, Nat.add_assoc]
  | seq _ _ ihfirst ihsecond =>
      obtain ⟨first, ihfirst⟩ := ihfirst
      obtain ⟨second, ihsecond⟩ := ihsecond
      -- Each part has a bound of its own, and the greater one serves both.
      refine ⟨max first second, fun used => ?_⟩
      have hfirst := evaluate_mono (ihfirst (used + 1)) (Nat.le_max_left first second)
      simp only [evaluate_seq_none, hfirst]
      rw [evaluate_mono (ihsecond _) (Nat.le_max_right first second)]
      simp only [Nat.add_assoc]
  | loopFault htruth =>
      refine ⟨1, fun used => ?_⟩
      simp only [evaluate_loop_none, rounds_succ, htruth, Nat.add_assoc]
  | loopEnd htruth =>
      refine ⟨1, fun used => ?_⟩
      simp only [evaluate_loop_none, rounds_succ, htruth, Nat.add_assoc]
  | @loopBodyFault condition body env fault gas htruth _ ih =>
      obtain ⟨bound, ih⟩ := ih
      refine ⟨bound + 1, fun used => ?_⟩
      have hbody := evaluate_mono (ih (used + 1 + condition.cost env)) (Nat.le_succ bound)
      simp only [evaluate_loop_none, rounds_succ, htruth, hbody]
      simp only [Nat.add_assoc]
  | @loopRound condition body env middle result gas rest htruth _ _ ihbody ihloop =>
      obtain ⟨first, ihbody⟩ := ihbody
      obtain ⟨second, ihloop⟩ := ihloop
      refine ⟨max first second + 1, fun used => ?_⟩
      have hbody := evaluate_mono (ihbody (used + 1 + condition.cost env))
        (Nat.le_succ_of_le (Nat.le_max_left first second))
      have hloop := ihloop (used + condition.cost env + gas)
      rw [evaluate_loop_none] at hloop
      have hrest := rounds_mono hloop (Nat.le_succ_of_le (Nat.le_max_right first second))
        (Nat.le_max_right first second)
      simp only [evaluate_loop_none, rounds_succ, htruth, hbody]
      rw [show used + 1 + condition.cost env + gas = used + condition.cost env + gas + 1 by omega,
        hrest]
      simp only [Option.some.injEq, Prod.mk.injEq, true_and]
      omega

/-- The rounds of a loop have a derivation if the evaluations of its body have. -/
theorem comesTo_of_rounds {condition : Expr} {body : Command} {bound count : Nat}
    (hbody : ∀ {env used result after}, body.evaluate bound none env used = some (result, after) →
      ∃ gas, after = used + gas ∧ body.ComesTo env result gas)
    {env : Environment} {used after : Nat} {result : Except Fault Environment}
    (h : rounds condition body bound count env used = some (result, after)) :
    ∃ gas, after = used + gas ∧ (loop condition body).ComesTo env result (1 + gas) := by
  induction count generalizing env used with
  | zero => cases h
  | succ count ih =>
      rw [rounds_succ] at h
      split at h
      next htruth =>
        split at h
        next middle before hrun =>
          obtain ⟨gas, rfl, hfirst⟩ := hbody hrun
          obtain ⟨rest, rfl, hrest⟩ := ih h
          refine ⟨condition.cost env + gas + rest, by omega, ?_⟩
          simpa only [Nat.add_assoc] using ComesTo.loopRound htruth hfirst hrest
        next fault before hrun =>
          obtain ⟨gas, rfl, hfirst⟩ := hbody hrun
          cases h
          refine ⟨condition.cost env + gas, by omega, ?_⟩
          simpa only [Nat.add_assoc] using ComesTo.loopBodyFault htruth hfirst
        next => cases h
      next htruth =>
        cases h
        exact ⟨condition.cost env, rfl, .loopEnd htruth⟩
      next fault htruth =>
        cases h
        exact ⟨condition.cost env, rfl, .loopFault htruth⟩

/-- What an evaluation without a limit gives has a derivation. -/
theorem comesTo_of_evaluate {bound used after : Nat} {c : Command} {env : Environment}
    {result : Except Fault Environment}
    (h : c.evaluate bound none env used = some (result, after)) :
    ∃ gas, after = used + gas ∧ c.ComesTo env result gas := by
  induction c generalizing env used result after with
  | skip =>
      cases h
      exact ⟨1, rfl, .skip⟩
  | assign name value =>
      rw [evaluate_assign_none] at h
      cases h
      exact ⟨_, Nat.add_assoc _ _ _, .assign⟩
  | branch condition yes no ihyes ihno =>
      rw [evaluate_branch_none] at h
      split at h
      next holds htruth =>
        obtain ⟨gas, rfl, hrest⟩ : ∃ gas, after = used + 1 + condition.cost env + gas ∧
            ComesTo (if holds then yes else no) env result gas := by
          cases holds with
          | true => exact ihyes h
          | false => exact ihno h
        exact ⟨1 + condition.cost env + gas, by omega, .branch htruth hrest⟩
      next fault htruth =>
        cases h
        exact ⟨_, Nat.add_assoc _ _ _, .branchFault htruth⟩
  | seq first second ihfirst ihsecond =>
      rw [evaluate_seq_none] at h
      split at h
      next middle before hrun =>
        obtain ⟨gas, rfl, hfirst⟩ := ihfirst hrun
        obtain ⟨rest, rfl, hsecond⟩ := ihsecond h
        exact ⟨1 + gas + rest, by omega, .seq hfirst hsecond⟩
      next fault before hrun =>
        obtain ⟨gas, rfl, hfirst⟩ := ihfirst hrun
        cases h
        exact ⟨1 + gas, by omega, .seqFault hfirst⟩
      next => cases h
  | loop condition body ih =>
      rw [evaluate_loop_none] at h
      obtain ⟨gas, rfl, hrounds⟩ := comesTo_of_rounds ih h
      exact ⟨1 + gas, by omega, hrounds⟩

/-- Derivations are evaluations without a limit, whatever gas was used before these. -/
theorem comesTo_iff {c : Command} {env : Environment} {result : Except Fault Environment}
    {gas : Nat} (used : Nat) :
    c.ComesTo env result gas ↔
      ∃ bound, c.evaluate bound none env used = some (result, used + gas) := by
  constructor
  · intro h
    obtain ⟨bound, hbound⟩ := h.exists_evaluate
    exact ⟨bound, hbound used⟩
  · rintro ⟨bound, h⟩
    obtain ⟨other, hother, hresult⟩ := comesTo_of_evaluate h
    obtain rfl := Nat.add_left_cancel hother
    exact hresult

/-- A command comes to one result only, for one amount of gas. -/
theorem ComesTo.unique {c : Command} {env : Environment} {result other : Except Fault Environment}
    {gas spent : Nat} (h : c.ComesTo env result gas) (hother : c.ComesTo env other spent) :
    result = other ∧ gas = spent := by
  obtain ⟨bound, h⟩ := (comesTo_iff 0).1 h
  obtain ⟨greater, hother⟩ := (comesTo_iff 0).1 hother
  have heq := Bounded.Extends.unique (fun hle => evaluate_extends hle none c env) h hother
  simpa only [Prod.mk.injEq, Nat.zero_add] using heq

/-! ## Derivations of an environment -/

section Ok

variable {env final : Environment} {gas : Nat}

/-- A branch comes to an environment exactly where its condition selects a command that does. -/
theorem comesTo_branch_ok_iff {condition : Expr} {yes no : Command} :
    (branch condition yes no).ComesTo env (.ok final) gas ↔
      ∃ holds spent, condition.truth env = .ok holds ∧
        ComesTo (if holds then yes else no) env (.ok final) spent ∧
        gas = 1 + condition.cost env + spent := by
  constructor
  · intro h
    cases h with
    | branch htruth h => exact ⟨_, _, htruth, h, rfl⟩
  · intro h
    obtain ⟨holds, spent, htruth, h, rfl⟩ := h
    exact .branch htruth h

/-- A sequence comes to an environment exactly where its parts do, one after the other. -/
theorem comesTo_seq_ok_iff {first second : Command} :
    (seq first second).ComesTo env (.ok final) gas ↔
      ∃ middle spent rest, first.ComesTo env (.ok middle) spent ∧
        second.ComesTo middle (.ok final) rest ∧ gas = 1 + spent + rest := by
  constructor
  · intro h
    cases h with
    | seq hfirst hsecond => exact ⟨_, _, _, hfirst, hsecond, rfl⟩
  · intro h
    obtain ⟨middle, spent, rest, hfirst, hsecond, rfl⟩ := h
    exact .seq hfirst hsecond

/-- Induction over the rounds of a loop that comes to an environment. A statement holds where the
loop is entered if it holds where its condition fails, and before a round whenever it does after. -/
@[elab_as_elim]
theorem ComesTo.loop_induction {condition : Expr} {body : Command}
    {motive : Environment → Nat → Prop}
    (ended : condition.truth final = .ok false → motive final (1 + condition.cost final))
    (round : ∀ {env middle gas rest}, condition.truth env = .ok true →
      body.ComesTo env (.ok middle) gas → motive middle (1 + rest) →
      motive env (1 + condition.cost env + gas + rest))
    (h : (loop condition body).ComesTo env (.ok final) gas) : motive env gas := by
  -- The rounds of a loop are derivations of the same loop, so the induction keeps the loop fixed.
  generalize hc : loop condition body = c at h
  generalize hresult : Except.ok final = result at h
  induction h with
  | skip | assign | branchFault | branch | seqFault | seq => cases hc
  | loopFault | loopBodyFault => cases hresult
  | loopEnd htruth =>
      cases hc
      cases hresult
      exact ended htruth
  | loopRound htruth hround _ _ ih =>
      cases hc
      exact round htruth hround (ih rfl hresult)

/-- A loop comes to an environment as one does whose body comes to all that this one's body does. -/
theorem ComesTo.loop_of_body {condition : Expr} {body other : Command}
    (hbody : ∀ {env final gas}, body.ComesTo env (.ok final) gas →
      other.ComesTo env (.ok final) gas)
    (h : (loop condition body).ComesTo env (.ok final) gas) :
    (loop condition other).ComesTo env (.ok final) gas := by
  refine h.loop_induction (fun htruth => ?ended) (fun htruth hround hrest => ?round)
  case ended => exact .loopEnd htruth
  case round => exact .loopRound htruth (hbody hround) hrest

end Ok

end Command

end WhileLanguage
