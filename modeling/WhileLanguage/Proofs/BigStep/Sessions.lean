import Mathlib.Data.ENat.Basic
import WhileLanguage.Proofs.BigStep.Metering

/-!
# Sessions of an evaluator

An evaluator is called many times, and the gas of its calls adds up. A limit changes nothing
about the answers to the calls whose costs together are within it, and every call from the
first that passes it on is refused: read `Evaluator.serves_withLimit`. The cost of a call is
what it uses without a limit, which is infinite for a call that is never answered.
-/

namespace WhileLanguage

/-- A call of an evaluator: a phrase to evaluate, and the environment to do it in. -/
structure Call where
  phrase : Phrase
  env : Environment

/-- What a call comes to, and the gas that the evaluator has used by then. -/
abbrev Answer : Type :=
  Except Fault Outcome × Nat

namespace Evaluator

/-- The answers to calls made one after another, if none of their loops makes `bound` rounds. -/
def session (bound : Nat) : Evaluator → List Call → Option (List Answer)
  | _, [] => some []
  | evaluator, call :: calls => do
      let (result, after) ← evaluator.phrase bound call.env call.phrase
      let answers ← session bound after calls
      return (result, after.used) :: answers

/-- The evaluator answers a call with a result, and is another evaluator after it. -/
def Answers (evaluator : Evaluator) (call : Call) (result : Except Fault Outcome)
    (after : Evaluator) : Prop :=
  ∃ bound, evaluator.phrase bound call.env call.phrase = some (result, after)

/-- The evaluator gives these answers to these calls. -/
def Serves (evaluator : Evaluator) (calls : List Call) (answers : List Answer) : Prop :=
  ∃ bound, session bound evaluator calls = some answers

end Evaluator

/-- A function that is applied to the value of a computation changes the value alone. -/
theorem Bounded.bind_pure_apply {α β : Type} {x : Bounded α} {f : α → β} {used : Nat} :
    (x >>= fun a => pure (f a)) used =
      (x used).map fun (result, after) => (result.map f, after) := by
  rw [bind_apply]
  rcases x used with _ | ⟨_ | _, _⟩ <;> rfl

namespace Call

open Classical in
/-- The gas that a new evaluator without a limit uses for a call, infinite if it never answers. -/
noncomputable def cost (call : Call) : ℕ∞ :=
  if h : ∃ gas result, Evaluator.Answers {} call result ⟨gas, none⟩ then (h.choose : ℕ∞) else ⊤

/-- The gas that calls use together without a limit. -/
noncomputable def spent (calls : List Call) : ℕ∞ :=
  (calls.map cost).sum

/-! ## One call -/

/-- The evaluation that a call asks for. -/
def evaluate (bound : Nat) (limit : Option Nat) : Call → Bounded Outcome
  | ⟨.expr e, env⟩ => do return .value (← e.evaluate limit env)
  | ⟨.command c, env⟩ => do return .env (← c.evaluate bound limit env)

/-- Without a limit a call comes to a result for an amount of gas. -/
def ComesTo (call : Call) (result : Except Fault Outcome) (gas : Nat) : Prop :=
  ∃ bound, ∀ used, call.evaluate bound none used = some (result, used + gas)

variable {call : Call} {result : Except Fault Outcome} {bound limit used gas : Nat}

/-- An outcome of a call holds for every greater bound on rounds. -/
theorem evaluate_extends {greater : Nat} (hle : bound ≤ greater) (limit : Option Nat)
    (call : Call) : Bounded.Extends (call.evaluate bound limit) (call.evaluate greater limit) := by
  rcases call with ⟨e | c, env⟩
  · exact fun _ _ h => h
  · exact .bind (c.evaluate_extends hle limit env) fun _ _ _ h => h

/-- A call is only cut short by a limit. -/
theorem evaluate_metered (limit bound : Nat) (call : Call) :
    Bounded.Metered limit (call.evaluate bound none) (call.evaluate bound (some limit)) := by
  rcases call with ⟨e | c, env⟩
  · exact .bind (e.evaluate_metered limit env) fun _ => .free fun _ => rfl
  · exact .bind (c.evaluate_metered limit bound env) fun _ => .free fun _ => rfl

/-- Under a limit a call has an outcome, for any bound on rounds above the limit. -/
theorem total_evaluate (hbound : limit < bound) (call : Call) :
    Bounded.Total (call.evaluate bound (some limit)) := by
  rcases call with ⟨e | c, env⟩
  · exact .bind (Bounded.total_lift _) fun _ _ => rfl
  · exact .bind (c.total_evaluate hbound env) fun _ _ => rfl

/-- A call is refused its first unit of gas if the limit has been used up. -/
theorem evaluate_of_limit_le (h : limit ≤ used) (call : Call) :
    call.evaluate bound (some limit) used = some (.error (.exhausted limit), used + 1) := by
  rcases call with ⟨e | c, env⟩
  · rw [evaluate, Bounded.bind_apply, Bounded.lift_apply, e.evaluate_of_limit_le h]
  · rw [evaluate, Bounded.bind_apply, c.evaluate_of_limit_le h]

/-- The outcome of a call is the one of its phrase. -/
theorem phrase_eq (evaluator : Evaluator) (call : Call) :
    evaluator.phrase bound call.env call.phrase =
      (call.evaluate bound evaluator.limit evaluator.used).map fun (result, used) =>
        (result, ⟨used, evaluator.limit⟩) := by
  rcases call with ⟨e | c, env⟩
  · rw [evaluate, Bounded.bind_pure_apply, Bounded.lift_apply]
    rfl
  · rw [evaluate, Bounded.bind_pure_apply, Evaluator.phrase, Evaluator.command]
    simp only [Option.map_map, Function.comp_def]

/-- What a call comes to does not depend on the gas that was used before it. -/
theorem exists_comesTo {after : Nat}
    (h : call.evaluate bound none used = some (result, after)) :
    ∃ gas, after = used + gas ∧ call.ComesTo result gas := by
  rcases call with ⟨e | c, env⟩
  · rw [evaluate, Bounded.bind_pure_apply, Bounded.lift_apply, Expr.evaluate_none] at h
    cases h
    refine ⟨e.cost env, rfl, bound, fun used => ?_⟩
    rw [evaluate, Bounded.bind_pure_apply, Bounded.lift_apply, Expr.evaluate_none]
    rfl
  · rw [evaluate, Bounded.bind_pure_apply] at h
    obtain ⟨⟨final, after⟩, hrun, heq⟩ := Option.map_eq_some_iff.1 h
    cases heq
    obtain ⟨gas, rfl, hcomes⟩ := Command.comesTo_of_evaluate hrun
    obtain ⟨greater, hgreater⟩ := hcomes.exists_evaluate
    refine ⟨gas, rfl, greater, fun used => ?_⟩
    rw [evaluate, Bounded.bind_pure_apply, hgreater, Option.map_some]

/-- A call comes to one result only, for one amount of gas. -/
theorem ComesTo.unique {other : Except Fault Outcome} {more : Nat} (h : call.ComesTo result gas)
    (hother : call.ComesTo other more) : result = other ∧ gas = more := by
  obtain ⟨bound, h⟩ := h
  obtain ⟨greater, hother⟩ := hother
  have heq := Bounded.Extends.unique (fun hle => evaluate_extends hle none call) (h 0) (hother 0)
  simpa only [Prod.mk.injEq, Nat.zero_add] using heq

/-- An evaluator answers a call with an outcome of its evaluation. -/
theorem answers_iff {limit : Option Nat} {after : Nat} :
    Evaluator.Answers ⟨used, limit⟩ call result ⟨after, limit⟩ ↔
      ∃ bound, call.evaluate bound limit used = some (result, after) := by
  simp only [Evaluator.Answers, phrase_eq, Option.map_eq_some_iff, Prod.exists, Prod.mk.injEq,
    Evaluator.mk.injEq, and_true]
  constructor
  · rintro ⟨bound, _, _, h, rfl, rfl⟩
    exact ⟨bound, h⟩
  · rintro ⟨bound, h⟩
    exact ⟨bound, _, _, h, rfl, rfl⟩

/-- An evaluator without a limit answers with what the call comes to, at the call's own cost. -/
theorem ComesTo.answers (h : call.ComesTo result gas) (used : Nat) :
    Evaluator.Answers ⟨used, none⟩ call result ⟨used + gas, none⟩ := by
  obtain ⟨bound, h⟩ := h
  exact answers_iff.2 ⟨bound, h used⟩

/-- The cost of a call is the gas for which it comes to its result. -/
theorem ComesTo.cost_eq (h : call.ComesTo result gas) : call.cost = gas := by
  have hanswers : ∃ gas result, Evaluator.Answers {} call result ⟨gas, none⟩ :=
    ⟨gas, result, by simpa only [Nat.zero_add] using h.answers 0⟩
  -- Whichever amount is chosen, the call comes to its result for no other one.
  obtain ⟨other, hchosen⟩ := hanswers.choose_spec
  obtain ⟨bound, hrun⟩ := answers_iff.1 hchosen
  obtain ⟨more, hmore, hcomes⟩ := exists_comesTo hrun
  rw [cost, dif_pos hanswers, hmore, Nat.zero_add, (hcomes.unique h).2]

/-- A call that costs a finite amount of gas comes to a result for it. -/
theorem exists_comesTo_of_cost_le (h : call.cost ≤ limit) :
    ∃ result gas, call.ComesTo result gas ∧ call.cost = gas := by
  by_cases hanswers : ∃ gas result, Evaluator.Answers {} call result ⟨gas, none⟩
  · obtain ⟨_, result, hresult⟩ := hanswers
    obtain ⟨bound, hrun⟩ := answers_iff.1 hresult
    obtain ⟨gas, -, hcomes⟩ := exists_comesTo hrun
    exact ⟨result, gas, hcomes, hcomes.cost_eq⟩
  · rw [cost, dif_neg hanswers, top_le_iff] at h
    exact absurd h (ENat.natCast_ne_top limit)

/-- Every call uses gas, since the first unit is refused where none is left. -/
theorem ComesTo.gas_pos (h : call.ComesTo result gas) : 0 < gas := by
  obtain ⟨bound, h⟩ := h
  have hcapped := (evaluate_metered 0 bound call).capped 0 _ (Nat.le_refl 0) (h 0)
  rw [evaluate_of_limit_le (Nat.le_refl 0)] at hcapped
  cases gas with
  | zero => cases hcapped
  | succ gas => exact Nat.succ_pos gas

/-- Every call has a cost. -/
theorem cost_pos (call : Call) : 0 < call.cost := by
  rw [pos_iff_ne_zero]
  intro hzero
  have hle : call.cost ≤ (0 : Nat) := by rw [hzero, Nat.cast_zero]
  obtain ⟨result, gas, hcomes, hcost⟩ := exists_comesTo_of_cost_le hle
  rw [hzero] at hcost
  exact absurd (Nat.cast_eq_zero.1 hcost.symm) (Nat.ne_of_gt hcomes.gas_pos)

/-- An evaluator whose limit covers a call answers it as if it had none. -/
theorem ComesTo.answers_withLimit (h : call.ComesTo result gas) (hle : used + gas ≤ limit) :
    Evaluator.Answers ⟨used, some limit⟩ call result ⟨used + gas, some limit⟩ := by
  obtain ⟨bound, h⟩ := h
  have hcapped := (evaluate_metered limit bound call).capped used _
    (Nat.le_trans (Nat.le_add_right used gas) hle) (h used)
  rw [Bounded.capped_of_le hle] at hcapped
  exact answers_iff.2 ⟨bound, hcapped⟩

/-- An evaluator whose limit does not cover a call refuses the unit that passes the limit. -/
theorem answers_of_lt_cost (hle : used ≤ limit) (hlt : (limit : ℕ∞) < used + call.cost) :
    Evaluator.Answers ⟨used, some limit⟩ call (.error (.exhausted limit))
      ⟨limit + 1, some limit⟩ := by
  have hmetered := evaluate_metered limit (limit + 1) call
  -- This bound is enough under the limit, though perhaps not for the call without one.
  refine answers_iff.2 ⟨limit + 1, ?_⟩
  obtain ⟨outcome, hrun⟩ := Option.isSome_iff_exists.1
    (total_evaluate (Nat.lt_succ_self limit) call used)
  cases hplain : call.evaluate (limit + 1) none used with
  | none =>
      obtain rfl := hmetered.cut _ _ hle hplain hrun
      exact hrun
  | some first =>
      obtain ⟨result, after⟩ := first
      obtain ⟨gas, rfl, hcomes⟩ := exists_comesTo hplain
      rw [hcomes.cost_eq] at hlt
      have hpast : limit < used + gas := by exact_mod_cast hlt
      rw [hmetered.capped _ _ hle hplain, Bounded.capped_of_lt hpast]
      rfl

/-- An evaluator that has used up its limit refuses the first unit of gas of every call. -/
theorem answers_of_limit_le (h : limit ≤ used) (call : Call) :
    Evaluator.Answers ⟨used, some limit⟩ call (.error (.exhausted limit))
      ⟨used + 1, some limit⟩ :=
  answers_iff.2 ⟨0, evaluate_of_limit_le h call⟩

end Call

/-! ## Many calls -/

namespace Evaluator

open Call

variable {evaluator after : Evaluator} {call : Call} {calls : List Call} {answers : List Answer}
  {limit used : Nat}

/-- Answers to calls hold for every greater bound on rounds. -/
theorem session_mono {bound greater : Nat} (h : session bound evaluator calls = some answers)
    (hle : bound ≤ greater) : session greater evaluator calls = some answers := by
  induction calls generalizing evaluator answers with
  | nil => exact h
  | cons call calls ih =>
      simp only [session, phrase_eq, Option.bind_eq_bind, Option.bind_eq_some_iff,
        Option.map_eq_some_iff] at h ⊢
      obtain ⟨_, ⟨outcome, hrun, rfl⟩, rest, hrest, hanswers⟩ := h
      exact ⟨_, ⟨outcome, evaluate_extends hle _ call _ _ hrun, rfl⟩, rest, ih hrest, hanswers⟩

/-- No calls get no answers. -/
theorem serves_nil : Serves evaluator [] [] := ⟨0, rfl⟩

/-- The evaluator that a call leaves answers the calls after it. -/
theorem Answers.serves {result : Except Fault Outcome} (h : evaluator.Answers call result after)
    (hrest : after.Serves calls answers) :
    evaluator.Serves (call :: calls) ((result, after.used) :: answers) := by
  obtain ⟨bound, h⟩ := h
  obtain ⟨greater, hrest⟩ := hrest
  refine ⟨max bound greater, ?_⟩
  rw [phrase_eq] at h
  obtain ⟨outcome, hrun, heq⟩ := Option.map_eq_some_iff.1 h
  have hcall := evaluate_extends (Nat.le_max_left bound greater) evaluator.limit call _ _ hrun
  simp only [session, phrase_eq, hcall, Option.map_some, Option.bind_eq_bind, Option.bind_some,
    heq, session_mono hrest (Nat.le_max_right bound greater)]
  rfl

/-- The answers to calls that are all refused, the first of them when `gas` has been used. -/
def refusals (limit gas count : Nat) : List Answer :=
  (List.range' gas count).map fun gas => (.error (.exhausted limit), gas)

/-- Each refusal takes a unit of gas more than the one before it. -/
theorem refusals_succ (limit gas count : Nat) :
    refusals limit gas (count + 1) =
      (.error (.exhausted limit), gas) :: refusals limit (gas + 1) count := by
  rw [refusals, List.range'_succ, List.map_cons, refusals]

/-- There are as many refusals as calls. -/
theorem length_refusals (limit gas count : Nat) : (refusals limit gas count).length = count := by
  rw [refusals, List.length_map, List.length_range']

/-- A refusal comes when each one before it has taken a unit of gas. -/
theorem getElem?_refusals {gas count i : Nat} (h : i < count) :
    (refusals limit gas count)[i]? = some (.error (.exhausted limit), gas + i) := by
  rw [refusals, List.getElem?_map, List.getElem?_range' h, Option.map_some, Nat.one_mul]

/-- An evaluator that has used up its limit refuses all calls, for one unit of gas each. -/
theorem serves_of_limit_le (h : limit ≤ used) (calls : List Call) :
    Serves ⟨used, some limit⟩ calls (refusals limit (used + 1) calls.length) := by
  induction calls generalizing used with
  | nil => exact serves_nil
  | cons call calls ih =>
      rw [List.length_cons, refusals_succ]
      exact (answers_of_limit_le h call).serves (ih (Nat.le_succ_of_le h))

/-- What a limit does to the answers of an evaluator that has used some gas within it. -/
structure Cuts (limit used : Nat) (calls : List Call) (answers : List Answer) : Prop where
  length_eq : answers.length = calls.length
  plain : ∀ count, used + spent (calls.take count) ≤ limit →
    Serves ⟨used, none⟩ (calls.take count) (answers.take count)
  gas : ∀ i answer, used + spent (calls.take (i + 1)) ≤ limit → answers[i]? = some answer →
    answer.2 = used + spent (calls.take (i + 1))
  refused : ∀ first i, used + spent (calls.take first) ≤ limit →
    limit < used + spent (calls.take (first + 1)) → first ≤ i → i < calls.length →
    answers[i]? = some (.error (.exhausted limit), limit + 1 + (i - first))

/-- The first of some calls costs what it costs alone. -/
theorem spent_take_succ (call : Call) (calls : List Call) (count : Nat) :
    spent ((call :: calls).take (count + 1)) = call.cost + spent (calls.take count) := by
  rw [List.take_succ_cons, spent, List.map_cons, List.sum_cons, spent]

/-- Where no calls are made, a limit does nothing. -/
theorem Cuts.nil : Cuts limit used [] [] where
  length_eq := rfl
  plain count _ := by
    rw [List.take_nil, List.take_nil]
    exact serves_nil
  gas i answer _ h := by cases h
  refused first i _ _ _ h := by cases h

/-- A call within the limit has its own result, and the limit goes on from what it has used. -/
theorem Cuts.cons {result : Except Fault Outcome} {gas : Nat} (hcomes : call.ComesTo result gas)
    (hle : used + gas ≤ limit) (h : Cuts limit (used + gas) calls answers) :
    Cuts limit used (call :: calls) ((result, used + gas) :: answers) := by
  have hspent : ∀ count, (used : ℕ∞) + spent ((call :: calls).take (count + 1)) =
      ((used + gas : Nat) : ℕ∞) + spent (calls.take count) := by
    intro count
    rw [spent_take_succ, hcomes.cost_eq, Nat.cast_add, add_assoc]
  refine ⟨?length_eq, fun count hwithin => ?plain, fun i answer hwithin hanswer => ?gas,
    fun first i hwithin hpast hfirst hi => ?refused⟩
  case length_eq => rw [List.length_cons, List.length_cons, h.length_eq]
  case plain =>
    cases count with
    | zero => exact serves_nil
    | succ count =>
        rw [hspent] at hwithin
        exact (hcomes.answers used).serves (h.plain count hwithin)
  case gas =>
    rw [hspent] at hwithin ⊢
    cases i with
    | zero =>
        cases hanswer
        simp only [List.take_zero, spent, List.map_nil, List.sum_nil, add_zero]
    | succ i => exact h.gas i answer hwithin hanswer
  case refused =>
    rw [hspent] at hpast
    cases first with
    | zero =>
        simp only [List.take_zero, spent, List.map_nil, List.sum_nil, add_zero] at hpast
        exact absurd (Nat.cast_lt.1 hpast) (Nat.not_lt.2 hle)
    | succ first =>
        obtain ⟨i, rfl⟩ : ∃ before, i = before + 1 := ⟨i - 1, by omega⟩
        rw [hspent] at hwithin
        have hrest := h.refused first i hwithin hpast (by omega) (Nat.lt_of_succ_lt_succ hi)
        rw [List.getElem?_cons_succ, hrest, Nat.succ_sub_succ]

/-- Calls from the first one on that passes the limit are refused. -/
theorem Cuts.of_lt_cost (hlt : (limit : ℕ∞) < used + call.cost) (calls : List Call) :
    Cuts limit used (call :: calls) (refusals limit (limit + 1) (calls.length + 1)) := by
  have hpast : ∀ count, (limit : ℕ∞) < used + spent ((call :: calls).take (count + 1)) := by
    intro count
    rw [spent_take_succ, ← add_assoc]
    exact lt_of_lt_of_le hlt le_self_add
  refine ⟨?length_eq, fun count hwithin => ?plain, fun i answer hwithin _ => ?gas,
    fun first i hwithin _ _ hi => ?refused⟩
  case length_eq => rw [length_refusals, List.length_cons]
  case plain =>
    cases count with
    | zero => exact serves_nil
    | succ count => exact absurd (hpast count) (not_lt.2 hwithin)
  case gas => exact absurd (hpast i) (not_lt.2 hwithin)
  case refused =>
    cases first with
    | zero => exact getElem?_refusals hi
    | succ first => exact absurd (hpast first) (not_lt.2 hwithin)

/-- An evaluator within its limit answers all calls, and its limit only cuts the answers. -/
theorem exists_serves_cuts (hle : used ≤ limit) (calls : List Call) :
    ∃ answers, Serves ⟨used, some limit⟩ calls answers ∧ Cuts limit used calls answers := by
  -- The gas that has been used grows from call to call, until a call passes the limit.
  induction calls generalizing used with
  | nil => exact ⟨[], serves_nil, .nil⟩
  | cons call calls ih =>
      rcases lt_or_ge (limit : ℕ∞) (used + call.cost) with hlt | hwithin
      · refine ⟨_, ?_, .of_lt_cost hlt calls⟩
        rw [refusals_succ]
        exact (answers_of_lt_cost hle hlt).serves
          (serves_of_limit_le (Nat.le_succ limit) calls)
      · obtain ⟨result, gas, hcomes, hcost⟩ :=
          exists_comesTo_of_cost_le (le_trans le_add_self hwithin)
        have hgas : used + gas ≤ limit := by
          rw [hcost] at hwithin
          exact_mod_cast hwithin
        obtain ⟨answers, hserves, hcuts⟩ := ih hgas
        exact ⟨_, (hcomes.answers_withLimit hgas).serves hserves, hcuts.cons hcomes hgas⟩

/-- A new evaluator with a limit answers all calls. Within the limit the answers are those of a
new evaluator without one, and the gas used is what the calls cost. The first call that passes
the limit and all after it fail, a unit of gas past the limit and then a unit more each. -/
theorem serves_withLimit (limit : Nat) (calls : List Call) :
    ∃ answers, Serves ⟨0, some limit⟩ calls answers ∧ answers.length = calls.length ∧
      (∀ count, spent (calls.take count) ≤ limit →
        Serves {} (calls.take count) (answers.take count)) ∧
      (∀ i answer, spent (calls.take (i + 1)) ≤ limit → answers[i]? = some answer →
        answer.2 = spent (calls.take (i + 1))) ∧
      ∀ first i, spent (calls.take first) ≤ limit → limit < spent (calls.take (first + 1)) →
        first ≤ i → i < calls.length →
        answers[i]? = some (.error (.exhausted limit), limit + 1 + (i - first)) := by
  obtain ⟨answers, hserves, hcuts⟩ := exists_serves_cuts (Nat.zero_le limit) calls
  obtain ⟨hlength, hplain, hgas, hrefused⟩ := hcuts
  simp only [Nat.cast_zero, zero_add] at hplain hgas hrefused
  exact ⟨answers, hserves, hlength, hplain, hgas, hrefused⟩

/-- Three units of gas cover `1 + true`, whose fault is met on the last of them, but nothing of
the loop without end that is called next, nor of what is called after it. -/
theorem serves_limit_three :
    let sum : Call :=
      ⟨.expr (.binary .add (.literal (.number 1)) (.literal (.boolean true))), .empty⟩
    let loop : Call := ⟨.command (.loop (.literal (.boolean true)) .skip), .empty⟩
    spent [sum] ≤ (3 : Nat) ∧ (3 : Nat) < spent [sum, loop] ∧
      ∃ answers, Serves ⟨0, some 3⟩ [sum, loop, sum] answers ∧
        Serves {} [sum] (answers.take 1) ∧
        (∀ answer, answers[0]? = some answer → answer.2 = spent [sum]) ∧
        answers[1]? = some (.error (.exhausted 3), 4) ∧
        answers[2]? = some (.error (.exhausted 3), 5) := by
  intro sum loop
  have hsum : sum.ComesTo (.error (.operands .add .number .boolean)) 3 := ⟨0, fun _ => rfl⟩
  have hwithin : spent [sum] ≤ (3 : Nat) := by
    rw [spent, List.map_singleton, List.sum_singleton, hsum.cost_eq]
  have hpast : (3 : Nat) < spent [sum, loop] := by
    rw [spent, List.map_cons, List.map_singleton, List.sum_cons, List.sum_singleton, hsum.cost_eq]
    simpa only [add_zero] using
      (ENat.add_lt_add_iff_left (ENat.natCast_ne_top 3)).2 loop.cost_pos
  obtain ⟨answers, hserves, -, hplain, hgas, hrefused⟩ := serves_withLimit 3 [sum, loop, sum]
  exact ⟨hwithin, hpast, answers, hserves, hplain 1 hwithin, fun answer => hgas 0 answer hwithin,
    hrefused 1 1 hwithin hpast (by decide) (by decide),
    hrefused 1 2 hwithin hpast (by decide) (by decide)⟩

end Evaluator

end WhileLanguage
