import WhileLanguage.Proofs.Agreement.Phrases

/-!
# The rule of loops

What every round of a loop keeps holds where the loop ends, and the condition does not hold there:
read `Command.loop_rule`, which says so of evaluations and of runs. The environment of a round is
the one that the round before has left, so the condition is tested in the environment that the loop
ends with, and the same loop does nothing more there.
-/

namespace WhileLanguage.Command

variable {condition : Expr} {body : Command} {env final : Environment}

/-- What a loop's rounds keep holds where it ends, and the condition does not. -/
theorem ComesTo.loop_keeps {kept : Environment → Prop}
    (hround : ∀ {before after gas}, kept before → condition.truth before = .ok true →
      body.ComesTo before (.ok after) gas → kept after)
    {gas : Nat} (h : (loop condition body).ComesTo env (.ok final) gas) (hstart : kept env) :
    kept final ∧ condition.truth final = .ok false := by
  revert hstart
  refine h.loop_induction (fun htruth hstart => ?ended) (fun htruth hbody hrest hstart => ?round)
  case ended => exact ⟨hstart, htruth⟩
  case round => exact hrest (hround hstart htruth hbody)

/-- A loop is over in an environment if its condition does not hold there, and neither an evaluation
nor a run of the loop that starts there does anything but leave the environment as it is. -/
structure LoopOver (condition : Expr) (body : Command) (env : Environment) : Prop where
  tested : (({} : Evaluator).expr condition env).1 = .ok (.boolean false)
  evaluated : ∀ result, (loop condition body).Returns env result ↔ result = .ok env
  run : ∀ result, (loop condition body).RunReturns env result ↔ result = .ok ⟨.command skip, env⟩

/-- A loop is over where its condition does not hold. -/
theorem loopOver_of_truth (htruth : condition.truth env = .ok false) :
    LoopOver condition body env := by
  have hreturns : ∀ result, (loop condition body).Returns env result ↔ result = .ok env := by
    have hloop : (loop condition body).Returns env (.ok env) :=
      returns_iff.2 ⟨_, .loopEnd htruth⟩
    intro result
    exact ⟨fun h => h.unique hloop, fun h => h ▸ hloop⟩
  refine ⟨?tested, hreturns, fun result => ?run⟩
  case tested => rw [Expr.evaluator_expr, Expr.truth_eq_ok_iff.1 htruth]
  case run =>
    refine Phrase.runReturns_command_iff.trans ?_
    simp only [hreturns, exists_eq_left]
    rfl

/-- A loop keeps what its rounds keep. Suppose that something holds of the environment in which a
loop starts, and of what its body returns in every environment where it holds and the condition
does. Then it holds of the environment that an evaluation of the loop returns, and of the one that
a run of the loop ends in, and the loop is over there. -/
theorem loop_rule {kept : Environment → Prop} (hstart : kept env)
    (hround : ∀ before after, kept before →
      (({} : Evaluator).expr condition before).1 = .ok (.boolean true) →
      body.Returns before (.ok after) → kept after) :
    (∀ final, (loop condition body).Returns env (.ok final) →
      kept final ∧ LoopOver condition body final) ∧
    ∀ last, (loop condition body).RunReturns env (.ok last) →
      last.phrase = .command skip ∧ kept last.env ∧ LoopOver condition body last.env := by
  have hreturns : ∀ final, (loop condition body).Returns env (.ok final) →
      kept final ∧ LoopOver condition body final := by
    intro final h
    obtain ⟨gas, hcomes⟩ := returns_iff.1 h
    have hrounds {before after : Environment} {spent : Nat} (hbefore : kept before)
        (htruth : condition.truth before = .ok true)
        (hbody : body.ComesTo before (.ok after) spent) : kept after := by
      refine hround before after hbefore ?_ (returns_iff.2 ⟨spent, hbody⟩)
      rw [Expr.evaluator_expr, Expr.truth_eq_ok_iff.1 htruth]
    obtain ⟨hkept, htruth⟩ := hcomes.loop_keeps hrounds hstart
    exact ⟨hkept, loopOver_of_truth htruth⟩
  refine ⟨hreturns, fun last h => ?run⟩
  case run =>
    obtain ⟨result, hresult, hlast⟩ := Phrase.runReturns_command_iff.1 h
    cases result with
    | error fault => cases hlast
    | ok final =>
        obtain rfl := Except.ok.inj hlast
        exact ⟨rfl, hreturns final hresult⟩

/-- Two counters keep their sum while one of them counts up to three and the other one down. -/
theorem loop_rule_of_counters :
    let count (up down : Int64) : Environment :=
      (Environment.empty.insert "up" (.number up)).insert "down" (.number down)
    let add (name : String) (n : Int64) : Command :=
      .assign name (.binary .add (.var name) (.literal (.number n)))
    let less : Expr := .binary .lessThan (.var "up") (.literal (.number 3))
    let body : Command := .seq (add "up" 1) (add "down" (-1))
    let kept (env : Environment) : Prop :=
      ∃ m n : Int64, env.get? "up" = some (.number m) ∧ env.get? "down" = some (.number n) ∧
        m + n = 3
    kept (count 0 3) ∧
      (∀ before after, kept before →
        (({} : Evaluator).expr less before).1 = .ok (.boolean true) →
        body.Returns before (.ok after) → kept after) ∧
      (loop less body).Returns (count 0 3) (.ok (count 3 0)) ∧ kept (count 3 0) ∧
      LoopOver less body (count 3 0) := by
  intro count add less body kept
  have hstart : kept (count 0 3) := ⟨0, 3, rfl, rfl, rfl⟩
  have hround : ∀ before after, kept before →
      (({} : Evaluator).expr less before).1 = .ok (.boolean true) →
      body.Returns before (.ok after) → kept after := by
    intro before after hbefore _ hbody
    obtain ⟨m, n, hup, hdown, hsum⟩ := hbefore
    have hadd {env : Environment} {name : String} {k : Int64}
        (h : env.get? name = some (.number k)) (more : Int64) :
        (add name more).Returns env (.ok (env.insert name (.number (k + more)))) := by
      have hname : Expr.denote (.var name) env = .ok (.number k) := by
        unfold Expr.denote Environment.lookup
        rw [h]
      refine returns_assign_iff.2 ?_
      rw [Expr.denote_binary_of_ok hname]
      rfl
    have hbetween : (before.insert "up" (.number (m + 1))).get? "down" = some (.number n) := by
      rw [Environment.get?_insert, if_neg (by decide), hdown]
    have hresult := returns_seq_iff.2 (.inr ⟨_, hadd hup 1, hadd hbetween (-1)⟩)
    obtain rfl := Except.ok.inj (hbody.unique hresult)
    refine ⟨m + 1, n + -1, ?_, ?_, ?_⟩
    · rw [Environment.get?_insert, if_neg (by decide), Environment.get?_insert, if_pos rfl]
    · rw [Environment.get?_insert, if_pos rfl]
    · grind
  have hreturns : (loop less body).Returns (count 0 3) (.ok (count 3 0)) := ⟨4, _, rfl⟩
  obtain ⟨hkept, hover⟩ := (loop_rule hstart hround).1 _ hreturns
  exact ⟨hstart, hround, hreturns, hkept, hover⟩

end WhileLanguage.Command
