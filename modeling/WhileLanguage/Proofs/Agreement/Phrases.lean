import WhileLanguage.Proofs.Agreement.Commands
import WhileLanguage.Proofs.Agreement.Expressions

/-!
# What phrases return

An evaluation of a phrase without a limit returns an outcome or a fault, and a run of it a normal
form in an environment or a fault, if they return at all. Read `Phrase.runReturns_iff` first: the
one says all about the other. What a command returns is told by what its parts return, in
`Command.returns_assign_iff`, `Command.returns_branch_iff` and `Command.returns_seq_iff`, and for
loops in `Command.Returns.loop`.
-/

namespace WhileLanguage

/-! ## Commands -/

namespace Command

variable {env : Environment} {result : Except Fault Environment}

/-- An assignment returns its binding, or the fault of its expression. -/
theorem returns_assign_iff {name : String} {value : Expr} :
    (assign name value).Returns env result ↔
      result = (value.denote env).map (env.insert name) := by
  rw [returns_iff]
  constructor
  · intro h
    obtain ⟨gas, h⟩ := h
    cases h
    rfl
  · intro h
    subst h
    exact ⟨_, .assign⟩

/-- A branch returns the fault of its condition, or what the selected command returns. -/
theorem returns_branch_iff {condition : Expr} {yes no : Command} :
    (branch condition yes no).Returns env result ↔
      (∃ fault, condition.truth env = .error fault ∧ result = .error fault) ∨
        ∃ holds, condition.truth env = .ok holds ∧
          (if holds then yes else no).Returns env result := by
  simp only [returns_iff]
  constructor
  · intro h
    obtain ⟨gas, h⟩ := h
    cases h with
    | branchFault htruth => exact .inl ⟨_, htruth, rfl⟩
    | branch htruth h => exact .inr ⟨_, htruth, _, h⟩
  · intro h
    rcases h with ⟨fault, htruth, rfl⟩ | ⟨holds, htruth, gas, h⟩
    · exact ⟨_, .branchFault htruth⟩
    · exact ⟨_, .branch htruth h⟩

/-- A sequence returns the fault of its first part, or what the second part returns after it. -/
theorem returns_seq_iff {first second : Command} :
    (seq first second).Returns env result ↔
      (∃ fault, first.Returns env (.error fault) ∧ result = .error fault) ∨
        ∃ middle, first.Returns env (.ok middle) ∧ second.Returns middle result := by
  simp only [returns_iff]
  constructor
  · intro h
    obtain ⟨gas, h⟩ := h
    cases h with
    | seqFault hfirst => exact .inl ⟨_, ⟨_, hfirst⟩, rfl⟩
    | seq hfirst hsecond => exact .inr ⟨_, ⟨_, hfirst⟩, _, hsecond⟩
  · intro h
    rcases h with ⟨fault, ⟨gas, hfirst⟩, rfl⟩ | ⟨middle, ⟨gas, hfirst⟩, rest, hsecond⟩
    · exact ⟨_, .seqFault hfirst⟩
    · exact ⟨_, .seq hfirst hsecond⟩

/-- A loop returns what another one does whose condition has the same truth and whose body returns
all that its own body returns. -/
theorem Returns.loop {condition other : Expr} {body round : Command}
    (hcondition : ∀ env, other.truth env = condition.truth env)
    (hbody : ∀ env result, body.Returns env result → round.Returns env result)
    (h : (loop condition body).Returns env result) : (loop other round).Returns env result := by
  rw [returns_iff] at h ⊢
  obtain ⟨gas, h⟩ := h
  -- The rounds that are left are derivations of the same loop, which the induction keeps fixed.
  generalize hc : Command.loop condition body = c at h
  induction h with
  | skip | assign | branchFault | branch | seqFault | seq => cases hc
  | @loopFault _ _ env _ htruth =>
      cases hc
      exact ⟨_, .loopFault (hcondition env ▸ htruth)⟩
  | @loopEnd _ _ env htruth =>
      cases hc
      exact ⟨_, .loopEnd (hcondition env ▸ htruth)⟩
  | @loopBodyFault _ _ env _ _ htruth hfault _ =>
      cases hc
      obtain ⟨spent, hround⟩ := returns_iff.1 (hbody _ _ (returns_iff.2 ⟨_, hfault⟩))
      exact ⟨_, .loopBodyFault (hcondition env ▸ htruth) hround⟩
  | @loopRound _ _ env _ _ _ _ htruth hfirst _ _ ih =>
      cases hc
      obtain ⟨spent, hround⟩ := returns_iff.1 (hbody _ _ (returns_iff.2 ⟨_, hfirst⟩))
      obtain ⟨more, hrest⟩ := ih rfl
      -- Entering the loop has been charged for once.
      obtain ⟨rest, rfl⟩ : ∃ rest, more = 1 + rest := ⟨more - 1, by have := hrest.gas_pos; omega⟩
      exact ⟨_, .loopRound (hcondition env ▸ htruth) hround hrest⟩

end Command

/-! ## Phrases -/

/-- The normal form in which a run ends where an evaluation in the environment has this outcome. -/
def Outcome.state (start : Environment) : Outcome → State
  | value v => ⟨.expr (.literal v), start⟩
  | env final => ⟨.command .skip, final⟩

namespace Phrase

variable {env : Environment}

/-- An expression returns what it denotes. -/
theorem returns_expr_iff {e : Expr} {result : Except Fault Outcome} :
    (expr e).Returns env result ↔ result = (e.denote env).map .value := by
  unfold Returns
  simp only [Evaluator.phrase, Option.some.injEq, Prod.mk.injEq, Expr.evaluator_expr]
  constructor
  · intro h
    obtain ⟨bound, after, h, -⟩ := h
    exact h.symm
  · intro h
    exact ⟨0, _, h.symm, rfl⟩

/-- A command returns what its evaluation returns, as an outcome. -/
theorem returns_command_iff {c : Command} {result : Except Fault Outcome} :
    (command c).Returns env result ↔ ∃ final, c.Returns env final ∧ result = final.map .env := by
  constructor
  · intro h
    obtain ⟨bound, after, h⟩ := h
    obtain ⟨⟨final, spent⟩, hrun, heq⟩ := Option.map_eq_some_iff.1 h
    obtain ⟨rfl, -⟩ := Prod.mk.inj heq
    exact ⟨final, ⟨bound, after, h⟩, rfl⟩
  · intro h
    obtain ⟨final, hfinal, rfl⟩ := h
    exact hfinal

/-- A run of an expression ends with what it denotes, in the environment of its start. -/
theorem runReturns_expr_iff {e : Expr} {result : Except Fault State} :
    (expr e).RunReturns env result ↔
      result = (e.denote env).map fun v => ⟨.expr (.literal v), env⟩ := by
  obtain ⟨halt, hreturns, hresult⟩ := (e.agreed_denote env).reduced
  constructor
  · intro h
    obtain ⟨other, hother, rfl⟩ := h
    rw [← hresult, hreturns.unique hother]
  · intro h
    subst h
    exact ⟨halt, hreturns, hresult⟩

/-- A run of a command ends with what its evaluation returns, and nothing left to do. -/
theorem runReturns_command_iff {c : Command} {result : Except Fault State} :
    (command c).RunReturns env result ↔
      ∃ final, c.Returns env final ∧ result = final.map fun final => ⟨.command .skip, final⟩ := by
  constructor
  · intro h
    obtain ⟨halt, hreturns, hresult⟩ := h
    have hends := Machine.ends_iff_returns.2 ⟨halt, hreturns, rfl, hresult⟩
    obtain ⟨final, gas, hfinal, heq⟩ := Command.exists_comesTo_of_ends hends
    exact ⟨final, Command.returns_iff.2 ⟨gas, hfinal⟩, heq⟩
  · intro h
    obtain ⟨final, hfinal, rfl⟩ := h
    exact Command.returns_iff_runReturns.1 hfinal

/-- A run of a phrase ends with what its evaluation returns. -/
theorem runReturns_iff {p : Phrase} {result : Except Fault State} :
    p.RunReturns env result ↔
      ∃ outcome, p.Returns env outcome ∧ result = outcome.map (Outcome.state env) := by
  cases p with
  | expr e =>
      simp only [runReturns_expr_iff, returns_expr_iff, exists_eq_left]
      cases e.denote env <;> rfl
  | command c =>
      simp only [runReturns_command_iff, returns_command_iff]
      constructor
      · intro h
        obtain ⟨final, hfinal, rfl⟩ := h
        refine ⟨final.map .env, ⟨final, hfinal, rfl⟩, ?_⟩
        cases final <;> rfl
      · intro h
        obtain ⟨outcome, ⟨final, hfinal, rfl⟩, rfl⟩ := h
        refine ⟨final, hfinal, ?_⟩
        cases final <;> rfl

end Phrase

end WhileLanguage
