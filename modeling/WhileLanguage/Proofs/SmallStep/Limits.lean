import WhileLanguage.Proofs.SmallStep.Runs

/-!
# Runs under a limit

A limit on a machine's steps only cuts its run short. `Machine.run_withLimit` compares a new
machine that has a limit with one that has none, for every start: a normal form is still
reached if its last step is allowed, a fault still met if one more step than those before it
would be allowed, and any other run ends at the limit.
-/

namespace WhileLanguage.Machine

/-- A new machine with a limit returns where allowed reductions lead to what stops it. -/
theorem returns_withLimit {start last : State} {steps limit : Nat} {fault? : Option Fault}
    (hle : steps ≤ limit) (hafter : start.after steps = .ok last)
    (hstops : Stops ⟨last, steps, some limit⟩ fault?) :
    ((ofState start).withLimit limit).Returns ⟨⟨last, steps, some limit⟩, fault?⟩ := by
  refine returns_iff.2 ⟨steps, last, ?_, hafter, ?_, hstops⟩
  · intro other hother
    obtain rfl := Option.some.inj hother
    exact hle
  · rw [withLimit, ofState, Nat.zero_add]

/-- What stops reductions within a limit also stops the run of a new machine with that limit, if the
limit leaves a step over where one fails. -/
theorem returns_withLimit_of_stops {start last : State} {steps limit : Nat} {fault? : Option Fault}
    (hle : steps ≤ limit) (hlt : last.isReducible = true → steps < limit)
    (hafter : start.after steps = .ok last) (hstops : last.Stops fault?) :
    ((ofState start).withLimit limit).Returns ⟨⟨last, steps, some limit⟩, fault?⟩ := by
  refine returns_withLimit hle hafter ?_
  cases fault? with
  | none =>
      have hnormal : last.isReducible = false := hstops
      rw [Stops, isNormal, hnormal]
      rfl
  | some fault =>
      refine (stops_iff_of_allows fun other hother => ?_).2 hstops
      obtain rfl := Option.some.inj hother
      exact Nat.le_sub_of_add_le' (hlt hstops.1)

/-- A run that neither ends nor fails within a limit makes all the steps of the limit, to a
state that has another one. -/
theorem exists_after_limit {start : State} {limit : Nat}
    (hnormal : ∀ steps last, steps ≤ limit → start.after steps = .ok last → ¬ last.Stops none)
    (hfault : ∀ steps last fault, steps < limit → start.after steps = .ok last →
      ¬ last.Stops (some fault)) :
    ∃ last, start.after limit = .ok last ∧ last.isReducible = true := by
  have hreducible : ∀ steps last, steps ≤ limit → start.after steps = .ok last →
      last.isReducible = true := fun steps last hle hafter => by
    simpa [State.Stops] using hnormal steps last hle hafter
  cases hafter : start.after limit with
  | ok last => exact ⟨last, rfl, hreducible limit last (Nat.le_refl limit) hafter⟩
  | error fault =>
      obtain ⟨steps, last, hlt, hlast, hreduce⟩ := State.exists_of_after_eq_error hafter
      exact absurd ⟨hreducible steps last (Nat.le_of_lt hlt) hlast, hreduce⟩
        (hfault steps last fault hlt hlast)

/-- A limit changes nothing about a run to a normal form that it allows, nor about a run to a
fault before it; every other run stops at the limit, in the state that the run without a
limit is in after as many steps. -/
theorem run_withLimit (start : State) (limit : Nat) :
    (∀ steps last, (ofState start).Returns ⟨⟨last, steps, none⟩, none⟩ → steps ≤ limit →
      ((ofState start).withLimit limit).Returns ⟨⟨last, steps, some limit⟩, none⟩) ∧
    (∀ steps last fault, (ofState start).Returns ⟨⟨last, steps, none⟩, some fault⟩ →
      steps < limit → start.after steps = .ok last ∧
        ((ofState start).withLimit limit).Returns ⟨⟨last, steps, some limit⟩, some fault⟩) ∧
    ((∀ steps last, (ofState start).Returns ⟨⟨last, steps, none⟩, none⟩ → limit < steps) →
      (∀ steps last fault, (ofState start).Returns ⟨⟨last, steps, none⟩, some fault⟩ →
        limit ≤ steps) →
      ∃ last, start.after limit = .ok last ∧
        ((ofState start).withLimit limit).Returns
          ⟨⟨last, limit, some limit⟩, some (.exhausted limit)⟩) := by
  refine ⟨?normal, ?fault, ?exhausted⟩
  case normal =>
    intro steps last h hle
    obtain ⟨-, hafter, hstops⟩ := ofState_returns_iff.1 h
    exact returns_withLimit hle hafter (by simpa [Stops, State.Stops, isNormal] using hstops)
  case fault =>
    intro steps last fault h hlt
    obtain ⟨-, hafter, hstops⟩ := ofState_returns_iff.1 h
    refine ⟨hafter, returns_withLimit (Nat.le_of_lt hlt) hafter ?_⟩
    refine (stops_iff_of_allows fun other hother => ?_).2 hstops
    obtain rfl := Option.some.inj hother
    exact Nat.le_sub_of_add_le' hlt
  case exhausted =>
    intro hnormal hfault
    obtain ⟨last, hafter, hreducible⟩ : ∃ last, start.after limit = .ok last ∧
        last.isReducible = true := by
      refine exists_after_limit ?_ ?_
      · intro steps last hle hafter hstops
        exact absurd (hnormal steps last (ofState_returns_iff.2 ⟨rfl, hafter, hstops⟩))
          (Nat.not_lt.2 hle)
      · intro steps last fault hlt hafter hstops
        exact absurd (hfault steps last fault (ofState_returns_iff.2 ⟨rfl, hafter, hstops⟩))
          (Nat.not_le.2 hlt)
    refine ⟨last, hafter, returns_withLimit (Nat.le_refl limit) hafter ⟨?_, ?_⟩⟩
    · simp [isNormal, hreducible]
    · exact step_of_limit_le rfl (Nat.le_refl limit)

/-- Two steps end `x = 1 + 2`, and a limit of two allows them. Three steps of the sequence lead to
its fault, which a limit of four still lets show and a limit of three does not. -/
theorem run_limit_at_end :
    let sum : State :=
      ⟨.command (.assign "x" (.binary .add (.literal (.number 1)) (.literal (.number 2)))), .empty⟩
    let done : State := ⟨.command .skip, Environment.empty.insert "x" (.number 3)⟩
    let clash : State :=
      ⟨.command (.seq (.assign "x" (.literal (.number 1)))
        (.branch (.binary .lessThan (.var "x") (.literal (.boolean true))) .skip .skip)), .empty⟩
    let last : State :=
      ⟨.command (.branch (.binary .lessThan (.literal (.number 1)) (.literal (.boolean true)))
        .skip .skip), Environment.empty.insert "x" (.number 1)⟩
    let fault : Fault := .operands .lessThan .number .boolean
    (ofState sum).Returns ⟨⟨done, 2, none⟩, none⟩ ∧
      ((ofState sum).withLimit 2).Returns ⟨⟨done, 2, some 2⟩, none⟩ ∧
      (ofState clash).Returns ⟨⟨last, 3, none⟩, some fault⟩ ∧
      ((ofState clash).withLimit 4).Returns ⟨⟨last, 3, some 4⟩, some fault⟩ ∧
      ((ofState clash).withLimit 3).Returns ⟨⟨last, 3, some 3⟩, some (.exhausted 3)⟩ := by
  intro sum done clash last fault
  have hsum : (ofState sum).Returns ⟨⟨done, 2, none⟩, none⟩ := ⟨3, rfl⟩
  have hclash : (ofState clash).Returns ⟨⟨last, 3, none⟩, some fault⟩ := ⟨4, rfl⟩
  have hallowed := (run_withLimit sum 2).1 2 done hsum (by decide)
  obtain ⟨hafter, hkept⟩ := (run_withLimit clash 4).2.1 3 last fault hclash (by decide)
  obtain ⟨other, hother, hcut⟩ := (run_withLimit clash 3).2.2
    (fun steps final h => by cases hclash.unique h)
    (fun steps final other h => by cases hclash.unique h; exact Nat.le_refl 3)
  obtain rfl := Except.ok.inj (hafter.symm.trans hother)
  exact ⟨hsum, hallowed, hclash, hkept, hcut⟩

end WhileLanguage.Machine
