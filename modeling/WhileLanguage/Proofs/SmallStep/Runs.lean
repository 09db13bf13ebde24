import WhileLanguage.SmallStep.Machine

/-!
# Runs as counted reductions

`State.after` is the state that a number of reductions leads to. A machine's run is spelled
out in these terms: read `Machine.returns_iff` first, which says that a run returns exactly
where allowed reductions lead to a normal form or to a step that fails. Whether a run returns
at all is `∃ bound`, by `Machine.Returns`, so that no bound shows in later statements.
-/

namespace WhileLanguage

/-- A step that is mapped over succeeds where the step does. -/
theorem except_map_eq_ok_iff {ε α β : Type} {f : α → β} {x : Except ε α} {b : β} :
    x.map f = .ok b ↔ ∃ a, x = .ok a ∧ f a = b := by
  cases x <;> simp [Except.map]

namespace State

/-- The state that so many reductions lead to, or the fault of the first one that fails. -/
def after : Nat → State → Except Fault State
  | 0, state => .ok state
  | count + 1, state =>
      match state.reduce with
      | .ok next => after count next
      | .error fault => .error fault

/-- One reduction more, made first. -/
theorem after_succ_of_ok {state next : State} (h : state.reduce = .ok next) (count : Nat) :
    state.after (count + 1) = next.after count := by
  simp only [after, h]

/-- No reductions lead past one that fails. -/
theorem after_succ_of_error {state : State} {fault : Fault} (h : state.reduce = .error fault)
    (count : Nat) : state.after (count + 1) = .error fault := by
  simp only [after, h]

/-- Reductions that all succeed go on from the state that the first one leads to. -/
theorem reduce_of_after_succ {start last : State} {count : Nat}
    (h : start.after (count + 1) = .ok last) :
    ∃ next, start.reduce = .ok next ∧ next.after count = .ok last := by
  cases hstep : start.reduce with
  | error fault => simp [after, hstep] at h
  | ok next => exact ⟨next, rfl, (after_succ_of_ok hstep count).symm.trans h⟩

/-- Reductions that follow others start from the state that these lead to. -/
theorem after_add {start middle : State} {first : Nat} (h : start.after first = .ok middle)
    (second : Nat) : start.after (first + second) = middle.after second := by
  induction first generalizing start with
  | zero =>
      obtain rfl := Except.ok.inj h
      rw [Nat.zero_add]
  | succ first ih =>
      obtain ⟨next, hstep, hrest⟩ := reduce_of_after_succ h
      rw [Nat.succ_add, after_succ_of_ok hstep]
      exact ih hrest

/-- Reductions that do not all succeed fail at a state that some of them lead to. -/
theorem exists_of_after_eq_error {start : State} {count : Nat} {fault : Fault}
    (h : start.after count = .error fault) :
    ∃ steps last, steps < count ∧ start.after steps = .ok last ∧ last.reduce = .error fault := by
  induction count generalizing start with
  | zero => simp [after] at h
  | succ count ih =>
      cases hstep : start.reduce with
      | error other =>
          obtain rfl := Except.error.inj ((after_succ_of_error hstep count).symm.trans h)
          exact ⟨0, start, Nat.succ_pos count, rfl, hstep⟩
      | ok next =>
          rw [after_succ_of_ok hstep] at h
          obtain ⟨steps, last, hlt, hafter, hlast⟩ := ih h
          exact ⟨steps + 1, last, Nat.succ_lt_succ hlt,
            (after_succ_of_ok hstep steps).trans hafter, hlast⟩

/-- What every reduction keeps holds after any number of them. -/
theorem after_keeps {holds : State → Prop}
    (hstep : ∀ {state next : State}, holds state → state.reduce = .ok next → holds next)
    {start last : State} {count : Nat} (hstart : holds start)
    (hafter : start.after count = .ok last) : holds last := by
  induction count generalizing start with
  | zero =>
      obtain rfl := Except.ok.inj hafter
      exact hstart
  | succ count ih =>
      obtain ⟨next, hreduce, hrest⟩ := reduce_of_after_succ hafter
      exact ih (hstep hstart hreduce) hrest

/-- Only a phrase that is not a normal form has a step. -/
theorem isReducible_of_reduce {state next : State} (h : state.reduce = .ok next) :
    state.isReducible = true := by
  cases hreducible : state.isReducible with
  | true => rfl
  | false =>
      obtain ⟨form, hform⟩ := Phrase.isReducible_eq_false_iff.1 hreducible
      simp [reduce_eq_irreducible_iff.2 hform] at h

/-- What stops reductions: nothing but a normal form, or the fault of the next one. -/
def Stops (state : State) : Option Fault → Prop
  | none => state.isReducible = false
  | some fault => state.isReducible = true ∧ state.reduce = .error fault

/-- Reductions end after so many steps: at the normal form that is their result, or at a state
where the next one fails with it. -/
def Ends (start : State) (steps : Nat) (result : Except Fault State) : Prop :=
  ∃ last, start.after steps = .ok last ∧
    match result with
    | .ok final => last = final ∧ last.Stops none
    | .error fault => last.Stops (some fault)

/-- An end that is reached after some reductions is one of the state before them. -/
theorem Ends.of_after {start middle : State} {first second : Nat} {result : Except Fault State}
    (hafter : start.after first = .ok middle) (h : middle.Ends second result) :
    start.Ends (first + second) result := by
  obtain ⟨last, hlast, hstop⟩ := h
  exact ⟨last, (after_add hafter second).trans hlast, hstop⟩

/-- An end that is reached after a step is one of the state before it. -/
theorem Ends.of_reduce {start next : State} {steps : Nat} {result : Except Fault State}
    (hstep : start.reduce = .ok next) (h : next.Ends steps result) :
    start.Ends (steps + 1) result := by
  obtain ⟨last, hlast, hstop⟩ := h
  exact ⟨last, (after_succ_of_ok hstep steps).trans hlast, hstop⟩

end State

namespace Machine

/-- A machine that has made no steps and has no limit. -/
def ofState (state : State) : Machine :=
  ⟨state, 0, none⟩

/-- The run of a machine returns, and has stopped where `halt` says. -/
def Returns (machine : Machine) (halt : Halt) : Prop :=
  ∃ bound, machine.run bound = some halt

/-- A run returns in one way only. -/
theorem Returns.unique {machine : Machine} {halt other : Halt} (h : machine.Returns halt)
    (hother : machine.Returns other) : halt = other := by
  obtain ⟨bound, h⟩ := h
  obtain ⟨greater, hother⟩ := hother
  have hmax := run_mono h (Nat.le_max_left bound greater)
  rw [run_mono hother (Nat.le_max_right bound greater)] at hmax
  exact (Option.some.inj hmax).symm

/-- What every reduction keeps holds of a machine's state after any number of steps. -/
theorem advance_keeps {holds : State → Prop}
    (hstep : ∀ {state next : State}, holds state → state.reduce = .ok next → holds next)
    {machine : Machine} (hstart : holds machine.state) (count : Nat) :
    holds (machine.advance count).machine.state := by
  induction count generalizing machine with
  | zero => exact hstart
  | succ count ih =>
      obtain ⟨next, hmade⟩ | ⟨fault, hmade⟩ := machine.step_cases
      · simp only [advance, hmade]
        exact ih (hstep hstart (step_eq_ok hmade).1)
      · simpa only [advance, hmade] using hstart

/-- The machine's limit leaves room for so many more steps. -/
def Allows (machine : Machine) (count : Nat) : Prop :=
  ∀ limit, machine.limit = some limit → count ≤ limit - machine.steps

/-- A machine without a limit allows any number of steps. -/
theorem allows_of_limit_eq_none {machine : Machine} (h : machine.limit = none) (count : Nat) :
    machine.Allows count := by
  intro limit hlimit
  rw [h] at hlimit
  cases hlimit

/-- A machine that is not exhausted allows one more step. -/
theorem exhaustion?_eq_none_iff {machine : Machine} :
    machine.exhaustion? = none ↔ machine.Allows 1 := by
  cases hlimit : machine.limit with
  | none => simp [exhaustion?, Allows, hlimit]
  | some limit =>
      simp only [exhaustion?, Allows, hlimit, ite_eq_right_iff, reduceCtorEq, imp_false,
        Option.some.injEq, forall_eq']
      omega

/-- An allowed step is made where the state's reduction is. -/
theorem step_of_reduce {machine : Machine} {next : State} (h : machine.Allows 1)
    (hreduce : machine.state.reduce = .ok next) :
    machine.step = ⟨⟨next, machine.steps + 1, machine.limit⟩, none⟩ := by
  simp only [step, exhaustion?_eq_none_iff.2 h, hreduce]

/-- An allowed step fails where the state's reduction does. -/
theorem step_eq_fault_iff_of_allows {machine : Machine} {fault : Fault} (h : machine.Allows 1) :
    machine.step = ⟨machine, some fault⟩ ↔ machine.state.reduce = .error fault := by
  simp only [step, exhaustion?_eq_none_iff.2 h]
  cases machine.state.reduce <;> simp

/-- A step that is made is allowed. -/
theorem allows_of_step {machine next : Machine} (h : machine.step = ⟨next, none⟩) :
    machine.Allows 1 := by
  rw [← exhaustion?_eq_none_iff]
  cases hexhaustion : machine.exhaustion? with
  | none => rfl
  | some fault => simp [step, hexhaustion] at h

/-- A machine with its steps made has no step left. -/
theorem step_of_limit_le {machine : Machine} {limit : Nat} (h : machine.limit = some limit)
    (hle : limit ≤ machine.steps) : machine.step = ⟨machine, some (.exhausted limit)⟩ := by
  simp [step, exhaustion?, h, hle]

/-- A step fails where the state's does, or with the fault of the limit. -/
theorem reduce_or_limit_of_step_fault {machine : Machine} {fault : Fault}
    (h : machine.step = ⟨machine, some fault⟩) :
    machine.state.reduce = .error fault ∨
      ∃ limit, machine.limit = some limit ∧ fault = .exhausted limit := by
  by_cases hallows : machine.Allows 1
  · exact .inl ((step_eq_fault_iff_of_allows hallows).1 h)
  · obtain ⟨limit, hlimit, hpast⟩ : ∃ limit, machine.limit = some limit ∧
        ¬ 1 ≤ limit - machine.steps := by
      simpa [Allows] using hallows
    rw [step_of_limit_le hlimit (by omega)] at h
    cases h
    exact .inr ⟨limit, hlimit, rfl⟩

/-- What stops a machine: nothing but a normal form, or the fault of its step. -/
def Stops (machine : Machine) : Option Fault → Prop
  | none => machine.isNormal = true
  | some fault => machine.isNormal = false ∧ machine.step = ⟨machine, some fault⟩

/-- A machine that is allowed a step is stopped only by what stops its state. -/
theorem stops_iff_of_allows {machine : Machine} (h : machine.Allows 1) {fault? : Option Fault} :
    machine.Stops fault? ↔ machine.state.Stops fault? := by
  cases fault? with
  | none => simp [Stops, State.Stops, isNormal]
  | some fault => simp [Stops, State.Stops, isNormal, step_eq_fault_iff_of_allows h]

/-- A step leads to a run that has room for one step less. -/
theorem allows_succ_iff {machine next : Machine} (hstep : machine.step = ⟨next, none⟩)
    {count : Nat} : machine.Allows (count + 1) ↔ next.Allows count := by
  obtain ⟨-, hsteps, hlimit⟩ := step_eq_ok hstep
  have hone := allows_of_step hstep
  simp only [Allows, hsteps, hlimit] at hone ⊢
  constructor
  · intro h limit hmem
    have := h limit hmem
    omega
  · intro h limit hmem
    have := h limit hmem
    have := hone limit hmem
    omega

/-- A run that returns has made allowed reductions up to what stops it. -/
theorem Returns.exists_after {machine : Machine} {halt : Halt} (h : machine.Returns halt) :
    ∃ count last, machine.Allows count ∧ machine.state.after count = .ok last ∧
      halt.machine = ⟨last, machine.steps + count, machine.limit⟩ ∧
      halt.machine.Stops halt.fault? := by
  obtain ⟨bound, h⟩ := h
  induction bound generalizing machine with
  | zero => simp [run] at h
  | succ bound ih =>
      simp only [run] at h
      split at h
      next hnormal =>
        obtain rfl := Option.some.inj h
        exact ⟨0, machine.state, fun _ _ => Nat.zero_le _, rfl, rfl, hnormal⟩
      next hnormal =>
        split at h
        next next hstep =>
          obtain ⟨count, last, hallows, hafter, hhalt, hstops⟩ := ih h
          obtain ⟨hreduce, hsteps, hlimit⟩ := step_eq_ok hstep
          refine ⟨count + 1, last, (allows_succ_iff hstep).2 hallows, ?_, ?_, hstops⟩
          · rw [State.after_succ_of_ok hreduce, hafter]
          · rw [hhalt, hsteps, hlimit, Nat.add_right_comm, Nat.add_assoc]
        next left fault hstep =>
          obtain rfl := Option.some.inj h
          obtain rfl := step_eq_fault hstep
          exact ⟨0, left.state, fun _ _ => Nat.zero_le _, rfl, rfl,
            Bool.eq_false_iff.2 hnormal, hstep⟩

/-- What stops a machine is where its run returns. -/
theorem Stops.returns {machine : Machine} {fault? : Option Fault} (h : machine.Stops fault?) :
    machine.Returns ⟨machine, fault?⟩ := by
  refine ⟨1, ?_⟩
  cases fault? with
  | none => exact if_pos h
  | some fault => simp [run, h.1, h.2]

/-- A run goes through a step that can be made, and nowhere else. -/
theorem returns_iff_of_step {machine next : Machine} {halt : Halt}
    (hstep : machine.step = ⟨next, none⟩) : machine.Returns halt ↔ next.Returns halt := by
  have hnormal : machine.isNormal = false := by
    simp [isNormal, State.isReducible_of_reduce (step_eq_ok hstep).1]
  constructor
  · rintro ⟨bound, h⟩
    cases bound with
    | zero => simp [run] at h
    | succ bound => exact ⟨bound, by simpa [run, hnormal, hstep] using h⟩
  · rintro ⟨bound, h⟩
    exact ⟨bound + 1, by simp [run, hnormal, hstep, h]⟩

/-- A run returns the same from the state that allowed reductions lead to. -/
theorem returns_iff_of_after {machine : Machine} {count : Nat} {last : State} {halt : Halt}
    (hallows : machine.Allows count) (hafter : machine.state.after count = .ok last) :
    machine.Returns halt ↔ Returns ⟨last, machine.steps + count, machine.limit⟩ halt := by
  induction count generalizing machine with
  | zero =>
      obtain rfl := Except.ok.inj hafter
      exact Iff.rfl
  | succ count ih =>
      obtain ⟨state, hreduce, hrest⟩ := State.reduce_of_after_succ hafter
      have hstep := step_of_reduce (fun limit hlimit =>
        Nat.le_trans (Nat.le_add_left 1 count) (hallows limit hlimit)) hreduce
      rw [returns_iff_of_step hstep, ih ((allows_succ_iff hstep).1 hallows) hrest,
        Nat.add_right_comm, Nat.add_assoc]

/-- A run returns exactly where allowed reductions lead to what stops it. -/
theorem returns_iff {machine : Machine} {halt : Halt} :
    machine.Returns halt ↔
      ∃ count last, machine.Allows count ∧ machine.state.after count = .ok last ∧
        halt.machine = ⟨last, machine.steps + count, machine.limit⟩ ∧
        halt.machine.Stops halt.fault? := by
  constructor
  -- The limit must allow the steps that are made, but not the one that it makes fail.
  · exact Returns.exists_after
  · rintro ⟨count, last, hallows, hafter, hhalt, hstops⟩
    exact (returns_iff_of_after hallows hafter).2 (hhalt ▸ hstops.returns)

/-- Without a limit a run returns exactly where reductions lead to what stops them. -/
theorem ofState_returns_iff {start : State} {halt : Halt} :
    (ofState start).Returns halt ↔
      halt.machine.limit = none ∧ start.after halt.machine.steps = .ok halt.machine.state ∧
        halt.machine.state.Stops halt.fault? := by
  have hstops {last : State} {steps : Nat} {fault? : Option Fault} :
      Stops ⟨last, steps, none⟩ fault? ↔ last.Stops fault? :=
    stops_iff_of_allows (allows_of_limit_eq_none rfl 1)
  obtain ⟨⟨last, steps, limit⟩, fault?⟩ := halt
  rw [returns_iff]
  constructor
  · rintro ⟨count, other, -, hafter, hhalt, hstop⟩
    simp only [ofState, Nat.zero_add, mk.injEq] at hhalt
    obtain ⟨rfl, rfl, rfl⟩ := hhalt
    exact ⟨rfl, hafter, hstops.1 hstop⟩
  · rintro ⟨rfl, hafter, hstop⟩
    refine ⟨steps, last, allows_of_limit_eq_none rfl steps, hafter, ?_, hstops.2 hstop⟩
    rw [ofState, Nat.zero_add]

/-- Without a limit, a run's steps and its result are those that reductions end with. -/
theorem ends_iff_returns {start : State} {steps : Nat} {result : Except Fault State} :
    start.Ends steps result ↔
      ∃ halt, (ofState start).Returns halt ∧ halt.machine.steps = steps ∧
        halt.result = result := by
  constructor
  · rintro ⟨last, hafter, hstop⟩
    cases result with
    | ok final =>
        obtain ⟨rfl, hstop⟩ := hstop
        exact ⟨⟨⟨last, steps, none⟩, none⟩, ofState_returns_iff.2 ⟨rfl, hafter, hstop⟩, rfl, rfl⟩
    | error fault =>
        exact ⟨⟨⟨last, steps, none⟩, some fault⟩, ofState_returns_iff.2 ⟨rfl, hafter, hstop⟩,
          rfl, rfl⟩
  · rintro ⟨⟨⟨last, steps, limit⟩, fault?⟩, h, rfl, rfl⟩
    obtain ⟨-, hafter, hstop⟩ := ofState_returns_iff.1 h
    cases fault? with
    | none => exact ⟨last, hafter, rfl, hstop⟩
    | some fault => exact ⟨last, hafter, hstop⟩

end Machine

end WhileLanguage
