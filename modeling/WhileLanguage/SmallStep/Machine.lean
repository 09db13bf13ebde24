import WhileLanguage.SmallStep.Reduction

/-!
# A machine that makes steps

A machine holds a state, counts the steps that it has made, and stops at a limit if it has
one. `Machine.step` leaves a machine whether it makes its step or fails, and one that fails
changes nothing, by `Machine.step_eq_fault`. A run makes steps up to a normal form. A run of a
program that never ends has no result, so `Machine.run` looks at a bounded number of states and
answers `none` if none of them is the last; a greater bound never changes an answer, by
`Machine.run_mono`.
-/

namespace WhileLanguage

/-- A state that is being run, the number of steps made, and the number of steps allowed. -/
structure Machine where
  state : State
  steps : Nat := 0
  limit : Option Nat := none
deriving DecidableEq

/-- The machine that is left of a step or of a run, and the fault if it failed. -/
structure Halt where
  machine : Machine
  fault? : Option Fault
deriving DecidableEq

/-- The last state of a run, or the fault that stopped it. -/
def Halt.result (halt : Halt) : Except Fault State :=
  match halt.fault? with
  | none => .ok halt.machine.state
  | some fault => .error fault

namespace Machine

/-- A machine that has made no steps, on the same state and without a limit. -/
def restart (machine : Machine) : Machine :=
  ⟨machine.state, 0, none⟩

/-- The same machine with another limit. Steps that were made count against it. -/
def withLimit (machine : Machine) (limit : Nat) : Machine :=
  ⟨machine.state, machine.steps, some limit⟩

/-- Whether no step is left to make in the machine's state. -/
def isNormal (machine : Machine) : Bool :=
  !machine.state.isReducible

/-- The fault of a machine that has made all the steps it is allowed. -/
def exhaustion? (machine : Machine) : Option Fault :=
  match machine.limit with
  | some limit => if limit ≤ machine.steps then some (.exhausted limit) else none
  | none => none

/-- One step. The limit is consulted before the state. -/
def step (machine : Machine) : Halt :=
  match machine.exhaustion? with
  | some fault => ⟨machine, some fault⟩
  | none =>
      match machine.state.reduce with
      | .ok next => ⟨⟨next, machine.steps + 1, machine.limit⟩, none⟩
      | .error fault => ⟨machine, some fault⟩

/-- Makes a number of steps, or those before the first that fails. -/
def advance : Nat → Machine → Halt
  | 0, machine => ⟨machine, none⟩
  | count + 1, machine =>
      match machine.step with
      | ⟨next, none⟩ => advance count next
      | ⟨left, some fault⟩ => ⟨left, some fault⟩

/-- Makes steps up to a normal form or a fault, if one is among the first `bound` states. -/
def run : Nat → Machine → Option Halt
  | 0, _ => none
  | bound + 1, machine =>
      if machine.isNormal then some ⟨machine, none⟩
      else
        match machine.step with
        | ⟨next, none⟩ => run bound next
        | ⟨left, some fault⟩ => some ⟨left, some fault⟩

/-- A step that is made keeps the limit and counts one. -/
theorem step_eq_ok {machine next : Machine} (h : machine.step = ⟨next, none⟩) :
    machine.state.reduce = .ok next.state ∧ next.steps = machine.steps + 1 ∧
      next.limit = machine.limit := by
  simp only [step] at h
  split at h
  · cases h
  · split at h
    next state hreduce =>
      cases h
      exact ⟨hreduce, rfl, rfl⟩
    next => cases h

/-- A step that fails leaves the machine as it was. -/
theorem step_eq_fault {machine left : Machine} {fault : Fault}
    (h : machine.step = ⟨left, some fault⟩) : left = machine := by
  simp only [step] at h
  split at h
  · cases h
    rfl
  · split at h
    · cases h
    · cases h
      rfl

/-- A step is made, or it fails and leaves the machine as it was. -/
theorem step_cases (machine : Machine) :
    (∃ next, machine.step = ⟨next, none⟩) ∨ ∃ fault, machine.step = ⟨machine, some fault⟩ := by
  cases hstep : machine.step with
  | mk left fault? =>
      cases fault? with
      | none => exact .inl ⟨left, rfl⟩
      | some fault => exact .inr ⟨fault, by rw [step_eq_fault hstep]⟩

/-- An answer of a run holds for every greater bound. -/
theorem run_mono {bound greater : Nat} {machine : Machine} {halt : Halt}
    (h : machine.run bound = some halt) (hle : bound ≤ greater) :
    machine.run greater = some halt := by
  induction bound generalizing machine greater with
  | zero => simp [run] at h
  | succ bound ih =>
      obtain ⟨greater, rfl⟩ : ∃ rest, greater = rest + 1 := ⟨greater - 1, by omega⟩
      simp only [run] at h ⊢
      split
      · simpa [*] using h
      · rw [if_neg ‹_›] at h
        split at h
        · exact ih h (by omega)
        · exact h

end Machine

end WhileLanguage
