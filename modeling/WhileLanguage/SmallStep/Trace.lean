import WhileLanguage.SmallStep.Machine

/-!
# Traces

A trace is the sequence of states that a run visits, from where it starts to its normal form,
both included. It is not stored: every walk along it drives a machine of its own from the
start, so that walks do not disturb one another or the machine that was traced. A run that
fails ends its trace with the fault.
-/

namespace WhileLanguage

/-- The states of a run from `start` under the given limit. -/
structure Trace where
  start : State
  limit : Option Nat
deriving DecidableEq

/-- The trace of a run from the state where a machine is. -/
def Machine.trace (machine : Machine) : Trace :=
  ⟨machine.state, machine.limit⟩

/-- An entry of a trace: a state that was reached, or the fault that ended the run. -/
abbrev Trace.Item := Except Fault State

/-- Whether two entries are the same is decided on their states or faults. -/
instance : DecidableEq Trace.Item
  | .ok first, .ok second => decidable_of_iff (first = second) (by simp)
  | .error first, .error second => decidable_of_iff (first = second) (by simp)
  | .ok _, .error _ => .isFalse (by simp)
  | .error _, .ok _ => .isFalse (by simp)

/-- How far a walk along a trace has come. -/
inductive Walk where
  /-- The state of the machine is to be shown next. -/
  | ready (machine : Machine)
  /-- The state of the machine has been shown. -/
  | moving (machine : Machine)
  /-- Everything has been shown. -/
  | ended
deriving DecidableEq

namespace Walk

/-- The next item of a walk, if there is one, and the walk after it. -/
def next : Walk → Option Trace.Item × Walk
  | ready machine => (some (.ok machine.state), moving machine)
  | moving machine =>
      if machine.isNormal then (none, ended)
      else
        match machine.step with
        | ⟨stepped, none⟩ => (some (.ok stepped.state), moving stepped)
        | ⟨_, some fault⟩ => (some (.error fault), ended)
  | ended => (none, ended)

/-- The first items of a walk, or all if there are fewer. -/
def take : Nat → Walk → List Trace.Item
  | 0, _ => []
  | count + 1, walk =>
      match walk.next with
      | (some item, rest) => item :: take count rest
      | (none, _) => []

/-- The states that are left, or the fault at the end, if the walk ends within the bound. -/
def states : Nat → Walk → Option (Except Fault (List State))
  | 0, _ => none
  | bound + 1, walk =>
      match walk.next with
      | (none, _) => some (.ok [])
      | (some (.error fault), _) => some (.error fault)
      | (some (.ok state), rest) => (states bound rest).map fun r => r.map (state :: ·)

end Walk

namespace Trace

/-- A new walk along a trace, which drives a new machine. -/
def walk (trace : Trace) : Walk :=
  .ready ⟨trace.start, 0, trace.limit⟩

/-- The first items of a trace, or all if there are fewer. -/
def take (count : Nat) (trace : Trace) : List Item :=
  trace.walk.take count

/-- All states of a trace, or the fault at its end, if it ends within the bound. -/
def states (bound : Nat) (trace : Trace) : Option (Except Fault (List State)) :=
  trace.walk.states bound

end Trace

end WhileLanguage
