import WhileLanguage.Proofs.SmallStep.Histories
import WhileLanguage.SmallStep.Trace

/-!
# What traces show

A trace shows the run of a new machine from the state that was traced, under the same limit:
read `Trace.Shows`, which spells that out call by call and for the list of all states, and
`Machine.trace_shows_run`, which says it of every machine. A walk along a trace drives its
machine by steps of its own, so `Walk.answer_moving` and `Walk.lists_iff` follow its three phases
along the steps that `Machine.advance` makes.
-/

namespace WhileLanguage

/-! ## Steps that are all made -/

namespace Machine

variable {machine next reached : Machine} {count : Nat} {fault : Fault} {fault? : Option Fault}

/-- After a step that can be made, one step less is to be made. -/
theorem advance_succ_of_ok (hstep : machine.step = ⟨next, none⟩) (count : Nat) :
    machine.advance (count + 1) = next.advance count := by
  simp only [advance, hstep]

/-- Steps that are all made go on from the first one. -/
theorem step_of_advance_succ (h : machine.advance (count + 1) = ⟨reached, none⟩) :
    ∃ next, machine.step = ⟨next, none⟩ ∧ next.advance count = ⟨reached, none⟩ := by
  obtain ⟨next, hstep⟩ | ⟨fault, hstep⟩ := machine.step_cases
  · exact ⟨next, hstep, (advance_succ_of_ok hstep count).symm.trans h⟩
  · simp [advance, hstep] at h

/-- Steps that are all made are counted. -/
theorem steps_of_advance (h : machine.advance count = ⟨reached, none⟩) :
    reached.steps = machine.steps + count := by
  induction count generalizing machine with
  | zero =>
      cases h
      rfl
  | succ count ih =>
      obtain ⟨next, hstep, hrest⟩ := step_of_advance_succ h
      rw [ih hrest, (step_eq_ok hstep).2.1, Nat.add_right_comm, Nat.add_assoc]

/-- Steps that are all made end with a step from a machine that all but one of them lead to. -/
theorem exists_last_step (h : machine.advance (count + 1) = ⟨reached, none⟩) :
    ∃ before, machine.advance count = ⟨before, none⟩ ∧ before.step = ⟨reached, none⟩ := by
  induction count generalizing machine with
  | zero =>
      obtain ⟨next, hstep, hrest⟩ := step_of_advance_succ h
      cases hrest
      exact ⟨machine, rfl, hstep⟩
  | succ count ih =>
      obtain ⟨next, hstep, hrest⟩ := step_of_advance_succ h
      obtain ⟨before, hbefore, hlast⟩ := ih hrest
      exact ⟨before, (advance_succ_of_ok hstep count).trans hbefore, hlast⟩

/-- Of steps that are all made, the first ones are. -/
theorem exists_advance_of_le {i : Nat} (h : machine.advance count = ⟨reached, none⟩)
    (hle : i ≤ count) : ∃ middle, machine.advance i = ⟨middle, none⟩ := by
  induction i generalizing machine count with
  | zero => exact ⟨machine, rfl⟩
  | succ i ih =>
      obtain ⟨count, rfl⟩ : ∃ rest, count = rest + 1 := ⟨count - 1, by omega⟩
      obtain ⟨next, hstep, hrest⟩ := step_of_advance_succ h
      rw [advance_succ_of_ok hstep]
      exact ih hrest (Nat.le_of_succ_le_succ hle)

/-- A run passes the machines that steps lead to, up to a fault. -/
theorem returns_iff_of_advance {halt : Halt} (h : machine.advance count = ⟨reached, fault?⟩) :
    machine.Returns halt ↔ reached.Returns halt := by
  induction count generalizing machine with
  | zero =>
      cases h
      exact Iff.rfl
  | succ count ih =>
      obtain ⟨next, hstep⟩ | ⟨fault, hstep⟩ := machine.step_cases
      · rw [advance_succ_of_ok hstep] at h
        rw [returns_iff_of_step hstep, ih h]
      · simp only [advance, hstep] at h
        cases h
        exact Iff.rfl

/-- Steps end early at a machine whose step fails. -/
theorem step_of_advance_fault (h : machine.advance count = ⟨reached, some fault⟩) :
    reached.step = ⟨reached, some fault⟩ := by
  induction count generalizing machine with
  | zero => cases h
  | succ count ih =>
      obtain ⟨next, hstep⟩ | ⟨other, hstep⟩ := machine.step_cases
      · rw [advance_succ_of_ok hstep] at h
        exact ih h
      · simp only [advance, hstep] at h
        cases h
        exact hstep

/-- A machine whose step fails is stopped, by that or by being done. -/
theorem exists_stops_of_step_fault (h : machine.step = ⟨machine, some fault⟩) :
    ∃ fault?, machine.Stops fault? := by
  cases hnormal : machine.isNormal with
  | true => exact ⟨none, hnormal⟩
  | false => exact ⟨some fault, hnormal, h⟩

/-- Where a run does not return, all steps are made. -/
theorem exists_advance_of_endless (h : ∀ halt, ¬ machine.Returns halt) (i : Nat) :
    ∃ reached, machine.advance i = ⟨reached, none⟩ := by
  cases hadvance : machine.advance i with
  | mk reached fault? =>
      cases fault? with
      | none => exact ⟨reached, rfl⟩
      | some fault =>
          obtain ⟨fault?, hstops⟩ := exists_stops_of_step_fault (step_of_advance_fault hadvance)
          exact absurd ((returns_iff_of_advance hadvance).2 hstops.returns) (h _)

/-- A run returns exactly where steps that are all made lead to what stops it. -/
theorem returns_iff_exists_advance {halt : Halt} :
    machine.Returns halt ↔
      ∃ count, machine.advance count = ⟨halt.machine, none⟩ ∧ halt.machine.Stops halt.fault? := by
  constructor
  · rintro ⟨bound, h⟩
    induction bound generalizing machine with
    | zero => simp [run] at h
    | succ bound ih =>
        simp only [run] at h
        split at h
        next hnormal =>
          obtain rfl := Option.some.inj h
          exact ⟨0, rfl, hnormal⟩
        next hnormal =>
          split at h
          next next hstep =>
            obtain ⟨count, hadvance, hstops⟩ := ih h
            exact ⟨count + 1, (advance_succ_of_ok hstep count).trans hadvance, hstops⟩
          next left fault hstep =>
            obtain rfl := Option.some.inj h
            obtain rfl := step_eq_fault hstep
            exact ⟨0, rfl, Bool.eq_false_iff.2 hnormal, hstep⟩
  · rintro ⟨count, hadvance, hstops⟩
    exact (returns_iff_of_advance hadvance).2 hstops.returns

/-- The states that a machine is in until it has made so many steps. -/
def visited (machine : Machine) (count : Nat) : List State :=
  (List.range (count + 1)).map fun i => (machine.advance i).machine.state

/-- A machine visits the state where it is, and then what it visits after a step. -/
theorem visited_succ (hstep : machine.step = ⟨next, none⟩) (count : Nat) :
    machine.visited (count + 1) = machine.state :: next.visited count := by
  rw [visited, List.range_succ_eq_map, List.map_cons, List.map_map]
  refine congrArg (machine.state :: ·) (List.map_congr_left fun i _ => ?_)
  rw [Function.comp_apply, Nat.succ_eq_add_one, advance_succ_of_ok hstep]

/-- A machine whose steps are all made visits one state more than it makes steps, the last one
at their end, and all others had a step left. -/
theorem visited_of_advance (h : machine.advance count = ⟨reached, none⟩) :
    (machine.visited count).length = count + 1 ∧
      (machine.visited count).getLast? = some reached.state ∧
      ∀ state ∈ (machine.visited count).dropLast, state.isReducible = true := by
  refine ⟨?length, ?last, fun state hstate => ?before⟩
  case length => rw [visited, List.length_map, List.length_range]
  case last => simp [visited, List.range_succ, h]
  case before =>
    rw [visited, List.range_succ, List.map_append, List.map_singleton,
      List.dropLast_concat] at hstate
    obtain ⟨i, hi, rfl⟩ := List.mem_map.1 hstate
    obtain ⟨middle, hmiddle⟩ := exists_advance_of_le h (List.mem_range.1 hi)
    obtain ⟨before, hbefore, hstep⟩ := exists_last_step hmiddle
    rw [hbefore]
    exact State.isReducible_of_reduce (step_eq_ok hstep).1

end Machine

/-! ## Walks -/

namespace Walk

open Machine (returns_iff_exists_advance)

variable {machine next reached : Machine} {count : Nat} {fault : Fault}

/-- The walk after so many calls for its next item. -/
def later : Nat → Walk → Walk
  | 0, walk => walk
  | calls + 1, walk => walk.next.2.later calls

/-- What a walk answers when it is called for its next item after so many other calls. -/
def answer (i : Nat) (walk : Walk) : Option Trace.Item :=
  (walk.later i).next.1

/-- The answers of several walks that are called in any order, each by its number. -/
def answers (walks : Nat → Walk) : List Nat → List (Option Trace.Item)
  | [] => []
  | i :: calls =>
      (walks i).next.1 :: answers (fun j => if j = i then (walks i).next.2 else walks j) calls

/-- Calls after the first one are calls of the walk that it leaves. -/
theorem answer_succ (i : Nat) (walk : Walk) : walk.answer (i + 1) = walk.next.2.answer i := rfl

/-- Calls after others are calls of the walk that these leave. -/
theorem answer_add (first second : Nat) (walk : Walk) :
    walk.answer (first + second) = (walk.later first).answer second := by
  induction first generalizing walk with
  | zero => rw [Nat.zero_add, later]
  | succ first ih => rw [Nat.succ_add, answer_succ, ih, later]

/-- Each of several walks answers by the number of calls that it has had itself. -/
theorem getElem?_answers {walks : Nat → Walk} {calls : List Nat} {p i : Nat}
    (h : calls[p]? = some i) :
    (answers walks calls)[p]? = some ((walks i).answer ((calls.take p).count i)) := by
  induction calls generalizing walks p with
  | nil => cases h
  | cons j calls ih =>
      cases p with
      | zero =>
          cases h
          rfl
      | succ p =>
          rw [answers, List.getElem?_cons_succ, ih h, List.take_succ_cons]
          by_cases hij : i = j
          · subst hij
            rw [if_pos rfl, List.count_cons_self, answer_succ]
          · rw [if_neg hij, List.count_cons_of_ne (Ne.symm hij)]

/-- A walk whose machine makes a step shows the state after it. -/
theorem next_of_step (hstep : machine.step = ⟨next, none⟩) :
    (moving machine).next = (some (.ok next.state), moving next) := by
  have hnormal : machine.isNormal = false := by
    simp [Machine.isNormal, State.isReducible_of_reduce (Machine.step_eq_ok hstep).1]
  simp [Walk.next, hnormal, hstep]

/-- A walk whose machine is done shows nothing more. -/
theorem next_of_normal (h : machine.Stops none) : (moving machine).next = (none, ended) :=
  if_pos h

/-- A walk whose machine is stopped by a fault shows it, and nothing more. -/
theorem next_of_fault (h : machine.Stops (some fault)) :
    (moving machine).next = (some (.error fault), ended) := by
  simp [Walk.next, h.1, h.2]

/-- A walk that has ended shows nothing. -/
theorem answer_ended (i : Nat) : ended.answer i = none := by
  induction i with
  | zero => rfl
  | succ i ih => exact ih

/-- A walk moves on as its machine makes steps. -/
theorem later_moving (h : machine.advance count = ⟨reached, none⟩) :
    (moving machine).later count = moving reached := by
  induction count generalizing machine with
  | zero =>
      cases h
      rfl
  | succ count ih =>
      obtain ⟨next, hstep, hrest⟩ := Machine.step_of_advance_succ h
      rw [later, next_of_step hstep]
      exact ih hrest

/-- A walk shows the states that its machine's steps lead to. -/
theorem answer_moving (h : machine.advance (count + 1) = ⟨reached, none⟩) :
    (moving machine).answer count = some (.ok reached.state) := by
  induction count generalizing machine with
  | zero =>
      obtain ⟨next, hstep, hrest⟩ := Machine.step_of_advance_succ h
      cases hrest
      rw [answer, later, next_of_step hstep]
  | succ count ih =>
      obtain ⟨next, hstep, hrest⟩ := Machine.step_of_advance_succ h
      rw [answer_succ, next_of_step hstep]
      exact ih hrest

/-! ## Lists of states -/

/-- What is listed of a run that has made so many steps when it ends, with a fault or without. -/
def listing (machine : Machine) (count : Nat) : Option Fault → Except Fault (List State)
  | none => .ok (machine.visited count)
  | some fault => .error fault

/-- A step is listed by the state before it. -/
theorem listing_succ (hstep : machine.step = ⟨next, none⟩) (count : Nat) (fault? : Option Fault) :
    listing machine (count + 1) fault? =
      (listing next count fault?).map (machine.state :: ·) := by
  cases fault? with
  | none => rw [listing, listing, Machine.visited_succ hstep]; rfl
  | some fault => rfl

/-- The list of a walk begins with the state of its machine. -/
theorem states_ready (bound : Nat) :
    (ready machine).states (bound + 1) =
      ((moving machine).states bound).map fun result => result.map (machine.state :: ·) := rfl

/-- After a step the list goes on as that of a walk from there. -/
theorem states_moving (hstep : machine.step = ⟨next, none⟩) (bound : Nat) :
    (moving machine).states (bound + 1) = (ready next).states (bound + 1) := by
  rw [states_ready, states, next_of_step hstep]

/-- A stopped machine is the whole list, unless it is stopped by a fault. -/
theorem states_of_stops {fault? : Option Fault} (h : machine.Stops fault?) (bound : Nat) :
    (ready machine).states (bound + 2) = some (listing machine 0 fault?) := by
  cases fault? with
  | none => rw [states_ready, states, next_of_normal h]; rfl
  | some fault => rw [states_ready, states, next_of_fault h]; rfl

/-- The states of a run that ends are listed. -/
theorem states_of_advance {fault? : Option Fault} (h : machine.advance count = ⟨reached, none⟩)
    (hstops : reached.Stops fault?) :
    (ready machine).states (count + 2) = some (listing machine count fault?) := by
  induction count generalizing machine with
  | zero =>
      cases h
      exact states_of_stops hstops 0
  | succ count ih =>
      obtain ⟨next, hstep, hrest⟩ := Machine.step_of_advance_succ h
      rw [states_ready, states_moving hstep, ih hrest, listing_succ hstep]
      rfl

/-- What is listed are the states of a run that ends. -/
theorem exists_advance_of_states {bound : Nat} {result : Except Fault (List State)}
    (h : (ready machine).states bound = some result) :
    ∃ count reached fault?, machine.advance count = ⟨reached, none⟩ ∧
      reached.Stops fault? ∧ result = listing machine count fault? := by
  induction bound generalizing machine result with
  | zero => cases h
  | succ bound ih =>
      rw [states_ready] at h
      cases bound with
      | zero => cases h
      | succ bound =>
          obtain ⟨next, hstep⟩ | ⟨fault, hstep⟩ := machine.step_cases
          · rw [states_moving hstep] at h
            obtain ⟨rest, hrest, rfl⟩ := Option.map_eq_some_iff.1 h
            obtain ⟨count, reached, fault?, hadvance, hstops, rfl⟩ := ih hrest
            exact ⟨count + 1, reached, fault?,
              (Machine.advance_succ_of_ok hstep count).trans hadvance, hstops,
              (listing_succ hstep count fault?).symm⟩
          · obtain ⟨fault?, hstops⟩ := Machine.exists_stops_of_step_fault hstep
            refine ⟨0, machine, fault?, rfl, hstops, ?_⟩
            rw [← states_ready, states_of_stops hstops] at h
            exact (Option.some.inj h).symm

/-- The states of a walk are listed exactly where the run of its machine ends. -/
theorem exists_states_iff {result : Except Fault (List State)} :
    (∃ bound, (ready machine).states bound = some result) ↔
      ∃ (halt : Halt) (count : Nat), machine.advance count = ⟨halt.machine, none⟩ ∧
        halt.machine.Stops halt.fault? ∧ result = listing machine count halt.fault? := by
  constructor
  · rintro ⟨bound, h⟩
    obtain ⟨count, reached, fault?, hadvance, hstops, hresult⟩ := exists_advance_of_states h
    exact ⟨⟨reached, fault?⟩, count, hadvance, hstops, hresult⟩
  · rintro ⟨halt, count, hadvance, hstops, rfl⟩
    exact ⟨count + 2, states_of_advance hadvance hstops⟩

end Walk

/-! ## Traces -/

namespace Trace

/-- The states of a trace are listed, or the fault at its end. -/
def Lists (trace : Trace) (result : Except Fault (List State)) : Prop :=
  ∃ bound, trace.states bound = some result

/-- What a trace shows, beside the run of a machine. -/
structure Shows (trace : Trace) (machine : Machine) : Prop where
  /-- A walk shows the start and then the states that steps lead to, as long as they are made. -/
  reached : ∀ i reached, machine.advance i = ⟨reached, none⟩ →
    trace.walk.answer i = some (.ok reached.state)
  /-- Up to the end of a run all steps are made. -/
  made : ∀ halt, machine.Returns halt →
    ∀ i, i ≤ halt.machine.steps → ∃ reached, machine.advance i = ⟨reached, none⟩
  /-- A run that does not return makes steps without an end. -/
  endless : (∀ halt, ¬ machine.Returns halt) →
    ∀ i, ∃ reached, machine.advance i = ⟨reached, none⟩
  /-- The fault that ends a run is shown after its last state, and nothing is after that. -/
  failed : ∀ last fault, machine.Returns ⟨last, some fault⟩ →
    trace.walk.answer (last.steps + 1) = some (.error fault) ∧
      ∀ i, last.steps + 1 < i → trace.walk.answer i = none
  /-- After a normal form that ends a run nothing is shown. -/
  finished : ∀ last, machine.Returns ⟨last, none⟩ →
    ∀ i, last.steps < i → trace.walk.answer i = none
  /-- Walks that are called in any order show the same, each by the calls that it has had. -/
  repeated : ∀ (calls : List Nat) (p walk : Nat), calls[p]? = some walk →
    (Walk.answers (fun _ => trace.walk) calls)[p]? =
      some (trace.walk.answer ((calls.take p).count walk))
  /-- All states are listed exactly where a run succeeds, and they are those that it visits. -/
  listed : ∀ states, trace.Lists (.ok states) ↔
    ∃ last, machine.Returns ⟨last, none⟩ ∧ states = machine.visited last.steps
  /-- The list has a state more than the run has steps. Only the last one is a normal form. -/
  visited : ∀ last, machine.Returns ⟨last, none⟩ →
    (machine.visited last.steps).length = last.steps + 1 ∧
      (machine.visited last.steps).getLast? = some last.state ∧
      last.state.isReducible = false ∧
      ∀ state ∈ (machine.visited last.steps).dropLast, state.isReducible = true
  /-- A fault is given instead of a list exactly where it ends the run. -/
  refused : ∀ fault, trace.Lists (.error fault) ↔ ∃ last, machine.Returns ⟨last, some fault⟩

variable {start : State} {limit : Option Nat}

/-- A new machine counts the steps that it makes. -/
theorem steps_of_advance_new {reached : Machine} {count : Nat}
    (h : (Machine.new start limit).advance count = ⟨reached, none⟩) : reached.steps = count := by
  rw [Machine.steps_of_advance h, Machine.new_eq, Nat.zero_add]

/-- The run of a new machine makes as many steps as it has counted in the end. -/
theorem returns_new_iff {halt : Halt} :
    (Machine.new start limit).Returns halt ↔
      (Machine.new start limit).advance halt.machine.steps = ⟨halt.machine, none⟩ ∧
        halt.machine.Stops halt.fault? := by
  rw [Machine.returns_iff_exists_advance]
  constructor
  · rintro ⟨count, hadvance, hstops⟩
    rw [steps_of_advance_new hadvance]
    exact ⟨hadvance, hstops⟩
  · exact fun h => ⟨_, h⟩

/-- A walk starts with a new machine. -/
theorem walk_eq (start : State) (limit : Option Nat) :
    walk ⟨start, limit⟩ = .ready (.new start limit) := by
  rw [Machine.new_eq]
  rfl

/-- After its first call, a walk answers as its machine moves. -/
theorem answer_walk_succ (i : Nat) :
    (walk ⟨start, limit⟩).answer (i + 1) =
      (Walk.moving (Machine.new start limit)).answer i := by
  rw [walk_eq]
  rfl

/-- After the steps of a run that returns, a walk answers as it does at their end. -/
theorem answer_walk_of_returns {halt : Halt} (h : (Machine.new start limit).Returns halt)
    (i : Nat) :
    (walk ⟨start, limit⟩).answer (halt.machine.steps + 1 + i) =
      (Walk.moving halt.machine).answer i := by
  rw [Nat.add_right_comm, answer_walk_succ, Walk.answer_add,
    Walk.later_moving (returns_new_iff.1 h).1]

/-- All states of a trace are listed exactly where the run of a new machine ends. -/
theorem lists_iff {result : Except Fault (List State)} :
    Lists ⟨start, limit⟩ result ↔
      ∃ halt, (Machine.new start limit).Returns halt ∧
        result = Walk.listing (Machine.new start limit) halt.machine.steps halt.fault? := by
  simp only [Lists, states, walk_eq, Walk.exists_states_iff]
  constructor
  · rintro ⟨halt, count, hadvance, hstops, rfl⟩
    refine ⟨halt, Machine.returns_iff_exists_advance.2 ⟨count, hadvance, hstops⟩, ?_⟩
    rw [steps_of_advance_new hadvance]
  · rintro ⟨halt, hreturns, rfl⟩
    obtain ⟨hadvance, hstops⟩ := returns_new_iff.1 hreturns
    exact ⟨halt, halt.machine.steps, hadvance, hstops, rfl⟩

end Trace

namespace Machine

/-- The trace of a machine shows the run of a new machine from where the machine is, under the
limit that the machine has. -/
theorem trace_shows_run (machine : Machine) :
    machine.trace.Shows (new machine.state machine.limit) where
  reached i reached h := by
    cases i with
    | zero =>
        cases h
        rw [new_eq]
        rfl
    | succ i => exact (Trace.answer_walk_succ i).trans (Walk.answer_moving h)
  made halt h i hle := exists_advance_of_le (Trace.returns_new_iff.1 h).1 hle
  endless h i := exists_advance_of_endless h i
  failed last fault h := by
    have hstops := (Trace.returns_new_iff.1 h).2
    have hnext := Walk.next_of_fault hstops
    refine ⟨?_, fun i hlt => ?_⟩
    · rw [← Nat.add_zero (last.steps + 1), trace, Trace.answer_walk_of_returns h, Walk.answer,
        Walk.later, hnext]
    · obtain ⟨rest, rfl⟩ : ∃ rest, i = last.steps + 1 + (rest + 1) :=
        ⟨i - (last.steps + 2), by omega⟩
      rw [trace, Trace.answer_walk_of_returns h, Walk.answer_succ, hnext, Walk.answer_ended]
  finished last h i hlt := by
    have hnext := Walk.next_of_normal (Trace.returns_new_iff.1 h).2
    obtain ⟨rest, rfl⟩ : ∃ rest, i = last.steps + 1 + rest := ⟨i - (last.steps + 1), by omega⟩
    rw [trace, Trace.answer_walk_of_returns h]
    cases rest with
    | zero => rw [Walk.answer, Walk.later, hnext]
    | succ rest => rw [Walk.answer_succ, hnext, Walk.answer_ended]
  repeated calls p walk h := Walk.getElem?_answers h
  listed states := by
    rw [trace, Trace.lists_iff]
    constructor
    · rintro ⟨⟨last, fault?⟩, hreturns, hresult⟩
      cases fault? with
      | none => exact ⟨last, hreturns, Except.ok.inj hresult⟩
      | some fault => cases hresult
    · rintro ⟨last, hreturns, rfl⟩
      exact ⟨⟨last, none⟩, hreturns, rfl⟩
  visited last h := by
    obtain ⟨hadvance, hnormal⟩ := Trace.returns_new_iff.1 h
    obtain ⟨hlength, hlast, hbefore⟩ := visited_of_advance hadvance
    exact ⟨hlength, hlast, by simpa [Stops, isNormal] using hnormal, hbefore⟩
  refused fault := by
    rw [trace, Trace.lists_iff]
    constructor
    · rintro ⟨⟨last, fault?⟩, hreturns, hresult⟩
      cases fault? with
      | none => cases hresult
      | some other =>
          cases hresult
          exact ⟨last, hreturns⟩
    · rintro ⟨last, hreturns⟩
      exact ⟨⟨last, some fault⟩, hreturns, rfl⟩

end Machine

end WhileLanguage
