import WhileLanguage.Proofs.SmallStep.Frames
import WhileLanguage.Proofs.SmallStep.Traces

/-!
# Traces inside frames

Without a limit the items of a trace are told by reductions alone: read `State.item_eq_ok_iff` and
`State.item_eq_error_iff`. The trace of a state that reductions lead to is the rest of the trace of
their start, by `State.item_add`. So what a frame does to reductions it does to traces: read
`Frame.traces_compose`, which says how the trace of a whole phrase begins with that of the phrase
in its place, and how the trace of a sequence goes on.
-/

namespace WhileLanguage

/-- A state has a next one, or something stops it. -/
theorem State.reduces_or_stops (state : State) :
    (∃ next, state.reduce = .ok next) ∨ ∃ fault?, state.Stops fault? := by
  cases hreduce : state.reduce with
  | ok next => exact .inl ⟨next, rfl⟩
  | error fault =>
      cases hreducible : state.isReducible with
      | false => exact .inr ⟨none, hreducible⟩
      | true => exact .inr ⟨some fault, hreducible, hreduce⟩

/-! ## Walks without a limit -/

namespace Walk

variable {state next : State}

/-- Without a limit, a walk that moves shows the next state as long as there is one. -/
theorem next_of_reduce (h : state.reduce = .ok next) (steps : Nat) :
    (moving ⟨state, steps, none⟩).next = (some (.ok next), moving ⟨next, steps + 1, none⟩) := by
  have hallows : Machine.Allows ⟨state, steps, none⟩ 1 := Machine.allows_of_limit_eq_none rfl 1
  exact next_of_step (Machine.step_of_reduce hallows h)

/-- Without a limit, a walk that moves ends where its state is stopped, and shows the fault. -/
theorem next_of_stops {fault? : Option Fault} (h : state.Stops fault?) (steps : Nat) :
    (moving ⟨state, steps, none⟩).next = (fault?.map .error, ended) := by
  have hallows : Machine.Allows ⟨state, steps, none⟩ 1 := Machine.allows_of_limit_eq_none rfl 1
  have hstops := (Machine.stops_iff_of_allows hallows).2 h
  cases fault? with
  | none => exact next_of_normal hstops
  | some fault => exact next_of_fault hstops

/-- Without a limit, a walk that has come to a stopped state answers with the fault, and then
ends. -/
theorem answer_of_stops {fault? : Option Fault} (h : state.Stops fault?) (steps i : Nat) :
    (moving ⟨state, steps, none⟩).answer i = if i = 0 then fault?.map .error else none := by
  cases i with
  | zero =>
      show (moving _).next.1 = fault?.map .error
      rw [next_of_stops h]
  | succ i => rw [answer_succ, next_of_stops h, answer_ended, if_neg (Nat.succ_ne_zero i)]

/-- Without a limit, a walk that moves answers alike whatever steps have been counted. -/
theorem answer_moving_unlimited (state : State) (steps others i : Nat) :
    (moving ⟨state, steps, none⟩).answer i = (moving ⟨state, others, none⟩).answer i := by
  induction i generalizing state steps others with
  | zero =>
      obtain ⟨next, hreduce⟩ | ⟨fault?, hstops⟩ := state.reduces_or_stops
      · show (moving _).next.1 = (moving _).next.1
        rw [next_of_reduce hreduce steps, next_of_reduce hreduce others]
      · rw [answer_of_stops hstops, answer_of_stops hstops]
  | succ i ih =>
      obtain ⟨next, hreduce⟩ | ⟨fault?, hstops⟩ := state.reduces_or_stops
      · rw [answer_succ, answer_succ, next_of_reduce hreduce steps, next_of_reduce hreduce others]
        exact ih next (steps + 1) (others + 1)
      · rw [answer_of_stops hstops, answer_of_stops hstops]

end Walk

/-! ## Items of a trace -/

namespace State

/-- What a walk along the trace of a run without a limit answers after so many other calls. -/
def item (start : State) (i : Nat) : Option Trace.Item :=
  (Machine.ofState start).trace.walk.answer i

variable {start next reached : State} {count i : Nat} {fault : Fault}

/-- After a reduction the trace goes on as that of the next state. -/
theorem item_succ_of_reduce (h : start.reduce = .ok next) (i : Nat) :
    start.item (i + 1) = next.item i := by
  show (Walk.moving ⟨start, 0, none⟩).answer i = next.item i
  cases i with
  | zero =>
      show (Walk.moving ⟨start, 0, none⟩).next.1 = some (.ok next)
      rw [Walk.next_of_reduce h]
  | succ i =>
      show _ = (Walk.moving ⟨next, 0, none⟩).answer i
      rw [Walk.answer_succ, Walk.next_of_reduce h]
      exact Walk.answer_moving_unlimited next 1 0 i

/-- What stops a state is the last item of its trace, if it is a fault. -/
theorem item_succ_of_stops {fault? : Option Fault} (h : start.Stops fault?) (i : Nat) :
    start.item (i + 1) = if i = 0 then fault?.map .error else none :=
  Walk.answer_of_stops h 0 i

/-- The trace of a state that reductions lead to is the rest of the trace of their start. -/
theorem item_add (h : start.after count = .ok reached) (i : Nat) :
    start.item (count + i) = reached.item i := by
  induction count generalizing start with
  | zero =>
      obtain rfl := Except.ok.inj h
      rw [Nat.zero_add]
  | succ count ih =>
      obtain ⟨next, hreduce, hrest⟩ := reduce_of_after_succ h
      rw [Nat.succ_add, item_succ_of_reduce hreduce]
      exact ih hrest

/-- The states of a trace are those that reductions lead to. -/
theorem item_eq_ok_iff : start.item i = some (.ok reached) ↔ start.after i = .ok reached := by
  constructor
  · intro h
    induction i generalizing start with
    | zero => exact congrArg Except.ok (Except.ok.inj (Option.some.inj h))
    | succ i ih =>
        obtain ⟨next, hreduce⟩ | ⟨fault?, hstops⟩ := start.reduces_or_stops
        · rw [item_succ_of_reduce hreduce] at h
          rw [after_succ_of_ok hreduce]
          exact ih h
        · rw [item_succ_of_stops hstops] at h
          split at h
          · cases fault? <;> cases h
          · cases h
  · intro h
    exact item_add h 0

/-- The fault of a trace follows the state that it stops. -/
theorem item_eq_error_iff :
    start.item i = some (.error fault) ↔
      ∃ count last, i = count + 1 ∧ start.after count = .ok last ∧ last.Stops (some fault) := by
  constructor
  · intro h
    induction i generalizing start with
    | zero => cases h
    | succ i ih =>
        obtain ⟨next, hreduce⟩ | ⟨fault?, hstops⟩ := start.reduces_or_stops
        · rw [item_succ_of_reduce hreduce] at h
          obtain ⟨count, last, rfl, hafter, hlast⟩ := ih h
          exact ⟨count + 1, last, rfl, (after_succ_of_ok hreduce count).trans hafter, hlast⟩
        · rw [item_succ_of_stops hstops] at h
          split at h
          case isTrue hzero =>
            obtain ⟨other, rfl, heq⟩ := Option.map_eq_some_iff.1 h
            cases heq
            exact ⟨0, start, by rw [hzero], rfl, hstops⟩
          case isFalse => cases h
  · intro h
    obtain ⟨count, last, rfl, hafter, hlast⟩ := h
    rw [item_add hafter, item_succ_of_stops hlast]
    rfl

/-- Nothing follows the fault of a trace. -/
theorem item_eq_none_of_error (h : start.item i = some (.error fault)) {j : Nat} (hlt : i < j) :
    start.item j = none := by
  obtain ⟨count, last, rfl, hafter, hlast⟩ := item_eq_error_iff.1 h
  obtain ⟨rest, rfl⟩ : ∃ rest, j = count + (rest + 1 + 1) := ⟨j - (count + 2), by omega⟩
  rw [item_add hafter, item_succ_of_stops hlast, if_neg (Nat.succ_ne_zero rest)]

end State

/-! ## Frames -/

namespace Frame

/-- The trace of a phrase in a frame begins with the trace of the phrase alone. Every state of that
trace is an item of the whole one, with the frame around its phrase and the same environment. Where
the phrase alone ends with a fault, the whole ends with it. Where the first part of a sequence has
nothing left to do, the trace of the whole goes on as that of the second part in the environment
that has come of the first. -/
theorem traces_compose {frame : Frame} {p whole : Phrase} (h : frame.fill p = some whole)
    (env : Environment) :
    (∀ i state, State.item ⟨p, env⟩ i = some (.ok state) →
      ∃ outer, frame.Fills state outer ∧ State.item ⟨whole, env⟩ i = some (.ok outer)) ∧
    (∀ i fault, State.item ⟨p, env⟩ i = some (.error fault) →
      State.item ⟨whole, env⟩ i = some (.error fault) ∧
        ∀ j, i < j → State.item ⟨whole, env⟩ j = none) ∧
    ∀ second, frame = first second → ∀ i final,
      State.item ⟨p, env⟩ i = some (.ok ⟨.command .skip, final⟩) →
        ∀ j, State.item ⟨whole, env⟩ (i + 1 + j) = State.item ⟨.command second, final⟩ j := by
  have hfills : frame.Fills ⟨p, env⟩ ⟨whole, env⟩ := ⟨h, rfl⟩
  refine ⟨fun i state hitem => ?states, fun i fault hitem => ?fault,
    fun second hfirst i final hitem j => ?rest⟩
  case states =>
    obtain ⟨outer, houter, hstate⟩ := hfills.after (State.item_eq_ok_iff.1 hitem)
    exact ⟨outer, hstate, State.item_eq_ok_iff.2 houter⟩
  case fault =>
    obtain ⟨count, last, rfl, hafter, hlast⟩ := State.item_eq_error_iff.1 hitem
    obtain ⟨outer, houter, hstate⟩ := hfills.after hafter
    have hwhole := State.item_eq_error_iff.2 ⟨count, outer, rfl, houter, hstate.stops hlast⟩
    exact ⟨hwhole, fun j hlt => State.item_eq_none_of_error hwhole hlt⟩
  case rest =>
    subst hfirst
    obtain ⟨⟨phrase, other⟩, houter, hfill, rfl⟩ := hfills.after (State.item_eq_ok_iff.1 hitem)
    cases hfill
    rw [Nat.add_assoc, State.item_add houter, Nat.add_comm 1 j]
    exact State.item_succ_of_reduce rfl j

/-- With `a` bound to three, `b = true < a` ends with the fault of its expression, after a step to
look up `a`. In `a = 1 + 2; b = true < a` the first part goes on up to that binding, with the second
part behind it, and the whole then ends as the second part alone. -/
theorem traces_compose_of_sequence :
    let e : Expr := .binary .lessThan (.literal (.boolean true)) (.var "a")
    let part : Command :=
      .assign "a" (.binary .add (.literal (.number 1)) (.literal (.number 2)))
    let second : Command := .assign "b" e
    let bound := Environment.empty.insert "a" (.number 3)
    let fault : Fault := .operands .lessThan .boolean .number
    (assigned "b").fill (.expr e) = some (.command second) ∧
      State.item ⟨.command second, bound⟩ 2 = some (.error fault) ∧
      (∀ j, 2 < j → State.item ⟨.command second, bound⟩ j = none) ∧
      (first second).fill (.command part) = some (.command (.seq part second)) ∧
      State.item ⟨.command (.seq part second), .empty⟩ 2 =
        some (.ok ⟨.command (.seq .skip second), bound⟩) ∧
      State.item ⟨.command (.seq part second), .empty⟩ 5 = some (.error fault) := by
  intro e part second bound fault
  have hassigned : (assigned "b").fill (.expr e) = some (.command second) := rfl
  have hfirst : (first second).fill (.command part) = some (.command (.seq part second)) := rfl
  obtain ⟨-, hfault, -⟩ := traces_compose hassigned bound
  obtain ⟨hitem, hend⟩ := hfault 2 fault rfl
  obtain ⟨hstates, -, hrest⟩ := traces_compose hfirst .empty
  have hdone : State.item ⟨.command part, .empty⟩ 2 = some (.ok ⟨.command .skip, bound⟩) := rfl
  refine ⟨hassigned, hitem, hend, hfirst, ?_, ?_⟩
  · obtain ⟨⟨phrase, env⟩, ⟨hfill, henv⟩, houter⟩ := hstates 2 _ hdone
    cases hfill
    cases henv
    exact houter
  · exact (hrest second rfl 2 bound hdone 2).trans hitem

end Frame

end WhileLanguage
