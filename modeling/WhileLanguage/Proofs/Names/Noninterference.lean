import WhileLanguage.Proofs.Names.Correspondence
import WhileLanguage.Proofs.SmallStep.Histories

/-!
# What a command does not mention

Nothing that a command does depends on names that do not occur in it, and it leaves these as they
are: read `Command.noninterference`. Environments that agree on the names of a command go on to
agree on them, and keep all else as it was at the start, so they correspond, and evaluations and
machines that start in them match. What may come of two environments in this way is
`Environment.Undisturbed`.
-/

namespace WhileLanguage

namespace Environment

/-- Two environments agree on names if each of these has one value in both of them, or none. -/
def AgreesOn (names : List String) (left right : Environment) : Prop :=
  ∀ name ∈ names, left.get? name = right.get? name

/-- `first` and `second` agree on names, and have kept all other names as they are in `left` and in
`right`. -/
structure Undisturbed (names : List String) (left right first second : Environment) : Prop where
  agrees : first.AgreesOn names second
  keepsLeft : ∀ name, name ∉ names → first.get? name = left.get? name
  keepsRight : ∀ name, name ∉ names → second.get? name = right.get? name

variable {names : List String} {left right first second : Environment}

/-- At the start all names are as they were. -/
theorem AgreesOn.undisturbed (h : left.AgreesOn names right) :
    Undisturbed names left right left right where
  agrees := h
  keepsLeft _ _ := rfl
  keepsRight _ _ := rfl

/-- A name of the list may be bound to one value on both sides. -/
theorem Undisturbed.insert (h : Undisturbed names left right first second) {name : String}
    (hmem : name ∈ names) (v : Value) :
    Undisturbed names left right (first.insert name v) (second.insert name v) where
  agrees other hother := by
    rw [get?_insert, get?_insert, h.agrees other hother]
  keepsLeft other hother := by
    have hne : other ≠ name := fun heq => hother (heq ▸ hmem)
    rw [get?_insert, if_neg hne, h.keepsLeft other hother]
  keepsRight other hother := by
    have hne : other ≠ name := fun heq => hother (heq ▸ hmem)
    rw [get?_insert, if_neg hne, h.keepsRight other hother]

/-- What has come of the one environment fixes what has come of the other one. -/
theorem Undisturbed.unique {other : Environment}
    (h : Undisturbed names left right first second)
    (hother : Undisturbed names left right first other) : second = other := by
  refine ext_get? fun name => ?_
  by_cases hname : name ∈ names
  · rw [← h.agrees name hname, hother.agrees name hname]
  · rw [h.keepsRight name hname, hother.keepsRight name hname]

end Environment

/-- Environments that are undisturbed correspond, without a change of names. -/
def Correspondence.undisturbed (names : List String) (left right : Environment) :
    Correspondence id (· ∈ names) where
  related := Environment.Undisturbed names left right
  get?_eq h hname := (h.agrees _ hname).symm
  insert v h hname := h.insert hname v

/-- States of one phrase in environments that are undisturbed. -/
structure State.Undisturbed (names : List String) (left right : Environment)
    (first second : State) : Prop where
  phrase : first.phrase = second.phrase
  env : Environment.Undisturbed names left right first.env second.env

namespace Correspondence

variable {names : List String} {left right : Environment} {first second : State}

/-- States of one phrase with known names correspond in environments that are undisturbed. -/
theorem states_undisturbed_iff :
    (undisturbed names left right).States first second ↔
      first.phrase.names ⊆ names ∧ State.Undisturbed names left right first second := by
  unfold States
  rw [Phrase.rename_id]
  constructor
  · intro h
    obtain ⟨hphrase, hnames, henv⟩ := h
    exact ⟨hnames, hphrase.symm, henv⟩
  · intro h
    obtain ⟨hnames, hphrase, henv⟩ := h
    exact ⟨hphrase.symm, hnames, henv⟩

end Correspondence

namespace Command

/-- A command runs and is evaluated alike in environments that agree on its names. Under any limit,
or none, both runs come to the same phrase in every step, and both return after the same number of
steps, with the same fault if there is one, or none does. Both evaluations, by any evaluator, are
answered for the same gas, with the same fault if there is one, or none is. All along the
environments agree on the names of the command, and every other name is as it was at the start. -/
theorem noninterference {c : Command} {left right : Environment}
    (h : left.AgreesOn c.names right) :
    (∀ limit count, Halt.Matching id (State.Undisturbed c.names left right)
      ((Machine.new ⟨.command c, left⟩ limit).advance count)
      ((Machine.new ⟨.command c, right⟩ limit).advance count)) ∧
    (∀ limit bound, Option.Rel (Halt.Matching id (State.Undisturbed c.names left right))
      ((Machine.new ⟨.command c, left⟩ limit).run bound)
      ((Machine.new ⟨.command c, right⟩ limit).run bound)) ∧
    ∀ evaluator bound, Option.Rel
      (fun first second =>
        Matching id (Environment.Undisturbed c.names left right) first.1 second.1 ∧
          first.2 = second.2)
      (Evaluator.command bound evaluator c left) (Evaluator.command bound evaluator c right) := by
  have hlockstep := (Correspondence.undisturbed c.names left right).lockstep
  rw [Fault.rename_id] at hlockstep
  have hstart limit : (Machine.new ⟨.command c, left⟩ limit).Matching
      (Correspondence.undisturbed c.names left right).States
      (Machine.new ⟨.command c, right⟩ limit) := by
    rw [Machine.new_eq, Machine.new_eq]
    have hstates : State.Undisturbed c.names left right ⟨.command c, left⟩ ⟨.command c, right⟩ :=
      ⟨rfl, h.undisturbed⟩
    exact ⟨Correspondence.states_undisturbed_iff.2 ⟨List.Subset.refl _, hstates⟩, rfl, rfl⟩
  have hundisturbed first second
      (hstates : (Correspondence.undisturbed c.names left right).States first second) :=
    (Correspondence.states_undisturbed_iff.1 hstates).2
  refine ⟨fun limit count => ?steps, fun limit bound => ?run, fun evaluator bound => ?evaluation⟩
  case steps => exact (hlockstep.advance (hstart limit) count).imp hundisturbed
  case run => exact rel_imp (hlockstep.run (hstart limit) bound) fun _ _ h => h.imp hundisturbed
  case evaluation =>
    have hevaluate := (Correspondence.undisturbed c.names left right).evaluate_command
      h.undisturbed bound evaluator.limit fun name hname => hname
    rw [Fault.rename_id, rename_id] at hevaluate
    exact hevaluate.onAccount evaluator

/-- A loop goes through the same rounds beside two names that it does not mention, up to a limit of
nine steps as well, and an evaluation in the second environment takes the gas of the first. -/
theorem noninterference_beside_spare_names :
    let shared := Environment.empty.insert "i" (.number 0)
    let left := shared.insert "spare" (.number 7)
    let right := shared.insert "other" (.boolean true)
    let raise : Command := .assign "i" (.binary .add (.var "i") (.literal (.number 1)))
    let c : Command := .loop (.binary .lessThan (.var "i") (.literal (.number 2)))
      (.seq (.assign "last" (.var "i")) raise)
    left.AgreesOn c.names right ∧
      Halt.Matching id (State.Undisturbed c.names left right)
        ((Machine.new ⟨.command c, left⟩ (some 9)).advance 12)
        ((Machine.new ⟨.command c, right⟩ (some 9)).advance 12) ∧
      (∃ halt, (Machine.new ⟨.command c, right⟩ none).run 27 = some halt ∧
        halt.machine.steps = 26) ∧
      ∃ final, ({} : Evaluator).command 3 c right = some (.ok final, ⟨24, none⟩) ∧
        final.get? "last" = some (.number 1) ∧ final.get? "spare" = none := by
  intro shared left right raise c
  have h : left.AgreesOn c.names right := by
    unfold Environment.AgreesOn
    decide
  obtain ⟨hsteps, hrun, hevaluate⟩ := noninterference h
  refine ⟨h, hsteps (some 9) 12, ?run, ?evaluation⟩
  case run =>
    have hleft : ∃ halt, (Machine.new ⟨.command c, left⟩ none).run 27 = some halt ∧
        halt.machine.steps = 26 := ⟨_, rfl, rfl⟩
    obtain ⟨halt, hhalt, hcount⟩ := hleft
    obtain ⟨other, hother, hmatch⟩ := exists_some_of_rel (hrun none 27) hhalt
    exact ⟨other, hother, hmatch.machine.steps ▸ hcount⟩
  case evaluation =>
    have hleft : ∃ final, ({} : Evaluator).command 3 c left = some (.ok final, ⟨24, none⟩) ∧
        final.get? "last" = some (.number 1) := ⟨_, rfl, rfl⟩
    obtain ⟨final, hfinal, hlast⟩ := hleft
    obtain ⟨⟨result, after⟩, hright, hresult, rfl⟩ := exists_some_of_rel (hevaluate {} 3) hfinal
    obtain ⟨other, rfl, hundisturbed⟩ := hresult.exists_ok
    have hknown : "last" ∈ c.names := by decide
    have hspare : "spare" ∉ c.names := by decide
    refine ⟨other, hright, ?_, hundisturbed.keepsRight "spare" hspare⟩
    rw [← hundisturbed.agrees "last" hknown, hlast]

end Command

end WhileLanguage
