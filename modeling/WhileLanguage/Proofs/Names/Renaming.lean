import Mathlib.Logic.Function.Basic
import WhileLanguage.Phrase
import WhileLanguage.SmallStep.Machine
import WhileLanguage.BigStep.Evaluation

/-!
# Renaming

A renaming gives every name another one, in phrases, in environments, in what runs come to, and in
faults. Read `Environment.get?_rename` first: if different names get different ones, the new name
has the value of the old one. The order of the bindings is another one after it.
-/

namespace WhileLanguage

/-- An expression with other names. -/
def Expr.rename (r : String → String) : Expr → Expr
  | literal v => literal v
  | var name => var (r name)
  | binary op left right => binary op (left.rename r) (right.rename r)

/-- A command with other names. -/
def Command.rename (r : String → String) : Command → Command
  | skip => skip
  | assign name value => assign (r name) (value.rename r)
  | branch condition yes no => branch (condition.rename r) (yes.rename r) (no.rename r)
  | seq first second => seq (first.rename r) (second.rename r)
  | loop condition body => loop (condition.rename r) (body.rename r)

/-- A phrase with other names. -/
def Phrase.rename (r : String → String) : Phrase → Phrase
  | expr e => expr (e.rename r)
  | command c => command (c.rename r)

/-- A fault with another name, if it is about one. -/
def Fault.rename (r : String → String) : Fault → Fault
  | unbound name => unbound (r name)
  | operands op left right => operands op left right
  | condition n => condition n
  | irreducible form => irreducible form
  | exhausted limit => exhausted limit

/-- An environment with other names for the same values. -/
def Environment.rename (r : String → String) (env : Environment) : Environment :=
  ofList (env.toList.map fun binding => (r binding.1, binding.2))

/-- What an evaluation comes to, with other names. -/
def Outcome.rename (r : String → String) : Outcome → Outcome
  | value v => value v
  | env final => env (final.rename r)

/-- A state with other names. -/
def State.rename (r : String → String) (state : State) : State :=
  ⟨state.phrase.rename r, state.env.rename r⟩

/-- A machine in a state with other names. -/
def Machine.rename (r : String → String) (machine : Machine) : Machine :=
  ⟨machine.state.rename r, machine.steps, machine.limit⟩

/-- A stopped machine with other names. -/
def Halt.rename (r : String → String) (halt : Halt) : Halt :=
  ⟨halt.machine.rename r, halt.fault?.map (Fault.rename r)⟩

/-! ## Phrases and faults -/

/-- A renaming that changes no name leaves an expression as it is. -/
theorem Expr.rename_id (e : Expr) : e.rename id = e := by
  induction e with
  | literal v => rfl
  | var name => rfl
  | binary op left right ihleft ihright => rw [rename, ihleft, ihright]

/-- A renaming that changes no name leaves a command as it is. -/
theorem Command.rename_id (c : Command) : c.rename id = c := by
  induction c with
  | skip => rfl
  | assign name value => rw [rename, Expr.rename_id, id]
  | branch condition yes no ihyes ihno => rw [rename, Expr.rename_id, ihyes, ihno]
  | seq first second ihfirst ihsecond => rw [rename, ihfirst, ihsecond]
  | loop condition body ih => rw [rename, Expr.rename_id, ih]

/-- A renaming that changes no name leaves a phrase as it is. -/
theorem Phrase.rename_id (p : Phrase) : p.rename id = p := by
  cases p with
  | expr e => rw [rename, Expr.rename_id]
  | command c => rw [rename, Command.rename_id]

/-- A renaming that changes no name leaves faults as they are. -/
theorem Fault.rename_id : Fault.rename id = id := by
  funext fault
  cases fault <;> rfl

/-- An expression is a literal or not whatever its names are. -/
theorem Expr.isReducible_rename {r : String → String} {e : Expr} :
    (e.rename r).isReducible = e.isReducible := by
  cases e <;> rfl

/-- A command has a step or not whatever its names are. -/
theorem Command.isReducible_rename {r : String → String} {c : Command} :
    (c.rename r).isReducible = c.isReducible := by
  cases c <;> rfl

/-- A phrase has a step or not whatever its names are. -/
theorem Phrase.isReducible_rename {r : String → String} {p : Phrase} :
    (p.rename r).isReducible = p.isReducible := by
  cases p with
  | expr e => exact Expr.isReducible_rename
  | command c => exact Command.isReducible_rename

/-! ## Environments -/

/-- Each name is bound once, so that a look-up may also begin at the end. -/
theorem Binding.Ordered.lookup_reverse {bindings : List Binding} (h : Binding.Ordered bindings)
    (name : String) : bindings.reverse.lookup name = bindings.lookup name := by
  induction bindings with
  | nil => rfl
  | cons head rest ih =>
      obtain ⟨hhead, hrest⟩ := List.pairwise_cons.1 h
      rw [List.reverse_cons, List.lookup_append, ih hrest, lookup_cons, lookup_cons]
      by_cases heq : name = head.1
      · rw [if_pos heq, if_pos heq, heq, lookup_eq_none_of_lt hhead, Option.none_or]
      · rw [if_neg heq, if_neg heq, List.lookup_nil, Option.or_none]

namespace Environment

variable {r : String → String} {env : Environment}

/-- A look-up in a renamed environment goes through the renamed bindings. -/
theorem get?_rename_eq_lookup (other : String) :
    (env.rename r).get? other =
      (env.toList.reverse.map fun binding => (r binding.1, binding.2)).lookup other := by
  rw [rename, get?_ofList, List.map_reverse]

/-- If different names get different ones, the new name has the value of the old one. -/
theorem get?_rename (hr : Function.Injective r) (name : String) :
    (env.rename r).get? (r name) = env.get? name := by
  rw [get?_rename_eq_lookup, get?_eq_lookup, ← env.toList_ordered.lookup_reverse]
  induction env.toList.reverse with
  | nil => rfl
  | cons head rest ih =>
      rw [List.map_cons, Binding.lookup_cons, Binding.lookup_cons, ih]
      simp only [hr.eq_iff]

/-- A name that no name gets has no value. -/
theorem get?_rename_of_forall_ne {other : String} (h : ∀ name, r name ≠ other) :
    (env.rename r).get? other = none := by
  rw [get?_rename_eq_lookup]
  induction env.toList.reverse with
  | nil => rfl
  | cons head rest ih => rw [List.map_cons, Binding.lookup_cons, if_neg (h head.1).symm, ih]

/-- If different names get different ones, a binding may be renamed before it is made. -/
theorem rename_insert (hr : Function.Injective r) (name : String) (v : Value) :
    (env.insert name v).rename r = (env.rename r).insert (r name) v := by
  refine ext_get? fun other => ?_
  rw [get?_insert]
  by_cases hother : ∃ old, r old = other
  · obtain ⟨old, rfl⟩ := hother
    simp only [get?_rename hr, get?_insert, hr.eq_iff]
  -- What is the new name of nothing has no value on either side.
  · have hne : ∀ old, r old ≠ other := fun old heq => hother ⟨old, heq⟩
    rw [get?_rename_of_forall_ne hne, get?_rename_of_forall_ne hne, if_neg (hne name).symm]

end Environment

end WhileLanguage
