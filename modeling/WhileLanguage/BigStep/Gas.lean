import WhileLanguage.Fault

/-!
# Evaluation that is charged for

An evaluation is charged one unit of gas for every node that it visits. The gas that has been
used goes through the evaluation and comes out of it even if it fails. A limit refuses the
unit that would pass it; that unit is counted all the same. Expressions are evaluated by a
`Charged` computation, which always has an outcome. A command may loop for ever, so it is
evaluated by a `Bounded` one, which has none if some loop makes more rounds than it may.
-/

namespace WhileLanguage

/-- A computation from the gas used before it to a result and the gas used after it. -/
abbrev Charged (α : Type) : Type :=
  ExceptT Fault (StateM Nat) α

/-- A charged computation that may be cut short, and then has no outcome. -/
abbrev Bounded (α : Type) : Type :=
  ExceptT Fault (StateT Nat Option) α

/-- A charged computation is a bounded one that is never cut short. -/
instance : MonadLift Charged Bounded where
  monadLift computation := fun used => some (computation used)

/-- Takes one unit of gas, and fails if that passes the limit. -/
def charge (limit : Option Nat) : Charged Unit := fun used =>
  match limit with
  | some limit => (if limit ≤ used then .error (.exhausted limit) else .ok (), used + 1)
  | none => (.ok (), used + 1)

/-- A result that costs nothing to give. -/
def Charged.ofExcept {α : Type} (result : Except Fault α) : Charged α := fun used =>
  (result, used)

/-- Repeats a body on its own results as long as a test holds of them, for `bound` tests. -/
def Bounded.iterate {α : Type} (test : α → Charged Bool) (body : α → Bounded α) :
    Nat → α → Bounded α
  | 0, _ => fun _ => none
  | bound + 1, a => do
      if ← test a then iterate test body bound (← body a) else return a

/-- Without a limit a unit of gas is never refused. -/
theorem charge_none {used : Nat} : charge none used = (.ok (), used + 1) := rfl

/-- A limit refuses the unit that would pass it. -/
theorem charge_some {limit used : Nat} :
    charge (some limit) used =
      (if limit ≤ used then .error (.exhausted limit) else .ok (), used + 1) := rfl

/-- A charged computation goes on with a value and the gas used for it, or ends with a fault. -/
theorem Charged.bind_apply {α β : Type} {x : Charged α} {f : α → Charged β} {used : Nat} :
    (x >>= f) used =
      match x used with
      | (.ok a, after) => f a after
      | (.error fault, after) => (.error fault, after) := by
  simp only [bind, ExceptT.bind, ExceptT.mk, StateT.bind]
  rcases x used with ⟨_ | _, _⟩ <;> rfl

/-- A bounded computation goes on as a charged one does, unless it has been cut short. -/
theorem Bounded.bind_apply {α β : Type} {x : Bounded α} {f : α → Bounded β} {used : Nat} :
    (x >>= f) used =
      match x used with
      | some (.ok a, after) => f a after
      | some (.error fault, after) => some (.error fault, after)
      | none => none := by
  simp only [bind, ExceptT.bind, ExceptT.mk, StateT.bind]
  rcases x used with _ | ⟨_ | _, _⟩ <;> rfl

/-- A charged computation has the same outcome where a bounded one is called for. -/
theorem Bounded.lift_apply {α : Type} {x : Charged α} {used : Nat} :
    (liftM x : Bounded α) used = some (x used) := rfl

end WhileLanguage
