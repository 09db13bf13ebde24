import WhileLanguage.Proofs.SmallStep.Runs

/-!
# Frames

A frame is a phrase with one place left open, at which the steps of the whole phrase are made
until the phrase in that place is a normal form. Read `Frame.Fills.reduce` first: with a
phrase that has a step in its place, the whole makes the same step or fails with it. So
`Frame.Fills.after` lifts any number of reductions into a frame.
-/

namespace WhileLanguage

/-- A phrase with a place where its steps are made. -/
inductive Frame where
  | left (op : Operator) (other : Expr)
  | right (op : Operator) (value : Value)
  | assigned (name : String)
  | tested (yes no : Command)
  | first (second : Command)
deriving DecidableEq

namespace Frame

/-- A frame with a phrase in its place, if the phrase is of the sort that the place takes. -/
def fill : Frame → Phrase → Option Phrase
  | left op other, .expr e => some (.expr (.binary op e other))
  | right op v, .expr e => some (.expr (.binary op (.literal v) e))
  | assigned name, .expr e => some (.command (.assign name e))
  | tested yes no, .expr e => some (.command (.branch e yes no))
  | first second, .command c => some (.command (.seq c second))
  | _, _ => none

/-- The outer state is the frame around the inner one, in the same environment. -/
def Fills (frame : Frame) (inner outer : State) : Prop :=
  frame.fill inner.phrase = some outer.phrase ∧ outer.env = inner.env

/-- An assignment is a frame around its expression. -/
theorem fills_assigned (name : String) (value : Expr) (env : Environment) :
    (assigned name).Fills ⟨.expr value, env⟩ ⟨.command (.assign name value), env⟩ :=
  ⟨rfl, rfl⟩

/-- A branch is a frame around its condition. -/
theorem fills_tested (condition : Expr) (yes no : Command) (env : Environment) :
    (tested yes no).Fills ⟨.expr condition, env⟩ ⟨.command (.branch condition yes no), env⟩ :=
  ⟨rfl, rfl⟩

/-- A sequence is a frame around its first part. -/
theorem fills_first (part second : Command) (env : Environment) :
    (first second).Fills ⟨.command part, env⟩ ⟨.command (.seq part second), env⟩ :=
  ⟨rfl, rfl⟩

end Frame

/-! ## Steps in a place -/

section Places

variable {env : Environment}

/-- A left operand that has a step makes it. -/
theorem Expr.reduce_left {op : Operator} {left right : Expr} (h : left.isReducible = true) :
    (binary op left right).reduce env = (left.reduce env).map (binary op · right) := by
  cases left <;> simp_all [isReducible, reduce]

/-- A right operand that has a step makes it once the left one is a value. -/
theorem Expr.reduce_right {op : Operator} {v : Value} {right : Expr}
    (h : right.isReducible = true) :
    (binary op (literal v) right).reduce env =
      (right.reduce env).map (binary op (literal v)) := by
  cases right <;> simp_all [isReducible, reduce]

/-- An assigned expression that has a step makes it. -/
theorem Command.reduce_assign {name : String} {value : Expr} (h : value.isReducible = true) :
    (assign name value).reduce env =
      (value.reduce env).map fun value => (assign name value, env) := by
  cases value <;> simp_all [Expr.isReducible, reduce]

/-- A condition that has a step makes it. -/
theorem Command.reduce_branch {condition : Expr} {yes no : Command}
    (h : condition.isReducible = true) :
    (branch condition yes no).reduce env =
      (condition.reduce env).map fun condition => (branch condition yes no, env) := by
  cases condition <;> simp_all [Expr.isReducible, reduce]

/-- The first part of a sequence makes its step if it has one. -/
theorem Command.reduce_seq {first second : Command} (h : first.isReducible = true) :
    (seq first second).reduce env =
      (first.reduce env).map fun next => (seq next.1 second, next.2) := by
  cases first <;> simp_all [isReducible, reduce]

end Places

namespace Frame.Fills

variable {frame : Frame} {inner outer : State}

/-- A frame makes the step of the phrase in its place, and fails where that does. -/
theorem reduce (h : frame.Fills inner outer) (hreducible : inner.isReducible = true) :
    match inner.reduce with
    | .ok next => ∃ result, outer.reduce = .ok result ∧ frame.Fills next result
    | .error fault => outer.reduce = .error fault := by
  obtain ⟨phrase, other⟩ := inner
  obtain ⟨whole, env⟩ := outer
  obtain ⟨hfill, rfl⟩ := h
  -- The first part of a sequence is the only place that is held by a command.
  cases phrase with
  | expr e =>
      have hreducible : e.isReducible = true := hreducible
      cases frame <;> cases hfill <;>
        simp only [State.reduce, Expr.reduce_left hreducible, Expr.reduce_right hreducible,
          Command.reduce_assign hreducible, Command.reduce_branch hreducible] <;>
        cases e.reduce env <;> simp [Except.map, Fills, fill]
  | command c =>
      have hreducible : c.isReducible = true := hreducible
      cases frame <;> cases hfill
      simp only [State.reduce, Command.reduce_seq hreducible]
      cases c.reduce env <;> simp [Except.map, Fills, fill]

/-- Reductions in the place of a frame are reductions of the whole. -/
theorem after (h : frame.Fills inner outer) {count : Nat} {last : State}
    (hafter : inner.after count = .ok last) :
    ∃ result, outer.after count = .ok result ∧ frame.Fills last result := by
  induction count generalizing inner outer with
  | zero =>
      obtain rfl := Except.ok.inj hafter
      exact ⟨outer, rfl, h⟩
  | succ count ih =>
      obtain ⟨next, hstep, hrest⟩ := State.reduce_of_after_succ hafter
      have hreduce := h.reduce (State.isReducible_of_reduce hstep)
      rw [hstep] at hreduce
      obtain ⟨whole, hwhole, hnext⟩ := hreduce
      obtain ⟨result, hresult, hlast⟩ := ih hnext hrest
      exact ⟨result, (State.after_succ_of_ok hwhole count).trans hresult, hlast⟩

/-- A whole phrase is never a normal form. -/
theorem isReducible (h : frame.Fills inner outer) : outer.isReducible = true := by
  obtain ⟨phrase, env⟩ := inner
  obtain ⟨whole, other⟩ := outer
  obtain ⟨hfill, -⟩ := h
  cases phrase <;> cases frame <;> cases hfill <;> rfl

/-- A fault in the place of a frame stops the whole. -/
theorem stops (h : frame.Fills inner outer) {fault : Fault}
    (hstops : inner.Stops (some fault)) : outer.Stops (some fault) := by
  have hreduce := h.reduce hstops.1
  rw [hstops.2] at hreduce
  exact ⟨h.isReducible, hreduce⟩

end Frame.Fills

end WhileLanguage
