import WhileLanguage.Proofs.BigStep.Metering
import WhileLanguage.Proofs.Matching
import WhileLanguage.Proofs.Names.Renaming
import WhileLanguage.Proofs.SmallStep.Steps

/-!
# Environments that correspond

Names of a phrase are only looked up and bound. So a phrase runs alike, up to a renaming, in any
two environments of a relation that look-ups and bindings of its names respect: such a relation is
a `Correspondence`. Read `Correspondence.evaluate_command` and `Correspondence.lockstep`, which say
so of evaluations and of machines.
-/

namespace WhileLanguage

/-- A relation between environments in which known names have the values that their new names
have, and which is kept if both are bound to one value. -/
structure Correspondence (r : String → String) (known : String → Prop) where
  /-- The environments that correspond. -/
  related : Environment → Environment → Prop
  get?_eq : ∀ {left right name}, related left right → known name →
    right.get? (r name) = left.get? name
  insert : ∀ {left right name} (v : Value), related left right → known name →
    related (left.insert name v) (right.insert (r name) v)

namespace Correspondence

variable {r : String → String} {known : String → Prop} (K : Correspondence r known)
  {left right : Environment}

/-- States of a phrase with known names and of the renamed one, in environments that correspond. -/
def States (left right : State) : Prop :=
  right.phrase = left.phrase.rename r ∧ (∀ name ∈ left.phrase.names, known name) ∧
    K.related left.env right.env

/-- What fails with faults that are about no name matches itself. -/
theorem matching_self {α : Type} {x : Except Fault α}
    (h : ∀ fault, x = .error fault → fault.rename r = fault) :
    Matching (Fault.rename r) Eq x x := by
  cases x with
  | ok a => exact .ok rfl
  | error fault =>
      have herror : Matching (Fault.rename r) (Eq : α → α → Prop) _ _ := .error fault
      rwa [h fault rfl] at herror

/-- An operator has no names, and its faults neither. -/
theorem matching_apply (op : Operator) (a b : Value) :
    Matching (Fault.rename r) Eq (op.apply a b) (op.apply a b) :=
  matching_self fun fault h => by
    obtain rfl := Operator.fault_of_apply h
    rfl

/-- Whether a value holds has nothing to do with names. -/
theorem matching_truth (v : Value) : Matching (Fault.rename r) Eq v.truth v.truth :=
  matching_self fun fault h => by
    cases v <;> cases h
    rfl

/-- A unit of gas has no name. -/
theorem matching_charge (limit : Option Nat) :
    Bounded.Matching (Fault.rename r) Eq (liftM (charge limit)) (liftM (charge limit)) :=
  .charge (fun _ => rfl) limit

include K

/-- A known name is looked up alike. -/
theorem lookup (h : K.related left right) {name : String} (hname : known name) :
    Matching (Fault.rename r) Eq (left.lookup name) (right.lookup (r name)) := by
  unfold Environment.lookup
  rw [K.get?_eq h hname]
  cases left.get? name with
  | some v => exact .ok rfl
  | none => exact .error (.unbound name)

/-! ## Evaluations -/

/-- Expressions are evaluated alike in environments that correspond. -/
theorem evaluate_expr (h : K.related left right) (limit : Option Nat) {e : Expr}
    (hnames : ∀ name ∈ e.names, known name) :
    Bounded.Matching (Fault.rename r) Eq (liftM (e.evaluate limit left))
      (liftM ((e.rename r).evaluate limit right)) := by
  induction e with
  | literal v =>
      simp only [Expr.rename, Expr.evaluate, Bounded.lift_bind]
      exact .bind (matching_charge limit) fun _ _ _ => .free (.ok rfl) (fun _ => rfl) fun _ => rfl
  | var name =>
      simp only [Expr.rename, Expr.evaluate, Bounded.lift_bind]
      have hlookup := K.lookup h (hnames name (List.mem_singleton_self name))
      exact .bind (matching_charge limit) fun _ _ _ => .free hlookup (fun _ => rfl) fun _ => rfl
  | binary op first second ihfirst ihsecond =>
      simp only [Expr.rename, Expr.evaluate, Bounded.lift_bind]
      have hfirst := ihfirst fun name hname => hnames name (List.mem_append_left _ hname)
      have hsecond := ihsecond fun name hname => hnames name (List.mem_append_right _ hname)
      refine .bind (matching_charge limit) fun _ _ _ => .bind hfirst fun a _ ha => ?_
      subst ha
      refine .bind hsecond fun b _ hb => ?_
      subst hb
      exact .free (matching_apply op a b) (fun _ => rfl) fun _ => rfl

/-- Expressions denote the same in environments that correspond. -/
theorem denote (h : K.related left right) {e : Expr} (hnames : ∀ name ∈ e.names, known name) :
    Matching (Fault.rename r) Eq (e.denote left) ((e.rename r).denote right) := by
  have hevaluate := K.evaluate_expr h none hnames 0
  rw [Bounded.lift_apply, Bounded.lift_apply, Expr.evaluate_none, Expr.evaluate_none] at hevaluate
  cases hevaluate with
  | some hmatch => exact hmatch.1

/-- Conditions hold alike in environments that correspond. -/
theorem holds (h : K.related left right) (limit : Option Nat) {condition : Expr}
    (hnames : ∀ name ∈ condition.names, known name) :
    Bounded.Matching (Fault.rename r) Eq (liftM (condition.holds limit left))
      (liftM ((condition.rename r).holds limit right)) := by
  simp only [Expr.holds, Bounded.lift_bind]
  refine .bind (K.evaluate_expr h limit hnames) fun v _ hv => ?_
  subst hv
  exact .free (matching_truth v) (fun _ => rfl) fun _ => rfl

/-- Commands are evaluated alike in environments that correspond. -/
theorem evaluate_command (h : K.related left right) (bound : Nat) (limit : Option Nat)
    {c : Command} (hnames : ∀ name ∈ c.names, known name) :
    Bounded.Matching (Fault.rename r) K.related (c.evaluate bound limit left)
      ((c.rename r).evaluate bound limit right) := by
  induction c generalizing left right with
  | skip =>
      exact .bind (matching_charge limit) fun _ _ _ => .free (.ok h) (fun _ => rfl) fun _ => rfl
  | assign name value =>
      have hname := hnames name List.mem_cons_self
      have hvalue := K.evaluate_expr h limit fun name hname =>
        hnames name (List.mem_cons_of_mem _ hname)
      refine .bind (matching_charge limit) fun _ _ _ => .bind hvalue fun v _ hv => ?_
      subst hv
      exact .free (.ok (K.insert v h hname)) (fun _ => rfl) fun _ => rfl
  | branch condition yes no ihyes ihno =>
      have hcondition := K.holds h limit fun name hname =>
        hnames name (List.mem_append_left _ (List.mem_append_left _ hname))
      refine .bind (matching_charge limit) fun _ _ _ => .bind hcondition fun holds _ hholds => ?_
      subst hholds
      cases holds with
      | true =>
          exact ihyes h fun name hname =>
            hnames name (List.mem_append_left _ (List.mem_append_right _ hname))
      | false => exact ihno h fun name hname => hnames name (List.mem_append_right _ hname)
  | seq first second ihfirst ihsecond =>
      have hfirst := ihfirst h fun name hname => hnames name (List.mem_append_left _ hname)
      refine .bind (matching_charge limit) fun _ _ _ => .bind hfirst fun middle other hmiddle => ?_
      exact ihsecond hmiddle fun name hname => hnames name (List.mem_append_right _ hname)
  | loop condition body ih =>
      -- The environments change from round to round, and correspond before each of them.
      refine .bind (matching_charge limit) fun _ _ _ => .iterate (fun a b hab => ?test)
        (fun a b hab => ?body) bound h
      case test =>
        exact K.holds hab limit fun name hname => hnames name (List.mem_append_left _ hname)
      case body => exact ih hab fun name hname => hnames name (List.mem_append_right _ hname)

/-! ## Reductions -/

/-- Expressions make the same step in environments that correspond. -/
theorem reduce_expr (h : K.related left right) {e : Expr}
    (hnames : ∀ name ∈ e.names, known name) :
    Matching (Fault.rename r) (fun next other => other = next.rename r) (e.reduce left)
      ((e.rename r).reduce right) := by
  fun_induction Expr.reduce left e with
  | case1 v => exact .error (.irreducible (.value v))
  | case2 name =>
      have hlookup := K.lookup h (hnames name (List.mem_singleton_self name))
      exact hlookup.map fun v other _ hv => by rw [hv]; rfl
  | case3 op a b => exact (matching_apply op a b).map fun v other _ hv => by rw [hv]; rfl
  | case4 op a second hsecond ih =>
      -- The renamed operand is no literal either, so the step is made in it.
      have hreducible := Expr.isReducible_of_forall_ne hsecond
      rw [← Expr.isReducible_rename (r := r)] at hreducible
      rw [Expr.rename, Expr.rename, Expr.reduce_right hreducible]
      refine (ih fun name hname => hnames name hname).map fun next other _ hnext => ?_
      rw [hnext, Expr.rename, Expr.rename]
  | case5 op first second _ hfirst ih =>
      have hreducible := Expr.isReducible_of_forall_ne hfirst
      rw [← Expr.isReducible_rename (r := r)] at hreducible
      rw [Expr.rename, Expr.reduce_left hreducible]
      refine (ih fun name hname => hnames name (List.mem_append_left _ hname)).map
        fun next other _ hnext => ?_
      rw [hnext, Expr.rename]

/-- Commands make the same step in environments that correspond, to environments that do. -/
theorem reduce_command (h : K.related left right) {c : Command}
    (hnames : ∀ name ∈ c.names, known name) :
    Matching (Fault.rename r)
      (fun next other => other.1 = next.1.rename r ∧ K.related next.2 other.2) (c.reduce left)
      ((c.rename r).reduce right) := by
  fun_induction Command.reduce left c with
  | case1 => exact .error (.irreducible .done)
  | case2 name v => exact .ok ⟨rfl, K.insert v h (hnames name List.mem_cons_self)⟩
  | case3 name value hvalue =>
      have hreducible := Expr.isReducible_of_forall_ne hvalue
      rw [← Expr.isReducible_rename (r := r)] at hreducible
      rw [Command.rename, Command.reduce_assign hreducible]
      refine (K.reduce_expr h fun name hname => hnames name (List.mem_cons_of_mem _ hname)).map
        fun next other _ hnext => ?_
      exact ⟨by rw [hnext, Command.rename], h⟩
  | case4 v yes no =>
      refine (matching_truth v).map fun holds other _ hholds => ?_
      subst hholds
      exact ⟨by cases holds <;> rfl, h⟩
  | case5 condition yes no hcondition =>
      have hreducible := Expr.isReducible_of_forall_ne hcondition
      rw [← Expr.isReducible_rename (r := r)] at hreducible
      rw [Command.rename, Command.reduce_branch hreducible]
      refine (K.reduce_expr h fun name hname =>
        hnames name (List.mem_append_left _ (List.mem_append_left _ hname))).map
        fun next other _ hnext => ?_
      exact ⟨by rw [hnext, Command.rename], h⟩
  | case6 second => exact .ok ⟨rfl, h⟩
  | case7 first second hfirst ih =>
      have hreducible := Command.isReducible_of_ne hfirst
      rw [← Command.isReducible_rename (r := r)] at hreducible
      rw [Command.rename, Command.reduce_seq hreducible]
      refine (ih fun name hname => hnames name (List.mem_append_left _ hname)).map
        fun next other _ hnext => ?_
      exact ⟨by rw [hnext.1, Command.rename], hnext.2⟩
  | case8 condition body => exact .ok ⟨rfl, h⟩

/-- States in environments that correspond step alike. -/
theorem lockstep : State.Lockstep (Fault.rename r) K.States where
  exhausted _ := rfl
  isReducible h := by
    obtain ⟨hphrase, -, -⟩ := h
    unfold State.isReducible
    rw [hphrase, Phrase.isReducible_rename]
  reduce {left right} h := by
    obtain ⟨phrase, env⟩ := left
    obtain ⟨other, env'⟩ := right
    obtain ⟨rfl, hnames, hrelated⟩ := h
    cases phrase with
    | expr e =>
        refine (K.reduce_expr hrelated hnames).map fun next other hreduce hnext => ?_
        have hsubset := Expr.names_of_reduce hreduce
        exact ⟨congrArg Phrase.expr hnext, fun name hname => hnames name (hsubset hname), hrelated⟩
    | command c =>
        refine (K.reduce_command hrelated hnames).map fun next other hreduce hnext => ?_
        have hsubset := (Command.reduce_eq_ok_iff.1 hreduce).names_subset
        exact ⟨congrArg Phrase.command hnext.1, fun name hname => hnames name (hsubset hname),
          hnext.2⟩

end Correspondence

end WhileLanguage
