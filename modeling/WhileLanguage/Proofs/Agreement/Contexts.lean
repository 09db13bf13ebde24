import WhileLanguage.Proofs.Agreement.Phrases

/-!
# Replacement in contexts

Phrases that return the same in every environment may stand for each other wherever one of them
may stand: read `Context.replacement_keeps_results`. A `Context` is a phrase with one place left
open, at any depth, and the replacement is carried outwards from there, by
`Phrase.Equivalent.branch` and the like for each form: what a phrase returns depends on what its
parts return, not on how they do it.
-/

namespace WhileLanguage

/-- What may stand at a place of a phrase. -/
inductive Category where
  | expr
  | command
deriving DecidableEq

namespace Category

/-- What is of the category. -/
abbrev Term : Category → Type
  | expr => Expr
  | command => Command

/-- What is of the category, as a phrase. -/
def phrase : (category : Category) → category.Term → Phrase
  | expr, e => .expr e
  | command, c => .command c

end Category

/-- A phrase with one open place: what is left open is of the category `hole`, and what the phrase
is, once the place is filled, of the second category. -/
inductive Context (hole : Category) : Category → Type where
  | here : Context hole hole
  | left (op : Operator) (inner : Context hole .expr) (right : Expr) : Context hole .expr
  | right (op : Operator) (left : Expr) (inner : Context hole .expr) : Context hole .expr
  | assign (name : String) (inner : Context hole .expr) : Context hole .command
  | test (inner : Context hole .expr) (yes no : Command) : Context hole .command
  | yes (condition : Expr) (inner : Context hole .command) (no : Command) : Context hole .command
  | no (condition : Expr) (yes : Command) (inner : Context hole .command) : Context hole .command
  | first (inner : Context hole .command) (second : Command) : Context hole .command
  | second (first : Command) (inner : Context hole .command) : Context hole .command
  | guard (inner : Context hole .expr) (body : Command) : Context hole .command
  | body (condition : Expr) (inner : Context hole .command) : Context hole .command

namespace Context

variable {hole category : Category}

/-- The phrase that a context becomes by filling its open place. -/
def fill : {category : Category} → Context hole category → hole.Term → category.Term
  | _, here, term => term
  | _, left op inner other, term => Expr.binary op (inner.fill term) other
  | _, right op other inner, term => Expr.binary op other (inner.fill term)
  | _, assign name inner, term => Command.assign name (inner.fill term)
  | _, test inner selected other, term => Command.branch (inner.fill term) selected other
  | _, yes condition inner other, term => Command.branch condition (inner.fill term) other
  | _, no condition other inner, term => Command.branch condition other (inner.fill term)
  | _, first inner rest, term => Command.seq (inner.fill term) rest
  | _, second start inner, term => Command.seq start (inner.fill term)
  | _, guard inner round, term => Command.loop (inner.fill term) round
  | _, body condition inner, term => Command.loop condition (inner.fill term)

end Context

/-- Phrases whose evaluations return the same results in every environment. -/
def Phrase.Equivalent (p q : Phrase) : Prop :=
  ∀ env result, p.Returns env result ↔ q.Returns env result

/-- Equivalent phrases end with the same results when they are run. -/
theorem Phrase.Equivalent.runReturns_iff {p q : Phrase} (h : p.Equivalent q) {env : Environment}
    {result : Except Fault State} : p.RunReturns env result ↔ q.RunReturns env result := by
  rw [Phrase.runReturns_iff, Phrase.runReturns_iff]
  simp only [h env]

namespace Phrase

/-- Expressions are equivalent if they denote one function. -/
theorem equivalent_expr_iff {e f : Expr} :
    (expr e).Equivalent (expr f) ↔ ∀ env, e.denote env = f.denote env := by
  unfold Equivalent
  simp only [returns_expr_iff]
  constructor
  · intro h env
    exact except_map_inj Outcome.value.inj ((h env _).1 rfl)
  · intro h env result
    rw [h env]

/-- Commands are equivalent if they return the same environments and faults. -/
theorem equivalent_command_iff {c d : Command} :
    (command c).Equivalent (command d) ↔
      ∀ env result, c.Returns env result ↔ d.Returns env result := by
  constructor
  · intro h env result
    exact h env _
  · intro h env result
    simp only [returns_command_iff, h env]

namespace Equivalent

/-! ## Parts of phrases -/

/-- Every phrase is equivalent to itself. -/
protected theorem refl (p : Phrase) : p.Equivalent p := fun _ _ => Iff.rfl

/-- Equivalence is mutual. -/
protected theorem symm {p q : Phrase} (h : p.Equivalent q) : q.Equivalent p :=
  fun env result => (h env result).symm

variable {e f right other : Expr} {c d second rest : Command}

/-- Equivalent conditions have the same truth. -/
theorem truth_eq (h : (expr e).Equivalent (expr f)) (env : Environment) :
    e.truth env = f.truth env := by
  unfold Expr.truth
  rw [equivalent_expr_iff.1 h env]

/-- An operation keeps its values if its operands are equivalent to other ones. -/
theorem binary (op : Operator) (hleft : (expr e).Equivalent (expr f))
    (hright : (expr right).Equivalent (expr other)) :
    (expr (.binary op e right)).Equivalent (expr (.binary op f other)) := by
  rw [equivalent_expr_iff] at hleft hright ⊢
  intro env
  simp only [Expr.denote, hleft env, hright env]

/-- An assignment may assign an equivalent expression. -/
theorem assign (name : String) (h : (expr e).Equivalent (expr f)) :
    (command (.assign name e)).Equivalent (command (.assign name f)) := by
  rw [equivalent_expr_iff] at h
  refine equivalent_command_iff.2 fun env result => ?_
  rw [Command.returns_assign_iff, Command.returns_assign_iff, h env]

/-- A branch may have an equivalent condition and equivalent commands. -/
theorem branch (hcondition : (expr e).Equivalent (expr f))
    (hyes : (command c).Equivalent (command d))
    (hno : (command second).Equivalent (command rest)) :
    (command (.branch e c second)).Equivalent (command (.branch f d rest)) := by
  rw [equivalent_command_iff] at hyes hno
  have hselected (holds : Bool) (env : Environment) (result : Except Fault Environment) :
      (if holds then c else second).Returns env result ↔
        (if holds then d else rest).Returns env result := by
    cases holds with
    | true => exact hyes env result
    | false => exact hno env result
  refine equivalent_command_iff.2 fun env result => ?_
  simp only [Command.returns_branch_iff, hcondition.truth_eq env, hselected]

/-- A sequence may have equivalent parts. -/
theorem seq (hfirst : (command c).Equivalent (command d))
    (hsecond : (command second).Equivalent (command rest)) :
    (command (.seq c second)).Equivalent (command (.seq d rest)) := by
  rw [equivalent_command_iff] at hfirst hsecond
  refine equivalent_command_iff.2 fun env result => ?_
  simp only [Command.returns_seq_iff, hfirst, hsecond]

/-- A loop may have an equivalent condition and an equivalent body, for all of its rounds. -/
theorem loop (hcondition : (expr e).Equivalent (expr f))
    (hbody : (command c).Equivalent (command d)) :
    (command (.loop e c)).Equivalent (command (.loop f d)) := by
  rw [equivalent_command_iff] at hbody
  refine equivalent_command_iff.2 fun env result => ⟨fun h => ?onto, fun h => ?back⟩
  case onto => exact h.loop hcondition.symm.truth_eq fun env result => (hbody env result).1
  case back => exact h.loop hcondition.truth_eq fun env result => (hbody env result).2

/-- A literal need not be assigned to a name if the name is assigned to at once after it, for a
value that does not depend on it. -/
theorem overwritten {name : String} {v : Value}
    (h : ∀ env, e.denote (env.insert name v) = e.denote env) :
    (command (.seq (.assign name (.literal v)) (.assign name e))).Equivalent
      (command (.assign name e)) := by
  refine equivalent_command_iff.2 fun env result => ?_
  have hsame : (e.denote (env.insert name v)).map ((env.insert name v).insert name) =
      (e.denote env).map (env.insert name) := by
    rw [h env]
    cases e.denote env with
    | error fault => rfl
    | ok w => exact congrArg Except.ok Environment.insert_insert
  rw [Command.returns_seq_iff, Command.returns_assign_iff]
  constructor
  · intro h
    rcases h with ⟨fault, hfault, -⟩ | ⟨middle, hmiddle, hresult⟩
    · cases Command.returns_assign_iff.1 hfault
    · obtain rfl := Except.ok.inj (Command.returns_assign_iff.1 hmiddle)
      exact (Command.returns_assign_iff.1 hresult).trans hsame
  · intro h
    subst h
    exact .inr ⟨_, Command.returns_assign_iff.2 rfl, Command.returns_assign_iff.2 hsame.symm⟩

end Equivalent

end Phrase

/-! ## Contexts -/

namespace Context

variable {hole category : Category} {p q : hole.Term}

/-- A context that is filled with equivalent phrases becomes equivalent ones. -/
theorem equivalent_fill (context : Context hole category)
    (h : (hole.phrase p).Equivalent (hole.phrase q)) :
    (category.phrase (context.fill p)).Equivalent (category.phrase (context.fill q)) := by
  induction context with
  | here => exact h
  | left op _ other ih => exact .binary op ih (.refl _)
  | right op other _ ih => exact .binary op (.refl _) ih
  | assign name _ ih => exact .assign name ih
  | test _ selected other ih => exact .branch ih (.refl _) (.refl _)
  | yes condition _ other ih => exact .branch (.refl _) ih (.refl _)
  | no condition other _ ih => exact .branch (.refl _) (.refl _) ih
  | first _ rest ih => exact .seq ih (.refl _)
  | second start _ ih => exact .seq (.refl _) ih
  | guard _ round ih => exact .loop ih (.refl _)
  | body condition _ ih => exact .loop (.refl _) ih

/-- What returns the same in every environment may be replaced by each other at any place. In no
environment does it change what an evaluation without a limit returns, nor what a run ends with,
whether that is an environment, a value, a fault or nothing at all. -/
theorem replacement_keeps_results (context : Context hole category)
    (h : (hole.phrase p).Equivalent (hole.phrase q)) (env : Environment) :
    (∀ result, (category.phrase (context.fill p)).Returns env result ↔
      (category.phrase (context.fill q)).Returns env result) ∧
    ∀ result, (category.phrase (context.fill p)).RunReturns env result ↔
      (category.phrase (context.fill q)).RunReturns env result := by
  have hfilled := context.equivalent_fill h
  exact ⟨hfilled env, fun result => hfilled.runReturns_iff⟩

/-- A value that is overwritten at once need not be assigned, also where this is repeated in the
body of a loop within a branch. -/
theorem replacement_of_overwritten_value :
    let env := Environment.empty.insert "i" (.number 0)
    let copy : Command := .assign "last" (.var "i")
    let twice : Command := .seq (.assign "last" (.literal (.boolean true))) copy
    let raise : Command := .assign "i" (.binary .add (.var "i") (.literal (.number 1)))
    let rounds : Context .command .command :=
      .yes (.literal (.boolean true))
        (.body (.binary .lessThan (.var "i") (.literal (.number 2))) (.first .here raise)) .skip
    let final := (Environment.empty.insert "i" (.number 2)).insert "last" (.number 1)
    (Phrase.command twice).Equivalent (.command copy) ∧
      (Phrase.command (rounds.fill copy)).Returns env (.ok (.env final)) ∧
      (Phrase.command (rounds.fill copy)).RunReturns env (.ok ⟨.command .skip, final⟩) := by
  intro env copy twice raise rounds final
  have hcopy (env : Environment) :
      Expr.denote (.var "i") (env.insert "last" (.boolean true)) = Expr.denote (.var "i") env := by
    simp only [Expr.denote, Environment.lookup]
    rw [Environment.get?_insert, if_neg (by decide)]
  have h : (Phrase.command twice).Equivalent (.command copy) := .overwritten hcopy
  obtain ⟨hevaluate, hrun⟩ := rounds.replacement_keeps_results h env
  exact ⟨h, (hevaluate _).1 ⟨3, _, rfl⟩, (hrun _).1 ⟨_, ⟨40, rfl⟩, rfl⟩⟩

end Context

end WhileLanguage
