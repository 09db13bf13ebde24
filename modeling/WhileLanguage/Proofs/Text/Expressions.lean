import WhileLanguage.Proofs.Syntax
import WhileLanguage.Proofs.Text.Reader

/-!
# Reading expressions

The grammar of expressions: comparisons of sums of products of atoms, each grouped to the left,
and comparisons in brackets as atoms. `Reader.comparison_text` says that an expression whose names
are identifiers is read back from its text, whatever follows that ends it.

What a text is made of at one level of the grammar are the operands of a chain of one operator:
`Expr.operands` takes them from an expression, `Reader.group` puts them together again, and
`Expr.text_operands` says that the text has the operands with the operator between them.
-/

namespace WhileLanguage

/-- An operator as it is written between its operands. -/
def Operator.sign (op : Operator) : String :=
  " " ++ op.symbol ++ " "

/-! ## Chains of one operator -/

namespace Expr

/-- The operands of the chain of an operator that an expression is. -/
def operands (op : Operator) : Expr → List Expr
  | binary other left right =>
      if other = op then left.operands op ++ [right] else [binary other left right]
  | e => [e]

/-- The text of an operand of a chain, in brackets if it binds no tighter than the operator. -/
def operandText (op : Operator) (e : Expr) : String :=
  bracketed (e.precedence ≤ op.precedence) e.text

/-- An operator is written as its sign between its operands, each in the brackets that it needs. -/
theorem text_binary (op : Operator) (left right : Expr) :
    (binary op left right).text =
      bracketed (left.precedence < op.precedence) left.text ++ op.sign ++
        bracketed (right.precedence ≤ op.precedence) right.text := by
  rw [text, Operator.sign]
  simp only [String.append_assoc]

/-- A chain of an operator goes on in its left operand. -/
theorem operands_binary {op : Operator} {left right : Expr} :
    (binary op left right).operands op = left.operands op ++ [right] := by
  rw [operands, if_pos rfl]

/-- Every chain has operands. -/
theorem operands_ne_nil {op : Operator} {e : Expr} : e.operands op ≠ [] := by
  cases e with
  | literal | var => simp [operands]
  | binary other left right => rw [operands]; split <;> simp

/-- A chain has at most as many operands as it has nodes. -/
theorem length_operands_le {op : Operator} {e : Expr} : (e.operands op).length ≤ e.nodes := by
  induction e with
  | literal | var => exact Nat.le_refl 1
  | binary other left right ihleft _ =>
      rw [operands, nodes]
      split
      · rw [List.length_append, List.length_singleton]
        omega
      · rw [List.length_singleton]
        omega

/-- What passes from an expression to the operands of its operator holds of all operands of its
chain. -/
theorem forall_mem_operands {P : Expr → Prop} {op : Operator} {e : Expr}
    (hparts : ∀ other left right, P (binary other left right) → P left ∧ P right) (h : P e) :
    ∀ x ∈ e.operands op, P x := by
  intro x hx
  induction e with
  | literal | var =>
      obtain rfl := List.mem_singleton.1 hx
      exact h
  | binary other left right ihleft _ =>
      obtain ⟨hleft, hright⟩ := hparts other left right h
      rw [operands] at hx
      split at hx
      · rcases List.mem_append.1 hx with hx | hx
        · exact ihleft hleft hx
        · obtain rfl := List.mem_singleton.1 hx
          exact hright
      · obtain rfl := List.mem_singleton.1 hx
        exact h

/-- An operand of an operator's chain is less than the chain. -/
theorem nodes_lt_of_mem_operands {op : Operator} {left right x : Expr}
    (h : x ∈ (binary op left right).operands op) : x.nodes < (binary op left right).nodes := by
  rw [operands_binary] at h
  rw [nodes]
  rcases List.mem_append.1 h with hleft | hright
  · have hle : x.nodes ≤ left.nodes := by
      refine forall_mem_operands (P := fun x => x.nodes ≤ left.nodes) ?_ (Nat.le_refl _) x hleft
      intro other first second hnodes
      rw [nodes] at hnodes
      omega
    omega
  · obtain rfl := List.mem_singleton.1 hright
    omega

/-- The names in an operand of a chain are names of the chain. -/
theorem names_subset_of_mem_operands {op : Operator} {e x : Expr} (h : x ∈ e.operands op) :
    x.names ⊆ e.names := by
  refine forall_mem_operands (P := fun x => x.names ⊆ e.names) ?_ (List.Subset.refl _) x h
  intro other left right hnames
  exact List.append_subset.1 hnames

/-- An expression of another strength than an operator is an operand of it on both sides alike. -/
theorem bracketed_of_ne {op : Operator} {e : Expr} (h : e.precedence ≠ op.precedence) :
    bracketed (e.precedence < op.precedence) e.text = operandText op e := by
  rw [operandText]
  congr 1
  exact decide_eq_decide.2 (by omega)

/-- A left operand is written as the operands of its chain with the operator between them. -/
theorem text_operands (op : Operator) (e : Expr) :
    bracketed (e.precedence < op.precedence) e.text =
      op.sign.intercalate ((e.operands op).map (operandText op)) := by
  have hsingle {e : Expr} (hne : e.precedence ≠ op.precedence) (hoperands : e.operands op = [e]) :
      bracketed (e.precedence < op.precedence) e.text =
        op.sign.intercalate ((e.operands op).map (operandText op)) := by
    rw [bracketed_of_ne hne, hoperands, List.map_singleton, String.intercalate_singleton]
  induction e with
  | literal v => exact hsingle (Nat.ne_of_gt op.precedence_lt_four) rfl
  | var name => exact hsingle (Nat.ne_of_gt op.precedence_lt_four) rfl
  | binary other left right ihleft _ =>
      by_cases hop : other = op
      · subst hop
        have hbrackets : decide ((binary other left right).precedence < other.precedence) = false :=
          decide_eq_false (Nat.lt_irrefl _)
        rw [hbrackets, operands_binary, List.map_append, List.map_singleton,
          String.intercalate_append_of_ne_nil (by simpa using operands_ne_nil) (by simp), ← ihleft,
          String.intercalate_singleton]
        simp only [bracketed, text, Operator.sign, operandText, String.append_assoc]
        rfl
      · exact hsingle (mt Operator.precedence_injective hop) (by rw [operands, if_neg hop])

end Expr

namespace Reader

variable {op : Operator} {e : Expr} {bound strength : Nat} {rest : List Char}

/-! ## The grammar -/

/-- The expression that operands with an operator between them are, grouped to the left. -/
def group (op : Operator) : List Expr → Option Expr
  | [] => none
  | first :: others => some (others.foldl (.binary op) first)

/-- Reads operands with an operator between them. -/
def chain (operand : Reader Expr) (op : Operator) (bound : Nat) : Reader Expr := do
  let operands ← separated operand op.sign bound
  liftM (group op operands)

/-- Reads a value, a name, or what stands in brackets. -/
def atom (inner : Reader Expr) : Reader Expr :=
  (do return .literal (← value)) <|> (do return .var (← identifier)) <|> do
    expect "("
    let e ← inner
    expect ")"
    return e

/-- Reads atoms with `*` between them. -/
def product (inner : Reader Expr) (bound : Nat) : Reader Expr :=
  chain (atom inner) .multiply bound

/-- Reads products with `+` between them. -/
def sum (inner : Reader Expr) (bound : Nat) : Reader Expr :=
  chain (product inner bound) .add bound

/-- Reads sums with `<` between them. Brackets are at most so deep, and chains so long, as the
bound says. -/
def comparison : Nat → Reader Expr
  | 0 => failure
  | bound + 1 => chain (sum (comparison bound) (bound + 1)) .lessThan (bound + 1)

/-- Reads an expression that holds together as strongly as is said, or more strongly. -/
def ofStrength (bound : Nat) : Nat → Reader Expr
  | 1 => comparison (bound + 1)
  | 2 => sum (comparison bound) (bound + 1)
  | 3 => product (comparison bound) (bound + 1)
  | _ => atom (comparison bound)

/-- The operands of an operator are read one strength above it. -/
theorem ofStrength_precedence :
    ofStrength bound op.precedence =
      chain (ofStrength bound (op.precedence + 1)) op (bound + 1) := by
  cases op <;> rfl

/-! ## What ends an expression -/

/-- The text does not start with what an expression of a strength could go on with. -/
def Ends (strength : Nat) (rest : List Char) : Prop :=
  EndsWord rest ∧ ∀ op : Operator, strength ≤ op.precedence → ¬ op.sign.toList <+: rest

/-- What ends an expression ends a stronger one. -/
theorem Ends.mono {other : Nat} (h : Ends strength rest) (hle : strength ≤ other) :
    Ends other rest :=
  ⟨h.1, fun op hop => h.2 op (Nat.le_trans hle hop)⟩

/-- An operator ends what binds tighter. -/
theorem ends_sign (op : Operator) (rest : List Char) :
    Ends (op.precedence + 1) (op.sign.toList ++ rest) := by
  constructor
  · intro c hc
    cases op <;> cases hc <;> rfl
  · intro other hother
    cases op <;> cases other <;>
      simp [Operator.sign, Operator.symbol, Operator.precedence] at hother ⊢

/-- A mark other than an operator ends every expression. -/
theorem ends_cons {c : Char} (hc : isWordChar c = false) (hspace : c ≠ ' ') :
    Ends strength (c :: rest) := by
  refine ⟨endsWord_cons hc, ?_⟩
  rintro op - ⟨other, hother⟩
  cases op <;> cases hother <;> exact hspace rfl

/-- A closing bracket ends every expression. -/
theorem ends_bracket (rest : List Char) : Ends strength (")".toList ++ rest) :=
  ends_cons (by decide) (by decide)

/-- A mark other than an operator ends every expression also after a blank. -/
theorem ends_space_cons {c : Char} (hc : ∀ op : Operator, op.symbol.toList.head? ≠ some c) :
    Ends strength (' ' :: c :: rest) := by
  refine ⟨endsWord_cons (by decide), ?_⟩
  rintro op - ⟨other, hother⟩
  refine hc op ?_
  cases op <;> cases hother <;> rfl

/-! ## Reading expressions back -/

/-- A text is read as an expression of a strength, whatever follows that ends it. -/
def ReadsAs (bound strength : Nat) (text : String) (e : Expr) : Prop :=
  ∀ rest, Ends strength rest → ofStrength bound strength (text.toList ++ rest) = some (e, rest)

/-- An operand that is grouped with others is the right operand of all of them. -/
theorem group_append {operands : List Expr} {left right : Expr}
    (h : group op operands = some left) :
    group op (operands ++ [right]) = some (.binary op left right) := by
  cases operands with
  | nil => cases h
  | cons first others =>
      cases h
      rw [List.cons_append, group, List.foldl_append]
      rfl

/-- The operands of a chain are grouped to the chain. -/
theorem group_operands (op : Operator) (e : Expr) : group op (e.operands op) = some e := by
  induction e with
  | literal | var => rfl
  | binary other left right ihleft _ =>
      rw [Expr.operands]
      split
      · next hop =>
          subst hop
          exact group_append ihleft
      · rfl

/-- A chain is read where the texts of its operands are written with the operator between them. -/
theorem readsAs_chain {operands : List (String × Expr)}
    (hgroup : group op (operands.map Prod.snd) = some e) (hlength : operands.length ≤ bound + 1)
    (h : ∀ x ∈ operands, ReadsAs bound (op.precedence + 1) x.1 x.2) :
    ReadsAs bound op.precedence (op.sign.intercalate (operands.map Prod.fst)) e := by
  intro rest hrest
  have hne : operands ≠ [] := by
    rintro rfl
    cases hgroup
  have hoperands := separated_append (ends_sign op) hne h hlength
    (hrest.mono (Nat.le_succ _)) (hrest.2 op (Nat.le_refl _))
  rw [ofStrength_precedence, chain, bind_of_eq_some hoperands, hgroup]
  rfl

/-- What is read as an expression of a strength is read as one of any lesser strength. -/
theorem ReadsAs.loosen {text : String} {less : Nat} (h : ReadsAs bound strength text e)
    (hpos : 1 ≤ less) (hle : less ≤ strength) (hstrength : strength ≤ 4) :
    ReadsAs bound less text e := by
  induction hle with
  | refl => exact h
  | @step strength hle ih =>
      obtain ⟨op, rfl⟩ := Operator.exists_precedence_eq (Nat.le_trans hpos hle) hstrength
      -- An expression that is stronger than an operator is a chain of one operand.
      have hchain :
          ReadsAs bound op.precedence (op.sign.intercalate ([(text, e)].map Prod.fst)) e := by
        refine readsAs_chain rfl (Nat.le_add_left 1 bound) fun x hx => ?_
        obtain rfl := List.mem_singleton.1 hx
        exact h
      rw [List.map_singleton, String.intercalate_singleton] at hchain
      exact ih hchain (Nat.le_of_succ_le hstrength)

/-- A number is read as an atom where it is read at all. -/
theorem readsAs_number {text : String} {n : Int64}
    (h : ∀ rest, EndsWord rest → number (text.toList ++ rest) = some (n, rest)) :
    ReadsAs bound 4 text (.literal (.number n)) := by
  intro rest hrest
  have hvalue : value (text.toList ++ rest) = some (.number n, rest) := by
    refine orElse_of_eq_some ?_
    rw [bind_of_eq_some (h rest hrest.1)]
    rfl
  refine orElse_of_eq_some ?_
  rw [bind_of_eq_some hvalue]
  rfl

/-- A value is read as an atom. -/
theorem readsAs_literal (v : Value) : ReadsAs bound 4 v.text (.literal v) := by
  intro rest hrest
  refine orElse_of_eq_some ?_
  rw [bind_of_eq_some (value_append v hrest.1)]
  rfl

/-- A name is read as an atom. -/
theorem readsAs_var {name : String} (h : isIdentifier name = true) :
    ReadsAs bound 4 name (.var name) := by
  intro rest hrest
  refine (orElse_of_eq_none (bind_of_eq_none (value_identifier h hrest.1))).trans
    (orElse_of_eq_some ?_)
  rw [bind_of_eq_some (identifier_append h hrest.1)]
  rfl

/-- Neither a value nor a name is read where a bracket is written. -/
theorem value_bracket (input : List Char) :
    value ("(".toList ++ input) = none ∧ identifier ("(".toList ++ input) = none := by
  have hword : word ("(".toList ++ input) = none := word_of_endsWord (endsWord_cons (by decide))
  have hnumber : number ("(".toList ++ input) = none := by
    refine number_eq_none ?_
    rintro _ ⟨⟩
    decide
  refine ⟨?_, bind_of_eq_none hword⟩
  rw [value, orElse_of_eq_none (bind_of_eq_none hnumber)]
  exact bind_of_eq_none hword

/-- What is read as an expression is read as an atom in brackets. -/
theorem ReadsAs.brackets {text : String} (h : ReadsAs bound 1 text e) :
    ReadsAs (bound + 1) 4 ("(" ++ text ++ ")") e := by
  intro rest hrest
  have hinner : comparison (bound + 1) (text.toList ++ (")".toList ++ rest)) =
      some (e, ")".toList ++ rest) := h _ (ends_bracket rest)
  obtain ⟨hvalue, hidentifier⟩ := value_bracket (text.toList ++ (")".toList ++ rest))
  rw [String.toList_append, String.toList_append, List.append_assoc, List.append_assoc]
  refine (orElse_of_eq_none (bind_of_eq_none hvalue)).trans
    ((orElse_of_eq_none (bind_of_eq_none hidentifier)).trans ?_)
  rw [bind_of_eq_some (expect_append "(" _), bind_of_eq_some hinner,
    bind_of_eq_some (expect_append ")" _)]
  rfl

/-- An expression whose names are identifiers is read from its text. -/
theorem readsAs_text (e : Expr) {bound strength : Nat}
    (hnames : ∀ name ∈ e.names, isIdentifier name = true) (hbound : e.nodes ≤ bound + 1)
    (hpos : 1 ≤ strength) (hle : strength ≤ e.precedence) :
    ReadsAs bound strength e.text e := by
  cases e with
  | literal v => exact (readsAs_literal v).loosen hpos hle (Nat.le_refl 4)
  | var name =>
      exact (readsAs_var (hnames name List.mem_cons_self)).loosen hpos hle (Nat.le_refl 4)
  | binary op left right =>
      have hoperands : ∀ x ∈ (Expr.binary op left right).operands op,
          ReadsAs bound (op.precedence + 1) (Expr.operandText op x) x := by
        intro x hx
        have hlt := Expr.nodes_lt_of_mem_operands hx
        have hxnames : ∀ name ∈ x.names, isIdentifier name = true := fun name hname =>
          hnames name (Expr.names_subset_of_mem_operands hx hname)
        by_cases hbrackets : x.precedence ≤ op.precedence
        · have hpositive := x.nodes_pos
          obtain ⟨less, rfl⟩ := Nat.exists_eq_add_one.2 (by omega : 0 < bound)
          have hx : ReadsAs less 1 x.text x :=
            readsAs_text x hxnames (by omega) (Nat.le_refl 1) x.precedence_pos
          rw [Expr.operandText, decide_eq_true hbrackets]
          exact hx.brackets.loosen (by omega) op.precedence_lt_four (Nat.le_refl 4)
        · rw [Expr.operandText, decide_eq_false hbrackets]
          exact readsAs_text x hxnames (by omega) (by omega) (by omega)
      have hchain : ReadsAs bound op.precedence (op.sign.intercalate
          ((((Expr.binary op left right).operands op).map fun x =>
            (Expr.operandText op x, x)).map Prod.fst)) (.binary op left right) := by
        refine readsAs_chain ?_ ?_ fun x hx => ?_
        · simpa [Function.comp_def] using group_operands op (.binary op left right)
        · rw [List.length_map]
          exact Nat.le_trans Expr.length_operands_le hbound
        · obtain ⟨operand, hoperand, rfl⟩ := List.mem_map.1 hx
          exact hoperands operand hoperand
      rw [List.map_map, Function.comp_def, ← Expr.text_operands] at hchain
      simp only [Expr.precedence, Nat.lt_irrefl, decide_false] at hchain
      exact hchain.loosen hpos hle (Nat.le_of_lt op.precedence_lt_four)
termination_by e.nodes

/-- An expression whose names are identifiers is read back from its text, up to what ends it. -/
theorem comparison_text {e : Expr} (hnames : ∀ name ∈ e.names, isIdentifier name = true)
    (hbound : e.nodes ≤ bound) (hrest : Ends 1 rest) :
    comparison bound (e.text.toList ++ rest) = some (e, rest) := by
  obtain ⟨bound, rfl⟩ := Nat.exists_eq_add_one.2 (Nat.lt_of_lt_of_le e.nodes_pos hbound)
  exact readsAs_text e hnames hbound (Nat.le_refl 1) e.precedence_pos rest hrest

end Reader

end WhileLanguage
