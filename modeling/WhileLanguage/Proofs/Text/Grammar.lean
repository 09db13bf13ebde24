import WhileLanguage.Proofs.Text.Expressions

/-!
# The grammar of expressions as rules

`Nonterminal.Reads` is the grammar of expressions as a relation, which does not say how a reading
is found. Read `Expr.text_unambiguous` first: the text of an expression is read back as that
expression and in no other way. `Nonterminal.Reads.ofText?` is the reason that there is no other
way: whatever the rules read a text as, the reader of whole texts finds.
-/

namespace WhileLanguage

/-- What the grammar has rules for. -/
inductive Nonterminal where
  | comparison
  | sum
  | product
  | atom
deriving DecidableEq

namespace Nonterminal

/-- `n.Reads text e` says that the rules for `n` read the whole text as `e`. A repetition goes on
at its right end, so that its operands are grouped to the left. -/
inductive Reads : Nonterminal → String → Expr → Prop where
  | sum {text e} : Reads sum text e → Reads comparison text e
  | lessThan {left right a b} :
      Reads comparison left a → Reads sum right b →
      Reads comparison (left ++ " < " ++ right) (.binary .lessThan a b)
  | product {text e} : Reads product text e → Reads sum text e
  | add {left right a b} :
      Reads sum left a → Reads product right b →
      Reads sum (left ++ " + " ++ right) (.binary .add a b)
  | atom {text e} : Reads atom text e → Reads product text e
  | multiply {left right a b} :
      Reads product left a → Reads atom right b →
      Reads product (left ++ " * " ++ right) (.binary .multiply a b)
  -- A number of digits stands for itself only if it is in the range of numbers.
  | number {digits : String} {n : Int64} :
      digits.toList ≠ [] → (∀ c ∈ digits.toList, c.isDigit = true) →
      n.toInt = Nat.ofDigitChars 10 digits.toList 0 →
      Reads atom digits (.literal (.number n))
  | negative {digits : String} {n : Int64} :
      digits.toList ≠ [] → (∀ c ∈ digits.toList, c.isDigit = true) →
      n.toInt = -(Nat.ofDigitChars 10 digits.toList 0 : Int) →
      Reads atom ("-" ++ digits) (.literal (.number n))
  | yes : Reads atom "true" (.literal (.boolean true))
  | no : Reads atom "false" (.literal (.boolean false))
  | name {name} : Reader.isIdentifier name = true → Reads atom name (.var name)
  | brackets {text e} : Reads comparison text e → Reads atom ("(" ++ text ++ ")") e

/-- The strength of what the rules read: that of an operator, or more than that of any. -/
def strength : Nonterminal → Nat
  | comparison => 1
  | sum => 2
  | product => 3
  | atom => 4

end Nonterminal

namespace Operator

/-- What the grammar calls a chain of an operator. -/
def chain : Operator → Nonterminal
  | lessThan => .comparison
  | add => .sum
  | multiply => .product

/-- What the grammar calls an operand of a chain. -/
def operand : Operator → Nonterminal
  | lessThan => .sum
  | add => .product
  | multiply => .atom

/-- A chain is as strong as its operator. -/
theorem strength_chain (op : Operator) : op.chain.strength = op.precedence := by
  cases op <;> rfl

/-- An operand is one stronger than its operator. -/
theorem strength_operand (op : Operator) : op.operand.strength = op.precedence + 1 := by
  cases op <;> rfl

end Operator

namespace Nonterminal.Reads

variable {m n : Nonterminal} {op : Operator} {text left right : String} {a b e : Expr}

/-- An operand alone is a chain. -/
theorem operand (h : op.operand.Reads text e) : op.chain.Reads text e := by
  cases op with
  | lessThan => exact .sum h
  | add => exact .product h
  | multiply => exact .atom h

/-- A chain goes on with its operator and one more operand. -/
theorem operator (hleft : op.chain.Reads left a) (hright : op.operand.Reads right b) :
    op.chain.Reads (left ++ op.sign ++ right) (.binary op a b) := by
  cases op with
  | lessThan => exact .lessThan hleft hright
  | add => exact .add hleft hright
  | multiply => exact .multiply hleft hright

/-- A chain is one operand, or a chain with the operator and one more operand. -/
theorem chain_cases (h : op.chain.Reads text e) :
    op.operand.Reads text e ∨ ∃ left right a b, text = left ++ op.sign ++ right ∧
      e = .binary op a b ∧ op.chain.Reads left a ∧ op.operand.Reads right b := by
  cases op with
  | lessThan =>
      cases h with
      | sum h => exact .inl h
      | lessThan hleft hright => exact .inr ⟨_, _, _, _, rfl, rfl, hleft, hright⟩
  | add =>
      cases h with
      | product h => exact .inl h
      | add hleft hright => exact .inr ⟨_, _, _, _, rfl, rfl, hleft, hright⟩
  | multiply =>
      cases h with
      | atom h => exact .inl h
      | multiply hleft hright => exact .inr ⟨_, _, _, _, rfl, rfl, hleft, hright⟩

/-- What rules read is read by the rules for what is less strong. -/
theorem loosen (h : n.Reads text e) (hle : m.strength ≤ n.strength) : m.Reads text e := by
  have hproduct (h : Nonterminal.atom.Reads text e) : Nonterminal.product.Reads text e := .atom h
  have hsum (h : Nonterminal.product.Reads text e) : Nonterminal.sum.Reads text e := .product h
  have hcomparison (h : Nonterminal.sum.Reads text e) : Nonterminal.comparison.Reads text e :=
    .sum h
  cases m <;> cases n <;> simp_all [strength]

/-! ## What the rules read, the readers find -/

/-- A chain is made of the texts of its operands with the operator between them. -/
theorem exists_operands {op : Operator} {text : String} {e : Expr} (h : op.chain.Reads text e) :
    ∃ operands : List (String × Expr), text = op.sign.intercalate (operands.map Prod.fst) ∧
      Reader.group op (operands.map Prod.snd) = some e ∧ operands.length ≤ text.length + 1 ∧
      ∀ x ∈ operands, op.operand.Reads x.1 x.2 ∧ x.1.length ≤ text.length := by
  rcases h.chain_cases with hoperand | ⟨left, right, a, b, rfl, rfl, hleft, hright⟩
  · refine ⟨[(text, e)], by simp, rfl, by simp, fun x hx => ?_⟩
    obtain rfl := List.mem_singleton.1 hx
    exact ⟨hoperand, Nat.le_refl _⟩
  · have hsign : 0 < op.sign.length := by cases op <;> decide
    have hlength : (left ++ op.sign ++ right).length =
        left.length + op.sign.length + right.length := by
      rw [String.length_append, String.length_append]
    -- The chain on the left is shorter by the operator at least.
    obtain ⟨operands, rfl, hgroup, hcount, hoperands⟩ := exists_operands hleft
    have hne : operands ≠ [] := by
      intro hnil
      subst hnil
      cases hgroup
    refine ⟨operands ++ [(right, b)], ?_, ?_, ?_, fun x hx => ?_⟩
    · rw [List.map_append, List.map_singleton, String.intercalate_append_of_ne_nil
        (by simpa using hne) (by simp), String.intercalate_singleton]
    · rw [List.map_append, List.map_singleton]
      exact Reader.group_append hgroup
    · rw [List.length_append, List.length_singleton]
      omega
    · rcases List.mem_append.1 hx with hx | hx
      · obtain ⟨hreads, hle⟩ := hoperands x hx
        exact ⟨hreads, by omega⟩
      · obtain rfl := List.mem_singleton.1 hx
        exact ⟨hright, hlength ▸ Nat.le_add_left _ _⟩
termination_by text.length

/-- What the rules read a text as, the readers find in it, whatever follows that ends it. -/
theorem readsAs {n : Nonterminal} {text : String} {e : Expr} {bound : Nat} (h : n.Reads text e)
    (hbound : text.length ≤ bound) : Reader.ReadsAs bound n.strength text e := by
  have hchain (op : Operator) (hn : n = op.chain) : Reader.ReadsAs bound n.strength text e := by
    obtain ⟨operands, htext, hgroup, hcount, hoperands⟩ := exists_operands (hn ▸ h)
    have hstrength : n.strength = op.precedence := hn ▸ op.strength_chain
    have hweak := op.precedence_lt_four
    rw [hstrength, htext]
    refine Reader.readsAs_chain hgroup (by omega) fun x hx => ?_
    obtain ⟨hreads, hle⟩ := hoperands x hx
    have hoperand := op.strength_operand
    rw [← hoperand]
    exact readsAs hreads (Nat.le_trans hle hbound)
  cases n with
  | comparison => exact hchain .lessThan rfl
  | sum => exact hchain .add rfl
  | product => exact hchain .multiply rfl
  | atom =>
      cases h with
      | number hne hdigits hn =>
          exact Reader.readsAs_number fun rest hrest => Reader.number_digits hne hdigits hn hrest
      | negative hne hdigits hn =>
          refine Reader.readsAs_number fun rest hrest => ?_
          rw [String.toList_append, List.append_assoc]
          exact Reader.number_sign hne hdigits hn hrest
      | yes => exact Reader.readsAs_literal (.boolean true)
      | no => exact Reader.readsAs_literal (.boolean false)
      | name hname => exact Reader.readsAs_var hname
      | @brackets text e h =>
          have hlength : ("(" ++ text ++ ")").length = 1 + text.length + 1 := by
            rw [String.length_append, String.length_append]
            rfl
          obtain ⟨less, rfl⟩ := Nat.exists_eq_add_one.2 (by omega : 0 < bound)
          exact (readsAs h (by omega)).brackets
-- An operand may have the whole text, but is stronger; what is in brackets has less of it.
termination_by 4 * text.length + (4 - n.strength)

end Nonterminal.Reads

/-- The expression that a text is read as, with nothing of the text left over. -/
def Expr.ofText? (text : String) : Option Expr :=
  match Reader.comparison (text.length + 1) text.toList with
  | some (e, []) => some e
  | _ => none

namespace Nonterminal.Reads

variable {m n : Nonterminal} {text : String} {d e : Expr}

/-- What the rules read a whole text as, the reader of whole texts finds. -/
theorem ofText? (h : Nonterminal.comparison.Reads text e) : Expr.ofText? text = some e := by
  have hends : Reader.Ends 1 [] := by
    constructor
    · intro c hc
      cases hc
    · intro op _
      cases op <;> decide
  have hreads : Reader.ReadsAs text.length 1 text e := h.readsAs (Nat.le_refl _)
  have hread : Reader.comparison (text.length + 1) (text.toList ++ []) = some (e, []) :=
    hreads [] hends
  rw [List.append_nil] at hread
  unfold Expr.ofText?
  rw [hread]

/-- The rules read a text in one way only. -/
theorem unique (h : Nonterminal.comparison.Reads text e)
    (hother : Nonterminal.comparison.Reads text d) : e = d :=
  Option.some.inj (h.ofText?.symm.trans hother.ofText?)

/-! ## What is written, the rules read -/

/-- A value is read from its text. -/
theorem literal (v : Value) : Nonterminal.atom.Reads v.text (.literal v) := by
  cases v with
  | number n =>
      obtain ⟨digits, hne, hdigits, ⟨hrepr, hn⟩ | ⟨hrepr, hn⟩⟩ := Reader.digits_of_number n
      · rw [Value.text, hrepr]
        exact .number hne hdigits hn
      · rw [Value.text, hrepr]
        exact .negative hne hdigits hn
  | boolean b =>
      cases b with
      | false => exact .no
      | true => exact .yes

/-- In brackets or strong enough without them, what is read is read by any rules. -/
theorem bracketed {needed : Bool} (h : n.Reads text e)
    (hstrong : needed = false → m.strength ≤ n.strength) :
    m.Reads (Expr.bracketed needed text) e := by
  cases needed with
  | false => exact h.loosen (hstrong rfl)
  | true =>
      have hcomparison : Nonterminal.comparison.Reads text e := h.loosen (by cases n <;> decide)
      exact hcomparison.brackets.loosen (by cases m <;> decide)

end Nonterminal.Reads

namespace Expr

/-- What the grammar calls an expression by its text. -/
def nonterminal : Expr → Nonterminal
  | binary op _ _ => op.chain
  | _ => .atom

/-- The rules are for expressions as strong as they are. -/
theorem strength_nonterminal (e : Expr) : e.nonterminal.strength = e.precedence := by
  cases e with
  | literal | var => rfl
  | binary op left right => exact op.strength_chain

/-- The rules read the text of an expression as the expression. -/
theorem reads_text {e : Expr} (hnames : ∀ name ∈ e.names, Reader.isIdentifier name = true) :
    e.nonterminal.Reads e.text e := by
  induction e with
  | literal v => exact .literal v
  | var name => exact .name (hnames name List.mem_cons_self)
  | binary op left right ihleft ihright =>
      simp only [names, List.mem_append] at hnames
      have hleft := ihleft fun name h => hnames name (.inl h)
      have hright := ihright fun name h => hnames name (.inr h)
      have hfirst : op.chain.Reads (Expr.bracketed (left.precedence < op.precedence) left.text)
          left := by
        refine hleft.bracketed fun hstrong => ?_
        rw [op.strength_chain, left.strength_nonterminal]
        exact Nat.not_lt.1 (of_decide_eq_false hstrong)
      have hsecond : op.operand.Reads
          (Expr.bracketed (right.precedence ≤ op.precedence) right.text) right := by
        refine hright.bracketed fun hstrong => ?_
        rw [op.strength_operand, right.strength_nonterminal]
        exact Nat.not_le.1 (of_decide_eq_false hstrong)
      rw [text_binary]
      exact hfirst.operator hsecond

/-- The text of an expression whose names are identifiers is read back as the expression: by the
reader of whole texts, by the rules of the grammar, and by them in no other way. So no other such
expression has the text. -/
theorem text_unambiguous {e : Expr}
    (hnames : ∀ name ∈ e.names, Reader.isIdentifier name = true) :
    ofText? e.text = some e ∧ (∀ d, Nonterminal.comparison.Reads e.text d ↔ d = e) ∧
      ∀ d : Expr, (∀ name ∈ d.names, Reader.isIdentifier name = true) →
        d.text = e.text → d = e := by
  have hreads {d : Expr} (hnames : ∀ name ∈ d.names, Reader.isIdentifier name = true) :
      Nonterminal.comparison.Reads d.text d := by
    refine (reads_text hnames).loosen ?_
    rw [d.strength_nonterminal]
    exact d.precedence_pos
  refine ⟨(hreads hnames).ofText?, fun d => ?_, fun d hd htext => ?_⟩
  · constructor
    · intro h
      exact h.unique (hreads hnames)
    · intro h
      subst h
      exact hreads hnames
  · have hother := hreads hd
    rw [htext] at hother
    exact hother.unique (hreads hnames)

/-- Brackets on the right tell `if + (x + -3) < y * (x < 2)` from the sum that is grouped to the
left, and keep apart the comparison on its right. -/
theorem text_of_grouped_sum :
    let less : Expr := .binary .lessThan (.var "x") (.literal (.number 2))
    let last : Expr := .binary .multiply (.var "y") less
    let minus : Expr := .literal (.number (-3))
    let e : Expr :=
      .binary .lessThan (.binary .add (.var "if") (.binary .add (.var "x") minus)) last
    let d : Expr :=
      .binary .lessThan (.binary .add (.binary .add (.var "if") (.var "x")) minus) last
    (∀ name ∈ e.names, Reader.isIdentifier name = true) ∧
      e.text = "if + (x + -3) < y * (x < 2)" ∧ ofText? e.text = some e ∧
      ¬ Nonterminal.comparison.Reads e.text d ∧ d.text ≠ e.text := by
  intro less last minus e d
  have he : ∀ name ∈ e.names, Reader.isIdentifier name = true := by decide
  have hd : ∀ name ∈ d.names, Reader.isIdentifier name = true := by decide
  have hne : d ≠ e := by decide
  obtain ⟨hread, honly, hother⟩ := text_unambiguous he
  exact ⟨he, by decide, hread, fun h => hne ((honly d).1 h), fun h => hne (hother d hd h)⟩

end Expr

end WhileLanguage
