import WhileLanguage.Proofs.Text.Grammar
import WhileLanguage.Proofs.Text.Pairs

/-!
# The brackets that a text needs

The text of an expression has no superfluous brackets: read `Expr.text_without_pair`. Without any
one pair of brackets the text is still read as an expression, but as another one. That it is read is
`Nonterminal.Reads.exists_deleted`. That the expression is another one is a matter of counting:
whatever is read as an expression opens at least as many brackets as the text of the expression, by
`Nonterminal.Reads.count_le`.
-/

namespace WhileLanguage

open Brackets (Pair Plain)

/-! ## Texts without brackets -/

/-- Words have no brackets. -/
theorem plain_of_word {chars : List Char} (h : ∀ c ∈ chars, Reader.isWordChar c = true) :
    Plain chars :=
  ⟨fun hmem => absurd (h '(' hmem) (by decide), fun hmem => absurd (h ')' hmem) (by decide)⟩

/-- Digits have no brackets. -/
theorem plain_of_digits {chars : List Char} (h : ∀ c ∈ chars, c.isDigit = true) : Plain chars :=
  plain_of_word fun c hc => Reader.isWordChar_of_isDigit (h c hc)

/-- Digits after a sign have no brackets. -/
theorem plain_of_sign {digits : String} (h : ∀ c ∈ digits.toList, c.isDigit = true) :
    Plain ("-" ++ digits).toList := by
  obtain ⟨hopen, hclose⟩ := plain_of_digits h
  unfold Plain
  rw [String.toList_append, List.mem_append, List.mem_append]
  exact ⟨not_or.2 ⟨by decide, hopen⟩, not_or.2 ⟨by decide, hclose⟩⟩

/-- Identifiers have no brackets. -/
theorem plain_of_identifier {name : String} (h : Reader.isIdentifier name = true) :
    Plain name.toList := by
  simp only [Reader.isIdentifier, Bool.and_eq_true] at h
  exact plain_of_word (List.all_eq_true.1 h.1.1.1)

/-- The text of a value has no brackets. -/
theorem plain_value (v : Value) : Plain v.text.toList := by
  cases v with
  | number n =>
      obtain ⟨digits, -, hdigits, ⟨hrepr, -⟩ | ⟨hrepr, -⟩⟩ := Reader.digits_of_number n
      · rw [Value.text, hrepr]
        exact plain_of_digits hdigits
      · rw [Value.text, hrepr]
        exact plain_of_sign hdigits
  | boolean b =>
      unfold Plain
      cases b <;> decide

/-- Signs of operators have no brackets. -/
theorem plain_sign (op : Operator) : Plain op.sign.toList := by
  unfold Plain
  cases op <;> decide

/-! ## How many brackets a text opens -/

/-- Brackets around a text are one more. -/
theorem count_brackets (text : String) :
    ("(" ++ text ++ ")").toList.count '(' = text.toList.count '(' + 1 := by
  rw [String.toList_append, String.toList_append]
  show ('(' :: (text.toList ++ [')'])).count '(' = text.toList.count '(' + 1
  rw [List.count_cons_self, List.count_append]
  rfl

/-- A text is put in brackets where they are needed. -/
theorem count_bracketed (needed : Bool) (text : String) :
    (Expr.bracketed needed text).toList.count '(' = text.toList.count '(' + needed.toNat := by
  cases needed with
  | false => rfl
  | true => exact count_brackets text

/-- A text opens no fewer brackets for being put in brackets more often. -/
theorem count_bracketed_le {needed other : Bool} (h : needed = true → other = true)
    (text : String) :
    (Expr.bracketed needed text).toList.count '(' ≤
      (Expr.bracketed other text).toList.count '(' := by
  rw [count_bracketed, count_bracketed]
  cases needed with
  | false => exact Nat.le_add_right _ _
  | true =>
      obtain rfl := h rfl
      exact Nat.le_refl _

/-- An operator opens the brackets that its operands open. -/
theorem count_operator (op : Operator) (left right : String) :
    (left ++ op.sign ++ right).toList.count '(' =
      left.toList.count '(' + right.toList.count '(' := by
  rw [String.toList_append, String.toList_append, List.count_append, List.count_append,
    (plain_sign op).count_open, Nat.add_zero]

/-! ## Texts that are read -/

namespace Nonterminal.Reads

variable {n : Nonterminal} {op : Operator} {text left right : String} {a b e : Expr}

/-- An induction on how a text is read, with one case for a chain of any operator. -/
@[elab_as_elim]
theorem chain_induction {motive : ∀ n text e, Nonterminal.Reads n text e → Prop}
    (h : n.Reads text e)
    (value : ∀ {text v} (h : Nonterminal.atom.Reads text (.literal v)), Plain text.toList →
      motive .atom text (.literal v) h)
    (name : ∀ {name} (h : Reader.isIdentifier name = true),
      motive .atom name (.var name) (.name h))
    (brackets : ∀ {text e} (h : Nonterminal.comparison.Reads text e), motive .comparison text e h →
      motive .atom ("(" ++ text ++ ")") e (.brackets h))
    (operand : ∀ (op : Operator) {text e} (h : op.operand.Reads text e),
      motive op.operand text e h → motive op.chain text e h.operand)
    (operator : ∀ (op : Operator) {left right a b} (hleft : op.chain.Reads left a)
      (hright : op.operand.Reads right b), motive op.chain left a hleft →
      motive op.operand right b hright →
      motive op.chain (left ++ op.sign ++ right) (.binary op a b) (hleft.operator hright)) :
    motive n text e h := by
  induction h with
  | sum h ih => exact operand .lessThan h ih
  | product h ih => exact operand .add h ih
  | atom h ih => exact operand .multiply h ih
  | lessThan hleft hright ihleft ihright =>
      exact operator .lessThan hleft hright ihleft ihright
  | add hleft hright ihleft ihright => exact operator .add hleft hright ihleft ihright
  | multiply hleft hright ihleft ihright =>
      exact operator .multiply hleft hright ihleft ihright
  | number hne hdigits hn => exact value (.number hne hdigits hn) (plain_of_digits hdigits)
  | negative hne hdigits hn => exact value (.negative hne hdigits hn) (plain_of_sign hdigits)
  | yes => exact value .yes (plain_value (.boolean true))
  | no => exact value .no (plain_value (.boolean false))
  | name h => exact name h
  | brackets h ih => exact brackets h ih

/-- What is read closes just the brackets that it opens. -/
theorem balanced (h : n.Reads text e) : Brackets.Balanced text.toList := by
  induction h using chain_induction with
  | value h hplain => exact hplain.balanced
  | name h => exact (plain_of_identifier h).balanced
  | brackets h ih =>
      rw [String.toList_append, String.toList_append]
      exact ih.brackets
  | operand op h ih => exact ih
  | operator op _ _ ihleft ihright =>
      rw [String.toList_append, String.toList_append]
      exact (ihleft.append (plain_sign op).balanced).append ihright

/-! ## Brackets that are needed -/

/-- Whatever is read as an expression opens at least as many brackets as the text of the expression
does, and one more where the expression is too weak to be read without them. -/
theorem count_le (h : n.Reads text e) :
    (Expr.bracketed (e.precedence < n.strength) e.text).toList.count '(' ≤
      text.toList.count '(' := by
  induction h using chain_induction with
  | @value text v h hplain =>
      show v.text.toList.count '(' ≤ text.toList.count '('
      rw [(plain_value v).count_open]
      exact Nat.zero_le _
  | name h => exact Nat.le_refl _
  | @brackets text e h ih =>
      rw [count_bracketed] at ih ⊢
      rw [count_brackets]
      have hone := Bool.toNat_le (decide (e.precedence < Nonterminal.atom.strength))
      omega
  | @operand op text e h ih =>
      -- The operator reads weaker expressions without brackets than its operands may be.
      rw [op.strength_operand] at ih
      rw [op.strength_chain]
      refine Nat.le_trans (count_bracketed_le (fun hweak => ?_) e.text) ih
      exact decide_eq_true (Nat.lt_succ_of_lt (of_decide_eq_true hweak))
  | @operator op left right a b hleft hright ihleft ihright =>
      rw [op.strength_chain] at ihleft ⊢
      rw [op.strength_operand] at ihright
      have hstrong : decide ((Expr.binary op a b).precedence < op.precedence) = false :=
        decide_eq_false (Nat.lt_irrefl _)
      have hsecond : decide (b.precedence < op.precedence + 1) =
          decide (b.precedence ≤ op.precedence) :=
        decide_eq_decide.2 Nat.lt_succ_iff
      rw [hsecond] at ihright
      rw [hstrong, count_operator]
      show (Expr.binary op a b).text.toList.count '(' ≤ _
      rw [Expr.text_binary, count_operator]
      exact Nat.add_le_add ihleft ihright

/-! ## Texts without a pair of their brackets -/

/-- A chain goes on with an operator that binds as tightly as its own, or more tightly, and an
operand. -/
theorem exists_extended (h : n.Reads left a) (hright : op.operand.Reads right b)
    (hle : n.strength ≤ op.precedence) : ∃ d, n.Reads (left ++ op.sign ++ right) d := by
  induction h using chain_induction with
  | value | name | brackets => exact absurd hle (Nat.not_le.2 op.precedence_lt_four)
  | operand other h ih =>
      rw [other.strength_chain] at hle
      rcases Nat.eq_or_lt_of_le hle with heq | hlt
      · obtain rfl := Operator.precedence_injective heq
        exact ⟨_, h.operand.operator hright⟩
      · rw [other.strength_operand] at ih
        obtain ⟨d, hd⟩ := ih hlt
        exact ⟨d, hd.operand⟩
  | operator other hfirst hsecond _ ih =>
      rw [other.strength_chain] at hle
      rcases Nat.eq_or_lt_of_le hle with heq | hlt
      · obtain rfl := Operator.precedence_injective heq
        exact ⟨_, (hfirst.operator hsecond).operator hright⟩
      · -- The operator binds tighter, so it takes the last operand of the chain.
        rw [other.strength_operand] at ih
        obtain ⟨d, hd⟩ := ih hlt
        have hchain := hfirst.operator hd
        rw [← String.append_assoc, ← String.append_assoc] at hchain
        exact ⟨_, hchain⟩

/-- A comparison goes on with an operator and an atom, which is an operand of any operator. -/
theorem exists_joined_atom (hleft : Nonterminal.comparison.Reads left a)
    (hright : Nonterminal.atom.Reads right b) :
    ∃ d, Nonterminal.comparison.Reads (left ++ op.sign ++ right) d :=
  hleft.exists_extended (hright.loosen (by cases op <;> decide)) op.precedence_pos

/-- A comparison goes on with an operator and anything that is read. -/
theorem exists_joined (hleft : Nonterminal.comparison.Reads left a) (hright : n.Reads right b) :
    ∃ d, Nonterminal.comparison.Reads (left ++ op.sign ++ right) d := by
  induction hright using chain_induction generalizing left a op with
  | value h _ => exact hleft.exists_joined_atom h
  | name h => exact hleft.exists_joined_atom (.name h)
  | brackets h _ => exact hleft.exists_joined_atom (.brackets h)
  | operand _ _ ih => exact ih hleft
  | operator other _ _ ihfirst ihsecond =>
      -- The text on the right is a chain itself. First its own chain joins, then its last operand.
      obtain ⟨d, hd⟩ := ihfirst hleft
      rw [← String.append_assoc, ← String.append_assoc]
      exact ihsecond hd

/-- What is read is read as a comparison also without any one pair of its brackets. -/
theorem exists_deleted (h : n.Reads text e) (pair : Pair text.toList) :
    ∃ d, Nonterminal.comparison.Reads (String.ofList pair.deleted) d := by
  induction h using chain_induction with
  | value h hplain => exact absurd hplain pair.not_plain
  | name h => exact absurd (plain_of_identifier h) pair.not_plain
  | @brackets text e h ih =>
      rcases pair.cases_brackets (by rw [String.toList_append, String.toList_append]; rfl)
        h.balanced with hdeleted | ⟨inner, hdeleted⟩
      · rw [hdeleted, String.ofList_toList]
        exact ⟨e, h⟩
      · obtain ⟨d, hd⟩ := ih inner
        have htext : String.ofList pair.deleted = "(" ++ String.ofList inner.deleted ++ ")" := by
          rw [hdeleted, ← String.toList_inj]
          simp only [String.toList_append, String.toList_ofList]
          rfl
        rw [htext]
        exact ⟨d, hd.brackets.loosen (by decide)⟩
  | operand _ _ ih => exact ih pair
  | @operator op left right a b hleft hright ihleft ihright =>
      have hparts : (left ++ op.sign ++ right).toList =
          left.toList ++ (op.sign.toList ++ right.toList) := by
        rw [String.toList_append, String.toList_append, List.append_assoc]
      rcases pair.cases_append hparts hleft.balanced with ⟨inner, hdeleted⟩ | ⟨later, hdeleted⟩
      · obtain ⟨d, hd⟩ := ihleft inner
        rw [hdeleted, String.ofList_append, String.ofList_append, String.ofList_toList,
          String.ofList_toList, ← String.append_assoc]
        exact hd.exists_joined hright
      · rcases later.cases_append rfl (plain_sign op).balanced with ⟨sign, -⟩ | ⟨inner, hlater⟩
        · exact absurd (plain_sign op) sign.not_plain
        · obtain ⟨d, hd⟩ := ihright inner
          rw [hdeleted, hlater, String.ofList_append, String.ofList_append, String.ofList_toList,
            String.ofList_toList, ← String.append_assoc]
          exact (hleft.loosen (by cases op <;> decide)).exists_joined hd

end Nonterminal.Reads

namespace Expr

/-- The text of an expression whose names are identifiers has no superfluous brackets. Every bracket
that it opens is one of a pair. Without the two brackets of any one pair, the text is still read in
just one way, as another expression. -/
theorem text_without_pair {e : Expr} (hnames : ∀ name ∈ e.names, Reader.isIdentifier name = true) :
    (∀ before rest, e.text.toList = before ++ '(' :: rest →
      ∃ pair : Pair e.text.toList, pair.before = before) ∧
    ∀ pair : Pair e.text.toList, ∃ d, d ≠ e ∧
      ∀ other, Nonterminal.comparison.Reads (String.ofList pair.deleted) other ↔ other = d := by
  have hreads := reads_text hnames
  refine ⟨fun before rest hopened => hreads.balanced.exists_pair hopened, fun pair => ?_⟩
  obtain ⟨d, hd⟩ := hreads.exists_deleted pair
  refine ⟨d, ?_, fun other => ?_⟩
  · rintro rfl
    have hle := hd.count_le
    have hless := pair.count_deleted
    have hstrong : decide (d.precedence < Nonterminal.comparison.strength) = false :=
      decide_eq_false (Nat.not_lt.2 d.precedence_pos)
    rw [hstrong, String.toList_ofList] at hle
    have hcount : d.text.toList.count '(' ≤ pair.deleted.count '(' := hle
    omega
  · constructor
    · intro h
      exact h.unique hd
    · rintro rfl
      exact hd

/-- Without its brackets, the sum in the middle of `x * (y + 2) * z` loses an operand to each of the
products beside it. -/
theorem text_without_pair_in_product :
    let sum : Expr := .binary .add (.var "y") (.literal (.number 2))
    let e : Expr := .binary .multiply (.binary .multiply (.var "x") sum) (.var "z")
    let d : Expr := .binary .add (.binary .multiply (.var "x") (.var "y"))
      (.binary .multiply (.literal (.number 2)) (.var "z"))
    (∀ name ∈ e.names, Reader.isIdentifier name = true) ∧ d ≠ e ∧
      ∃ pair : Pair e.text.toList, String.ofList pair.deleted = "x * y + 2 * z" ∧
        ∀ other, Nonterminal.comparison.Reads "x * y + 2 * z" other ↔ other = d := by
  intro sum e d
  have he : ∀ name ∈ e.names, Reader.isIdentifier name = true := by decide
  have hd : ∀ name ∈ d.names, Reader.isIdentifier name = true := by decide
  let pair : Pair e.text.toList :=
    ⟨"x * ".toList, "y + 2".toList, " * z".toList, by decide, rfl⟩
  have hdeleted : String.ofList pair.deleted = "x * y + 2 * z" := rfl
  have hread : Nonterminal.comparison.Reads d.text d :=
    (reads_text hd).loosen (by decide)
  have htext : d.text = "x * y + 2 * z" := by decide
  obtain ⟨-, hpairs⟩ := text_without_pair he
  obtain ⟨found, -, honly⟩ := hpairs pair
  rw [hdeleted] at honly
  rw [htext] at hread
  obtain rfl : d = found := (honly d).1 hread
  exact ⟨he, by decide, pair, hdeleted, honly⟩

end Expr

end WhileLanguage
