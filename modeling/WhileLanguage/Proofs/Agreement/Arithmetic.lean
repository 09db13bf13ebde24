import Mathlib.Data.Int.ModEq
import WhileLanguage.Proofs.Agreement.Expressions
import WhileLanguage.Proofs.Syntax

/-!
# Sums and products that wrap

Numbers wrap at the ends of the 64-bit range, in every sum and every product. `Expr.integer?`
computes the same sums and products with integers, which do not wrap. To wrap once, at the end,
gives the number that wrapping on the way gives, by `Expr.denote_of_integer?`. Read
`Expr.wraps_exactly`: all ways to run an expression of sums and products come to the one number that
is congruent to its exact value.
-/

namespace WhileLanguage

/-- One number alone is congruent to an integer: the integer wrapped to 64 bits. -/
theorem toInt_modEq_iff {n : Int64} {k : Int} :
    n.toInt ≡ k [ZMOD 2 ^ 64] ↔ n = Int64.ofInt k := by
  constructor
  · intro h
    have hbmod : k.bmod (2 ^ 64) = n.toInt := by
      calc k.bmod (2 ^ 64) = (k % 2 ^ 64).bmod (2 ^ 64) := (Int.emod_bmod k (2 ^ 64)).symm
        _ = (n.toInt % 2 ^ 64).bmod (2 ^ 64) := by rw [h]
        _ = n.toInt.bmod (2 ^ 64) := Int.emod_bmod n.toInt (2 ^ 64)
        _ = n.toInt := n.toInt_bmod
    exact ((Int64.ofInt_eq_iff_bmod_eq_toInt k n).2 hbmod).symm
  · intro h
    rw [h, Int64.toInt_ofInt]
    exact Int.bmod_emod

/-- An operator on integers, which do not wrap. A comparison does not give a number. -/
def Operator.integer? : Operator → Int → Int → Option Int
  | add, a, b => some (a + b)
  | multiply, a, b => some (a * b)
  | lessThan, _, _ => none

/-- An operator on numbers wraps what it is on integers. -/
theorem Operator.apply_of_integer? {op : Operator} {a b k : Int} (h : op.integer? a b = some k) :
    op.apply (.number (Int64.ofInt a)) (.number (Int64.ofInt b)) =
      .ok (.number (Int64.ofInt k)) := by
  cases op with
  | add =>
      obtain rfl := Option.some.inj h
      rw [Int64.ofInt_add]
      rfl
  | multiply =>
      obtain rfl := Option.some.inj h
      rw [Int64.ofInt_mul]
      rfl
  | lessThan => cases h

namespace Expr

variable {env : Environment} {e : Expr}

/-- An expression of numbers, names, sums and products. -/
inductive Arithmetic : Expr → Prop where
  | number (n : Int64) : Arithmetic (literal (.number n))
  | var (name : String) : Arithmetic (var name)
  | add {left right} : Arithmetic left → Arithmetic right → Arithmetic (binary .add left right)
  | multiply {left right} :
      Arithmetic left → Arithmetic right → Arithmetic (binary .multiply left right)

/-- The exact value of an expression, where sums and products do not wrap. What is not a number has
none. -/
def integer? (env : Environment) : Expr → Option Int
  | literal v => v.number?.map Int64.toInt
  | var name => ((env.get? name).bind Value.number?).map Int64.toInt
  | binary op left right => do
      let a ← left.integer? env
      let b ← right.integer? env
      op.integer? a b

/-- The exact value of two operands is that of their operator. -/
theorem integer?_binary_eq_some_iff {op : Operator} {left right : Expr} {k : Int} :
    (binary op left right).integer? env = some k ↔
      ∃ a, left.integer? env = some a ∧
        ∃ b, right.integer? env = some b ∧ op.integer? a b = some k := by
  rw [integer?]
  simp only [bind, Option.bind_eq_some_iff]

/-- An expression of sums and products has an exact value where all its names are numbers. -/
theorem Arithmetic.exists_integer? (h : e.Arithmetic)
    (hnumbers : ∀ name ∈ e.names, ∃ n, env.get? name = some (.number n)) :
    ∃ k, e.integer? env = some k := by
  induction h with
  | number n => exact ⟨n.toInt, rfl⟩
  | var name =>
      obtain ⟨n, hn⟩ := hnumbers name (List.mem_singleton_self name)
      exact ⟨n.toInt, by rw [integer?, hn]; rfl⟩
  | add _ _ ihleft ihright | multiply _ _ ihleft ihright =>
      obtain ⟨a, ha⟩ := ihleft fun name hname => hnumbers name (List.mem_append_left _ hname)
      obtain ⟨b, hb⟩ := ihright fun name hname => hnumbers name (List.mem_append_right _ hname)
      exact ⟨_, integer?_binary_eq_some_iff.2 ⟨a, ha, b, hb, rfl⟩⟩

/-- An expression with an exact value denotes the exact value, wrapped to 64 bits. -/
theorem denote_of_integer? {k : Int} (h : e.integer? env = some k) :
    e.denote env = .ok (.number (Int64.ofInt k)) := by
  induction e generalizing k with
  | literal v =>
      cases v with
      | number n =>
          obtain rfl := Option.some.inj h
          rw [Int64.ofInt_toInt]
          rfl
      | boolean b => cases h
  | var name =>
      obtain ⟨n, hn, rfl⟩ := Option.map_eq_some_iff.1 h
      obtain ⟨v, hv, hnumber⟩ := Option.bind_eq_some_iff.1 hn
      cases v with
      | number m =>
          obtain rfl := Option.some.inj hnumber
          show env.lookup name = .ok (.number (Int64.ofInt m.toInt))
          rw [Environment.lookup, hv, Int64.ofInt_toInt]
      | boolean b => cases hnumber
  | binary op left right ihleft ihright =>
      obtain ⟨a, ha, b, hb, hk⟩ := integer?_binary_eq_some_iff.1 h
      rw [denote_binary_of_ok (ihleft ha), ihright hb]
      exact Operator.apply_of_integer? hk

/-- Sums and products are exact up to multiples of `2 ^ 64`. An expression of numbers, names, sums
and products has an exact value where all its names are numbers. There is one number that is
congruent to it, and all ways to run the expression come to that number, as they do for every other
expression with the same exact value. -/
theorem wraps_exactly (he : e.Arithmetic)
    (hnumbers : ∀ name ∈ e.names, ∃ n, env.get? name = some (.number n)) :
    ∃ k n, e.integer? env = some k ∧ (∀ m : Int64, m.toInt ≡ k [ZMOD 2 ^ 64] ↔ m = n) ∧
      e.Agreed env (.ok (.number n)) ∧
      ∀ d : Expr, d.integer? env = some k → d.Agreed env (.ok (.number n)) := by
  obtain ⟨k, hk⟩ := he.exists_integer? hnumbers
  have hagreed : ∀ d : Expr, d.integer? env = some k →
      d.Agreed env (.ok (.number (Int64.ofInt k))) := by
    intro d hd
    rw [← denote_of_integer? hd]
    exact agreed_denote d env
  exact ⟨k, Int64.ofInt k, hk, fun m => toInt_modEq_iff, hagreed e hk, hagreed⟩

/-- `(x + 1) * 2` and `x * 2 + 2` overflow in different places where `x` is the greatest number.
Their exact value is `2 ^ 64`, and both come to zero. -/
theorem wraps_exactly_at_greatest :
    let env := Environment.empty.insert "x" (.number Int64.maxValue)
    let two : Expr := .literal (.number 2)
    let e : Expr := .binary .multiply (.binary .add (.var "x") (.literal (.number 1))) two
    let d : Expr := .binary .add (.binary .multiply (.var "x") two) two
    e.Arithmetic ∧ (∀ name ∈ e.names, ∃ n, env.get? name = some (.number n)) ∧
      e.integer? env = some (2 ^ 64) ∧ d.integer? env = some (2 ^ 64) ∧
      e.Agreed env (.ok (.number 0)) ∧ d.Agreed env (.ok (.number 0)) := by
  intro env two e d
  have he : e.Arithmetic := .multiply (.add (.var "x") (.number 1)) (.number 2)
  have hnumbers : ∀ name ∈ e.names, ∃ n, env.get? name = some (.number n) := by
    intro name hname
    obtain rfl := List.mem_singleton.1 hname
    exact ⟨_, rfl⟩
  have hexact : e.integer? env = some (2 ^ 64) := rfl
  have hother : d.integer? env = some (2 ^ 64) := rfl
  obtain ⟨k, n, hk, hunique, hagreed, hsame⟩ := wraps_exactly he hnumbers
  obtain rfl := Option.some.inj (hk.symm.trans hexact)
  obtain rfl : (0 : Int64) = n := (hunique 0).1 rfl
  exact ⟨he, hnumbers, hexact, hother, hagreed, hsame d hother⟩

end Expr

end WhileLanguage
