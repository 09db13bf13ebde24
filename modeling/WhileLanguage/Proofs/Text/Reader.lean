import WhileLanguage.Value

/-!
# Readers of text

A `Reader` takes a part of a text from its start and leaves the rest, or fails. The readers here
are what grammars are made of: fixed texts, words, values, and items with a separator between
them. For each there is a statement that it reads back what is written, whatever follows: read
`Reader.value_append` and `Reader.separated_intercalate` first. What follows must not go on with
the part that is read, so words and numbers must end there: `Reader.EndsWord`.
-/

namespace WhileLanguage

/-- Reads a part of a text from its start, if it can, and leaves the rest of the text. -/
abbrev Reader : Type → Type :=
  StateT (List Char) Option

namespace Reader

variable {α β : Type} {x : Reader α} {f : α → Reader β} {a : α} {input rest : List Char}

/-- Readers that follow one another start from what the ones before them leave. -/
theorem bind_of_eq_some (h : x input = some (a, rest)) : (x >>= f) input = f a rest := by
  simp [bind, StateT.bind, h]

/-- A reader that fails ends all that would follow it. -/
theorem bind_of_eq_none (h : x input = none) : (x >>= f) input = none := by
  simp [bind, StateT.bind, h]

/-- An alternative is not tried where a reader succeeds. -/
theorem orElse_of_eq_some {y : Reader α} (h : x input = some (a, rest)) :
    (x <|> y) input = some (a, rest) := by
  show (x input <|> y input) = some (a, rest)
  rw [h]
  rfl

/-- An alternative is tried where a reader fails. -/
theorem orElse_of_eq_none {y : Reader α} (h : x input = none) : (x <|> y) input = y input := by
  show (x input <|> y input) = y input
  rw [h]
  rfl

/-! ## Fixed texts -/

/-- Reads a text if the input starts with it, and says whether it does. -/
def accepts (text : String) : Reader Bool := fun input =>
  if text.toList <+: input then some (true, input.drop text.toList.length)
  else some (false, input)

/-- Reads a text that the input has to start with. -/
def expect (text : String) : Reader Unit := do
  if ← accepts text then return () else failure

/-- A text is accepted where it is written. -/
theorem accepts_append (text : String) (rest : List Char) :
    accepts text (text.toList ++ rest) = some (true, rest) := by
  rw [accepts, if_pos (List.prefix_append _ _), List.drop_left]

/-- A text is not accepted where another one is written. -/
theorem accepts_eq_false {text : String} (h : ¬ text.toList <+: input) :
    accepts text input = some (false, input) :=
  if_neg h

/-- Where a text is written, no text is that neither starts it nor starts with it. -/
theorem not_prefix_append {text other : String} (h : ¬ text.toList <+: other.toList)
    (hother : ¬ other.toList <+: text.toList) : ¬ text.toList <+: other.toList ++ rest :=
  fun hprefix => (List.prefix_or_prefix_of_prefix hprefix (List.prefix_append _ rest)).elim h hother

/-- A text that is expected is read where it is written. -/
theorem expect_append (text : String) (rest : List Char) :
    expect text (text.toList ++ rest) = some ((), rest) := by
  rw [expect, bind_of_eq_some (accepts_append text rest)]
  rfl

/-! ## Words -/

/-- Reads the longest run of characters that a test holds of. -/
def run (test : Char → Bool) : Reader (List Char) := fun input =>
  some (input.takeWhile test, input.dropWhile test)

/-- An empty run is read where the test does not hold of the first character. -/
theorem run_of_head {test : Char → Bool} (h : ∀ c ∈ input.head?, test c = false) :
    run test input = some ([], input) := by
  cases input with
  | nil => rfl
  | cons c input => simp [run, h c rfl]

/-- A run of characters is read up to the first one that the test does not hold of. -/
theorem run_append {test : Char → Bool} {chars : List Char} (hchars : ∀ c ∈ chars, test c = true)
    (hrest : ∀ c ∈ rest.head?, test c = false) :
    run test (chars ++ rest) = some (chars, rest) := by
  have hnone := run_of_head hrest
  simp only [run, Option.some.injEq, Prod.mk.injEq] at hnone ⊢
  rw [List.takeWhile_append_of_pos hchars, List.dropWhile_append_of_pos hchars, hnone.1, hnone.2,
    List.append_nil]
  exact ⟨rfl, rfl⟩

/-- Whether a character can stand in a name: a letter or digit of ASCII, or an underscore. -/
def isWordChar (c : Char) : Bool :=
  c.isAlphanum || c == '_'

/-- The text does not start with a character that a word could go on with. -/
def EndsWord (rest : List Char) : Prop :=
  ∀ c ∈ rest.head?, isWordChar c = false

/-- A character that cannot stand in a word ends one. -/
theorem endsWord_cons {c : Char} (h : isWordChar c = false) : EndsWord (c :: rest) := by
  rintro _ ⟨⟩
  exact h

/-- Reads a word. -/
def word : Reader String := do
  let chars ← run isWordChar
  if chars.isEmpty then failure else return String.ofList chars

/-- A word is read where it is written and nothing goes on with it. -/
theorem word_append {name : String} (hne : name.toList ≠ [])
    (hchars : name.toList.all isWordChar = true) (hrest : EndsWord rest) :
    word (name.toList ++ rest) = some (name, rest) := by
  have hrun := run_append (List.all_eq_true.1 hchars) hrest
  rw [word, bind_of_eq_some hrun, if_neg (by simpa using hne),
    String.ofList_toList]
  rfl

/-- No word is read where none starts. -/
theorem word_of_endsWord (h : EndsWord input) : word input = none := by
  rw [word, bind_of_eq_some (run_of_head h)]
  rfl

/-- Whether a text can stand for a name: a word that does not start with a digit and is not a
boolean. -/
def isIdentifier (name : String) : Bool :=
  name.toList.all isWordChar && name.toList.head?.any (!·.isDigit) &&
    name != "true" && name != "false"

/-- Reads a name. -/
def identifier : Reader String := do
  let name ← word
  if isIdentifier name then return name else failure

/-- An identifier is a word. -/
theorem word_identifier {name : String} (h : isIdentifier name = true) (hrest : EndsWord rest) :
    word (name.toList ++ rest) = some (name, rest) := by
  simp only [isIdentifier, Bool.and_eq_true] at h
  obtain ⟨⟨⟨hchars, hfirst⟩, -⟩, -⟩ := h
  refine word_append (fun hnil => ?_) hchars hrest
  rw [hnil] at hfirst
  cases hfirst

/-- A name is read where it is written and nothing goes on with it. -/
theorem identifier_append {name : String} (h : isIdentifier name = true)
    (hrest : EndsWord rest) : identifier (name.toList ++ rest) = some (name, rest) := by
  rw [identifier, bind_of_eq_some (word_identifier h hrest), if_pos h]
  rfl

/-! ## Values -/

/-- Reads the digits of a 64-bit number that is negative or not. -/
def magnitude (negative : Bool) : Reader Int64 := do
  let digits ← run Char.isDigit
  let size : Int := Nat.ofDigitChars 10 digits 0
  let n := if negative then -size else size
  if digits.isEmpty || (Int64.ofInt n).toInt != n then failure else return Int64.ofInt n

/-- Reads a 64-bit number in decimal, with a sign if it is negative. -/
def number : Reader Int64 := do
  magnitude (← accepts "-")

/-- Reads a value. -/
def value : Reader Value :=
  (do return .number (← number)) <|> do
    let name ← word
    if name = "true" then return .boolean true
    else if name = "false" then return .boolean false
    else failure

/-- Digits are word characters. -/
theorem isWordChar_of_isDigit {c : Char} (h : c.isDigit = true) : isWordChar c = true := by
  simp [isWordChar, Char.isAlphanum, h]

/-- Digits are read where they are written and no word character follows. -/
theorem run_digits {digits : List Char} (hdigits : ∀ c ∈ digits, c.isDigit = true)
    (hrest : EndsWord rest) : run Char.isDigit (digits ++ rest) = some (digits, rest) := by
  refine run_append hdigits ?_
  intro c hc
  have hword := hrest c hc
  rw [← Bool.not_eq_true] at hword ⊢
  exact fun hdigit => hword (isWordChar_of_isDigit hdigit)

/-- The digits of a number are read where they are written and no word character follows. -/
theorem magnitude_append {negative : Bool} {digits : List Char} {n : Int64} (hne : digits ≠ [])
    (hdigits : ∀ c ∈ digits, c.isDigit = true)
    (hn : n.toInt = if negative then -(Nat.ofDigitChars 10 digits 0 : Int)
      else Nat.ofDigitChars 10 digits 0) (hrest : EndsWord rest) :
    magnitude negative (digits ++ rest) = some (n, rest) := by
  have hempty : digits.isEmpty = false := by simpa using hne
  rw [magnitude, bind_of_eq_some (run_digits hdigits hrest)]
  simp only [← hn, hempty, Int64.ofInt_toInt, bne_self_eq_false, Bool.or_self]
  rfl

/-- No number is read where the text starts with neither a sign nor a digit. -/
theorem number_eq_none (h : ∀ c ∈ input.head?, c.isDigit = false ∧ c ≠ '-') :
    number input = none := by
  have hsign : ¬ "-".toList <+: input := by
    rintro ⟨rest, rfl⟩
    exact (h '-' rfl).2 rfl
  have hrun : run Char.isDigit input = some ([], input) := run_of_head fun c hc => (h c hc).1
  rw [number, bind_of_eq_some (accepts_eq_false hsign), magnitude, bind_of_eq_some hrun]
  rfl

/-- A number without a sign is read where its digits are written. -/
theorem number_digits {digits : List Char} {n : Int64} (hne : digits ≠ [])
    (hdigits : ∀ c ∈ digits, c.isDigit = true) (hn : n.toInt = Nat.ofDigitChars 10 digits 0)
    (hrest : EndsWord rest) : number (digits ++ rest) = some (n, rest) := by
  have hsign : ¬ "-".toList <+: digits ++ rest := by
    intro h
    obtain ⟨other, hother⟩ := h
    obtain ⟨c, others, rfl⟩ := List.exists_cons_of_ne_nil hne
    have hc := hdigits c List.mem_cons_self
    obtain rfl : '-' = c := by simpa using congrArg List.head? hother
    cases hc
  rw [number, bind_of_eq_some (accepts_eq_false hsign)]
  exact magnitude_append hne hdigits hn hrest

/-- A negative number is read where its digits are written after a sign. -/
theorem number_sign {digits : List Char} {n : Int64} (hne : digits ≠ [])
    (hdigits : ∀ c ∈ digits, c.isDigit = true)
    (hn : n.toInt = -(Nat.ofDigitChars 10 digits 0 : Int)) (hrest : EndsWord rest) :
    number ("-".toList ++ (digits ++ rest)) = some (n, rest) := by
  rw [number, bind_of_eq_some (accepts_append "-" _)]
  exact magnitude_append hne hdigits hn hrest

/-- The text of a number has digits alone, after a sign if the number is negative. -/
theorem digits_of_number (n : Int64) :
    ∃ digits : String, digits.toList ≠ [] ∧ (∀ c ∈ digits.toList, c.isDigit = true) ∧
      ((n.toInt.repr = digits ∧ n.toInt = Nat.ofDigitChars 10 digits.toList 0) ∨
        (n.toInt.repr = "-" ++ digits ∧
          n.toInt = -(Nat.ofDigitChars 10 digits.toList 0 : Int))) := by
  have hread (size : Nat) : Nat.ofDigitChars 10 size.repr.toList 0 = size := by
    rw [Nat.toList_repr]
    exact Nat.ofDigitChars_toDigits (by decide) (by decide)
  have hdigits (size : Nat) : ∀ c ∈ size.repr.toList, c.isDigit = true := by
    rw [Nat.toList_repr]
    exact fun c hc => Nat.isDigit_of_mem_toDigits (by decide) (by decide) hc
  have hne (size : Nat) : size.repr.toList ≠ [] := by
    rw [Nat.toList_repr]
    exact Nat.toDigits_ne_nil
  cases hn : n.toInt with
  | ofNat size => exact ⟨size.repr, hne size, hdigits size, .inl ⟨rfl, by rw [hread]; rfl⟩⟩
  | negSucc size =>
      exact ⟨(size + 1).repr, hne _, hdigits _, .inr ⟨rfl, by rw [hread]; rfl⟩⟩

/-- A number is read where it is written and no word character follows. -/
theorem number_append (n : Int64) (hrest : EndsWord rest) :
    number (n.toInt.repr.toList ++ rest) = some (n, rest) := by
  obtain ⟨digits, hne, hdigits, ⟨hrepr, hn⟩ | ⟨hrepr, hn⟩⟩ := digits_of_number n
  · rw [hrepr]
    exact number_digits hne hdigits hn hrest
  · rw [hrepr, String.toList_append, List.append_assoc]
    exact number_sign hne hdigits hn hrest

/-- A value is read where it is written and no word character follows. -/
theorem value_append (v : Value) (hrest : EndsWord rest) :
    value (v.text.toList ++ rest) = some (v, rest) := by
  cases v with
  | number n =>
      refine orElse_of_eq_some ?_
      rw [Value.text, bind_of_eq_some (number_append n hrest)]
      rfl
  | boolean b =>
      have hnumber : number ((Value.boolean b).text.toList ++ rest) = none := by
        refine number_eq_none fun c hc => ?_
        cases b <;> cases hc <;> decide
      have hword : word ((Value.boolean b).text.toList ++ rest) =
          some ((Value.boolean b).text, rest) := by
        refine word_append ?_ ?_ hrest <;> cases b <;> decide
      rw [value, orElse_of_eq_none (bind_of_eq_none hnumber), bind_of_eq_some hword]
      cases b <;> rfl

/-- No value is read where a name is written. -/
theorem value_identifier {name : String} (h : isIdentifier name = true)
    (hrest : EndsWord rest) : value (name.toList ++ rest) = none := by
  have hword := word_identifier h hrest
  simp only [isIdentifier, Bool.and_eq_true, bne_iff_ne, ne_eq, List.all_eq_true] at h
  obtain ⟨⟨⟨hchars, hfirst⟩, htrue⟩, hfalse⟩ := h
  have hnumber : number (name.toList ++ rest) = none := by
    refine number_eq_none fun c hc => ?_
    cases hname : name.toList with
    | nil => rw [hname] at hfirst; cases hfirst
    | cons first others =>
        rw [hname] at hc hfirst hchars
        obtain rfl : first = c := Option.some.inj hc
        refine ⟨by simpa using hfirst, ?_⟩
        rintro rfl
        exact absurd (hchars '-' List.mem_cons_self) (by decide)
  rw [value, orElse_of_eq_none (bind_of_eq_none hnumber), bind_of_eq_some hword, if_neg htrue,
    if_neg hfalse]
  rfl

/-! ## Items with a separator between them -/

/-- Reads as many items as there are with a separator between them, if they are at most so many. -/
def separated (item : Reader α) (separator : String) : Nat → Reader (List α)
  | 0 => failure
  | bound + 1 => do
      let first ← item
      if ← accepts separator then return first :: (← separated item separator bound)
      else return [first]

/-- No items are read where no item is. -/
theorem separated_eq_none {item : Reader α} {separator : String} {bound : Nat}
    (h : item input = none) : separated item separator bound input = none := by
  cases bound with
  | zero => rfl
  | succ bound => exact bind_of_eq_none h

/-- Items are read where their texts are written with the separator between them, if each of them
is read before the separator and before what follows them all. -/
theorem separated_append {item : Reader α} {separator : String} {ends : List Char → Prop}
    (hseparator : ∀ rest, ends (separator.toList ++ rest)) {items : List (String × α)}
    (hne : items ≠ [])
    (hitem : ∀ x ∈ items, ∀ rest, ends rest → item (x.1.toList ++ rest) = some (x.2, rest))
    {bound : Nat} (hbound : items.length ≤ bound) (hrest : ends rest)
    (hstop : ¬ separator.toList <+: rest) :
    separated item separator bound
      ((separator.intercalate (items.map Prod.fst)).toList ++ rest) =
        some (items.map Prod.snd, rest) := by
  induction items generalizing bound with
  | nil => exact absurd rfl hne
  | cons first others ih =>
      obtain ⟨bound, rfl⟩ := Nat.exists_eq_add_one.2 (Nat.lt_of_lt_of_le (Nat.succ_pos _) hbound)
      have hfirst := hitem first List.mem_cons_self
      by_cases hothers : others = []
      · subst hothers
        rw [List.map_singleton, String.intercalate_singleton, separated,
          bind_of_eq_some (hfirst rest hrest), bind_of_eq_some (accepts_eq_false hstop)]
        rfl
      · have hread := ih hothers (fun x hx => hitem x (List.mem_cons_of_mem _ hx))
          (Nat.le_of_succ_le_succ hbound)
        rw [List.map_cons, String.intercalate_cons_of_ne_nil (by simpa using hothers),
          String.toList_append, String.toList_append, List.append_assoc, List.append_assoc,
          separated, bind_of_eq_some (hfirst _ (hseparator _)),
          bind_of_eq_some (accepts_append _ _), if_pos rfl, bind_of_eq_some hread]
        rfl

/-- Items are read where all of them are written in one way, with the separator between them. -/
theorem separated_intercalate {item : Reader α} {separator : String} {write : α → String}
    {ends : List Char → Prop} (hseparator : ∀ rest, ends (separator.toList ++ rest))
    {items : List α} (hne : items ≠ [])
    (hitem : ∀ a ∈ items, ∀ rest, ends rest → item ((write a).toList ++ rest) = some (a, rest))
    {bound : Nat} (hbound : items.length ≤ bound) (hrest : ends rest)
    (hstop : ¬ separator.toList <+: rest) :
    separated item separator bound ((separator.intercalate (items.map write)).toList ++ rest) =
      some (items, rest) := by
  have hpairs : ∀ x ∈ items.map (fun a => (write a, a)), ∀ rest, ends rest →
      item (x.1.toList ++ rest) = some (x.2, rest) := by
    intro x hx
    obtain ⟨a, ha, rfl⟩ := List.mem_map.1 hx
    exact hitem a ha
  have hread := separated_append hseparator (by simpa using hne) hpairs
    (by simpa using hbound) hrest hstop
  simpa [Function.comp_def] using hread

end Reader

end WhileLanguage
