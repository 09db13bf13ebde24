/-!
# Pairs of brackets

A bracket of a text and the one that closes it are a pair, if what stands between them closes just
the brackets that it opens. `Brackets.Pair` is a pair with its place in a text, and
`Brackets.Pair.deleted` the text without the two. Read `Brackets.Balanced.exists_pair` first: in a
balanced text every bracket that is opened is one of a pair. A pair lies in one part of a text, by
`Brackets.Pair.cases_append`, and is the outermost or lies within it, by
`Brackets.Pair.cases_brackets`.
-/

namespace WhileLanguage.Brackets

variable {start depth last : Nat} {c : Char} {text left right before inside after rest : List Char}

/-! ## Depth -/

/-- The depth in brackets after a character. No bracket is closed that is not open. -/
def after? (depth : Nat) (c : Char) : Option Nat :=
  if c = '(' then some (depth + 1)
  else if c = ')' then if depth = 0 then none else some (depth - 1)
  else some depth

/-- The depth in brackets after a text that starts at some depth. -/
def depth? (start : Nat) (text : List Char) : Option Nat :=
  text.foldlM after? start

/-- A text closes just the brackets that it opens. -/
def Balanced (text : List Char) : Prop :=
  depth? 0 text = some 0

/-- A text has no brackets. -/
def Plain (text : List Char) : Prop :=
  '(' ∉ text ∧ ')' ∉ text

/-- The depth after two texts is that of the second after the first. -/
theorem depth?_append :
    depth? start (left ++ right) = (depth? start left).bind fun middle => depth? middle right :=
  List.foldlM_append

/-- The depth after a text is that of its rest after its first character. -/
theorem depth?_cons :
    depth? start (c :: rest) = (after? start c).bind fun middle => depth? middle rest :=
  List.foldlM_cons

/-- A character does the same to a greater depth. -/
theorem after?_add (h : after? depth c = some last) (more : Nat) :
    after? (more + depth) c = some (more + last) := by
  unfold after? at h ⊢
  split at h
  · obtain rfl := Option.some.inj h
    rw [if_pos ‹_›, Nat.add_assoc]
  · rw [if_neg ‹_›]
    split at h
    · rw [if_pos ‹_›]
      split at h
      · cases h
      · obtain rfl := Option.some.inj h
        rw [if_neg (by omega), Nat.add_sub_assoc (by omega)]
    · rw [if_neg ‹_›]
      exact congrArg _ (congrArg _ (Option.some.inj h))

/-- The only character that cannot follow is a bracket that closes none. -/
theorem after?_eq_none_iff : after? depth c = none ↔ depth = 0 ∧ c = ')' := by
  unfold after?
  constructor
  · intro h
    split at h
    · cases h
    · split at h
      · split at h
        · exact ⟨‹_›, ‹_›⟩
        · cases h
      · cases h
  · rintro ⟨rfl, rfl⟩
    rfl

/-- A text does the same to a greater depth. -/
theorem depth?_add (h : depth? start text = some last) (more : Nat) :
    depth? (more + start) text = some (more + last) := by
  induction text generalizing start with
  | nil =>
      obtain rfl := Option.some.inj h
      rfl
  | cons c rest ih =>
      rw [depth?_cons] at h ⊢
      obtain ⟨middle, hmiddle, hrest⟩ := Option.bind_eq_some_iff.1 h
      rw [after?_add hmiddle more, Option.bind_some]
      exact ih hrest

/-- A balanced text leaves every depth as it is. -/
theorem Balanced.depth?_eq (h : Balanced text) (depth : Nat) : depth? depth text = some depth :=
  depth?_add h depth

/-- Balanced texts after one another are balanced. -/
theorem Balanced.append (hleft : Balanced left) (hright : Balanced right) :
    Balanced (left ++ right) := by
  unfold Balanced
  rw [depth?_append, hleft.depth?_eq, Option.bind_some]
  exact hright

/-- A balanced text is balanced in brackets. -/
theorem Balanced.brackets (h : Balanced text) : Balanced ('(' :: (text ++ [')'])) := by
  show depth? 1 (text ++ [')']) = some 0
  rw [depth?_append, h.depth?_eq]
  rfl

/-- A text without brackets is balanced. -/
theorem Plain.balanced (h : Plain text) : Balanced text := by
  induction text with
  | nil => rfl
  | cons c rest ih =>
      obtain ⟨hopen, hclose⟩ := h
      rw [List.mem_cons, not_or] at hopen hclose
      unfold Balanced
      rw [depth?_cons, after?, if_neg (Ne.symm hopen.1), if_neg (Ne.symm hclose.1),
        Option.bind_some]
      exact ih ⟨hopen.2, hclose.2⟩

/-- A text without brackets opens none. -/
theorem Plain.count_open (h : Plain text) : text.count '(' = 0 :=
  List.count_eq_zero.2 h.1

/-- A balanced text closes every bracket that it opens. So what it has after one does not start
another balanced text. -/
theorem Balanced.not_append_open (h : Balanced (before ++ '(' :: inside)) :
    ¬ Balanced (inside ++ after) := by
  intro hinside
  unfold Balanced at h hinside
  rw [depth?_append] at h hinside
  obtain ⟨low, -, hlow⟩ := Option.bind_eq_some_iff.1 h
  obtain ⟨depth, hdepth, -⟩ := Option.bind_eq_some_iff.1 hinside
  have hopened : depth? (low + 1) inside = some 0 := hlow
  have hhigher : depth? (low + 1) inside = some (low + 1 + depth) := depth?_add hdepth (low + 1)
  rw [hopened] at hhigher
  have hzero := Option.some.inj hhigher
  omega

/-- No bracket is left to be closed after a balanced text. -/
theorem Balanced.not_append_close (h : Balanced inside) : ¬ Balanced (inside ++ ')' :: after) := by
  intro hclosed
  unfold Balanced at hclosed
  rw [depth?_append, h.depth?_eq] at hclosed
  cases hclosed

/-- Where a balanced text and one bracket more are a balanced text, a bracket and a rest, they are
the same text and no rest. -/
theorem Balanced.eq_of_append_close (hleft : Balanced left) (hinside : Balanced inside)
    (h : left ++ [')'] = inside ++ ')' :: after) : left = inside ∧ after = [] := by
  rcases List.append_eq_append_iff.1 h with ⟨others, rfl, hlast⟩ | ⟨others, rfl, hlast⟩
  · rcases List.singleton_eq_append_iff.1 hlast with ⟨rfl, hafter⟩ | ⟨-, hafter⟩
    · exact ⟨(List.append_nil left).symm, (List.cons.inj hafter).2⟩
    · cases hafter
  · rcases List.cons_eq_append_iff.1 hlast with ⟨rfl, hafter⟩ | ⟨closed, rfl, -⟩
    · exact ⟨List.append_nil inside, (List.cons.inj hafter).2.symm⟩
    · exact absurd hleft hinside.not_append_close

/-- A text that starts inside a bracket and ends outside of it closes the bracket somewhere. -/
theorem exists_closing (h : depth? (start + 1 + depth) text = some last) (hle : last ≤ start) :
    ∃ inside after, text = inside ++ ')' :: after ∧ depth? depth inside = some 0 := by
  induction text generalizing depth with
  | nil =>
      have heq := Option.some.inj h
      omega
  | cons c rest ih =>
      rw [depth?_cons] at h
      obtain ⟨middle, hmiddle, hrest⟩ := Option.bind_eq_some_iff.1 h
      by_cases hclosed : depth = 0 ∧ c = ')'
      · obtain ⟨rfl, rfl⟩ := hclosed
        exact ⟨[], rest, rfl, rfl⟩
      · -- The character is one of those inside.
        obtain ⟨next, hnext⟩ := Option.ne_none_iff_exists'.1 (mt after?_eq_none_iff.1 hclosed)
        rw [after?_add hnext (start + 1)] at hmiddle
        obtain rfl := Option.some.inj hmiddle
        obtain ⟨inside, after, rfl, hinside⟩ := ih hrest
        refine ⟨c :: inside, after, rfl, ?_⟩
        rw [depth?_cons, hnext]
        exact hinside

/-! ## Pairs -/

/-- A pair of brackets in a text: what is written before, inside and after it. -/
structure Pair (text : List Char) where
  before : List Char
  inside : List Char
  after : List Char
  written : text = before ++ '(' :: (inside ++ ')' :: after)
  balanced : Balanced inside

/-- The text without the two brackets. -/
def Pair.deleted (pair : Pair text) : List Char :=
  pair.before ++ (pair.inside ++ pair.after)

/-- Every bracket that a balanced text opens is one of a pair. -/
theorem Balanced.exists_pair (h : Balanced text) (htext : text = before ++ '(' :: rest) :
    ∃ pair : Pair text, pair.before = before := by
  subst htext
  unfold Balanced at h
  rw [depth?_append] at h
  obtain ⟨low, -, hlow⟩ := Option.bind_eq_some_iff.1 h
  have hopened : depth? (low + 1 + 0) rest = some 0 := hlow
  obtain ⟨inside, after, rfl, hinside⟩ := exists_closing hopened (Nat.zero_le low)
  exact ⟨⟨before, inside, after, rfl, hinside⟩, rfl⟩

namespace Pair

/-- A text with a pair opens a bracket. -/
theorem open_mem (pair : Pair text) : '(' ∈ text := by
  rw [pair.written]
  exact List.mem_append_right _ List.mem_cons_self

/-- A text without brackets has no pair. -/
theorem not_plain (pair : Pair text) : ¬ Plain text :=
  fun h => h.1 pair.open_mem

/-- Without a pair, a text opens one bracket less. -/
theorem count_deleted (pair : Pair text) : pair.deleted.count '(' + 1 = text.count '(' := by
  obtain ⟨before, inside, after, rfl, hinside⟩ := pair
  simp only [deleted, List.count_append, List.count_cons_self]
  rw [List.count_cons_of_ne (by decide)]
  omega

/-- A pair of two texts is one of the first or of the second, if the first is balanced. -/
theorem cases_append (pair : Pair text) (htext : text = left ++ right) (hleft : Balanced left) :
    (∃ inner : Pair left, pair.deleted = inner.deleted ++ right) ∨
      ∃ inner : Pair right, pair.deleted = left ++ inner.deleted := by
  obtain ⟨before, inside, after, hwritten, hinside⟩ := pair
  rw [htext] at hwritten
  rcases List.append_eq_append_iff.1 hwritten with ⟨others, rfl, hright⟩ | ⟨others, rfl, hrest⟩
  · exact .inr ⟨⟨others, inside, after, hright, hinside⟩, List.append_assoc _ _ _⟩
  · rcases List.cons_eq_append_iff.1 hrest with ⟨rfl, hright⟩ | ⟨opened, rfl, hclosed⟩
    · refine .inr ⟨⟨[], inside, after, hright, hinside⟩, ?_⟩
      rw [deleted, deleted, List.append_nil, List.nil_append]
    · -- The bracket that is opened on the left is closed there too.
      rcases List.append_eq_append_iff.1 hclosed with ⟨tail, rfl, htail⟩ | ⟨tail, rfl, htail⟩
      · rcases List.cons_eq_append_iff.1 htail with ⟨rfl, -⟩ | ⟨last, rfl, rfl⟩
        · rw [List.append_nil] at hleft
          exact absurd (List.append_nil inside ▸ hinside) hleft.not_append_open
        · refine .inl ⟨⟨before, inside, last, rfl, hinside⟩, ?_⟩
          simp only [deleted, List.append_assoc]
      · exact absurd hinside hleft.not_append_open

/-- A pair of a balanced text in brackets is that of the brackets, or one of the text. -/
theorem cases_brackets (pair : Pair text) (htext : text = '(' :: (left ++ [')']))
    (hleft : Balanced left) :
    pair.deleted = left ∨ ∃ inner : Pair left, pair.deleted = '(' :: (inner.deleted ++ [')']) := by
  obtain ⟨before, inside, after, hwritten, hinside⟩ := pair
  rw [htext] at hwritten
  rcases List.cons_eq_append_iff.1 hwritten with ⟨rfl, hfirst⟩ | ⟨others, rfl, hrest⟩
  · obtain ⟨rfl, rfl⟩ := hleft.eq_of_append_close hinside (List.cons.inj hfirst).2.symm
    exact .inl (List.append_nil left)
  · let inner : Pair (left ++ [')']) := ⟨others, inside, after, hrest, hinside⟩
    rcases inner.cases_append rfl hleft with ⟨within, hdeleted⟩ | ⟨last, -⟩
    · exact .inr ⟨within, congrArg ('(' :: ·) hdeleted⟩
    · exact absurd last.open_mem (by decide)

end Pair

end WhileLanguage.Brackets
