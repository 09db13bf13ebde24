import WhileLanguage.Command

/-!
# Regrouped sequences

Sequences of commands can be grouped in different ways, at any depth of a command. Read
`Command.regroups_iff`: two commands differ in nothing else exactly where they have the same
`Command.parts`, which are the commands that follow one another once all groups are dissolved.
-/

namespace WhileLanguage.Command

/-- Commands that differ only in the grouping of sequences, also inside branches and loops. -/
inductive Regroups : Command → Command → Prop where
  | refl (c : Command) : Regroups c c
  | symm {c d : Command} : Regroups c d → Regroups d c
  | trans {c d e : Command} : Regroups c d → Regroups d e → Regroups c e
  | assoc (a b c : Command) : Regroups (seq (seq a b) c) (seq a (seq b c))
  | branch (condition : Expr) {yes yes' no no' : Command} :
      Regroups yes yes' → Regroups no no' →
      Regroups (branch condition yes no) (branch condition yes' no')
  | seq {first first' second second' : Command} :
      Regroups first first' → Regroups second second' →
      Regroups (seq first second) (seq first' second')
  | loop (condition : Expr) {body body' : Command} :
      Regroups body body' → Regroups (loop condition body) (loop condition body')

/-- The command that makes others one after another. -/
def joined : List Command → Command
  | [] => skip
  | [c] => c
  | c :: next :: rest => seq c (joined (next :: rest))

/-- The commands that a command makes one after another, in which all groups are dissolved. -/
def parts : Command → List Command
  | skip => [skip]
  | assign name value => [assign name value]
  | branch condition yes no => [branch condition (joined yes.parts) (joined no.parts)]
  | seq first second => first.parts ++ second.parts
  | loop condition body => [loop condition (joined body.parts)]

/-- Every command has parts. -/
theorem parts_ne_nil (c : Command) : c.parts ≠ [] := by
  induction c with
  | seq first second ihfirst _ => simp [parts, ihfirst]
  | skip | assign | branch | loop => simp [parts]

/-- Commands that are joined after one are a sequence with it. -/
theorem joined_cons {c : Command} {rest : List Command} (h : rest ≠ []) :
    joined (c :: rest) = seq c (joined rest) := by
  cases rest with
  | nil => exact absurd rfl h
  | cons next rest => rfl

/-- A sequence of joined commands regroups to all of them joined. -/
theorem Regroups.joined_append {first second : List Command} (hfirst : first ≠ [])
    (hsecond : second ≠ []) :
    Regroups (Command.seq (joined first) (joined second)) (joined (first ++ second)) := by
  induction first with
  | nil => exact absurd rfl hfirst
  | cons c rest ih =>
      by_cases hrest : rest = []
      · subst hrest
        rw [List.singleton_append, joined_cons hsecond]
        exact .refl _
      · have hall : rest ++ second ≠ [] := List.append_ne_nil_of_left_ne_nil hrest _
        rw [joined_cons hrest, List.cons_append, joined_cons hall]
        exact (Regroups.assoc c _ _).trans (.seq (.refl c) (ih hrest))

/-- A command regroups to its parts, joined. -/
theorem regroups_joined_parts (c : Command) : Regroups c (joined c.parts) := by
  induction c with
  | skip => exact .refl _
  | assign name value => exact .refl _
  | branch condition yes no ihyes ihno => exact .branch condition ihyes ihno
  | seq first second ihfirst ihsecond =>
      exact (Regroups.seq ihfirst ihsecond).trans
        (.joined_append first.parts_ne_nil second.parts_ne_nil)
  | loop condition body ih => exact .loop condition ih

/-- Regrouping leaves the parts of a command as they are. -/
theorem Regroups.parts_eq {c d : Command} (h : Regroups c d) : c.parts = d.parts := by
  induction h with
  | refl => rfl
  | symm _ ih => exact ih.symm
  | trans _ _ ihfirst ihsecond => exact ihfirst.trans ihsecond
  | assoc a b c => exact List.append_assoc _ _ _
  | branch condition _ _ ihyes ihno => simp only [parts, ihyes, ihno]
  | seq _ _ ihfirst ihsecond => simp only [parts, ihfirst, ihsecond]
  | loop condition _ ih => simp only [parts, ih]

/-- Commands regroup to one another exactly where they have the same parts. -/
theorem regroups_iff {c d : Command} : Regroups c d ↔ c.parts = d.parts := by
  constructor
  · exact Regroups.parts_eq
  · intro h
    have hc := c.regroups_joined_parts
    rw [h] at hc
    exact hc.trans d.regroups_joined_parts.symm

/-- The text of a command does not show how its sequences are grouped. -/
theorem Regroups.text_eq {c d : Command} (h : Regroups c d) : c.text = d.text := by
  induction h with
  | refl => rfl
  | symm _ ih => exact ih.symm
  | trans _ _ ihfirst ihsecond => exact ihfirst.trans ihsecond
  | assoc a b c => simp only [text, String.append_assoc]
  | branch condition _ _ ihyes ihno => simp only [text, ihyes, ihno]
  | seq _ _ ihfirst ihsecond => simp only [text, ihfirst, ihsecond]
  | loop condition _ ih => simp only [text, ih]

end WhileLanguage.Command
