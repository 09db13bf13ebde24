import WhileLanguage.Proofs.Regrouping
import WhileLanguage.Proofs.Text.Expressions
import WhileLanguage.SmallStep.Reduction

/-!
# Reading states

The grammar of commands, environments and states. A command is read as its parts, since a text
does not show how a sequence is grouped: `Reader.readsParts_commands`. Each part starts with a
word, and what follows the word decides what it is, so that a keyword can also be the name of a
variable. Read `State.text_eq_iff` first: it says what the text of a state tells of the state.
-/

namespace WhileLanguage

/-- The text of a command has its parts with semicolons between them. -/
theorem Command.text_parts (c : Command) : c.text = "; ".intercalate (c.parts.map text) := by
  induction c with
  | skip | assign => rfl
  | branch condition yes no =>
      rw [parts, List.map_singleton, String.intercalate_singleton, text, text,
        yes.regroups_joined_parts.text_eq, no.regroups_joined_parts.text_eq]
  | seq first second ihfirst ihsecond =>
      have hfirst : first.parts.map text ≠ [] := by simpa using first.parts_ne_nil
      have hsecond : second.parts.map text ≠ [] := by simpa using second.parts_ne_nil
      rw [parts, List.map_append, String.intercalate_append_of_ne_nil hfirst hsecond, ← ihfirst,
        ← ihsecond, text]
  | loop condition body =>
      rw [parts, List.map_singleton, String.intercalate_singleton, text, text,
        body.regroups_joined_parts.text_eq]

/-- A command has at most as many parts as nodes. -/
theorem Command.length_parts_le (c : Command) : c.parts.length ≤ c.nodes := by
  cases c with
  | seq first second =>
      have hfirst := first.length_parts_le
      have hsecond := second.length_parts_le
      rw [parts, nodes, List.length_append]
      omega
  | skip | assign | branch | loop => exact Command.nodes_pos _

namespace Reader

variable {c : Command} {env : Environment} {bound : Nat} {rest : List Char}

/-! ## The grammar -/

/-- Reads a condition in brackets. -/
def condition (bound : Nat) : Reader Expr := do
  expect " ("
  let e ← comparison bound
  expect ")"
  return e

/-- Reads commands in braces as one command. -/
def block (inner : Reader (List Command)) : Reader Command := do
  expect " \x7b "
  let parts ← inner
  expect " \x7d"
  return .joined parts

/-- Reads what follows a keyword in a command. -/
def keyword (inner : Reader (List Command)) (bound : Nat) (name : String) : Reader Command := do
  if name = "do" then
    expect "-nothing"
    return .skip
  else if name = "if" then
    let e ← condition bound
    let yes ← block inner
    expect " else"
    return .branch e yes (← block inner)
  else if name = "while" then
    let e ← condition bound
    return .loop e (← block inner)
  else failure

/-- Reads a command that is not a sequence. What follows its first word tells an assignment from
the other commands, whatever the word is. -/
def single (inner : Reader (List Command)) (bound : Nat) : Reader Command := do
  let name ← word
  if ← accepts " = " then return .assign name (← comparison bound)
  else keyword inner bound name

/-- Reads commands with semicolons between them. Blocks are at most so deep, and commands so many,
as the bound says. -/
def commands : Nat → Reader (List Command)
  | 0 => failure
  | bound + 1 => separated (single (commands bound) (bound + 1)) "; " (bound + 1)

/-- Reads a binding. -/
def binding : Reader Binding := do
  let name ← word
  expect ": "
  return (name, ← value)

/-- Reads the bindings of an environment. -/
def bindings (bound : Nat) : Reader (List Binding) := do
  expect "\x7b"
  let found ← separated binding ", " bound <|> return []
  expect "\x7d"
  return found

/-- Reads the parts of a command and the bindings of its environment. -/
def state (bound : Nat) : Reader (List Command × List Binding) := do
  let parts ← commands bound
  expect ", "
  return (parts, ← bindings bound)

/-! ## Reading commands back -/

/-- The text ends an expression, and does not start with another command. -/
def EndsCommands (rest : List Char) : Prop :=
  Ends 1 rest ∧ ¬ "; ".toList <+: rest

/-- The brace after a block ends its commands. -/
theorem endsCommands_brace (rest : List Char) : EndsCommands (" \x7d".toList ++ rest) := by
  refine ⟨ends_space_cons fun op => ?_, not_prefix_append (by decide) (by decide)⟩
  cases op <;> decide

/-- The comma before an environment ends the commands. -/
theorem endsCommands_comma (rest : List Char) : EndsCommands (", ".toList ++ rest) :=
  ⟨ends_cons (by decide) (by decide), not_prefix_append (by decide) (by decide)⟩

/-- A semicolon after a command ends its expressions. -/
theorem ends_semicolon (rest : List Char) : Ends 1 ("; ".toList ++ rest) :=
  ends_cons (by decide) (by decide)

/-- A condition is read where it is written in brackets. -/
theorem condition_text {e : Expr} (hnames : ∀ name ∈ e.names, isIdentifier name = true)
    (hbound : e.nodes ≤ bound) (rest : List Char) :
    condition bound (" (".toList ++ (e.text.toList ++ (")".toList ++ rest))) = some (e, rest) := by
  have he := comparison_text hnames hbound (ends_bracket rest)
  rw [condition, bind_of_eq_some (expect_append " (" _), bind_of_eq_some he,
    bind_of_eq_some (expect_append ")" _)]
  rfl

/-- Commands are read by a reader as their parts where they are written, up to what ends them. -/
def ReadsParts (inner : Reader (List Command)) (c : Command) : Prop :=
  ∀ rest, EndsCommands rest → inner (c.text.toList ++ rest) = some (c.parts, rest)

/-- A block is read where its commands are written in braces. -/
theorem block_text {inner : Reader (List Command)} (h : ReadsParts inner c) (rest : List Char) :
    block inner (" \x7b ".toList ++ (c.text.toList ++ (" \x7d".toList ++ rest))) =
      some (.joined c.parts, rest) := by
  rw [block, bind_of_eq_some (expect_append " \x7b " _),
    bind_of_eq_some (h _ (endsCommands_brace rest)), bind_of_eq_some (expect_append " \x7d" _)]
  rfl

/-- An assignment is read where it is written. -/
theorem single_assign {inner : Reader (List Command)} {name : String} {value : Expr}
    (hname : isIdentifier name = true) (hnames : ∀ name ∈ value.names, isIdentifier name = true)
    (hbound : value.nodes ≤ bound) (hrest : Ends 1 rest) :
    single inner bound ((Command.assign name value).text.toList ++ rest) =
      some (.assign name value, rest) := by
  have hword : EndsWord (" = ".toList ++ (value.text.toList ++ rest)) :=
    endsWord_cons (by decide)
  rw [Command.text, String.toList_append, String.toList_append, List.append_assoc,
    List.append_assoc, single, bind_of_eq_some (word_identifier hname hword),
    bind_of_eq_some (accepts_append " = " _), if_pos rfl,
    bind_of_eq_some (comparison_text hnames hbound hrest)]
  rfl

/-- A word without an assignment after it is read as a keyword. -/
theorem single_keyword {inner : Reader (List Command)} {name : String} {input : List Char}
    (hne : name.toList ≠ []) (hchars : name.toList.all isWordChar = true)
    (hends : EndsWord input) (hassign : ¬ " = ".toList <+: input) :
    single inner bound (name.toList ++ input) = keyword inner bound name input := by
  rw [single, bind_of_eq_some (word_append hne hchars hends),
    bind_of_eq_some (accepts_eq_false hassign)]
  rfl

/-- A word with a condition after it is read as a keyword. -/
theorem single_tested {inner : Reader (List Command)} {name : String}
    (hne : name.toList ≠ []) (hchars : name.toList.all isWordChar = true)
    (input : List Char) :
    single inner bound (name.toList ++ (" (".toList ++ input)) =
      keyword inner bound name (" (".toList ++ input) :=
  single_keyword hne hchars (endsWord_cons (by decide)) (not_prefix_append (by decide) (by decide))

/-- The command that does nothing is read where it is written. -/
theorem single_skip {inner : Reader (List Command)} (rest : List Char) :
    single inner bound (Command.skip.text.toList ++ rest) = some (.skip, rest) := by
  have htext : Command.skip.text.toList ++ rest = "do".toList ++ ("-nothing".toList ++ rest) := rfl
  have hends : EndsWord ("-nothing".toList ++ rest) :=
    endsWord_cons (by decide)
  have hassign : ¬ " = ".toList <+: "-nothing".toList ++ rest :=
    not_prefix_append (by decide) (by decide)
  rw [htext, single_keyword (by decide) (by decide) hends hassign, keyword, if_pos rfl,
    bind_of_eq_some (expect_append "-nothing" _)]
  rfl

/-- A branch is read where it is written, if its commands are read. -/
theorem single_branch {inner : Reader (List Command)} {e : Expr} {yes no : Command}
    (hnames : ∀ name ∈ e.names, isIdentifier name = true) (hbound : e.nodes ≤ bound)
    (hyes : ReadsParts inner yes) (hno : ReadsParts inner no) (rest : List Char) :
    single inner bound ((Command.branch e yes no).text.toList ++ rest) =
      some (.branch e (.joined yes.parts) (.joined no.parts), rest) := by
  have htext : (Command.branch e yes no).text.toList ++ rest =
      "if".toList ++ (" (".toList ++ (e.text.toList ++ (")".toList ++
        (" \x7b ".toList ++ (yes.text.toList ++ (" \x7d".toList ++ (" else".toList ++
          (" \x7b ".toList ++ (no.text.toList ++ (" \x7d".toList ++ rest)))))))))) := by
    simp only [Command.text, Command.block, String.toList_append, List.append_assoc]
    rfl
  rw [htext, single_tested (by decide) (by decide), keyword,
    if_neg (by decide), if_pos rfl, bind_of_eq_some (condition_text hnames hbound _),
    bind_of_eq_some (block_text hyes _), bind_of_eq_some (expect_append " else" _),
    bind_of_eq_some (block_text hno _)]
  rfl

/-- A loop is read where it is written, if its commands are read. -/
theorem single_loop {inner : Reader (List Command)} {e : Expr} {body : Command}
    (hnames : ∀ name ∈ e.names, isIdentifier name = true) (hbound : e.nodes ≤ bound)
    (hbody : ReadsParts inner body) (rest : List Char) :
    single inner bound ((Command.loop e body).text.toList ++ rest) =
      some (.loop e (.joined body.parts), rest) := by
  have htext : (Command.loop e body).text.toList ++ rest =
      "while".toList ++ (" (".toList ++ (e.text.toList ++ (")".toList ++
        (" \x7b ".toList ++ (body.text.toList ++ (" \x7d".toList ++ rest)))))) := by
    simp only [Command.text, Command.block, String.toList_append, List.append_assoc]
    rfl
  rw [htext, single_tested (by decide) (by decide), keyword,
    if_neg (by decide), if_neg (by decide), if_pos rfl,
    bind_of_eq_some (condition_text hnames hbound _), bind_of_eq_some (block_text hbody _)]
  rfl

/-- Commands are read as their parts, if each part is read. -/
theorem readsParts_of_single (hbound : c.nodes ≤ bound)
    (h : ∀ less, c.nodes ≤ less + 1 → ∀ part ∈ c.parts, ∀ rest, Ends 1 rest →
      single (commands less) (less + 1) (part.text.toList ++ rest) = some (part, rest)) :
    ReadsParts (commands bound) c := by
  intro rest hrest
  obtain ⟨less, rfl⟩ := Nat.exists_eq_add_one.2 (Nat.lt_of_lt_of_le c.nodes_pos hbound)
  rw [c.text_parts]
  exact separated_intercalate ends_semicolon c.parts_ne_nil (h less hbound)
    (Nat.le_trans c.length_parts_le hbound) hrest.1 hrest.2

/-- Each part of a command whose names are identifiers is read where it is written. -/
theorem single_part (hnames : ∀ name ∈ c.names, isIdentifier name = true) (less : Nat)
    (hbound : c.nodes ≤ less + 1) (part : Command) (hpart : part ∈ c.parts) (rest : List Char)
    (hrest : Ends 1 rest) :
    single (commands less) (less + 1) (part.text.toList ++ rest) = some (part, rest) := by
  induction c generalizing less part rest with
  | skip =>
      obtain rfl := List.mem_singleton.1 hpart
      exact single_skip rest
  | assign name value =>
      obtain rfl := List.mem_singleton.1 hpart
      rw [Command.nodes] at hbound
      exact single_assign (hnames name List.mem_cons_self)
        (fun name h => hnames name (List.mem_cons_of_mem _ h)) (by omega) hrest
  | branch e yes no ihyes ihno =>
      obtain rfl := List.mem_singleton.1 hpart
      simp only [Command.names, List.mem_append] at hnames
      rw [Command.nodes] at hbound
      have hregroups := Command.Regroups.branch e yes.regroups_joined_parts
        no.regroups_joined_parts
      have hyes : ReadsParts (commands less) yes :=
        readsParts_of_single (by omega) (ihyes fun name h => hnames name (.inl (.inr h)))
      have hno : ReadsParts (commands less) no :=
        readsParts_of_single (by omega) (ihno fun name h => hnames name (.inr h))
      rw [← hregroups.text_eq]
      exact single_branch (fun name h => hnames name (.inl (.inl h))) (by omega) hyes hno rest
  | seq first second ihfirst ihsecond =>
      simp only [Command.names, List.mem_append] at hnames
      rw [Command.nodes] at hbound
      rcases List.mem_append.1 hpart with hfirst | hsecond
      · exact ihfirst (fun name h => hnames name (.inl h)) less (by omega) part hfirst rest hrest
      · exact ihsecond (fun name h => hnames name (.inr h)) less (by omega) part hsecond rest hrest
  | loop e body ih =>
      obtain rfl := List.mem_singleton.1 hpart
      simp only [Command.names, List.mem_append] at hnames
      rw [Command.nodes] at hbound
      have hbody : ReadsParts (commands less) body :=
        readsParts_of_single (by omega) (ih fun name h => hnames name (.inr h))
      rw [← (Command.Regroups.loop e body.regroups_joined_parts).text_eq]
      exact single_loop (fun name h => hnames name (.inl h)) (by omega) hbody rest

/-- Commands whose names are identifiers are read as their parts. -/
theorem readsParts_commands (hnames : ∀ name ∈ c.names, isIdentifier name = true)
    (hbound : c.nodes ≤ bound) : ReadsParts (commands bound) c :=
  readsParts_of_single hbound (single_part hnames)

/-! ## Reading environments and states back -/

/-- A binding is read where it is written and no word character follows. -/
theorem binding_text {b : Binding} (hname : isIdentifier b.1 = true) (hrest : EndsWord rest) :
    binding (b.text.toList ++ rest) = some (b, rest) := by
  have hends : EndsWord (": ".toList ++ (b.2.text.toList ++ rest)) :=
    endsWord_cons (by decide)
  rw [Binding.text, String.toList_append, String.toList_append, List.append_assoc,
    List.append_assoc, binding, bind_of_eq_some (word_identifier hname hends),
    bind_of_eq_some (expect_append ": " _), bind_of_eq_some (value_append b.2 hrest)]
  rfl

/-- An environment whose names are identifiers is read where it is written. -/
theorem bindings_text (hnames : ∀ name ∈ env.names, isIdentifier name = true)
    (hbound : env.toList.length ≤ bound) (rest : List Char) :
    bindings bound (env.text.toList ++ rest) = some (env.toList, rest) := by
  have hbrace : EndsWord ("\x7d".toList ++ rest) :=
    endsWord_cons (by decide)
  have hread : (separated binding ", " bound <|> return [])
      ((", ".intercalate (env.toList.map Binding.text)).toList ++ ("\x7d".toList ++ rest)) =
        some (env.toList, "\x7d".toList ++ rest) := by
    by_cases hempty : env.toList = []
    · rw [hempty]
      exact orElse_of_eq_none (separated_eq_none (bind_of_eq_none (word_of_endsWord hbrace)))
    · exact orElse_of_eq_some (separated_intercalate (fun _ => endsWord_cons (by decide)) hempty
        (fun b hb _ hrest => binding_text (hnames b.1 (List.mem_map_of_mem hb)) hrest) hbound
        hbrace (not_prefix_append (by decide) (by decide)))
  rw [Environment.text, String.toList_append, String.toList_append, List.append_assoc,
    List.append_assoc, bindings, bind_of_eq_some (expect_append "\x7b" _), bind_of_eq_some hread,
    bind_of_eq_some (expect_append "\x7d" _)]
  rfl

/-- A state of a command is read as the parts of the command and the bindings, if all names are
identifiers. -/
theorem state_text (hnames : ∀ name ∈ c.names ++ env.names, isIdentifier name = true)
    (hnodes : c.nodes ≤ bound) (hbindings : env.toList.length ≤ bound) :
    state bound (State.text ⟨.command c, env⟩).toList = some ((c.parts, env.toList), []) := by
  have hcommand := readsParts_commands (fun name h => hnames name (List.mem_append_left _ h)) hnodes
    _ (endsCommands_comma env.text.toList)
  have henv := bindings_text (fun name h => hnames name (List.mem_append_right _ h)) hbindings []
  rw [List.append_nil] at henv
  rw [State.text, Phrase.text, String.toList_append, String.toList_append, List.append_assoc, state,
    bind_of_eq_some hcommand, bind_of_eq_some (expect_append ", " _), bind_of_eq_some henv]
  rfl

end Reader

/-- States of commands whose names are identifiers have the same text exactly where they have the
same environment and their commands differ at most in how sequences are grouped. -/
theorem State.text_eq_iff {c d : Command} {left right : Environment}
    (hc : ∀ name ∈ c.names ++ left.names, Reader.isIdentifier name = true)
    (hd : ∀ name ∈ d.names ++ right.names, Reader.isIdentifier name = true) :
    State.text ⟨.command c, left⟩ = State.text ⟨.command d, right⟩ ↔
      left = right ∧ c.Regroups d := by
  constructor
  · intro h
    -- One bound is enough to read both texts, and the reader gives one answer.
    obtain ⟨bound, hbound⟩ : ∃ bound, bound = c.nodes + d.nodes +
      left.toList.length + right.toList.length := ⟨_, rfl⟩
    have hleft := Reader.state_text hc (by omega : c.nodes ≤ bound) (by omega)
    have hright := Reader.state_text hd (by omega : d.nodes ≤ bound) (by omega)
    rw [h, hright, Option.some.injEq, Prod.mk.injEq, Prod.mk.injEq] at hleft
    obtain ⟨⟨hparts, hbindings⟩, -⟩ := hleft
    exact ⟨(Environment.ext_toList hbindings).symm, Command.regroups_iff.2 hparts.symm⟩
  · rintro ⟨rfl, h⟩
    rw [State.text, State.text, Phrase.text, Phrase.text, h.text_eq]

/-- Two groupings of a sequence have one text, with variables that have the names of keywords. With
another value in the environment the text is another one. -/
theorem State.text_of_two_groupings :
    let env := Environment.ofList [("if", .number 2), ("do", .boolean true)]
    let other := env.insert "if" (.number (-2))
    let round : Command := .assign "if" (.literal (.number (-1)))
    let loop : Command := .loop (.var "do") (.seq round .skip)
    let c : Command := .seq (.seq round .skip) loop
    let d : Command := .seq round (.seq .skip loop)
    (∀ name ∈ c.names ++ env.names, Reader.isIdentifier name = true) ∧
      (∀ name ∈ d.names ++ env.names, Reader.isIdentifier name = true) ∧
      State.text ⟨.command c, env⟩ = State.text ⟨.command d, env⟩ ∧
      State.text ⟨.command c, env⟩ ≠ State.text ⟨.command d, other⟩ := by
  intro env other round loop c d
  have hc : ∀ name ∈ c.names ++ env.names, Reader.isIdentifier name = true := by decide
  have hd : ∀ name ∈ d.names ++ env.names, Reader.isIdentifier name = true := by decide
  have hother : ∀ name ∈ d.names ++ other.names, Reader.isIdentifier name = true := by decide
  refine ⟨hc, hd, (text_eq_iff hc hd).2 ⟨rfl, .assoc round .skip loop⟩, fun h => ?_⟩
  have henv : env = other := ((text_eq_iff hc hother).1 h).1
  exact absurd henv (by decide)

end WhileLanguage
