import Mathlib.Data.List.Dedup
import WhileLanguage.Proofs.Syntax
import WhileLanguage.Versions

/-!
# What versions answer

Environments are extended in any order, and each of them stays in use beside those that are made of
it. The history of an environment is the list of the bindings on the branch that leads to it, which
updates record without looking at environments: read `Update.histories`. Read `Environment.Answers`
for what a history says of the answers of an environment, and `Update.versions_canonical` for the
environments of any updates: each answers by its history, and goes on to do so whatever updates
follow. One update is `Update.perform_holds`. All of this holds over any ordered map that obeys the
laws.
-/

namespace WhileLanguage

/-! ## Bindings that count -/

namespace Binding

/-- A list gives a name a value, and does not mention the name afterwards. -/
def IsLast (name : String) (value : Value) (bindings : List Binding) : Prop :=
  ∃ before after, bindings = before ++ (name, value) :: after ∧ name ∉ after.map Prod.fst

/-- The last binding of a name is the first one from the end. -/
theorem lookup_reverse_eq_some_iff {name : String} {value : Value} {bindings : List Binding} :
    bindings.reverse.lookup name = some value ↔ IsLast name value bindings := by
  rw [List.lookup_eq_some_iff]
  constructor
  · intro ⟨after, before, hbindings, hafter⟩
    refine ⟨before.reverse, after.reverse, ?_, ?_⟩
    · rw [← List.reverse_reverse bindings, hbindings]
      simp
    · simpa using fun v hmem => hafter (name, v) hmem
  · intro ⟨before, after, hbindings, hafter⟩
    refine ⟨after.reverse, before.reverse, ?_, ?_⟩
    · rw [hbindings]
      simp
    · intro binding hmem
      have hne : name ≠ binding.1 := fun heq =>
        hafter (heq ▸ List.mem_map_of_mem (List.mem_reverse.1 hmem))
      simpa using hne

/-- A name has no binding if the list does not mention it. -/
theorem lookup_reverse_eq_none_iff {name : String} {bindings : List Binding} :
    bindings.reverse.lookup name = none ↔ name ∉ bindings.map Prod.fst := by
  simp only [List.lookup_eq_none_iff, List.mem_reverse, List.mem_map, bne_iff_ne]
  exact ⟨fun h ⟨binding, hmem, heq⟩ => h binding hmem heq.symm,
    fun h binding hmem heq => h ⟨binding, hmem, heq.symm⟩⟩

end Binding

/-! ## Histories -/

namespace Environment

variable {Map : Type} [OrderedMap Map]

/-- An environment holds a history if it has for each name the last value that the history gives
it. -/
def Holds (env : Environment Map) (history : List Binding) : Prop :=
  ∀ name, env.get? name = history.reverse.lookup name

/-- What an environment answers that a history has led to. -/
structure Answers (env : Environment Map) (history : List Binding) : Prop where
  /-- A name has the last value that it was bound to. -/
  get?_eq_some : ∀ name value,
    env.get? name = some value ↔ Binding.IsLast name value history
  /-- A name that was never bound has none. -/
  get?_eq_none : ∀ name, env.get? name = none ↔ name ∉ history.map Prod.fst
  /-- A look-up finds the last value. -/
  lookup_eq_ok : ∀ name value,
    env.lookup name = .ok value ↔ Binding.IsLast name value history
  /-- A look-up fails for a name that was never bound, and is about that name. -/
  lookup_eq_error : ∀ name fault,
    env.lookup name = .error fault ↔ fault = .unbound name ∧ name ∉ history.map Prod.fst
  /-- The names that were bound are contained. -/
  contains_iff : ∀ name, env.contains name = true ↔ name ∈ history.map Prod.fst
  /-- What is listed are the names with their last values. -/
  mem_toList : ∀ name value,
    (name, value) ∈ env.toList ↔ Binding.IsLast name value history
  /-- They are listed in the order of the bytes of their names, each name once. -/
  toList_increases :
    env.toList.Pairwise fun first second => nameBytes first.1 < nameBytes second.1
  /-- The size is the length of that list. -/
  size_eq_length : env.size = env.toList.length
  /-- There are as many as there are different names that were bound. -/
  size_eq_dedup : env.size = (history.map Prod.fst).dedup.length
  /-- The environment is empty if nothing was ever bound. -/
  isEmpty_iff : env.isEmpty = true ↔ history = []

variable [LawfulOrderedMap Map] {env other : Environment Map} {history : List Binding}

/-- The empty environment holds the history without bindings. -/
theorem holds_empty : (empty : Environment Map).Holds [] := fun _ => get?_empty

/-- A list of bindings is the history of its environment. -/
theorem holds_ofList : (ofList history : Environment Map).Holds history := fun _ => get?_ofList

/-- An insertion adds its binding to the history. -/
theorem Holds.insert (h : env.Holds history) (name : String) (value : Value) :
    (env.insert name value).Holds (history ++ [(name, value)]) := by
  intro other
  rw [get?_insert, h other, List.reverse_append, List.reverse_singleton, List.singleton_append,
    Binding.lookup_cons]

/-- A name is bound in an environment if its history mentions it. -/
theorem Holds.contains_iff (h : env.Holds history) {name : String} :
    env.contains name = true ↔ name ∈ history.map Prod.fst := by
  rw [← not_iff_not, Bool.not_eq_true, contains_eq_false_iff, h,
    Binding.lookup_reverse_eq_none_iff]

/-- The names of an environment are those that it contains. -/
theorem mem_names_iff {name : String} : name ∈ env.names ↔ env.contains name = true := by
  have hbinding : name ∈ env.names ↔ ∃ v, (name, v) ∈ env.toList := by
    simp [names]
  rw [hbinding, contains_eq_isSome, Option.isSome_iff_exists]
  simp only [mem_toList_iff]

/-- No name is bound twice. -/
theorem names_nodup (env : Environment Map) : env.names.Nodup := by
  refine List.pairwise_map.2 (env.toList_ordered.imp fun hlt heq => ?_)
  exact String.lt_irrefl _ (heq ▸ hlt)

/-- An environment lists as many bindings as there are different names in its history. -/
theorem Holds.length_toList (h : env.Holds history) :
    env.toList.length = (history.map Prod.fst).dedup.length := by
  have hperm : env.names.Perm (history.map Prod.fst).dedup := by
    refine (List.perm_ext_iff_of_nodup env.names_nodup (List.nodup_dedup _)).2 fun name => ?_
    rw [mem_names_iff, h.contains_iff, List.mem_dedup]
  calc env.toList.length
      = env.names.length := by rw [names, List.length_map]
    _ = (history.map Prod.fst).dedup.length := hperm.length_eq

/-- An environment answers by the history that it holds. -/
theorem Holds.answers (h : env.Holds history) : env.Answers history where
  get?_eq_some name value := by rw [h, Binding.lookup_reverse_eq_some_iff]
  get?_eq_none name := by rw [h, Binding.lookup_reverse_eq_none_iff]
  lookup_eq_ok name value := by
    rw [lookup_eq_ok_iff, h, Binding.lookup_reverse_eq_some_iff]
  lookup_eq_error name fault := by
    rw [lookup_eq_error_iff, contains_eq_false_iff, h, Binding.lookup_reverse_eq_none_iff]
  contains_iff name := h.contains_iff
  mem_toList name value := by
    rw [mem_toList_iff, h, Binding.lookup_reverse_eq_some_iff]
  toList_increases := LawfulOrderedMap.entries_increase env.bindings
  size_eq_length := LawfulOrderedMap.size_eq_length env.bindings
  size_eq_dedup := (LawfulOrderedMap.size_eq_length env.bindings).trans h.length_toList
  isEmpty_iff := by
    rw [show env.isEmpty = env.toList.isEmpty from LawfulOrderedMap.isEmpty_eq env.bindings,
      List.isEmpty_iff_length_eq_zero, h.length_toList, List.length_eq_zero_iff,
      List.dedup_eq_nil, List.map_eq_nil_iff]

end Environment

/-! ## Updates -/

namespace Update

/-- The histories that there are after an update: the new one is that of what is extended, with one
more binding at its end. -/
def record (histories : List (List Binding)) : Update → List (List Binding)
  | new => histories ++ [[]]
  | collect bindings => histories ++ [bindings]
  | extend place name value =>
      match histories[place]? with
      | some history => histories ++ [history ++ [(name, value)]]
      | none => histories

/-- The histories that there are after updates, if there were none before. -/
def histories (updates : List Update) : List (List Binding) :=
  updates.foldl record []

/-- A history that has been recorded stays at its place. -/
theorem getElem?_record {histories : List (List Binding)} {place : Nat} {history : List Binding}
    (h : histories[place]? = some history) (update : Update) :
    (record histories update)[place]? = some history := by
  have hlt := (List.getElem?_eq_some_iff.1 h).1
  cases update with
  | new => exact (List.getElem?_append_left hlt).trans h
  | collect bindings => exact (List.getElem?_append_left hlt).trans h
  | extend receiver name value =>
      simp only [record]
      split
      · exact (List.getElem?_append_left hlt).trans h
      · exact h

/-- A history stays at its place whatever updates follow. -/
theorem getElem?_foldl_record {histories : List (List Binding)} {place : Nat}
    {history : List Binding} (h : histories[place]? = some history) (updates : List Update) :
    (updates.foldl record histories)[place]? = some history := by
  induction updates generalizing histories with
  | nil => exact h
  | cons update rest ih => exact ih (getElem?_record h update)

section Lists

variable {α β : Type} {related : α → β → Prop} {left : List α} {right : List β}

/-- Lists that are related are so place by place. -/
theorem rel_getElem? (h : List.Forall₂ related left right) (place : Nat) :
    Option.Rel related left[place]? right[place]? := by
  induction h generalizing place with
  | nil => exact .none
  | cons hhead _ ih =>
      cases place with
      | zero => exact .some hhead
      | succ place => exact ih place

/-- Lists that are related still are with another element that is related to its partner. -/
theorem forall₂_set (h : List.Forall₂ related left right) {place : Nat} {a : α} {b : β}
    (hplace : right[place]? = some b) (hrelated : related a b) :
    List.Forall₂ related (left.set place a) right := by
  induction h generalizing place with
  | nil => cases hplace
  | cons hhead hrest ih =>
      cases place with
      | zero =>
          obtain rfl := Option.some.inj hplace
          exact .cons hrelated hrest
      | succ place => exact .cons hhead (ih hplace)

end Lists

variable {Map : Type} [OrderedMap Map] [LawfulOrderedMap Map]

/-- An update leaves environments that hold their histories, and makes one that does, if those that
there are hold theirs. -/
theorem perform_holds {envs : List (Environment Map)} {histories : List (List Binding)}
    (h : List.Forall₂ Environment.Holds envs histories) (update : Update) :
    List.Forall₂ Environment.Holds (perform envs update) (record histories update) := by
  cases update with
  | new => exact List.rel_append h (.cons Environment.holds_empty .nil)
  | collect bindings => exact List.rel_append h (.cons Environment.holds_ofList .nil)
  | extend place name value =>
      have hplace := rel_getElem? h place
      simp only [perform, record]
      generalize envs[place]? = env? at hplace ⊢
      generalize hhistory : histories[place]? = history? at hplace ⊢
      cases hplace with
      | none => exact h
      | @some env history hholds =>
          -- What is left of the environment is itself, and takes its place again.
          have hleft : (env.extend name value).1.Holds history := hholds
          exact List.rel_append (forall₂_set h hhistory hleft)
            (.cons (hholds.insert name value) .nil)

/-- Updates leave and make environments that hold their histories, of such environments. -/
theorem foldl_perform_holds {envs : List (Environment Map)} {histories : List (List Binding)}
    (h : List.Forall₂ Environment.Holds envs histories) (updates : List Update) :
    List.Forall₂ Environment.Holds (updates.foldl perform envs)
      (updates.foldl record histories) := by
  induction updates generalizing envs histories with
  | nil => exact h
  | cons update rest ih => exact ih (perform_holds h update)

/-- Over any ordered map that obeys its laws, updates make as many environments as they have
histories. Each environment answers by the history at its place, and does so after any more updates,
whether they extend it or not. Environments that any updates have made are the same if they answer
alike for every name. -/
theorem versions_canonical (Map : Type) [OrderedMap Map] [LawfulOrderedMap Map]
    (updates : List Update) :
    (environments Map updates).length = (histories updates).length ∧
    (∀ (place : Nat) history, (histories updates)[place]? = some history →
      ∀ more, ∃ env : Environment Map,
        (environments Map (updates ++ more))[place]? = some env ∧ env.Answers history) ∧
    ∀ others, ∀ env ∈ environments Map updates, ∀ other ∈ environments Map others,
      (env.same other = true ↔ ∀ name, env.get? name = other.get? name) := by
  have hholds (all : List Update) :
      List.Forall₂ Environment.Holds (environments Map all) (histories all) :=
    foldl_perform_holds .nil all
  refine ⟨(hholds updates).length_eq, fun place history hhistory more => ?answers,
    fun others env _ other _ => Environment.same_iff⟩
  case answers =>
    have hlater : (histories (updates ++ more))[place]? = some history := by
      rw [histories, List.foldl_append]
      exact getElem?_foldl_record hhistory more
    have hplace := rel_getElem? (hholds (updates ++ more)) place
    rw [hlater] at hplace
    generalize henv : (environments Map (updates ++ more))[place]? = env? at hplace
    cases hplace with
    | @some env _ hholds => exact ⟨env, rfl, hholds.answers⟩

/-- A version that has collected a name twice is extended twice. Each branch answers with its own
binding, and the version itself with neither. It is the same as one that other bindings have made in
another order. -/
theorem versions_canonical_of_branches :
    let start : List Update := [.collect [("x", .number 1), ("y", .number 2), ("x", .number 3)]]
    let more : List Update := [.extend 0 "x" (.boolean true), .extend 0 "z" (.number 4)]
    let others : List Update := [.new, .extend 0 "y" (.number 2), .extend 1 "x" (.number 3)]
    (∃ earlier, (environments SortedBindings (start ++ more))[0]? = some earlier ∧
      earlier.get? "x" = some (.number 3) ∧ earlier.lookup "z" = .error (.unbound "z")) ∧
    (∃ left, (environments SortedBindings (start ++ more))[1]? = some left ∧
      left.get? "x" = some (.boolean true) ∧ left.contains "z" = false) ∧
    (∃ right, (environments SortedBindings (start ++ more))[2]? = some right ∧
      right.lookup "x" = .ok (.number 3) ∧ right.size = 3) ∧
    ∃ env ∈ environments SortedBindings start, ∃ other ∈ environments SortedBindings others,
      env.same other = true := by
  intro start more others
  obtain ⟨-, hstart, hsame⟩ := versions_canonical SortedBindings start
  obtain ⟨-, hmore, -⟩ := versions_canonical SortedBindings (start ++ more)
  let bindings : List Binding := [("x", .number 1), ("y", .number 2), ("x", .number 3)]
  obtain ⟨earlier, hearlier, hbase⟩ := hstart 0 bindings rfl more
  obtain ⟨left, hleft, htrue⟩ := hmore 1 (bindings ++ [("x", .boolean true)]) rfl []
  obtain ⟨right, hright, hfour⟩ := hmore 2 (bindings ++ [("z", .number 4)]) rfl []
  rw [List.append_nil] at hleft hright
  refine ⟨⟨earlier, hearlier, ?_, ?_⟩, ⟨left, hleft, ?_, ?_⟩, ⟨right, hright, ?_, ?_⟩, ?_⟩
  · exact (hbase.get?_eq_some _ _).2 ⟨[("x", .number 1), ("y", .number 2)], [], rfl, by decide⟩
  · exact (hbase.lookup_eq_error _ _).2 ⟨rfl, by decide⟩
  · exact (htrue.get?_eq_some _ _).2 ⟨bindings, [], rfl, by decide⟩
  · exact Environment.contains_eq_false_iff.2 ((htrue.get?_eq_none _).2 (by decide))
  · exact (hfour.lookup_eq_ok _ _).2
      ⟨[("x", .number 1), ("y", .number 2)], [("z", .number 4)], rfl, by decide⟩
  · rw [hfour.size_eq_dedup]
    decide
  · have hlast : (.ofList bindings : Environment) =
        (Environment.empty.insert "y" (.number 2)).insert "x" (.number 3) := rfl
    refine ⟨.ofList bindings, List.mem_singleton_self _, _,
      List.mem_of_getElem? (i := 2) rfl, ?_⟩
    refine (hsame others _ (List.mem_singleton_self _) _ (List.mem_of_getElem? (i := 2) rfl)).2 ?_
    intro name
    exact congrArg (Environment.get? · name) hlast

end Update

end WhileLanguage
