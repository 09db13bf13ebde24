import WhileLanguage.Fault
import WhileLanguage.SortedBindings

/-!
# Environments

An environment binds finitely many names to values, in an ordered map. Its operations are those of
the map, whichever that is; where none is named it is a list of sorted bindings, in which one finite
map has one form: read `Environment.ext_get?`, which says that environments with the same answers
are equal, and `same_iff_eq`, by which being the same is no less. `get?_insert` and `get?_ofList`
say what the two ways of building one do to the answers.
-/

namespace WhileLanguage

/-- A binding is written as its name and its value with a colon between them. -/
def Binding.text (binding : Binding) : String :=
  binding.1 ++ ": " ++ binding.2.text

/-- A finite map from names to values. -/
structure Environment (Map : Type := SortedBindings) where
  /-- The bindings. -/
  bindings : Map
deriving DecidableEq

namespace Environment

section Operations

variable {Map : Type} [OrderedMap Map]

/-- The environment that binds nothing. -/
def empty : Environment Map :=
  ⟨OrderedMap.empty⟩

/-- The value of a name, if it has one. -/
def get? (env : Environment Map) (name : String) : Option Value :=
  OrderedMap.get? env.bindings name

/-- The value of a name; a name without one is a fault. -/
def lookup (env : Environment Map) (name : String) : Except Fault Value :=
  match env.get? name with
  | some value => .ok value
  | none => .error (.unbound name)

/-- Whether a name has a value. -/
def contains (env : Environment Map) (name : String) : Bool :=
  OrderedMap.contains env.bindings name

/-- What is left of an environment that is extended, and the new one, in which the name has the
value instead of the one that it had. -/
def extend (env : Environment Map) (name : String) (value : Value) :
    Environment Map × Environment Map :=
  (env, ⟨OrderedMap.update env.bindings name value⟩)

/-- Binds a name to a value, instead of the value that it had. -/
def insert (env : Environment Map) (name : String) (value : Value) : Environment Map :=
  (env.extend name value).2

/-- The environment of a list of bindings, of which the last one for a name counts. -/
def ofList (bindings : List Binding) : Environment Map :=
  ⟨OrderedMap.collect bindings⟩

/-- The bindings in increasing order of their names. -/
def toList (env : Environment Map) : List Binding :=
  OrderedMap.entries env.bindings

/-- The number of names that are bound. -/
def size (env : Environment Map) : Nat :=
  OrderedMap.size env.bindings

/-- Whether no name is bound. -/
def isEmpty (env : Environment Map) : Bool :=
  OrderedMap.isEmpty env.bindings

/-- Whether two environments are the same, which they are if their maps are. -/
def same (left right : Environment Map) : Bool :=
  OrderedMap.same left.bindings right.bindings

/-- The bindings in order, between braces and with commas between them. -/
def text (env : Environment Map) : String :=
  "\x7b" ++ ", ".intercalate (env.toList.map Binding.text) ++ "\x7d"

/-- A name that has a value is looked up as that value. -/
theorem lookup_eq_ok_iff {env : Environment Map} {name : String} {value : Value} :
    env.lookup name = .ok value ↔ env.get? name = some value := by
  unfold lookup
  cases env.get? name <;> simp

end Operations

section Laws

variable {Map : Type} [OrderedMap Map] [LawfulOrderedMap Map] {env left right : Environment Map}
  {name other : String} {value : Value}

/-- The value of a name is that of its binding. -/
theorem get?_eq_lookup : env.get? name = env.toList.lookup name :=
  LawfulOrderedMap.get?_eq_lookup _ _

/-- Each name is bound once, and the names increase. -/
theorem toList_ordered (env : Environment Map) : Binding.Ordered env.toList :=
  (LawfulOrderedMap.entries_increase env.bindings).imp nameBytes_lt_iff.1

/-- The bindings of an environment are those that it answers with. -/
theorem mem_toList_iff : (name, value) ∈ env.toList ↔ env.get? name = some value := by
  rw [get?_eq_lookup, env.toList_ordered.mem_iff]

/-- A name is contained if it has a value. -/
theorem contains_eq_isSome : env.contains name = (env.get? name).isSome :=
  LawfulOrderedMap.contains_eq_isSome _ _

/-- A name is not contained if it has no value. -/
theorem contains_eq_false_iff : env.contains name = false ↔ env.get? name = none := by
  rw [contains_eq_isSome]
  cases env.get? name <;> simp

/-- A look-up fails for a name that has no value, and is about that name. -/
theorem lookup_eq_error_iff {fault : Fault} :
    env.lookup name = .error fault ↔ fault = .unbound name ∧ env.contains name = false := by
  rw [contains_eq_false_iff]
  unfold lookup
  cases env.get? name <;> simp [eq_comm]

/-- The empty environment has no value for any name. -/
@[simp] theorem get?_empty : (empty : Environment Map).get? name = none := by
  rw [get?_eq_lookup]
  show (OrderedMap.entries (OrderedMap.empty : Map)).lookup name = none
  rw [LawfulOrderedMap.entries_empty]
  rfl

/-- After an insertion the inserted name has the new value, and any other name what it had. -/
theorem get?_insert :
    (env.insert name value).get? other = if other = name then some value else env.get? other :=
  LawfulOrderedMap.get?_update _ _ _ _

/-- A list is read from its end: the last binding of a name gives its value. -/
theorem get?_ofList {bindings : List Binding} :
    (ofList bindings : Environment Map).get? name = bindings.reverse.lookup name := by
  calc (ofList bindings : Environment Map).get? name
      = (bindings.reverse.lookup name).or ((empty : Environment Map).get? name) :=
        (LawfulOrderedMap.get?_collect _ _).trans OrderedMap.get?_foldl_update
    _ = bindings.reverse.lookup name := by rw [get?_empty, Option.or_none]

/-- Environments are the same if they answer alike for every name. -/
theorem same_iff : left.same right = true ↔ ∀ name, left.get? name = right.get? name := by
  have hsame : left.same right = true ↔ left.toList = right.toList :=
    LawfulOrderedMap.same_iff _ _
  simp only [get?_eq_lookup]
  rw [hsame]
  exact ⟨fun h name => by rw [h], left.toList_ordered.ext right.toList_ordered⟩

end Laws

/-- Environments with the same bindings are equal. -/
theorem ext_toList {left right : Environment} (h : left.toList = right.toList) : left = right :=
  congrArg Environment.mk (SortedBindings.ext h)

/-- Environments that answer alike for every name are equal. -/
theorem ext_get? {left right : Environment} (h : ∀ name, left.get? name = right.get? name) :
    left = right :=
  congrArg Environment.mk (SortedBindings.ext_lookup h)

/-- Environments are the same if they are equal. -/
theorem same_iff_eq {left right : Environment} : left.same right = true ↔ left = right := by
  rw [same_iff]
  exact ⟨ext_get?, fun h name => by rw [h]⟩

/-- Of two insertions of a name the last one counts. -/
theorem insert_insert {env : Environment} {name : String} {first second : Value} :
    (env.insert name first).insert name second = env.insert name second := by
  refine ext_get? fun other => ?_
  simp only [get?_insert]
  split <;> rfl

end Environment

end WhileLanguage
