import WhileLanguage.NameBytes
import WhileLanguage.Value

/-!
# Ordered maps

Environments keep their bindings in a map that is ordered by its names, and make use of it through
the operations of `OrderedMap` alone. What they rely on is `LawfulOrderedMap`: what a map answers
after each way to make one, in which order it lists its entries, and how its answers, its size and
its sameness go with the entries.
-/

namespace WhileLanguage

/-- A name with the value that it stands for. -/
abbrev Binding := String × Value

/-- The operations of a type of ordered maps from names to values. -/
class OrderedMap (Map : Type) where
  /-- The map that binds nothing. -/
  empty : Map
  /-- The value of a name, if it has one. -/
  get? : Map → String → Option Value
  /-- Whether a name has a value. -/
  contains : Map → String → Bool
  /-- A map with one more binding, instead of the one that its name had. -/
  update : Map → String → Value → Map
  /-- The map that a list of bindings is collected into. -/
  collect : List Binding → Map
  /-- The entries, one after another. -/
  entries : Map → List Binding
  /-- The number of entries. -/
  size : Map → Nat
  /-- Whether there are no entries. -/
  isEmpty : Map → Bool
  /-- Whether two maps are the same. -/
  same : Map → Map → Bool

/-- What is known of the operations of ordered maps. -/
class LawfulOrderedMap (Map : Type) [OrderedMap Map] : Prop where
  /-- The empty map has no entries. -/
  entries_empty : OrderedMap.entries (OrderedMap.empty : Map) = []
  /-- The entries come in increasing order of the bytes of their names. -/
  entries_increase : ∀ map : Map, (OrderedMap.entries map).Pairwise fun first second =>
    nameBytes first.1 < nameBytes second.1
  /-- The value of a name is that of its entry. -/
  get?_eq_lookup : ∀ (map : Map) (name : String),
    OrderedMap.get? map name = (OrderedMap.entries map).lookup name
  /-- A map contains the names that have values. -/
  contains_eq_isSome : ∀ (map : Map) (name : String),
    OrderedMap.contains map name = (OrderedMap.get? map name).isSome
  /-- An update gives its name the new value, and leaves the other names what they had. -/
  get?_update : ∀ (map : Map) (name : String) (value : Value) (other : String),
    OrderedMap.get? (OrderedMap.update map name value) other =
      if other = name then some value else OrderedMap.get? map other
  /-- Bindings are collected one after another. -/
  get?_collect : ∀ (bindings : List Binding) (name : String),
    OrderedMap.get? (OrderedMap.collect bindings : Map) name =
      OrderedMap.get? (bindings.foldl (fun map binding => OrderedMap.update map binding.1 binding.2)
        OrderedMap.empty : Map) name
  /-- The size is the number of entries. -/
  size_eq_length : ∀ map : Map, OrderedMap.size map = (OrderedMap.entries map).length
  /-- A map is empty if it has no entries. -/
  isEmpty_eq : ∀ map : Map, OrderedMap.isEmpty map = (OrderedMap.entries map).isEmpty
  /-- Maps are the same if they have the same entries. -/
  same_iff : ∀ left right : Map,
    OrderedMap.same left right = true ↔ OrderedMap.entries left = OrderedMap.entries right

/-- The first binding of a list answers for its name, and the rest for any other. -/
theorem Binding.lookup_cons {name : String} {head : Binding} {rest : List Binding} :
    (head :: rest).lookup name = if name = head.1 then some head.2 else rest.lookup name := by
  obtain ⟨key, value⟩ := head
  rw [List.lookup_cons]
  split <;> simp_all

/-- Of updates that are made one after another the last one of a name counts. -/
theorem OrderedMap.get?_foldl_update {Map : Type} [OrderedMap Map] [LawfulOrderedMap Map]
    {map : Map} {bindings : List Binding} {name : String} :
    get? (bindings.foldl (fun map binding => update map binding.1 binding.2) map) name =
      (bindings.reverse.lookup name).or (get? map name) := by
  induction bindings generalizing map with
  | nil => rfl
  | cons head rest ih =>
      rw [List.foldl_cons, ih, LawfulOrderedMap.get?_update, List.reverse_cons,
        List.lookup_append, Binding.lookup_cons, List.lookup_nil, Option.or_assoc]
      split <;> rfl

end WhileLanguage
