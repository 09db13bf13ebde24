import WhileLanguage.OrderedMap

/-!
# Sorted bindings

The ordered map that environments are made of: a list of bindings in increasing order of their
names. It obeys the laws of ordered maps, and one finite map has one form: read
`SortedBindings.ext_lookup`, which says that maps with the same answers are equal.
-/

namespace WhileLanguage

namespace Binding

/-- Puts a binding in its place in an ordered list, instead of one of the same name. -/
def insertOrdered (name : String) (value : Value) : List Binding → List Binding
  | [] => [(name, value)]
  | head :: rest =>
      if name < head.1 then (name, value) :: head :: rest
      else if name = head.1 then (name, value) :: rest
      else head :: insertOrdered name value rest

/-- A list holds its bindings in strictly increasing order of their names. -/
def Ordered (bindings : List Binding) : Prop :=
  bindings.Pairwise fun first second => first.1 < second.1

/-- An inserted binding is the only new one. -/
theorem mem_insertOrdered {name : String} {value : Value} {binding : Binding}
    {bindings : List Binding} (h : binding ∈ insertOrdered name value bindings) :
    binding = (name, value) ∨ binding ∈ bindings := by
  induction bindings with
  | nil => simpa [insertOrdered] using h
  | cons head rest ih =>
      simp only [insertOrdered] at h
      split at h
      · simpa using h
      · split at h
        · rcases List.mem_cons.1 h with h | h
          · exact .inl h
          · exact .inr (List.mem_cons_of_mem _ h)
        · rcases List.mem_cons.1 h with h | h
          · exact .inr (h ▸ List.mem_cons_self)
          · exact (ih h).imp_right (List.mem_cons_of_mem _)

/-- Insertion keeps a list ordered. -/
theorem Ordered.insertOrdered {name : String} {value : Value} {bindings : List Binding}
    (h : Ordered bindings) : Ordered (insertOrdered name value bindings) := by
  induction bindings with
  | nil => exact List.pairwise_singleton _ _
  | cons head rest ih =>
      obtain ⟨hhead, hrest⟩ := List.pairwise_cons.1 h
      simp only [Binding.insertOrdered]
      split
      · rename_i hlt
        refine List.pairwise_cons.2 ⟨fun binding hmem => ?_, h⟩
        rcases List.mem_cons.1 hmem with rfl | hmem
        · exact hlt
        · exact String.lt_trans hlt (hhead _ hmem)
      · split
        · rename_i heq
          exact List.pairwise_cons.2 ⟨fun binding hmem => heq ▸ hhead _ hmem, hrest⟩
        · rename_i hlt hne
          refine List.pairwise_cons.2 ⟨fun binding hmem => ?_, ih hrest⟩
          rcases mem_insertOrdered hmem with rfl | hmem
          · exact name_lt_of_not_lt_of_ne hlt hne
          · exact hhead _ hmem

/-- After an insertion the inserted name has the new value, and any other name what it had. -/
theorem lookup_insertOrdered {name other : String} {value : Value} {bindings : List Binding} :
    (insertOrdered name value bindings).lookup other =
      if other = name then some value else bindings.lookup other := by
  induction bindings with
  | nil => exact lookup_cons
  | cons head rest ih =>
      simp only [insertOrdered]
      split
      · exact lookup_cons
      · split
        · rename_i heq
          by_cases h : other = name <;> simp [lookup_cons, h, ← heq]
        · rename_i hne
          rw [lookup_cons, lookup_cons, ih]
          by_cases h : other = name <;> simp [h, hne]

/-- A name below all those of an ordered list is not bound there. -/
theorem lookup_eq_none_of_lt {name : String} {bindings : List Binding}
    (h : ∀ binding ∈ bindings, name < binding.1) : bindings.lookup name = none := by
  induction bindings with
  | nil => rfl
  | cons head rest ih =>
      have hne : name ≠ head.1 := fun heq =>
        String.lt_irrefl head.1 (heq ▸ h head List.mem_cons_self)
      simp [lookup_cons, hne, ih fun b hb => h b (List.mem_cons_of_mem _ hb)]

/-- An ordered list holds the bindings that it answers with. -/
theorem Ordered.mem_iff {name : String} {value : Value} {bindings : List Binding}
    (h : Ordered bindings) : (name, value) ∈ bindings ↔ bindings.lookup name = some value := by
  induction bindings with
  | nil => simp
  | cons head rest ih =>
      obtain ⟨hhead, hrest⟩ := List.pairwise_cons.1 h
      rw [List.mem_cons, ih hrest, lookup_cons]
      by_cases heq : name = head.1
      · rw [if_pos heq, heq, lookup_eq_none_of_lt hhead]
        simp [Prod.ext_iff, eq_comm]
      · rw [if_neg heq]
        simp [Prod.ext_iff, heq]

/-- A name below the first one of an ordered list is not bound there. -/
theorem Ordered.lookup_eq_none {name : String} {head : Binding} {rest : List Binding}
    (h : Ordered (head :: rest)) (hlt : name < head.1) : (head :: rest).lookup name = none := by
  refine lookup_eq_none_of_lt fun binding hmem => ?_
  rcases List.mem_cons.1 hmem with rfl | hmem
  · exact hlt
  · exact String.lt_trans hlt ((List.pairwise_cons.1 h).1 _ hmem)

/-- The first name of a list does not lie below those of an ordered list that binds it too. -/
theorem Ordered.not_lt_of_lookup_eq {first second : Binding} {rest others : List Binding}
    (hright : Ordered (second :: others))
    (h : (first :: rest).lookup first.1 = (second :: others).lookup first.1) :
    ¬ first.1 < second.1 := by
  intro hlt
  rw [hright.lookup_eq_none hlt, lookup_cons, if_pos rfl] at h
  cases h

/-- Ordered lists that answer every look-up alike are equal. -/
theorem Ordered.ext {left right : List Binding} (hleft : Ordered left)
    (hright : Ordered right) (h : ∀ name, left.lookup name = right.lookup name) :
    left = right := by
  induction left generalizing right with
  | nil =>
      cases right with
      | nil => rfl
      | cons head rest => simpa [lookup_cons] using h head.1
  | cons first rest ih =>
      obtain ⟨hfirst, hrest⟩ := List.pairwise_cons.1 hleft
      cases right with
      | nil => simpa [lookup_cons] using h first.1
      | cons second others =>
          obtain ⟨hsecond, hothers⟩ := List.pairwise_cons.1 hright
          have hname : first.1 = second.1 := String.le_antisymm
            (String.not_lt.1 (hleft.not_lt_of_lookup_eq (h second.1).symm))
            (String.not_lt.1 (hright.not_lt_of_lookup_eq (h first.1)))
          have hvalue : first.2 = second.2 := by
            simpa [lookup_cons, hname] using h first.1
          obtain rfl : first = second := Prod.ext hname hvalue
          refine congrArg (first :: ·) (ih hrest hothers fun name => ?_)
          by_cases heq : name = first.1
          · rw [heq, lookup_eq_none_of_lt hfirst, lookup_eq_none_of_lt hsecond]
          · have hcons := h name
            rwa [lookup_cons, lookup_cons, if_neg heq, if_neg heq] at hcons

end Binding

/-- A finite map from names to values. -/
@[ext]
structure SortedBindings where
  /-- The bindings, in increasing order of their names. -/
  list : List Binding
  /-- Each name is bound once, and the names increase. -/
  ordered : Binding.Ordered list
deriving DecidableEq

namespace SortedBindings

/-- The map that binds nothing. -/
def empty : SortedBindings :=
  ⟨[], List.Pairwise.nil⟩

/-- Binds a name to a value, instead of the value that it had. -/
def insert (map : SortedBindings) (name : String) (value : Value) : SortedBindings :=
  ⟨Binding.insertOrdered name value map.list, map.ordered.insertOrdered⟩

/-- The map of a list of bindings, of which the last one for a name counts. -/
def ofList (bindings : List Binding) : SortedBindings :=
  bindings.foldl (fun map binding => map.insert binding.1 binding.2) empty

/-- Maps that answer alike for every name are equal. -/
theorem ext_lookup {left right : SortedBindings}
    (h : ∀ name, left.list.lookup name = right.list.lookup name) : left = right := by
  obtain ⟨bindings, hleft⟩ := left
  obtain ⟨others, hright⟩ := right
  obtain rfl := hleft.ext hright h
  rfl

end SortedBindings

/-- Sorted bindings are an ordered map, and the one that is meant where none is named. -/
@[default_instance]
instance : OrderedMap SortedBindings where
  empty := .empty
  get? map name := map.list.lookup name
  contains map name := (map.list.lookup name).isSome
  update map name value := map.insert name value
  collect bindings := .ofList bindings
  entries map := map.list
  size map := map.list.length
  isEmpty map := map.list.isEmpty
  same left right := decide (left = right)

instance : LawfulOrderedMap SortedBindings where
  entries_empty := rfl
  entries_increase map := map.ordered.imp nameBytes_lt
  get?_eq_lookup _ _ := rfl
  contains_eq_isSome _ _ := rfl
  get?_update _ _ _ _ := Binding.lookup_insertOrdered
  get?_collect _ _ := rfl
  size_eq_length _ := rfl
  isEmpty_eq _ := rfl
  same_iff _ _ := decide_eq_true_iff.trans SortedBindings.ext_iff

end WhileLanguage
