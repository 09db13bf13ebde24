/-!
# The bytes of names

Names are compared by their code points. Their bytes in UTF-8 compare in the same way: read
`nameBytes_lt_iff`. The reason is `utf8EncodeChar_append_lt`, for one character.
-/

namespace WhileLanguage

/-- The bytes of a name in UTF-8. -/
def nameBytes (name : String) : List UInt8 :=
  name.toUTF8.data.toList

/-- The bytes of a name are those of its characters, one after another. -/
theorem nameBytes_eq {name : String} :
    nameBytes name = name.toList.flatMap String.utf8EncodeChar := by
  show name.toByteArray.data.toList = _
  rw [← String.utf8Encode_toList, List.utf8Encode, List.toList_data_toByteArray]

/-- Where one character is below another, so are their bytes, whatever follows them. -/
theorem utf8EncodeChar_append_lt {first second : Char} (h : first < second)
    (rest others : List UInt8) :
    String.utf8EncodeChar first ++ rest < String.utf8EncodeChar second ++ others := by
  have hlt : first.val.toNat < second.val.toNat := h
  have hvalid : second.val.toNat < 0x110000 := by
    have := second.valid
    simp only [UInt32.isValidChar, Nat.isValidChar] at this
    omega
  unfold String.utf8EncodeChar
  dsimp only
  -- Leading bytes of a longer form lie above those of a shorter one. In one and the same form the
  -- bytes are the digits of the code points to the base 64, the highest digit first.
  repeat' split
  all_goals
    simp only [List.cons_append, List.nil_append, List.cons_lt_cons_iff, UInt8.lt_iff_toNat_lt,
      ← UInt8.toNat_inj, UInt8.toNat_ofNat']
    simp (disch := omega) only [Nat.mod_eq_of_lt]
    omega

/-- Lists of characters in order have their bytes in order. -/
theorem flatMap_utf8EncodeChar_lt {left right : List Char} (h : left < right) :
    left.flatMap String.utf8EncodeChar < right.flatMap String.utf8EncodeChar := by
  induction left generalizing right with
  | nil =>
      cases right with
      | nil => exact absurd h (List.not_lt_nil _)
      | cons second others =>
          rw [List.flatMap_nil, List.flatMap_cons]
          cases hbytes : String.utf8EncodeChar second with
          | nil => exact absurd hbytes String.utf8EncodeChar_ne_nil
          | cons byte bytes => exact List.nil_lt_cons _ _
  | cons first rest ih =>
      cases right with
      | nil => exact absurd h (List.not_lt_nil _)
      | cons second others =>
          rw [List.flatMap_cons, List.flatMap_cons]
          rcases List.cons_lt_cons_iff.1 h with hlt | ⟨rfl, hrest⟩
          · exact utf8EncodeChar_append_lt hlt _ _
          · exact List.append_left_lt (ih hrest)

/-- Names in order have their bytes in order. -/
theorem nameBytes_lt {first second : String} (h : first < second) :
    nameBytes first < nameBytes second := by
  rw [nameBytes_eq, nameBytes_eq]
  exact flatMap_utf8EncodeChar_lt h

/-- A name that is neither below another nor equal to it lies above it. -/
theorem name_lt_of_not_lt_of_ne {first second : String} (hlt : ¬ first < second)
    (hne : first ≠ second) : second < first := by
  by_cases h : second < first
  · exact h
  · exact absurd (String.le_antisymm (String.not_lt.1 h) (String.not_lt.1 hlt)) hne

/-- The order of names is that of their bytes. -/
theorem nameBytes_lt_iff {first second : String} :
    nameBytes first < nameBytes second ↔ first < second := by
  refine ⟨fun h => ?_, nameBytes_lt⟩
  by_cases hlt : first < second
  · exact hlt
  · have hne : first ≠ second := by
      intro heq
      exact List.lt_irrefl _ (heq ▸ h)
    exact absurd (nameBytes_lt (name_lt_of_not_lt_of_ne hlt hne)) (List.lt_asymm h)

end WhileLanguage
