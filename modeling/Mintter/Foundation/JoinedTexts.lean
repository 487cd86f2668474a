import Mathlib.Data.String.Basic

/-!
# Splitting joined texts

Splitting a text at one character is splitting its list of characters there, so texts that do not
contain the character come back from what they were joined to.
-/

namespace Mintter.Foundation

theorem extract_ofList (before part rest : List Char) :
    String.Pos.Raw.extract (String.ofList (before ++ part ++ rest)) ⟨String.utf8Len before⟩
      ⟨String.utf8Len (before ++ part)⟩ = String.ofList part := by
  rw [String.utf8Len_append]
  exact String.extract_of_valid ..

/-- The loop stands behind `seen`, which was split, and `cur`, which has no separator. -/
theorem splitOnAux_ofList (c : Char) (seen cur rest : List Char) (parts : List String) :
    (String.ofList (seen ++ cur ++ rest)).splitOnAux (String.singleton c) ⟨String.utf8Len seen⟩
      ⟨String.utf8Len (seen ++ cur)⟩ 0 parts =
        parts.reverse ++ (List.splitOnPPrepend (· == c) rest cur.reverse).map String.ofList := by
  induction rest generalizing seen cur parts with
  | nil =>
      have ends := (String.atEnd_of_valid (seen ++ cur) []).mpr rfl
      rw [String.splitOnAux, if_pos ends, extract_ofList]
      simp
  | cons x rest induction =>
      have ends : ¬ String.Pos.Raw.atEnd (String.ofList (seen ++ cur ++ x :: rest))
          ⟨String.utf8Len (seen ++ cur)⟩ = true := by
        rw [String.atEnd_of_valid]
        simp
      have isNext : String.Pos.Raw.next (String.ofList (seen ++ cur ++ x :: rest))
          ⟨String.utf8Len (seen ++ cur)⟩ = ⟨String.utf8Len (seen ++ cur ++ [x])⟩ := by
        rw [String.next_of_valid, String.utf8Len_append, String.utf8Len_append]
        simp
      have isHere := String.get_of_valid (seen ++ cur) (x :: rest)
      have isSep : String.Pos.Raw.get (String.singleton c) 0 = c := by
        simpa using String.get_of_valid [] [c]
      rw [String.splitOnAux, if_neg ends, isHere, isSep, List.headD_cons]
      by_cases same : x = c
      · subst same
        have sepNext : String.Pos.Raw.next (String.singleton x) 0 = ⟨x.utf8Size⟩ := by
          simpa using String.next_of_valid [] x []
        have sepEnds : String.Pos.Raw.atEnd (String.singleton x) ⟨x.utf8Size⟩ = true := by
          simpa using (String.atEnd_of_valid [x] []).mpr rfl
        have back : String.Pos.Raw.unoffsetBy ⟨String.utf8Len (seen ++ cur ++ [x])⟩
            ⟨x.utf8Size⟩ = ⟨String.utf8Len (seen ++ cur)⟩ := by
          simp only [String.Pos.Raw.unoffsetBy, String.utf8Len_append _ [x],
            String.utf8Len_cons, String.utf8Len_nil, String.Pos.Raw.mk.injEq]
          omega
        have later := induction (seen ++ cur ++ [x]) [] (String.ofList cur :: parts)
        rw [List.append_nil, List.append_assoc _ [x] rest, List.singleton_append] at later
        simp only [beq_self_eq_true, if_true, isNext, sepNext, sepEnds, back, extract_ofList]
        rw [later]
        simp [List.splitOnPPrepend_cons_eq_if]
      · have later := induction seen (cur ++ [x]) parts
        have zero : String.Pos.Raw.unoffsetBy ⟨String.utf8Len (seen ++ cur)⟩ 0 =
            ⟨String.utf8Len (seen ++ cur)⟩ := by
          simp [String.Pos.Raw.unoffsetBy]
        rw [← List.append_assoc seen cur [x], List.append_assoc _ [x] rest,
          List.singleton_append] at later
        rw [if_neg (by simpa using same), zero, isNext, later]
        simp [List.splitOnPPrepend_cons_eq_if, same]

/-- A text is split at a character as its list of characters is. -/
theorem splitOn_singleton (text : String) (c : Char) :
    text.splitOn (String.singleton c) = (text.toList.splitOn c).map String.ofList := by
  have nonempty : (String.singleton c == "") = false := by
    rw [beq_eq_false_iff_ne]
    intro isEmpty
    have chars := congrArg String.toList isEmpty
    simp at chars
  have whole := splitOnAux_ofList c [] [] text.toList []
  rw [List.nil_append, List.nil_append, String.ofList_toList] at whole
  rw [String.splitOn, nonempty, if_neg Bool.false_ne_true, List.splitOn_eq_splitOnP]
  exact whole

/-- Texts without the separator come back from the joined text. -/
theorem splitOn_intercalate {c : Char} {texts : List String} (nonempty : texts ≠ [])
    (free : ∀ text ∈ texts, c ∉ text.toList) :
    ((String.singleton c).intercalate texts).splitOn (String.singleton c) = texts := by
  rw [splitOn_singleton, String.toList_intercalate, String.toList_singleton,
    List.splitOn_intercalate c _ (by simpa using nonempty), List.map_map]
  · apply List.map_id''
    exact fun text => String.ofList_toList
  · intro chars member
    rcases List.mem_map.mp member with ⟨text, isText, rfl⟩
    exact free text isText

end Mintter.Foundation
