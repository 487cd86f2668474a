import Mintter.Docmodel.Moves

/-!
# A sample of fractional indexes

The indexing package is a parameter of the model.  To run the model on an
input, `sampleFracdex` returns the keys of the package for the places that a
short document needs, and for any other place it computes some key.
-/

namespace Mintter.Docmodel

namespace SampleKeys

/-- Printable characters, without a trailing least character. -/
def IsKey (key : String) : Prop :=
  key ≠ "" ∧ (∀ c ∈ key.toList, '-' ≤ c ∧ c < '~') ∧
    key.toList.getLast? ≠ some '-'

instance : DecidablePred IsKey := fun key =>
  have : Decidable (∀ c ∈ key.toList, '-' ≤ c ∧ c < '~') :=
    List.decidableBAll _ _
  inferInstanceAs (Decidable (key ≠ "" ∧
    (∀ c ∈ key.toList, '-' ≤ c ∧ c < '~') ∧
      key.toList.getLast? ≠ some '-'))

/-- A key between any two keys. -/
def between (left right : List Char) : List Char :=
  if left <+: right then
    left ++ (List.replicate (right.length - left.length) '-' ++ ['V'])
  else left ++ ['V']

/-- Left key, right key, and the key that the package returns for them. -/
def known : List (String × String × String) :=
  [("", "", "a0"), ("a0", "", "a1"), ("a1", "", "a2"), ("", "a0", "Zz"),
    ("a0", "a1", "a0V")]

/-- A key between two keys: a known one, or one that is made from the left key. -/
def keyBetween (left right : String) : String :=
  match known.find? fun entry => entry.1 = left ∧ entry.2.1 = right with
  | some entry => entry.2.2
  | none => String.ofList (between left.toList right.toList)

theorem lt_append {left suffix : List Char} (nonempty : suffix ≠ []) :
    left < left ++ suffix := by
  induction left with
  | nil =>
      cases suffix with
      | nil => exact absurd rfl nonempty
      | cons c suffix => exact List.Lex.nil
  | cons c left induction => exact List.Lex.cons induction

/-- Leading least characters and one more character come before any key. -/
theorem dashes_lt {suffix : List Char} (nonempty : suffix ≠ [])
    (bounded : ∀ c ∈ suffix, '-' ≤ c) (ends : suffix.getLast? ≠ some '-') :
    List.replicate suffix.length '-' ++ ['V'] < suffix := by
  induction suffix with
  | nil => exact absurd rfl nonempty
  | cons c suffix induction =>
      rw [List.length_cons, List.replicate_succ, List.cons_append]
      rcases (bounded c List.mem_cons_self).lt_or_eq with less | rfl
      · exact List.Lex.rel less
      · refine List.Lex.cons (induction ?_ ?_ ?_)
        · rintro rfl
          exact ends rfl
        · exact fun c' member => bounded c' (List.mem_cons_of_mem _ member)
        · cases suffix with
          | nil => simp
          | cons c' suffix => simpa using ends

/-- What is less stays less with any suffix, unless it is a prefix. -/
theorem append_lt_of_not_prefix {left right : List Char} (less : left < right)
    (differ : ¬ left <+: right) (suffix : List Char) :
    left ++ suffix < right := by
  induction left generalizing right with
  | nil => exact absurd (List.nil_prefix) differ
  | cons c left induction =>
      cases less with
      | cons less =>
          refine List.Lex.cons (induction less ?_)
          rintro ⟨rest, rfl⟩
          exact differ ⟨rest, rfl⟩
      | rel less => exact List.Lex.rel less

/-- The made key is between the two keys. -/
theorem between_spec {left right : List Char}
    (leftBound : ∀ c ∈ left, '-' ≤ c ∧ c < '~')
    (rightBound : ∀ c ∈ right, '-' ≤ c ∧ c < '~')
    (rightEnds : right.getLast? ≠ some '-')
    (less : left < right ∨ right = []) :
    left < between left right ∧
      (between left right < right ∨ right = []) ∧
      (∀ c ∈ between left right, '-' ≤ c ∧ c < '~') ∧
      (between left right).getLast? = some 'V' := by
  have letter : '-' ≤ 'V' ∧ 'V' < '~' := by decide
  have dash : '-' ≤ '-' ∧ '-' < '~' := by decide
  rw [between]
  split_ifs with isPrefix
  · obtain ⟨suffix, rfl⟩ := isPrefix
    refine ⟨lt_append (by simp), ?_, ?_, ?_⟩
    · rcases less with less | empty
      · left
        have nonempty : suffix ≠ [] := by
          rintro rfl
          simp at less
        have ends : suffix.getLast? ≠ some '-' := by
          rwa [List.getLast?_append_of_ne_nil _ nonempty] at rightEnds
        have below := dashes_lt nonempty
          (fun c member => (rightBound c (by simp [member])).1) ends
        rw [List.length_append, Nat.add_sub_cancel_left]
        exact List.append_left_lt below
      · exact Or.inr empty
    · intro c member
      simp only [List.mem_append, List.mem_replicate, List.mem_singleton]
        at member
      rcases member with inLeft | ⟨-, rfl⟩ | rfl
      · exact leftBound c inLeft
      · exact dash
      · exact letter
    · rw [← List.append_assoc, List.getLast?_concat]
  · refine ⟨lt_append (by simp), ?_, ?_, by simp⟩
    · exact less.imp_left fun less =>
        append_lt_of_not_prefix less isPrefix ['V']
    · intro c member
      rcases List.mem_append.mp member with inLeft | isLetter
      · exact leftBound c inLeft
      · exact List.mem_singleton.mp isLetter ▸ letter

theorem known_spec : ∀ entry ∈ known, IsKey entry.2.2 ∧
    entry.1 < entry.2.2 ∧ (entry.2.2 < entry.2.1 ∨ entry.2.1 = "") := by
  decide

/-- The key is between the two keys. -/
theorem keyBetween_spec {left right : String} (isLeft : left = "" ∨ IsKey left)
    (isRight : right = "" ∨ IsKey right) (less : left < right ∨ right = "") :
    IsKey (keyBetween left right) ∧ left < keyBetween left right ∧
      (keyBetween left right < right ∨ right = "") := by
  rw [keyBetween]
  cases found : known.find? fun entry =>
      entry.1 = left ∧ entry.2.1 = right with
  | some entry =>
      have named := List.find?_some found
      simp only [decide_eq_true_eq] at named
      obtain ⟨rfl, rfl⟩ := named
      exact known_spec entry (List.mem_of_find?_eq_some found)
  | none =>
      have bound : ∀ {key : String}, key = "" ∨ IsKey key →
          ∀ c ∈ key.toList, '-' ≤ c ∧ c < '~' := by
        rintro key (rfl | isKey)
        · simp
        · exact isKey.2.1
      have ends : right.toList.getLast? ≠ some '-' := by
        rcases isRight with rfl | isKey
        · simp
        · exact isKey.2.2
      have ordered : left.toList < right.toList ∨ right.toList = [] := by
        rcases less with less | rfl
        · exact Or.inl (String.lt_iff_toList_lt.mp less)
        · exact Or.inr (by simp)
      obtain ⟨above, below, inRange, last⟩ :=
        between_spec (bound isLeft) (bound isRight) ends ordered
      refine ⟨⟨?_, by simpa using inRange, by simp [last]⟩, ?_, ?_⟩
      · intro empty
        have := congrArg String.toList empty
        rw [String.toList_ofList] at this
        simp [this] at last
      · rwa [String.lt_iff_toList_lt, String.toList_ofList]
      · rcases below with below | empty
        · left
          rwa [String.lt_iff_toList_lt, String.toList_ofList]
        · right
          exact String.toList_eq_nil_iff.mp empty

theorem lt_tilde {key : String} (isKey : IsKey key) : key < "~" := by
  rw [String.lt_iff_toList_lt]
  obtain ⟨nonempty, bound, -⟩ := isKey
  cases shape : key.toList with
  | nil => exact absurd (String.toList_eq_nil_iff.mp shape) nonempty
  | cons c rest => exact List.Lex.rel (bound c (by simp [shape])).2

end SampleKeys

/-- Fractional indexes that can be computed. -/
def sampleFracdex : Fracdex where
  IsKey := SampleKeys.IsKey
  keyBetween := fun left right => .ok (SampleKeys.keyBetween left right)
  ne_empty := fun isKey => isKey.1
  lt_tilde := SampleKeys.lt_tilde
  between := fun isLeft isRight less =>
    ⟨_, rfl, SampleKeys.keyBetween_spec isLeft isRight less⟩

end Mintter.Docmodel
