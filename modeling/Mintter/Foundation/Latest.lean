import Mathlib.Data.List.Induction
import Mathlib.Order.Lattice

/-!
# The greatest and the last item of a list

A register that keeps the greatest of the items it is given ends with one that has the greatest
key.  Which one of several with that key it is depends on whether an item replaces another one
of the same key: without that the first one stays, with it the last one.

A map that is written item after item holds the last value of each key.  This is the same in
every order of the items only if the items of the key have one value.
-/

namespace Mintter.Foundation

variable {α κ : Type} [LinearOrder κ] (key : α → κ)

/-- The first of the items with the greatest key. -/
def FirstGreatest (items : List α) (item : α) : Prop :=
  ∃ before after, items = before ++ item :: after ∧
    (∀ other ∈ before, key other < key item) ∧ ∀ other ∈ after, key other ≤ key item

/-- The last of the items with the greatest key. -/
def LastGreatest (items : List α) (item : α) : Prop :=
  ∃ before after, items = before ++ item :: after ∧
    (∀ other ∈ before, key other ≤ key item) ∧ ∀ other ∈ after, key other < key item

/-- Keep the greater of two items, and the old one of two that have one key. -/
def keepGreatest (current : Option α) (new : α) : Option α :=
  match current with
  | none => some new
  | some old => if key old < key new then some new else some old

variable {key} {items : List α} {item other new : α}

theorem FirstGreatest.mem (greatest : FirstGreatest key items item) : item ∈ items := by
  rcases greatest with ⟨before, after, rfl, -, -⟩
  simp

theorem FirstGreatest.le (greatest : FirstGreatest key items item) (member : other ∈ items) :
    key other ≤ key item := by
  rcases greatest with ⟨before, after, rfl, smaller, notGreater⟩
  rcases List.mem_append.mp member with isBefore | isAfter
  · exact (smaller other isBefore).le
  · rcases List.mem_cons.mp isAfter with rfl | later
    · exact le_rfl
    · exact notGreater other later

theorem LastGreatest.mem (greatest : LastGreatest key items item) : item ∈ items := by
  rcases greatest with ⟨before, after, rfl, -, -⟩
  simp

theorem LastGreatest.le (greatest : LastGreatest key items item) (member : other ∈ items) :
    key other ≤ key item := by
  rcases greatest with ⟨before, after, rfl, notGreater, smaller⟩
  rcases List.mem_append.mp member with isBefore | isAfter
  · exact notGreater other isBefore
  · rcases List.mem_cons.mp isAfter with rfl | later
    · exact le_rfl
    · exact (smaller other later).le

/-- A list that is not empty has a last greatest item. -/
theorem exists_lastGreatest (key : α → κ) (nonempty : items ≠ []) : ∃ item, LastGreatest key items item := by
  induction items with
  | nil => exact absurd rfl nonempty
  | cons first rest induction =>
      rcases rest.eq_nil_or_concat with rfl | isConcat
      · exact ⟨first, [], [], rfl, nofun, nofun⟩
      · have restNonempty : rest ≠ [] := by
          rcases isConcat with ⟨front, last, rfl⟩
          simp
        rcases induction restNonempty with ⟨item, greatest⟩
        by_cases less : key item < key first
        · refine ⟨first, [], rest, rfl, nofun, ?_⟩
          intro other member
          exact (greatest.le member).trans_lt less
        · rcases greatest with ⟨before, after, rfl, notGreater, smaller⟩
          refine ⟨item, first :: before, after, rfl, ?_, smaller⟩
          intro other member
          rcases List.mem_cons.mp member with rfl | isBefore
          · exact not_lt.mp less
          · exact notGreater other isBefore

/-- One more item is the first greatest one only if it is greater than the others. -/
theorem FirstGreatest.concat (greatest : FirstGreatest key items item) (new : α) :
    FirstGreatest key (items ++ [new]) (if key item < key new then new else item) := by
  by_cases less : key item < key new
  · rw [if_pos less]
    refine ⟨items, [], rfl, ?_, nofun⟩
    intro other member
    exact (greatest.le member).trans_lt less
  · rw [if_neg less]
    rcases greatest with ⟨before, after, rfl, smaller, notGreater⟩
    refine ⟨before, after ++ [new], by simp, smaller, ?_⟩
    intro other member
    rcases List.mem_append.mp member with old | isNew
    · exact notGreater other old
    · rw [List.mem_singleton.mp isNew]
      exact not_lt.mp less

/-- The register holds the first of the greatest items. -/
theorem foldl_keepGreatest (key : α → κ) (items : List α) :
    match items.foldl (keepGreatest key) none with
    | none => items = []
    | some item => FirstGreatest key items item := by
  induction items using List.reverseRecOn with
  | nil => rfl
  | append_singleton items new induction =>
      rw [List.foldl_append]
      cases current : items.foldl (keepGreatest key) none with
      | none =>
          rw [current] at induction
          rw [induction]
          exact ⟨[], [], rfl, nofun, nofun⟩
      | some old =>
          rw [current] at induction
          have next := FirstGreatest.concat induction new
          change match if key old < key new then some new else some old with
            | none => items ++ [new] = []
            | some item => FirstGreatest key (items ++ [new]) item
          split_ifs at next ⊢
          · exact next
          · exact next

/-- A list has one first greatest item. -/
theorem FirstGreatest.unique (greatest : FirstGreatest key items item)
    (greatest' : FirstGreatest key items other) : item = other := by
  rcases greatest with ⟨before, after, rfl, smaller, notGreater⟩
  rcases greatest' with ⟨before', after', same, smaller', notGreater'⟩
  rcases List.append_eq_append_iff.mp same with ⟨between, rfl, rest⟩ | ⟨between, rfl, rest⟩
  · cases between with
    | nil => exact (List.cons.inj rest).1
    | cons _ between =>
        rcases List.cons.inj rest with ⟨rfl, rfl⟩
        exact absurd (smaller' item (by simp)) (notGreater other (by simp)).not_gt
  · cases between with
    | nil => exact (List.cons.inj rest).1.symm
    | cons _ between =>
        rcases List.cons.inj rest with ⟨rfl, rfl⟩
        exact absurd (smaller other (by simp)) (notGreater' item (by simp)).not_gt

/-- A sorted list ends with its greatest item. -/
theorem getLast?_of_greatest (sorted : items.Pairwise fun first second => key first < key second)
    (member : item ∈ items) (greatest : ∀ other ∈ items, key other ≤ key item) :
    items.getLast? = some item := by
  rcases List.append_of_mem member with ⟨before, after, rfl⟩
  cases after with
  | nil => exact List.getLast?_concat
  | cons next after =>
      have less := (List.pairwise_cons.mp (List.pairwise_append.mp sorted).2.1).1 next
        List.mem_cons_self
      exact absurd less (greatest next (by simp)).not_gt

section Overwriting

variable {β ι : Type} [DecidableEq ι]

/-- A map holds the value that was written last for a key. -/
theorem foldl_update_apply (index : α → ι) (value : α → β) (items : List α) (start : ι → β)
    (i : ι) :
    items.foldl (fun map item => Function.update map (index item) (value item)) start i =
      ((items.filter fun item => index item = i).getLast?.map value).getD (start i) := by
  induction items using List.reverseRecOn with
  | nil => exact rfl
  | append_singleton items new induction =>
      rw [List.foldl_append, List.foldl_cons, List.foldl_nil, Function.update_apply,
        List.filter_append]
      by_cases isNew : i = index new
      · rw [if_pos isNew, List.filter_cons_of_pos (by simpa using isNew.symm), List.filter_nil,
          List.getLast?_concat]
        exact rfl
      · rw [if_neg isNew, induction, List.filter_cons_of_neg (by simpa using Ne.symm isNew),
          List.filter_nil, List.append_nil]

/-- The last value is the same in every order only if all values are. -/
theorem forall_perm_last_iff [DecidableEq α] {p : α → Prop} [DecidablePred p] {value : α → β}
    {items : List α} {missing v : β} :
    (∀ items' : List α, items'.Perm items →
        ((items'.filter p).getLast?.map value).getD missing = v) ↔
      (∀ item ∈ items, p item → value item = v) ∧
        ((∀ item ∈ items, ¬ p item) → missing = v) := by
  constructor
  · intro isLast
    constructor
    · intro item member isKey
      -- In this order the item comes last.
      have perm : (items.erase item ++ [item]).Perm items :=
        List.perm_append_comm.trans (List.perm_cons_erase member).symm
      have last := isLast _ perm
      rw [List.filter_append, List.filter_cons_of_pos (by simpa using isKey), List.filter_nil,
        List.getLast?_concat] at last
      exact last
    · intro noItem
      have last := isLast items (.refl items)
      have none : items.filter p = [] := by
        apply List.filter_eq_nil_iff.mpr
        intro item member
        simpa using noItem item member
      rw [none] at last
      exact last
  · rintro ⟨same, unset⟩ items' perm
    cases isLast : (items'.filter p).getLast? with
    | none =>
        apply unset
        intro item member isKey
        have kept : item ∈ items'.filter p :=
          List.mem_filter.mpr ⟨perm.mem_iff.mpr member, by simpa using isKey⟩
        rw [List.getLast?_eq_none_iff.mp isLast] at kept
        exact absurd kept List.not_mem_nil
    | some item =>
        have member := List.mem_filter.mp (List.mem_of_getLast? isLast)
        exact same item (perm.mem_iff.mp member.1) (by simpa using member.2)

end Overwriting

end Mintter.Foundation
