import Mintter.Hyper.Graph

/-!
# Slices of unique indexes

`addUnique` inserts a value in front of the first greater one.  When it meets none, it inserts at
the front instead of the end, so a slice stays increasing as long as no value is greater than all
that are there.

The reverse dependencies of a change get the indexes of later changes in the order in which these
are applied, which is the order that does not fit.
-/

namespace Mintter.Hyper

open Entity

variable {α : Type} [LinearOrder α]

/-- Each element is greater than the ones before it. -/
def Increasing (xs : List α) : Prop := xs.Pairwise (· < ·)

/-- The value is not greater than all that are there. -/
def Fits (xs : List α) (v : α) : Prop := xs = [] ∨ ∃ x ∈ xs, v ≤ x

/-! ## One value -/

theorem targetIndex_of_greatest {v : α} {xs : List α} (greatest : ∀ x ∈ xs, x < v) (start : Nat) :
    targetIndex v start xs = some 0 := by
  induction xs generalizing start with
  | nil => rfl
  | cons x rest induction =>
      have less := greatest x List.mem_cons_self
      rw [targetIndex, if_neg less.ne, if_neg less.asymm]
      exact induction (fun y member => greatest y (List.mem_cons_of_mem x member)) (start + 1)

theorem addUnique_of_greatest {v : α} {xs : List α} (greatest : ∀ x ∈ xs, x < v) :
    addUnique xs v = v :: xs := by
  rw [addUnique, targetIndex_of_greatest greatest]
  rfl

/-- Behind smaller values the search goes on as it would from the start. -/
theorem targetIndex_succ {v : α} {xs : List α} (some_ge : ∃ x ∈ xs, v ≤ x) (start : Nat) :
    targetIndex v (start + 1) xs = (targetIndex v start xs).map (· + 1) := by
  induction xs generalizing start with
  | nil =>
      rcases some_ge with ⟨x, member, _⟩
      cases member
  | cons x rest induction =>
      rw [targetIndex, targetIndex]
      split_ifs with same less
      · rfl
      · rfl
      · apply induction
        rcases some_ge with ⟨y, member, ge⟩
        rcases List.mem_cons.mp member with rfl | later
        · exact absurd (lt_of_le_of_ne ge fun equal => same equal.symm) less
        · exact ⟨y, later, ge⟩

theorem addUnique_cons_of_less {v x : α} {rest : List α} (less : x < v)
    (some_ge : ∃ y ∈ rest, v ≤ y) : addUnique (x :: rest) v = x :: addUnique rest v := by
  rw [addUnique, addUnique, targetIndex, if_neg less.ne, if_neg less.asymm,
    targetIndex_succ some_ge]
  cases targetIndex v 0 rest with
  | none => rfl
  | some i => rfl

theorem addUnique_increasing {v : α} {xs : List α} (increasing : Increasing xs)
    (fits : Fits xs v) : Increasing (addUnique xs v) := by
  induction xs with
  | nil => exact List.pairwise_singleton _ v
  | cons x rest induction =>
      rcases lt_trichotomy x v with less | same | greater
      · have some_ge : ∃ y ∈ rest, v ≤ y := by
          rcases fits with empty | ⟨y, member, ge⟩
          · cases empty
          · rcases List.mem_cons.mp member with rfl | later
            · exact absurd less ge.not_gt
            · exact ⟨y, later, ge⟩
        rw [addUnique_cons_of_less less some_ge]
        have parts := List.pairwise_cons.mp increasing
        apply List.pairwise_cons.mpr
        constructor
        · intro y member
          rcases mem_addUnique.mp member with rfl | inside
          · exact less
          · exact parts.1 y inside
        · exact induction parts.2 (Or.inr some_ge)
      · rw [addUnique, targetIndex, if_pos same]
        exact increasing
      · rw [addUnique, targetIndex, if_neg greater.ne', if_pos greater]
        apply List.pairwise_cons.mpr
        constructor
        · intro y member
          rcases List.mem_cons.mp member with rfl | later
          · exact greater
          · exact greater.trans ((List.pairwise_cons.mp increasing).1 y later)
        · exact increasing

theorem sublist_addUnique (xs : List α) (v : α) : xs.Sublist (addUnique xs v) := by
  rw [addUnique]
  cases targetIndex v 0 xs with
  | none => exact List.Sublist.refl xs
  | some i => exact List.sublist_insertIdx xs i v

theorem addUnique_increasing_iff (xs : List α) (v : α) :
    Increasing (addUnique xs v) ↔ Increasing xs ∧ Fits xs v := by
  constructor
  · intro increasing
    constructor
    · exact increasing.sublist (sublist_addUnique xs v)
    · by_contra outside
      simp only [Fits, not_or, not_exists, not_and, not_le] at outside
      rcases List.exists_mem_of_ne_nil xs outside.1 with ⟨x, member⟩
      rw [addUnique_of_greatest outside.2] at increasing
      have less := (List.pairwise_cons.mp increasing).1 x member
      exact less.asymm (outside.2 x member)
  · rintro ⟨increasing, fits⟩
    exact addUnique_increasing increasing fits

/-! ## Many values -/

/-- No value is greater than all that are there when it is added. -/
def AllFit (xs vs : List α) : Prop :=
  ∀ before v after, vs = before ++ v :: after → Fits (xs ++ before) v

theorem fits_congr {xs ys : List α} (same : ∀ x, x ∈ xs ↔ x ∈ ys) (v : α) :
    Fits xs v ↔ Fits ys v := by
  simp only [Fits, List.eq_nil_iff_forall_not_mem, same]

theorem allFit_cons (xs vs : List α) (v : α) :
    AllFit xs (v :: vs) ↔ Fits xs v ∧ AllFit (addUnique xs v) vs := by
  have members : ∀ before : List α, ∀ x,
      x ∈ xs ++ v :: before ↔ x ∈ addUnique xs v ++ before := by
    intro before x
    rw [List.mem_append, List.mem_append, mem_addUnique, List.mem_cons]
    tauto
  constructor
  · intro fits
    constructor
    · simpa using fits [] v vs rfl
    · rintro before next after rfl
      exact (fits_congr (members before) next).mp (fits (v :: before) next after rfl)
  · rintro ⟨first, later⟩ before next after split
    cases before with
    | nil =>
        rw [List.nil_append, List.cons.injEq] at split
        rw [List.append_nil, ← split.1]
        exact first
    | cons head before =>
        rw [List.cons_append, List.cons.injEq] at split
        rw [← split.1]
        exact (fits_congr (members before) next).mpr (later before next after split.2)

theorem foldl_addUnique_increasing_iff (xs vs : List α) :
    Increasing (vs.foldl addUnique xs) ↔ Increasing xs ∧ AllFit xs vs := by
  induction vs generalizing xs with
  | nil =>
      constructor
      · intro increasing
        exact ⟨increasing, by simp [AllFit]⟩
      · exact And.left
  | cons v vs induction =>
      rw [List.foldl_cons, induction, addUnique_increasing_iff, allFit_cons, and_assoc]

/-- Adding values one after the other yields the increasing slice of all of them exactly when
none is greater than all that are there when it is added. -/
theorem foldl_addUnique_is_increasing_set_iff (xs vs : List Int) (increasing : Increasing xs) :
    (Increasing (vs.foldl addUnique xs) ∧
        ∀ x, x ∈ vs.foldl addUnique xs ↔ x ∈ xs ∨ x ∈ vs) ↔
      ∀ before v after, vs = before ++ v :: after →
        xs ++ before = [] ∨ ∃ x ∈ xs ++ before, v ≤ x := by
  constructor
  · rintro ⟨result, _⟩
    exact ((foldl_addUnique_increasing_iff xs vs).mp result).2
  · intro fits
    constructor
    · exact (foldl_addUnique_increasing_iff xs vs).mpr ⟨increasing, fits⟩
    · intro x
      rw [mem_foldl_addUnique, or_comm]

theorem foldl_addUnique_is_increasing_set_of_two :
    Increasing ([2, 1].foldl addUnique ([3, 5] : List Int)) ∧
      ∀ x, x ∈ [2, 1].foldl addUnique ([3, 5] : List Int) ↔ x ∈ [3, 5] ∨ x ∈ [2, 1] := by
  apply (foldl_addUnique_is_increasing_set_iff [3, 5] [2, 1] (by simp [Increasing])).mpr
  intro before v after split
  have member : v ∈ ([2, 1] : List Int) := by simp [split]
  have small : v ≤ 3 := by
    rcases List.mem_cons.mp member with rfl | later
    · decide
    · rw [List.mem_singleton.mp later]
      decide
  right
  exact ⟨3, by simp, small⟩

/-- The greatest value is put in front. -/
theorem addUnique_puts_greatest_in_front :
    Increasing ([1, 2] : List Int) ∧ ¬ Increasing (addUnique ([1, 2] : List Int) 3) ∧
      ¬ Increasing ([1, 2].foldl addUnique ([] : List Int)) := by
  constructor
  · simp [Increasing]
  · constructor
    · simp [Increasing, addUnique, targetIndex]
    · simp [Increasing, addUnique, targetIndex]

end Mintter.Hyper
