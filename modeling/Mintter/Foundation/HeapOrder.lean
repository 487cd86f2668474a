import Mathlib.Logic.Equiv.Basic
import Mathlib.Order.Defs.Unbundled
import Mathlib.Tactic.Common

/-!
# The order of a binary heap

The places of a binary heap are numbered level by level.  What stands at the places is a function
of them, of which the first ones count.

A heap with a hole is in order but for the place of the hole: what stands there may be too small
or too great.  Exchanging it with its parent, or with the least child, moves the hole, and where
neither is called for there is no hole any more (`Hole.ordered`).
-/

namespace Mintter.Foundation

variable {T : Type} {less : T → T → Prop}

/-- The place above a place; the first place is above itself. -/
def parent (place : Nat) : Nat := (place - 1) / 2

theorem parent_lt {place : Nat} (positive : 0 < place) : parent place < place := by
  rw [parent]
  omega

/-- The children of a place are the two behind twice its number. -/
theorem parent_eq_iff {place i : Nat} (positive : 0 < place) :
    parent place = i ↔ place = 2 * i + 1 ∨ place = 2 * i + 2 := by
  rw [parent]
  omega

/-- No place holds less than the one above it. -/
def HeapOrdered (less : T → T → Prop) (at_ : Nat → T) (n : Nat) : Prop :=
  ∀ k, 0 < k → k < n → ¬ less (at_ k) (at_ (parent k))

/-- What is not less is ordered weakly. -/
theorem not_less_trans [IsStrictWeakOrder T less] {x y z : T} (first : ¬ less x y)
    (second : ¬ less y z) : ¬ less x z := by
  intro lessThan
  have same : ¬ less x z ∧ ¬ less z x := by
    apply @IsStrictWeakOrder.incomp_trans T less _ x y z
    · exact ⟨first, fun reverse => second (trans_of less reverse lessThan)⟩
    · exact ⟨second, fun reverse => first (trans_of less lessThan reverse)⟩
  exact same.1 lessThan

/-- The first place holds a least value. -/
theorem HeapOrdered.first_least [IsStrictWeakOrder T less] {at_ : Nat → T} {n : Nat}
    (ordered : HeapOrdered less at_ n) {k : Nat} (inside : k < n) : ¬ less (at_ k) (at_ 0) := by
  induction k using Nat.strongRecOn with
  | ind k induction =>
      by_cases first : k = 0
      · subst first
        exact irrefl_of less (at_ 0)
      · have above := parent_lt (Nat.pos_of_ne_zero first)
        exact not_less_trans (ordered k (Nat.pos_of_ne_zero first) inside)
          (induction (parent k) above (Nat.lt_trans above inside))

/-- The heap is in order but for one place; what is below this place fits what is above it. -/
structure Hole (less : T → T → Prop) (at_ : Nat → T) (n i : Nat) : Prop where
  elsewhere : ∀ k, 0 < k → k < n → k ≠ i → parent k ≠ i → ¬ less (at_ k) (at_ (parent k))
  around : 0 < i → ∀ k, 0 < k → k < n → parent k = i → ¬ less (at_ k) (at_ (parent i))

/-- What stands at the hole is not too great for the places below it. -/
def FitsBelow (less : T → T → Prop) (at_ : Nat → T) (n i : Nat) : Prop :=
  ∀ k, 0 < k → k < n → parent k = i → ¬ less (at_ k) (at_ i)

/-- What stands at the hole is not too small for the place above it. -/
def FitsAbove (less : T → T → Prop) (at_ : Nat → T) (i : Nat) : Prop :=
  0 < i → ¬ less (at_ i) (at_ (parent i))

variable {at_ : Nat → T} {n i : Nat}

/-- A hole that fits on both sides leaves the heap ordered. -/
theorem Hole.ordered (hole : Hole less at_ n i) (above : FitsAbove less at_ i)
    (below : FitsBelow less at_ n i) : HeapOrdered less at_ n := by
  intro k positive inside
  by_cases here : k = i
  · subst here
    exact above positive
  · by_cases child : parent k = i
    · have fits := below k positive inside child
      rwa [← child] at fits
    · exact hole.elsewhere k positive inside here child

/-- A heap whose value at one place is changed has a hole there. -/
theorem HeapOrdered.hole [IsStrictWeakOrder T less] {whole : Nat}
    (ordered : HeapOrdered less at_ whole) (le : n ≤ whole) (inside : i < whole)
    {changed : Nat → T} (same : ∀ k, k < n → k ≠ i → changed k = at_ k) :
    Hole less changed n i := by
  constructor
  · intro k positive bound here child
    have before := parent_lt positive
    rw [same k bound here, same (parent k) (by omega) child]
    exact ordered k positive (by omega)
  · intro positive k kPositive bound child
    have before := parent_lt positive
    have after := parent_lt kPositive
    rw [same k bound (by omega), same (parent i) (by omega) (by omega)]
    have first := ordered k kPositive (by omega)
    rw [child] at first
    exact not_less_trans first (ordered i positive inside)

theorem exchanged_left (at_ : Nat → T) (i j : Nat) : (at_ ∘ Equiv.swap i j) i = at_ j := by
  rw [Function.comp_apply, Equiv.swap_apply_left]

theorem exchanged_right (at_ : Nat → T) (i j : Nat) : (at_ ∘ Equiv.swap i j) j = at_ i := by
  rw [Function.comp_apply, Equiv.swap_apply_right]

theorem exchanged_of_ne (at_ : Nat → T) {i j k : Nat} (left : k ≠ i) (right : k ≠ j) :
    (at_ ∘ Equiv.swap i j) k = at_ k := by
  rw [Function.comp_apply, Equiv.swap_apply_of_ne_of_ne left right]

/-- A value that is too small is exchanged with the one above it. -/
theorem Hole.up [IsStrictWeakOrder T less] (hole : Hole less at_ n i) (positive : 0 < i)
    (inside : i < n) (smaller : less (at_ i) (at_ (parent i))) :
    Hole less (at_ ∘ Equiv.swap (parent i) i) n (parent i) ∧
      FitsBelow less (at_ ∘ Equiv.swap (parent i) i) n (parent i) := by
  have before := parent_lt positive
  have notLess : ¬ less (at_ (parent i)) (at_ i) := asymm_of less smaller
  constructor
  · constructor
    · intro k kPositive bound here child
      have notHole : k ≠ i := fun same => child (congrArg parent same)
      rw [exchanged_of_ne at_ here notHole]
      by_cases below : parent k = i
      · rw [below, exchanged_right]
        exact hole.around positive k kPositive bound below
      · rw [exchanged_of_ne at_ child below]
        exact hole.elsewhere k kPositive bound notHole below
    · intro above k kPositive bound child
      have beforeAbove := parent_lt above
      have aboveFits := hole.elsewhere (parent i) above (by omega) (by omega) (by omega)
      have after := parent_lt kPositive
      rw [exchanged_of_ne at_ (show parent (parent i) ≠ parent i by omega) (by omega)]
      by_cases here : k = i
      · rw [here, exchanged_right]
        exact aboveFits
      · rw [exchanged_of_ne at_ (show k ≠ parent i by omega) here]
        have fits := hole.elsewhere k kPositive bound here (by omega)
        rw [child] at fits
        exact not_less_trans fits aboveFits
  · intro k kPositive bound child
    have after := parent_lt kPositive
    rw [exchanged_left]
    by_cases here : k = i
    · rw [here, exchanged_right]
      exact notLess
    · rw [exchanged_of_ne at_ (show k ≠ parent i by omega) here]
      have fits := hole.elsewhere k kPositive bound here (by omega)
      rw [child] at fits
      exact not_less_trans fits notLess

/-- A value that is too great is exchanged with the least one below it. -/
theorem Hole.down [IsStrictWeakOrder T less] (hole : Hole less at_ n i) {j : Nat}
    (positive : 0 < j) (inside : j < n) (child : parent j = i) (smaller : less (at_ j) (at_ i))
    (least : ∀ k, 0 < k → k < n → parent k = i → ¬ less (at_ k) (at_ j)) :
    Hole less (at_ ∘ Equiv.swap i j) n j ∧ FitsAbove less (at_ ∘ Equiv.swap i j) j := by
  have before := parent_lt positive
  constructor
  · constructor
    · intro k kPositive bound here notBelow
      have after := parent_lt kPositive
      by_cases atHole : k = i
      · subst atHole
        rw [exchanged_left, exchanged_of_ne at_ (show parent k ≠ k by omega) notBelow]
        exact hole.around kPositive j positive inside child
      · rw [exchanged_of_ne at_ atHole here]
        by_cases sibling : parent k = i
        · rw [sibling, exchanged_left]
          exact least k kPositive bound sibling
        · rw [exchanged_of_ne at_ sibling notBelow]
          exact hole.elsewhere k kPositive bound atHole sibling
    · intro _ k kPositive bound below
      have after := parent_lt kPositive
      rw [child, exchanged_left, exchanged_of_ne at_ (show k ≠ i by omega) (by omega)]
      have fits := hole.elsewhere k kPositive bound (by omega) (by omega)
      rwa [below] at fits
  · intro _
    rw [child, exchanged_left, exchanged_right]
    exact asymm_of less smaller

end Mintter.Foundation
