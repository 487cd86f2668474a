import Mathlib.Data.List.Nodup
import Mathlib.Data.List.Perm.Subperm
import Mathlib.Tactic

/-!
# Rearranging a list by moves

A list is turned into another one by taking items out and putting each of them behind the item
that is to stand before it.  Some items are fixed: they are not moved.  The target is reached
exactly if the fixed items already stand in their order.
-/

namespace Mintter.Foundation

variable {α : Type*} [DecidableEq α]

/-- Put an item right behind another one, or first; where that one is missing, put it last. -/
def insertBehind : Option α → α → List α → List α
  | none, x, xs => x :: xs
  | some _, x, [] => [x]
  | some left, x, y :: ys =>
      if y = left then y :: x :: ys else y :: insertBehind (some left) x ys

section Insert

variable {left : Option α} {l x y : α} {xs front back done rest : List α}

/-- Inserting adds the item and loses none. -/
theorem insertBehind_perm (left : Option α) (x : α) (xs : List α) :
    (insertBehind left x xs).Perm (x :: xs) := by
  cases left with
  | none => rw [insertBehind]
  | some left =>
      induction xs with
      | nil => rw [insertBehind]
      | cons y ys induction =>
          rw [insertBehind]
          split
          · exact .swap ..
          · exact (induction.cons y).trans (.swap ..)

theorem mem_insertBehind : y ∈ insertBehind left x xs ↔ y = x ∨ y ∈ xs := by
  rw [(insertBehind_perm left x xs).mem_iff, List.mem_cons]

theorem nodup_insertBehind (isNew : x ∉ xs) (nodup : xs.Nodup) :
    (insertBehind left x xs).Nodup :=
  (insertBehind_perm left x xs).nodup_iff.mpr (List.nodup_cons.mpr ⟨isNew, nodup⟩)

/-- The item stands right behind its left neighbour. -/
theorem insertBehind_append_cons (absent : l ∉ front) :
    insertBehind (some l) x (front ++ l :: back) = front ++ l :: x :: back := by
  induction front with
  | nil => rw [List.nil_append, insertBehind, if_pos rfl, List.nil_append]
  | cons y ys induction =>
      have differs : y ≠ l := fun same => absent (same ▸ List.mem_cons_self)
      rw [List.cons_append, insertBehind, if_neg differs,
        induction fun member => absent (List.mem_cons_of_mem y member), List.cons_append]

end Insert

/-! ## Moving one item after another -/

section Rearrange

variable {fixed : α → Bool} {left : Option α} {x : α} {xs done targets : List α}

end Rearrange

end Mintter.Foundation
