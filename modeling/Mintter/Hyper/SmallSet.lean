import Mathlib.Tactic
import Mintter.Foundation.Outcome

/-!
# Sets kept in slices

A small set keeps its elements in a slice.  Deleting an element moves the last one to its
place and shortens the slice, but the cell of the last one keeps its value.  So a loop over
the slice that deletes elements on its way still comes to every element that was there when
it began: `pruneLoop_spec`.
-/

namespace Mintter.Hyper

open Mintter.Foundation

variable {α : Type} [DecidableEq α]

/-- The cells behind a slice, of which the first ones are in the set. -/
structure SmallSet (α : Type) where
  cells : List α
  len : Nat
  inside : len ≤ cells.length

namespace SmallSet

variable {set : SmallSet α} {v w : α}

/-- A set without elements. -/
def empty : SmallSet α := ⟨[], 0, le_rfl⟩

/-- The elements; the cells behind them are not part of the slice. -/
def slice (set : SmallSet α) : List α := set.cells.take set.len

/-- Whether the set has an element. -/
def has (set : SmallSet α) (v : α) : Bool := v ∈ set.slice

/-- Appending reuses the cells or copies the slice; no loop sees the difference. -/
def put (set : SmallSet α) (v : α) : SmallSet α :=
  if v ∈ set.slice then set
  else ⟨set.slice ++ [v], (set.slice ++ [v]).length, le_rfl⟩

/-- The cell that is written over stays, and the last one is left out. -/
theorem inside_delete (set : SmallSet α) (v last : α) :
    set.len - 1 ≤ (set.cells.set (set.slice.idxOf v) last).length := by
  rw [List.length_set]
  exact (Nat.sub_le ..).trans set.inside

/-- Delete an element without preserving the order. -/
def delete (set : SmallSet α) (v : α) : SmallSet α :=
  match set.slice.getLast? with
  | none => set
  | some last =>
      if v ∈ set.slice then
        { cells := set.cells.set (set.slice.idxOf v) last
          len := set.len - 1
          inside := inside_delete set v last }
      else set

/-- Go over the cells that were in the slice at the start, and delete from the set. -/
def pruneLoop (test : α → Outcome Bool) : Nat → Nat → SmallSet α → Outcome (SmallSet α)
  | 0, _, set => pure set
  | more + 1, i, set =>
      match set.cells[i]? with
      | none => panicWith "index out of range"
      | some head => do
          if ← test head then pruneLoop test more (i + 1) (set.delete head)
          else pruneLoop test more (i + 1) set

/-- Delete the elements that the test finds, while ranging over the slice. -/
def prune (test : α → Outcome Bool) (set : SmallSet α) : Outcome (SmallSet α) :=
  pruneLoop test set.len 0 set

/-! ## One call -/

omit [DecidableEq α] in
@[simp]
theorem slice_empty : (empty : SmallSet α).slice = [] := rfl

omit [DecidableEq α] in
theorem length_slice (set : SmallSet α) : set.slice.length = set.len := by
  rw [slice, List.length_take, min_eq_left set.inside]

theorem slice_put (set : SmallSet α) (v : α) :
    (set.put v).slice = if v ∈ set.slice then set.slice else set.slice ++ [v] := by
  rw [put]
  split
  · rfl
  · exact List.take_length

theorem mem_put : w ∈ (set.put v).slice ↔ w ∈ set.slice ∨ w = v := by
  rw [slice_put]
  by_cases present : v ∈ set.slice
  · rw [if_pos present]
    exact ⟨.inl, fun member => member.elim id fun same => same ▸ present⟩
  · rw [if_neg present, List.mem_append, List.mem_singleton]

theorem nodup_put (nodup : set.slice.Nodup) (v : α) : (set.put v).slice.Nodup := by
  rw [slice_put]
  split
  · exact nodup
  · next absent => exact List.concat_eq_append ▸ nodup.concat absent

/-- Writing the last element over another one and dropping the last cell erases that one. -/
theorem set_dropLast_perm {items : List α} {last : α} (nodup : items.Nodup) (member : v ∈ items)
    (isLast : items.getLast? = some last) :
    ((items.set (items.idxOf v) last).dropLast).Perm (items.erase v) := by
  rcases List.getLast?_eq_some_iff.mp isLast with ⟨front, rfl⟩
  have fresh : last ∉ front := by
    have apart := (List.nodup_append.mp nodup).2.2
    exact fun inFront => apart last inFront last List.mem_cons_self rfl
  by_cases inFront : v ∈ front
  · rcases List.eq_append_cons_of_mem inFront with ⟨before, after, rfl, notBefore⟩
    have position : (before ++ v :: after ++ [last]).idxOf v = before.length := by
      rw [List.append_assoc, List.idxOf_append_of_notMem notBefore]
      simp
    rw [position, List.append_assoc, List.erase_append_right _ notBefore]
    have written : (before ++ (v :: after ++ [last])).set before.length last =
        (before ++ last :: after) ++ [last] := by simp
    rw [written, List.dropLast_concat]
    simp only [List.cons_append, List.erase_cons_head]
    exact (List.perm_append_singleton last after).symm.append_left before
  · obtain rfl : v = last := by simpa [inFront] using member
    have position : (front ++ [v]).idxOf v = front.length := by
      rw [List.idxOf_append_of_notMem inFront]
      simp
    rw [position, List.erase_append_right _ inFront]
    simp

omit [DecidableEq α] in
theorem exists_getLast? {items : List α} (member : v ∈ items) :
    ∃ last, items.getLast? = some last :=
  ⟨_, List.getLast?_eq_some_getLast (List.ne_nil_of_mem member)⟩

theorem delete_of_notMem (absent : v ∉ set.slice) : set.delete v = set := by
  rw [delete]
  split
  · rfl
  · rw [if_neg absent]

/-- Deleting an element writes one cell, the first one that has it. -/
theorem delete_of_mem {last : α} (member : v ∈ set.slice)
    (isLast : set.slice.getLast? = some last) :
    (set.delete v).cells = set.cells.set (set.slice.idxOf v) last ∧
      (set.delete v).len = set.len - 1 := by
  rw [delete]
  split
  · next none => simp [none] at isLast
  · next found =>
    cases isLast.symm.trans found
    rw [if_pos member]
    exact ⟨rfl, rfl⟩

theorem slice_delete_perm (nodup : set.slice.Nodup) (v : α) :
    (set.delete v).slice.Perm (set.slice.erase v) := by
  by_cases member : v ∈ set.slice
  · rcases exists_getLast? member with ⟨last, isLast⟩
    rcases delete_of_mem member isLast with ⟨cells_eq, len_eq⟩
    have shape : (set.delete v).slice = (set.slice.set (set.slice.idxOf v) last).dropLast := by
      rw [slice, cells_eq, len_eq, List.dropLast_eq_take, List.length_set, length_slice]
      conv_rhs => rw [slice, ← List.take_set, List.take_take]
      rw [min_eq_left (Nat.sub_le _ _)]
      rfl
    rw [shape]
    exact set_dropLast_perm nodup member isLast
  · rw [delete_of_notMem member, List.erase_of_not_mem member]

theorem mem_delete (nodup : set.slice.Nodup) :
    w ∈ (set.delete v).slice ↔ w ≠ v ∧ w ∈ set.slice :=
  (slice_delete_perm nodup v).mem_iff.trans nodup.mem_erase_iff

theorem nodup_delete (nodup : set.slice.Nodup) (v : α) : (set.delete v).slice.Nodup :=
  (slice_delete_perm nodup v).nodup_iff.mpr (nodup.erase v)

/-! ## A loop that deletes -/

/-- Deleting an element that some cell has writes no later cell. -/
theorem cells_delete {i : Nat} (nodup : set.slice.Nodup) (here : set.cells[i]? = some v)
    {k : Nat} (later : i < k) : (set.delete v).cells[k]? = set.cells[k]? := by
  by_cases member : v ∈ set.slice
  · rcases exists_getLast? member with ⟨last, isLast⟩
    rw [(delete_of_mem member isLast).1, List.getElem?_set_ne]
    have short := List.idxOf_lt_length_of_mem member
    rw [length_slice] at short
    rcases lt_or_ge i set.len with inside | outside
    · have isHere : set.slice[i]? = some v := by
        rw [slice, List.getElem?_take_of_lt inside, here]
      rcases List.getElem?_eq_some_iff.mp isHere with ⟨bound, isV⟩
      have position := nodup.idxOf_getElem i bound
      rw [isV] at position
      omega
    · omega
  · rw [delete_of_notMem member]

variable {keep : α → Bool} {items : List α}

/-- After some cells the set lacks those of them that the test finds. -/
theorem pruneLoop_spec (more i : Nat) (count : items.length = i + more)
    (distinct : items.Nodup) (nodup : set.slice.Nodup)
    (ahead : ∀ k, i ≤ k → k < items.length → set.cells[k]? = items[k]?)
    (mem_iff : ∀ item, item ∈ set.slice ↔
      item ∈ items ∧ (item ∈ items.take i → keep item = true)) :
    ∃ set', (∀ test, (∀ item ∈ items, test item = .ok (!keep item)) →
        pruneLoop test more i set = .ok set') ∧ set'.slice.Nodup ∧
      ∀ item, item ∈ set'.slice ↔ item ∈ items ∧ keep item = true := by
  induction more generalizing i set with
  | zero =>
      refine ⟨set, fun _ _ => rfl, nodup, fun item => ?_⟩
      rw [mem_iff, List.take_of_length_le (by omega)]
      exact and_congr_right fun member => ⟨fun kept => kept member, fun kept _ => kept⟩
  | succ more induction =>
      have inRange : i < items.length := by omega
      have isHead : set.cells[i]? = some items[i] := by
        rw [ahead i le_rfl inRange, List.getElem?_eq_getElem inRange]
      have isItem : items[i] ∈ items := List.getElem_mem inRange
      have taken : ∀ item, item ∈ items.take (i + 1) ↔ item ∈ items.take i ∨ item = items[i] := by
        intro item
        rw [List.take_succ_eq_append_getElem inRange, List.mem_append, List.mem_singleton]
      have fresh : items[i] ∉ items.take i := by
        rw [← List.take_append_drop i items, List.drop_eq_getElem_cons inRange] at distinct
        have apart := (List.nodup_append.mp distinct).2.2
        exact fun seen => apart _ seen _ List.mem_cons_self rfl
      cases kept : keep items[i] with
      | true =>
          have unchanged : ∀ item, item ∈ set.slice ↔
              item ∈ items ∧ (item ∈ items.take (i + 1) → keep item = true) := by
            intro item
            rw [mem_iff, taken]
            refine and_congr_right fun _ => ⟨fun before => ?_, fun before seen => before (.inl seen)⟩
            rintro (seen | rfl)
            · exact before seen
            · exact kept
          rcases induction (i + 1) (by omega) nodup
            (fun k after short => ahead k (by omega) short) unchanged with ⟨set', rest, result⟩
          refine ⟨set', fun test decides => ?_, result⟩
          simp only [pruneLoop, isHead, decides _ isItem, ok_bind, kept]
          exact rest test decides
      | false =>
          have shrunk : ∀ item, item ∈ (set.delete items[i]).slice ↔
              item ∈ items ∧ (item ∈ items.take (i + 1) → keep item = true) := by
            intro item
            rw [mem_delete nodup, mem_iff, taken]
            by_cases same : item = items[i]
            · subst same
              simp [kept]
            · simp [same]
          rcases induction (i + 1) (by omega) (nodup_delete nodup _)
            (fun k after short => (cells_delete nodup isHead (by omega)).trans
              (ahead k (by omega) short)) shrunk with ⟨set', rest, result⟩
          refine ⟨set', fun test decides => ?_, result⟩
          simp only [pruneLoop, isHead, decides _ isItem, ok_bind, kept]
          exact rest test decides

/-- Deleting while ranging over the slice leaves what the test does not find. -/
theorem prune_spec (nodup : set.slice.Nodup) (keep : α → Bool) :
    ∃ set', (∀ test, (∀ item ∈ set.slice, test item = .ok (!keep item)) →
        set.prune test = .ok set') ∧ set'.slice.Nodup ∧
      ∀ item, item ∈ set'.slice ↔ item ∈ set.slice ∧ keep item = true := by
  apply pruneLoop_spec set.len 0 (by simp [length_slice]) nodup nodup
  · intro k _ short
    rw [length_slice] at short
    rw [slice, List.getElem?_take_of_lt short]
  · simp

omit [DecidableEq α] in
/-- With enough fuel all the calls have come to an end. -/
theorem exists_enough {call : Nat → α → Outcome Bool}
    (decides : ∀ item ∈ items, Converges (fun fuel => call fuel item) (.ok (!keep item))) :
    ∃ enough, ∀ fuel, enough ≤ fuel → ∀ item ∈ items, call fuel item = .ok (!keep item) := by
  induction items with
  | nil => exact ⟨0, by simp⟩
  | cons item items induction =>
      rcases decides item List.mem_cons_self with ⟨enough, first⟩
      rcases induction fun other member => decides other (List.mem_cons_of_mem _ member) with
        ⟨enough', rest⟩
      refine ⟨max enough enough', fun fuel large other member => ?_⟩
      rcases List.mem_cons.mp member with rfl | later
      · exact first fuel (le_trans (le_max_left _ _) large)
      · exact rest fuel (le_trans (le_max_right _ _) large) other later

theorem prune_converges {call : Nat → α → Outcome Bool} (nodup : set.slice.Nodup)
    (keep : α → Bool)
    (decides : ∀ item ∈ set.slice, Converges (fun fuel => call fuel item) (.ok (!keep item))) :
    ∃ set', Converges (fun fuel => set.prune (call fuel)) (.ok set') ∧ set'.slice.Nodup ∧
      ∀ item, item ∈ set'.slice ↔ item ∈ set.slice ∧ keep item = true := by
  rcases prune_spec nodup keep with ⟨set', pruned, result⟩
  rcases exists_enough decides with ⟨enough, decides⟩
  exact ⟨set', ⟨enough, fun fuel large => pruned _ (decides fuel large)⟩, result⟩

end SmallSet

end Mintter.Hyper
