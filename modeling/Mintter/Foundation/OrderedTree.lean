import Mintter.Foundation.KeyedList

/-!
# Ordered trees

A search tree keeps its items in the order of their keys.  It is told how to compare two items at
each call, and it is only of use as long as its items are in this order: then it does what the
sorted list does (`OrderedTree.Lawful`).

A tree of a few items is one leaf, in which items are found by bisection.
-/

namespace Mintter.Foundation

/-- Trees with their operations; `delete` may not find its item. -/
structure OrderedTree (α : Type) where
  Tree : Type
  empty : Tree
  items : Tree → List α
  set : (α → α → Bool) → α → Tree → Tree
  delete : (α → α → Bool) → α → Tree → Option Tree

section Keys

variable {α κ : Type} [LinearOrder κ]

/-- Items are compared by their keys. -/
def byKey (key : α → κ) (item other : α) : Bool := decide (key item < key other)

/-- What is relied on: operations on a tree whose items are in order. -/
structure OrderedTree.Lawful (tree : OrderedTree α) (κ : Type) [LinearOrder κ] : Prop where
  empty : tree.items tree.empty = []
  set : ∀ (key : α → κ) t item, KeyedList.Sorted key (tree.items t) →
    tree.items (tree.set (byKey key) item t) = KeyedList.set key item (tree.items t)
  delete : ∀ (key : α → κ) t item, KeyedList.Sorted key (tree.items t) → item ∈ tree.items t →
    ∃ t', tree.delete (byKey key) item t = some t' ∧
      tree.items t' = KeyedList.delete key (key item) (tree.items t)

end Keys

/-! ## Bisection -/

section Bisection

variable {α : Type}

/-- The first place between two places that is above, if the items are in order. -/
def bisect (above : α → Bool) (items : List α) : Nat → Nat → Nat → Nat
  | 0, low, _ => low
  | fuel + 1, low, high =>
      if low < high then
        let middle := (low + high) / 2
        if items[middle]?.any above then bisect above items fuel low middle
        else bisect above items fuel (middle + 1) high
      else low

/-- The number of items that are not above. -/
def upperBound (above : α → Bool) (items : List α) : Nat :=
  bisect above items items.length 0 items.length

/-- The item before a place, if it is not smaller. -/
def foundAt (less : α → α → Bool) (item : α) (items : List α) : Option Nat :=
  match upperBound (less item) items with
  | 0 => none
  | before + 1 => if items[before]?.any (less · item) then none else some before

/-- Set an item in a leaf: replace the one with its key or insert it. -/
def leafSet (less : α → α → Bool) (item : α) (items : List α) : List α :=
  match foundAt less item items with
  | some i => items.set i item
  | none => items.insertIdx (upperBound (less item) items) item

/-- Delete an item from a leaf, if it is found. -/
def leafDelete (less : α → α → Bool) (item : α) (items : List α) : Option (List α) :=
  (foundAt less item items).map items.eraseIdx

/-- A tree that is one leaf. -/
def leafTree (α : Type) : OrderedTree α where
  Tree := List α
  empty := []
  items := id
  set := leafSet
  delete := leafDelete

variable {above : α → Bool} {items : List α}

/-- The places before `low` are not above, and those from `high` on are. -/
structure Between (above : α → Bool) (items : List α) (low high : Nat) : Prop where
  le : low ≤ high
  bound : high ≤ items.length
  before : ∀ i, i < low → ∀ item, items[i]? = some item → above item = false
  behind : ∀ i, high ≤ i → ∀ item, items[i]? = some item → above item = true

/-- Bisecting narrows down to the one bound. -/
theorem bisect_between (rising : items.Pairwise fun first second => above first → above second)
    {fuel low high : Nat} (enough : high - low ≤ fuel) (between : Between above items low high) :
    Between above items (bisect above items fuel low high)
      (bisect above items fuel low high) := by
  induction fuel generalizing low high with
  | zero =>
      have same : low = high := by
        have le := between.le
        omega
      subst same
      exact between
  | succ fuel induction =>
      rw [bisect]
      have le := between.le
      have bound := between.bound
      by_cases apart : low < high
      · have inside : (low + high) / 2 < items.length := by omega
        have found := List.getElem?_eq_getElem inside
        simp only [if_pos apart, found, Option.any_some]
        split_ifs with isAbove
        · apply induction (by omega)
          constructor
          · omega
          · omega
          · exact between.before
          · intro i behind item stored
            rcases Nat.eq_or_lt_of_le behind with rfl | later
            · rw [found, Option.some.injEq] at stored
              rwa [← stored]
            · rcases List.getElem?_eq_some_iff.mp stored with ⟨iInside, rfl⟩
              exact List.pairwise_iff_getElem.mp rising _ i inside iInside later isAbove
        · apply induction (by omega)
          constructor
          · omega
          · exact bound
          · intro i before item stored
            rcases Nat.eq_or_lt_of_le (Nat.lt_succ_iff.mp before) with rfl | earlier
            · rw [found, Option.some.injEq] at stored
              rw [← stored]
              exact eq_false_of_ne_true isAbove
            · rcases List.getElem?_eq_some_iff.mp stored with ⟨iInside, rfl⟩
              by_contra other
              exact isAbove (List.pairwise_iff_getElem.mp rising i _ iInside inside earlier
                (eq_true_of_ne_false other))
          · exact between.behind
      · have same : low = high := by omega
        subst same
        rw [if_neg apart]
        exact between

/-- The bound has the items that are above on its right and no others. -/
theorem upperBound_between
    (rising : items.Pairwise fun first second => above first → above second) :
    Between above items (upperBound above items) (upperBound above items) := by
  apply bisect_between rising (Nat.sub_le _ _)
  constructor
  · exact Nat.zero_le _
  · exact le_rfl
  · exact fun i before => absurd before (Nat.not_lt_zero i)
  · intro i behind item stored
    rw [List.getElem?_eq_none behind] at stored
    cases stored

end Bisection

/-! ## Leaves in order -/

section Leaves

variable {α κ : Type} [LinearOrder κ] {key : α → κ} {items : List α} {item : α}

theorem rising_of_sorted (sorted : KeyedList.Sorted key items) (item : α) :
    items.Pairwise fun first second => byKey key item first → byKey key item second := by
  apply sorted.imp
  intro first second less
  simp only [byKey, decide_eq_true_eq]
  exact fun above => above.trans less

/-- An item between the smaller and the greater ones. -/
theorem set_between {before after : List α} (smaller : ∀ other ∈ before, key other < key item)
    (greater : ∀ other ∈ after, key item < key other) :
    KeyedList.set key item (before ++ after) = before ++ item :: after := by
  induction before with
  | nil =>
      cases after with
      | nil => rfl
      | cons head rest =>
          rw [List.nil_append, KeyedList.set, if_pos (greater head (List.mem_cons_self ..))]
          rfl
  | cons head before induction =>
      have less := smaller head (List.mem_cons_self ..)
      rw [List.cons_append, KeyedList.set, if_neg less.not_gt, if_neg less.ne',
        induction fun other member => smaller other (List.mem_cons_of_mem _ member)]
      rfl

/-- An item in the place of the one with its key. -/
theorem set_instead {before after : List α} {old : α}
    (smaller : ∀ other ∈ before, key other < key item) (same : key old = key item) :
    KeyedList.set key item (before ++ old :: after) = before ++ item :: after := by
  induction before with
  | nil => rw [List.nil_append, KeyedList.set, if_neg same.not_gt, if_pos same.symm]; rfl
  | cons head before induction =>
      have less := smaller head (List.mem_cons_self ..)
      rw [List.cons_append, KeyedList.set, if_neg less.not_gt, if_neg less.ne',
        induction fun other member => smaller other (List.mem_cons_of_mem _ member)]
      rfl

/-- Where bisection ends among items in order: behind the item with the key, or between the
smaller and the greater ones. -/
theorem foundAt_cases (sorted : KeyedList.Sorted key items) (item : α) :
    (∃ before old after, items = before ++ old :: after ∧ key old = key item ∧
      (∀ other ∈ before, key other < key item) ∧ (∀ other ∈ after, key item < key other) ∧
      foundAt (byKey key) item items = some before.length) ∨
    (∃ before after, items = before ++ after ∧
      (∀ other ∈ before, key other < key item) ∧ (∀ other ∈ after, key item < key other) ∧
      foundAt (byKey key) item items = none ∧
      upperBound (byKey key item) items = before.length) := by
  have between := upperBound_between (rising_of_sorted sorted item)
  have length : (items.take (upperBound (byKey key item) items)).length =
      upperBound (byKey key item) items := by
    rw [List.length_take]
    exact min_eq_left between.bound
  have notAbove : ∀ other ∈ items.take (upperBound (byKey key item) items),
      key other ≤ key item := by
    intro other member
    rcases List.getElem?_of_mem member with ⟨i, stored⟩
    have early := (List.getElem?_eq_some_iff.mp stored).1
    rw [List.getElem?_take_of_lt (length ▸ early)] at stored
    have isFalse := between.before i (length ▸ early) other stored
    simpa [byKey] using isFalse
  have above : ∀ other ∈ items.drop (upperBound (byKey key item) items),
      key item < key other := by
    intro other member
    rcases List.getElem?_of_mem member with ⟨i, stored⟩
    rw [List.getElem?_drop] at stored
    have isTrue := between.behind _ (Nat.le_add_right _ i) other stored
    simpa [byKey] using isTrue
  have whole := (List.take_append_drop (upperBound (byKey key item) items) items).symm
  generalize items.take (upperBound (byKey key item) items) = before at *
  generalize items.drop (upperBound (byKey key item) items) = after at *
  rcases List.eq_nil_or_concat' before with rfl | ⟨earlier, last, rfl⟩
  · right
    exists [], after
    have zero : upperBound (byKey key item) items = 0 := length.symm
    constructor
    · exact whole
    · constructor
      · exact fun other member => absurd member List.not_mem_nil
      · constructor
        · exact above
        · constructor
          · rw [foundAt, zero]
          · exact zero
  · have lastLe := notAbove last (List.mem_append_right _ (List.mem_singleton_self last))
    have earlierLess : ∀ other ∈ earlier, key other < key last := by
      intro other member
      rw [whole] at sorted
      have front := (List.pairwise_append.mp sorted).1
      exact (List.pairwise_append.mp front).2.2 other member last (List.mem_singleton_self last)
    have count : upperBound (byKey key item) items = earlier.length + 1 := by
      rw [← length, List.length_append, List.length_singleton]
    have stored : items[earlier.length]? = some last := by
      rw [whole, List.append_assoc, List.getElem?_append_right le_rfl, Nat.sub_self]
      rfl
    have found : foundAt (byKey key) item items =
        if key last < key item then none else some earlier.length := by
      rw [foundAt, count]
      simp only [stored, Option.any_some, byKey, decide_eq_true_eq]
    by_cases less : key last < key item
    · right
      exists earlier ++ [last], after
      constructor
      · exact whole
      · constructor
        · intro other member
          rcases List.mem_append.mp member with early | isLast
          · exact (earlierLess other early).trans less
          · rwa [List.mem_singleton.mp isLast]
        · constructor
          · exact above
          · constructor
            · rw [found, if_pos less]
            · rw [count, List.length_append, List.length_singleton]
    · left
      have same : key last = key item := lastLe.antisymm (not_lt.mp less)
      exists earlier, last, after
      constructor
      · rw [whole, List.append_assoc]
        rfl
      · constructor
        · exact same
        · constructor
          · exact fun other member => same ▸ earlierLess other member
          · constructor
            · exact above
            · rw [found, if_neg less]

theorem insertIdx_between (before after : List α) (item : α) :
    (before ++ after).insertIdx before.length item = before ++ item :: after := by
  induction before with
  | nil => rfl
  | cons head before induction => exact congrArg (head :: ·) induction

/-- In a sorted leaf, setting is what it is for sorted lists. -/
theorem leafSet_eq (sorted : KeyedList.Sorted key items) (item : α) :
    leafSet (byKey key) item items = KeyedList.set key item items := by
  rw [leafSet]
  rcases foundAt_cases sorted item with
    ⟨before, old, after, whole, same, smaller, greater, found⟩ |
    ⟨before, after, whole, smaller, greater, found, count⟩
  · rw [found]
    change items.set before.length item = _
    rw [whole, set_instead smaller same, List.set_append_right _ _ le_rfl, Nat.sub_self]
    rfl
  · rw [found]
    change items.insertIdx (upperBound (byKey key item) items) item = _
    rw [count, whole, set_between smaller greater, insertIdx_between]

/-- In a sorted leaf, an item that is there is found and deleted. -/
theorem leafDelete_eq (sorted : KeyedList.Sorted key items) (member : item ∈ items) :
    leafDelete (byKey key) item items = some (KeyedList.delete key (key item) items) := by
  rw [leafDelete]
  rcases foundAt_cases sorted item with
    ⟨before, old, after, whole, same, smaller, greater, found⟩ |
    ⟨before, after, whole, smaller, greater, found, count⟩
  · have kept : ∀ other ∈ before ++ after, decide (key other ≠ key item) = true := by
      intro other inside
      rw [decide_eq_true_eq]
      rcases List.mem_append.mp inside with early | late
      · exact (smaller other early).ne
      · exact (greater other late).ne'
    rw [found, Option.map_some, whole, List.eraseIdx_append_of_length_le le_rfl, Nat.sub_self,
      List.eraseIdx_zero, List.tail_cons, KeyedList.delete, List.filter_append,
      List.filter_cons_of_neg (by simp [same]), ← List.filter_append,
      List.filter_eq_self.mpr kept]
  · rw [whole] at member
    rcases List.mem_append.mp member with early | late
    · exact absurd (smaller item early) (lt_irrefl _)
    · exact absurd (greater item late) (lt_irrefl _)

/-- A leaf is a tree that does what the sorted list does. -/
theorem leafTree_lawful (α κ : Type) [LinearOrder κ] : (leafTree α).Lawful κ where
  empty := rfl
  set _ _ item sorted := leafSet_eq sorted item
  delete _ _ _ sorted member := ⟨_, leafDelete_eq sorted member, rfl⟩

end Leaves

end Mintter.Foundation
