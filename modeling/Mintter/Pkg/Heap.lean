import Mintter.Foundation.HeapOrder
import Mathlib.Data.Multiset.AddSub
import Mathlib.Data.List.Perm.Basic

/-!
# The heap package

A heap keeps its elements in a slice, with the children of index `i` at `2i + 1` and `2i + 2`.
`OnSwap` is there so that elements can record at which index they are, which `Remove` and `Fix`
need to know; no operation calls it.
-/

namespace Mintter.Pkg

open Foundation

/--
The elements, and what has happened: the exchanges of two elements and the calls of `OnSwap`, each
with its two indexes.
-/
structure Heap (T : Type) where
  data : List T
  lessFunc : T → T → Bool
  onSwap : Option (List T → Nat → Nat → List T)
  exchanges : List (Nat × Nat)
  calls : List (Nat × Nat)

variable {T : Type} [Inhabited T]

namespace Heap

/-- An empty heap. -/
def new (less : T → T → Bool) (onSwap : Option (List T → Nat → Nat → List T)) : Heap T where
  data := []
  lessFunc := less
  onSwap := onSwap
  exchanges := []
  calls := []

/-- The number of elements. -/
def len (h : Heap T) : Nat := h.data.length

/-- The element at a place. -/
def get (h : Heap T) (i : Nat) : T := h.data.getD i default

/-- Compare the elements at two places. -/
def less (h : Heap T) (i j : Nat) : Bool := h.lessFunc (h.get i) (h.get j)

/-- Exchange the elements at two places. -/
def swap (h : Heap T) (i j : Nat) : Heap T :=
  { h with
    data := (h.data.set i (h.get j)).set j (h.get i)
    exchanges := if i = j then h.exchanges else h.exchanges ++ [(i, j)] }

/-- The division rounds towards zero, so the first index is its own parent. -/
def up (h : Heap T) (j : Nat) : Heap T :=
  let i := (j - 1) / 2
  if i = j ∨ h.less j i = false then h else (h.swap i j).up i
termination_by j
decreasing_by omega

/-- The loop of `down`, with the index where it ends. -/
def downLoop (h : Heap T) (i n : Nat) : Heap T × Nat :=
  let j1 := 2 * i + 1
  if n ≤ j1 then (h, i)
  else
    let j := if j1 + 1 < n ∧ h.less (j1 + 1) j1 then j1 + 1 else j1
    if h.less j i = false then (h, i) else (h.swap i j).downLoop j n
termination_by n - i
decreasing_by
  split
  · omega
  · omega

/-- Move an element down, and say whether it moved. -/
def down (h : Heap T) (i0 n : Nat) : Heap T × Bool :=
  let (h, i) := h.downLoop i0 n
  (h, decide (i0 < i))

/-- Take the last element off. -/
def popLast (h : Heap T) : Option (Heap T × T) :=
  if h.len = 0 then none
  else some ({ h with data := h.data.take (h.len - 1) }, h.get (h.len - 1))

/-- Append an element and move it up. -/
def push (h : Heap T) (x : T) : Heap T :=
  let h := { h with data := h.data ++ [x] }
  h.up (h.len - 1)

/-- The heap panics when it is empty. -/
def pop (h : Heap T) : Option (Heap T × T) :=
  if h.len = 0 then none
  else
    let n := h.len - 1
    ((h.swap 0 n).down 0 n).1.popLast

/-- Move the element at an index down, or else up. -/
def settle (h : Heap T) (i n : Nat) : Heap T :=
  let (h, moved) := h.down i n
  if moved then h else h.up i

/-- The heap panics when there is no such element. -/
def remove (h : Heap T) (i : Nat) : Option (Heap T × T) :=
  if h.len ≤ i then none
  else
    let n := h.len - 1
    if n ≠ i then ((h.swap i n).settle i n).popLast
    else h.popLast

/-- An index behind the elements panics when it is compared with its parent. -/
def fix (h : Heap T) (i : Nat) : Option (Heap T) :=
  if h.len ≤ i ∧ i ≠ 0 then none
  else some (h.settle i h.len)

/-! ## Exchanging elements -/

/-- Inside the heap, an element is read from the data. -/
theorem get_eq_of_lt (h : Heap T) {i : Nat} (inside : i < h.len) : h.get i = h.data[i] := by
  rw [get, List.getD_eq_getElem?_getD, List.getElem?_eq_getElem inside, Option.getD_some]

theorem len_swap (h : Heap T) (i j : Nat) : (h.swap i j).len = h.len := by
  simp [len, swap]

theorem getD_set_set (data : List T) {i j : Nat} (insideI : i < data.length)
    (insideJ : j < data.length) (x y : T) (k : Nat) :
    ((data.set i y).set j x).getD k default =
      if k = j then x else if k = i then y else data.getD k default := by
  rw [List.getD_eq_getElem?_getD, List.getElem?_set, List.length_set]
  by_cases right : k = j
  · subst right
    rw [if_pos rfl, if_pos insideJ, if_pos rfl, Option.getD_some]
  · rw [if_neg (Ne.symm right), if_neg right, List.getElem?_set]
    by_cases left : k = i
    · subst left
      rw [if_pos rfl, if_pos insideI, if_pos rfl, Option.getD_some]
    · rw [if_neg (Ne.symm left), if_neg left, List.getD_eq_getElem?_getD]

/-- After a swap the two elements are exchanged. -/
theorem get_swap (h : Heap T) {i j : Nat} (insideI : i < h.len) (insideJ : j < h.len) :
    (h.swap i j).get = h.get ∘ Equiv.swap i j := by
  funext k
  rw [Function.comp_apply, Equiv.swap_apply_def]
  change ((h.data.set i (h.get j)).set j (h.get i)).getD k default = _
  rw [getD_set_set h.data insideI insideJ]
  by_cases left : k = i
  · subst left
    rw [if_pos rfl, if_pos rfl]
    split_ifs with same
    · rw [same]
    · rfl
  · rw [if_neg left, if_neg left]
    split_ifs
    · rfl
    · rfl

/-- The settings stay, and `OnSwap` is not called. -/
structure Keeps (h h' : Heap T) : Prop where
  lessFunc : h'.lessFunc = h.lessFunc
  onSwap : h'.onSwap = h.onSwap
  calls : h'.calls = h.calls

/-- The elements of the first `n` indexes are rearranged by exchanges. -/
structure Rearranged (n : Nat) (h h' : Heap T) : Prop extends Keeps h h' where
  perm : h'.data.Perm h.data
  behind : ∀ k, n ≤ k → h'.get k = h.get k
  exchanges : h.exchanges.length ≤ h'.exchanges.length

theorem Rearranged.refl (n : Nat) (h : Heap T) : Rearranged n h h where
  lessFunc := rfl
  onSwap := rfl
  calls := rfl
  perm := List.Perm.refl _
  behind _ _ := rfl
  exchanges := le_rfl

omit [Inhabited T] in
theorem Keeps.trans {h h' h'' : Heap T} (first : Keeps h h') (second : Keeps h' h'') :
    Keeps h h'' where
  lessFunc := second.lessFunc.trans first.lessFunc
  onSwap := second.onSwap.trans first.onSwap
  calls := second.calls.trans first.calls

/-- Two rearrangements make one. -/
theorem Rearranged.trans {n : Nat} {h h' h'' : Heap T} (first : Rearranged n h h')
    (second : Rearranged n h' h'') : Rearranged n h h'' where
  toKeeps := first.toKeeps.trans second.toKeeps
  perm := second.perm.trans first.perm
  behind k le := (second.behind k le).trans (first.behind k le)
  exchanges := first.exchanges.trans second.exchanges

theorem Rearranged.len_eq {n : Nat} {h h' : Heap T} (moved : Rearranged n h h') :
    h'.len = h.len :=
  moved.perm.length_eq

/-- Swapping two places inside is a rearrangement. -/
theorem rearranged_swap (h : Heap T) {n i j : Nat} (insideI : i < n) (insideJ : j < n)
    (bound : n ≤ h.len) : Rearranged n h (h.swap i j) where
  lessFunc := rfl
  onSwap := rfl
  calls := rfl
  perm := by
    rw [swap, get_eq_of_lt h (by omega), get_eq_of_lt h (by omega)]
    exact List.set_set_perm _ _
  behind k le := by
    rw [get_swap h (by omega) (by omega), Function.comp_apply,
      Equiv.swap_apply_of_ne_of_ne (by omega) (by omega)]
  exchanges := by
    rw [swap]
    split
    · exact le_rfl
    · simp

theorem exchanges_swap_ne (h : Heap T) {i j : Nat} (differ : i ≠ j) :
    (h.swap i j).exchanges.length = h.exchanges.length + 1 := by
  simp [swap, differ]

/-! ## Moving up and down -/

/-- The comparison of the heap as a relation. -/
abbrev Less (h : Heap T) : T → T → Prop := fun x y => h.lessFunc x y = true

/-- Where the loop of `up` stops, the element fits above. -/
theorem fitsAbove_iff (h : Heap T) (j : Nat) :
    FitsAbove h.Less h.get j ↔ (j - 1) / 2 = j ∨ h.less j ((j - 1) / 2) = false := by
  rw [FitsAbove, parent, less]
  simp only [Bool.not_eq_true]
  constructor
  · intro fits
    by_cases first : j = 0
    · exact Or.inl (by omega)
    · exact Or.inr (fits (Nat.pos_of_ne_zero first))
  · rintro (first | fits) positive
    · omega
    · exact fits

/-- Moving an element up closes the hole. -/
theorem up_spec {n j : Nat} (h : Heap T) [order : IsStrictWeakOrder T h.Less] (bound : n ≤ h.len)
    (inside : j < n) (hole : Hole h.Less h.get n j) (below : FitsBelow h.Less h.get n j) :
    Rearranged n h (h.up j) ∧ HeapOrdered h.Less (h.up j).get n ∧
      (FitsAbove h.Less h.get j → h.up j = h) ∧
      (¬ FitsAbove h.Less h.get j → h.exchanges.length < (h.up j).exchanges.length) := by
  induction j using Nat.strongRecOn generalizing h with
  | ind j induction =>
      rw [up]
      by_cases stop : FitsAbove h.Less h.get j
      · simp only [if_pos ((h.fitsAbove_iff j).mp stop)]
        exact ⟨Rearranged.refl n h, hole.ordered stop below, fun _ => trivial,
          fun moves => absurd stop moves⟩
      · simp only [if_neg (mt (h.fitsAbove_iff j).mpr stop)]
        have positive : 0 < j := by
          by_contra first
          exact stop fun positive => absurd positive first
        have before := parent_lt positive
        have smaller : h.Less (h.get j) (h.get (parent j)) := by
          by_contra fits
          exact stop fun _ => fits
        have next := hole.up positive inside smaller
        rw [← h.get_swap (show parent j < h.len by omega) (show j < h.len by omega)] at next
        have : IsStrictWeakOrder T (h.swap (parent j) j).Less := order
        have rest := induction (parent j) before (h.swap (parent j) j)
          (by rw [len_swap]; exact bound) (by omega) next.1 next.2
        have swapped := h.rearranged_swap (show parent j < n by omega) inside bound
        have longer := h.exchanges_swap_ne (show parent j ≠ j by omega)
        have final := rest.1.exchanges
        constructor
        · exact swapped.trans rest.1
        · exact ⟨rest.2.1, fun fits => absurd fits stop, fun _ => by rw [parent] at *; omega⟩

/-- The smaller one of the elements below an index. -/
theorem least_child (h : Heap T) [IsStrictWeakOrder T h.Less] {i n j : Nat}
    (child : 2 * i + 1 < n)
    (isLeast : (if 2 * i + 1 + 1 < n ∧ h.less (2 * i + 1 + 1) (2 * i + 1) then 2 * i + 1 + 1
      else 2 * i + 1) = j) :
    0 < j ∧ j < n ∧ parent j = i ∧
      ∀ k, 0 < k → k < n → parent k = i → ¬ h.Less (h.get k) (h.get j) := by
  have children : ∀ k, 0 < k → parent k = i → k = 2 * i + 1 ∨ k = 2 * i + 2 :=
    fun k positive below => (parent_eq_iff positive).mp below
  split_ifs at isLeast with right
  · subst isLeast
    constructor
    · omega
    · constructor
      · exact right.1
      · constructor
        · exact (parent_eq_iff (by omega)).mpr (Or.inr rfl)
        · intro k positive bound below
          rcases children k positive below with rfl | rfl
          · exact asymm_of h.Less right.2
          · exact irrefl_of h.Less _
  · subst isLeast
    constructor
    · omega
    · constructor
      · exact child
      · constructor
        · exact (parent_eq_iff (by omega)).mpr (Or.inl rfl)
        · intro k positive bound below
          rcases children k positive below with rfl | rfl
          · exact irrefl_of h.Less _
          · intro smaller
            exact right ⟨bound, smaller⟩

/-- Moving an element down closes the hole below, and moves nothing if the element fits. -/
theorem downLoop_spec {n i : Nat} (h : Heap T) [order : IsStrictWeakOrder T h.Less]
    (bound : n ≤ h.len) (hole : Hole h.Less h.get n i) :
    Rearranged n h (h.downLoop i n).1 ∧ i ≤ (h.downLoop i n).2 ∧
      (FitsBelow h.Less h.get n i → h.downLoop i n = (h, i)) ∧
      (¬ FitsBelow h.Less h.get n i →
        i < (h.downLoop i n).2 ∧ HeapOrdered h.Less (h.downLoop i n).1.get n ∧
          h.exchanges.length < (h.downLoop i n).1.exchanges.length) := by
  induction steps : n - i using Nat.strongRecOn generalizing h i with
  | ind steps induction =>
      rw [downLoop]
      by_cases leaf : n ≤ 2 * i + 1
      · have fits : FitsBelow h.Less h.get n i := by
          intro k positive inside below
          have places := (parent_eq_iff positive).mp below
          omega
        simp only [if_pos leaf]
        exact ⟨Rearranged.refl n h, le_rfl, fun _ => trivial, fun not => absurd fits not⟩
      · simp only [if_neg leaf]
        generalize isLeast : (if 2 * i + 1 + 1 < n ∧ h.less (2 * i + 1 + 1) (2 * i + 1) then
          2 * i + 1 + 1 else 2 * i + 1) = j
        rcases h.least_child (by omega) isLeast with ⟨positive, inside, child, least⟩
        have before := parent_lt positive
        by_cases stop : h.less j i = false
        · have fits : FitsBelow h.Less h.get n i := by
            intro k kPositive kInside below
            exact not_less_trans (least k kPositive kInside below)
              (show ¬ h.Less (h.get j) (h.get i) from ne_true_of_eq_false stop)
          simp only [if_pos stop]
          exact ⟨Rearranged.refl n h, le_rfl, fun _ => trivial, fun not => absurd fits not⟩
        · have smaller : h.Less (h.get j) (h.get i) := eq_true_of_ne_false stop
          have notFits : ¬ FitsBelow h.Less h.get n i :=
            fun fits => fits j positive inside child smaller
          have next := hole.down positive inside child smaller least
          rw [← h.get_swap (show i < h.len by omega) (show j < h.len by omega)] at next
          have : IsStrictWeakOrder T (h.swap i j).Less := order
          have rest := induction (n - j) (by omega) (h.swap i j)
            (by rw [len_swap]; exact bound) next.1 rfl
          have swapped := h.rearranged_swap (show i < n by omega) inside bound
          have longer := h.exchanges_swap_ne (show i ≠ j by omega)
          simp only [if_neg stop]
          constructor
          · exact swapped.trans rest.1
          · constructor
            · omega
            · constructor
              · exact fun fits => absurd fits notFits
              · intro _
                by_cases settled : FitsBelow h.Less (h.swap i j).get n j
                · rw [rest.2.2.1 settled]
                  exact ⟨by omega, next.1.ordered next.2 settled, longer ▸ Nat.lt_succ_self _⟩
                · have moved := rest.2.2.2 settled
                  exact ⟨by omega, moved.2.1, by omega⟩

/-- Moving an element down or else up closes the hole. -/
theorem settle_spec {n i : Nat} (h : Heap T) [order : IsStrictWeakOrder T h.Less]
    (bound : n ≤ h.len) (inside : i < n) (hole : Hole h.Less h.get n i) :
    Rearranged n h (h.settle i n) ∧ HeapOrdered h.Less (h.settle i n).get n ∧
      (FitsAbove h.Less h.get i ∧ FitsBelow h.Less h.get n i → h.settle i n = h) ∧
      (¬ (FitsAbove h.Less h.get i ∧ FitsBelow h.Less h.get n i) →
        h.exchanges.length < (h.settle i n).exchanges.length) := by
  have downwards := h.downLoop_spec bound hole
  by_cases below : FitsBelow h.Less h.get n i
  · have stays : h.settle i n = h.up i := by
      rw [settle, down, downwards.2.2.1 below]
      simp
    have upwards := h.up_spec bound inside hole below
    rw [stays]
    exact ⟨upwards.1, upwards.2.1, fun fits => upwards.2.2.1 fits.1,
      fun moves => upwards.2.2.2 fun above => moves ⟨above, below⟩⟩
  · have moved := downwards.2.2.2 below
    have goes : h.settle i n = (h.downLoop i n).1 := by
      rw [settle, down]
      simp [moved.1]
    rw [goes]
    exact ⟨downwards.1, moved.2.1, fun fits => absurd fits.2 below, fun _ => moved.2.2⟩

/-! ## The operations -/

/-- One more element at the end. -/
def appended (h : Heap T) (x : T) : Heap T := { h with data := h.data ++ [x] }

theorem get_appended (h : Heap T) (x : T) {k : Nat} (inside : k < h.len) :
    (h.appended x).get k = h.get k := by
  rw [get, appended, get, List.getD_eq_getElem?_getD, List.getElem?_append_left inside,
    List.getD_eq_getElem?_getD]

/-- A push keeps the order, and exchanges nothing if the element fits at the end. -/
theorem push_spec (h : Heap T) [order : IsStrictWeakOrder T h.Less]
    (ordered : HeapOrdered h.Less h.get h.len) (x : T) :
    Rearranged (h.len + 1) (h.appended x) (h.push x) ∧
      HeapOrdered h.Less (h.push x).get (h.len + 1) ∧
      (FitsAbove h.Less (h.appended x).get h.len → h.push x = h.appended x) ∧
      (¬ FitsAbove h.Less (h.appended x).get h.len →
        h.exchanges.length < (h.push x).exchanges.length) := by
  have hole : Hole h.Less (h.appended x).get (h.len + 1) h.len := by
    constructor
    · intro k positive inside here below
      have before := parent_lt positive
      rw [h.get_appended x (by omega), h.get_appended x (by omega)]
      exact ordered k positive (by omega)
    · intro _ k positive inside below
      have before := parent_lt positive
      omega
  have below : FitsBelow h.Less (h.appended x).get (h.len + 1) h.len := by
    intro k positive inside below
    have before := parent_lt positive
    omega
  have length : (h.appended x).len = h.len + 1 := by simp [len, appended]
  have pushed : h.push x = (h.appended x).up h.len := by
    rw [push]
    change (h.appended x).up ((h.appended x).len - 1) = _
    rw [length]
    rfl
  have : IsStrictWeakOrder T (h.appended x).Less := order
  rw [pushed]
  exact (h.appended x).up_spec length.ge (Nat.lt_succ_self h.len) hole below

/-- The heap without its last element. -/
def shortened (h : Heap T) : Heap T := { h with data := h.data.take (h.len - 1) }

/-- The last element is taken from the data. -/
theorem popLast_eq (h : Heap T) (positive : 0 < h.len) :
    h.popLast = some (h.shortened, h.get (h.len - 1)) := by
  rw [popLast, if_neg (by omega)]
  rfl

/-- Without its last element, a heap has all others. -/
theorem perm_shortened (h : Heap T) (positive : 0 < h.len) :
    (h.get (h.len - 1) :: h.shortened.data).Perm h.data := by
  have inside : h.len - 1 < h.data.length := by
    change h.len - 1 < h.len
    omega
  have whole : h.data = h.data.take (h.len - 1) ++ [h.get (h.len - 1)] := by
    conv_lhs => rw [← List.take_append_drop (h.len - 1) h.data]
    have behind : h.data.length ≤ h.len - 1 + 1 := by
      change h.len ≤ h.len - 1 + 1
      omega
    rw [List.drop_eq_getElem_cons inside, get_eq_of_lt h (by omega),
      List.drop_eq_nil_of_le behind]
    rfl
  conv_rhs => rw [whole]
  exact (List.perm_append_singleton _ _).symm

theorem get_shortened (h : Heap T) {k : Nat} (inside : k < h.len - 1) :
    h.shortened.get k = h.get k := by
  rw [get, shortened, get, List.getD_eq_getElem?_getD, List.getElem?_take_of_lt inside,
    List.getD_eq_getElem?_getD]

theorem shortened_ordered (h : Heap T) (ordered : HeapOrdered h.Less h.get (h.len - 1)) :
    HeapOrdered h.Less h.shortened.get h.shortened.len := by
  have length : h.shortened.len = h.len - 1 := by
    change (h.data.take (h.len - 1)).length = h.len - 1
    rw [List.length_take]
    exact min_eq_left (Nat.sub_le h.len 1)
  rw [length]
  intro k positive inside
  have before := parent_lt positive
  rw [h.get_shortened inside, h.get_shortened (by omega)]
  exact ordered k positive inside

/-- The element at an index has been exchanged with the last one, which is then moved on. -/
theorem popLast_of_moved (h : Heap T) {i : Nat} (inside : i < h.len) {moved : Heap T}
    (rearranged : Rearranged (h.len - 1) (h.swap i (h.len - 1)) moved)
    (ordered : HeapOrdered h.Less moved.get (h.len - 1)) :
    moved.popLast = some (moved.shortened, h.get i) ∧ Keeps h moved.shortened ∧
      (h.get i :: moved.shortened.data).Perm h.data ∧
      HeapOrdered h.Less moved.shortened.get moved.shortened.len := by
  have swapped := h.rearranged_swap inside (show h.len - 1 < h.len by omega) le_rfl
  have length : moved.len = h.len := rearranged.len_eq.trans (h.len_swap i (h.len - 1))
  have taken : moved.get (moved.len - 1) = h.get i := by
    rw [length, rearranged.behind _ le_rfl, get_swap h inside (by omega), exchanged_right]
  have sameLess : moved.Less = h.Less := by
    funext x y
    change (moved.lessFunc x y = true) = _
    rw [rearranged.lessFunc]
    rfl
  constructor
  · rw [moved.popLast_eq (by omega), taken]
  · constructor
    · exact swapped.toKeeps.trans (rearranged.toKeeps.trans ⟨rfl, rfl, rfl⟩)
    · constructor
      · rw [← taken]
        exact (moved.perm_shortened (by omega)).trans (rearranged.perm.trans swapped.perm)
      · rw [← sameLess] at ordered ⊢
        rw [← length] at ordered
        exact moved.shortened_ordered ordered

/-- With the last element in its place, the removed one leaves a hole. -/
theorem hole_swap_last (h : Heap T) [order : IsStrictWeakOrder T h.Less]
    (ordered : HeapOrdered h.Less h.get h.len) {i : Nat} (inside : i < h.len) :
    Hole h.Less (h.swap i (h.len - 1)).get (h.len - 1) i := by
  apply ordered.hole (Nat.sub_le h.len 1) inside
  intro k bound here
  rw [get_swap h inside (by omega), exchanged_of_ne h.get here (by omega)]

/-- Taking out the element at an index: the last one takes its place and is settled there. -/
theorem remove_spec (h : Heap T) [order : IsStrictWeakOrder T h.Less]
    (ordered : HeapOrdered h.Less h.get h.len) {i : Nat} (inside : i < h.len) :
    ∃ h', h.remove i = some (h', h.get i) ∧ Keeps h h' ∧
      (h.get i :: h'.data).Perm h.data ∧ HeapOrdered h.Less h'.get h'.len ∧
      (i + 1 = h.len → h' = h.shortened) ∧
      (i + 1 ≠ h.len → h.exchanges.length < h'.exchanges.length) := by
  rw [remove, if_neg (by omega)]
  by_cases last : i + 1 = h.len
  · have here : i = h.len - 1 := by omega
    simp only [ne_eq, here, not_true_eq_false, if_false]
    rw [h.popLast_eq (by omega)]
    have before : HeapOrdered h.Less h.get (h.len - 1) :=
      fun k positive bound => ordered k positive (by omega)
    exact ⟨_, rfl, ⟨rfl, rfl, rfl⟩, h.perm_shortened (by omega), h.shortened_ordered before,
      fun _ => rfl, fun notLast => absurd (by omega) notLast⟩
  · have differ : h.len - 1 ≠ i := by omega
    simp only [ne_eq, differ, not_false_eq_true, if_true]
    have : IsStrictWeakOrder T (h.swap i (h.len - 1)).Less := order
    have settled := (h.swap i (h.len - 1)).settle_spec
      (by rw [len_swap]; exact Nat.sub_le h.len 1) (show i < h.len - 1 by omega)
      (h.hole_swap_last ordered inside)
    have longer := h.exchanges_swap_ne (show i ≠ h.len - 1 by omega)
    have more := settled.1.exchanges
    rcases h.popLast_of_moved inside settled.1 settled.2.1 with ⟨popped, keeps, perm, final⟩
    exact ⟨_, popped, keeps, perm, final, fun isLast => absurd isLast last, fun _ => by
      change _ < ((h.swap i (h.len - 1)).settle i (h.len - 1)).exchanges.length
      omega⟩

/-- Taking out the first element. -/
theorem pop_spec (h : Heap T) [order : IsStrictWeakOrder T h.Less]
    (ordered : HeapOrdered h.Less h.get h.len) (nonempty : 0 < h.len) :
    ∃ h', h.pop = some (h', h.get 0) ∧ Keeps h h' ∧
      (h.get 0 :: h'.data).Perm h.data ∧ HeapOrdered h.Less h'.get h'.len ∧
      (h.len = 1 → h'.exchanges = h.exchanges ∧ h'.data = []) ∧
      (h.len ≠ 1 → h.exchanges.length < h'.exchanges.length) := by
  have : IsStrictWeakOrder T (h.swap 0 (h.len - 1)).Less := order
  have hole := h.hole_swap_last ordered nonempty
  have downwards := (h.swap 0 (h.len - 1)).downLoop_spec
    (by rw [len_swap]; exact Nat.sub_le h.len 1) hole
  have final : HeapOrdered h.Less
      ((h.swap 0 (h.len - 1)).downLoop 0 (h.len - 1)).1.get (h.len - 1) := by
    by_cases below : FitsBelow h.Less (h.swap 0 (h.len - 1)).get (h.len - 1) 0
    · rw [downwards.2.2.1 below]
      exact hole.ordered (fun positive => absurd positive (lt_irrefl 0)) below
    · exact (downwards.2.2.2 below).2.1
  rcases h.popLast_of_moved nonempty downwards.1 final with ⟨popped, keeps, perm, shortened⟩
  rw [pop, if_neg (by omega)]
  constructor
  constructor
  · exact popped
  · constructor
    · exact keeps
    · constructor
      · exact perm
      · constructor
        · exact shortened
        · constructor
          · intro one
            have leaf : FitsBelow h.Less (h.swap 0 (h.len - 1)).get (h.len - 1) 0 := by
              intro k _ inside
              omega
            rw [downwards.2.2.1 leaf, one]
            constructor
            · rfl
            · change ((h.swap 0 (1 - 1)).data.take ((h.swap 0 (1 - 1)).len - 1)) = []
              rw [len_swap, one]
              rfl
          · intro several
            have longer := h.exchanges_swap_ne (show 0 ≠ h.len - 1 by omega)
            have more := downwards.1.exchanges
            change _ < ((h.swap 0 (h.len - 1)).downLoop 0 (h.len - 1)).1.exchanges.length
            omega

/-- A fix closes the hole, and exchanges nothing if the element fits. -/
theorem fix_spec (h : Heap T) [order : IsStrictWeakOrder T h.Less] {i : Nat}
    (inside : i < h.len) (hole : Hole h.Less h.get h.len i) :
    ∃ h', h.fix i = some h' ∧ Rearranged h.len h h' ∧ HeapOrdered h.Less h'.get h.len ∧
      (FitsAbove h.Less h.get i ∧ FitsBelow h.Less h.get h.len i → h' = h) ∧
      (¬ (FitsAbove h.Less h.get i ∧ FitsBelow h.Less h.get h.len i) →
        h.exchanges.length < h'.exchanges.length) := by
  rw [fix, if_neg (by omega)]
  exact ⟨_, rfl, h.settle_spec le_rfl inside hole⟩

end Heap

end Mintter.Pkg
