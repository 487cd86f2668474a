import Mintter.Pkg.Heap
import Mathlib.Data.Multiset.MapFold

/-!
# Queues that record indexes

The elements of a heap keep the index at which they are, so that they can be removed or fixed
later.  They get it when they are pushed, and `OnSwap` is to keep it up to date.

The heap is a priority queue for every run.  The recorded indexes are only right as long as no two
elements are exchanged, since the exchanges are not reported.
-/

namespace Mintter.Pkg

open Foundation

variable {V : Type} [Inhabited V]

/-- A value, and the index that was recorded for it. -/
structure Item (V : Type) where
  value : V
  index : Nat
deriving DecidableEq, Inhabited

/-- What `OnSwap` is for: the two elements record their new indexes. -/
def record (data : List (Item V)) (i j : Nat) : List (Item V) :=
  (data.modify i ({ · with index := j })).modify j ({ · with index := i })

/-- Items are compared by their values. -/
def byValue (less : V → V → Bool) (x y : Item V) : Bool := less x.value y.value

/-- An empty heap whose elements are to record their indexes, or are not. -/
def newHeap (less : V → V → Bool) (recording : Bool) : Heap (Item V) :=
  Heap.new (byValue less) (if recording then some record else none)

/-- The operations of a priority queue. -/
inductive HeapOp (V : Type) where
  | push (value : V)
  | pop
  | remove (i : Nat)
  /-- Change the value of the element and fix the heap. -/
  | fix (i : Nat) (value : V)
deriving DecidableEq

/-- The index of the operation is inside the heap. -/
def HeapOp.InRange (op : HeapOp V) (h : Heap (Item V)) : Prop :=
  match op with
  | .push _ => True
  | .pop => 0 < h.len
  | .remove i => i < h.len
  | .fix i _ => i < h.len

/-- The value of the element changes; its index does not. -/
def changed (h : Heap (Item V)) (i : Nat) (value : V) : Heap (Item V) :=
  { h with data := h.data.modify i ({ · with value := value }) }

/-- The heap after an operation, and the element that it returned. -/
def exec (h : Heap (Item V)) : HeapOp V → Option (Heap (Item V) × Option (Item V))
  | .push value => some (h.push ⟨value, h.len⟩, none)
  | .pop => h.pop.map fun (h, x) => (h, some x)
  | .remove i => (h.remove i).map fun (h, x) => (h, some x)
  | .fix i value => ((changed h i value).fix i).map fun h => (h, none)

/-! ## The queue -/

/-- The values of the elements, however they are arranged. -/
def values (h : Heap (Item V)) : Multiset V := (h.data.map Item.value : List V)

/-- What an operation on a queue of values returns and leaves. -/
def Answers (less : V → V → Bool) (h : Heap (Item V)) (op : HeapOp V)
    (returned : Option (Item V)) (before after : Multiset V) : Prop :=
  match op with
  | .push value => returned = none ∧ after = value ::ₘ before
  | .pop => ∃ x, returned = some x ∧ before = x.value ::ₘ after ∧
      ∀ value ∈ before, less value x.value = false
  | .remove i => ∃ x, returned = some x ∧ h.data[i]? = some x ∧ before = x.value ::ₘ after
  | .fix i value => returned = none ∧
      ∃ x, h.data[i]? = some x ∧ x.value ::ₘ after = value ::ₘ before

/-- The index of each element is the one that it has recorded. -/
def Recorded (h : Heap (Item V)) : Prop :=
  ∀ i (x : Item V), h.data[i]? = some x → x.index = i

/-- The heap is in order and holds the values; all exchanges have been reported, and the
recorded indexes are right. -/
structure Represents (less : V → V → Bool) (h : Heap (Item V)) (queue : Multiset V) : Prop where
  ordered : ∀ k, 0 < k → k < h.len → less (h.get k).value (h.get (parent k)).value = false
  elements : values h = queue
  called : h.onSwap.isSome → h.calls = h.exchanges
  recorded : h.onSwap.isSome → Recorded h

/-- Every operation of a run, as long as they are in range, is answered as by a queue. -/
def Serves (less : V → V → Bool) (h : Heap (Item V)) (queue : Multiset V) :
    List (HeapOp V) → Prop
  | [] => Represents less h queue
  | op :: ops => Represents less h queue ∧
      (op.InRange h → ∃ h' returned queue', exec h op = some (h', returned) ∧
        Answers less h op returned queue queue' ∧ Serves less h' queue' ops)

/-! ## Runs without exchanges -/

/-- The operation finds the elements where they are to be: what is pushed or changed is not
smaller than what is above it nor greater than what is below it, and what is taken out is last. -/
def Stays (less : V → V → Bool) (h : Heap (Item V)) : HeapOp V → Prop
  | .push value => 0 < h.len → less value (h.get (parent h.len)).value = false
  | .pop => h.len = 1
  | .remove i => i + 1 = h.len
  | .fix i value => (0 < i → less value (h.get (parent i)).value = false) ∧
      ∀ k, 0 < k → k < h.len → parent k = i → less (h.get k).value value = false

/-- No operation of the list exchanges elements. -/
def AllStay (less : V → V → Bool) (h : Heap (Item V)) : List (HeapOp V) → Prop
  | [] => True
  | op :: ops => op.InRange h → Stays less h op ∧
      ∀ h' returned, exec h op = some (h', returned) → AllStay less h' ops

/-! ## One operation -/

/-- What one operation does. -/
structure Executed (less : V → V → Bool) (h : Heap (Item V)) (op : HeapOp V) (h' : Heap (Item V))
    (returned : Option (Item V)) : Prop where
  ran : exec h op = some (h', returned)
  keeps : Heap.Keeps h h'
  ordered : HeapOrdered h.Less h'.get h'.len
  answers : Answers less h op returned (values h) (values h')
  stays : Stays less h op → h'.exchanges = h.exchanges ∧ (Recorded h → Recorded h')
  moves : ¬ Stays less h op → h.exchanges.length < h'.exchanges.length

/-- The elements are compared by their values. -/
structure ByValue (less : V → V → Bool) (h : Heap (Item V)) : Prop where
  lessFunc : h.lessFunc = byValue less
  ordered : HeapOrdered h.Less h.get h.len

omit [Inhabited V] in
/-- Items are compared by their values. -/
theorem less_iff {less : V → V → Bool} {h : Heap (Item V)} (byLess : h.lessFunc = byValue less)
    (x y : Item V) : h.Less x y ↔ less x.value y.value = true := by
  rw [Heap.Less, byLess, byValue]

omit [Inhabited V] in
/-- The items are ordered as their values are. -/
theorem strictWeakOrder {less : V → V → Bool}
    [order : IsStrictWeakOrder V fun x y => less x y = true] {h : Heap (Item V)}
    (byLess : h.lessFunc = byValue less) : IsStrictWeakOrder (Item V) h.Less where
  irrefl x := by
    rw [less_iff byLess]
    exact order.irrefl x.value
  trans x y z := by
    simp only [less_iff byLess]
    exact order.trans x.value y.value z.value
  incomp_trans x y z := by
    simp only [less_iff byLess]
    exact order.incomp_trans x.value y.value z.value

omit [Inhabited V] in
theorem not_less_iff {less : V → V → Bool} {h : Heap (Item V)}
    (byLess : h.lessFunc = byValue less) (x y : Item V) :
    ¬ h.Less x y ↔ less x.value y.value = false := by
  rw [less_iff byLess, Bool.not_eq_true]

omit [Inhabited V] in
theorem values_of_perm {h h' : Heap (Item V)} {x : Item V}
    (perm : (x :: h'.data).Perm h.data) : values h = x.value ::ₘ values h' :=
  (Multiset.coe_eq_coe.mpr (perm.map Item.value)).symm

theorem get_eq_some {h : Heap (Item V)} {i : Nat} (inside : i < h.len) :
    h.data[i]? = some (h.get i) := by
  rw [h.get_eq_of_lt inside]
  exact List.getElem?_eq_getElem inside

theorem get_appended_len (h : Heap (Item V)) (x : Item V) : (h.appended x).get h.len = x := by
  rw [Heap.get, Heap.appended, List.getD_eq_getElem?_getD, Heap.len, List.getElem?_concat_length,
    Option.getD_some]

/-- A push exchanges nothing if the new element fits at the end. -/
theorem stays_push_iff {less : V → V → Bool} {h : Heap (Item V)}
    (byLess : h.lessFunc = byValue less) (value : V) :
    Stays less h (.push value) ↔
      FitsAbove h.Less (h.appended ⟨value, h.len⟩).get h.len := by
  apply forall_congr'
  intro positive
  rw [not_less_iff byLess, get_appended_len, h.get_appended _ (parent_lt positive)]

omit [Inhabited V] in
/-- The new element records the index at the end. -/
theorem recorded_appended {h : Heap (Item V)} (recorded : Recorded h) (value : V) :
    Recorded (h.appended ⟨value, h.len⟩) := by
  intro i x found
  change (h.data ++ [_])[i]? = some x at found
  rw [List.getElem?_append] at found
  split_ifs at found with inside
  · exact recorded i x found
  · rcases List.getElem?_eq_some_iff.mp found with ⟨bound, rfl⟩
    rw [List.length_singleton] at bound
    rw [List.getElem_singleton]
    change h.data.length = i
    omega

/-- A push is executed. -/
theorem executed_push {less : V → V → Bool} [IsStrictWeakOrder V fun x y => less x y = true]
    {h : Heap (Item V)} (byLess : ByValue less h) (value : V) :
    ∃ h' returned, Executed less h (.push value) h' returned := by
  have := strictWeakOrder byLess.lessFunc
  rcases h.push_spec byLess.ordered ⟨value, h.len⟩ with ⟨moved, ordered, stays, moves⟩
  have length : (h.push ⟨value, h.len⟩).len = h.len + 1 := by
    rw [moved.len_eq]
    simp [Heap.len, Heap.appended]
  exists h.push ⟨value, h.len⟩, none
  constructor
  · rfl
  · exact ⟨moved.lessFunc, moved.onSwap, moved.calls⟩
  · rw [length]
    exact ordered
  · constructor
    · rfl
    · have perm : (h.push ⟨value, h.len⟩).data.Perm (⟨value, h.len⟩ :: h.data) :=
        moved.perm.trans (List.perm_append_singleton _ _)
      exact values_of_perm perm.symm
  · intro still
    rw [stays ((stays_push_iff byLess.lessFunc value).mp still)]
    exact ⟨rfl, fun recorded => recorded_appended recorded value⟩
  · intro moving
    exact moves (mt (stays_push_iff byLess.lessFunc value).mpr moving)

omit [Inhabited V] in
theorem recorded_shortened {h : Heap (Item V)} (recorded : Recorded h) :
    Recorded h.shortened := by
  intro i x found
  change (h.data.take (h.len - 1))[i]? = some x at found
  rw [List.getElem?_take] at found
  split_ifs at found
  exact recorded i x found

/-- A pop of a heap with elements is executed. -/
theorem executed_pop {less : V → V → Bool} [IsStrictWeakOrder V fun x y => less x y = true]
    {h : Heap (Item V)} (byLess : ByValue less h) (nonempty : 0 < h.len) :
    ∃ h' returned, Executed less h .pop h' returned := by
  have := strictWeakOrder byLess.lessFunc
  rcases h.pop_spec byLess.ordered nonempty with ⟨h', popped, keeps, perm, ordered, stays, moves⟩
  exists h', some (h.get 0)
  constructor
  · rw [exec, popped, Option.map_some]
  · exact keeps
  · exact ordered
  · exists h.get 0
    constructor
    · rfl
    · constructor
      · exact values_of_perm perm
      · intro value member
        rcases List.mem_map.mp member with ⟨x, stored, rfl⟩
        rcases List.getElem_of_mem stored with ⟨k, inside, rfl⟩
        have least := byLess.ordered.first_least inside
        rw [h.get_eq_of_lt inside] at least
        exact (not_less_iff byLess.lessFunc _ _).mp least
  · intro one
    rcases stays one with ⟨same, empty⟩
    constructor
    · exact same
    · intro _ i x found
      rw [empty] at found
      exact absurd found (by simp)
  · exact moves

/-- An element inside the heap can be removed. -/
theorem executed_remove {less : V → V → Bool} [IsStrictWeakOrder V fun x y => less x y = true]
    {h : Heap (Item V)} (byLess : ByValue less h) {i : Nat} (inside : i < h.len) :
    ∃ h' returned, Executed less h (.remove i) h' returned := by
  have := strictWeakOrder byLess.lessFunc
  rcases h.remove_spec byLess.ordered inside with
    ⟨h', removed, keeps, perm, ordered, stays, moves⟩
  exists h', some (h.get i)
  constructor
  · rw [exec, removed, Option.map_some]
  · exact keeps
  · exact ordered
  · exact ⟨h.get i, rfl, get_eq_some inside, values_of_perm perm⟩
  · intro last
    rw [stays last]
    exact ⟨rfl, recorded_shortened⟩
  · exact moves

theorem get_changed (h : Heap (Item V)) {i : Nat} (inside : i < h.len) (value : V) (k : Nat) :
    (changed h i value).get k =
      if k = i then { h.get i with value := value } else h.get k := by
  change (h.data.modify i _).getD k default = _
  rw [List.getD_eq_getElem?_getD, List.getElem?_modify]
  split_ifs with same other
  · subst same
    rw [get_eq_some inside]
    rfl
  · exact absurd same.symm other
  · rename_i other
    exact absurd other.symm same
  · rw [Option.map_eq_map, Option.map_id_fun', id, Heap.get, List.getD_eq_getElem?_getD]

/-- Changing an element exchanges its value. -/
theorem values_changed (h : Heap (Item V)) {i : Nat} (inside : i < h.len) (value : V) :
    (h.get i).value ::ₘ values (changed h i value) = value ::ₘ values h := by
  rcases List.exists_of_modify ({ · with value := value }) inside with
    ⟨before, x, after, whole, here, modified⟩
  have found : h.get i = x := by
    have stored := get_eq_some inside
    rw [whole, ← here, List.getElem?_append_right le_rfl, Nat.sub_self,
      List.getElem?_cons_zero] at stored
    rw [here] at stored
    exact (Option.some.inj stored).symm
  rw [values, values, changed, modified, whole, found]
  rw [List.map_append, List.map_append, List.map_cons, List.map_cons, ← Multiset.coe_add,
    ← Multiset.coe_add, ← Multiset.cons_coe, ← Multiset.cons_coe, Multiset.add_cons,
    Multiset.add_cons]
  exact Multiset.cons_swap _ _ _

/-- A fix exchanges nothing if the changed element fits on both sides. -/
theorem stays_fix_iff {less : V → V → Bool} {h : Heap (Item V)}
    (byLess : h.lessFunc = byValue less) {i : Nat} (inside : i < h.len) (value : V) :
    Stays less h (.fix i value) ↔
      FitsAbove h.Less (changed h i value).get i ∧
        FitsBelow h.Less (changed h i value).get (changed h i value).len i := by
  have length : (changed h i value).len = h.len := List.length_modify _ _ _
  rw [length]
  constructor
  · rintro ⟨above, below⟩
    constructor
    · intro positive
      have before := parent_lt positive
      rw [not_less_iff byLess, get_changed h inside, if_pos rfl, get_changed h inside,
        if_neg before.ne]
      exact above positive
    · intro k positive bound child
      have before := parent_lt positive
      rw [not_less_iff byLess, get_changed h inside, if_neg (by omega), get_changed h inside,
        if_pos rfl]
      exact below k positive bound child
  · rintro ⟨above, below⟩
    constructor
    · intro positive
      have before := parent_lt positive
      have fits := above positive
      rwa [not_less_iff byLess, get_changed h inside, if_pos rfl, get_changed h inside,
        if_neg before.ne] at fits
    · intro k positive bound child
      have before := parent_lt positive
      have fits := below k positive bound child
      rwa [not_less_iff byLess, get_changed h inside, if_neg (by omega), get_changed h inside,
        if_pos rfl] at fits

omit [Inhabited V] in
theorem recorded_changed {h : Heap (Item V)} (recorded : Recorded h) (i : Nat) (value : V) :
    Recorded (changed h i value) := by
  intro k x found
  change (h.data.modify i _)[k]? = some x at found
  rw [List.getElem?_modify, Option.map_eq_map, Option.map_eq_some_iff] at found
  rcases found with ⟨y, stored, rfl⟩
  have index := recorded k y stored
  split_ifs
  · exact index
  · exact index

/-- An element inside the heap can be changed and fixed. -/
theorem executed_fix {less : V → V → Bool} [IsStrictWeakOrder V fun x y => less x y = true]
    {h : Heap (Item V)} (byLess : ByValue less h) {i : Nat} (inside : i < h.len) (value : V) :
    ∃ h' returned, Executed less h (.fix i value) h' returned := by
  have order := strictWeakOrder byLess.lessFunc
  have : IsStrictWeakOrder (Item V) (changed h i value).Less := order
  have length : (changed h i value).len = h.len := List.length_modify _ _ _
  have hole : Hole h.Less (changed h i value).get (changed h i value).len i := by
    apply byLess.ordered.hole length.le inside
    intro k _ elsewhere
    rw [get_changed h inside, if_neg elsewhere]
  rcases (changed h i value).fix_spec (length ▸ inside) hole with
    ⟨h', fixed, moved, ordered, stays, moves⟩
  have still := stays_fix_iff byLess.lessFunc inside value
  exists h', none
  constructor
  · rw [exec, fixed, Option.map_some]
  · exact ⟨moved.lessFunc, moved.onSwap, moved.calls⟩
  · rw [moved.len_eq]
    exact ordered
  · constructor
    · rfl
    · exists h.get i
      constructor
      · exact get_eq_some inside
      · rw [← values_changed h inside value, values, values,
          Multiset.coe_eq_coe.mpr (moved.perm.map Item.value)]
  · intro fits
    rw [stays (still.mp fits)]
    constructor
    · rfl
    · exact fun recorded => recorded_changed recorded i value
  · intro moving
    exact moves (mt still.mpr moving)

/-- Every operation of which the element is there is executed. -/
theorem executed {less : V → V → Bool} [IsStrictWeakOrder V fun x y => less x y = true]
    {h : Heap (Item V)} (byLess : ByValue less h) (op : HeapOp V) (inRange : op.InRange h) :
    ∃ h' returned, Executed less h op h' returned := by
  cases op with
  | push value => exact executed_push byLess value
  | pop => exact executed_pop byLess inRange
  | remove i => exact executed_remove byLess inRange
  | fix i value => exact executed_fix byLess inRange value

/-! ## Runs -/

/-- A heap of which no two elements have been exchanged, as far as exchanges are to be
reported. -/
structure Untouched (less : V → V → Bool) (recording : Bool) (h : Heap (Item V)) : Prop
    extends ByValue less h where
  onSwap : h.onSwap.isSome = recording
  calls : h.calls = []
  exchanges : recording = true → h.exchanges = []
  recorded : recording = true → Recorded h

theorem Untouched.represents {less : V → V → Bool} {recording : Bool} {h : Heap (Item V)}
    (untouched : Untouched less recording h) : Represents less h (values h) where
  ordered k positive inside :=
    (not_less_iff untouched.lessFunc _ _).mp (untouched.ordered k positive inside)
  elements := rfl
  called isSet := by
    rw [untouched.calls, untouched.exchanges (untouched.onSwap ▸ isSet)]
  recorded isSet := untouched.recorded (untouched.onSwap ▸ isSet)

theorem Executed.byValue {less : V → V → Bool} {h h' : Heap (Item V)} {op : HeapOp V}
    {returned : Option (Item V)} (ex : Executed less h op h' returned)
    (byLess : ByValue less h) : ByValue less h' where
  lessFunc := ex.keeps.lessFunc.trans byLess.lessFunc
  ordered := by
    have same : h'.Less = h.Less := by
      funext x y
      rw [Heap.Less, Heap.Less, ex.keeps.lessFunc]
    rw [same]
    exact ex.ordered

/-- Without recording, or without an exchange, the indexes stay right. -/
theorem Executed.untouched {less : V → V → Bool} {recording : Bool} {h h' : Heap (Item V)}
    {op : HeapOp V} {returned : Option (Item V)} (ex : Executed less h op h' returned)
    (before : Untouched less recording h) (still : recording = false ∨ Stays less h op) :
    Untouched less recording h' where
  toByValue := ex.byValue before.toByValue
  onSwap := (congrArg Option.isSome ex.keeps.onSwap).trans before.onSwap
  calls := ex.keeps.calls.trans before.calls
  exchanges isRecording := by
    rcases still with off | still
    · rw [off] at isRecording
      cases isRecording
    · exact (ex.stays still).1.trans (before.exchanges isRecording)
  recorded isRecording := by
    rcases still with off | still
    · rw [off] at isRecording
      cases isRecording
    · exact (ex.stays still).2 (before.recorded isRecording)

theorem Serves.represents {less : V → V → Bool} {h : Heap (Item V)} {queue : Multiset V}
    {ops : List (HeapOp V)} (serves : Serves less h queue ops) : Represents less h queue := by
  cases ops with
  | nil => exact serves
  | cons op ops => exact serves.1

/-- The exchange of an operation is missing among the calls. -/
theorem Executed.not_represents {less : V → V → Bool} {h h' : Heap (Item V)} {op : HeapOp V}
    {returned : Option (Item V)} (ex : Executed less h op h' returned)
    (before : Untouched less true h) (moves : ¬ Stays less h op) (queue : Multiset V) :
    ¬ Represents less h' queue := by
  intro represents
  have called := represents.called
    ((congrArg Option.isSome ex.keeps.onSwap).trans before.onSwap)
  have longer := ex.moves moves
  rw [← called, ex.keeps.calls, before.calls] at longer
  exact absurd longer (Nat.not_lt_zero _)

/-- A heap serves its queue if nothing is recorded or nothing is exchanged. -/
theorem serves_iff {less : V → V → Bool} [IsStrictWeakOrder V fun x y => less x y = true]
    {recording : Bool} (ops : List (HeapOp V)) {h : Heap (Item V)}
    (untouched : Untouched less recording h) :
    Serves less h (values h) ops ↔ recording = false ∨ AllStay less h ops := by
  induction ops generalizing h with
  | nil => exact ⟨fun _ => Or.inr trivial, fun _ => untouched.represents⟩
  | cons op ops induction =>
      constructor
      · intro serves
        cases recording with
        | false => exact Or.inl rfl
        | true =>
            right
            intro inRange
            rcases executed untouched.toByValue op inRange with ⟨h', returned, ex⟩
            rcases serves.2 inRange with ⟨ran, answer, queue, found, answers, rest⟩
            rw [ex.ran, Option.some.injEq, Prod.mk.injEq] at found
            rcases found with ⟨rfl, rfl⟩
            have still : Stays less h op := by
              by_contra moves
              exact ex.not_represents untouched moves queue rest.represents
            constructor
            · exact still
            · intro next answer found
              rw [ex.ran, Option.some.injEq, Prod.mk.injEq] at found
              rcases found with ⟨rfl, rfl⟩
              have after := ex.untouched untouched (Or.inr still)
              rw [← rest.represents.elements] at rest
              rcases (induction after).mp rest with off | stay
              · cases off
              · exact stay
      · intro fine
        constructor
        · exact untouched.represents
        · intro inRange
          rcases executed untouched.toByValue op inRange with ⟨h', returned, ex⟩
          exists h', returned, values h'
          constructor
          · exact ex.ran
          · constructor
            · exact ex.answers
            · have still := fine.imp_right fun stay => (stay inRange).1
              apply (induction (ex.untouched untouched still)).mpr
              exact fine.imp_right fun stay => (stay inRange).2 h' returned ex.ran

/-- A new heap has no wrong index. -/
theorem newHeap_untouched (less : V → V → Bool) (recording : Bool) :
    Untouched less recording (newHeap less recording) where
  lessFunc := rfl
  ordered k _ inside := absurd inside (Nat.not_lt_zero k)
  onSwap := by
    cases recording with
    | false => rfl
    | true => rfl
  calls := rfl
  exchanges _ := rfl
  recorded _ _ _ found := by cases found

/--
The heap serves every run as a queue.  It does so with recorded indexes if and only if each
operation finds the elements where they are to be, as no exchange is reported to `OnSwap`.
-/
theorem heap_serves_iff (less : V → V → Bool) [IsStrictWeakOrder V fun x y => less x y = true]
    (recording : Bool) (ops : List (HeapOp V)) :
    Serves less (newHeap less recording) 0 ops ↔
      recording = false ∨ AllStay less (newHeap less recording) ops :=
  serves_iff ops (newHeap_untouched less recording)

/-! ## A smaller element after a greater one -/

/-- Smaller numbers come first. -/
def lessNat (m n : Nat) : Bool := decide (m < n)

instance : IsStrictWeakOrder Nat fun m n => lessNat m n = true where
  irrefl n := by simp [lessNat]
  trans m n k := by
    simp only [lessNat, decide_eq_true_eq]
    omega
  incomp_trans m n k := by
    simp only [lessNat, decide_eq_true_eq]
    omega

/-- A smaller element is pushed behind a greater one. -/
def smallerLater : List (HeapOp Nat) := [.push 2, .push 1]

/-- A greater element is pushed behind a smaller one. -/
def greaterLater : List (HeapOp Nat) := [.push 1, .push 2]

/-- The heap after its first element. -/
theorem push_first (recording : Bool) (value : Nat) :
    (newHeap lessNat recording).push ⟨value, 0⟩ =
      (newHeap lessNat recording).appended ⟨value, 0⟩ := by
  change Heap.up _ 0 = _
  rw [Heap.up]
  rfl

/-- The second element is not exchanged with the first one if it is not smaller. -/
theorem allStay_two_iff (first second : Nat) :
    AllStay lessNat (newHeap lessNat true) [.push first, .push second] ↔
      lessNat second first = false := by
  have after : exec (newHeap lessNat true) (.push first) =
      some ((newHeap lessNat true).appended ⟨first, 0⟩, none) :=
    congrArg (fun h => some (h, none)) (push_first true first)
  have above : ((newHeap lessNat true).appended ⟨first, 0⟩).get
      (parent ((newHeap lessNat true).appended ⟨first, 0⟩).len) = ⟨first, 0⟩ := by
    simp [parent, Heap.len, Heap.appended, newHeap, Heap.new, Heap.get]
  constructor
  · intro stay
    have next := (stay trivial).2 _ _ after
    have fits := (next trivial).1 Nat.one_pos
    rwa [above] at fits
  · intro inOrder _
    constructor
    · exact fun nonempty => absurd nonempty (Nat.lt_irrefl 0)
    · intro h' returned ran
      rw [after, Option.some.injEq, Prod.mk.injEq] at ran
      rcases ran with ⟨rfl, rfl⟩
      intro _
      constructor
      · intro _
        rwa [above]
      · exact fun _ _ _ => trivial

theorem heap_serves_two_elements :
    Serves lessNat (newHeap lessNat false) 0 smallerLater ∧
      Serves lessNat (newHeap lessNat true) 0 greaterLater := by
  constructor
  · exact (heap_serves_iff lessNat false smallerLater).mpr (Or.inl rfl)
  · exact (heap_serves_iff lessNat true greaterLater).mpr
      (Or.inr ((allStay_two_iff 1 2).mpr rfl))

/-- The second element goes up before the first one, and the indexes do not follow. -/
theorem heap_does_not_record_the_exchange :
    ¬ Serves lessNat (newHeap lessNat true) 0 smallerLater := by
  intro serves
  rcases (serves_iff smallerLater (newHeap_untouched lessNat true)).mp serves with off | stay
  · cases off
  · exact absurd ((allStay_two_iff 2 1).mp stay) (by decide)

end Mintter.Pkg
