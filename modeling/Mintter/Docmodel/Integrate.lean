import Mintter.Docmodel.Moves
import Mintter.Foundation.CausalInsertion

/-!
# Integrating operations

The main result, `integrate_spec`, says what a successful integration does: the
new move enters the log, and it enters the siblings under its parent at the
place where causal insertion puts its operation.  `integrate_ok_iff` says when
an integration succeeds.  Both hold for every state that satisfies `Valid`,
and integration keeps `Valid`.
-/

namespace Mintter.Docmodel

open Mintter.Foundation

/-! ## Places between siblings -/

/-- The moves under one parent, in the order of their fractional indexes. -/
abbrev siblings (tree : List Move) (parent : String) : List Move :=
  KeyedList.ofGroup Move.parent parent tree

/-- The fractional index at the end of a list, empty for the empty list. -/
def lastKey (front : List Move) : String :=
  front.foldl (fun _ x => x.fracdex) ""

/-- The fractional index at the start of a list, empty for the empty list. -/
def headKey (back : List Move) : String :=
  (back.head?.map Move.fracdex).getD ""

@[simp] theorem lastKey_nil : lastKey [] = "" := rfl

@[simp] theorem headKey_nil : headKey [] = "" := rfl

@[simp]
theorem headKey_cons (x : Move) (rest : List Move) :
    headKey (x :: rest) = x.fracdex := rfl

@[simp]
theorem lastKey_append_singleton (front : List Move) (x : Move) :
    lastKey (front ++ [x]) = x.fracdex := by
  simp [lastKey]

/-- The first item of a list with a property splits the list. -/
theorem exists_first_split {α : Type} {items : List α} {property : α → Prop}
    (named : ∃ item ∈ items, property item) :
    ∃ front first rest, items = front ++ first :: rest ∧ property first ∧
      ∀ item ∈ front, ¬ property item := by
  induction items with
  | nil => simp at named
  | cons head items induction =>
      by_cases here : property head
      · exact ⟨[], head, items, rfl, here, by simp⟩
      · obtain ⟨item, member, holds⟩ := named
        have later : item ∈ items := by
          rcases List.mem_cons.mp member with rfl | later
          · exact absurd holds here
          · exact later
        obtain ⟨front, first, rest, rfl, isFirst, others⟩ :=
          induction ⟨item, later, holds⟩
        refine ⟨head :: front, first, rest, rfl, isFirst, ?_⟩
        simpa [here] using others

/-- A list of moves whose fractional indexes are keys, in increasing order. -/
structure Keyed (K : Fracdex) (moves : List Move) : Prop where
  sorted : KeyedList.Sorted Move.fracdex moves
  isKey : ∀ x ∈ moves, K.IsKey x.fracdex

/-- There is a key for every place in a list of siblings. -/
theorem Keyed.exists_between {K : Fracdex} {front back : List Move}
    (keyed : Keyed K (front ++ back)) :
    ∃ key, K.keyBetween (lastKey front) (headKey back) = .ok key ∧
      K.IsKey key ∧ (∀ x ∈ front, x.fracdex < key) ∧
      ∀ x ∈ back, key < x.fracdex := by
  obtain ⟨sortedFront, sortedBack, across⟩ := List.pairwise_append.mp keyed.sorted
  have leftKey : lastKey front = "" ∨ K.IsKey (lastKey front) := by
    rcases List.eq_nil_or_concat' front with rfl | ⟨front, last, rfl⟩
    · exact Or.inl rfl
    · rw [lastKey_append_singleton]
      exact Or.inr (keyed.isKey last (by simp))
  have rightKey : headKey back = "" ∨ K.IsKey (headKey back) := by
    cases back with
    | nil => exact Or.inl rfl
    | cons head back => exact Or.inr (keyed.isKey head (by simp))
  have ordered : lastKey front < headKey back ∨ headKey back = "" := by
    cases back with
    | nil => exact Or.inr rfl
    | cons head back =>
        left
        rcases List.eq_nil_or_concat' front with rfl | ⟨front, last, rfl⟩
        · exact empty_lt_string (K.ne_empty (keyed.isKey head (by simp)))
        · rw [lastKey_append_singleton]
          exact across last (by simp) head List.mem_cons_self
  obtain ⟨key, returned, isKey, above, below⟩ :=
    K.between leftKey rightKey ordered
  refine ⟨key, returned, isKey, ?_, ?_⟩
  · intro x member
    rcases List.eq_nil_or_concat' front with rfl | ⟨front, last, rfl⟩
    · simp at member
    · rw [lastKey_append_singleton] at above
      rcases List.mem_append.mp member with earlier | isLast
      · have less := (List.pairwise_append.mp sortedFront).2.2 x earlier last
          (by simp)
        exact less.trans above
      · exact List.mem_singleton.mp isLast ▸ above
  · intro x member
    cases back with
    | nil => simp at member
    | cons head back =>
        have nonempty : headKey (head :: back) ≠ "" :=
          K.ne_empty (keyed.isKey head (by simp))
        have less : key < head.fracdex := below.resolve_right nonempty
        rcases List.mem_cons.mp member with rfl | later
        · exact less
        · exact less.trans ((List.pairwise_cons.mp sortedBack).1 x later)

/-! ## Valid states -/

/-- The log and the tree index hold the same moves, with keys and in order. -/
structure TreeCRDT.Valid (K : Fracdex) (state : TreeCRDT) : Prop where
  log_sorted : KeyedList.Sorted Move.opID state.log
  tree_sorted : KeyedList.Sorted Move.parentOrder state.tree
  mem_tree : ∀ {x}, x ∈ state.tree ↔ x ∈ state.log
  isKey : ∀ {x}, x ∈ state.log → K.IsKey x.fracdex
  origins_eq : ∀ {block origin x}, state.origins block origin = some x ↔
    x ∈ state.log ∧ x.block = block ∧ x.opID.origin = origin

/-- An empty tree is valid. -/
theorem newTreeCRDT_valid (K : Fracdex) : newTreeCRDT.Valid K where
  log_sorted := KeyedList.Sorted.nil
  tree_sorted := KeyedList.Sorted.nil
  mem_tree := by simp [newTreeCRDT]
  isKey := by simp [newTreeCRDT]
  origins_eq := by simp [newTreeCRDT]

/-- The siblings are ordered by their keys. -/
theorem Keyed.siblings {K : Fracdex} {tree : List Move}
    (sorted : KeyedList.Sorted Move.parentOrder tree)
    (isKey : ∀ x ∈ tree, K.IsKey x.fracdex) (parent : String) :
    Keyed K (siblings tree parent) where
  sorted := KeyedList.Sorted.ofGroup sorted parent
  isKey := fun x member => isKey x (KeyedList.mem_ofGroup.mp member).1

/-- The siblings are the moves with this parent. -/
theorem mem_siblings {tree : List Move} {parent : String} {x : Move} :
    x ∈ siblings tree parent ↔ x ∈ tree ∧ x.parent = parent :=
  KeyedList.mem_ofGroup

theorem TreeCRDT.Valid.keyed {K : Fracdex} {state : TreeCRDT}
    (valid : state.Valid K) (parent : String) :
    Keyed K (siblings state.tree parent) :=
  Keyed.siblings valid.tree_sorted
    (fun _ member => valid.isKey (valid.mem_tree.mp member)) parent

/-! ## Operations -/

/-- The arguments of `integrate`: a move without its fractional index. -/
structure MoveOp where
  opID : OpID
  block : String
  parent : String
  left : String
  leftOrigin : String
deriving DecidableEq, Repr

/-- The operation that a move integrates. -/
def Move.op (m : Move) : MoveOp :=
  ⟨m.opID, m.block, m.parent, m.left, m.leftOrigin⟩

@[simp] theorem Move.op_opID (m : Move) : m.op.opID = m.opID := rfl

@[simp] theorem Move.op_block (m : Move) : m.op.block = m.block := rfl

@[simp] theorem Move.op_parent (m : Move) : m.op.parent = m.parent := rfl

/-- Integrate an operation that arrives. -/
def TreeCRDT.integrateOp (K : Fracdex) (state : TreeCRDT) (op : MoveOp) :
    Outcome (Except String TreeCRDT) :=
  state.integrate K op.opID op.block op.parent op.left op.leftOrigin

/--
The insertion of an operation among its siblings: the left sibling is named by
its block and origin, and operations are ordered by their identifiers.
-/
def siblingInsertion : CausalInsertion MoveOp OpID where
  id := MoveOp.opID
  isHead := fun op => op.left = "" ∧ op.leftOrigin = ""
  refersTo := fun op target => target.parent = op.parent ∧
    target.block = op.left ∧ target.opID.origin = op.leftOrigin

/-- An operation without a left neighbour goes to the head. -/
@[simp]
theorem siblingInsertion_isHead (op : MoveOp) :
    siblingInsertion.isHead op = true ↔ op.left = "" ∧ op.leftOrigin = "" := by
  simp [siblingInsertion]

/-- An operation refers to the move that its left block and its origin name. -/
@[simp]
theorem siblingInsertion_refersTo (op target : MoveOp) :
    siblingInsertion.refersTo op target = true ↔ target.parent = op.parent ∧
      target.block = op.left ∧ target.opID.origin = op.leftOrigin := by
  simp [siblingInsertion]

@[simp]
theorem siblingInsertion_id (op : MoveOp) :
    siblingInsertion.id op = op.opID := rfl

/-- The left sibling is the start of the list or among the given siblings. -/
def Anchored (op : MoveOp) (moves : List Move) : Prop :=
  siblingInsertion.isHead op ∨
    ∃ anchor ∈ moves, siblingInsertion.refersTo op anchor.op

/-! ## The insertion point -/

section Scan

variable {opID : OpID} {parent block origin : String} {rest later : List Move}

/-- Behind the siblings the search stops. -/
theorem insertionStep_later {x : Move} (beyond : parent < x.parent)
    (acc : Bool × String × String) :
    TreeCRDT.insertionStep opID parent block origin acc x = .ok (acc, false) := by
  simp [TreeCRDT.insertionStep, beyond]

theorem visit_later (beyond : ∀ x ∈ later, parent < x.parent)
    (acc : Bool × String × String) :
    visit (TreeCRDT.insertionStep opID parent block origin) later acc =
      .ok acc := by
  cases later with
  | nil => rfl
  | cons x later =>
      exact visit_cons_of_stop
        (insertionStep_later (beyond x List.mem_cons_self) acc)

/-- After the left sibling: skip the concurrent moves and stop. -/
theorem visit_found (under : ∀ x ∈ rest, x.parent = parent)
    (beyond : ∀ x ∈ later, parent < x.parent)
    (fresh : ∀ x ∈ rest, x.opID ≠ opID) (left : String) :
    visit (TreeCRDT.insertionStep opID parent block origin) (rest ++ later)
        (true, left, "") =
      .ok (true,
        (rest.takeWhile fun x => opID ≤ x.opID).foldl
          (fun _ x => x.fracdex) left,
        headKey (rest.dropWhile fun x => opID ≤ x.opID)) := by
  induction rest generalizing left with
  | nil => simpa using visit_later beyond _
  | cons x rest induction =>
      have here : ¬ parent < x.parent := by
        simp [under x List.mem_cons_self]
      have compare := OpID.less_eq_ok (fresh x List.mem_cons_self)
      by_cases less : x.opID < opID
      · have step : TreeCRDT.insertionStep opID parent block origin
            (true, left, "") x = .ok ((true, left, x.fracdex), false) := by
          simp [TreeCRDT.insertionStep, here, compare, less]
        rw [List.cons_append, visit_cons_of_stop step]
        simp [less.not_ge]
      · have step : TreeCRDT.insertionStep opID parent block origin
            (true, left, "") x = .ok ((true, x.fracdex, ""), true) := by
          simp [TreeCRDT.insertionStep, here, compare, less]
        rw [List.cons_append, visit_cons_of_more step, induction
          (fun y member => under y (List.mem_cons_of_mem _ member))
          (fun y member => fresh y (List.mem_cons_of_mem _ member))]
        simp [not_lt.mp less]

/-- Before the left sibling nothing is recorded. -/
theorem visit_search {front : List Move}
    (under : ∀ x ∈ front, x.parent = parent)
    (other : ∀ x ∈ front, ¬ (x.block = block ∧ x.opID.origin = origin)) :
    visit (TreeCRDT.insertionStep opID parent block origin) (front ++ later)
        (false, "", "") =
      visit (TreeCRDT.insertionStep opID parent block origin) later
        (false, "", "") := by
  induction front with
  | nil => rfl
  | cons x front induction =>
      have step : TreeCRDT.insertionStep opID parent block origin
          (false, "", "") x = .ok ((false, "", ""), true) := by
        have differs := other x List.mem_cons_self
        simp [TreeCRDT.insertionStep, under x List.mem_cons_self, differs]
      rw [List.cons_append, visit_cons_of_more step]
      exact induction
        (fun y member => under y (List.mem_cons_of_mem _ member))
        (fun y member => other y (List.mem_cons_of_mem _ member))

/-- Skipping goes past the siblings with greater identifiers. -/
theorem skip_map_op (op : MoveOp) (rest : List Move) :
    siblingInsertion.skip op (rest.map Move.op) =
      (rest.takeWhile fun x => op.opID ≤ x.opID).map Move.op ++
        op :: (rest.dropWhile fun x => op.opID ≤ x.opID).map Move.op := by
  induction rest with
  | nil => rfl
  | cons x rest induction =>
      by_cases less : x.opID < op.opID
      · simp [CausalInsertion.skip, less, less.not_ge]
      · have skipped : ¬ siblingInsertion.id x.op < siblingInsertion.id op := less
        rw [List.map_cons, CausalInsertion.skip, if_neg skipped, induction]
        simp [not_lt.mp less]

end Scan

section Place

variable {K : Fracdex} {state : TreeCRDT} {op : MoveOp}

/-- The siblings under the parent, then everything under later parents. -/
theorem TreeCRDT.Valid.ascend_parent (valid : state.Valid K) (parent : String) :
    KeyedList.ascend Move.parentOrder (Move.pivot parent "").parentOrder
        state.tree =
      siblings state.tree parent ++
        state.tree.filter fun x => parent < x.parent := by
  have split := KeyedList.ascend_group valid.tree_sorted parent ""
  refine split.trans ?_
  congr 1
  exact List.filter_eq_self.mpr fun x _ => by simp [empty_le_string]

/--
The insertion point lies between the siblings that come before and after the
operation in the order of causal insertion.
-/
theorem findInsertionPoint_spec (valid : state.Valid K)
    (fresh : ∀ x ∈ state.log, x.opID ≠ op.opID)
    (anchored : Anchored op (siblings state.tree op.parent)) :
    ∃ before after, siblings state.tree op.parent = before ++ after ∧
      state.findInsertionPoint op.opID op.parent op.left op.leftOrigin =
        .ok (.ok (lastKey before, headKey after)) ∧
      siblingInsertion.insert op
          ((siblings state.tree op.parent).map Move.op) =
        before.map Move.op ++ op :: after.map Move.op := by
  have under : ∀ x ∈ siblings state.tree op.parent, x.parent = op.parent :=
    fun x member => (mem_siblings.mp member).2
  have freshHere : ∀ x ∈ siblings state.tree op.parent, x.opID ≠ op.opID :=
    fun x member => fresh x (valid.mem_tree.mp (mem_siblings.mp member).1)
  have beyond : ∀ x ∈ state.tree.filter fun x => op.parent < x.parent,
      op.parent < x.parent := by simp
  rw [TreeCRDT.findInsertionPoint, valid.ascend_parent]
  generalize siblings state.tree op.parent = moves at *
  by_cases isHead : op.left = "" ∧ op.leftOrigin = ""
  · refine ⟨moves.takeWhile fun x => op.opID ≤ x.opID,
      moves.dropWhile fun x => op.opID ≤ x.opID, ?_, ?_, ?_⟩
    · exact List.takeWhile_append_dropWhile.symm
    · simp only [isHead, and_self, decide_true]
      rw [visit_found under beyond freshHere]
      rfl
    · rw [CausalInsertion.insert,
        if_pos ((siblingInsertion_isHead op).mpr isHead), skip_map_op]
  · have notHead : ¬ siblingInsertion.isHead op = true :=
      fun head => isHead ((siblingInsertion_isHead op).mp head)
    obtain ⟨anchor, member, refers⟩ := anchored.resolve_left notHead
    have named : ∃ x ∈ moves, x.block = op.left ∧
        x.opID.origin = op.leftOrigin := by
      exact ⟨anchor, member,
        ((siblingInsertion_refersTo op anchor.op).mp refers).2⟩
    obtain ⟨front, first, rest, rfl, isFirst, others⟩ :=
      exists_first_split named
    refine ⟨front ++ first :: rest.takeWhile fun x => op.opID ≤ x.opID,
      rest.dropWhile fun x => op.opID ≤ x.opID, ?_, ?_, ?_⟩
    · simp [List.takeWhile_append_dropWhile]
    · have notFound : decide (op.left = "" ∧ op.leftOrigin = "") = false := by
        simpa using isHead
      have firstParent := under first (by simp)
      have step : TreeCRDT.insertionStep op.opID op.parent op.left
          op.leftOrigin (false, "", "") first =
            .ok ((true, first.fracdex, ""), true) := by
        simp [TreeCRDT.insertionStep, firstParent, isFirst]
      rw [notFound, List.append_assoc, visit_search
        (fun x inFront => under x (by simp [inFront])) others,
        List.cons_append, visit_cons_of_more step, visit_found
          (fun x inRest => under x (by simp [inRest])) beyond
          (fun x inRest => freshHere x (by simp [inRest]))]
      simp [lastKey]
    · rw [CausalInsertion.insert, if_neg notHead, List.map_append,
        List.map_cons, CausalInsertion.after_append, skip_map_op]
      · simp
      · intro item inFront refers'
        obtain ⟨x, inFront', rfl⟩ := List.mem_map.mp inFront
        exact others x inFront'
          ((siblingInsertion_refersTo op x.op).mp refers').2
      · exact (siblingInsertion_refersTo op first.op).mpr
          ⟨under first (by simp), isFirst⟩

/-- Without the left sibling there is no insertion point. -/
theorem findInsertionPoint_error (valid : state.Valid K)
    (loose : ¬ Anchored op (siblings state.tree op.parent)) :
    state.findInsertionPoint op.opID op.parent op.left op.leftOrigin =
      .ok (.error s!"block {op.left}@{op.leftOrigin} not found under parent {op.parent}") := by
  have notHead : decide (op.left = "" ∧ op.leftOrigin = "") = false := by
    by_contra isHead
    refine loose (Or.inl ((siblingInsertion_isHead op).mpr ?_))
    simpa using isHead
  have others : ∀ x ∈ siblings state.tree op.parent,
      ¬ (x.block = op.left ∧ x.opID.origin = op.leftOrigin) := by
    intro x member named
    exact loose (Or.inr ⟨x, member, (siblingInsertion_refersTo op x.op).mpr
      ⟨(mem_siblings.mp member).2, named⟩⟩)
  rw [TreeCRDT.findInsertionPoint, valid.ascend_parent, notHead, visit_search
    (fun x member => (mem_siblings.mp member).2) others,
    visit_later (by simp)]
  rfl

/-! ## Accepted operations -/

/-- The state can integrate the operation. -/
structure Accepts (state : TreeCRDT) (op : MoveOp) : Prop where
  fresh : ∀ x ∈ state.log, x.opID ≠ op.opID
  single : ∀ x ∈ state.log,
    ¬ (x.block = op.block ∧ x.opID.origin = op.opID.origin)
  left_ne_trash : op.left ≠ trashNodeID
  left_named : op.left ≠ "" → op.leftOrigin ≠ ""
  anchored : Anchored op (siblings state.tree op.parent)

/-- The state after the operation entered it as the move `x`. -/
structure Integrated (K : Fracdex) (state : TreeCRDT) (op : MoveOp) (x : Move)
    (state' : TreeCRDT) : Prop where
  op_eq : x.op = op
  valid : state'.Valid K
  log_eq : state'.log = KeyedList.set Move.opID x state.log
  inserted : ∃ before after,
    siblings state.tree op.parent = before ++ after ∧
      siblings state'.tree op.parent = before ++ x :: after ∧
      siblingInsertion.insert op
          ((siblings state.tree op.parent).map Move.op) =
        before.map Move.op ++ op :: after.map Move.op
  others : ∀ parent, parent ≠ op.parent →
    siblings state'.tree parent = siblings state.tree parent

/-- A new operation can be added to the log. -/
theorem logSet_eq_ok {log : List Move} {x : Move}
    (fresh : ∀ y ∈ log, y.opID ≠ x.opID) :
    logSet log x = .ok (KeyedList.set Move.opID x log) := by
  have noDuplicate : ¬ (log.any fun y => y.opID = x.opID) := by
    simpa using fresh
  rw [logSet, if_neg noDuplicate, pure_eq_ok]

/-- A move with a free key can be added to the tree. -/
theorem treeSet_eq_ok {tree : List Move} {x : Move}
    (free : ∀ y ∈ tree, y.parentOrder ≠ x.parentOrder) :
    treeSet tree x = .ok (KeyedList.set Move.parentOrder x tree) := by
  have noDuplicate :
      ¬ (tree.any fun y => y.parentOrder = x.parentOrder ∧ y ≠ x) := by
    simp only [List.any_eq_true, decide_eq_true_eq, not_exists, not_and]
    exact fun y member same => absurd same (free y member)
  rw [treeSet, if_neg noDuplicate, pure_eq_ok]

/-- A move with a fractional index between two siblings has a free place. -/
theorem parentOrder_free {tree front back : List Move} {x : Move}
    (split : siblings tree x.parent = front ++ back)
    (above : ∀ y ∈ front, y.fracdex < x.fracdex)
    (below : ∀ y ∈ back, x.fracdex < y.fracdex) :
    ∀ y ∈ tree, y.parentOrder ≠ x.parentOrder := by
  intro y member same
  have pair : y.parent = x.parent ∧ y.fracdex = x.fracdex :=
    Prod.mk.inj (toLex_inj.mp same)
  have inGroup : y ∈ front ++ back := split ▸ mem_siblings.mpr ⟨member, pair.1⟩
  rcases List.mem_append.mp inGroup with isFront | isBack
  · exact (above y isFront).ne pair.2
  · exact (below y isBack).ne' pair.2

/-- The state with one more move. -/
def TreeCRDT.withMove (state : TreeCRDT) (x : Move) : TreeCRDT where
  log := KeyedList.set Move.opID x state.log
  tree := KeyedList.set Move.parentOrder x state.tree
  origins := fun block origin =>
    if block = x.block ∧ origin = x.opID.origin then some x
    else state.origins block origin

/-- Adding a new move at a free key keeps the tree valid. -/
theorem TreeCRDT.Valid.withMove {x : Move} (valid : state.Valid K)
    (fresh : ∀ y ∈ state.log, y.opID ≠ x.opID)
    (free : ∀ y ∈ state.tree, y.parentOrder ≠ x.parentOrder)
    (isKey : K.IsKey x.fracdex)
    (single : ∀ y ∈ state.log,
      ¬ (y.block = x.block ∧ y.opID.origin = x.opID.origin)) :
    (state.withMove x).Valid K := by
  have mem_log : ∀ {y}, y ∈ (state.withMove x).log ↔ y = x ∨ y ∈ state.log :=
    KeyedList.mem_set_of_fresh fresh
  have mem_tree : ∀ {y}, y ∈ (state.withMove x).tree ↔ y = x ∨ y ∈ state.tree :=
    KeyedList.mem_set_of_fresh free
  constructor
  · exact KeyedList.sorted_set valid.log_sorted x
  · exact KeyedList.sorted_set valid.tree_sorted x
  · intro y
    rw [mem_log, mem_tree, valid.mem_tree]
  · intro y member
    rcases mem_log.mp member with rfl | old
    · exact isKey
    · exact valid.isKey old
  · intro block origin y
    rw [mem_log]
    change (if block = x.block ∧ origin = x.opID.origin then some x
      else state.origins block origin) = some y ↔ _
    by_cases here : block = x.block ∧ origin = x.opID.origin
    · rw [if_pos here, here.1, here.2]
      constructor
      · rintro ⟨rfl⟩
        exact ⟨Or.inl rfl, rfl, rfl⟩
      · rintro ⟨rfl | old, named⟩
        · rfl
        · exact absurd named (single y old)
    · rw [if_neg here, valid.origins_eq]
      constructor
      · exact fun old => ⟨Or.inr old.1, old.2⟩
      · rintro ⟨rfl | old, named⟩
        · exact absurd ⟨named.1.symm, named.2.symm⟩ here
        · exact ⟨old, named⟩

/-- Integrating an acceptable operation succeeds. -/
theorem integrate_spec (valid : state.Valid K) (accepts : Accepts state op) :
    ∃ x state', state.integrateOp K op = .ok (.ok state') ∧
      Integrated K state op x state' := by
  obtain ⟨before, after, split, point, inserted⟩ :=
    findInsertionPoint_spec valid accepts.fresh accepts.anchored
  obtain ⟨key, returned, isKey, above, below⟩ :=
    Keyed.exists_between (split ▸ valid.keyed op.parent)
  set x : Move :=
    ⟨op.opID, op.block, op.parent, op.left, op.leftOrigin, key⟩ with shape
  have free := parentOrder_free (x := x) split above below
  have unused : state.origins op.block op.opID.origin = none := by
    refine Option.eq_none_iff_forall_ne_some.mpr fun y found => ?_
    obtain ⟨member, sameBlock, sameOrigin⟩ := valid.origins_eq.mp found
    exact accepts.single y member ⟨sameBlock, sameOrigin⟩
  refine ⟨x, state.withMove x, ?_, ?_⟩
  · rw [TreeCRDT.integrateOp, TreeCRDT.integrate, unused, Option.isSome_none,
      if_neg Bool.false_ne_true, if_neg accepts.left_ne_trash,
      if_neg (fun loose => accepts.left_named loose.1 loose.2), point]
    simp only [ok_bind, returned, ← shape, logSet_eq_ok (x := x) accepts.fresh,
      treeSet_eq_ok free, pure_eq_ok]
    rfl
  · have grouped : ∀ parent, siblings (state.withMove x).tree parent =
        if parent = x.parent then before ++ x :: after
        else siblings state.tree parent :=
      KeyedList.ofGroup_set x valid.tree_sorted split above below
    refine ⟨rfl, valid.withMove accepts.fresh free isKey accepts.single, rfl,
      ⟨before, after, split, ?_, inserted⟩, ?_⟩
    · rw [grouped, if_pos rfl]
    · intro parent differs
      rw [grouped, if_neg differs]

/-- Only acceptable operations are integrated. -/
theorem accepts_of_integrate_eq_ok {state' : TreeCRDT}
    (valid : state.Valid K)
    (success : state.integrateOp K op = .ok (.ok state')) :
    Accepts state op := by
  rw [TreeCRDT.integrateOp, TreeCRDT.integrate] at success
  split_ifs at success with used isTrash unnamed
  · simp at success
  · simp at success
  · simp at success
  obtain ⟨point, found, success⟩ := bind_eq_ok.mp success
  have anchored : Anchored op (siblings state.tree op.parent) := by
    by_contra loose
    rw [findInsertionPoint_error valid loose] at found
    obtain rfl := Except.ok.inj found
    simp at success
  have fresh : ∀ x ∈ state.log, x.opID ≠ op.opID := by
    intro x member same
    cases point with
    | error err => simp at success
    | ok keys =>
        cases keyed : K.keyBetween keys.1 keys.2 with
        | error err => simp [keyed] at success
        | ok idx =>
            have duplicate : state.log.any fun y => y.opID = op.opID :=
              List.any_eq_true.mpr ⟨x, member, by simpa using same⟩
            simp [keyed, logSet, duplicate, panicWith] at success
  refine ⟨fresh, ?_, isTrash, ?_, anchored⟩
  · rintro x member ⟨sameBlock, sameOrigin⟩
    refine used ?_
    rw [valid.origins_eq.mpr ⟨member, sameBlock, sameOrigin⟩]
    rfl
  · exact fun named empty => unnamed ⟨named, empty⟩

/-- What a successful integration did. -/
theorem integrated_of_integrate_eq_ok {state' : TreeCRDT}
    (valid : state.Valid K)
    (success : state.integrateOp K op = .ok (.ok state')) :
    ∃ x, Integrated K state op x state' := by
  obtain ⟨x, result, returned, integrated⟩ :=
    integrate_spec valid (accepts_of_integrate_eq_ok valid success)
  obtain rfl : state' = result :=
    Except.ok.inj (Except.ok.inj (success.symm.trans returned))
  exact ⟨x, integrated⟩

/-- After an integration the log has one move more. -/
theorem Integrated.mem_log {x y : Move} {state' : TreeCRDT}
    (integrated : Integrated K state op x state')
    (accepts : Accepts state op) :
    y ∈ state'.log ↔ y = x ∨ y ∈ state.log := by
  rw [integrated.log_eq, KeyedList.mem_set_of_fresh]
  have same : x.opID = op.opID := congrArg MoveOp.opID integrated.op_eq
  rw [same]
  exact accepts.fresh

/-- The new move stands where the operation was inserted. -/
theorem Integrated.siblings_eq {x : Move} {state' : TreeCRDT}
    {front back : List Move} (integrated : Integrated K state op x state')
    (fresh : ∀ y ∈ siblings state.tree op.parent, y.opID ≠ op.opID)
    (split : siblings state.tree op.parent = front ++ back)
    (inserted : siblingInsertion.insert op
      ((siblings state.tree op.parent).map Move.op) =
        front.map Move.op ++ op :: back.map Move.op) :
    siblings state'.tree op.parent = front ++ x :: back := by
  obtain ⟨before, after, split', result, inserted'⟩ := integrated.inserted
  have notMem : ∀ {moves : List Move},
      moves ⊆ siblings state.tree op.parent → op ∉ moves.map Move.op := by
    intro moves inside member
    obtain ⟨y, isIn, same⟩ := List.mem_map.mp member
    exact fresh y (inside isIn) (congrArg MoveOp.opID same)
  have frontMem : op ∉ front.map Move.op :=
    notMem (split ▸ List.subset_append_left front back)
  have backMem : op ∉ back.map Move.op :=
    notMem (split ▸ List.subset_append_right front back)
  have sameFront := ((List.append_cons_inj_of_notMem frontMem backMem).mp
    (inserted.symm.trans inserted')).1
  have sameLength : front.length = before.length := by
    simpa using congrArg List.length sameFront
  obtain ⟨rfl, rfl⟩ := List.append_inj (split.symm.trans split') sameLength
  exact result

end Place

end Mintter.Docmodel
