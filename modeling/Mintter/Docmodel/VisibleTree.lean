import Mintter.Docmodel.Replay

/-!
# The visible tree

The readers of a mutation iterate over its tree index, which holds the visible
and the hidden moves of all parents.  Over an index in good order each of them
is a function of the siblings under one parent.  When every block has at most
one visible move the visible tree is a finite forest, so it can be walked.
-/

namespace Mintter.Docmodel

open Mintter.Foundation

/-- A tree index in order, whose fractional indexes are keys. -/
structure TreeIndex (K : Fracdex) (tree : List Move) : Prop where
  sorted : KeyedList.Sorted Move.parentOrder tree
  isKey : ∀ x ∈ tree, K.IsKey x.fracdex

section Index

variable {K : Fracdex} {tree front back : List Move} {parent : String}

/-- The siblings are ordered by their keys. -/
theorem TreeIndex.keyed (index : TreeIndex K tree) (parent : String) :
    Keyed K (siblings tree parent) :=
  Keyed.siblings index.sorted index.isKey parent

theorem TreeCRDT.Valid.treeIndex {state : TreeCRDT} (valid : state.Valid K) :
    TreeIndex K state.tree where
  sorted := valid.tree_sorted
  isKey := fun _ member => valid.isKey (valid.mem_tree.mp member)

theorem TreeIndex.nodup (index : TreeIndex K tree) (parent : String) :
    (siblings tree parent).Nodup := (index.keyed parent).sorted.nodup

theorem TreeIndex.delete (index : TreeIndex K tree)
    (pivot : String ×ₗ String) :
    TreeIndex K (KeyedList.delete Move.parentOrder pivot tree) where
  sorted := KeyedList.sorted_delete index.sorted
  isKey := fun x member => index.isKey x (KeyedList.mem_delete.mp member).1

/-- From the start of a parent on: its children, then later parents. -/
theorem TreeIndex.ascend_parent (index : TreeIndex K tree) (parent : String) :
    KeyedList.ascend Move.parentOrder (Move.pivot parent "").parentOrder tree =
      siblings tree parent ++ tree.filter fun x => parent < x.parent := by
  refine (KeyedList.ascend_group index.sorted parent "").trans ?_
  congr 1
  exact List.filter_eq_self.mpr fun x _ => by simp [empty_le_string]

/-- Down from the end of a parent: its children, then earlier parents. -/
theorem TreeIndex.descend_parent (index : TreeIndex K tree)
    (parent : String) :
    KeyedList.descend Move.parentOrder (Move.pivot parent "~").parentOrder tree =
      (siblings tree parent).reverse ++
        (tree.filter fun x => x.parent < parent).reverse := by
  refine (KeyedList.descend_group index.sorted parent "~").trans ?_
  congr 2
  refine List.filter_eq_self.mpr fun x member => ?_
  have isKey := index.isKey x (mem_siblings.mp member).1
  simpa using (K.lt_tilde isKey).le

/-- From a move on: itself, its right siblings, then later parents. -/
theorem TreeIndex.ascend_move (index : TreeIndex K tree) {m : Move}
    (split : siblings tree m.parent = front ++ m :: back) :
    KeyedList.ascend Move.parentOrder m.parentOrder tree =
      m :: back ++ tree.filter fun x => m.parent < x.parent := by
  refine (KeyedList.ascend_group index.sorted m.parent m.fracdex).trans ?_
  have sorted := (index.keyed m.parent).sorted
  rw [siblings] at split
  rw [siblings, split] at sorted
  obtain ⟨_, sortedBack, across⟩ := List.pairwise_append.mp sorted
  have dropFront : (front.filter fun x => m.fracdex ≤ x.fracdex) = [] :=
    List.filter_eq_nil_iff.mpr fun x member => by
      simpa using across x member m List.mem_cons_self
  have keepBack : (back.filter fun x => m.fracdex ≤ x.fracdex) = back :=
    List.filter_eq_self.mpr fun x member => by
      simpa using ((List.pairwise_cons.mp sortedBack).1 x member).le
  simp [split, dropFront, keepBack]

end Index

namespace TreeMutation

/-- The visible moves under a parent, in order. -/
def visibleUnder (vt : TreeMutation) (parent : String) : List Move :=
  (siblings vt.tree parent).filter fun x => x ∉ vt.dirtyInvisibleMoves

section Readers

variable {K : Fracdex} {vt : TreeMutation} {front back : List Move}
    {parent : String} {m x : Move}

/-- The visible children are those moves below the parent that are not hidden. -/
theorem mem_visibleUnder : x ∈ vt.visibleUnder parent ↔
    x ∈ vt.tree ∧ x.parent = parent ∧ x ∉ vt.dirtyInvisibleMoves := by
  rw [visibleUnder, List.mem_filter, mem_siblings]
  simp [and_assoc]

/-- The children that are iterated are the visible ones. -/
theorem visibleChildren_eq (index : TreeIndex K vt.tree) (parent : String) :
    vt.visibleChildren parent = vt.visibleUnder parent := by
  have inside : ∀ x ∈ (siblings vt.tree parent).reverse,
      decide (x.parent = parent) = true := by
    intro x member
    simpa using (mem_siblings.mp (List.mem_reverse.mp member)).2
  have beyond : (((vt.tree.filter fun x => x.parent < parent).reverse).takeWhile
      fun x => x.parent = parent) = [] := by
    cases shape : (vt.tree.filter fun x => x.parent < parent).reverse with
    | nil => rfl
    | cons x rest =>
        have member : x ∈ (vt.tree.filter fun x => x.parent < parent).reverse :=
          shape ▸ List.mem_cons_self
        have less : x.parent < parent := by
          simpa using (List.mem_filter.mp (List.mem_reverse.mp member)).2
        exact List.takeWhile_cons_of_neg (by simpa using less.ne)
  have taken : ((siblings vt.tree parent).reverse ++
      (vt.tree.filter fun x => x.parent < parent).reverse).takeWhile
        (fun x => x.parent = parent) = (siblings vt.tree parent).reverse := by
    rw [List.takeWhile_append_of_pos inside, beyond, List.append_nil]
  rw [visibleChildren, addChild, index.descend_parent, taken,
    List.filter_reverse, List.reverse_reverse, visibleUnder]

/-- The block and operation of a left sibling, empty at the start. -/
def leftOf (left : Option Move) : String × OpID :=
  match left with
  | some x => (x.block, x.opID)
  | none => ("", OpID.zero)

/-- The visible left sibling is the last visible move up to the given one. -/
theorem visibleLeftSibling_upTo (index : TreeIndex K vt.tree) (m : Move)
    (invisible : Finset Move) :
    vt.visibleLeftSibling m invisible =
      leftOf (((siblings vt.tree m.parent).filter fun x =>
        x.fracdex ≤ m.fracdex ∧ x ≠ m ∧ x ∉ invisible).getLast?) := by
  have under : ∀ x ∈ siblings vt.tree m.parent, x.parent = m.parent :=
    fun x member => (mem_siblings.mp member).2
  have search : (((siblings vt.tree m.parent).filter fun x =>
      x.fracdex ≤ m.fracdex).reverse.find? fun x =>
        x ≠ m ∧ (x.parent ≠ m.parent ∨ x ∉ invisible)) =
      ((siblings vt.tree m.parent).filter fun x =>
        x.fracdex ≤ m.fracdex ∧ x ≠ m ∧ x ∉ invisible).getLast? := by
    rw [← List.head?_filter, List.filter_reverse, List.head?_reverse,
      List.filter_filter]
    congr 1
    refine List.filter_congr fun x member => ?_
    rw [← Bool.decide_and, decide_eq_decide]
    simp [under x member, and_comm]
  have down := KeyedList.descend_group index.sorted m.parent m.fracdex
  rw [visibleLeftSibling]
  simp only [show KeyedList.descend Move.parentOrder m.parentOrder vt.tree = _
    from down]
  rw [List.find?_append, show (List.find? _ (List.filter (fun x : Move =>
    decide (x.fracdex ≤ m.fracdex)) (siblings vt.tree m.parent)).reverse) = _
    from search]
  cases found : ((siblings vt.tree m.parent).filter fun x =>
      x.fracdex ≤ m.fracdex ∧ x ≠ m ∧ x ∉ invisible).getLast? with
  | some x =>
      have member := List.mem_of_getLast? found
      simp [under x (List.mem_filter.mp member).1, leftOf]
  | none =>
      rw [Option.none_or]
      cases other : ((vt.tree.filter fun x =>
          x.parent < m.parent).reverse.find? fun x =>
            x ≠ m ∧ (x.parent ≠ m.parent ∨ x ∉ invisible)) with
      | none => rfl
      | some x =>
          have member := List.mem_of_find?_eq_some other
          have less : x.parent < m.parent := by
            simpa using (List.mem_filter.mp (List.mem_reverse.mp member)).2
          simp [less.ne, leftOf]

/-- The visible left sibling is the last visible move before the given one. -/
theorem visibleLeftSibling_eq (index : TreeIndex K vt.tree)
    (split : siblings vt.tree m.parent = front ++ m :: back)
    (invisible : Finset Move) :
    vt.visibleLeftSibling m invisible =
      leftOf (front.filter fun x => x ∉ invisible).getLast? := by
  have sorted := (index.keyed m.parent).sorted
  rw [split] at sorted
  obtain ⟨_, sortedBack, across⟩ := List.pairwise_append.mp sorted
  have keepFront : (front.filter fun x =>
      x.fracdex ≤ m.fracdex ∧ x ≠ m ∧ x ∉ invisible) =
        front.filter fun x => x ∉ invisible := by
    refine List.filter_congr fun x member => ?_
    have less := across x member m List.mem_cons_self
    have differs : x ≠ m := fun same => less.ne (congrArg _ same)
    simp [less.le, differs]
  have dropBack : ((m :: back).filter fun x =>
      x.fracdex ≤ m.fracdex ∧ x ≠ m ∧ x ∉ invisible) = [] := by
    refine List.filter_eq_nil_iff.mpr fun x member => ?_
    rcases List.mem_cons.mp member with rfl | isBack
    · simp
    · simp [(List.pairwise_cons.mp sortedBack).1 x isBack]
  rw [visibleLeftSibling_upTo index, split, List.filter_append, keepFront,
    dropBack, List.append_nil]

/-- The first item that differs from `m`, when all of them do. -/
theorem firstIndex_eq {moves later : List Move}
    (differs : ∀ x ∈ moves ++ later, x ≠ m)
    (under : ∀ x ∈ moves, x.parent = parent)
    (beyond : ∀ x ∈ later, parent < x.parent) :
    (match (moves ++ later).find? fun x => x ≠ m with
      | some x => if x.parent = parent then x.fracdex else ""
      | none => "") = headKey moves := by
  have first : ((moves ++ later).find? fun x => x ≠ m) =
      (moves ++ later).head? := by
    rw [← List.head?_filter]
    congr 1
    exact List.filter_eq_self.mpr fun x member => by
      simpa using differs x member
  rw [first]
  cases moves with
  | cons x moves => simp [under x List.mem_cons_self]
  | nil =>
      cases later with
      | nil => rfl
      | cons x later => simp [(beyond x List.mem_cons_self).ne']

/-- The right index after a move is that of its right sibling. -/
theorem rightIndex_move (index : TreeIndex K vt.tree)
    (split : siblings vt.tree m.parent = front ++ m :: back) :
    vt.rightIndex m m.parent = headKey back := by
  have nodup := index.nodup m.parent
  rw [split] at nodup
  have inBack : ∀ x ∈ back, x ∈ siblings vt.tree m.parent := by
    intro x member
    rw [split]
    simp [member]
  simp only [rightIndex, index.ascend_move split, List.cons_append]
  rw [List.find?_cons_of_neg (by simp)]
  refine firstIndex_eq ?_ (fun x member => (mem_siblings.mp (inBack x member)).2)
    (fun x member => by simpa using (List.mem_filter.mp member).2)
  rintro x member rfl
  rcases List.mem_append.mp member with isBack | isLater
  · exact (List.nodup_cons.mp (List.nodup_append.mp nodup).2.1).1 isBack
  · have less : x.parent < x.parent := by
      simpa using (List.mem_filter.mp isLater).2
    exact less.false

/-- The right index at the start of a parent is that of its first child. -/
theorem rightIndex_pivot (index : TreeIndex K vt.tree) (parent : String) :
    vt.rightIndex (Move.pivot parent "") parent =
      headKey (siblings vt.tree parent) := by
  have differs : ∀ x ∈ vt.tree, x ≠ Move.pivot parent "" := by
    rintro x member rfl
    exact K.ne_empty (index.isKey _ member) rfl
  simp only [rightIndex, index.ascend_parent parent]
  refine firstIndex_eq ?_ (fun x member => (mem_siblings.mp member).2)
    (fun x member => by simpa using (List.mem_filter.mp member).2)
  intro x member
  rcases List.mem_append.mp member with isChild | isLater
  · exact differs x (mem_siblings.mp isChild).1
  · exact differs x (List.mem_filter.mp isLater).1

end Readers

/-! ## The forest of visible moves -/

/-- Every block has at most one visible move. -/
def OneVisible (vt : TreeMutation) : Prop :=
  ∀ x ∈ vt.tree, ∀ y ∈ vt.tree, x ∉ vt.dirtyInvisibleMoves →
    y ∉ vt.dirtyInvisibleMoves → x.block = y.block → x = y

/-- No block of the tree has the name of the root. -/
def BlocksNamed (vt : TreeMutation) : Prop :=
  ∀ x ∈ vt.tree, x.block ≠ ""

section Forest

variable {K : Fracdex} {vt : TreeMutation}

/-- The visible moves as a forest under the root. -/
def forest (vt : TreeMutation) (index : TreeIndex K vt.tree)
    (one : vt.OneVisible) (named : vt.BlocksNamed) : Forest Move String where
  below := vt.visibleUnder
  name := Move.block
  above := Move.parent
  root := ""
  nodes := vt.tree.filter fun x => x ∉ vt.dirtyInvisibleMoves
  below_above := fun member => (mem_visibleUnder.mp member).2.1
  below_mem := by
    intro label x member
    obtain ⟨inTree, _, visible⟩ := mem_visibleUnder.mp member
    simp [inTree, visible]
  below_nodup := fun parent => (index.nodup parent).filter _
  name_injective := by
    intro x y isNode isNode'
    obtain ⟨inTree, visible⟩ := List.mem_filter.mp isNode
    obtain ⟨inTree', visible'⟩ := List.mem_filter.mp isNode'
    exact one x inTree y inTree' (by simpa using visible)
      (by simpa using visible')
  name_ne_root := fun isNode => named _ (List.mem_filter.mp isNode).1

variable (index : TreeIndex K vt.tree) (one : vt.OneVisible)
    (named : vt.BlocksNamed)

/-- The visible moves in depth-first order. -/
def walk (vt : TreeMutation) (index : TreeIndex K vt.tree)
    (one : vt.OneVisible) (named : vt.BlocksNamed) : List Move :=
  (vt.forest index one named).walk

/-- With enough fuel the depth-first walk visits the whole visible forest. -/
theorem walkDFT_eq_visit {σ : Type} (fn : σ → Move → Outcome (σ × Bool))
    {fuel : Nat} (large : (vt.walk index one named).length ≤ fuel)
    (start : σ) :
    vt.walkDFT fuel fn start = visit fn (vt.walk index one named) start := by
  have kids : (fun m : Move => vt.visibleChildren m.block) =
      (vt.forest index one named).kids :=
    funext fun m => visibleChildren_eq index m.block
  rw [walkDFT, kids, visibleChildren_eq index ""]
  exact Forest.walkLoop_roots (vt.forest index one named) fn large start

/-- A walk runs the callback on the nodes of the forest in order. -/
theorem walkDFT_converges {σ : Type} (fn : σ → Move → Outcome (σ × Bool))
    (start : σ) :
    Converges (fun fuel => vt.walkDFT fuel fn start)
      (visit fn (vt.walk index one named) start) :=
  ⟨_, fun _ large => walkDFT_eq_visit index one named fn large start⟩

/-- A walk lists the pairs of parents and blocks. -/
theorem walked_converges :
    Converges (fun fuel => vt.walked fuel)
      (.ok ((vt.walk index one named).map fun m => (m.parent, m.block))) := by
  have collected : ∀ (moves : List Move) (pairs : List (String × String)),
      visit (fun pairs m => pure (pairs ++ [(m.parent, m.block)], true))
        moves pairs = .ok (pairs ++ moves.map fun m => (m.parent, m.block)) := by
    intro moves
    induction moves with
    | nil => simp
    | cons m moves induction =>
        intro pairs
        rw [visit_cons_of_more rfl, induction]
        simp
  have visited := walkDFT_converges index one named
    (fun (pairs : List (String × String)) m =>
      pure (pairs ++ [(m.parent, m.block)], true)) []
  rwa [collected, List.nil_append] at visited

end Forest

end TreeMutation

end Mintter.Docmodel
