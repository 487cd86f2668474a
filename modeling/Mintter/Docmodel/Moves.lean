import Mathlib.Data.String.Basic
import Mintter.Foundation.Climb
import Mintter.Foundation.Forest
import Mintter.Foundation.KeyedList

/-!
# The block tree of a document

This module models the move log of a document (`treeCRDT`) and the mutable view
over it (`treeMutation`).  A move places a block under a parent, after a left
sibling.  The log is ordered by operation, the tree index by parent and
fractional index; both B-trees are sorted lists here.  A pointer to a move is
the move itself: two different pointers to equal moves never live in the same
collection.

The integrated moves are never removed.  A mutation replays the log to find out
which move of every block wins, and edits a copy of the tree index with moves
of its own, whose operation carries an empty origin.
-/

namespace Mintter.Docmodel

open Mintter.Foundation

/-! ## Operations and moves -/

/-- What a call of `move` did. -/
inductive MoveEffect where
  | none
  | created
  | moved
deriving DecidableEq, Repr

/-- The node that collects the deleted blocks. -/
def trashNodeID : String := "◊"

/-- What identifies a move: its author, the time of its change, and its index in it. -/
structure OpID where
  origin : String
  ts : Int
  idx : Int
deriving DecidableEq, Repr

namespace OpID

/-- The zero value, carried by the moves of a mutation. -/
def zero : OpID := ⟨"", 0, 0⟩

/-- Comparison of two operations, which are assumed to differ. -/
def less (o oo : OpID) : Outcome Bool :=
  if o.ts < oo.ts then pure true
  else if oo.ts < o.ts then pure false
  else if o.origin < oo.origin then pure true
  else if oo.origin < o.origin then pure false
  else if o.idx = oo.idx then panicWith "BUG: duplicate move"
  else pure (decide (o.idx < oo.idx))

/-- Timestamp first, then origin, then position in the change. -/
def rank (o : OpID) : Int ×ₗ String ×ₗ Int :=
  toLex (o.ts, toLex (o.origin, o.idx))

theorem rank_injective : Function.Injective rank := by
  rintro ⟨origin, ts, idx⟩ ⟨origin', ts', idx'⟩ same
  have pair : ts = ts' ∧ toLex (origin, idx) = toLex (origin', idx') :=
    Prod.mk.inj (toLex_inj.mp same)
  have tail : origin = origin' ∧ idx = idx' :=
    Prod.mk.inj (toLex_inj.mp pair.2)
  rw [pair.1, tail.1, tail.2]

instance : LinearOrder OpID := LinearOrder.lift' rank rank_injective

/-- The order of the identifiers, part by part. -/
theorem lt_iff {o oo : OpID} :
    o < oo ↔ o.ts < oo.ts ∨ o.ts = oo.ts ∧
      (o.origin < oo.origin ∨ o.origin = oo.origin ∧ o.idx < oo.idx) := by
  change rank o < rank oo ↔ _
  simp [rank, Prod.Lex.lt_iff]

/-- On different operations the comparison is the strict order. -/
theorem less_eq_ok {o oo : OpID} (differ : o ≠ oo) :
    o.less oo = .ok (decide (o < oo)) := by
  rcases lt_trichotomy o.ts oo.ts with tsLess | tsSame | tsGreater
  · simp [less, lt_iff, tsLess]
  · rcases lt_trichotomy o.origin oo.origin with
      originLess | originSame | originGreater
    · simp [less, lt_iff, tsSame, originLess]
    · have idxDiffer : o.idx ≠ oo.idx := by
        intro idxSame
        exact differ (by cases o; cases oo; simp_all)
      simp [less, lt_iff, tsSame, originSame, idxDiffer]
    · simp [less, lt_iff, tsSame, originGreater, originGreater.not_gt,
        originGreater.ne']
  · simp [less, lt_iff, tsGreater, tsGreater.not_gt, tsGreater.ne']

end OpID

/-- A move of a block below a parent, behind a left neighbour, and the key of its place. -/
structure Move where
  opID : OpID
  block : String
  parent : String
  left : String
  leftOrigin : String
  fracdex : String
deriving DecidableEq, Repr

namespace Move

/-- A search position in the tree index: no move has an empty fractional index. -/
def pivot (parent fracdex : String) : Move :=
  ⟨OpID.zero, "", parent, "", "", fracdex⟩

/-- The key of `ByParentOrder`. -/
abbrev parentOrder : Move → String ×ₗ String :=
  KeyedList.groupKey parent fracdex

/-- The move belongs to the mutation, not to the log. -/
def IsOwn (m : Move) : Prop := m.opID.origin = ""

instance (m : Move) : Decidable m.IsOwn :=
  inferInstanceAs (Decidable (_ = _))

end Move

/-! ## Fractional indexes -/

/--
The fractional indexing package: `keyBetween` returns a key strictly between
two keys, where an empty key leaves that side open.  Its keys are written in
letters and digits, so they sort before the tilde.
-/
structure Fracdex where
  IsKey : String → Prop
  keyBetween : String → String → Except String String
  ne_empty : ∀ {key}, IsKey key → key ≠ ""
  lt_tilde : ∀ {key}, IsKey key → key < "~"
  between : ∀ {left right}, (left = "" ∨ IsKey left) →
    (right = "" ∨ IsKey right) → (left < right ∨ right = "") →
    ∃ key, keyBetween left right = .ok key ∧ IsKey key ∧
      left < key ∧ (key < right ∨ right = "")

/-! ## The replicated state -/

/-- The integrated moves, by operation and by place. -/
structure TreeCRDT where
  log : List Move
  tree : List Move
  origins : String → String → Option Move

/-- A tree without moves. -/
def newTreeCRDT : TreeCRDT where
  log := []
  tree := []
  origins := fun _ _ => none

/-- Insert into the log.  Comparing two equal operations panics. -/
def logSet (log : List Move) (op : Move) : Outcome (List Move) :=
  if log.any fun x => x.opID = op.opID then panicWith "BUG: duplicate move"
  else pure (KeyedList.set Move.opID op log)

/-- Insert into the tree index.  Two moves at one place panic. -/
def treeSet (tree : List Move) (m : Move) : Outcome (List Move) :=
  if tree.any fun x => x.parentOrder = m.parentOrder ∧ x ≠ m then
    panicWith "BUG: duplicated fracdex within parent"
  else pure (KeyedList.set Move.parentOrder m tree)

namespace TreeCRDT

/--
One step of the scan for the insertion point: look for the left sibling, then
skip the moves that are concurrent to the operation.
-/
def insertionStep (opID : OpID) (parent block origin : String)
    (acc : Bool × String × String) (x : Move) :
    Outcome ((Bool × String × String) × Bool) :=
  let (found, left, right) := acc
  if parent < x.parent then pure ((found, left, right), false)
  else if !found then
    if x.parent = parent ∧ x.block = block ∧ x.opID.origin = origin then
      pure ((true, x.fracdex, right), true)
    else pure ((found, left, right), true)
  else do
    if ← x.opID.less opID then pure ((found, left, x.fracdex), false)
    else pure ((true, x.fracdex, right), true)

/-- Find the keys between which the move is to be placed. -/
def findInsertionPoint (state : TreeCRDT) (opID : OpID)
    (parent block origin : String) :
    Outcome (Except String (String × String)) := do
  let (found, left, right) ←
    visit (insertionStep opID parent block origin)
      (KeyedList.ascend Move.parentOrder (Move.pivot parent "").parentOrder
        state.tree)
      (decide (block = "" ∧ origin = ""), "", "")
  if found then pure (.ok (left, right))
  else pure (.error s!"block {block}@{origin} not found under parent {parent}")

/-- Add a move to the tree, once. -/
def integrate (K : Fracdex) (state : TreeCRDT) (opID : OpID)
    (block parent left leftOrigin : String) :
    Outcome (Except String TreeCRDT) :=
  if (state.origins block opID.origin).isSome then
    pure (.error s!"duplicate move operation per block and origin: {block}@{opID.origin}")
  else if left = trashNodeID then
    pure (.error "left must not be trash")
  else if left ≠ "" ∧ leftOrigin = "" then
    pure (.error "leftOrigin must be set if left is set")
  else do
    match ← state.findInsertionPoint opID parent left leftOrigin with
    | .error err => pure (.error err)
    | .ok (li, ri) =>
        match K.keyBetween li ri with
        | .error err =>
            pure (.error s!"failed to create fracdex between {li} and {ri}: {err}")
        | .ok idx => do
            let op : Move := ⟨opID, block, parent, left, leftOrigin, idx⟩
            let log ← logSet state.log op
            let tree ← treeSet state.tree op
            pure (.ok {
              log := log
              tree := tree
              origins := fun b o =>
                if b = block ∧ o = opID.origin then some op
                else state.origins b o })

end TreeCRDT

/-! ## Mutations -/

/-- The tree as it is edited: who won when it was loaded, who wins now, and what is hidden. -/
structure TreeMutation where
  tree : List Move
  parents : String → Option String
  originalWinners : String → Option Move
  dirtyWinners : String → Option Move
  originalInvisibleMoves : Finset Move
  dirtyInvisibleMoves : Finset Move

namespace TreeMutation

/-- The entry of a block in the parents map, empty when there is none. -/
def parentOf (vt : TreeMutation) (block : String) : String :=
  (vt.parents block).getD ""

/-- Climbing to the ancestors of a block ends here. -/
def IsTop (block : String) : Prop := block = "" ∨ block = trashNodeID

instance : DecidablePred IsTop :=
  fun block => inferInstanceAs (Decidable (block = "" ∨ block = trashNodeID))

/-- Whether `a` is met above `b`; the climb starts at the parent of `b`. -/
def isAncestor (fuel : Nat) (vt : TreeMutation) (a b : String) :
    Outcome Bool :=
  climbLoop vt.parentOf IsTop a fuel (vt.parentOf b)

/-- One move of the log: the later move of a block wins unless it makes a cycle. -/
def replay (fuel : Nat) (vt : TreeMutation) (x : Move) :
    Outcome TreeMutation := do
  let lastMove := vt.originalWinners x.block
  let unsorted ← match lastMove with
    | some last => x.opID.less last.opID
    | none => pure false
  if unsorted then panicWith "BUG: unsorted moves"
  else if ← vt.isAncestor fuel x.block x.parent then
    pure { vt with
      originalInvisibleMoves := insert x vt.originalInvisibleMoves }
  else
    pure { vt with
      originalInvisibleMoves :=
        match lastMove with
        | some last => insert last vt.originalInvisibleMoves
        | none => vt.originalInvisibleMoves
      originalWinners := Function.update vt.originalWinners x.block (some x)
      parents := Function.update vt.parents x.block (some x.parent) }

end TreeMutation

/-- Replay the log, and begin to edit the tree. -/
def TreeCRDT.mutate (fuel : Nat) (state : TreeCRDT) : Outcome TreeMutation := do
  let vt ← state.log.foldlM (TreeMutation.replay fuel) {
    tree := state.tree
    parents := fun _ => none
    originalWinners := fun _ => none
    dirtyWinners := fun _ => none
    originalInvisibleMoves := ∅
    dirtyInvisibleMoves := ∅ }
  pure { vt with
    dirtyWinners := vt.originalWinners
    dirtyInvisibleMoves := vt.originalInvisibleMoves }

namespace TreeMutation

/-! ### Reading the visible tree -/

/-- The nearest visible move before `m` under the same parent. -/
def visibleLeftSibling (vt : TreeMutation) (m : Move)
    (invisible : Finset Move) : String × OpID :=
  let before := KeyedList.descend Move.parentOrder m.parentOrder vt.tree
  match before.find? fun x => x ≠ m ∧ (x.parent ≠ m.parent ∨ x ∉ invisible) with
  | some x => if x.parent = m.parent then (x.block, x.opID) else ("", OpID.zero)
  | none => ("", OpID.zero)

/-- The visible children of a block from last to first, as they are pushed. -/
def addChild (vt : TreeMutation) (block : String) : List Move :=
  ((KeyedList.descend Move.parentOrder (Move.pivot block "~").parentOrder
      vt.tree).takeWhile fun x => x.parent = block).filter
    fun x => x ∉ vt.dirtyInvisibleMoves

/-- The stack has its top first, so pushed children appear in their order. -/
def visibleChildren (vt : TreeMutation) (block : String) : List Move :=
  (vt.addChild block).reverse

/-- Walk the visible tree in depth-first order. -/
def walkDFT {σ : Type} (fuel : Nat) (vt : TreeMutation)
    (fn : σ → Move → Outcome (σ × Bool)) (state : σ) : Outcome σ :=
  walkLoop (fun m => vt.visibleChildren m.block) fn fuel
    (vt.visibleChildren "") state

/-- The parent and block of every move of the walk. -/
def walked (fuel : Nat) (vt : TreeMutation) :
    Outcome (List (String × String)) :=
  vt.walkDFT fuel
    (fun pairs m => pure (pairs ++ [(m.parent, m.block)], true)) []

/-! ### Moving blocks -/

/-- The move of the left sibling, or a position before all children. -/
def leftPosition (vt : TreeMutation) (parent left : String) :
    Except String Move :=
  if left = "" then .ok (Move.pivot parent "")
  else match vt.dirtyWinners left with
    | none => .error s!"left block {left} is not in the tree"
    | some leftPos =>
        if leftPos.parent ≠ parent then
          .error s!"left block {left} is not a child of parent {parent}"
        else .ok leftPos

/-- The checks of `move`; they return the move to insert after. -/
def checkMove (fuel : Nat) (vt : TreeMutation)
    (block parent left : String) : Outcome (Except String Move) :=
  if block = "" then pure (.error "block must not be empty")
  else if block = left then
    pure (.error "block and left must not be the same")
  else if left = trashNodeID then panicWith "BUG: trash can't be left"
  else if parent ≠ "" ∧ left ≠ "" ∧ parent = left then
    pure (.error "parent and left must not be the same")
  else if parent ≠ "" ∧ parent ≠ trashNodeID ∧ vt.parents parent = none then
    pure (.error s!"desired parent block {parent} is not in the tree")
  else do
    if ← vt.isAncestor fuel block parent then
      pure (.error s!"cycle detected: block {block} is ancestor of {parent}")
    else pure (vt.leftPosition parent left)

/-- Give up the previous winner: drop our own move, hide an integrated one. -/
def retire (vt : TreeMutation) : Option Move → TreeMutation
  | none => vt
  | some prevWinner =>
      if prevWinner.opID.origin = "" then
        { vt with
          tree := KeyedList.delete Move.parentOrder prevWinner.parentOrder vt.tree
          dirtyInvisibleMoves := vt.dirtyInvisibleMoves.erase prevWinner
          originalInvisibleMoves := vt.originalInvisibleMoves.erase prevWinner }
      else
        { vt with
          dirtyInvisibleMoves := insert prevWinner vt.dirtyInvisibleMoves }

/-- The fractional index of the next move under the parent, if there is one. -/
def rightIndex (vt : TreeMutation) (currentLeft : Move) (parent : String) :
    String :=
  let after := KeyedList.ascend Move.parentOrder currentLeft.parentOrder vt.tree
  match after.find? fun x => x ≠ currentLeft with
  | some x => if x.parent = parent then x.fracdex else ""
  | none => ""

/-- Record the new move of a block as its winner. -/
def record (vt : TreeMutation) (m : Move) : Outcome TreeMutation := do
  let tree ← treeSet vt.tree m
  pure { vt with
    tree := tree
    originalInvisibleMoves := insert m vt.originalInvisibleMoves
    dirtyWinners := Function.update vt.dirtyWinners m.block (some m) }

/-- A block that only ever lived in this mutation was moved to trash: forget it. -/
def discard (vt : TreeMutation) (m : Move) : TreeMutation :=
  { vt with
    tree := KeyedList.delete Move.parentOrder m.parentOrder vt.tree
    dirtyInvisibleMoves := vt.dirtyInvisibleMoves.erase m
    originalInvisibleMoves := vt.originalInvisibleMoves.erase m
    dirtyWinners := Function.update vt.dirtyWinners m.block none }

/-- The new move has the effect of the original one, which is put back. -/
def restore (vt : TreeMutation) (m original : Move) :
    Outcome TreeMutation := do
  let tree ← treeSet
    (KeyedList.delete Move.parentOrder m.parentOrder vt.tree) original
  pure { vt with
    tree := tree
    dirtyInvisibleMoves := (vt.dirtyInvisibleMoves.erase m).erase original
    originalInvisibleMoves := vt.originalInvisibleMoves.erase m
    dirtyWinners := Function.update vt.dirtyWinners m.block (some original) }

/-- The naive cleanup after the new move `m` was recorded. -/
def cleanup (vt : TreeMutation) (m : Move) (effect : MoveEffect) :
    Outcome (TreeMutation × Except String MoveEffect) :=
  match vt.originalWinners m.block with
  | none =>
      if m.parent = trashNodeID then pure (vt.discard m, .ok .moved)
      else pure (vt, .ok effect)
  | some original =>
      if original.parent = m.parent then
        let current := vt.visibleLeftSibling m vt.dirtyInvisibleMoves
        if original ∈ vt.originalInvisibleMoves then
          panicWith "BUG: original winner is invisible"
        else
          let previous :=
            vt.visibleLeftSibling original vt.originalInvisibleMoves
          if previous.1 = current.1 ∧
              previous.2.origin = current.2.origin then do
            let vt ← vt.restore m original
            pure (vt, .ok .moved)
          else pure (vt, .ok effect)
      else pure (vt, .ok effect)

/-- Place the block after `currentLeft`, once the checks have passed. -/
def placeMove (K : Fracdex) (vt : TreeMutation)
    (block parent left : String) (currentLeft : Move) :
    Outcome (TreeMutation × Except String MoveEffect) :=
  let prevWinner := vt.dirtyWinners block
  if prevWinner.map Move.parent = some trashNodeID ∧ parent = trashNodeID then
    pure (vt, .ok .none)
  else
    let effect := if prevWinner = none then .created else .moved
    let vt := vt.retire prevWinner
    let vt := { vt with
      parents := Function.update vt.parents block (some parent) }
    match K.keyBetween currentLeft.fracdex (vt.rightIndex currentLeft parent) with
    | .error err =>
        pure (vt, .error s!"failed to create fracdex for move \"{block}\" \"{parent}\" \"{left}\": {err}")
    | .ok newIndex => do
        let m : Move := ⟨OpID.zero, block, parent, "", "", newIndex⟩
        let vt ← vt.record m
        vt.cleanup m effect

/-- Move or create a block.  An error comes with the mutation as it was left. -/
def move (K : Fracdex) (fuel : Nat) (vt : TreeMutation)
    (block parent left : String) :
    Outcome (TreeMutation × Except String MoveEffect) := do
  match ← vt.checkMove fuel block parent left with
  | .error err => pure (vt, .error err)
  | .ok currentLeft => vt.placeMove K block parent left currentLeft

/-! ### Producing operations -/

/-- Report an own move of the visible tree with its visible left sibling. -/
def reportMove {σ : Type} (vt : TreeMutation)
    (fn : σ → String → String → String → String → Outcome (σ × Bool))
    (state : σ) (m : Move) : Outcome (σ × Bool) :=
  if m.opID.origin ≠ "" then pure (state, true)
  else if m.parent = trashNodeID then
    panicWith "BUG: cleanup must only walk the visible block tree"
  else
    let (currentLeft, currentLeftID) :=
      vt.visibleLeftSibling m vt.dirtyInvisibleMoves
    fn state m.block m.parent currentLeft currentLeftID.origin

/-- Report an own move to the trash. -/
def reportDelete {σ : Type}
    (fn : σ → String → String → String → String → Outcome (σ × Bool))
    (state : σ) (m : Move) : Outcome (σ × Bool) :=
  if m.parent ≠ trashNodeID then pure (state, true)
  else if m.opID.origin ≠ "" then pure (state, true)
  else fn state m.block m.parent "" ""

/-- Our own moves of the visible tree in depth-first order, then the deletes. -/
def forEachMove {σ : Type} (fuel : Nat) (vt : TreeMutation)
    (fn : σ → String → String → String → String → Outcome (σ × Bool))
    (state : σ) : Outcome σ := do
  let state ← vt.walkDFT fuel (vt.reportMove fn) state
  visit (reportDelete fn)
    (KeyedList.ascend Move.parentOrder (Move.pivot trashNodeID "").parentOrder
      vt.tree) state

/-- Integrate one produced operation; the counter numbers them. -/
def commitMove (K : Fracdex) (origin : String) (ts : Int)
    (acc : TreeCRDT × Int) (block parent left leftOrigin : String) :
    Outcome ((TreeCRDT × Int) × Bool) := do
  let leftOrigin := if left ≠ "" ∧ leftOrigin = "" then origin else leftOrigin
  match ← acc.1.integrate K ⟨origin, ts, acc.2⟩ block parent left leftOrigin with
  | .error _ => pure (acc, false)
  | .ok state => pure ((state, acc.2 + 1), true)

/--
Integrate the produced operations.  The error of a failed integration is
assigned to a variable of the callback, so it stops the walk but the call
itself reports no error.
-/
def commit (K : Fracdex) (fuel : Nat) (vt : TreeMutation)
    (origin : String) (ts : Int) (state : TreeCRDT) :
    Outcome (TreeCRDT × Option String) := do
  let (state, _) ← vt.forEachMove fuel (commitMove K origin ts) (state, 0)
  pure (state, none)

end TreeMutation

end Mintter.Docmodel
