import Mintter.Docmodel.VisibleTree

/-!
# Moving a block

`move` checks the call, gives up the previous winner of the block, places a new
move, and cleans up.  `Sound` is what every one of these steps keeps, for any
log at all: the tree index is in order, it holds the winners, only winners are
visible, and no block is above itself.
-/

namespace Mintter.Docmodel

open Mintter.Foundation

namespace TreeMutation

/-! ## The checks -/

/-- The move to insert after exists under the parent. -/
def LeftAt (vt : TreeMutation) (parent left : String) (pos : Move) : Prop :=
  left = "" ∧ pos = Move.pivot parent "" ∨
    left ≠ "" ∧ vt.dirtyWinners left = some pos ∧ pos.parent = parent

/-- The call can place the block after `pos`. -/
structure Placeable (vt : TreeMutation) (block parent left : String)
    (pos : Move) : Prop where
  block_ne_empty : block ≠ ""
  block_ne_left : block ≠ left
  left_ne_trash : left ≠ trashNodeID
  parent_ne_left : ¬ (parent ≠ "" ∧ left ≠ "" ∧ parent = left)
  parent_known : ¬ (parent ≠ "" ∧ parent ≠ trashNodeID ∧
    vt.parents parent = none)
  notAbove : ¬ vt.Above block parent
  leftAt : vt.LeftAt parent left pos

section Check

variable {vt : TreeMutation} {block parent left : String}

/-- The left position is found if there is one. -/
theorem leftPosition_eq_ok {pos : Move} :
    vt.leftPosition parent left = .ok pos ↔ vt.LeftAt parent left pos := by
  rw [leftPosition, LeftAt]
  by_cases atStart : left = ""
  · simp [atStart, eq_comm]
  · cases winner : vt.dirtyWinners left with
    | none => simp [atStart]
    | some leftPos =>
        by_cases under : leftPos.parent = parent
        · simp only [atStart, under, ne_eq, not_true_eq_false, ↓reduceIte,
            Except.ok.injEq, Option.some.injEq, false_and,
            not_false_eq_true, true_and, false_or]
          constructor
          · rintro rfl
            exact ⟨rfl, under⟩
          · exact fun found => found.1
        · simp only [atStart, under, ne_eq, not_false_eq_true, ↓reduceIte,
            reduceCtorEq, Option.some.injEq, false_and, true_and, false_or,
            false_iff]
          rintro ⟨rfl, found⟩
          exact under found

/--
The checks return, unless the trash is given as left sibling, and they pass
exactly for the placeable calls.
-/
theorem checkMove_spec (acyclic : vt.Acyclic)
    (left_ne_trash : left ≠ trashNodeID) (block parent : String) :
    ∃ result, Converges (fun fuel => vt.checkMove fuel block parent left)
        (.ok result) ∧
      ∀ pos, result = .ok pos ↔ vt.Placeable block parent left pos := by
  classical
  simp only [checkMove]
  by_cases empty : block = ""
  · simp only [if_pos empty]
    exact ⟨_, .const _, fun pos =>
      ⟨fun same => by simp at same, fun passed => absurd empty passed.1⟩⟩
  by_cases sameBlock : block = left
  · simp only [if_neg empty, if_pos sameBlock]
    exact ⟨_, .const _, fun pos =>
      ⟨fun same => by simp at same, fun passed => absurd sameBlock passed.2⟩⟩
  by_cases sameParent : parent ≠ "" ∧ left ≠ "" ∧ parent = left
  · simp only [if_neg empty, if_neg sameBlock, if_neg left_ne_trash,
      if_pos sameParent]
    exact ⟨_, .const _, fun pos =>
      ⟨fun same => by simp at same, fun passed => absurd sameParent passed.4⟩⟩
  by_cases unknown : parent ≠ "" ∧ parent ≠ trashNodeID ∧
      vt.parents parent = none
  · simp only [if_neg empty, if_neg sameBlock, if_neg left_ne_trash,
      if_neg sameParent, if_pos unknown]
    exact ⟨_, .const _, fun pos =>
      ⟨fun same => by simp at same, fun passed => absurd unknown passed.5⟩⟩
  simp only [if_neg empty, if_neg sameBlock, if_neg left_ne_trash,
    if_neg sameParent, if_neg unknown]
  have climb := isAncestor_converges acyclic block parent
  by_cases above : vt.Above block parent
  · rw [decide_eq_true above] at climb
    exact ⟨_, climb.bind (.const _), fun pos =>
      ⟨fun same => by simp at same, fun passed => absurd above passed.6⟩⟩
  · rw [decide_eq_false above] at climb
    exact ⟨_, climb.bind (.const _), fun pos => leftPosition_eq_ok.trans
      ⟨fun leftAt => ⟨empty, sameBlock, left_ne_trash, sameParent, unknown,
        above, leftAt⟩, fun passed => passed.leftAt⟩⟩

/-- With the trash as left sibling the checks reject the call or panic. -/
theorem checkMove_trash (vt : TreeMutation) (block parent : String) :
    (∃ err, ∀ fuel, vt.checkMove fuel block parent trashNodeID =
        .ok (.error err)) ∨
      ∀ fuel, vt.checkMove fuel block parent trashNodeID =
        panicWith "BUG: trash can't be left" := by
  by_cases empty : block = ""
  · exact Or.inl ⟨_, fun fuel => by rw [checkMove, if_pos empty, pure_eq_ok]⟩
  by_cases sameBlock : block = trashNodeID
  · exact Or.inl ⟨_, fun fuel => by
      rw [checkMove, if_neg empty, if_pos sameBlock, pure_eq_ok]⟩
  · right
    intro fuel
    rw [checkMove, if_neg empty, if_neg sameBlock, if_pos rfl]

/-- The outcome of the checks for any call. -/
theorem checkMove_outcome (acyclic : vt.Acyclic) (block parent left : String) :
    ∃ outcome, outcome ≠ .error .outOfFuel ∧
      Converges (fun fuel => vt.checkMove fuel block parent left) outcome ∧
      ∀ pos, outcome = .ok (.ok pos) ↔ vt.Placeable block parent left pos := by
  by_cases isTrash : left = trashNodeID
  · subst isTrash
    rcases checkMove_trash vt block parent with ⟨err, rejected⟩ | panics
    · exact ⟨.ok (.error err), by simp, ⟨0, fun fuel _ => rejected fuel⟩,
        fun pos => ⟨fun same => by simp at same,
          fun passed => absurd rfl passed.left_ne_trash⟩⟩
    · exact ⟨panicWith "BUG: trash can't be left", by simp [panicWith],
        ⟨0, fun fuel _ => panics fuel⟩,
        fun pos => ⟨fun same => by simp [panicWith] at same,
          fun passed => absurd rfl passed.left_ne_trash⟩⟩
  · obtain ⟨result, checked, passes⟩ := checkMove_spec acyclic
      isTrash block parent
    exact ⟨.ok result, by simp, checked, fun pos => by
      rw [← passes pos, Except.ok.injEq]⟩

end Check

/-! ## The steps of a placement -/

/-- Record the new move `m` at a free place. -/
def placed (vt : TreeMutation) (m : Move) : TreeMutation :=
  { vt with
    tree := KeyedList.set Move.parentOrder m vt.tree
    originalInvisibleMoves := insert m vt.originalInvisibleMoves
    dirtyWinners := Function.update vt.dirtyWinners m.block (some m) }

/-- Give up the winner of the block and note its new parent. -/
def vacated (vt : TreeMutation) (block parent : String) : TreeMutation :=
  { vt.retire (vt.dirtyWinners block) with
    parents := Function.update (vt.retire (vt.dirtyWinners block)).parents
      block (some parent) }

/-- Put the original move back in the place of the new move `m`. -/
def restored (vt : TreeMutation) (m original : Move) : TreeMutation :=
  { vt with
    tree := KeyedList.set Move.parentOrder original
      (KeyedList.delete Move.parentOrder m.parentOrder vt.tree)
    dirtyInvisibleMoves := (vt.dirtyInvisibleMoves.erase m).erase original
    originalInvisibleMoves := vt.originalInvisibleMoves.erase m
    dirtyWinners := Function.update vt.dirtyWinners m.block (some original) }

/-- `treeSet` only replaces a move by itself. -/
theorem treeSet_eq_ok_iff {tree tree' : List Move} {x : Move} :
    treeSet tree x = .ok tree' ↔
      (∀ y ∈ tree, y.parentOrder = x.parentOrder → y = x) ∧
        tree' = KeyedList.set Move.parentOrder x tree := by
  rw [treeSet]
  split_ifs with taken
  · simp only [List.any_eq_true, decide_eq_true_eq] at taken
    obtain ⟨y, member, same, differs⟩ := taken
    simp only [panicWith, reduceCtorEq, false_iff, not_and]
    exact fun agree => absurd (agree y member same) differs
  · simp only [List.any_eq_true, decide_eq_true_eq, not_exists, not_and,
      not_not] at taken
    simp only [pure_eq_ok, Except.ok.injEq]
    constructor
    · rintro rfl
      exact ⟨taken, rfl⟩
    · exact fun set => set.2.symm

/-- The original move can be restored if its key is free or its own. -/
theorem restore_eq_ok_iff {vt vt' : TreeMutation} {m original : Move} :
    vt.restore m original = .ok vt' ↔
      (∀ y ∈ KeyedList.delete Move.parentOrder m.parentOrder vt.tree,
        y.parentOrder = original.parentOrder → y = original) ∧
        vt' = vt.restored m original := by
  constructor
  · intro success
    obtain ⟨tree, set, result⟩ := bind_eq_ok.mp success
    obtain ⟨agree, rfl⟩ := treeSet_eq_ok_iff.mp set
    exact ⟨agree, (Except.ok.inj result).symm⟩
  · rintro ⟨agree, rfl⟩
    rw [restore, treeSet_eq_ok_iff.mpr ⟨agree, rfl⟩]
    rfl

section Place

variable {K : Fracdex} {vt : TreeMutation} {block parent left : String}
    {pos m : Move}

/-- A retired move does not change the parents. -/
@[simp]
theorem retire_parents (prev : Option Move) :
    (vt.retire prev).parents = vt.parents := by
  cases prev with
  | none => rfl
  | some prev =>
      simp only [retire]
      split_ifs <;> rfl

@[simp]
theorem retire_originalWinners (prev : Option Move) :
    (vt.retire prev).originalWinners = vt.originalWinners := by
  cases prev with
  | none => rfl
  | some prev =>
      simp only [retire]
      split_ifs <;> rfl

@[simp]
theorem retire_dirtyWinners (prev : Option Move) :
    (vt.retire prev).dirtyWinners = vt.dirtyWinners := by
  cases prev with
  | none => rfl
  | some prev =>
      simp only [retire]
      split_ifs <;> rfl

theorem mem_of_mem_retire {prev : Option Move} {x : Move}
    (member : x ∈ (vt.retire prev).tree) : x ∈ vt.tree := by
  cases prev with
  | none => exact member
  | some prev =>
      simp only [retire] at member
      split_ifs at member
      · exact (KeyedList.mem_delete.mp member).1
      · exact member

/-- A move at a free key can be recorded. -/
theorem record_eq_ok (free : ∀ x ∈ vt.tree, x.parentOrder ≠ m.parentOrder) :
    vt.record m = .ok (vt.placed m) := by
  rw [record, treeSet_eq_ok free]
  rfl

/-- There is a free key right after the left sibling. -/
theorem exists_place (index : TreeIndex K vt.tree)
    (present : pos = Move.pivot parent "" ∨
      pos ∈ vt.tree ∧ pos.parent = parent) :
    ∃ key before after, siblings vt.tree parent = before ++ after ∧
      K.keyBetween pos.fracdex (vt.rightIndex pos parent) = .ok key ∧
      K.IsKey key ∧ (∀ x ∈ before, x.fracdex < key) ∧
      (∀ x ∈ after, key < x.fracdex) ∧
      (pos = Move.pivot parent "" ∧ before = [] ∨
        ∃ front, before = front ++ [pos]) := by
  rcases present with rfl | ⟨member, rfl⟩
  · obtain ⟨key, returned, isKey, above, below⟩ :=
      Keyed.exists_between
        (show Keyed K ([] ++ siblings vt.tree parent) from index.keyed parent)
    refine ⟨key, [], _, rfl, ?_, isKey, above, below, Or.inl ⟨rfl, rfl⟩⟩
    rw [rightIndex_pivot index]
    exact returned
  · obtain ⟨front, back, split⟩ :=
      List.append_of_mem (mem_siblings.mpr ⟨member, rfl⟩)
    have shape : siblings vt.tree pos.parent = (front ++ [pos]) ++ back := by
      rw [split, List.append_assoc, List.singleton_append]
    obtain ⟨key, returned, isKey, above, below⟩ :=
      Keyed.exists_between (shape ▸ index.keyed pos.parent)
    refine ⟨key, front ++ [pos], back, shape, ?_, isKey, above, below,
      Or.inr ⟨front, rfl⟩⟩
    rw [rightIndex_move index split]
    rwa [lastKey_append_singleton] at returned

/-- What `placeMove` does once it has a key. -/
theorem placeMove_eq {key : String}
    (notIdle : ¬ ((vt.dirtyWinners block).map Move.parent = some trashNodeID ∧
      parent = trashNodeID))
    (keyed : K.keyBetween pos.fracdex
      ((vt.vacated block parent).rightIndex pos parent) = .ok key)
    (free : ∀ x ∈ (vt.vacated block parent).tree,
      x.parentOrder ≠ (parent, key)) :
    vt.placeMove K block parent left pos =
      ((vt.vacated block parent).placed
          ⟨OpID.zero, block, parent, "", "", key⟩).cleanup
        ⟨OpID.zero, block, parent, "", "", key⟩
        (if vt.dirtyWinners block = none then .created else .moved) := by
  rw [vacated] at keyed free
  have recorded := record_eq_ok (m := ⟨OpID.zero, block, parent, "", "", key⟩) free
  simp only [placeMove, if_neg notIdle, keyed, recorded, ok_bind]
  rfl

/-- A call that may place the block places it between two siblings. -/
theorem exists_placeMove (left : String)
    (index : TreeIndex K (vt.vacated block parent).tree)
    (present : pos = Move.pivot parent "" ∨
      pos ∈ (vt.vacated block parent).tree ∧ pos.parent = parent)
    (notIdle : ¬ ((vt.dirtyWinners block).map Move.parent = some trashNodeID ∧
      parent = trashNodeID)) :
    ∃ m before after, m.block = block ∧ m.parent = parent ∧
      m.opID = OpID.zero ∧ K.IsKey m.fracdex ∧
      siblings (vt.vacated block parent).tree parent = before ++ after ∧
      (∀ x ∈ before, x.fracdex < m.fracdex) ∧
      (∀ x ∈ after, m.fracdex < x.fracdex) ∧
      (pos = Move.pivot parent "" ∧ before = [] ∨
        ∃ front, before = front ++ [pos]) ∧
      (∀ x ∈ (vt.vacated block parent).tree, x.parentOrder ≠ m.parentOrder) ∧
      vt.placeMove K block parent left pos =
        ((vt.vacated block parent).placed m).cleanup m
          (if vt.dirtyWinners block = none then .created else .moved) := by
  obtain ⟨key, before, after, split, returned, isKey, above, below, place⟩ :=
    exists_place index present
  have free := parentOrder_free
    (x := ⟨OpID.zero, block, parent, "", "", key⟩) split above below
  exact ⟨⟨OpID.zero, block, parent, "", "", key⟩, before, after, rfl, rfl, rfl,
    isKey, split, above, below, place, free, placeMove_eq notIdle returned free⟩

/-- The move after which the block goes survives the vacation. -/
theorem LeftAt.present {pos : Move} (leftAt : vt.LeftAt parent left pos)
    (index : TreeIndex K vt.tree)
    (winner_mem : ∀ {b x}, vt.dirtyWinners b = some x → x ∈ vt.tree ∧ x.block = b)
    (block_ne_left : block ≠ left) :
    pos = Move.pivot parent "" ∨
      pos ∈ (vt.vacated block parent).tree ∧ pos.parent = parent := by
  rcases leftAt with ⟨-, rfl⟩ | ⟨-, winner, under⟩
  · exact Or.inl rfl
  · refine Or.inr ⟨?_, under⟩
    obtain ⟨member, named⟩ := winner_mem winner
    rw [TreeMutation.vacated]
    cases previous : vt.dirtyWinners block with
    | none => exact member
    | some prev =>
        obtain ⟨present, named'⟩ := winner_mem previous
        simp only [retire]
        split_ifs
        · refine KeyedList.mem_delete.mpr ⟨member, fun same => block_ne_left ?_⟩
          rw [← named', ← named,
            index.sorted.key_injective member present same]
        · exact member

end Place

/-! ## Soundness -/

/-- What every step of a mutation keeps. -/
structure Sound (K : Fracdex) (vt : TreeMutation) : Prop where
  index : TreeIndex K vt.tree
  acyclic : vt.Acyclic
  winner_mem : ∀ {block x}, vt.dirtyWinners block = some x →
    x ∈ vt.tree ∧ x.block = block
  original_eq : ∀ {block x}, vt.originalWinners block = some x →
    x.block = block ∧ K.IsKey x.fracdex
  visible_wins : ∀ {x}, x ∈ vt.tree → x ∉ vt.dirtyInvisibleMoves →
    vt.dirtyWinners x.block = some x
  hidden_mem : ∀ {x}, x ∈ vt.dirtyInvisibleMoves → x ∈ vt.tree

/-- The same while a block has no winner. -/
structure Vacant (K : Fracdex) (vt : TreeMutation) (block : String) :
    Prop where
  index : TreeIndex K vt.tree
  acyclic : vt.Acyclic
  winner_mem : ∀ {b x}, b ≠ block → vt.dirtyWinners b = some x →
    x ∈ vt.tree ∧ x.block = b
  original_eq : ∀ {b x}, vt.originalWinners b = some x →
    x.block = b ∧ K.IsKey x.fracdex
  visible_wins : ∀ {x}, x ∈ vt.tree → x ∉ vt.dirtyInvisibleMoves →
    x.block ≠ block ∧ vt.dirtyWinners x.block = some x
  hidden_mem : ∀ {x}, x ∈ vt.dirtyInvisibleMoves → x ∈ vt.tree

section Soundness

variable {K : Fracdex} {vt vt' : TreeMutation} {block parent left : String}
    {m original : Move}

/-- In a sound tree no block is visible twice. -/
theorem Sound.oneVisible (sound : Sound K vt) : vt.OneVisible := by
  intro x member y member' visible visible' same
  have wins := sound.visible_wins member visible
  rw [same, sound.visible_wins member' visible'] at wins
  exact (Option.some.inj wins).symm

/-- A replayed tree is sound. -/
theorem settle_sound {state : TreeCRDT} (valid : state.Valid K)
    (noSelf : state.NoSelfMove) : Sound K state.resolve.settle := by
  have replayed := resolve_replayed valid noSelf
  have tree_eq : state.resolve.settle.tree = state.tree := state.resolve_tree
  have mem_tree : ∀ {x}, x ∈ state.resolve.settle.tree ↔ x ∈ state.log := by
    intro x
    rw [tree_eq, valid.mem_tree]
  constructor
  · exact tree_eq ▸ valid.treeIndex
  · exact replayed.acyclic
  · intro block x wins
    obtain ⟨member, named⟩ := replayed.winner_mem wins
    exact ⟨mem_tree.mpr member, named⟩
  · intro block x wins
    obtain ⟨member, named⟩ := replayed.winner_mem wins
    exact ⟨named, valid.isKey member⟩
  · intro x member visible
    by_contra loses
    exact visible (replayed.invisible_iff.mpr ⟨mem_tree.mp member, loses⟩)
  · exact fun hidden => mem_tree.mpr (replayed.invisible_iff.mp hidden).1

/-- Items with different blocks are in different places. -/
theorem Sound.delete_keeps (sound : Sound K vt) {x y : Move}
    (member : x ∈ vt.tree) (member' : y ∈ vt.tree) (differs : x ≠ y) :
    x ∈ KeyedList.delete Move.parentOrder y.parentOrder vt.tree :=
  KeyedList.mem_delete.mpr ⟨member, fun same =>
    differs (sound.index.sorted.key_injective member member' same)⟩

/-- When a block leaves its place, the tree is vacant for it. -/
theorem Sound.vacated (sound : Sound K vt) (differs : ¬ SelfMove block parent)
    (notAbove : ¬ vt.Above block parent) :
    Vacant K (vt.vacated block parent) block := by
  have acyclic : (vt.vacated block parent).Acyclic := by
    refine sound.acyclic.update ?_ differs notAbove
    rw [TreeMutation.vacated, retire_parents]
  rw [TreeMutation.vacated] at acyclic ⊢
  cases winner : vt.dirtyWinners block with
  | none =>
      refine ⟨sound.index, by simpa [winner] using acyclic,
        fun _ wins => sound.winner_mem wins, sound.original_eq, ?_,
        sound.hidden_mem⟩
      intro x member visible
      have wins := sound.visible_wins member visible
      refine ⟨?_, wins⟩
      rintro rfl
      rw [winner] at wins
      cases wins
  | some prev =>
      obtain ⟨present, named⟩ := sound.winner_mem winner
      have otherBlock : ∀ {x}, x ∈ vt.tree → x ∉ vt.dirtyInvisibleMoves →
          x ≠ prev → x.block ≠ block ∧ vt.dirtyWinners x.block = some x := by
        intro x member visible notPrev
        have wins := sound.visible_wins member visible
        refine ⟨?_, wins⟩
        rintro rfl
        rw [winner] at wins
        exact notPrev (Option.some.inj wins).symm
      by_cases own : prev.opID.origin = ""
      · simp only [retire, own, ↓reduceIte, winner] at acyclic ⊢
        have inTree : ∀ {x}, x ∈ KeyedList.delete Move.parentOrder
            prev.parentOrder vt.tree → x ∈ vt.tree ∧ x ≠ prev := by
          intro x member
          obtain ⟨old, place⟩ := KeyedList.mem_delete.mp member
          exact ⟨old, fun same => place (congrArg _ same)⟩
        refine ⟨sound.index.delete _, acyclic, ?_, sound.original_eq, ?_, ?_⟩
        · intro b x otherName wins
          obtain ⟨member, named'⟩ := sound.winner_mem wins
          refine ⟨sound.delete_keeps member present ?_, named'⟩
          rintro rfl
          exact otherName (named'.symm.trans named)
        · intro x member visible
          obtain ⟨old, notPrev⟩ := inTree member
          refine otherBlock old (fun hidden => visible ?_) notPrev
          exact Finset.mem_erase.mpr ⟨notPrev, hidden⟩
        · intro x hidden
          obtain ⟨notPrev, hidden⟩ := Finset.mem_erase.mp hidden
          exact sound.delete_keeps (sound.hidden_mem hidden) present notPrev
      · simp only [retire, own, ↓reduceIte, winner] at acyclic ⊢
        refine ⟨sound.index, acyclic, fun _ wins => sound.winner_mem wins,
          sound.original_eq, ?_, ?_⟩
        · intro x member visible
          have apart := Finset.mem_insert.not.mp visible
          push Not at apart
          exact otherBlock member apart.2 apart.1
        · intro x hidden
          rcases Finset.mem_insert.mp hidden with rfl | hidden
          · exact present
          · exact sound.hidden_mem hidden

/-- A block that is placed into a vacant tree leaves it sound. -/
theorem Vacant.placed (vacant : Vacant K vt m.block)
    (isKey : K.IsKey m.fracdex)
    (free : ∀ x ∈ vt.tree, x.parentOrder ≠ m.parentOrder) :
    Sound K (vt.placed m) := by
  have mem_tree : ∀ {x}, x ∈ (vt.placed m).tree ↔ x = m ∨ x ∈ vt.tree :=
    KeyedList.mem_set_of_fresh free
  have winner_eq : ∀ {b}, (vt.placed m).dirtyWinners b =
      if b = m.block then some m else vt.dirtyWinners b :=
    Function.update_apply ..
  constructor
  · refine ⟨KeyedList.sorted_set vacant.index.sorted m, ?_⟩
    intro x member
    rcases mem_tree.mp member with rfl | old
    · exact isKey
    · exact vacant.index.isKey x old
  · exact vacant.acyclic
  · intro b x wins
    rw [winner_eq] at wins
    split_ifs at wins with same
    · obtain rfl := Option.some.inj wins
      exact ⟨mem_tree.mpr (Or.inl rfl), same.symm⟩
    · obtain ⟨member, named⟩ := vacant.winner_mem same wins
      exact ⟨mem_tree.mpr (Or.inr member), named⟩
  · exact vacant.original_eq
  · intro x member visible
    rw [winner_eq]
    rcases mem_tree.mp member with rfl | old
    · exact if_pos rfl
    · obtain ⟨otherName, wins⟩ := vacant.visible_wins old visible
      rw [if_neg otherName, wins]
  · exact fun hidden => mem_tree.mpr (Or.inr (vacant.hidden_mem hidden))

/-- Discarding the winner of a block leaves the tree sound. -/
theorem Sound.discard (sound : Sound K vt)
    (winner : vt.dirtyWinners m.block = some m) : Sound K (vt.discard m) := by
  have present := (sound.winner_mem winner).1
  have winner_eq : ∀ {b}, (vt.discard m).dirtyWinners b =
      if b = m.block then none else vt.dirtyWinners b :=
    Function.update_apply ..
  have inTree : ∀ {x}, x ∈ (vt.discard m).tree → x ∈ vt.tree ∧ x ≠ m := by
    intro x member
    obtain ⟨old, place⟩ := KeyedList.mem_delete.mp member
    exact ⟨old, fun same => place (congrArg _ same)⟩
  refine ⟨sound.index.delete _, sound.acyclic, ?_, sound.original_eq, ?_, ?_⟩
  · intro b x wins
    rw [winner_eq] at wins
    split_ifs at wins with same
    obtain ⟨member, named⟩ := sound.winner_mem wins
    refine ⟨sound.delete_keeps member present ?_, named⟩
    rintro rfl
    exact same named.symm
  · intro x member visible
    obtain ⟨old, notM⟩ := inTree member
    have wins := sound.visible_wins old fun hidden =>
      visible (Finset.mem_erase.mpr ⟨notM, hidden⟩)
    rw [winner_eq, if_neg, wins]
    intro same
    rw [same, winner] at wins
    exact notM (Option.some.inj wins).symm
  · intro x hidden
    obtain ⟨notM, hidden⟩ := Finset.mem_erase.mp hidden
    exact sound.delete_keeps (sound.hidden_mem hidden) present notM

/-- Restoring the original move of a block leaves the tree sound. -/
theorem Sound.restored (sound : Sound K vt)
    (winner : vt.dirtyWinners m.block = some m)
    (wasWinner : vt.originalWinners m.block = some original)
    (agree : ∀ y ∈ KeyedList.delete Move.parentOrder m.parentOrder vt.tree,
      y.parentOrder = original.parentOrder → y = original) :
    Sound K (vt.restored m original) := by
  have present := (sound.winner_mem winner).1
  obtain ⟨sameBlock, isKey⟩ := sound.original_eq wasWinner
  have index := sound.index.delete m.parentOrder
  have mem_tree : ∀ {x}, x ∈ (vt.restored m original).tree ↔
      x = original ∨ x ∈ vt.tree ∧ x.parentOrder ≠ m.parentOrder := by
    intro x
    rw [← KeyedList.mem_delete]
    exact KeyedList.mem_set_of_agree index.sorted agree
  have winner_eq : ∀ {b}, (vt.restored m original).dirtyWinners b =
      if b = m.block then some original else vt.dirtyWinners b :=
    Function.update_apply ..
  refine ⟨⟨KeyedList.sorted_set index.sorted original, ?_⟩, sound.acyclic, ?_,
    sound.original_eq, ?_, ?_⟩
  · intro x member
    rcases mem_tree.mp member with rfl | ⟨old, -⟩
    · exact isKey
    · exact sound.index.isKey x old
  · intro b x wins
    rw [winner_eq] at wins
    split_ifs at wins with same
    · obtain rfl := Option.some.inj wins
      exact ⟨mem_tree.mpr (Or.inl rfl), sameBlock.trans same.symm⟩
    · obtain ⟨member, named⟩ := sound.winner_mem wins
      refine ⟨mem_tree.mpr (Or.inr ⟨member, fun place => same ?_⟩), named⟩
      rw [← named, sound.index.sorted.key_injective member present place]
  · intro x member visible
    rw [winner_eq]
    rcases mem_tree.mp member with rfl | ⟨old, place⟩
    · rw [if_pos sameBlock]
    · have notM : x ≠ m := fun same => place (congrArg _ same)
      by_cases isOriginal : x = original
      · rw [isOriginal, if_pos sameBlock]
      have wins := sound.visible_wins old fun hidden => visible
        (Finset.mem_erase.mpr ⟨isOriginal, Finset.mem_erase.mpr ⟨notM, hidden⟩⟩)
      rw [if_neg, wins]
      intro same
      rw [same, winner] at wins
      exact notM (Option.some.inj wins).symm
  · intro x hidden
    obtain ⟨notM, hidden⟩ :=
      Finset.mem_erase.mp (Finset.mem_erase.mp hidden).2
    refine mem_tree.mpr (Or.inr ⟨sound.hidden_mem hidden, fun place => notM ?_⟩)
    exact sound.index.sorted.key_injective (sound.hidden_mem hidden) present place

/-- The cleanup keeps the new move, discards it, or restores the original. -/
theorem cleanup_cases {effect : MoveEffect}
    {result : Except String MoveEffect}
    (cleaned : vt.cleanup m effect = .ok (vt', result)) :
    vt' = vt ∨ vt' = vt.discard m ∨
      ∃ original, vt.originalWinners m.block = some original ∧
        (∀ y ∈ KeyedList.delete Move.parentOrder m.parentOrder vt.tree,
          y.parentOrder = original.parentOrder → y = original) ∧
        vt' = vt.restored m original := by
  rw [TreeMutation.cleanup] at cleaned
  cases wasWinner : vt.originalWinners m.block with
  | none =>
      simp only [wasWinner] at cleaned
      split_ifs at cleaned
      · obtain ⟨rfl, -⟩ := Prod.mk.inj (Except.ok.inj cleaned)
        exact Or.inr (Or.inl rfl)
      · obtain ⟨rfl, -⟩ := Prod.mk.inj (Except.ok.inj cleaned)
        exact Or.inl rfl
  | some original =>
      simp only [wasWinner] at cleaned
      split_ifs at cleaned
      · exact absurd cleaned (by simp [panicWith])
      · obtain ⟨restored, succeeded, cleaned⟩ := bind_eq_ok.mp cleaned
        obtain ⟨rfl, -⟩ := Prod.mk.inj (Except.ok.inj cleaned)
        obtain ⟨agree, rfl⟩ := restore_eq_ok_iff.mp succeeded
        exact Or.inr (Or.inr ⟨original, rfl, agree, rfl⟩)
      · obtain ⟨rfl, -⟩ := Prod.mk.inj (Except.ok.inj cleaned)
        exact Or.inl rfl
      · obtain ⟨rfl, -⟩ := Prod.mk.inj (Except.ok.inj cleaned)
        exact Or.inl rfl

/-- Cleaning up after a redundant move leaves the tree sound. -/
theorem Sound.cleanup (sound : Sound K vt)
    (winner : vt.dirtyWinners m.block = some m) {effect : MoveEffect}
    {result : Except String MoveEffect}
    (cleaned : vt.cleanup m effect = .ok (vt', result)) : Sound K vt' := by
  rcases cleanup_cases cleaned with rfl | rfl | ⟨original, wasWinner, agree, rfl⟩
  · exact sound
  · exact sound.discard winner
  · exact sound.restored winner wasWinner agree

/-- A placeable call places the block between two siblings and cleans up. -/
theorem Sound.placeMove_spec {pos : Move} (sound : Sound K vt)
    (placeable : vt.Placeable block parent left pos)
    (differs : ¬ SelfMove block parent)
    (notIdle : ¬ ((vt.dirtyWinners block).map Move.parent = some trashNodeID ∧
      parent = trashNodeID)) :
    ∃ m before after, m.block = block ∧ m.parent = parent ∧
      m.opID = OpID.zero ∧
      siblings (vt.vacated block parent).tree parent = before ++ after ∧
      (∀ x ∈ before, x.fracdex < m.fracdex) ∧
      (∀ x ∈ after, m.fracdex < x.fracdex) ∧
      (pos = Move.pivot parent "" ∧ before = [] ∨
        ∃ front, before = front ++ [pos]) ∧
      Sound K ((vt.vacated block parent).placed m) ∧
      vt.placeMove K block parent left pos =
        ((vt.vacated block parent).placed m).cleanup m
          (if vt.dirtyWinners block = none then .created else .moved) := by
  have vacant := sound.vacated differs placeable.notAbove
  have present := placeable.leftAt.present sound.index sound.winner_mem
    placeable.block_ne_left
  obtain ⟨m, before, after, rfl, under, zero, isKey, split, above, below, place,
    free, unfolded⟩ := exists_placeMove left vacant.index present notIdle
  exact ⟨m, before, after, rfl, under, zero, split, above, below, place,
    vacant.placed isKey free, unfolded⟩

/-- Placing a block leaves the tree sound. -/
theorem Sound.placeMove {pos : Move} (sound : Sound K vt)
    (placeable : vt.Placeable block parent left pos)
    (differs : ¬ SelfMove block parent) {result : Except String MoveEffect}
    (done : vt.placeMove K block parent left pos = .ok (vt', result)) :
    Sound K vt' := by
  by_cases idle : (vt.dirtyWinners block).map Move.parent = some trashNodeID ∧
      parent = trashNodeID
  · rw [TreeMutation.placeMove, if_pos idle] at done
    obtain ⟨rfl, -⟩ := Prod.mk.inj (Except.ok.inj done)
    exact sound
  · obtain ⟨m, _, _, named, -, -, -, -, -, -, soundPlaced, unfolded⟩ :=
      sound.placeMove_spec placeable differs idle
    rw [unfolded] at done
    exact soundPlaced.cleanup (Function.update_self ..) done

/-- A placement keeps the original winners and adds moves of its block only. -/
theorem Sound.placeMove_frame {pos : Move} (sound : Sound K vt)
    (placeable : vt.Placeable block parent left pos)
    (differs : ¬ SelfMove block parent) {result : Except String MoveEffect}
    (done : vt.placeMove K block parent left pos = .ok (vt', result)) :
    vt'.originalWinners = vt.originalWinners ∧
      ∀ x ∈ vt'.tree, x ∈ vt.tree ∨ x.block = block := by
  by_cases idle : (vt.dirtyWinners block).map Move.parent = some trashNodeID ∧
      parent = trashNodeID
  · rw [TreeMutation.placeMove, if_pos idle] at done
    obtain ⟨rfl, -⟩ := Prod.mk.inj (Except.ok.inj done)
    exact ⟨rfl, fun x member => Or.inl member⟩
  · obtain ⟨m, _, _, rfl, -, -, -, -, -, -, soundPlaced, unfolded⟩ :=
      sound.placeMove_spec placeable differs idle
    rw [unfolded] at done
    have winners : ((vt.vacated m.block parent).placed m).originalWinners =
        vt.originalWinners := retire_originalWinners _
    have added : ∀ x ∈ ((vt.vacated m.block parent).placed m).tree,
        x ∈ vt.tree ∨ x.block = m.block := by
      intro x member
      rcases KeyedList.mem_set_subset member with rfl | old
      · exact Or.inr rfl
      · exact Or.inl (mem_of_mem_retire old)
    rcases cleanup_cases done with rfl | rfl | ⟨original, wasWinner, _, rfl⟩
    · exact ⟨winners, added⟩
    · exact ⟨winners, fun x member =>
        added x (KeyedList.mem_delete.mp member).1⟩
    · refine ⟨winners, fun x member => ?_⟩
      rcases KeyedList.mem_set_subset member with rfl | old
      · exact Or.inr (soundPlaced.original_eq wasWinner).1
      · exact added x (KeyedList.mem_delete.mp old).1

theorem treeSet_ne_outOfFuel (tree : List Move) (x : Move) :
    treeSet tree x ≠ .error .outOfFuel := by
  rw [treeSet]
  split_ifs <;> simp [panicWith]

theorem cleanup_ne_outOfFuel (vt : TreeMutation) (m : Move)
    (effect : MoveEffect) : vt.cleanup m effect ≠ .error .outOfFuel := by
  rw [TreeMutation.cleanup]
  cases vt.originalWinners m.block with
  | none => simp only; split_ifs <;> simp
  | some original =>
      simp only
      split_ifs
      · simp [panicWith]
      · rw [TreeMutation.restore]
        have notRunning := treeSet_ne_outOfFuel
          (KeyedList.delete Move.parentOrder m.parentOrder vt.tree) original
        cases set : treeSet (KeyedList.delete Move.parentOrder m.parentOrder
          vt.tree) original with
        | error abort => simpa [set] using notRunning
        | ok tree => simp
      · simp
      · simp

theorem placeMove_ne_outOfFuel (K : Fracdex) (vt : TreeMutation)
    (block parent left : String) (pos : Move) :
    vt.placeMove K block parent left pos ≠ .error .outOfFuel := by
  simp only [TreeMutation.placeMove]
  split_ifs
  · simp
  all_goals
    cases K.keyBetween _ _ with
    | error err => simp
    | ok key =>
        simp only [record]
        cases set : treeSet _ _ with
        | error abort =>
            have notRunning := set ▸ treeSet_ne_outOfFuel _ _
            simpa using notRunning
        | ok tree => exact cleanup_ne_outOfFuel _ _ _

/-- A call of `move` returns or panics. -/
theorem move_terminates (K : Fracdex) (acyclic : vt.Acyclic)
    (block parent left : String) :
    Terminates fun fuel => vt.move K fuel block parent left := by
  obtain ⟨outcome, running, checked, -⟩ :=
    checkMove_outcome acyclic block parent left
  refine Terminates.bind ⟨outcome, running, checked⟩ fun result _ => ?_
  cases result with
  | error err => exact ⟨.ok (vt, .error err), by simp, .const _⟩
  | ok pos =>
      exact ⟨vt.placeMove K block parent left pos,
        placeMove_ne_outOfFuel K vt block parent left pos, .const _⟩

/-- What a call of `move` returns was rejected or is the work of `placeMove`. -/
theorem move_cases (acyclic : vt.Acyclic)
    {result : Except String MoveEffect}
    (done : Converges (fun fuel => vt.move K fuel block parent left)
      (.ok (vt', result))) :
    (vt' = vt ∧ ∃ err, result = .error err) ∨
      ∃ pos, vt.Placeable block parent left pos ∧
        vt.placeMove K block parent left pos = .ok (vt', result) := by
  obtain ⟨outcome, running, checked, passes⟩ :=
    checkMove_outcome acyclic block parent left
  cases outcome with
  | error abort => exact absurd (done.unique checked.bind_abort) (by simp)
  | ok checkResult =>
      cases checkResult with
      | error err =>
          have same := done.unique (checked.bind (.const _))
          obtain ⟨rfl, rfl⟩ := Prod.mk.inj (Except.ok.inj same)
          exact Or.inl ⟨rfl, err, rfl⟩
      | ok pos =>
          have same := done.unique (checked.bind (.const _))
          exact Or.inr ⟨pos, (passes pos).mp rfl, same.symm⟩

/-- A call of `move` keeps the mutation sound. -/
theorem Sound.move (sound : Sound K vt) (differs : ¬ SelfMove block parent)
    {result : Except String MoveEffect}
    (done : Converges (fun fuel => vt.move K fuel block parent left)
      (.ok (vt', result))) : Sound K vt' := by
  rcases move_cases sound.acyclic done with ⟨rfl, -⟩ | ⟨pos, placeable, placed⟩
  · exact sound
  · exact sound.placeMove placeable differs placed

end Soundness

end TreeMutation

end Mintter.Docmodel
