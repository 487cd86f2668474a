import Mintter.Docmodel.Drafts

/-!
# The structures of a mutation

A mutation keeps a tree index, a parents map, the winners, and two sets of
hidden moves.  `Kept` is what every call of `move` maintains for any log and any
arguments, even when the parents form a cycle: the searches of `move` read the
tree index, not the parents map.  In particular the shown moves are the winners.

The parents map follows the winners except in one branch: when a block that has
no original winner is moved to the trash its move is discarded, but its entry
stays in the parents map.
-/

namespace Mintter.Docmodel

open Mintter.Foundation

namespace TreeMutation

/-- The mutation with an empty parents map. -/
def unparented (vt : TreeMutation) : TreeMutation :=
  { vt with parents := fun _ => none }

/-- What every call keeps, whatever it is given. -/
structure Kept (K : Fracdex) (vt : TreeMutation) : Prop where
  sound : Sound K vt.unparented
  winner_shown : ∀ {block x}, vt.dirtyWinners block = some x →
    x ∉ vt.dirtyInvisibleMoves
  own_hidden : ∀ x ∈ vt.tree, x.IsOwn →
    x ∈ vt.originalInvisibleMoves ∨ vt.originalWinners x.block = some x

/-! ## The start -/

section Start

variable {K : Fracdex} {state : TreeCRDT} {fuel : Nat} {vt vt' : TreeMutation}
    {x : Move}

/-- Without parents there is no cycle. -/
theorem unparented_acyclic (vt : TreeMutation) : vt.unparented.Acyclic :=
  fun _ => .up (.halt (Or.inl rfl))

/-- Replaying a move hides it or makes it the winner. -/
theorem replay_cases (done : vt.replay fuel x = .ok vt') :
    vt' = vt.hide x ∨ vt' = vt.crown x := by
  have decided : ∀ unsorted : Bool,
      (if unsorted then panicWith "BUG: unsorted moves"
        else vt.isAncestor fuel x.block x.parent >>= fun above =>
          if above then pure (vt.hide x) else pure (vt.crown x)) = .ok vt' →
      vt' = vt.hide x ∨ vt' = vt.crown x := by
    intro unsorted done
    cases unsorted with
    | true => simp [panicWith] at done
    | false =>
        obtain ⟨above, -, done⟩ := bind_eq_ok.mp done
        cases above with
        | true => exact Or.inl (Except.ok.inj done).symm
        | false => exact Or.inr (Except.ok.inj done).symm
  rw [replay] at done
  cases wins : vt.originalWinners x.block with
  | none =>
      simp only [wins, pure_eq_ok, ok_bind] at done
      exact decided false (by simpa only [hide, crown, wins, pure_eq_ok] using done)
  | some last =>
      simp only [wins] at done
      obtain ⟨unsorted, -, done⟩ := bind_eq_ok.mp done
      exact decided unsorted (by simpa only [hide, crown, wins] using done)

theorem blank_ranked (state : TreeCRDT) : Ranked [] state.blank :=
  state.blank_replayed.ranked

/-- A mutation that starts has the winners of the whole log. -/
theorem mutate_ranked (valid : state.Valid K)
    (done : state.mutate fuel = .ok vt) :
    ∃ vt₀, vt = vt₀.settle ∧ vt₀.tree = state.tree ∧ Ranked state.log vt₀ := by
  obtain ⟨vt₀, replayed, settled⟩ := bind_eq_ok.mp done
  refine ⟨vt₀, (Except.ok.inj settled).symm, ?_⟩
  refine foldlM_preserves
    (fun seen vt => vt.tree = state.tree ∧ Ranked seen vt) ?_
    ⟨rfl, blank_ranked state⟩ replayed
  rintro seen x rest before after split ⟨tree_eq, ranked⟩ stepped
  have fresh : x ∉ seen := fun member =>
    (valid.later split x member).false
  rcases replay_cases stepped with rfl | rfl
  · exact ⟨tree_eq, ranked.hide fresh⟩
  · exact ⟨tree_eq, ranked.crown fresh⟩

/-- A tree that was just replayed is kept. -/
theorem mutate_kept (valid : state.Valid K)
    (done : state.mutate fuel = .ok vt) : Kept K vt := by
  obtain ⟨vt₀, rfl, tree_eq, ranked⟩ := mutate_ranked valid done
  have mem_tree : ∀ {x}, x ∈ vt₀.tree ↔ x ∈ state.log := by
    intro x
    rw [tree_eq, valid.mem_tree]
  constructor
  · constructor
    · exact tree_eq ▸ valid.treeIndex
    · exact unparented_acyclic _
    · intro block x wins
      obtain ⟨member, named⟩ := ranked.winner_mem wins
      exact ⟨mem_tree.mpr member, named⟩
    · intro block x wins
      obtain ⟨member, named⟩ := ranked.winner_mem wins
      exact ⟨named, valid.isKey member⟩
    · intro x member visible
      by_contra loses
      exact visible (ranked.invisible_iff.mpr ⟨mem_tree.mp member, loses⟩)
    · exact fun hidden => mem_tree.mpr (ranked.invisible_iff.mp hidden).1
  · intro block x wins hidden
    obtain ⟨-, named⟩ := ranked.winner_mem wins
    exact (ranked.invisible_iff.mp hidden).2 (named ▸ wins)
  · intro x member _
    by_cases wins : vt₀.originalWinners x.block = some x
    · exact Or.inr wins
    · exact Or.inl (ranked.invisible_iff.mpr ⟨mem_tree.mp member, wins⟩)

end Start

/-! ## The parts of a call -/

section Parts

variable {K : Fracdex} {vt vt' : TreeMutation} {fuel : Nat}
    {block parent left : String} {pos m original x : Move}

/-- The shown moves are the winners. -/
theorem Kept.shown_iff (kept : Kept K vt) :
    x ∈ vt.tree ∧ x ∉ vt.dirtyInvisibleMoves ↔
      vt.dirtyWinners x.block = some x := by
  constructor
  · exact fun shown => kept.sound.visible_wins shown.1 shown.2
  · exact fun wins => ⟨(kept.sound.winner_mem wins).1, kept.winner_shown wins⟩

/-- What the checks have established when they pass. -/
theorem checkMove_eq_ok
    (checked : vt.checkMove fuel block parent left = .ok (.ok pos)) :
    block ≠ "" ∧ block ≠ left ∧ vt.LeftAt parent left pos := by
  rw [checkMove] at checked
  split_ifs at checked with empty sameBlock isTrash sameParent unknown
  · simp at checked
  · simp at checked
  · simp [panicWith] at checked
  · simp at checked
  · simp at checked
  · obtain ⟨above, -, checked⟩ := bind_eq_ok.mp checked
    cases above with
    | true => simp at checked
    | false =>
        exact ⟨empty, sameBlock, leftPosition_eq_ok.mp (Except.ok.inj checked)⟩

/-- The outcome of the checks does not depend on the fuel. -/
theorem checkMove_unique {fuel' : Nat} {checked checked' : Except String Move}
    (returned : vt.checkMove fuel block parent left = .ok checked)
    (returned' : vt.checkMove fuel' block parent left = .ok checked') :
    checked = checked' := by
  rw [checkMove] at returned returned'
  split_ifs at returned returned'
  · exact Except.ok.inj (returned.symm.trans returned')
  · exact Except.ok.inj (returned.symm.trans returned')
  · simp [panicWith] at returned
  · exact Except.ok.inj (returned.symm.trans returned')
  · exact Except.ok.inj (returned.symm.trans returned')
  · obtain ⟨above, climbed, returned⟩ := bind_eq_ok.mp returned
    obtain ⟨above', climbed', returned'⟩ := bind_eq_ok.mp returned'
    obtain rfl := climbLoop_unique climbed climbed'
    exact Except.ok.inj (returned.symm.trans returned')

/-- What a call returns was rejected or is the work of `placeMove`. -/
theorem move_eq_ok {result : Except String MoveEffect}
    (done : vt.move K fuel block parent left = .ok (vt', result)) :
    (vt' = vt ∧ ∃ err,
        vt.checkMove fuel block parent left = .ok (.error err)) ∨
      ∃ pos, vt.checkMove fuel block parent left = .ok (.ok pos) ∧
        vt.placeMove K block parent left pos = .ok (vt', result) := by
  obtain ⟨checked, isChecked, done⟩ := bind_eq_ok.mp done
  cases checked with
  | error err =>
      obtain ⟨rfl, -⟩ := Prod.mk.inj (Except.ok.inj done)
      exact Or.inl ⟨rfl, err, isChecked⟩
  | ok pos => exact Or.inr ⟨pos, isChecked, done⟩

/-- What is hidden after the previous winner was given up. -/
theorem mem_retire_hidden {prev : Option Move}
    (hidden : x ∈ (vt.retire prev).dirtyInvisibleMoves) :
    x ∈ vt.dirtyInvisibleMoves ∨ prev = some x := by
  cases prev with
  | none => exact Or.inl hidden
  | some prev =>
      simp only [retire] at hidden
      split_ifs at hidden
      · exact Or.inl (Finset.mem_erase.mp hidden).2
      · rcases Finset.mem_insert.mp hidden with rfl | old
        · exact Or.inr rfl
        · exact Or.inl old

/-- Giving up a winner only shows its own move to the original tree. -/
theorem retire_originalHidden {prev : Option Move}
    (hidden : x ∈ vt.originalInvisibleMoves)
    (member : x ∈ (vt.retire prev).tree) :
    x ∈ (vt.retire prev).originalInvisibleMoves := by
  cases prev with
  | none => exact hidden
  | some prev =>
      simp only [retire] at member ⊢
      split_ifs at member ⊢
      · obtain ⟨-, place⟩ := KeyedList.mem_delete.mp member
        exact Finset.mem_erase.mpr ⟨fun same => place (congrArg _ same), hidden⟩
      · exact hidden

/-- The searches do not see which parent is noted for the block. -/
theorem Kept.vacated (kept : Kept K vt) (named : block ≠ "") (parent : String) :
    Vacant K (vt.vacated block parent).unparented block := by
  have differs : ¬ SelfMove block "" := fun selfMove => named selfMove.1
  have vacant := kept.sound.vacated differs
    (fun above => above.start_open (Or.inl rfl))
  have shape : ∀ prev : Option Move,
      (vt.retire prev).unparented = (vt.unparented.retire prev).unparented := by
    intro prev
    cases prev with
    | none => rfl
    | some prev =>
        simp only [retire, unparented]
        split_ifs <;> rfl
  have same : (vt.vacated block parent).unparented =
      (vt.unparented.vacated block "").unparented := shape _
  rw [same]
  exact ⟨vacant.index, unparented_acyclic _, vacant.winner_mem,
    vacant.original_eq, vacant.visible_wins, vacant.hidden_mem⟩

theorem placed_dirtyWinners (vt : TreeMutation) (m : Move) (b : String) :
    (vt.placed m).dirtyWinners b =
      if b = m.block then some m else vt.dirtyWinners b :=
  Function.update_apply ..

theorem discard_dirtyWinners (vt : TreeMutation) (m : Move) (b : String) :
    (vt.discard m).dirtyWinners b =
      if b = m.block then none else vt.dirtyWinners b :=
  Function.update_apply ..

theorem restored_dirtyWinners (vt : TreeMutation) (m original : Move)
    (b : String) : (vt.restored m original).dirtyWinners b =
      if b = m.block then some original else vt.dirtyWinners b :=
  Function.update_apply ..

@[simp]
theorem vacated_dirtyWinners (vt : TreeMutation) (block parent : String) :
    (vt.vacated block parent).dirtyWinners = vt.dirtyWinners :=
  retire_dirtyWinners _

/-- The new move at a free place becomes the shown move of its block. -/
theorem Kept.placed (kept : Kept K vt) (named : m.block ≠ "")
    (isKey : K.IsKey m.fracdex)
    (free : ∀ x ∈ (vt.vacated m.block parent).tree,
      x.parentOrder ≠ m.parentOrder) :
    Kept K ((vt.vacated m.block parent).placed m) := by
  have vacant := kept.vacated named parent
  have absent : m ∉ (vt.vacated m.block parent).tree :=
    fun member => free m member rfl
  constructor
  · exact vacant.placed isKey free
  · intro b x wins hidden
    rw [placed_dirtyWinners, vacated_dirtyWinners] at wins
    split_ifs at wins with same
    · obtain rfl := Option.some.inj wins
      exact absent (vacant.hidden_mem hidden)
    · have named' := (kept.sound.winner_mem wins).2
      rcases mem_retire_hidden hidden with old | previous
      · exact kept.winner_shown wins old
      · exact same (named'.symm.trans (kept.sound.winner_mem previous).2)
  · intro x member own
    rcases KeyedList.mem_set_subset member with rfl | old
    · exact Or.inl (Finset.mem_insert_self ..)
    · have originals : ((vt.vacated m.block parent).placed m).originalWinners =
          vt.originalWinners := retire_originalWinners _
      rw [originals]
      refine (kept.own_hidden x (mem_of_mem_retire old) own).imp_left ?_
      intro hidden
      exact Finset.mem_insert_of_mem (retire_originalHidden hidden old)

/-- Discarding the winner of a block keeps the tree. -/
theorem Kept.discard (kept : Kept K vt)
    (winner : vt.dirtyWinners m.block = some m) : Kept K (vt.discard m) := by
  constructor
  · exact kept.sound.discard winner
  · intro b x wins hidden
    rw [discard_dirtyWinners] at wins
    split_ifs at wins
    exact kept.winner_shown wins (Finset.mem_erase.mp hidden).2
  · intro x member own
    obtain ⟨old, place⟩ := KeyedList.mem_delete.mp member
    refine (kept.own_hidden x old own).imp_left fun hidden => ?_
    exact Finset.mem_erase.mpr ⟨fun same => place (congrArg _ same), hidden⟩

/-- Restoring the original move of a block keeps the tree. -/
theorem Kept.restored (kept : Kept K vt)
    (winner : vt.dirtyWinners m.block = some m)
    (wasWinner : vt.originalWinners m.block = some original)
    (agree : ∀ y ∈ KeyedList.delete Move.parentOrder m.parentOrder vt.tree,
      y.parentOrder = original.parentOrder → y = original) :
    Kept K (vt.restored m original) := by
  have named := (kept.sound.original_eq wasWinner).1
  constructor
  · exact kept.sound.restored winner wasWinner agree
  · intro b x wins hidden
    obtain ⟨notOriginal, hidden⟩ := Finset.mem_erase.mp hidden
    rw [restored_dirtyWinners] at wins
    split_ifs at wins
    · exact notOriginal (Option.some.inj wins).symm
    · exact kept.winner_shown wins (Finset.mem_erase.mp hidden).2
  · intro x member own
    rcases KeyedList.mem_set_subset member with rfl | old
    · exact Or.inr (named ▸ wasWinner)
    · obtain ⟨old, place⟩ := KeyedList.mem_delete.mp old
      refine (kept.own_hidden x old own).imp_left fun hidden => ?_
      exact Finset.mem_erase.mpr ⟨fun same => place (congrArg _ same), hidden⟩

/-- What the cleanup left behind, for any mutation. -/
theorem cleaned_of_cleanup {effect : MoveEffect}
    {result : Except String MoveEffect}
    (done : vt.cleanup m effect = .ok (vt', result)) :
    Overlay.Cleaned vt m vt' := by
  rw [cleanup] at done
  cases wasWinner : vt.originalWinners m.block with
  | none =>
      simp only [wasWinner] at done
      split_ifs at done with isTrash
      · obtain ⟨rfl, -⟩ := Prod.mk.inj (Except.ok.inj done)
        exact .discarded wasWinner isTrash
      · obtain ⟨rfl, -⟩ := Prod.mk.inj (Except.ok.inj done)
        exact .kept (by simp [wasWinner]) fun same => absurd same isTrash
  | some original =>
      simp only [wasWinner] at done
      have kept : ¬ Overlay.Redundant vt m original →
          Overlay.Cleaned vt m vt := by
        refine fun needed => .kept (fun other wasWinner' => ?_) (by simp [wasWinner])
        obtain rfl := Option.some.inj (wasWinner.symm.trans wasWinner')
        exact needed
      split_ifs at done with sameParent hidden sameLeft
      · simp [panicWith] at done
      · obtain ⟨next, succeeded, done⟩ := bind_eq_ok.mp done
        obtain ⟨rfl, -⟩ := Prod.mk.inj (Except.ok.inj done)
        obtain ⟨-, rfl⟩ := restore_eq_ok_iff.mp succeeded
        exact .restored wasWinner ⟨sameParent, sameLeft⟩
      · obtain ⟨rfl, -⟩ := Prod.mk.inj (Except.ok.inj done)
        exact kept fun redundant => sameLeft redundant.2
      · obtain ⟨rfl, -⟩ := Prod.mk.inj (Except.ok.inj done)
        exact kept fun redundant => sameParent redundant.1

/-- Cleaning up after a redundant move keeps the tree. -/
theorem Kept.cleanup (kept : Kept K vt)
    (winner : vt.dirtyWinners m.block = some m) {effect : MoveEffect}
    {result : Except String MoveEffect}
    (done : vt.cleanup m effect = .ok (vt', result)) : Kept K vt' := by
  rcases cleanup_cases done with rfl | rfl | ⟨original, wasWinner, agree, rfl⟩
  · exact kept
  · exact kept.discard winner
  · exact kept.restored winner wasWinner agree

/-- A call whose checks passed was idle, or placed a move and cleaned up. -/
theorem Kept.placeMove_spec (kept : Kept K vt)
    (checked : vt.checkMove fuel block parent left = .ok (.ok pos))
    {result : Except String MoveEffect}
    (done : vt.placeMove K block parent left pos = .ok (vt', result)) :
    parent = trashNodeID ∧ (vt.dirtyWinners block).map Move.parent =
        some trashNodeID ∧ vt' = vt ∨
      ∃ m, Placed K vt block parent pos m vt' ∧
        (∀ x ∈ (vt.vacated block parent).tree, x.parentOrder ≠ m.parentOrder) ∧
        Kept K ((vt.vacated block parent).placed m) ∧ Kept K vt' := by
  obtain ⟨named, differs, leftAt⟩ := checkMove_eq_ok checked
  by_cases idle : (vt.dirtyWinners block).map Move.parent = some trashNodeID ∧
      parent = trashNodeID
  · rw [TreeMutation.placeMove, if_pos idle] at done
    obtain ⟨rfl, -⟩ := Prod.mk.inj (Except.ok.inj done)
    exact Or.inl ⟨idle.2, idle.1, rfl⟩
  · have present := leftAt.present kept.sound.index kept.sound.winner_mem differs
    have index : TreeIndex K (vt.vacated block parent).tree :=
      (kept.vacated named parent).index
    obtain ⟨m, before, after, rfl, rfl, zero, isKey, split, above, below, place,
      free, unfolded⟩ := exists_placeMove left index present idle
    rw [unfolded] at done
    have keptPlaced := kept.placed named isKey free
    have winner : ((vt.vacated m.block m.parent).placed m).dirtyWinners m.block =
        some m := Function.update_self ..
    have grouped : ∀ label,
        siblings ((vt.vacated m.block m.parent).placed m).tree label =
          if label = m.parent then before ++ m :: after
          else siblings (vt.vacated m.block m.parent).tree label :=
      KeyedList.ofGroup_set m index.sorted split above below
    refine Or.inr ⟨m, ⟨rfl, rfl, congrArg OpID.origin zero,
      ⟨before, after, split, place, ?_⟩, ?_, cleaned_of_cleanup done⟩, free,
      keptPlaced, keptPlaced.cleanup winner done⟩
    · rw [grouped, if_pos rfl]
    · intro other differs
      rw [grouped, if_neg differs]

/-- Every call that returns keeps the invariant. -/
theorem Kept.move (kept : Kept K vt) {result : Except String MoveEffect}
    (done : vt.move K fuel block parent left = .ok (vt', result)) :
    Kept K vt' := by
  rcases move_eq_ok done with ⟨rfl, -⟩ | ⟨pos, checked, placed⟩
  · exact kept
  · rcases kept.placeMove_spec checked placed with
      ⟨-, -, rfl⟩ | ⟨_, -, -, -, kept'⟩
    · exact kept
    · exact kept'

end Parts

/-! ## The representation -/

/-- How the structures of a mutation fit together. -/
structure Represented (vt : TreeMutation) : Prop where
  parents_iff : ∀ block, vt.parents block ≠ none ↔ vt.dirtyWinners block ≠ none
  parent_eq : ∀ {block x}, vt.dirtyWinners block = some x →
    vt.parents block = some x.parent
  winner_shown : ∀ {block x}, vt.dirtyWinners block = some x →
    x ∈ vt.tree ∧ x.block = block ∧ x ∉ vt.dirtyInvisibleMoves
  others_hidden : ∀ x ∈ vt.tree, vt.dirtyWinners x.block ≠ some x →
    x ∈ vt.dirtyInvisibleMoves
  once : vt.OneVisible

/--
A call that passes the checks moves to the trash only blocks that the original
tree has.
-/
def TrashesOriginals (vt : TreeMutation) (call : Call) : Prop :=
  ∀ fuel pos,
    vt.checkMove fuel call.block call.parent call.left = .ok (.ok pos) →
    call.parent = trashNodeID → vt.originalWinners call.block ≠ none

/-- A block in the trash is a block of the original tree. -/
def TrashKnown (vt : TreeMutation) : Prop :=
  ∀ {block x}, vt.dirtyWinners block = some x → x.parent = trashNodeID →
    vt.originalWinners block ≠ none

section Representation

variable {K : Fracdex} {state : TreeCRDT} {vt vt' : TreeMutation} {fuel : Nat}
    {block parent left : String} {m : Move} {call : Call}

/-- The representation is what calls keep, and parents that follow the winners. -/
theorem Kept.represented_iff (kept : Kept K vt) :
    vt.Represented ↔
      ∀ block, vt.parents block = (vt.dirtyWinners block).map Move.parent := by
  constructor
  · intro represented block
    cases wins : vt.dirtyWinners block with
    | none => exact not_not.mp fun known =>
        (represented.parents_iff block).mp known wins
    | some x => exact represented.parent_eq wins
  · intro agree
    constructor
    · intro block
      rw [agree, ne_eq, Option.map_eq_none_iff]
    · intro block x wins
      rw [agree, wins, Option.map_some]
    · intro block x wins
      obtain ⟨member, named⟩ := kept.sound.winner_mem wins
      exact ⟨member, named, kept.winner_shown wins⟩
    · intro x member loses
      by_contra shown
      exact loses (kept.shown_iff.mp ⟨member, shown⟩)
    · exact kept.sound.oneVisible

/-- The parents and winners after a cleanup, where they agreed before. -/
theorem cleaned_parents (cleaned : Overlay.Cleaned vt m vt')
    (winner : vt.dirtyWinners m.block = some m)
    (agree : ∀ b, vt.parents b = (vt.dirtyWinners b).map Move.parent) :
    (∀ b, vt'.parents b = (vt'.dirtyWinners b).map Move.parent) ↔
      (m.parent = trashNodeID → vt.originalWinners m.block ≠ none) := by
  cases cleaned with
  | kept needed notNew => exact ⟨fun _ => notNew, fun _ => agree⟩
  | discarded isNew isTrash =>
      constructor
      · intro same
        have shape := same m.block
        rw [discard_dirtyWinners, if_pos rfl] at shape
        have noted := agree m.block
        rw [winner] at noted
        exact absurd (noted.symm.trans shape) (by simp)
      · exact fun known => absurd isNew (known isTrash)
  | restored wasWinner redundant =>
      constructor
      · intro _ _
        rw [wasWinner]
        simp
      · intro _ b
        rw [restored_dirtyWinners]
        split_ifs with same
        · subst same
          have noted := agree m.block
          rw [winner] at noted
          rw [Option.map_some, redundant.1]
          exact noted
        · exact agree b

/-- A tree that was just replayed is represented by its winners. -/
theorem mutate_represented (valid : state.Valid K)
    (done : state.mutate fuel = .ok vt) : vt.Represented ∧ vt.TrashKnown := by
  have kept := mutate_kept valid done
  obtain ⟨vt₀, rfl, -, ranked⟩ := mutate_ranked valid done
  refine ⟨kept.represented_iff.mpr ranked.parents_eq, ?_⟩
  intro block x wins _
  change vt₀.originalWinners block ≠ none
  change vt₀.originalWinners block = some x at wins
  simp [wins]

/-- The winners in the trash after a cleanup have an original. -/
theorem cleaned_trashKnown (cleaned : Overlay.Cleaned vt m vt')
    (winner : vt.dirtyWinners m.block = some m)
    (known : ∀ {b x}, b ≠ m.block → vt.dirtyWinners b = some x →
      x.parent = trashNodeID → vt.originalWinners b ≠ none) :
    vt'.TrashKnown := by
  intro b x wins isTrash
  by_cases same : b = m.block
  · subst same
    cases cleaned with
    | kept needed notNew =>
        obtain rfl := Option.some.inj (winner.symm.trans wins)
        exact notNew isTrash
    | discarded isNew inTrash =>
        rw [discard_dirtyWinners, if_pos rfl] at wins
        cases wins
    | restored wasWinner redundant =>
        change vt.originalWinners m.block ≠ none
        simp [wasWinner]
  · have others := (cleaned.dirtyWinners_eq winner).1 b same
    have originals : vt'.originalWinners = vt.originalWinners := by
      cases cleaned <;> rfl
    rw [originals]
    exact known same (others ▸ wins) isTrash

/-- One call: what it keeps, and when it keeps the representation. -/
theorem Kept.move_represented (kept : Kept K vt) (trash : vt.TrashKnown)
    (represented : vt.Represented) {result : Except String MoveEffect}
    (done : vt.move K fuel call.block call.parent call.left =
      .ok (vt', result)) :
    vt'.TrashKnown ∧ (vt'.Represented ↔ vt.TrashesOriginals call) := by
  have agree := kept.represented_iff.mp represented
  rcases move_eq_ok done with ⟨rfl, err, rejected⟩ | ⟨pos, checked, placed⟩
  · refine ⟨trash, iff_of_true represented fun fuel' pos checked => ?_⟩
    exact absurd (checkMove_unique rejected checked) (by simp)
  · have condition : vt.TrashesOriginals call ↔
        (call.parent = trashNodeID → vt.originalWinners call.block ≠ none) := by
      constructor
      · exact fun trashes => trashes fuel pos checked
      · exact fun known _ _ _ => known
    rcases kept.placeMove_spec checked placed with
      ⟨isTrash, inTrash, rfl⟩ | ⟨m, landed, -, keptPlaced, kept'⟩
    · refine ⟨trash, iff_of_true represented (condition.mpr fun _ => ?_)⟩
      cases wins : vt'.dirtyWinners call.block with
      | none => simp [wins] at inTrash
      | some x => exact trash wins (by simpa [wins] using inTrash)
    · have named := landed.named
      have under := landed.under
      have winner : ((vt.vacated call.block call.parent).placed m).dirtyWinners
          m.block = some m := Function.update_self ..
      have originals :
          ((vt.vacated call.block call.parent).placed m).originalWinners =
            vt.originalWinners := retire_originalWinners _
      have parents : ∀ b,
          ((vt.vacated call.block call.parent).placed m).parents b =
            if b = call.block then some call.parent else vt.parents b := by
        intro b
        have old : (vt.retire (vt.dirtyWinners call.block)).parents = vt.parents :=
          retire_parents _
        rw [← old]
        exact Function.update_apply ..
      have agreePlaced : ∀ b,
          ((vt.vacated call.block call.parent).placed m).parents b =
            (((vt.vacated call.block call.parent).placed m).dirtyWinners b).map
              Move.parent := by
        intro b
        rw [parents, placed_dirtyWinners, vacated_dirtyWinners, named, agree]
        split_ifs
        · rw [Option.map_some, under]
        · rfl
      constructor
      · refine cleaned_trashKnown landed.cleaned winner ?_
        intro b x differs wins isTrash
        rw [originals]
        rw [placed_dirtyWinners, if_neg differs, vacated_dirtyWinners] at wins
        exact trash wins isTrash
      · rw [kept'.represented_iff, cleaned_parents landed.cleaned winner agreePlaced,
          condition, originals, named, under]

end Representation

end TreeMutation

open TreeMutation

/-- The mutations of a state that runs of permitted calls reach. -/
inductive Mutated (K : Fracdex) (state : TreeCRDT)
    (permitted : TreeMutation → Call → Prop) : TreeMutation → Prop where
  | mutate (fuel : Nat) {vt : TreeMutation} (done : state.mutate fuel = .ok vt) :
      Mutated K state permitted vt
  | move (fuel : Nat) {vt vt' : TreeMutation}
      {result : Except String MoveEffect} (call : Call)
      (before : Mutated K state permitted vt) (isPermitted : permitted vt call)
      (done : vt.move K fuel call.block call.parent call.left =
        .ok (vt', result)) : Mutated K state permitted vt'

section Mutated

variable {K : Fracdex} {state : TreeCRDT}
    {permitted : TreeMutation → Call → Prop} {vt : TreeMutation}

/-- Every run of calls keeps the tree. -/
theorem Mutated.kept (valid : state.Valid K)
    (run : Mutated K state permitted vt) : Kept K vt := by
  induction run with
  | mutate _ done => exact mutate_kept valid done
  | move _ call _ _ done induction => exact induction.move done

/--
While every call that passes the checks moves to the trash only blocks of the
original tree, the parents map has the parents of the winners, the winners are
in the tree index and shown, and the other moves are hidden.  A call that moves
another block to the trash breaks this.
-/
theorem moves_keep_representation
    (received : Received K (fun _ => True) state)
    (run : Mutated K state TrashesOriginals vt) :
    vt.Represented ∧ ∀ fuel call vt' result,
      vt.move K fuel call.block call.parent call.left = .ok (vt', result) →
        (vt'.Represented ↔ vt.TrashesOriginals call) := by
  have valid := received.valid.1
  have inv : Kept K vt ∧ vt.TrashKnown ∧ vt.Represented := by
    induction run with
    | mutate _ done =>
        obtain ⟨represented, trash⟩ := mutate_represented valid done
        exact ⟨mutate_kept valid done, trash, represented⟩
    | move _ call _ isPermitted done induction =>
        obtain ⟨kept, trash, represented⟩ := induction
        obtain ⟨trash', keeps⟩ := kept.move_represented trash represented done
        exact ⟨kept.move done, trash', keeps.mpr isPermitted⟩
  obtain ⟨kept, trash, represented⟩ := inv
  exact ⟨represented, fun fuel call vt' result done =>
    (kept.move_represented trash represented done).2⟩

end Mutated

/-- The only block of the original tree is deleted. -/
theorem moves_keep_representation_oneBlock :
    ∃ vt, Mutated sampleFracdex oneBlock TrashesOriginals vt ∧
      vt.parents "b1" = some trashNodeID ∧ vt.Represented := by
  have run : ∃ vt, Mutated sampleFracdex oneBlock TrashesOriginals vt ∧
      vt.parents "b1" = some trashNodeID := by
    refine ⟨_, .move 1 ⟨"b1", trashNodeID, ""⟩
      (.mutate 1 rfl) ?_ rfl, rfl⟩
    intro _ _ _ _
    decide
  obtain ⟨vt, mutated, deleted⟩ := run
  have received : Received sampleFracdex (fun _ => True) oneBlock :=
    .integrate firstBlock .new trivial rfl
  exact ⟨vt, mutated, deleted, (moves_keep_representation received mutated).1⟩

/--
A block that is created and moved to the trash keeps its entry in the parents
map, although it has no winner.  A new block can then be moved under it.
-/
theorem discarded_block_keeps_parent :
    ∃ vt, Mutated sampleFracdex newTreeCRDT (fun _ _ => True) vt ∧
      vt.dirtyWinners "b" = none ∧ vt.parents "b" = some trashNodeID ∧
      ¬ vt.Represented ∧
      ∃ vt', vt.move sampleFracdex 2 "c" "b" "" = .ok (vt', .ok .created) := by
  have run : ∃ vt, Mutated sampleFracdex newTreeCRDT (fun _ _ => True) vt ∧
      vt.dirtyWinners "b" = none ∧ vt.parents "b" = some trashNodeID ∧
      ∃ vt', vt.move sampleFracdex 2 "c" "b" "" = .ok (vt', .ok .created) :=
    ⟨_, .move 1 ⟨"b", trashNodeID, ""⟩
      (.move 1 ⟨"b", "", ""⟩ (.mutate 1 rfl) trivial rfl)
      trivial rfl, rfl, rfl, _, rfl⟩
  obtain ⟨vt, mutated, forgotten, noted, moved⟩ := run
  refine ⟨vt, mutated, forgotten, noted, fun represented => ?_, moved⟩
  exact (represented.parents_iff "b").mp (by simp [noted]) forgotten

end Mintter.Docmodel
