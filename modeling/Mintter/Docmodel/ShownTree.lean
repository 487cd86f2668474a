import Mintter.Docmodel.Asked
import Mintter.Foundation.Arrangements

/-!
# The tree that a mutation shows

What a draft shows under its parents is an arrangement of blocks.  A call that the arrangement
accepts passes the checks of `move`, and does to the arrangement what it says, unless it
intervenes.  A deletion takes a block out.

The visible left sibling that a block has in the original tree is the same in every draft of a
state, since the moves of a draft are invisible there.
-/

namespace Mintter.Docmodel

open Mintter.Foundation
open TreeMutation

/-- A call as a placing; without a left sibling it puts the block first. -/
def Call.placing (call : Call) : Placing String :=
  ⟨call.block, call.parent, if call.left = "" then none else some call.left⟩

/-- The blocks that are shown under every parent other than the trash. -/
def TreeMutation.shownTree (vt : TreeMutation) : Arrangement String := fun parent =>
  if parent = trashNodeID then [] else (vt.visibleChildren parent).map Move.block

section Read

variable {K : Fracdex} {state : TreeCRDT} {vt vt' : TreeMutation} {block parent left : String}
  {x original : Move} {call : Call}

namespace Overlay

/-- Every overlay is kept. -/
theorem kept (overlay : Overlay K state vt) : Kept K vt where
  sound :=
    { index := overlay.sound.index
      acyclic := unparented_acyclic vt
      winner_mem := overlay.sound.winner_mem
      original_eq := overlay.sound.original_eq
      visible_wins := overlay.sound.visible_wins
      hidden_mem := overlay.sound.hidden_mem }
  winner_shown := by
    intro block x wins
    have found := overlay.winner_mem wins
    apply (overlay.visible_iff found.1).mpr
    rw [found.2]
    exact wins
  own_hidden := by
    intro x member _
    by_cases wins : vt.originalWinners x.block = some x
    · exact Or.inr wins
    · exact Or.inl (overlay.originalHidden_iff.mpr ⟨member, wins⟩)

/-- A block is shown below the parent of its winner, unless that is the trash. -/
theorem mem_shownTree (overlay : Overlay K state vt) :
    block ∈ vt.shownTree parent ↔
      parent ≠ trashNodeID ∧ ∃ x, vt.dirtyWinners block = some x ∧ x.parent = parent := by
  rw [shownTree]
  by_cases isTrash : parent = trashNodeID
  · simp [isTrash]
  · rw [if_neg isTrash, overlay.kept.children_eq, List.mem_map]
    constructor
    · rintro ⟨x, member, rfl⟩
      exact ⟨isTrash, x, overlay.kept.mem_visibleUnder.mp member⟩
    · rintro ⟨-, x, wins, isParent⟩
      have named := (overlay.winner_mem wins).2
      rw [← named] at wins
      exact ⟨x, overlay.kept.mem_visibleUnder.mpr ⟨wins, isParent⟩, named⟩

/-- The winner of a block is shown once. -/
theorem nodup_blocks (overlay : Overlay K state vt) (parent : String) :
    ((vt.visibleChildren parent).map Move.block).Nodup := by
  rw [overlay.kept.children_eq]
  apply List.Nodup.map_on _ (overlay.kept.sorted parent).nodup
  intro x member y member' same
  have wins := (overlay.kept.mem_visibleUnder.mp member).1
  rw [same, (overlay.kept.mem_visibleUnder.mp member').1] at wins
  exact (Option.some.inj wins).symm

/-- Neither the root nor the trash is shown. -/
theorem shown_named (overlay : Overlay K state vt) (member : block ∈ vt.shownTree parent) :
    block ≠ "" ∧ block ≠ trashNodeID := by
  rcases (overlay.mem_shownTree.mp member).2 with ⟨x, wins, -⟩
  have found := overlay.winner_mem wins
  have place := overlay.place x found.1
  rw [found.2] at place
  exact ⟨place.ne_root, place.ne_trash⟩

/-- What is shown is a tree. -/
theorem tree (overlay : Overlay K state vt) : vt.shownTree.Tree "" where
  root_free := fun q member => (overlay.shown_named member).1 rfl
  parent_unique := by
    intro block p q here there
    rcases (overlay.mem_shownTree.mp here).2 with ⟨x, wins, rfl⟩
    rcases (overlay.mem_shownTree.mp there).2 with ⟨y, wins', rfl⟩
    rw [wins] at wins'
    rw [Option.some.inj wins']
  nodup := by
    intro p
    rw [shownTree]
    split
    · exact List.nodup_nil
    · exact overlay.nodup_blocks p

/-- A block whose parent is a block is shown under it. -/
theorem shown_of_open (overlay : Overlay K state vt)
    (isOpen : ¬ TreeMutation.IsTop (vt.parentOf block)) :
    block ∈ vt.shownTree (vt.parentOf block) := by
  apply overlay.mem_shownTree.mpr
  constructor
  · exact fun isTrash => isOpen (Or.inr isTrash)
  · cases wins : vt.dirtyWinners block with
    | some x =>
        refine ⟨x, rfl, ?_⟩
        rw [parentOf, overlay.parents_of_winner wins, Option.getD_some]
    | none =>
        apply absurd _ isOpen
        rw [parentOf]
        rcases overlay.parents_of_none wins with known | known
        · rw [known]
          exact Or.inl rfl
        · rw [known]
          exact Or.inr rfl

/-- A climb along the parents is a climb in the shown tree. -/
theorem above_of_climbs (overlay : Overlay K state vt)
    (climbs : Climbs vt.parentOf TreeMutation.IsTop block parent) :
    vt.shownTree.Above block parent := by
  induction climbs with
  | here _ => exact .refl
  | up _ above induction =>
      exact induction.tail (overlay.shown_of_open above.start_open)

/-- A block that is above another one is above it in the shown tree. -/
theorem above (overlay : Overlay K state vt) (isAbove : vt.Above block parent) :
    vt.shownTree.Above block parent :=
  (overlay.above_of_climbs isAbove).tail (overlay.shown_of_open isAbove.start_open)

/-- A call that the arrangement accepts passes the checks. -/
theorem placeable (overlay : Overlay K state vt)
    (accepted : vt.shownTree.Placeable "" call.placing) (named : call.block ≠ "") :
    ∃ pos, vt.Placeable call.block call.parent call.left pos := by
  have leftHere : call.left ≠ "" → call.left ∈ vt.shownTree call.parent ∧
      call.left ≠ call.block := by
    intro notStart
    apply accepted.left_here
    rw [Call.placing, if_neg notStart]
  have leftAt : ∃ pos, vt.LeftAt call.parent call.left pos := by
    by_cases atStart : call.left = ""
    · exact ⟨_, Or.inl ⟨atStart, rfl⟩⟩
    · rcases (overlay.mem_shownTree.mp (leftHere atStart).1).2 with ⟨x, wins, isParent⟩
      exact ⟨x, Or.inr ⟨atStart, wins, isParent⟩⟩
  rcases leftAt with ⟨pos, leftAt⟩
  refine ⟨pos, named, ?_, ?_, ?_, ?_, ?_, leftAt⟩
  · intro same
    by_cases atStart : call.left = ""
    · exact named (same.trans atStart)
    · exact (leftHere atStart).2 same.symm
  · intro isTrash
    have notStart : call.left ≠ "" := by
      rw [isTrash]
      decide
    exact (overlay.shown_named (leftHere notStart).1).2 isTrash
  · rintro ⟨-, notStart, same⟩
    have member := (leftHere notStart).1
    rw [same] at member
    rcases (overlay.mem_shownTree.mp member).2 with ⟨x, wins, isParent⟩
    have found := overlay.winner_mem wins
    exact (overlay.place x found.1).ne_parent (found.2.trans isParent.symm)
  · rintro ⟨notRoot, -, unknown⟩
    rcases accepted.parent_here with isRoot | ⟨q, isShown⟩
    · exact notRoot isRoot
    · rcases (overlay.mem_shownTree.mp isShown).2 with ⟨x, wins, -⟩
      have known := overlay.parents_of_winner wins
      rw [show vt.parents call.placing.parent = none from unknown] at known
      cases known
  · exact fun isAbove => accepted.not_above (overlay.above isAbove)

/-! ## The original tree -/

end Overlay

end Read

/-! ## Calls -/

section Calls

variable {K : Fracdex} {state : TreeCRDT} {vt vt' : TreeMutation} {block parent left : String}
  {call : Call} {pos m : Move}

/-- The other blocks keep their places. -/
theorem shownTree_others (kept : Kept K vt) (kept' : Kept K vt')
    (others : ∀ b, b ≠ block → vt'.dirtyWinners b = vt.dirtyWinners b) (parent : String) :
    (vt'.shownTree parent).filter (· ≠ block) = (vt.shownTree parent).filter (· ≠ block) := by
  rw [shownTree, shownTree]
  split
  · rfl
  · have same := kept.others_eq kept' others parent
    rw [List.filter_map, List.filter_map]
    exact congrArg (List.map Move.block) same

/-- A block that is moved out of a list, or that was never in it. -/
theorem shownTree_of_gone (kept : Kept K vt) (kept' : Kept K vt')
    (others : ∀ b, b ≠ block → vt'.dirtyWinners b = vt.dirtyWinners b)
    (gone : block ∉ vt'.shownTree parent) :
    vt'.shownTree parent = (vt.shownTree parent).filter (· ≠ block) := by
  rw [← shownTree_others kept kept' others]
  apply (List.filter_eq_self.mpr _).symm
  intro b member
  exact decide_eq_true fun same => gone (same ▸ member)

/-- A block that stands after its left sibling was put behind it. -/
theorem shownTree_of_stands (kept : Kept K vt) (overlay' : Overlay K state vt')
    (others : ∀ b, b ≠ block → vt'.dirtyWinners b = vt.dirtyWinners b)
    (notTrash : parent ≠ trashNodeID)
    (stands : StandsAfter (vt'.visibleChildren parent) block left) :
    vt'.shownTree parent = insertBehind (if left = "" then none else some left) block
      ((vt.shownTree parent).filter (· ≠ block)) := by
  rcases stands with ⟨front, m, back, split, rfl, place⟩
  have nodup := overlay'.nodup_blocks parent
  have shown : vt'.shownTree parent =
      front.map Move.block ++ m.block :: back.map Move.block := by
    rw [shownTree, if_neg notTrash, split, List.map_append, List.map_cons]
  rw [split, List.map_append, List.map_cons] at nodup
  have absent := nodup
  rw [List.nodup_middle, List.nodup_cons] at absent
  have rest : (vt.shownTree parent).filter (· ≠ m.block) =
      front.map Move.block ++ back.map Move.block := by
    rw [← shownTree_others kept overlay'.kept others, shown, List.filter_append,
      List.filter_cons_of_neg (by simp), ← List.filter_append]
    apply List.filter_eq_self.mpr
    intro b member
    exact decide_eq_true fun same => absent.1 (same ▸ member)
  rw [rest, shown]
  rcases place with ⟨atStart, rfl⟩ | ⟨notStart, y, last, isLeft⟩
  · rw [if_pos atStart, List.map_nil, List.nil_append, List.nil_append, insertBehind]
  · rcases List.getLast?_eq_some_iff.mp last with ⟨earlier, rfl⟩
    rw [if_neg notStart, ← isLeft, List.map_append, List.map_cons, List.map_nil,
      List.append_assoc, List.singleton_append, List.append_assoc, List.singleton_append]
    apply (insertBehind_append_cons _).symm
    intro member
    rw [List.map_append, List.map_cons, List.map_nil, List.append_assoc,
      List.singleton_append] at nodup
    exact (List.nodup_append.mp nodup).2.2 _ member _ List.mem_cons_self rfl

/-- A call that the arrangement accepts is done to it, unless it intervenes. -/
theorem Draft.move_place (draft : Draft K state vt)
    (accepted : vt.shownTree.Placeable "" call.placing) (named : call.block ≠ "")
    (notTrash : call.block ≠ trashNodeID) (parentNotTrash : call.parent ≠ trashNodeID)
    (still : ¬ vt.Intervened call.block call.parent call.left) :
    ∃ vt' effect, Converges
        (fun fuel => vt.move K fuel call.block call.parent call.left)
        (.ok (vt', .ok effect)) ∧
      Draft K state vt' ∧ vt'.shownTree = vt.shownTree.place call.placing := by
  rcases draft.placeable accepted named with ⟨pos, placeable⟩
  have notParent : call.block ≠ call.parent := by
    intro same
    apply accepted.not_above
    rw [Call.placing, same]
    exact .refl
  rcases checkMove_spec draft.sound.acyclic placeable.left_ne_trash call.block call.parent with
    ⟨checked, checks, passes⟩
  rw [(passes pos).mpr placeable] at checks
  rcases draft.placeMove placeable ⟨named, notTrash, notParent⟩ with
    ⟨vt', effect, placed, draft'⟩
  refine ⟨vt', effect, checks.bind ?_, draft', ?_⟩
  · simp only [placed]
    exact .const _
  rcases checks with ⟨enough, checks⟩
  rcases draft.kept.placeMove_spec (checks enough (Nat.le_refl _)) placed with
    ⟨isTrash, -⟩ | ⟨m, landed, free, keptPlaced, kept'⟩
  · exact absurd isTrash parentNotTrash
  have winner : ((vt.vacated call.block call.parent).placed m).dirtyWinners m.block = some m :=
    Function.update_self ..
  have others : ∀ b, b ≠ call.block → vt'.dirtyWinners b = vt.dirtyWinners b := by
    intro b other
    rw [(landed.cleaned.dirtyWinners_eq winner).1 b (landed.named ▸ other),
      placed_dirtyWinners, landed.named, if_neg other, vacated_dirtyWinners]
  have stands := (landed_stands_iff landed keptPlaced draft.kept kept' free
    placeable.block_ne_left placeable.leftAt parentNotTrash others).mpr still
  funext q
  rw [Arrangement.place]
  split
  · rename_i isParent
    rw [isParent]
    exact shownTree_of_stands draft.kept draft'.toOverlay others parentNotTrash stands
  · rename_i differs
    apply shownTree_of_gone draft.kept kept' others
    intro member
    apply differs
    have here : call.block ∈ vt'.shownTree call.parent := by
      rw [shownTree_of_stands draft.kept draft'.toOverlay others parentNotTrash stands]
      exact mem_insertBehind.mpr (Or.inl rfl)
    exact draft'.tree.parent_unique member here

/-- A deletion takes the block out of what is shown. -/
theorem Draft.move_remove (draft : Draft K state vt) (named : block ≠ "")
    (notTrash : block ≠ trashNodeID) :
    ∃ vt' effect, Converges (fun fuel => vt.move K fuel block trashNodeID "")
        (.ok (vt', .ok effect)) ∧
      Draft K state vt' ∧ vt'.shownTree = vt.shownTree.remove block := by
  have notAbove : ¬ vt.Above block trashNodeID := by
    intro isAbove
    have here := draft.shown_of_open isAbove.start_open
    exact (draft.shown_named here).2 rfl
  have placeable : vt.Placeable block trashNodeID "" (Move.pivot trashNodeID "") :=
    ⟨named, named, by decide, by simp, by simp, notAbove, Or.inl ⟨rfl, rfl⟩⟩
  rcases checkMove_spec draft.sound.acyclic placeable.left_ne_trash block trashNodeID with
    ⟨checked, checks, passes⟩
  rw [(passes _).mpr placeable] at checks
  rcases draft.placeMove placeable ⟨named, notTrash, notTrash⟩ with
    ⟨vt', effect, placed, draft'⟩
  refine ⟨vt', effect, checks.bind ?_, draft', ?_⟩
  · simp only [placed]
    exact .const _
  rcases checks with ⟨enough, checks⟩
  have spec : (∀ b, b ≠ block → vt'.dirtyWinners b = vt.dirtyWinners b) ∧
      ∀ x, vt'.dirtyWinners block = some x → x.parent = trashNodeID := by
    rcases draft.kept.placeMove_spec (checks enough (Nat.le_refl _)) placed with
      ⟨-, inTrash, rfl⟩ | ⟨m, landed, free, keptPlaced, kept'⟩
    · refine ⟨fun _ _ => rfl, fun x wins => ?_⟩
      rw [wins] at inTrash
      exact Option.some.inj inTrash
    · have winner : ((vt.vacated block trashNodeID).placed m).dirtyWinners m.block = some m :=
        Function.update_self ..
      constructor
      · intro b other
        rw [(landed.cleaned.dirtyWinners_eq winner).1 b (landed.named ▸ other),
          placed_dirtyWinners, landed.named, if_neg other, vacated_dirtyWinners]
      · intro x wins
        rw [← landed.named] at wins
        rcases landed.cleaned with ⟨needed, notNew⟩ | ⟨isNew, isTrash⟩ | ⟨wasWinner, redundant⟩
        · rw [winner] at wins
          exact (Option.some.inj wins) ▸ landed.under
        · rw [discard_dirtyWinners, if_pos rfl] at wins
          cases wins
        · rw [restored_dirtyWinners, if_pos rfl] at wins
          rw [← Option.some.inj wins, redundant.1]
          exact landed.under
  funext q
  apply shownTree_of_gone draft.kept draft'.kept spec.1
  intro member
  rcases draft'.mem_shownTree.mp member with ⟨elsewhere, x, wins, isParent⟩
  exact elsewhere (isParent.symm.trans (spec.2 x wins))

end Calls

end Mintter.Docmodel
