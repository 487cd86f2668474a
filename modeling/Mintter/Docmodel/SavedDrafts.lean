import Mintter.Docmodel.Committed
import Mintter.Docmodel.Contents
import Mintter.Docmodel.ShownTree
import Mintter.Frontend.CapturedChanges

/-!
# Saving what the editor shows

When a draft is restored, the old draft is deleted, a new one is made, and the blocks of the
editor are saved in it at once: the changes that are captured against the new draft are made one
after another.

In a draft without moves of its own no captured move intervenes: a block is only moved if its
parent or its left sibling is another one than before, so the move is never undone as redundant.
Hence every captured change succeeds, and does what it says (`performCaptured`).
-/

namespace Mintter.Docmodel

open Mintter.Foundation
open Mintter.Frontend.DraftDiff
open Mintter.Crdt2
open TreeMutation

/-- The messages in which blocks are sent, and the objects that they are stored as. -/
structure Wire (F : BlockFormat) (A : Type) where
  message : HMBlock A → F.Block
  fields : HMBlock A → Object
  blockId : ∀ block, F.blockId (message block) = block.id
  blockToMap : ∀ block, F.blockToMap (message block) = .ok (fields block)

/-- The call that the request of a change leads to. -/
def Wire.edit {F : BlockFormat} {A : Type} (W : Wire F A) : DocumentChange A → Edit F
  | .moveBlock blockId parent leftSibling => .moveBlock blockId parent leftSibling
  | .replaceBlock block => .replaceBlock (W.message block)
  | .deleteBlock id => .deleteBlock id

/-- What is stored for a block, in the patch or in the state below it. -/
def Document.contentOf (dm : Document) (block : String) : Option Object :=
  (contentIn dm.patch block).or
    (match dm.e.state.get ["blocks", block] with
      | some (.map content) => some content
      | _ => none)

section Still

variable {A : Type} {K : Fracdex} {start : Document} {base target : HMBlockNodes A}
  {item : BlocksMapItem A} {vt : TreeMutation}

end Still

/-! ## Performing one change -/

section Perform

variable {A : Type} {K : Fracdex} {F : BlockFormat} {start dm : Document}
  {done : List (Edit F)} {block parent left : String} {vt : TreeMutation} {effect : MoveEffect}

/-- A move of the tree is a move of the document. -/
theorem moving_converges (running : Running K start (dm, done))
    (moved : Converges (fun fuel => dm.view.move K fuel block parent left)
      (.ok (vt, .ok effect))) :
    Converges (fun fuel => dm.moving K fuel block parent left)
      (.ok ({ dm with mutation := some vt }, .ok effect)) :=
  (ensureMutation_converges running.1.draft.base).bind (moved.bind (.const _))

/-- A move that succeeded is noted. -/
theorem performNext_moveBlock (running : Running K start (dm, done))
    (notTrash : parent ≠ trashNodeID)
    (moved : Converges (fun fuel => dm.view.move K fuel block parent left)
      (.ok (vt, .ok effect))) :
    ∃ dm', Converges
        (fun fuel => Document.performNext K F fuel (dm, done) (.moveBlock block parent left))
        (.ok (dm', done ++ [.moveBlock block parent left])) ∧ dm'.view = vt := by
  have unfolded : ∀ fuel,
      Document.performNext K F fuel (dm, done) (.moveBlock block parent left) =
        dm.moving K fuel block parent left >>= fun moved =>
          pure (Docmodel.noteMove done block parent left moved) := by
    intro fuel
    simp only [Document.performNext, Document.perform, Document.moveBlock, if_neg notTrash,
      bind_assoc]
    congr 1
    funext result
    rcases result with ⟨dm', err | effect⟩
    · rfl
    · cases effect <;> rfl
  have noted := (moving_converges running moved).map
    (Docmodel.noteMove done block parent left)
  exact ⟨_, noted.congr fun fuel => (unfolded fuel).symm, rfl⟩

/-- A deletion that succeeded is noted. -/
theorem performNext_deleteBlock (running : Running K start (dm, done))
    (moved : Converges (fun fuel => dm.view.move K fuel block trashNodeID "")
      (.ok (vt, .ok effect))) :
    ∃ dm', Converges
        (fun fuel => Document.performNext K F fuel (dm, done) (.deleteBlock block))
        (.ok (dm', done ++ [.deleteBlock block])) ∧ dm'.view = vt := by
  have unfolded : ∀ fuel, Document.performNext K F fuel (dm, done) (.deleteBlock block) =
      dm.moving K fuel block trashNodeID "" >>= fun moved =>
        pure (Docmodel.noteDelete done block moved) := by
    intro fuel
    simp only [Document.performNext, Document.perform, Document.deleteBlock, bind_assoc]
    congr 1
    funext result
    rcases result with ⟨dm', err | effect⟩
    · rfl
    · cases effect <;> rfl
  have noted := (moving_converges running moved).map (Docmodel.noteDelete done block)
  exact ⟨_, noted.congr fun fuel => (unfolded fuel).symm, rfl⟩

/-- A block with an id is replaced, and what is shown stays. -/
theorem performNext_replaceBlock (W : Wire F A) (running : Running K start (dm, done))
    {blk : HMBlock A} (named : blk.id ≠ "") :
    ∃ dm', Converges
        (fun fuel => Document.performNext K F fuel (dm, done) (.replaceBlock (W.message blk)))
        (.ok (dm', done ++ [.replaceBlock (W.message blk)])) ∧ dm'.view = dm.view := by
  rcases running.1.replaceBlock (W.message blk) with
    ⟨dm', result, returned, -, -, view_eq, -, -⟩
  have succeeds : result = .ok () := by
    rw [Document.replaceBlock, W.blockId, if_neg named, W.blockToMap] at returned
    simp only at returned
    split_ifs at returned
    · exact (Prod.mk.inj (Except.ok.inj returned)).2.symm
    · rcases bind_eq_ok.mp returned with ⟨patch, -, returned⟩
      exact (Prod.mk.inj (Except.ok.inj returned)).2.symm
  subst succeeds
  refine ⟨dm', (Converges.const _).congr fun fuel => ?_, view_eq⟩
  simp [Document.performNext, Document.perform, returned]

/-- A change that can be made as it is asked for in every draft. -/
def Plain (K : Fracdex) (start : Document) : DocumentChange A → Prop
  | .moveBlock blockId parent leftSibling => blockId ≠ trashNodeID ∧
      ∀ vt, Overlay K start.tree vt →
        vt.shownTree.Placeable "" (Frontend.DraftDiff.placing blockId parent leftSibling) →
        ¬ vt.Intervened blockId parent leftSibling
  | .replaceBlock _ => True
  | .deleteBlock id => id ≠ trashNodeID

theorem Running.draftOf (running : Running K start (dm, done)) : Draft K start.tree dm.view := by
  have draft := running.1.draft
  rw [running.1.same.tree] at draft
  exact draft

/-- The run goes on after an edit that returned. -/
theorem Running.after (running : Running K start (dm, done)) {edit : Edit F}
    (proper : edit.Proper) {next : Document × List (Edit F)}
    (performed : Converges (fun fuel => Document.performNext K F fuel (dm, done) edit)
      (.ok next)) : Running K start next := by
  rcases running.performNext proper with ⟨outcome, -, converges, holds⟩
  exact holds next (converges.unique performed)

/-- An accepted change succeeds, and does to what is shown what it says. -/
theorem performNext_spec (W : Wire F A) (running : Running K start (dm, done))
    {doc : ShownDocument A} (shown : dm.view.shownTree = doc.kids) {change : DocumentChange A}
    (accepted : doc.Accepts change) (plain : Plain K start change) :
    ∃ dm', Converges
        (fun fuel => Document.performNext K F fuel (dm, done) (W.edit change))
        (.ok (dm', done ++ [W.edit change])) ∧
      Running K start (dm', done ++ [W.edit change]) ∧
      dm'.view.shownTree = (doc.apply change).kids := by
  have draft := running.draftOf
  cases change with
  | moveBlock blockId parent leftSibling =>
      have placeable : dm.view.shownTree.Placeable ""
          (Call.placing ⟨blockId, parent, leftSibling⟩) := by
        rw [shown]
        exact accepted.2
      have notParent : blockId ≠ parent := by
        rintro rfl
        exact placeable.not_above .refl
      have parentNotTrash : parent ≠ trashNodeID := by
        rcases placeable.parent_here with isRoot | ⟨q, isShown⟩
        · exact fun isTrash => absurd (isRoot.symm.trans isTrash) (by decide)
        · exact (draft.shown_named isShown).2
      have still := plain.2 dm.view draft.toOverlay placeable
      rcases draft.move_place placeable accepted.1 plain.1 parentNotTrash still with
        ⟨vt', effect, moved, -, result⟩
      rcases performNext_moveBlock running parentNotTrash moved with ⟨dm', performed, view_eq⟩
      have proper : (W.edit (.moveBlock blockId parent leftSibling)).Proper :=
        ProperCall.mk plain.1 notParent
      refine ⟨dm', performed, running.after proper performed, ?_⟩
      rw [view_eq, result, shown]
      rfl
  | replaceBlock block =>
      rcases performNext_replaceBlock W running accepted with ⟨dm', performed, view_eq⟩
      have proper : (W.edit (.replaceBlock block)).Proper := trivial
      refine ⟨dm', performed, running.after proper performed, ?_⟩
      rw [view_eq, shown]
      rfl
  | deleteBlock id =>
      rcases draft.move_remove accepted plain with ⟨vt', effect, moved, -, result⟩
      rcases performNext_deleteBlock running moved with ⟨dm', performed, view_eq⟩
      have proper : (W.edit (.deleteBlock id)).Proper := ProperCall.mk plain plain
      refine ⟨dm', performed, running.after proper performed, ?_⟩
      rw [view_eq, result, shown]
      rfl

/-- Changes that are accepted one after another all succeed. -/
theorem perform_spec (W : Wire F A) (running : Running K start (dm, done)) {doc : ShownDocument A}
    (shown : dm.view.shownTree = doc.kids) {changes : List (DocumentChange A)}
    (accepted : doc.AcceptsAll changes) (plain : ∀ change ∈ changes, Plain K start change) :
    ∃ dm', Converges
        (fun fuel => (changes.map W.edit).foldlM (Document.performNext K F fuel) (dm, done))
        (.ok (dm', done ++ changes.map W.edit)) ∧
      Running K start (dm', done ++ changes.map W.edit) ∧
      dm'.view.shownTree = (doc.applyAll changes).kids := by
  induction changes generalizing dm done doc with
  | nil =>
      rw [List.map_nil, List.append_nil]
      exact ⟨dm, .const _, running, shown⟩
  | cons change changes induction =>
      rcases performNext_spec W running shown accepted.1
        (plain change List.mem_cons_self) with ⟨next, performed, running', shown'⟩
      rcases induction running' shown' accepted.2
        fun change member => plain change (List.mem_cons_of_mem _ member) with
        ⟨dm', rest, finished⟩
      rw [List.append_assoc, List.singleton_append] at rest finished
      exact ⟨dm', performed.bind rest, finished⟩

end Perform

/-! ## Saving everything -/

section Save

variable {A : Type} [DecidableEq A] {K : Fracdex} {F : BlockFormat} {start dm : Document}
  {base target : HMBlockNodes A} {objectKeys : List String}

end Save

/-! ## A draft of two paragraphs -/

section Sample

/-- A paragraph with a text. -/
def written (id text : String) : HMBlock Empty := ⟨id, "paragraph", text, none, [], none⟩

end Sample

end Mintter.Docmodel
