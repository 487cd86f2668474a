import Mintter.Docmodel.Drafts
import Mintter.Docmodel.Patches

/-!
# Runs of document edits

`performAll` makes edits one after another, skips those that fail and lists
those that succeeded.  `Edited` says what is known after such a run: the
mutation is a draft of the tree of the document, the patch is tidy and holds
the last write of every block that differed from the state, and the sets of
created and deleted blocks are determined by the calls about each block.
-/

namespace Mintter.Docmodel

open Mintter.Foundation
open Mintter.Crdt2
open TreeMutation

/-- One call on a document. -/
inductive Edit (F : BlockFormat) where
  | setTitle (title : String)
  | moveBlock (block parent left : String)
  | deleteBlock (block : String)
  | replaceBlock (blk : F.Block)

namespace Document

variable (K : Fracdex) (F : BlockFormat)

/-- Perform one edit on the document. -/
def perform (fuel : Nat) (dm : Document) :
    Edit F → Outcome (Document × Except String Unit)
  | .setTitle title => do pure (← dm.setTitle title, .ok ())
  | .moveBlock block parent left => dm.moveBlock K fuel block parent left
  | .deleteBlock block => dm.deleteBlock K fuel block
  | .replaceBlock blk => dm.replaceBlock F blk

/-- Make one edit and note it when it succeeded. -/
def performNext (fuel : Nat) (acc : Document × List (Edit F))
    (edit : Edit F) : Outcome (Document × List (Edit F)) := do
  let (dm, result) ← acc.1.perform K F fuel edit
  match result with
  | .ok () => pure (dm, acc.2 ++ [edit])
  | .error _ => pure (dm, acc.2)

/-- Make the edits; failing ones are skipped. -/
def performAll (fuel : Nat) (dm : Document) (edits : List (Edit F)) :
    Outcome (Document × List (Edit F)) :=
  edits.foldlM (performNext K F fuel) (dm, [])

/-- The mutation of the document, or the one it would start with. -/
noncomputable def view (dm : Document) : TreeMutation :=
  dm.mutation.getD dm.tree.resolve.settle

end Document

namespace Edit

variable {F : BlockFormat}

/-- The contents written for a block, in order. -/
def writes (done : List (Edit F)) (block : String) : List Object :=
  done.filterMap fun
    | .replaceBlock blk =>
        if F.blockId blk = block then (F.blockToMap blk).toOption else none
    | _ => none

/-- The titles set, in order. -/
def titles (done : List (Edit F)) : List String :=
  done.filterMap fun
    | .setTitle title => some title
    | _ => none

/-- The calls that placed (true) or deleted (false) a block, in order. -/
def placements (done : List (Edit F)) (block : String) : List Bool :=
  done.filterMap fun
    | .moveBlock b _ _ => if b = block then some true else none
    | .deleteBlock b => if b = block then some false else none
    | _ => none

/-- One edit adds the contents that it writes. -/
theorem writes_append (done : List (Edit F)) (edit : Edit F)
    (block : String) :
    writes (done ++ [edit]) block = writes done block ++ writes [edit] block :=
  List.filterMap_append ..

/-- One edit adds the placement that it makes. -/
theorem placements_append (done : List (Edit F)) (edit : Edit F)
    (block : String) :
    placements (done ++ [edit]) block =
      placements done block ++ placements [edit] block :=
  List.filterMap_append ..

theorem titles_append (done : List (Edit F)) (edit : Edit F) :
    titles (done ++ [edit]) = titles done ++ titles [edit] :=
  List.filterMap_append ..

/-- No block is moved under itself, and the trash stays where it is. -/
def Proper : Edit F → Prop
  | .moveBlock block parent left => ProperCall ⟨block, parent, left⟩
  | .deleteBlock block => ProperCall ⟨block, trashNodeID, ""⟩
  | _ => True

end Edit

/-! ## Single edits -/

section Single

variable {K : Fracdex} {F : BlockFormat} {dm dm' : Document}
    {block parent left : String} {result : Except String Unit}

/-- The fields that edits leave alone. -/
structure SameBase (dm dm' : Document) : Prop where
  e : dm'.e = dm.e
  signer : dm'.signer = dm.signer
  delegation : dm'.delegation = dm.delegation
  tree : dm'.tree = dm.tree
  oldAction : dm'.oldAction = dm.oldAction
  done : dm'.done = dm.done
  nextHLC : dm'.nextHLC = dm.nextHLC

theorem SameBase.refl (dm : Document) : SameBase dm dm :=
  ⟨rfl, rfl, rfl, rfl, rfl, rfl, rfl⟩

/-- What two steps leave alone, both leave alone together. -/
theorem SameBase.trans {dm'' : Document} (first : SameBase dm dm')
    (second : SameBase dm' dm'') : SameBase dm dm'' :=
  ⟨second.e.trans first.e, second.signer.trans first.signer,
    second.delegation.trans first.delegation, second.tree.trans first.tree,
    second.oldAction.trans first.oldAction, second.done.trans first.done,
    second.nextHLC.trans first.nextHLC⟩

/-- The tree of a proper document can be edited. -/
theorem ensureMutation_converges (proper : ProperState K dm.tree) :
    Converges (fun fuel => dm.ensureMutation fuel)
      (.ok ({ dm with mutation := some dm.view }, dm.view)) := by
  cases started : dm.mutation with
  | some vt =>
      refine (Converges.const _).congr fun fuel => ?_
      simp only [Document.ensureMutation, Document.view, started,
        Option.getD_some, pure_eq_ok]
      rw [← started]
  | none =>
      have view_eq : dm.view = dm.tree.resolve.settle := by
        simp [Document.view, started]
      have mutated : Converges (fun fuel => do
          let vt ← dm.tree.mutate fuel
          pure ({ dm with mutation := some vt }, vt))
            (.ok ({ dm with mutation := some dm.tree.resolve.settle },
              dm.tree.resolve.settle)) :=
        (mutate_converges proper.valid proper.noSelfMove).bind (.const _)
      rw [view_eq]
      refine mutated.congr fun fuel => ?_
      simp only [Document.ensureMutation, started]

/-- What is known about the document after a move was tried on it. -/
structure Moving (K : Fracdex) (dm : Document) (block parent : String)
    (vt : TreeMutation) (result : Except String MoveEffect) : Prop where
  draft : Draft K dm.tree vt
  failed : ∀ err, result = .error err → vt = dm.view
  reports : ∀ effect, result = .ok effect →
    Reports dm.view block parent vt effect

/-- A proper call is answered, and the draft it leaves is still one. -/
theorem moving_spec (draft : Draft K dm.tree dm.view)
    (proper : ProperCall ⟨block, parent, left⟩) :
    ∃ outcome, outcome ≠ .error .outOfFuel ∧
      Converges (fun fuel => dm.moving K fuel block parent left) outcome ∧
      ∀ next, outcome = .ok next → ∃ vt,
        next.1 = { dm with mutation := some vt } ∧
          Moving K dm block parent vt next.2 := by
  have started := ensureMutation_converges draft.base
  obtain ⟨outcome, notRunning, moved⟩ :=
    move_terminates K draft.sound.acyclic block parent left
  cases outcome with
  | error abort =>
      exact ⟨.error abort, by simpa using notRunning,
        started.bind moved.bind_abort, by simp⟩
  | ok returned =>
      obtain ⟨vt, result⟩ := returned
      refine ⟨_, by simp, started.bind (moved.bind (.const _)), ?_⟩
      rintro next ⟨rfl⟩
      refine ⟨vt, rfl, draft.move proper moved, ?_, ?_⟩
      · rintro err rfl
        rcases move_cases draft.sound.acyclic moved with
          ⟨same, -⟩ | ⟨pos, placeable, placed⟩
        · exact same
        · obtain ⟨_, _, succeeded, -⟩ := draft.placeMove placeable
            ⟨placeable.block_ne_empty, proper.ne_trash, proper.ne_parent⟩
          rw [placed] at succeeded
          simp at succeeded
      · rintro effect rfl
        exact draft.reports proper moved

end Single

/-! ## Runs -/

/-- The last of the values that differ from what the state has. -/
def lastNew {α : Type} (isOld : α → Prop) [DecidablePred isOld]
    (values : List α) : Option α :=
  (values.filter fun value => ¬ isOld value).getLast?

/-- One value more is the last new one unless it is old. -/
theorem lastNew_append {α : Type} (isOld : α → Prop) [DecidablePred isOld]
    (values : List α) (value : α) :
    lastNew isOld (values ++ [value]) =
      if isOld value then lastNew isOld values else some value := by
  rw [lastNew, List.filter_append]
  split_ifs with old <;> simp [lastNew, old]

/-- The last call about a block deleted it, but for one call that placed it. -/
def JustDeleted (placements : List Bool) : Prop :=
  ∃ earlier, placements = earlier ++ [false] ∨
    placements = earlier ++ [false, true]

/-- What was deleted last is just deleted. -/
theorem justDeleted_append_false (placements : List Bool) :
    JustDeleted (placements ++ [false]) :=
  ⟨placements, Or.inl rfl⟩

/-- What was placed once after it was deleted is still just deleted. -/
theorem justDeleted_append_true (placements : List Bool) :
    JustDeleted (placements ++ [true]) ↔
      placements.getLast? = some false := by
  constructor
  · rintro ⟨earlier, same | same⟩
    · simpa using congrArg List.getLast? same
    · rw [show earlier ++ [false, true] = (earlier ++ [false]) ++ [true] by
        simp] at same
      rw [List.append_cancel_right same]
      simp
  · intro last
    obtain ⟨earlier, rfl⟩ := List.getLast?_eq_some_iff.mp last
    exact ⟨earlier, Or.inr (by simp)⟩

variable {K : Fracdex} {F : BlockFormat} {start dm dm' : Document}
    {done : List (Edit F)}

/-- What the patch holds after a run of edits from `start`. -/
structure Edited (K : Fracdex) (start : Document) (done : List (Edit F))
    (dm : Document) : Prop where
  same : SameBase start dm
  draft : Draft K dm.tree dm.view
  tidy : TidyPatch dm.patch
  content : ∀ block, contentIn dm.patch block =
    (lastNew (fun content => start.e.state.get ["blocks", block] =
        some (.map content)) (Edit.writes done block)).or
      (contentIn start.patch block)
  title : dm.patch.get "title" =
    ((lastNew (fun title => start.e.state.get ["title"] =
        some (.string title)) (Edit.titles done)).map Value.string).or
      (start.patch.get "title")
  others : ∀ key, key ≠ "blocks" → key ≠ "title" →
    dm.patch.get key = start.patch.get key

/--
Which blocks were created and deleted, and which are there, by the calls about
each of them.
-/
structure Tracked (done : List (Edit F)) (dm : Document) : Prop where
  created : ∀ block, block ∈ dm.createdBlocks ↔
    dm.view.originalWinners block = none ∧ true ∈ Edit.placements done block
  deleted : ∀ block, dm.view.originalWinners block = none →
    (block ∈ dm.deletedBlocks ↔ JustDeleted (Edit.placements done block))
  winner : ∀ block, dm.view.originalWinners block = none →
    (dm.view.dirtyWinners block = none ↔
      (Edit.placements done block).getLast? ≠ some true)

/-- A document that was just loaded. -/
structure Fresh (K : Fracdex) (dm : Document) : Prop where
  proper : ProperState K dm.tree
  tidy : TidyPatch dm.patch
  mutation : dm.mutation = none
  created : dm.createdBlocks = []
  deleted : dm.deletedBlocks = []

section Steps

theorem mem_addKey {keys : List String} {key other : String} :
    other ∈ addKey keys key ↔ other = key ∨ other ∈ keys := by
  rw [addKey]
  split_ifs with present
  · exact ⟨Or.inr, fun either => either.elim (fun same => same ▸ present) id⟩
  · rw [List.mem_append, List.mem_singleton, or_comm]

theorem mem_dropKey {keys : List String} {key other : String} :
    other ∈ dropKey keys key ↔ other ∈ keys ∧ other ≠ key := by
  simp [dropKey]

theorem Fresh.view (fresh : Fresh K dm) :
    dm.view = dm.tree.resolve.settle := by
  simp [Document.view, fresh.mutation]

/-- A document that was just loaded has no edits. -/
theorem Fresh.edited (fresh : Fresh K dm) :
    Edited K dm ([] : List (Edit F)) dm where
  same := .refl dm
  draft := fresh.view ▸ fresh.proper.draft
  tidy := fresh.tidy
  content := fun _ => by simp [Edit.writes, lastNew]
  title := by simp [Edit.titles, lastNew]
  others := fun _ _ _ => rfl

theorem Fresh.tracked (fresh : Fresh K dm) :
    Tracked ([] : List (Edit F)) dm where
  created := by simp [fresh.created, Edit.placements]
  deleted := fun block _ => by
    simp [fresh.deleted, Edit.placements, JustDeleted]
  winner := fun block isNew => by
    rw [fresh.view] at isNew ⊢
    simpa [Edit.placements, TreeMutation.settle] using isNew

/-- Setting the title. -/
theorem Edited.setTitle (edited : Edited K start done dm) {title : String}
    (returned : dm.setTitle title = .ok dm') :
    Edited K start (done ++ [.setTitle title]) dm' ∧ dm'.view = dm.view ∧
      dm'.createdBlocks = dm.createdBlocks ∧
      dm'.deletedBlocks = dm.deletedBlocks := by
  have written : dm' = dm ∧ dm.e.state.get ["title"] =
        some (.string title) ∨
      dm' = { dm with patch := dm.patch.set "title" (.string title) } ∧
        dm.e.state.get ["title"] ≠ some (.string title) := by
    rw [Document.setTitle] at returned
    cases found : dm.e.state.get ["title"] with
    | none =>
        simp only [found, pure_eq_ok] at returned
        exact Or.inr ⟨(Except.ok.inj returned).symm, by simp⟩
    | some v =>
        simp only [found] at returned
        obtain ⟨current, isString, rest⟩ := bind_eq_ok.mp returned
        have v_eq : v = .string current := by
          cases v <;> simp [assertType, Value.asString, panicWith] at isString
          rw [isString]
        split_ifs at rest with same
        · exact Or.inl ⟨(Except.ok.inj rest).symm, by rw [v_eq, same]⟩
        · refine Or.inr ⟨(Except.ok.inj rest).symm, ?_⟩
          rw [v_eq]
          simpa using same
  have sameState : dm.e.state = start.e.state := by rw [edited.same.e]
  rcases written with ⟨rfl, isOld⟩ | ⟨rfl, isNew⟩
  · rw [sameState] at isOld
    refine ⟨⟨edited.same, edited.draft, edited.tidy, ?_, ?_, edited.others⟩,
      rfl, rfl, rfl⟩
    · simpa [Edit.writes_append, Edit.writes] using edited.content
    · rw [edited.title, Edit.titles_append]
      simp only [Edit.titles, List.filterMap_cons, List.filterMap_nil]
      rw [lastNew_append, if_pos isOld]
  · rw [sameState] at isNew
    refine ⟨⟨edited.same.trans ⟨rfl, rfl, rfl, rfl, rfl, rfl, rfl⟩,
      edited.draft, ?_, fun block => ?_, ?_, fun key notBlocks notTitle => ?_⟩,
      rfl, rfl, rfl⟩
    · exact edited.tidy.set (by decide) (fun _ => ⟨title, rfl⟩)
        (fun same => absurd same (by decide)) fun _ => rfl
    · rw [contentIn_congr (Object.get_set_of_ne (by decide) :
          (dm.patch.set "title" (.string title)).get "blocks" = _) block, edited.content block]
      simp [Edit.writes]
    · rw [Object.get_set_self, Edit.titles_append]
      simp only [Edit.titles, List.filterMap_cons, List.filterMap_nil]
      rw [lastNew_append, if_neg isNew]
      rfl
    · rw [Object.get_set_of_ne notTitle]
      exact edited.others key notBlocks notTitle

/-- Replacing a block. -/
theorem Edited.replaceBlock (edited : Edited K start done dm) (blk : F.Block) :
    ∃ dm' result, dm.replaceBlock F blk = .ok (dm', result) ∧
      (∀ err, result = .error err → dm' = dm) ∧
      (result = .ok () → Edited K start (done ++ [.replaceBlock blk]) dm') ∧
      dm'.view = dm.view ∧ dm'.createdBlocks = dm.createdBlocks ∧
      dm'.deletedBlocks = dm.deletedBlocks := by
  rw [Document.replaceBlock]
  split_ifs with unnamed
  · exact ⟨_, _, rfl, by simp, by simp, rfl, rfl, rfl⟩
  cases converted : F.blockToMap blk with
  | error err => exact ⟨_, _, rfl, by simp, by simp, rfl, rfl, rfl⟩
  | ok blockMap =>
      simp only
      have writes_eq : ∀ block, Edit.writes [Edit.replaceBlock blk] block =
          if F.blockId blk = block then [blockMap] else [] := by
        intro block
        by_cases same : F.blockId blk = block <;>
          simp [Edit.writes, same, converted, Except.toOption]
      have titles_eq : Edit.titles (done ++ [Edit.replaceBlock blk]) =
          Edit.titles done := by
        simp [Edit.titles]
      have sameState : start.e.state = dm.e.state := by rw [edited.same.e]
      split_ifs with isOld <;> rw [← sameState] at isOld
      · refine ⟨_, _, rfl, by simp, fun _ => ⟨edited.same, edited.draft,
          edited.tidy, fun block => ?_, ?_, edited.others⟩, rfl, rfl, rfl⟩
        · rw [edited.content block, Edit.writes_append, writes_eq]
          split_ifs with same
          · rw [lastNew_append, if_pos (same ▸ isOld)]
          · rw [List.append_nil]
        · rw [edited.title, titles_eq]
      · obtain ⟨patch, written, tidy, content, others⟩ :=
          edited.tidy.objectSet_content (F.blockId blk) blockMap
        rw [written, ok_bind]
        refine ⟨_, _, rfl, by simp, fun _ => ⟨edited.same.trans
          ⟨rfl, rfl, rfl, rfl, rfl, rfl, rfl⟩, edited.draft, tidy,
          fun block => ?_, ?_, fun key notBlocks notTitle => ?_⟩,
          rfl, rfl, rfl⟩
        · rw [content block, Edit.writes_append, writes_eq]
          by_cases same : F.blockId blk = block
          · rw [if_pos same, if_pos same.symm, lastNew_append,
              if_neg (same ▸ isOld)]
            rfl
          · rw [if_neg same, if_neg (Ne.symm same), List.append_nil]
            exact edited.content block
        · rw [others "title" (by decide), titles_eq]
          exact edited.title
        · rw [others key notBlocks]
          exact edited.others key notBlocks notTitle

/-- Moving a block touches neither contents nor titles. -/
theorem Edited.of_moving {block parent : String} {vt : TreeMutation}
    {result : Except String MoveEffect} {done' : List (Edit F)}
    (edited : Edited K start done dm)
    (moving : Moving K dm block parent vt result)
    (started : dm'.mutation = some vt) (same : SameBase dm dm')
    (patch_eq : dm'.patch = dm.patch)
    (writes_eq : ∀ block, Edit.writes done' block = Edit.writes done block)
    (titles_eq : Edit.titles done' = Edit.titles done) :
    Edited K start done' dm' where
  same := edited.same.trans same
  draft := by
    have view_eq : dm'.view = vt := by simp [Document.view, started]
    rw [view_eq, same.tree]
    exact moving.draft
  tidy := patch_eq ▸ edited.tidy
  content := fun block => by
    rw [patch_eq, writes_eq]
    exact edited.content block
  title := by
    rw [patch_eq, titles_eq]
    exact edited.title
  others := fun key notBlocks notTitle => by
    rw [patch_eq]
    exact edited.others key notBlocks notTitle

/-- Only blocks that were there before the mutation can wait in the trash. -/
theorem Draft.original_of_idle {state : TreeCRDT} {vt : TreeMutation}
    {block : String} (draft : Draft K state vt)
    (idle : (vt.dirtyWinners block).map Move.parent = some trashNodeID) :
    vt.originalWinners block ≠ none := by
  obtain ⟨x, winner, isTrash⟩ := Option.map_eq_some_iff.mp idle
  obtain ⟨member, named⟩ := draft.winner_mem winner
  by_cases own : x.IsOwn
  · exact named ▸ draft.trashed x member own isTrash
  · simp [draft.winner_original winner own]

section Track

variable {block parent left : String} {vt : TreeMutation}

theorem placements_place (b : String) :
    Edit.placements (done ++ [.moveBlock block parent left]) b =
      if b = block then Edit.placements done b ++ [true]
      else Edit.placements done b := by
  rw [Edit.placements_append]
  split_ifs with same
  · simp [Edit.placements, same]
  · simp [Edit.placements, Ne.symm same]

theorem placements_delete (b : String) :
    Edit.placements (done ++ [.deleteBlock block]) b =
      if b = block then Edit.placements done b ++ [false]
      else Edit.placements done b := by
  rw [Edit.placements_append]
  split_ifs with same
  · simp [Edit.placements, same]
  · simp [Edit.placements, Ne.symm same]

/-- Placing a block that is not there creates it, else it leaves the trash. -/
theorem Tracked.place (tracked : Tracked done dm)
    (draft : Draft K dm.tree dm.view) {effect : MoveEffect}
    (reports : Reports dm.view block parent vt effect)
    (notTrash : parent ≠ trashNodeID) (view_eq : dm'.view = vt)
    (created_eq : dm'.createdBlocks =
      if effect = .created then addKey dm.createdBlocks block
      else dm.createdBlocks)
    (deleted_eq : dm'.deletedBlocks =
      if effect = .created then dm.deletedBlocks
      else dropKey dm.deletedBlocks block) :
    Tracked (done ++ [.moveBlock block parent left]) dm' := by
  obtain ⟨isThere, effect_eq⟩ := reports.moved notTrash
  have created_iff : effect = .created ↔ dm.view.dirtyWinners block = none := by
    rw [effect_eq]
    split_ifs with absent <;> simp [absent]
  rw [if_congr created_iff rfl rfl] at created_eq deleted_eq
  refine ⟨fun b => ?_, fun b isNew => ?_, fun b isNew => ?_⟩
  · rw [view_eq, reports.originals, placements_place, created_eq]
    by_cases same : b = block
    · subst same
      rw [if_pos rfl]
      split_ifs with absent
      · simp [mem_addKey, draft.original_won absent]
      · rw [tracked.created]
        refine and_congr_right fun isNew => ?_
        have last : (Edit.placements done b).getLast? = some true := by
          by_contra differs
          exact absent ((tracked.winner b isNew).mpr differs)
        simp [List.mem_of_getLast? last]
    · rw [if_neg same, ← tracked.created]
      split_ifs <;> simp [mem_addKey, same]
  · rw [view_eq, reports.originals] at isNew
    rw [placements_place, deleted_eq]
    by_cases same : b = block
    · subst same
      rw [if_pos rfl, justDeleted_append_true]
      split_ifs with absent
      · rw [tracked.deleted b isNew]
        have last := (tracked.winner b isNew).mp absent
        constructor
        · rintro ⟨earlier, split | split⟩
          · simp [split]
          · exact absurd (by simp [split]) last
        · intro isLast
          obtain ⟨earlier, split⟩ := List.getLast?_eq_some_iff.mp isLast
          exact ⟨earlier, Or.inl split⟩
      · have last : (Edit.placements done b).getLast? = some true := by
          by_contra differs
          exact absent ((tracked.winner b isNew).mpr differs)
        simp [mem_dropKey, last]
    · rw [if_neg same, ← tracked.deleted b isNew]
      split_ifs <;> simp [mem_dropKey, same]
  · rw [view_eq, reports.originals] at isNew
    rw [view_eq, placements_place]
    by_cases same : b = block
    · subst same
      simp [isThere]
    · rw [if_neg same, reports.others b same]
      exact tracked.winner b isNew

/-- Deleting a block notes it, and a block that is not in the tree vanishes. -/
theorem Tracked.delete (tracked : Tracked done dm)
    (draft : Draft K dm.tree dm.view) {effect : MoveEffect}
    (reports : Reports dm.view block trashNodeID vt effect)
    (view_eq : dm'.view = vt)
    (created_eq : dm'.createdBlocks = dm.createdBlocks)
    (deleted_eq : dm'.deletedBlocks =
      if effect = .moved then addKey dm.deletedBlocks block
      else dm.deletedBlocks) :
    Tracked (done ++ [.deleteBlock block]) dm' := by
  have deleted := reports.deleted rfl
  refine ⟨fun b => ?_, fun b isNew => ?_, fun b isNew => ?_⟩
  · rw [view_eq, reports.originals, placements_delete, created_eq,
      tracked.created]
    split_ifs <;> simp
  · rw [view_eq, reports.originals] at isNew
    rw [placements_delete, deleted_eq]
    rcases deleted with ⟨isNone, idle, -⟩ | ⟨isMoved, -⟩
    · have wasThere := draft.original_of_idle idle
      have differs : b ≠ block := fun same => wasThere (same ▸ isNew)
      rw [if_neg (by simp [isNone]), if_neg differs]
      exact tracked.deleted b isNew
    · rw [if_pos isMoved, mem_addKey]
      by_cases same : b = block
      · simp [same, justDeleted_append_false]
      · simp [same, tracked.deleted b isNew]
  · rw [view_eq, reports.originals] at isNew
    rw [view_eq, placements_delete]
    by_cases same : b = block
    · subst same
      rcases deleted with ⟨-, idle, -⟩ | ⟨-, gone⟩
      · exact absurd isNew (draft.original_of_idle idle)
      · simp [gone.mpr isNew]
    · rw [if_neg same, reports.others b same]
      exact tracked.winner b isNew

/-- An edit that leaves the mutation and the sets of blocks alone. -/
theorem Tracked.keep {done' : List (Edit F)} (tracked : Tracked done dm)
    (view_eq : dm'.view = dm.view)
    (created_eq : dm'.createdBlocks = dm.createdBlocks)
    (deleted_eq : dm'.deletedBlocks = dm.deletedBlocks)
    (placements_eq : ∀ block,
      Edit.placements done' block = Edit.placements done block) :
    Tracked done' dm' := by
  refine ⟨fun b => ?_, fun b isNew => ?_, fun b isNew => ?_⟩
  · rw [view_eq, created_eq, placements_eq]
    exact tracked.created b
  · rw [deleted_eq, placements_eq]
    exact tracked.deleted b (view_eq ▸ isNew)
  · rw [view_eq, placements_eq]
    exact tracked.winner b (view_eq ▸ isNew)

end Track

/-! ### One edit of a run -/

/-- What a run knows of the document and of the edits that succeeded. -/
def Running (K : Fracdex) (start : Document)
    (acc : Document × List (Edit F)) : Prop :=
  Edited K start acc.2 acc.1 ∧ Tracked acc.2 acc.1

/-- A call that terminates and keeps the run going. -/
def KeepsRunning (K : Fracdex) (start : Document)
    (call : Nat → Outcome (Document × List (Edit F))) : Prop :=
  ∃ outcome, outcome ≠ .error .outOfFuel ∧ Converges call outcome ∧
    ∀ next, outcome = .ok next → Running K start next

theorem setTitle_ne_outOfFuel (dm : Document) (title : String) :
    dm.setTitle title ≠ .error .outOfFuel := by
  rw [Document.setTitle]
  split
  · simp
  · next v _ =>
      cases v <;> simp [assertType, Value.asString, panicWith]
      split_ifs <;> simp

/-- A block was placed: note the effect and, on success, the edit. -/
def noteMove (done : List (Edit F)) (block parent left : String)
    (moved : Document × Except String MoveEffect) :
    Document × List (Edit F) :=
  match moved with
  | (dm, .error _) => (dm, done)
  | (dm, .ok effect) =>
      ({ dm with
          createdBlocks := if effect = .created then
            addKey dm.createdBlocks block else dm.createdBlocks
          deletedBlocks := if effect = .moved then
            dropKey dm.deletedBlocks block else dm.deletedBlocks },
        done ++ [.moveBlock block parent left])

/-- A block was deleted: note the effect and, on success, the edit. -/
def noteDelete (done : List (Edit F)) (block : String)
    (moved : Document × Except String MoveEffect) :
    Document × List (Edit F) :=
  match moved with
  | (dm, .error _) => (dm, done)
  | (dm, .ok effect) =>
      ({ dm with
          deletedBlocks := if effect = .moved then
            addKey dm.deletedBlocks block else dm.deletedBlocks },
        done ++ [.deleteBlock block])

section Note

variable {block parent left : String} {vt : TreeMutation}
    {moved : Document × Except String MoveEffect}

/-- A call that fails leaves the edits as they are. -/
theorem Running.failed {err : String} (running : Running K start (dm, done))
    (next_eq : moved.1 = { dm with mutation := some vt })
    (isError : moved.2 = .error err)
    (moving : Moving K dm block parent vt moved.2) :
    Running K start (moved.1, done) := by
  obtain ⟨edited, tracked⟩ := running
  have view_eq : moved.1.view = dm.view := by
    rw [next_eq, ← moving.failed err isError]
    rfl
  refine ⟨edited.of_moving moving (by rw [next_eq]) ?_ (by rw [next_eq])
    (fun _ => rfl) rfl, tracked.keep view_eq (by rw [next_eq])
    (by rw [next_eq]) fun _ => rfl⟩
  rw [next_eq]
  exact ⟨rfl, rfl, rfl, rfl, rfl, rfl, rfl⟩

/-- A move that succeeds is noted with its block. -/
theorem Running.noteMove (running : Running K start (dm, done))
    (notTrash : parent ≠ trashNodeID)
    (next_eq : moved.1 = { dm with mutation := some vt })
    (moving : Moving K dm block parent vt moved.2) :
    Running K start (Docmodel.noteMove done block parent left moved) := by
  obtain ⟨next, result⟩ := moved
  cases result with
  | error err => exact running.failed next_eq rfl moving
  | ok effect =>
      obtain ⟨edited, tracked⟩ := running
      simp only at next_eq
      subst next_eq
      have reports := moving.reports effect rfl
      refine ⟨edited.of_moving moving rfl ⟨rfl, rfl, rfl, rfl, rfl, rfl, rfl⟩
        rfl (fun b => by simp [Edit.writes, Docmodel.noteMove])
        (by simp [Edit.titles, Docmodel.noteMove]), ?_⟩
      refine tracked.place edited.draft reports notTrash rfl rfl ?_
      obtain ⟨-, effect_eq⟩ := reports.moved notTrash
      simp only [Docmodel.noteMove]
      rw [effect_eq]
      split_ifs with first second third <;> simp_all

/-- A deletion that succeeds is noted with its block. -/
theorem Running.noteDelete (running : Running K start (dm, done))
    (next_eq : moved.1 = { dm with mutation := some vt })
    (moving : Moving K dm block trashNodeID vt moved.2) :
    Running K start (Docmodel.noteDelete done block moved) := by
  obtain ⟨next, result⟩ := moved
  cases result with
  | error err => exact running.failed next_eq rfl moving
  | ok effect =>
      obtain ⟨edited, tracked⟩ := running
      simp only at next_eq
      subst next_eq
      refine ⟨edited.of_moving moving rfl ⟨rfl, rfl, rfl, rfl, rfl, rfl, rfl⟩
        rfl (fun b => by simp [Edit.writes, Docmodel.noteDelete])
        (by simp [Edit.titles, Docmodel.noteDelete]), ?_⟩
      exact tracked.delete edited.draft (moving.reports effect rfl) rfl rfl rfl

/-- A move whose result is noted terminates and keeps the run going. -/
theorem Running.moving (running : Running K start (dm, done))
    (proper : ProperCall ⟨block, parent, left⟩) {edit : Edit F}
    {note : Document × Except String MoveEffect → Document × List (Edit F)}
    (unfolded : ∀ fuel, Document.performNext K F fuel (dm, done) edit =
      dm.moving K fuel block parent left >>= fun moved => pure (note moved))
    (noted : ∀ moved vt, moved.1 = { dm with mutation := some vt } →
      Moving K dm block parent vt moved.2 → Running K start (note moved)) :
    KeepsRunning K start
      (fun fuel => Document.performNext K F fuel (dm, done) edit) := by
  rcases moving_spec running.1.draft proper with ⟨outcome, notRunning, moved, spec⟩
  cases outcome with
  | error abort =>
      exact ⟨.error abort, by simpa using notRunning,
        moved.bind_abort.congr fun fuel => (unfolded fuel).symm, by simp⟩
  | ok moved' =>
      rcases spec moved' rfl with ⟨vt, next_eq, moving⟩
      refine ⟨.ok (note moved'), by simp,
        (moved.map _).congr fun fuel => (unfolded fuel).symm, ?_⟩
      rintro _ ⟨rfl⟩
      exact noted moved' vt next_eq moving

/-- A block is moved; moving it to the trash panics. -/
theorem Running.moveBlock (running : Running K start (dm, done))
    (proper : ProperCall ⟨block, parent, left⟩) :
    KeepsRunning K start (fun fuel => Document.performNext K F fuel (dm, done)
      (.moveBlock block parent left)) := by
  by_cases isTrash : parent = trashNodeID
  · refine ⟨_, by simp [panicWith], (Converges.const
      (panicWith "BUG: use DeleteBlock to delete a block")).congr
        fun fuel => ?_, by simp [panicWith]⟩
    simp [Document.performNext, Document.perform, Document.moveBlock,
      isTrash, panicWith]
  · have unfolded : ∀ fuel, Document.performNext K F fuel (dm, done)
        (.moveBlock block parent left) =
          dm.moving K fuel block parent left >>= fun moved =>
            pure (Docmodel.noteMove done block parent left moved) := by
      intro fuel
      simp only [Document.performNext, Document.perform, Document.moveBlock,
        if_neg isTrash, bind_assoc]
      refine congrArg (_ >>= ·) (funext fun result => ?_)
      rcases result with ⟨dm', err | effect⟩
      · rfl
      · cases effect <;> rfl
    exact running.moving proper unfolded fun _ _ next_eq moving =>
      running.noteMove isTrash next_eq moving

/-- A block is moved to the trash. -/
theorem Running.deleteBlock (running : Running K start (dm, done))
    (proper : ProperCall ⟨block, trashNodeID, ""⟩) :
    KeepsRunning K start (fun fuel => Document.performNext K F fuel (dm, done)
      (.deleteBlock block)) := by
  have unfolded : ∀ fuel, Document.performNext K F fuel (dm, done)
      (.deleteBlock block) =
        dm.moving K fuel block trashNodeID "" >>= fun moved =>
          pure (Docmodel.noteDelete done block moved) := by
    intro fuel
    simp only [Document.performNext, Document.perform,
      Document.deleteBlock, bind_assoc]
    refine congrArg (_ >>= ·) (funext fun result => ?_)
    rcases result with ⟨dm', err | effect⟩
    · rfl
    · cases effect <;> rfl
  exact running.moving proper unfolded fun _ _ next_eq moving =>
    running.noteDelete next_eq moving

end Note

/-- The title is set; a title of another type panics. -/
theorem Running.setTitle (running : Running K start (dm, done)) (title : String) :
    KeepsRunning K start (fun fuel => Document.performNext K F fuel (dm, done)
      (.setTitle title)) := by
  cases returned : dm.setTitle title with
  | error abort =>
      refine ⟨.error abort, ?_, (Converges.const _).congr fun fuel => ?_, by simp⟩
      · rintro ⟨rfl⟩
        exact setTitle_ne_outOfFuel dm title returned
      · simp [Document.performNext, Document.perform, returned]
  | ok next =>
      rcases running.1.setTitle returned with ⟨edited, view_eq, created_eq, deleted_eq⟩
      refine ⟨.ok (next, done ++ [.setTitle title]), by simp,
        (Converges.const _).congr fun fuel => ?_, ?_⟩
      · simp [Document.performNext, Document.perform, returned]
      · rintro _ ⟨rfl⟩
        exact ⟨edited, running.2.keep view_eq created_eq deleted_eq
          fun block => by simp [Edit.placements]⟩

/-- The content of a block is replaced, or the call fails and changes nothing. -/
theorem Running.replaceBlock (running : Running K start (dm, done)) (blk : F.Block) :
    KeepsRunning K start (fun fuel => Document.performNext K F fuel (dm, done)
      (.replaceBlock blk)) := by
  rcases running.1.replaceBlock blk with
    ⟨next, result, returned, failed, replaced, view_eq, created_eq, deleted_eq⟩
  cases result with
  | error err =>
      refine ⟨.ok (next, done), by simp, (Converges.const _).congr fun fuel => ?_, ?_⟩
      · simp [Document.performNext, Document.perform, returned]
      · rintro _ ⟨rfl⟩
        rw [failed err rfl]
        exact running
  | ok =>
      refine ⟨.ok (next, done ++ [.replaceBlock blk]), by simp,
        (Converges.const _).congr fun fuel => ?_, ?_⟩
      · simp [Document.performNext, Document.perform, returned]
      · rintro _ ⟨rfl⟩
        exact ⟨replaced rfl, running.2.keep view_eq created_eq deleted_eq
          fun block => by simp [Edit.placements]⟩

/-- The next edit of a run. -/
theorem Running.performNext (running : Running K start (dm, done))
    {edit : Edit F} (proper : edit.Proper) :
    KeepsRunning K start
      (fun fuel => Document.performNext K F fuel (dm, done) edit) := by
  cases edit with
  | setTitle title => exact running.setTitle title
  | replaceBlock blk => exact running.replaceBlock blk
  | moveBlock block parent left => exact running.moveBlock proper
  | deleteBlock block => exact running.deleteBlock proper

/-- A run of proper edits on a fresh document. -/
theorem Fresh.performAll (fresh : Fresh K start) {edits : List (Edit F)}
    (proper : ∀ edit ∈ edits, edit.Proper) :
    KeepsRunning K start (fun fuel => start.performAll K F fuel edits) :=
  Terminates.foldlM (Running K start)
    (fun edit member _ running => by
      obtain ⟨outcome, notRunning, converges, -⟩ :=
        running.performNext (proper edit member)
      exact ⟨outcome, notRunning, converges⟩)
    (fun edit member _ next running stepped => by
      obtain ⟨outcome, -, converges, holds⟩ :=
        running.performNext (proper edit member)
      exact holds next (converges.unique stepped))
    ⟨fresh.edited, fresh.tracked⟩

end Steps

end Mintter.Docmodel
