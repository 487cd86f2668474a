import Mintter.Docmodel.Cleanup

/-!
# The contents that a patch holds

After the cleanup the patch and the state of the entity together hold a content
for every block.  It is the one that was written last, unless an edit took a
content back to what the state had, or the block was created, deleted and
created again.
-/

namespace Mintter.Docmodel

open Mintter.Foundation
open Mintter.Crdt2
open Mintter.Hyper
open TreeMutation

/-! ## Writes that are compared with an old value -/

section LastNew

variable {α : Type}

/-- Nothing is new if all values are old. -/
theorem lastNew_eq_none {isOld : α → Prop} [DecidablePred isOld]
    {values : List α} :
    lastNew isOld values = none ↔ ∀ value ∈ values, isOld value := by
  simp [lastNew]

theorem not_isOld_of_lastNew {isOld : α → Prop} [DecidablePred isOld]
    {values : List α} {value : α} (isLast : lastNew isOld values = some value) :
    ¬ isOld value := by
  have member := List.mem_of_getLast? isLast
  simpa using (List.mem_filter.mp member).2

/-- A last value that is not old is the last new one. -/
theorem lastNew_of_getLast? {isOld : α → Prop} [DecidablePred isOld]
    {values : List α} {value : α} (isLast : values.getLast? = some value)
    (isNew : ¬ isOld value) : lastNew isOld values = some value := by
  obtain ⟨earlier, rfl⟩ := List.getLast?_eq_some_iff.mp isLast
  rw [lastNew_append, if_neg isNew]

/-- The last value is not the old one, or no value differed from it. -/
def StaysLast (old : Option Value) (wrap : α → Value) (values : List α) :
    Prop :=
  ∀ last, values.getLast? = some last → old = some (wrap last) →
    ∀ value ∈ values, value = last

/--
Dropping the writes that are equal to the old value keeps the last write
exactly when it does not go back to the old value.
-/
theorem lastNew_or_eq_iff {old : Option Value} {wrap : α → Value}
    (injective : Function.Injective wrap) {values : List α} :
    ((lastNew (fun value => old = some (wrap value)) values).map wrap).or old =
        (values.getLast?.map wrap).or old ↔ StaysLast old wrap values := by
  cases isLast : values.getLast? with
  | none =>
      have empty : values = [] := List.getLast?_eq_none_iff.mp isLast
      simp [empty, lastNew, StaysLast]
  | some last =>
      have stays_iff : StaysLast old wrap values ↔
          (old = some (wrap last) → ∀ value ∈ values, value = last) := by
        simp [StaysLast, isLast]
      rw [stays_iff]
      by_cases isOld : old = some (wrap last)
      · have old_iff : ∀ value, old = some (wrap value) ↔ value = last := by
          intro value
          rw [isOld, Option.some.injEq, injective.eq_iff, eq_comm]
        simp only [isOld, Option.map_some, Option.some_or, forall_const]
        rw [← isOld]
        constructor
        · intro same value member
          rw [← old_iff]
          have nothing : lastNew (fun value => old = some (wrap value))
              values = none := by
            cases written : lastNew (fun value => old = some (wrap value))
              values with
            | none => rfl
            | some value =>
                have isNew := not_isOld_of_lastNew written
                rw [written] at same
                exact absurd same.symm isNew
          exact lastNew_eq_none.mp nothing value member
        · intro all
          have nothing : lastNew (fun value => old = some (wrap value))
              values = none :=
            lastNew_eq_none.mpr fun value member =>
              (old_iff value).mpr (all value member)
          rw [nothing]
          rfl
      · rw [lastNew_of_getLast? isLast isOld]
        simp [isOld]

end LastNew

/-! ## Contents after the cleanup -/

/-- The content of a block by the patch, else by the state. -/
def Document.content (dm : Document) (block : String) : Option Value :=
  ((contentIn dm.patch block).map Value.map).or
    (dm.e.state.get ["blocks", block])

section Contents

variable {K : Fracdex} {F : BlockFormat} {start dm dm' : Document}
    {done edits : List (Edit F)} {block : String}

/-- The content that was written last, else the one of the state. -/
def Edit.content (start : Document) (done : List (Edit F)) (block : String) :
    Option Value :=
  ((Edit.writes done block).getLast?.map Value.map).or
    (start.e.state.get ["blocks", block])

/--
A block that the loaded tree does not have was deleted, and placed at most once
since then: the document still counts it as created and deleted.
-/
def Forgotten (start : Document) (done : List (Edit F)) (block : String) :
    Prop :=
  start.view.originalWinners block = none ∧
    JustDeleted (Edit.placements done block)

/-- The content that was written last is not lost. -/
def ContentStays (start : Document) (done : List (Edit F)) (block : String) :
    Prop :=
  (Forgotten start done block → ∀ last,
      (Edit.writes done block).getLast? = some last →
        start.e.state.get ["blocks", block] = some (.map last)) ∧
    (¬ Forgotten start done block →
      StaysLast (start.e.state.get ["blocks", block]) .map
        (Edit.writes done block))

theorem Value.map_injective : Function.Injective Value.map :=
  fun _ _ => Value.map.inj

/-- Edits do not change which moves won when the document was loaded. -/
theorem Edited.view_originals (fresh : Fresh K start)
    (edited : Edited K start done dm) :
    dm.view.originalWinners = start.view.originalWinners := by
  rw [edited.draft.originals, edited.same.tree, fresh.view]
  rfl

/-- A shown block is noted as created and deleted when it is forgotten. -/
theorem Tracked.forgotten_iff (fresh : Fresh K start)
    (edited : Edited K start done dm) (tracked : Tracked done dm)
    (isThere : dm.view.dirtyWinners block ≠ none) :
    dm.mutation.isSome ∧ block ∈ dm.createdBlocks ∧
      block ∈ dm.deletedBlocks ↔ Forgotten start done block := by
  rw [tracked.created, Forgotten, ← edited.view_originals fresh]
  constructor
  · rintro ⟨-, ⟨isNew, -⟩, isDeleted⟩
    exact ⟨isNew, (tracked.deleted block isNew).mp isDeleted⟩
  · rintro ⟨isNew, justDeleted⟩
    have last : (Edit.placements done block).getLast? = some true := by
      by_contra differs
      exact isThere ((tracked.winner block isNew).mpr differs)
    refine ⟨?_, ⟨isNew, List.mem_of_getLast? last⟩,
      (tracked.deleted block isNew).mpr justDeleted⟩
    cases started : dm.mutation with
    | some vt => rfl
    | none =>
        -- Without a mutation the document shows what was loaded.
        have view_eq : dm.view = dm.tree.resolve.settle := by
          simp [Document.view, started]
        rw [view_eq] at isThere isNew
        exact absurd isNew isThere

/-- After the cleanup a shown block has its last content unless it was forgotten. -/
theorem CleanedUp.content_iff {moves : List Value} (fresh : Fresh K start)
    (empty : start.patch = []) (running : Running K start (dm, done))
    (cleaned : CleanedUp dm moves dm')
    (isThere : dm.view.dirtyWinners block ≠ none) :
    dm'.content block = Edit.content start done block ↔
      ContentStays start done block := by
  obtain ⟨edited, tracked⟩ := running
  have forgotten_iff := tracked.forgotten_iff fresh edited isThere
  have state_eq : dm'.e.state = start.e.state := by
    rw [cleaned.same.e, edited.same.e]
  have noContent : contentIn start.patch block = none := by
    simp [empty, contentIn, blocksIn]
  rw [Document.content, Edit.content, state_eq, cleaned.content,
    edited.content, noContent, Option.or_none, ContentStays]
  by_cases forgotten : Forgotten start done block
  · rw [if_pos (forgotten_iff.mpr forgotten)]
    simp only [forgotten, not_true_eq_false, false_implies, and_true,
      true_implies]
    cases isLast : (Edit.writes done block).getLast? with
    | none => simp
    | some last => simp
  · rw [if_neg (fun noted => forgotten (forgotten_iff.mp noted))]
    simp only [forgotten, not_false_eq_true, false_implies, true_and,
      true_implies]
    exact lastNew_or_eq_iff Value.map_injective

/--
The cleanup after a run of edits succeeds, and for all blocks of the mutated
tree the last written content is held exactly when none of them is forgotten
or taken back to the content of the state.
-/
theorem cleanup_keeps_content_iff {e : Entity} {signer : KeyPair}
    {delegation : String}
    (loaded : Document.new K e signer delegation = .ok (.ok start))
    (proper : ProperMoves start.tree)
    (properEdits : ∀ edit ∈ edits, edit.Proper)
    (edited : Converges (fun fuel => start.performAll K F fuel edits)
      (.ok (dm, done))) :
    ∃ dm' pairs, Converges (fun fuel => dm.cleanupPatch fuel) (.ok dm') ∧
      Converges (fun fuel => dm.view.walked fuel) (.ok pairs) ∧
      ((∀ pair ∈ pairs,
          dm'.content pair.2 = Edit.content start done pair.2) ↔
        ∀ pair ∈ pairs, ContentStays start done pair.2) := by
  obtain ⟨fresh, -, empty, -⟩ := fresh_of_new loaded proper
  obtain ⟨outcome, -, converges, holds⟩ := fresh.performAll properEdits
  have running : Running K start (dm, done) :=
    holds _ (converges.unique edited)
  have draft := running.1.draft
  obtain ⟨dm', cleaned, spec⟩ := cleanupPatch_spec draft running.1.tidy
  refine ⟨dm', _, cleaned, walked_converges draft.sound.index
    draft.sound.oneVisible draft.blocksNamed, ?_⟩
  refine forall₂_congr fun pair member => ?_
  obtain ⟨m, walked, rfl⟩ := List.mem_map.mp member
  refine spec.content_iff fresh empty running ?_
  obtain ⟨inTree, -, visible⟩ :=
    mem_visibleUnder.mp (draft.mem_walk_iff.mp walked).1
  simp [(draft.visible_iff inTree).mp visible]

end Contents

/-! ## Sample documents -/

/-- Blocks with a text. -/
def sampleFormat : BlockFormat where
  Block := String × String
  blockId := Prod.fst
  marshal := fun blk => .ok [("id", .string blk.1), ("text", .string blk.2)]

/-- A key that signs everything alike. -/
def sampleKeyPair : KeyPair where
  principal := [0xed, 0x01, 1]
  sign := fun _ => .ok "signature"

/-- A document of an entity without changes. -/
def sampleDocument : Document where
  e := newEntity "doc"
  signer := sampleKeyPair
  delegation := "delegation"
  tree := newTreeCRDT
  mutation := none
  patch := []
  oldAction := ""
  done := false
  nextHLC := 0
  createdBlocks := []
  deletedBlocks := []

/-- The sample document is loaded from an entity without changes. -/
theorem new_sampleDocument : Document.new sampleFracdex (newEntity "doc")
    sampleKeyPair "delegation" = .ok (.ok sampleDocument) := rfl

theorem cleanup_keeps_content_iff_sampleDocument :
    ∃ dm : Document, ∃ done : List (Edit sampleFormat),
      ∃ dm' pairs, Converges (fun fuel => dm.cleanupPatch fuel) (.ok dm') ∧
        Converges (fun fuel => dm.view.walked fuel) (.ok pairs) ∧
        ((∀ pair ∈ pairs, dm'.content pair.2 =
            Edit.content sampleDocument done pair.2) ↔
          ∀ pair ∈ pairs, ContentStays sampleDocument done pair.2) := by
  have edited : ∃ acc, ∀ fuel, sampleDocument.performAll sampleFracdex
      sampleFormat (fuel + 8)
        [.moveBlock "b1" "" "", .replaceBlock ("b1", "one")] = .ok acc :=
    ⟨_, fun _ => rfl⟩
  obtain ⟨⟨dm, done⟩, edited⟩ := edited
  exact ⟨dm, done, cleanup_keeps_content_iff new_sampleDocument
    (by simp [ProperMoves, sampleDocument, newTreeCRDT])
    (by simpa [Edit.Proper] using (by decide : ProperCall ⟨"b1", "", ""⟩))
    (.of_add 8 edited)⟩

/--
A block is created, written, deleted and created again: the cleanup forgets the
content of the block, which is shown.
-/
theorem recreated_block_loses_content :
    Document.new sampleFracdex (newEntity "doc") sampleKeyPair "delegation" =
        .ok (.ok sampleDocument) ∧
      ∃ dm : Document, ∃ done : List (Edit sampleFormat), ∃ dm',
      Converges (fun fuel => sampleDocument.performAll sampleFracdex
        sampleFormat fuel
          [.moveBlock "b1" "" "", .replaceBlock ("b1", "one"),
            .deleteBlock "b1", .moveBlock "b1" "" ""]) (.ok (dm, done)) ∧
      Converges (fun fuel => dm.cleanupPatch fuel) (.ok dm') ∧
      Converges (fun fuel => dm.view.walked fuel) (.ok [("", "b1")]) ∧
      Edit.content sampleDocument done "b1" =
        some (.map [("text", .string "one")]) ∧
      dm'.content "b1" = none :=
  ⟨new_sampleDocument, _, _, _, .of_add 8 fun _ => rfl,
    .of_add 8 fun _ => rfl, .of_add 8 fun _ => rfl, rfl, rfl⟩

end Mintter.Docmodel
