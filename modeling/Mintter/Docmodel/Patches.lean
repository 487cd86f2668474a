import Mintter.Docmodel.Document

/-!
# The patches of documents

A document only ever writes patches of one shape: plain fields, the list of
moves, and an object of blocks in which every block is a tagged content
(`TidyPatch`).  `contentIn` reads the content of a block out of such a patch;
the nested object operations change it at one block.
-/

namespace Mintter.Docmodel

open Mintter.Foundation
open Mintter.Crdt2

/-- The tagged content of a block. -/
def tagged (content : Object) : Value := .map [("#map", .map content)]

/-- The object under the key `blocks`. -/
def blocksIn (patch : Object) : Object :=
  match patch.get "blocks" with
  | some (.map blocks) => blocks
  | _ => []

/-- The content that the patch holds for a block. -/
def contentIn (patch : Object) (block : String) : Option Object :=
  match Object.get (blocksIn patch) block with
  | some (.map [("#map", .map content)]) => some content
  | _ => none

/-- A list of saved moves under its tag. -/
def taggedMoves (moves : List Value) : Value :=
  .map [("#list", .map [("#ins", .list moves)])]

/-- The shape of the patches that documents write. -/
structure TidyPatch (patch : Object) : Prop where
  sorted : patch.Sorted
  blocks : ∀ v, patch.get "blocks" = some v →
    ∃ blocks : Object, v = .map blocks ∧ blocks.Sorted ∧
      ∀ field ∈ blocks, ∃ content, field.2 = tagged content
  title : ∀ v, patch.get "title" = some v → ∃ title, v = .string title
  moves : ∀ v, patch.get "moves" = some v → ∃ moves, v = taggedMoves moves
  others : ∀ key v, patch.get key = some v → key ≠ "blocks" →
    key ≠ "moves" → v.asMap = none

/-- The empty patch is tidy. -/
theorem TidyPatch.nil : TidyPatch [] := by
  refine ⟨KeyedList.Sorted.nil, ?_, ?_, ?_, ?_⟩ <;> simp

section Tidy

variable {patch : Object} {block : String} {content : Object}

theorem TidyPatch.blocksIn (tidy : TidyPatch patch) :
    (blocksIn patch).Sorted ∧
      ∀ field ∈ blocksIn patch, ∃ content, field.2 = tagged content := by
  cases found : patch.get "blocks" with
  | none =>
      have empty : Docmodel.blocksIn patch = [] := by simp [Docmodel.blocksIn, found]
      rw [empty]
      exact ⟨KeyedList.Sorted.nil, by simp⟩
  | some v =>
      obtain ⟨blocks, rfl, sorted, areTagged⟩ := tidy.blocks v found
      have isBlocks : Docmodel.blocksIn patch = blocks := by
        simp [Docmodel.blocksIn, found]
      rw [isBlocks]
      exact ⟨sorted, areTagged⟩

/-- The patch has blocks, or it has none and the key is missing. -/
theorem TidyPatch.get_blocks (tidy : TidyPatch patch) :
    patch.get "blocks" = none ∧ Docmodel.blocksIn patch = [] ∨
      patch.get "blocks" = some (.map (Docmodel.blocksIn patch)) := by
  cases found : patch.get "blocks" with
  | none => exact Or.inl ⟨rfl, by simp [Docmodel.blocksIn, found]⟩
  | some v =>
      obtain ⟨blocks, rfl, -, -⟩ := tidy.blocks v found
      exact Or.inr (by simp [Docmodel.blocksIn, found])

/-- A block has content in the patch if a tagged map is stored for it. -/
theorem contentIn_eq_some (tidy : TidyPatch patch) :
    contentIn patch block = some content ↔
      Object.get (blocksIn patch) block = some (tagged content) := by
  rw [contentIn]
  cases found : Object.get (blocksIn patch) block with
  | none => simp
  | some v =>
      obtain ⟨content', isTagged⟩ := tidy.blocksIn.2 (block, v)
        (tidy.blocksIn.1.mem_iff.mpr found)
      simp only at isTagged
      simp [isTagged, tagged]

/-- A block has no content in the patch if nothing is stored for it. -/
theorem contentIn_eq_none (tidy : TidyPatch patch) :
    contentIn patch block = none ↔
      Object.get (blocksIn patch) block = none := by
  constructor
  · intro absent
    cases found : Object.get (blocksIn patch) block with
    | none => rfl
    | some v =>
        obtain ⟨content', isTagged⟩ := tidy.blocksIn.2 (block, v)
          (tidy.blocksIn.1.mem_iff.mpr found)
        have present : contentIn patch block = some content' :=
          (contentIn_eq_some tidy).mpr (found.trans (congrArg some isTagged))
        simp [present] at absent
  · intro absent
    simp [contentIn, absent]

/-- Patches with the same blocks hold the same contents. -/
theorem contentIn_congr {patch' : Object}
    (same : patch'.get "blocks" = patch.get "blocks") (block : String) :
    contentIn patch' block = contentIn patch block := by
  simp [contentIn, Docmodel.blocksIn, same]

/-- Setting a field other than the blocks. -/
theorem TidyPatch.set {key : String} {v : Value} (tidy : TidyPatch patch)
    (notBlocks : key ≠ "blocks")
    (isTitle : key = "title" → ∃ title, v = .string title)
    (isMoves : key = "moves" → ∃ moves, v = taggedMoves moves)
    (isOther : key ≠ "moves" → v.asMap = none) :
    TidyPatch (patch.set key v) where
  sorted := tidy.sorted.set key v
  blocks := fun v' found => by
    rw [Object.get_set_of_ne (Ne.symm notBlocks)] at found
    exact tidy.blocks v' found
  title := fun v' found => by
    rw [Object.get_set] at found
    split_ifs at found with same
    · exact Option.some.inj found ▸ isTitle same.symm
    · exact tidy.title v' found
  moves := fun v' found => by
    rw [Object.get_set] at found
    split_ifs at found with same
    · exact Option.some.inj found ▸ isMoves same.symm
    · exact tidy.moves v' found
  others := fun key' v' found notBlocks' notMoves => by
    rw [Object.get_set] at found
    split_ifs at found with same
    · exact Option.some.inj found ▸ isOther (same ▸ notMoves)
    · exact tidy.others key' v' found notBlocks' notMoves

/-- A tidy patch stays tidy without one of its keys. -/
theorem TidyPatch.delete (tidy : TidyPatch patch) (key : String) :
    TidyPatch (patch.delete key) := by
  have found_old : ∀ {key' v}, (patch.delete key).get key' = some v →
      patch.get key' = some v := by
    intro key' v found
    rw [Object.get_delete] at found
    split_ifs at found
    exact found
  exact ⟨tidy.sorted.delete key, fun v found => tidy.blocks v (found_old found),
    fun v found => tidy.title v (found_old found),
    fun v found => tidy.moves v (found_old found),
    fun key' v found => tidy.others key' v (found_old found)⟩

/-- Replacing the object of blocks by another one. -/
theorem TidyPatch.setBlocks {blocks : Object} (tidy : TidyPatch patch)
    (sorted : blocks.Sorted)
    (areTagged : ∀ field ∈ blocks, ∃ content, field.2 = tagged content) :
    TidyPatch (patch.set "blocks" (.map blocks)) where
  sorted := tidy.sorted.set _ _
  blocks := fun v found => by
    rw [Object.get_set_self] at found
    exact ⟨blocks, (Option.some.inj found).symm, sorted, areTagged⟩
  title := fun v found =>
    tidy.title v (by rwa [Object.get_set_of_ne (by decide)] at found)
  moves := fun v found =>
    tidy.moves v (by rwa [Object.get_set_of_ne (by decide)] at found)
  others := fun key v found notBlocks notMoves =>
    tidy.others key v (by rwa [Object.get_set_of_ne notBlocks] at found)
      notBlocks notMoves

/-- Writing the content of a block succeeds and changes only that content. -/
theorem TidyPatch.objectSet_content (tidy : TidyPatch patch)
    (block : String) (content : Object) :
    ∃ patch', objectSet patch ["blocks", block, "#map"] (.map content) =
        .ok patch' ∧ TidyPatch patch' ∧
      (∀ other, contentIn patch' other =
        if other = block then some content else contentIn patch other) ∧
      ∀ key, key ≠ "blocks" → patch'.get key = patch.get key := by
  obtain ⟨sorted, areTagged⟩ := tidy.blocksIn
  set blocks := (Docmodel.blocksIn patch).set block (tagged content) with
    blocks_eq
  have inner : (patch.get "blocks").getD (.map []) =
      .map (Docmodel.blocksIn patch) := by
    rcases tidy.get_blocks with ⟨absent, empty⟩ | present
    · rw [absent, empty]
      rfl
    · rw [present]
      rfl
  have entry : ∃ old : Object, ((Docmodel.blocksIn patch).get block).getD
      (.map []) = .map old ∧ Object.set old "#map" (.map content) =
        [("#map", .map content)] := by
    cases found : (Docmodel.blocksIn patch).get block with
    | none => exact ⟨[], rfl, rfl⟩
    | some v =>
        obtain ⟨content', isTagged⟩ := areTagged (block, v)
          (sorted.mem_iff.mpr found)
        exact ⟨[("#map", .map content')], isTagged,
          by simp [Object.set, KeyedList.set]⟩
  obtain ⟨old, isOld, replaced⟩ := entry
  have computed : objectSet patch ["blocks", block, "#map"] (.map content) =
      .ok (patch.set "blocks" (.map blocks)) := by
    simp only [objectSet, inner, isOld, assertType, Value.asMap,
      Option.bind_some, ok_bind, pure_eq_ok, replaced]
    rfl
  have tidy' : TidyPatch (patch.set "blocks" (.map blocks)) := by
    refine tidy.setBlocks (sorted.set _ _) fun field member => ?_
    rcases KeyedList.mem_set_subset member with rfl | isOld
    · exact ⟨content, rfl⟩
    · exact areTagged field isOld
  have blocks_now : Docmodel.blocksIn (patch.set "blocks" (.map blocks)) =
      blocks := by
    simp [Docmodel.blocksIn]
  refine ⟨_, computed, tidy', fun other => ?_, fun key differs => ?_⟩
  · rw [contentIn, contentIn, blocks_now, blocks_eq, Object.get_set]
    split_ifs
    · rfl
    · rfl
  · exact Object.get_set_of_ne differs

/-- Forgetting a block succeeds and drops only its content. -/
theorem TidyPatch.objectDelete_content (tidy : TidyPatch patch)
    (block : String) :
    ∃ patch', objectDelete patch ["blocks", block] = .ok patch' ∧
      TidyPatch patch' ∧
      (∀ other, contentIn patch' other =
        if other = block then none else contentIn patch other) ∧
      ∀ key, key ≠ "blocks" → patch'.get key = patch.get key := by
  obtain ⟨sorted, areTagged⟩ := tidy.blocksIn
  rcases tidy.get_blocks with ⟨absent, empty⟩ | present
  · refine ⟨patch, by simp [objectDelete, absent], tidy, fun other => ?_,
      fun _ _ => rfl⟩
    have nothing : contentIn patch other = none := by
      simp [contentIn, empty]
    rw [nothing, ite_self]
  · set blocks := (Docmodel.blocksIn patch).delete block with blocks_eq
    have computed : objectDelete patch ["blocks", block] =
        .ok (patch.set "blocks" (.map blocks)) := by
      simp only [objectDelete, present, assertType, Value.asMap,
        Option.bind_some, ok_bind, pure_eq_ok]
      rfl
    have blocks_now : Docmodel.blocksIn (patch.set "blocks" (.map blocks)) =
        blocks := by
      simp [Docmodel.blocksIn]
    refine ⟨_, computed, ?_, fun other => ?_, fun key differs => ?_⟩
    · refine tidy.setBlocks (sorted.delete block) fun field member => ?_
      exact areTagged field (List.mem_of_mem_filter member)
    · rw [contentIn, contentIn, blocks_now, blocks_eq, Object.get_delete]
      split_ifs
      · rfl
      · rfl
    · exact Object.get_set_of_ne differs

/-- Dropping an empty object of blocks loses no content. -/
theorem TidyPatch.dropEmptyBlocks (tidy : TidyPatch patch) :
    TidyPatch (Document.dropEmptyBlocks patch) ∧
      (∀ block, contentIn (Document.dropEmptyBlocks patch) block =
        contentIn patch block) ∧
      ∀ key, key ≠ "blocks" →
        (Document.dropEmptyBlocks patch).get key = patch.get key := by
  rw [Document.dropEmptyBlocks]
  split_ifs with empty
  · refine ⟨tidy.delete _, fun block => ?_, fun key differs => ?_⟩
    · simp [contentIn, Docmodel.blocksIn, Object.get_delete, empty]
    · rw [Object.get_delete, if_neg differs]
  · exact ⟨tidy, fun _ => rfl, fun _ _ => rfl⟩

/-- Forgetting the blocks that were created and deleted. -/
theorem TidyPatch.forgetBlocks (tidy : TidyPatch patch)
    (created deleted : List String) :
    ∃ patch', deleted.foldlM (Document.forgetBlock created) patch =
        .ok patch' ∧ TidyPatch patch' ∧
      (∀ block, contentIn patch' block =
        if block ∈ created ∧ block ∈ deleted then none
        else contentIn patch block) ∧
      ∀ key, key ≠ "blocks" → patch'.get key = patch.get key := by
  induction deleted generalizing patch with
  | nil => exact ⟨patch, rfl, tidy, by simp, fun _ _ => rfl⟩
  | cons blk deleted induction =>
      rw [List.foldlM_cons, Document.forgetBlock]
      by_cases isCreated : blk ∈ created
      · obtain ⟨patch₁, dropped, tidy₁, content₁, others₁⟩ :=
          tidy.objectDelete_content blk
        obtain ⟨patch₂, folded, tidy₂, content₂, others₂⟩ := induction tidy₁
        refine ⟨patch₂, ?_, tidy₂, fun block => ?_, fun key differs => ?_⟩
        · rw [if_pos isCreated, dropped, ok_bind, folded]
        · rw [content₂, content₁]
          by_cases same : block = blk
          · simp [same, isCreated]
          · simp [same]
        · rw [others₂ key differs, others₁ key differs]
      · obtain ⟨patch₂, folded, tidy₂, content₂, others₂⟩ := induction tidy
        refine ⟨patch₂, ?_, tidy₂, fun block => ?_, others₂⟩
        · rw [if_neg isCreated, pure_eq_ok, ok_bind, folded]
        · rw [content₂]
          by_cases same : block = blk
          · simp [same, isCreated]
          · simp [same]

end Tidy

end Mintter.Docmodel
