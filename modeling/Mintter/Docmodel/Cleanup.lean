import Mintter.Docmodel.Commit
import Mintter.Docmodel.Edits

/-!
# Loading a document and cleaning up its patch

A document that was loaded has a valid block tree.  The cleanup of a patch
saves the produced moves of the mutation and forgets the content of the blocks
that are noted as created and as deleted; it never fails.
-/

namespace Mintter.Docmodel

open Mintter.Foundation
open Mintter.Crdt2
open Mintter.Hyper
open TreeMutation

/-! ## Loaded documents -/

section Load

variable {K : Fracdex} {e : Entity} {signer : KeyPair} {delegation : String}
    {dm : Document}

/-- Replaying one move keeps the tree valid. -/
theorem replayItem_valid {time : Int} {origin : String}
    {acc acc' : TreeCRDT × Option String} {item : Value × Nat} {more : Bool}
    (valid : acc.1.Valid K)
    (returned : replayItem K time origin acc item = .ok (acc', more)) :
    acc'.1.Valid K := by
  rw [replayItem] at returned
  obtain ⟨mm, -, returned⟩ := bind_eq_ok.mp returned
  obtain ⟨block, -, returned⟩ := bind_eq_ok.mp returned
  obtain ⟨parent, -, returned⟩ := bind_eq_ok.mp returned
  obtain ⟨leftShadow, -, returned⟩ := bind_eq_ok.mp returned
  obtain ⟨result, integrated, returned⟩ := bind_eq_ok.mp returned
  cases result with
  | error err =>
      obtain ⟨rfl, -⟩ := Prod.mk.inj (Except.ok.inj returned)
      exact valid
  | ok tree =>
      obtain ⟨rfl, -⟩ := Prod.mk.inj (Except.ok.inj returned)
      let op : MoveOp := ⟨⟨origin, time, item.2⟩, block, parent,
        (cutOrigin leftShadow).1,
        if (cutOrigin leftShadow).1 ≠ "" ∧ (cutOrigin leftShadow).2 = ""
          then origin else (cutOrigin leftShadow).2⟩
      have success : acc.1.integrateOp K op = .ok (.ok tree) := integrated
      obtain ⟨x, integrated⟩ := integrated_of_integrate_eq_ok valid success
      exact integrated.valid

/-- Replaying the moves of a change keeps the tree valid. -/
theorem replayChunk_valid {time : Int} {origin : String}
    {acc acc' : TreeCRDT × Option String} {items : List Value} {more : Bool}
    (valid : acc.1.Valid K)
    (returned : replayChunk K acc time origin items = .ok (acc', more)) :
    acc'.1.Valid K := by
  rw [replayChunk] at returned
  obtain ⟨acc'', visited, returned⟩ := bind_eq_ok.mp returned
  obtain ⟨rfl, -⟩ := Prod.mk.inj (Except.ok.inj returned)
  exact visit_preserves (fun acc : TreeCRDT × Option String => acc.1.Valid K)
    (fun _ _ _ _ _ valid stepped => replayItem_valid valid stepped)
    valid visited

/-- The tree that is replayed from the moves of an entity is valid. -/
theorem replayMoves_valid {tree : TreeCRDT}
    (replayed : replayMoves K e = .ok (.ok tree)) : tree.Valid K := by
  rw [replayMoves] at replayed
  obtain ⟨⟨tree', err⟩, visited, returned⟩ := bind_eq_ok.mp replayed
  have valid : tree'.Valid K := by
    refine visit_preserves (fun acc : TreeCRDT × Option String =>
      acc.1.Valid K) (fun state entry state' more _ valid stepped => ?_)
      (newTreeCRDT_valid K) visited
    rw [Map.chunkStep] at stepped
    split_ifs at stepped with isOther
    · obtain ⟨rfl, -⟩ := Prod.mk.inj (Except.ok.inj stepped)
      exact valid
    · obtain ⟨rfl, -⟩ := Prod.mk.inj (Except.ok.inj stepped)
      exact valid
    · obtain ⟨chunk, -, stepped⟩ := bind_eq_ok.mp stepped
      split_ifs at stepped
      · simp [panicWith] at stepped
      · obtain ⟨items, -, stepped⟩ := bind_eq_ok.mp stepped
        exact replayChunk_valid valid stepped
  cases err with
  | none =>
      have same : tree' = tree := by simpa using returned
      exact same ▸ valid
  | some err => simp at returned

/-- Every move of the tree has a proper place and comes from a change. -/
def ProperMoves (state : TreeCRDT) : Prop :=
  ∀ x ∈ state.log, ProperPlace x.block x.parent ∧ ¬ x.IsOwn

/-- A loaded document without improper moves is fresh, with an empty patch. -/
theorem fresh_of_new
    (loaded : Document.new K e signer delegation = .ok (.ok dm))
    (proper : ProperMoves dm.tree) :
    Fresh K dm ∧ dm.e = e ∧ dm.patch = [] ∧ replayMoves K e = .ok (.ok dm.tree) ∧
      dm.done = false ∧ dm.signer = signer := by
  rw [Document.new] at loaded
  split_ifs at loaded with undefined
  · simp at loaded
  obtain ⟨result, replayed, returned⟩ := bind_eq_ok.mp loaded
  cases result with
  | error err => simp at returned
  | ok tree =>
      obtain rfl := Except.ok.inj (Except.ok.inj returned)
      refine ⟨⟨⟨replayMoves_valid replayed, fun x member => (proper x member).1,
        fun x member => (proper x member).2⟩, .nil, rfl, rfl, rfl⟩,
        rfl, rfl, replayed, rfl, rfl⟩

end Load

/-! ## The saved moves -/

/-- The text of a left sibling and its origin. -/
def leftShadow (left leftOrigin : String) : String :=
  if left ≠ "" then left ++ "@" ++ leftOrigin else ""

/-- The saved form of a move. -/
def savedValue (block parent left leftOrigin : String) : Value :=
  .map [("b", .string block), ("l", .string (leftShadow left leftOrigin)),
    ("p", .string parent)]

/-- The left sibling that is saved with an own move. -/
def savedLeft (vt : TreeMutation) (m : Move) : String × String :=
  if m.parent = trashNodeID then ("", "")
  else ((vt.visibleLeftSibling m vt.dirtyInvisibleMoves).1,
    (vt.visibleLeftSibling m vt.dirtyInvisibleMoves).2.origin)

/-- A move as it is written into the patch. -/
def savedMove (vt : TreeMutation) (m : Move) : Value :=
  savedValue m.block m.parent (savedLeft vt m).1 (savedLeft vt m).2

section Cleanup

variable {K : Fracdex} {state : TreeCRDT} {vt : TreeMutation}

/-- All produced moves are saved, in the order of production. -/
theorem Draft.forEachMove_save (draft : Draft K state vt) :
    Converges (fun fuel => vt.forEachMove fuel Document.saveMove [])
      (.ok (draft.produced.map (savedMove vt))) := by
  obtain ⟨_, walked, rfl⟩ : ∃ acc, visit (vt.reportMove Document.saveMove)
      draft.walk [] = .ok acc ∧
        acc = (draft.walk.filter fun x => x.IsOwn).map (savedMove vt) := by
    refine visit_invariant (fun seen acc =>
      acc = (seen.filter fun x => x.IsOwn).map (savedMove vt)) ?_ rfl
    rintro seen m rest _ split rfl
    have shown := (draft.mem_walk_iff.mp
      (by simp [split] : m ∈ draft.walk)).2
    have notTrash : m.parent ≠ trashNodeID := fun isTrash =>
      draft.not_shown_trash (isTrash ▸ shown)
    by_cases own : m.IsOwn
    · refine ⟨_, reportMove_of_own own notTrash, ?_⟩
      simp [own, savedMove, savedLeft, notTrash, savedValue, leftShadow]
    · refine ⟨_, reportMove_of_not_own own, ?_⟩
      simp [own]
  obtain ⟨_, deleted, rfl⟩ : ∃ acc, visit (reportDelete Document.saveMove)
      (KeyedList.ascend Move.parentOrder
        (Move.pivot trashNodeID "").parentOrder vt.tree)
      ((draft.walk.filter fun x => x.IsOwn).map (savedMove vt)) = .ok acc ∧
        acc = draft.produced.map (savedMove vt) := by
    rw [produced, deletes, List.map_append]
    refine visit_invariant (fun seen acc =>
      acc = (draft.walk.filter fun x => x.IsOwn).map (savedMove vt) ++
        (seen.filter fun x => x.IsOwn ∧ x.parent = trashNodeID).map
          (savedMove vt)) ?_ (by simp)
    rintro seen m rest _ split rfl
    by_cases isDelete : m.IsOwn ∧ m.parent = trashNodeID
    · refine ⟨_, reportDelete_of_own isDelete.1 isDelete.2, ?_⟩
      simp [isDelete, savedMove, savedLeft, savedValue, leftShadow]
    · refine ⟨_, reportDelete_of_other isDelete, ?_⟩
      simp [isDelete]
  have walk := walkDFT_converges draft.sound.index draft.sound.oneVisible
    draft.blocksNamed (vt.reportMove Document.saveMove) []
  change Converges _ (visit _ draft.walk _) at walk
  rw [walked] at walk
  exact walk.bind (deleted ▸ .const _)

/-- The patch after the cleanup. -/
structure CleanedUp (dm : Document) (moves : List Value) (dm' : Document) :
    Prop where
  same : SameBase dm dm'
  mutation : dm'.mutation = dm.mutation
  tidy : TidyPatch dm'.patch
  content : ∀ block, contentIn dm'.patch block =
    if dm.mutation.isSome ∧ block ∈ dm.createdBlocks ∧
        block ∈ dm.deletedBlocks then none
    else contentIn dm.patch block
  moves_eq : dm'.patch.get "moves" =
    if moves = [] then dm.patch.get "moves" else some (taggedMoves moves)
  others : ∀ key, key ≠ "blocks" → key ≠ "moves" →
    dm'.patch.get key = dm.patch.get key

/-- The moves that the cleanup saves. -/
noncomputable def savedMovesOf (dm : Document) (draft : Draft K dm.tree dm.view) :
    List Value :=
  if dm.mutation.isSome then draft.produced.map (savedMove dm.view) else []

/-- The cleanup succeeds. -/
theorem cleanupPatch_spec {dm : Document} (draft : Draft K dm.tree dm.view)
    (tidy : TidyPatch dm.patch) :
    ∃ dm', Converges (fun fuel => dm.cleanupPatch fuel) (.ok dm') ∧
      CleanedUp dm (savedMovesOf dm draft) dm' := by
  cases started : dm.mutation with
  | none =>
      refine ⟨dm, (Converges.const _).congr fun fuel => ?_, .refl dm, rfl,
        tidy, fun block => ?_, ?_, fun _ _ _ => rfl⟩
      · simp [Document.cleanupPatch, started]
      · simp [started]
      · simp [savedMovesOf, started]
  | some vt =>
      have view_eq : dm.view = vt := by simp [Document.view, started]
      have saved := draft.forEachMove_save
      set moves := draft.produced.map (savedMove dm.view) with moves_eq
      set patch₁ := if moves = [] then dm.patch
        else dm.patch.set "moves" (taggedMoves moves) with patch₁_eq
      have tidy₁ : TidyPatch patch₁ := by
        rw [patch₁_eq]
        split_ifs
        · exact tidy
        · exact tidy.set (by decide) (fun same => absurd same (by decide))
            (fun _ => ⟨moves, rfl⟩) fun other => absurd rfl other
      obtain ⟨patch₂, forgot, tidy₂, content₂, others₂⟩ :=
        tidy₁.forgetBlocks dm.createdBlocks dm.deletedBlocks
      obtain ⟨tidy₃, content₃, others₃⟩ := tidy₂.dropEmptyBlocks
      have same₁ : ∀ key, key ≠ "moves" → patch₁.get key = dm.patch.get key := by
        intro key notMoves
        rw [patch₁_eq]
        split_ifs
        · rfl
        · exact Object.get_set_of_ne notMoves
      refine ⟨{ dm with patch := Document.dropEmptyBlocks patch₂ }, ?_,
        ⟨rfl, rfl, rfl, rfl, rfl, rfl, rfl⟩, rfl, tidy₃, fun block => ?_, ?_,
        fun key notBlocks notMoves => ?_⟩
      · have finished : Converges (fun fuel => do
            let moves ← vt.forEachMove fuel Document.saveMove []
            let patch ← dm.deletedBlocks.foldlM
              (Document.forgetBlock dm.createdBlocks)
              (if moves = [] then dm.patch
                else dm.patch.set "moves" (taggedMoves moves))
            pure { dm with patch := Document.dropEmptyBlocks patch })
            (.ok { dm with patch := Document.dropEmptyBlocks patch₂ }) := by
          refine (view_eq ▸ saved).bind ((Converges.const _).congr fun _ => ?_)
          rw [← patch₁_eq, forgot]
          rfl
        refine finished.congr fun fuel => ?_
        simp only [Document.cleanupPatch, started]
        rfl
      · rw [content₃, content₂, contentIn_congr (same₁ "blocks" (by decide))]
        simp [started]
      · rw [others₃ "moves" (by decide), others₂ "moves" (by decide), patch₁_eq,
          savedMovesOf, started]
        simp only [Option.isSome_some, if_true]
        split_ifs
        · rfl
        · exact Object.get_set_self
      · rw [others₃ key notBlocks, others₂ key notBlocks, same₁ key notMoves]

end Cleanup

end Mintter.Docmodel
