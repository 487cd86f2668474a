import Mintter.Docmodel.Moves
import Mintter.Hyper.Entity

/-!
# Documents with pending edits

A document wraps an entity.  Its block tree is replayed from the moves of the
entity; edits are collected in a mutation of the tree and in a patch, from
which `change` makes the next change of the entity.  A draft is such a change:
`restoreDraft` puts its patch back and repeats its moves.

The JSON form of a block, the encoding and signing of changes and the wall
clock are parameters.  The patch is a copy of the restored one; in the source
they are the same object, but nothing reads the restored change afterwards.
-/

namespace Mintter.Docmodel

open Mintter.Foundation
open Mintter.Crdt2
open Mintter.Hyper

/-- Block messages: their identifier and their JSON object. -/
structure BlockFormat where
  Block : Type
  blockId : Block → String
  marshal : Block → Except String Object

/-- The content of a block, without what can be inferred. -/
def BlockFormat.blockToMap (F : BlockFormat) (blk : F.Block) :
    Except String Object :=
  (F.marshal blk).map fun v => (v.delete "revision").delete "id"

/-- A document that is loaded or edited: its entity, its tree, and the patch of its next change. -/
structure Document where
  e : Entity
  signer : KeyPair
  delegation : String
  tree : TreeCRDT
  mutation : Option TreeMutation
  patch : Object
  oldAction : String
  done : Bool
  nextHLC : Int
  createdBlocks : List String
  deletedBlocks : List String

/-- Split a text at the first at sign. -/
def cutOrigin (leftShadow : String) : String × String :=
  let chars := leftShadow.toList
  (String.ofList (chars.takeWhile (· ≠ '@')),
    String.ofList ((chars.dropWhile (· ≠ '@')).drop 1))

/-- Add to a set that is kept as a list. -/
def addKey (keys : List String) (key : String) : List String :=
  if key ∈ keys then keys else keys ++ [key]

/-- Forget a key. -/
def dropKey (keys : List String) (key : String) : List String :=
  keys.filter (· ≠ key)

/-! ## Loading -/

/-- Integrate one move of a list chunk; an error ends the replay. -/
def replayItem (K : Fracdex) (time : Int) (origin : String)
    (acc : TreeCRDT × Option String) (item : Value × Nat) :
    Outcome ((TreeCRDT × Option String) × Bool) := do
  let mm ← assertType Value.asMap (some item.1)
  let block ← assertType Value.asString (mm.get "b")
  let parent ← assertType Value.asString (mm.get "p")
  let leftShadow ← assertType Value.asString (mm.get "l")
  let (left, leftOrigin) := cutOrigin leftShadow
  let leftOrigin :=
    if left ≠ "" ∧ leftOrigin = "" then origin else leftOrigin
  match ← acc.1.integrate K ⟨origin, time, item.2⟩ block parent left
      leftOrigin with
  | .error err =>
      pure ((acc.1, some s!"failed move map[b:{block} l:{leftShadow} p:{parent}]: {err}"), false)
  | .ok tree => pure ((tree, none), true)

/-- Replay the moves of one change, one by one. -/
def replayChunk (K : Fracdex) (acc : TreeCRDT × Option String) (time : Int)
    (origin : String) (items : List Value) :
    Outcome ((TreeCRDT × Option String) × Bool) := do
  let acc ← visit (replayItem K time origin) items.zipIdx acc
  pure (acc, acc.2.isNone)

/-- Build the block tree from the moves of the entity. -/
def replayMoves (K : Fracdex) (e : Entity) :
    Outcome (Except String TreeCRDT) := do
  let (tree, err) ←
    e.state.forEachListChunk ["moves"] (replayChunk K) (newTreeCRDT, none)
  match err with
  | some err => pure (.error s!"failed to replay previous moves: {err}")
  | none => pure (.ok tree)

namespace Document

/-- The unexported constructor: `new` reads the moves of the entity. -/
def new (K : Fracdex) (e : Entity) (signer : KeyPair) (delegation : String) :
    Outcome (Except String Document) :=
  if delegation = "" then
    pure (.error "must provide delegation to mutate a document")
  else do
    match ← replayMoves K e with
    | .error err => pure (.error err)
    | .ok tree =>
        pure (.ok {
          e := e
          signer := signer
          delegation := delegation
          tree := tree
          mutation := none
          patch := []
          oldAction := ""
          done := false
          nextHLC := 0
          createdBlocks := []
          deletedBlocks := [] })

/-! ## Edits -/

/-- Set the title; a title in the state that is no string panics. -/
def setTitle (dm : Document) (title : String) : Outcome Document :=
  match dm.e.state.get ["title"] with
  | none => pure { dm with patch := dm.patch.set "title" (.string title) }
  | some v => do
      let current ← assertType Value.asString (some v)
      if current = title then pure dm
      else pure { dm with patch := dm.patch.set "title" (.string title) }

/-- Edit the tree of the document, once and for all calls. -/
def ensureMutation (fuel : Nat) (dm : Document) :
    Outcome (Document × TreeMutation) :=
  match dm.mutation with
  | some vt => pure (dm, vt)
  | none => do
      let vt ← dm.tree.mutate fuel
      pure ({ dm with mutation := some vt }, vt)

/-- Start the mutation if necessary and move a block in it. -/
def moving (K : Fracdex) (fuel : Nat) (dm : Document)
    (block parent left : String) :
    Outcome (Document × Except String MoveEffect) := do
  let (dm, vt) ← dm.ensureMutation fuel
  let (vt, result) ← vt.move K fuel block parent left
  pure ({ dm with mutation := some vt }, result)

/-- Delete a block.  An error comes with the document as it was left. -/
def deleteBlock (K : Fracdex) (fuel : Nat) (dm : Document) (block : String) :
    Outcome (Document × Except String Unit) := do
  let (dm, result) ← dm.moving K fuel block trashNodeID ""
  match result with
  | .error err => pure (dm, .error err)
  | .ok .moved =>
      pure ({ dm with deletedBlocks := addKey dm.deletedBlocks block }, .ok ())
  | .ok _ => pure (dm, .ok ())

/-- Write the content of a block, unless the state has it already. -/
def replaceBlock (F : BlockFormat) (dm : Document) (blk : F.Block) :
    Outcome (Document × Except String Unit) :=
  if F.blockId blk = "" then pure (dm, .error "blocks must have ID")
  else match F.blockToMap blk with
    | .error err => pure (dm, .error err)
    | .ok blockMap =>
        if dm.e.state.get ["blocks", F.blockId blk] = some (.map blockMap) then
          pure (dm, .ok ())
        else do
          let patch ← objectSet dm.patch ["blocks", F.blockId blk, "#map"]
            (.map blockMap)
          pure ({ dm with patch := patch }, .ok ())

/-- Move or create a block; a block may also be moved out of the trash. -/
def moveBlock (K : Fracdex) (fuel : Nat) (dm : Document)
    (block parent left : String) : Outcome (Document × Except String Unit) :=
  if parent = trashNodeID then
    panicWith "BUG: use DeleteBlock to delete a block"
  else do
    let (dm, result) ← dm.moving K fuel block parent left
    match result with
    | .error err => pure (dm, .error err)
    | .ok .created =>
        pure ({ dm with createdBlocks := addKey dm.createdBlocks block },
          .ok ())
    | .ok .moved =>
        pure ({ dm with deletedBlocks := dropKey dm.deletedBlocks block },
          .ok ())
    | .ok .none => pure (dm, .ok ())

/-! ## Restoring a draft -/

/-- Repeat one saved move.  The origin of the left sibling is dropped. -/
def restoreMove (K : Fracdex) (fuel : Nat)
    (acc : Document × Except String Unit) (move : Value) :
    Outcome ((Document × Except String Unit) × Bool) := do
  let mm ← assertType Value.asMap (some move)
  let block ← assertType Value.asString (mm.get "b")
  let parent ← assertType Value.asString (mm.get "p")
  let left ← assertType Value.asString (mm.get "l")
  let left := (cutOrigin left).1
  if parent = trashNodeID then
    let (dm, result) ← acc.1.deleteBlock K fuel block
    match result with
    | .error err =>
        pure ((dm, .error s!"failed to replay a delete: {err}"), false)
    | .ok () => pure ((dm, .ok ()), true)
  else
    let (dm, result) ← acc.1.moveBlock K fuel block parent left
    match result with
    | .error err =>
        pure ((dm, .error s!"failed to replay local moves: {err}"), false)
    | .ok () => pure ((dm, .ok ()), true)

/-- The operations of the list stored under the key `moves`. -/
def savedMoves (moves : Value) : Outcome (List Value) := do
  let tagged ← assertType Value.asMap (some moves)
  let list ← assertType Value.asMap (tagged.get "#list")
  assertType Value.asList (list.get "#ins")

/-- Whether a field is set to something else than null. -/
def present (value : Option Value) : Option Value :=
  value.filter (· ≠ .null)

/-- Take a saved draft as the patch, and replay its moves as own ones. -/
def restoreDraft (K : Fracdex) (fuel : Nat) (dm : Document) (ch : Hyper.Change)
    (wall : Int) : Outcome (Document × Except String Unit) :=
  if dm.patch ≠ [] then
    panicWith "BUG: restoring draft when patch is not empty"
  else
    let dm := { dm with oldAction := ch.action }
    if dm.e.heads.length ≠ ch.deps.length then
      pure (dm, .error s!"failed to restore draft: state has {dm.e.heads.length} heads while draft change has {ch.deps.length} deps")
    else match ch.deps.find? (· ∉ dm.e.heads) with
      | some dep =>
          pure (dm, .error s!"failed to restore draft: state doesn't have draft's dependency {dep} in its heads")
      | none => do
          let (ts, e) ← dm.e.nextTimestamp wall
          let moves := ch.patch.get "moves"
          let patch := ch.patch.delete "moves"
          let state ← e.state.applyPatch ts "" patch
          let dm := { dm with
            e := { e with state := state }
            patch := patch
            nextHLC := ts }
          match present moves with
          | none => pure (dm, .ok ())
          | some moves => do
              let ops ← savedMoves moves
              visit (restoreMove K fuel) ops (dm, .ok ())

/-! ## Producing the change -/

/-- One saved move; the left sibling carries its origin. -/
def saveMove (moves : List Value) (block parent left leftOrigin : String) :
    Outcome (List Value × Bool) :=
  let l := if left ≠ "" then left ++ "@" ++ leftOrigin else ""
  pure (moves ++
    [.map [("b", .string block), ("l", .string l), ("p", .string parent)]],
    true)

/-- Drop the content of a block that was created and deleted. -/
def forgetBlock (created : List String) (patch : Object) (blk : String) :
    Outcome Object :=
  if blk ∈ created then objectDelete patch ["blocks", blk] else pure patch

/-- Drop the blocks when there are none. -/
def dropEmptyBlocks (patch : Object) : Object :=
  if patch.get "blocks" = some (.map []) then patch.delete "blocks" else patch

/-- Write the moves into the patch, and forget the content of what was made and deleted. -/
def cleanupPatch (fuel : Nat) (dm : Document) : Outcome Document :=
  match dm.mutation with
  | none => pure dm
  | some vt => do
      let moves ← vt.forEachMove fuel saveMove []
      let patch :=
        if moves = [] then dm.patch
        else dm.patch.set "moves"
          (.map [("#list", .map [("#ins", .list moves)])])
      let patch ← dm.deletedBlocks.foldlM (forgetBlock dm.createdBlocks) patch
      pure { dm with patch := dropEmptyBlocks patch }

/-- The dummy field of a change without edits. -/
def markDraft (patch : Object) : Object :=
  let patch := if patch = [] then [("isDraft", Value.bool true)] else patch
  if 1 < patch.length then Object.delete patch "isDraft" else patch

/-- Create the change and apply it to the entity of the document. -/
def change (encodeBlob : Hyper.Change → Except String String) (fuel : Nat)
    (dm : Document) (wall : Int) :
    Outcome (Document × Except String (String × Hyper.Change)) :=
  if dm.done then
    pure (dm, .error "using already committed mutation")
  else if dm.nextHLC = 0 then
    panicWith "BUG: next HLC time is zero"
  else do
    let dm ← cleanupPatch fuel { dm with done := true }
    let action := if dm.oldAction = "" then "Create" else dm.oldAction
    let dm := { dm with patch := markDraft dm.patch }
    let (e, result) ← dm.e.createChange encodeBlob dm.nextHLC dm.signer
      dm.delegation dm.patch action wall
    pure ({ dm with e := e }, result)

end Document

end Mintter.Docmodel
