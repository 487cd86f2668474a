import Mintter.Hyper.Indexing

/-!
# Drafts and deletions

The transactions of the store besides putting blobs: saving, replacing and
publishing drafts, and deleting blobs and entities.  Deleting the row of a blob
deletes the rows that belong to it; it fails when a row refers to the blob that
stays.  A call that fails leaves the store as it was.
-/

namespace Mintter.Hyper

open Mintter.Foundation
open Mintter.Crdt2

variable {Data : Type}

namespace Store

variable (F : Formats Data) (s : Store Data)

/-- The error of SQLite for a row that is still referred to. -/
def foreignKeyFailed : String := "FOREIGN KEY constraint failed"

/-! ## Deleting rows -/

/-- A row that stays refers to one of the blobs. -/
def refersToBlobs (chosen : String → Bool) : Bool :=
  s.blobLinks.any (fun link => chosen link.target && !chosen link.source) ||
    s.keyDelegations.any fun row => chosen row.blob

/-- Delete blobs and the rows that belong to them. -/
def deleteBlobs (chosen : String → Bool) : Attempt (Store Data) :=
  if s.refersToBlobs chosen then throw foreignKeyFailed
  else pure { s with
    blobs := s.blobs.filter fun row => !chosen row.multihash
    structuralBlobs := s.structuralBlobs.filter fun row => !chosen row.blob
    blobLinks := s.blobLinks.filter fun link => !chosen link.source
    resourceLinks := s.resourceLinks.filter fun link => !chosen link.source
    drafts := s.drafts.filter fun draft => !chosen draft.blob }

/-- Delete one blob. -/
def blobsDelete (hash : String) : Attempt (Store Data) := s.deleteBlobs (· == hash)

/-- Delete a resource that no row refers to. -/
def entitiesDelete (iri : String) : Attempt (Store Data) :=
  if s.structuralBlobs.any (·.resource == some iri) ||
      s.resourceLinks.any (·.target == iri) || s.drafts.any (·.resource == iri) then
    throw foreignKeyFailed
  else pure { s with resources := s.resources.filter (·.iri ≠ iri) }

/-- The blobs lose their data. -/
def emptyBlobs (chosen : String → Bool) : Store Data :=
  { s with
    blobs := s.blobs.map fun row =>
      if chosen row.multihash then { row with data := none, size := -1 } else row }

/-- The blob is indexed under the resource, which exists. -/
def isBlobOf (iri hash : String) : Bool :=
  (s.resourceRow iri).isSome &&
    s.structuralBlobs.any fun row => row.blob == hash && row.resource == some iri

/-- Empty one blob. -/
def blobsEmptyByHash (hash : String) : Store Data := s.emptyBlobs (· == hash)

/-- Empty the blobs of a resource. -/
def blobsEmptyByEID (eid : String) : Store Data := s.emptyBlobs (s.isBlobOf eid)

/-- Delete the structural rows of a resource. -/
def blobsStructuralDelete (eid : String) : Store Data :=
  { s with
    structuralBlobs := s.structuralBlobs.filter fun row => !s.isBlobOf eid row.blob }

/-- Delete the blobs that are indexed under a resource. -/
def changesDeleteForEntity (eid : String) : Attempt (Store Data) :=
  s.deleteBlobs fun hash =>
    s.structuralBlobs.any fun row => row.blob == hash && row.resource == some eid

/-- Remember that an entity was deleted; nothing is returned if it was before. -/
def entitiesInsertRemovedRecord (eid : String) : Attempt (Store Data) :=
  if s.isDeleted eid then throw s!"entity not found: {eid}"
  else pure { s with deletedResources := s.deletedResources ++ [eid] }

/-- Delete the tombstone of a resource. -/
def entitiesDeleteRemovedRecord (eid : String) : Store Data :=
  { s with deletedResources := s.deletedResources.filter (· ≠ eid) }

/-! ## Drafts -/

/-- The blob of the draft of a resource. -/
def draftsGet (eid : String) : Option String :=
  (s.drafts.find? fun draft =>
    draft.resource == eid && (s.resourceRow eid).isSome &&
      (s.blobRow draft.blob).isSome).map (·.blob)

/-- A resource has one draft at most. -/
def draftsInsert (resource blob : String) : Attempt (Store Data) :=
  if s.drafts.any (·.resource == resource) then
    throw "UNIQUE constraint failed: drafts.resource"
  else pure { s with drafts := s.drafts ++ [⟨resource, blob⟩] }

/-- The blob is no draft any more. -/
def draftsDelete (blob : String) : Store Data :=
  { s with drafts := s.drafts.filter (·.blob ≠ blob) }

/-- A table that never had a row has no number to continue from. -/
def allocateBlobID : Attempt Unit :=
  Attempt.check (s.seq = 0) "BUG: couldn't allocate blob ID for some reason"

/-- The blob gets a new number, unless it is a draft. -/
def blobsTouch (hash : String) : Attempt (Store Data) :=
  if s.drafts.any (·.blob == hash) then throw foreignKeyFailed
  else pure (s.touch hash)

end Store

section Calls

variable (F : Formats Data) (order : FieldOrder) (s : Store Data)

/-- Store a blob and index it if it is new. -/
def saveBlob (c : String) (data : Data) (blob : DecodedBlob) : Attempt (Store Data) := do
  let (found, s) ← s.putBlock F 0 (F.cidCodec c) (F.cidHash c) data
  if found then pure s else indexBlob F order s c blob

/-- Make the blob the draft of the entity, which has to be there. -/
def insertDraft (eid c : String) : Attempt (Store Data) :=
  match s.resourceRow eid with
  | none => .abort "BUG: saveDraft: failed to lookup entity after inserting the blob"
  | some _ => s.draftsInsert eid (F.cidHash c)

/-- Save a blob and make it the draft of its entity. -/
def saveDraftBlob (eid c : String) (data : Data) (blob : DecodedBlob) :
    Attempt (Store Data) := do
  let s ← saveBlob F order s c data blob
  insertDraft F s eid c

/-- A new draft takes the number of the old one. -/
def replaceDraftBlob (eid old c : String) (data : Data) (blob : DecodedBlob) :
    Attempt (Store Data) := do
  Attempt.check (old = "") "BUG: can't replace: old CID is not defined"
  let oldid := ((s.blobRow (F.cidHash old)).map (·.id)).getD 0
  let s ← s.blobsDelete (F.cidHash old)
  let (found, s) ← s.putBlock F oldid (F.cidCodec c) (F.cidHash c) data
  if found then pure s
  else do
    let s ← indexBlob F order s c blob
    insertDraft F s eid c

/-- The draft becomes public, with a new number. -/
def publishDraft (eid : String) : Attempt (Store Data) :=
  match s.draftsGet eid with
  | none => throw s!"no draft to publish for entity {eid}"
  | some hash => do
      let s := s.draftsDelete hash
      s.allocateBlobID
      s.blobsTouch hash

/-- A blob that is not there only uses up a number. -/
def publishBlob (c : String) : Attempt (Store Data) := do
  s.allocateBlobID
  if s.hasBlobData F c then s.blobsTouch (F.cidHash c)
  else pure { s with seq := s.seq + 1 }

/-- Delete the draft, and its entity when nothing else refers to it. -/
def deleteDraft (eid : String) : Attempt (Store Data) :=
  match s.draftsGet eid with
  | none => throw s!"no draft to publish for entity {eid}"
  | some hash => do
      let s ← (s.draftsDelete hash).blobsDelete hash
      pure ((s.entitiesDelete eid).returned.getD s)

/-- Delete an entity with its changes. -/
def deleteEntityChanges (eid : String) : Attempt (Store Data) :=
  match s.resourceRow eid with
  | none => throw s!"entity not found: {eid}"
  | some _ => do
      let s ← s.changesDeleteForEntity eid
      s.entitiesDelete eid

/-! ## Deleting entities -/

/-- Delete a blob, or at least its data. -/
def deleteOrEmpty (hash : String) : Store Data :=
  (s.blobsDelete hash).returned.getD (s.blobsEmptyByHash hash)

/-- Delete a comment about the entity and the comment that it replies to. -/
def deleteComment (eid : String) (s : Store Data) (link : ResourceLinkRow) :
    Attempt (Store Data) :=
  match s.blobRow link.source with
  | none => pure s
  | some row =>
      match row.data with
      | none => throw "forEachComment: failed to decode comment"
      | some data => do
          let cmt ← Attempt.ofExcept (F.decodeComment data)
          if cutBefore "?v=" cmt.target = eid then
            let s := deleteOrEmpty s link.source
            if cmt.repliedComment = "" then pure s
            else pure (deleteOrEmpty s (F.cidHash cmt.repliedComment))
          else pure s

/-- Visit the comments about the entity, in one transaction. -/
def deleteComments (eid : String) : Attempt (Store Data) :=
  match s.resourceRow eid with
  | none => throw s!"resource {eid} not found"
  | some _ =>
      (s.resourceLinks.filter fun link =>
        link.target == eid && link.type == "comment/target").foldlM
          (deleteComment F eid) s

/--
`DeleteEntity`: what it returns, and the store.  The error of the first part is
dropped; an entity whose changes cannot be deleted loses their data.
-/
def deleteEntity (eid : String) : Attempt Unit × Store Data :=
  if eid = "" then (throw "must specify entity ID to delete", s)
  else
    let s := (deleteComments F s eid).returned.getD s
    if (s.resourceRow eid).isNone then (throw s!"entity not found: {eid}", s)
    else
      let s := (deleteEntityChanges s eid).returned.getD
        ((s.blobsEmptyByEID eid).blobsStructuralDelete eid)
      match (s.entitiesInsertRemovedRecord eid).returned with
      | none => (throw s!"entity not found: {eid}", s)
      | some t => (pure (), t)

/-- `UndeleteEntity`. -/
def undeleteEntity (eid : String) : Attempt (Store Data) :=
  if eid = "" then throw "must specify entity ID to restore"
  else pure (s.entitiesDeleteRemovedRecord eid)

end Calls

end Mintter.Hyper
