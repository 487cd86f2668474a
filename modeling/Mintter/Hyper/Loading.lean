import Mintter.Foundation.Closure
import Mintter.Hyper.Store

/-!
# Loading entities

An entity is loaded by applying its stored changes in the order of their times.
The queries differ in which changes they select: all of them, those of the owner
with their dependencies, or those below given heads.
-/

namespace Mintter.Hyper

open Mintter.Foundation
open Mintter.Crdt2

variable {Data : Type}

/-- Rows in the order of their times; a missing time comes first. -/
def timeLe (row row' : StructuralBlobRow) : Prop :=
  match row.ts, row'.ts with
  | none, _ => True
  | some _, none => False
  | some ts, some ts' => ts ≤ ts'

instance : DecidableRel timeLe := fun row row' =>
  match isTime : row.ts, isTime' : row'.ts with
  | none, _ => .isTrue (by rw [timeLe, isTime]; trivial)
  | some _, none => .isFalse (by rw [timeLe, isTime, isTime']; exact id)
  | some ts, some ts' => decidable_of_iff (ts ≤ ts') (by rw [timeLe, isTime, isTime'])

/-- How rows are ordered by time; rows of one time come in any order. -/
structure RowOrder where
  sort : List StructuralBlobRow → List StructuralBlobRow
  perm : ∀ rows, (sort rows).Perm rows
  sorted : ∀ rows, (sort rows).Pairwise timeLe

section Loading

variable (F : Formats Data) (order : RowOrder) (s : Store Data)
variable (wall : Nat → Int)

/-- Apply a change, the `n`-th one, and fail as it fails. -/
def Entity.applyStored (e : Entity) (c : String) (ch : Change) (n : Nat) :
    Attempt Entity :=
  ExceptT.mk do
    let (e, result) ← e.applyChange c ch (wall n)
    pure (result.map fun _ => e)

/-- Decode the change of a row and apply it. -/
def loadRow (n : Nat) (e : Entity) (row : BlobRow Data) : Attempt Entity :=
  match row.data with
  | none => throw "failed to decompress blob"
  | some data => do
      let ch ← Attempt.ofExcept (F.decodeChange data)
      e.applyStored wall (F.newCidV1 row.codec row.multihash) ch n

/-- Apply the changes of the rows; `n` counts the readings of the wall clock. -/
def loadRows : Nat → Entity → List (BlobRow Data) → Attempt Entity
  | _, e, [] => pure e
  | n, e, row :: rest => do
      let e ← loadRow F wall n e row
      loadRows (n + 1) e rest

/-- The structural blobs that the filter selects, with their data, by time. -/
def selectRows (selected : StructuralBlobRow → Bool) : List (BlobRow Data) :=
  (order.sort (s.structuralBlobs.filter selected)).filterMap fun row =>
    s.blobRow row.blob

/-- Load an entity from rows; without changes there is nothing. -/
def loadSelected (eid : String) (selected : StructuralBlobRow → Bool) :
    Attempt (Option Entity) := do
  let entity ← loadRows F wall 0 (newEntity eid) (selectRows order s selected)
  pure (if entity.changes = [] then none else some entity)

/-- A draft of this resource. -/
def isDraft (row : StructuralBlobRow) : Bool :=
  s.drafts.any fun draft =>
    some draft.resource == row.resource && draft.blob == row.blob

/-- A change of the entity that is no draft. -/
def isPublicChange (eid : String) (row : StructuralBlobRow) : Bool :=
  row.type == "Change" && row.resource == some eid && !isDraft s row

/-- The edges from changes to their dependencies. -/
def changeDeps : List (String × String) :=
  (s.blobLinks.filter (·.type == "change/dep")).map fun link =>
    (link.source, link.target)

/-- The changes and everything that they depend on. -/
def changesResolveHeads (heads : List String) : List String :=
  closure (changeDeps s) heads

/-- Load all public changes of an entity. -/
def loadEntityAll (eid : String) : Attempt (Option Entity) :=
  match s.resourceRow eid with
  | none => throw s!"entity {eid} not found"
  | some _ => loadSelected F order s wall eid (isPublicChange s eid)

/-- The changes of the owner. -/
def ownerChanges (eid : String) (owner : Option Principal) : List String :=
  (s.structuralBlobs.filter fun row =>
    isPublicChange s eid row && owner.isSome && row.author == owner).map (·.blob)

/-- Load what lies below the heads of the owner. -/
def loadEntity (eid : String) : Attempt (Option Entity) :=
  match s.resourceRow eid with
  | none => throw s!"entity {eid} not found"
  | some resource =>
      let selected := changesResolveHeads s (ownerChanges s eid resource.owner)
      loadSelected F order s wall eid fun row => selected.contains row.blob

/-- Every head must be there with its data. -/
def loadEntityFromHeads (eid : String) (heads : List String) :
    Attempt (Option Entity) := do
  Attempt.check (heads = []) s!"must specify heads to load: {eid}"
  Attempt.check (heads.all (s.hasBlobData F) = false)
    s!"no such head for entity {eid}"
  let selected := changesResolveHeads s (heads.map F.cidHash)
  loadSelected F order s wall eid fun row =>
    selected.contains row.blob && row.resource == some eid

end Loading

end Mintter.Hyper
