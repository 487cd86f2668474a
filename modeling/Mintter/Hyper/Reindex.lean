import Mathlib.Data.List.Sort
import Mintter.Hyper.Collected

/-!
# Reindexing

The tables that are derived from blobs are emptied, and the blobs are indexed
again in the order of their numbers.  `Agrees` says that the derived tables of two
stores hold the same; indexing a blob keeps it when the second store has at least
the blobs and the resources of the first one.  The time of the reindexing, which
is stored too, is left out.
-/

namespace Mintter.Hyper

open Mintter.Foundation
open Mintter.Crdt2

variable {Data : Type}

section Reindex

variable (F : Formats Data)

/-- Empty the tables that are derived from blobs; the resources are kept. -/
def Store.clearDerived (s : Store Data) : Store Data :=
  { s with
    blobLinks := []
    resourceLinks := []
    structuralBlobs := []
    groupSites := []
    keyDelegations := [] }

/-- Index the blob of a row, if it is there and can be decoded. -/
def reindexRow (order : String → FieldOrder) (s : Store Data) (row : BlobRow Data) :
    Attempt (Store Data) :=
  if isIndexable row.codec = false then pure s
  else if row.size ≤ 0 then pure s
  else match row.data with
    | none => throw "failed to decompress block"
    | some data =>
        let c := F.newCidV1 row.codec row.multihash
        match F.decodeBlob (F.cidCodec c) data with
        | .error _ => pure s
        | .ok blob => indexBlob F (order row.multihash) s c blob

/-- Index all blobs again, by their numbers. -/
def reindex (order : String → FieldOrder) (s : Store Data) : Attempt (Store Data) :=
  (s.blobs.insertionSort (·.id ≤ ·.id)).foldlM (reindexRow F order) s.clearDerived

end Reindex

/-! ## Stores with the same derived tables -/

/-- The derived tables hold the same; links to resources may come in another order. -/
structure Agrees (s t : Store Data) : Prop where
  structuralBlobs : t.structuralBlobs = s.structuralBlobs
  blobLinks : ∀ link, link ∈ t.blobLinks ↔ link ∈ s.blobLinks
  resourceLinks : t.resourceLinks.Perm s.resourceLinks
  members : ∀ source target,
    (t.resourceLinks.filter fun link => link.source == source &&
        link.type == "group/member" && link.target == target) =
      s.resourceLinks.filter fun link => link.source == source &&
        link.type == "group/member" && link.target == target
  keyDelegations : t.keyDelegations = s.keyDelegations
  groupSites : t.groupSites = s.groupSites

/-- What indexing finds in the blobs and the resources is still there. -/
structure Persists (s t : Store Data) : Prop where
  blobRow : ∀ hash row, s.blobRow hash = some row → 0 ≤ row.size →
    t.blobRow hash = some row
  hasResource : ∀ iri, (s.resourceRow iri).isSome → (t.resourceRow iri).isSome
  owner : ∀ iri key, s.owner iri = some key → t.owner iri = some key
  deleted : t.deletedResources = s.deletedResources

section Agrees

variable {F : Formats Data} {s t u s' t' : Store Data}

theorem Persists.refl (s : Store Data) : Persists s s :=
  ⟨fun _ _ found _ => found, fun _ found => found, fun _ _ isOwner => isOwner, rfl⟩

theorem Persists.trans (first : Persists s t) (second : Persists t u) :
    Persists s u :=
  ⟨fun hash row found there =>
      second.blobRow hash row (first.blobRow hash row found there) there,
    fun iri found => second.hasResource iri (first.hasResource iri found),
    fun iri key isOwner => second.owner iri key (first.owner iri key isOwner),
    second.deleted.trans first.deleted⟩

theorem Grows.persists (grows : Grows s t) : Persists s t :=
  ⟨fun _ _ found _ => grows.blobRow found, fun _ => grows.hasResource,
    fun _ _ => grows.owner, grows.deleted⟩

theorem Received.persists (received : Received s t) : Persists s t where
  blobRow := received.blobRow
  hasResource := fun iri found => by
    rw [Store.resourceRow, received.resources]
    exact found
  owner := fun iri key isOwner => (received.owner iri).trans isOwner
  deleted := received.deleted

theorem Persists.ensureResource (persists : Persists s t) (iri : String) :
    Persists (s.ensureResource iri) (t.ensureResource iri) where
  blobRow := fun hash row found there => by
    rw [Store.blobRow, (owned_ensureResource s iri).blobs] at found
    rw [Store.blobRow, (owned_ensureResource t iri).blobs]
    exact persists.blobRow hash row found there
  hasResource := fun iri' found => by
    rw [Store.resourceRow_ensureResource, Option.isSome_or] at found ⊢
    rw [Bool.or_eq_true] at found ⊢
    exact found.imp_left (persists.hasResource iri')
  owner := fun iri' key isOwner => by
    rw [Store.owner_ensureResource] at isOwner ⊢
    exact persists.owner iri' key isOwner
  deleted := by
    rw [(Grows.ensureResource t iri).deleted, (Grows.ensureResource s iri).deleted]
    exact persists.deleted

theorem Persists.getBlock (persists : Persists s t) {hash : String} {data : Data}
    (there : (s.getBlock hash).Returns data) : (t.getBlock hash).Returns data := by
  rw [Store.returns_getBlock] at there ⊢
  rcases there with ⟨row, found, nonneg, isData⟩
  exact ⟨row, persists.blobRow hash row found nonneg, nonneg, isData⟩

theorem Persists.hasBlobData (persists : Persists s t) {c : String}
    (there : s.hasBlobData F c = true) : t.hasBlobData F c = true := by
  rw [Store.hasBlobData, Option.isSome_filter, Option.any_eq_true] at there ⊢
  rcases there with ⟨row, found, nonneg⟩
  exact ⟨row, persists.blobRow _ row found (of_decide_eq_true nonneg), nonneg⟩

theorem Persists.isDeleted (persists : Persists s t) (iri : String) :
    t.isDeleted iri = s.isDeleted iri := by
  rw [Store.isDeleted, Store.isDeleted, persists.deleted]

theorem Agrees.refl (s : Store Data) : Agrees s s :=
  ⟨rfl, fun _ => .rfl, .rfl, fun _ _ => rfl, rfl, rfl⟩

theorem Agrees.trans (first : Agrees s t) (second : Agrees t u) : Agrees s u :=
  ⟨second.structuralBlobs.trans first.structuralBlobs,
    fun link => (second.blobLinks link).trans (first.blobLinks link),
    second.resourceLinks.trans first.resourceLinks,
    fun source target =>
      (second.members source target).trans (first.members source target),
    second.keyDelegations.trans first.keyDelegations,
    second.groupSites.trans first.groupSites⟩

/-- Steps that leave the derived tables alone. -/
theorem Agrees.of_same (agrees : Agrees s t) (same : SameDerived s s')
    (same' : SameDerived t t') : Agrees s' t' where
  structuralBlobs := by
    rw [same'.structuralBlobs, same.structuralBlobs]
    exact agrees.structuralBlobs
  blobLinks := fun link => by
    rw [same'.blobLinks, same.blobLinks]
    exact agrees.blobLinks link
  resourceLinks := by
    rw [same'.resourceLinks, same.resourceLinks]
    exact agrees.resourceLinks
  members := by
    rw [same'.resourceLinks, same.resourceLinks]
    exact agrees.members
  keyDelegations := by
    rw [same'.keyDelegations, same.keyDelegations]
    exact agrees.keyDelegations
  groupSites := by
    rw [same'.groupSites, same.groupSites]
    exact agrees.groupSites

theorem Agrees.memberships (agrees : Agrees s t) (group member : String) :
    t.memberships group member = s.memberships group member := by
  rw [Store.memberships, Store.memberships, agrees.structuralBlobs]
  congr 1
  funext row
  rw [agrees.members]

/-! ## Storing the same structural blob -/

variable {hash : String} {b b' : StructuralBlob}

theorem saveAuthor_returns {author : Option Principal}
    (returns : (s.saveAuthor F author).Returns t) (s' : Store Data) :
    ∃ t', (s'.saveAuthor F author).Returns t' := by
  cases author with
  | none => exact ⟨s', Attempt.returns_pure.mpr rfl⟩
  | some key =>
      simp only [Store.saveAuthor, Store.ensureAccount, Attempt.returns_bind,
        Attempt.returns_pure, Principal.returns_unsafeString] at returns ⊢
      rcases returns with ⟨⟨⟩, nonempty, -⟩
      exact ⟨_, (), nonempty, rfl⟩

theorem ensureOwner_returns {iri : String} {owner : Option Principal}
    (returns : (s.ensureOwner iri owner).Returns t) (s' : Store Data) :
    ∃ t', (s'.ensureOwner iri owner).Returns t' := by
  cases owner with
  | none => exact ⟨s', Attempt.returns_pure.mpr rfl⟩
  | some key =>
      simp only [Store.ensureOwner, Attempt.returns_bind, Attempt.returns_pure,
        Principal.returns_unsafeString] at returns ⊢
      rcases returns with ⟨⟨⟩, nonempty, -⟩
      exact ⟨_, (), nonempty, rfl⟩

theorem ensureCreateTime_returns {iri : String} {createTime : Option Int}
    (returns : (s.ensureCreateTime iri createTime).Returns t) (s' : Store Data) :
    ∃ t', (s'.ensureCreateTime iri createTime).Returns t' := by
  cases createTime with
  | none => exact ⟨s', Attempt.returns_pure.mpr rfl⟩
  | some ts =>
      simp only [Store.ensureCreateTime, Attempt.returns_bind, Attempt.returns_pure,
        Attempt.returns_check] at returns ⊢
      rcases returns with ⟨⟨⟩, nonzero, -⟩
      exact ⟨_, (), nonzero, rfl⟩

/-- Whether a resource can be stored does not depend on the store. -/
theorem saveResource_returns (same : SameBlob b b')
    (returns : (s.saveResource b).Returns t) (s' : Store Data) :
    ∃ t', (s'.saveResource b').Returns t' := by
  rw [Store.saveResource] at returns
  rw [Store.saveResource, same.resource, same.resourceOwner, same.resourceCreateTime]
  split at returns
  · next isEmpty =>
      rw [if_pos isEmpty]
      exact ⟨s', Attempt.returns_pure.mpr rfl⟩
  · next named =>
      rw [if_neg named]
      simp only [Store.ensureResourceMetadata, Attempt.returns_bind] at returns ⊢
      rcases returns with ⟨s₁, owner, createTime⟩
      rcases ensureOwner_returns owner (s'.ensureResource b.resource) with
        ⟨s₁', owner'⟩
      rcases ensureCreateTime_returns createTime s₁' with ⟨t', createTime'⟩
      exact ⟨t', s₁', owner', createTime'⟩

theorem Agrees.saved (agrees : Agrees s s') (same : SameBlob b b')
    (saved : Saved F hash b s t) (saved' : Saved F hash b' s' t') : Agrees t t' where
  structuralBlobs := by
    rw [saved'.structuralBlobs, saved.structuralBlobs, agrees.structuralBlobs,
      same.structuralRow]
  blobLinks := fun link => by
    rw [saved'.blobLinks, saved.blobLinks, agrees.blobLinks, savedBlobLinks,
      savedBlobLinks, (same.blobLinks.map _).mem_iff]
  resourceLinks := by
    rw [saved'.resourceLinks, saved.resourceLinks]
    exact agrees.resourceLinks.append (same.resourceLinks.map _)
  members := fun source target => by
    rw [saved'.resourceLinks, saved.resourceLinks, List.filter_append,
      List.filter_append, agrees.members, savedResourceLinks, savedResourceLinks,
      List.filter_map, List.filter_map]
    congr 2
    have members := same.members target
    rw [memberLinks, memberLinks] at members
    by_cases isSource : hash = source
    · simpa [Function.comp_def, isSource] using members
    · have other : (hash == source) = false := beq_eq_false_iff_ne.mpr isSource
      simp [Function.comp_def, other]
  keyDelegations := by
    rw [saved'.keyDelegations, saved.keyDelegations, agrees.keyDelegations]
  groupSites := by rw [saved'.groupSites, saved.groupSites, agrees.groupSites]

/-- Storing the same structural blob again keeps the derived tables the same. -/
theorem Agrees.saveBlob (agrees : Agrees s s') (same : SameBlob b b')
    (returns : (s.saveBlob F hash b).Returns t) :
    ∃ t', (s'.saveBlob F hash b').Returns t' ∧ Agrees t t' := by
  have saved := saved_of_saveBlob returns
  simp only [Store.saveBlob, Attempt.returns_bind, Attempt.returns_check] at returns
  rcases returns with ⟨s₁, author, s₂, resource, s₃, again, -⟩
  rcases saveAuthor_returns author s' with ⟨s₁', author'⟩
  rcases saveResource_returns same resource s₁' with ⟨s₂', resource'⟩
  rcases saveResource_returns same again s₂' with ⟨s₃', again'⟩
  have sameRows : s₃'.structuralBlobs = s.structuralBlobs := by
    rw [(owned_saveResource again').same.structuralBlobs,
      (owned_saveResource resource').same.structuralBlobs,
      (owned_saveAuthor author').same.structuralBlobs]
    exact agrees.structuralBlobs
  have returns' : ∃ t', (s'.saveBlob F hash b').Returns t' := by
    simp only [Store.saveBlob, Attempt.returns_bind, Attempt.returns_check,
      Attempt.returns_pure, same.author]
    refine ⟨_, s₁', author', s₂', resource', s₃', again', (), ?_, rfl⟩
    rw [sameRows, List.any_eq_true]
    rintro ⟨row, member, isHash⟩
    exact saved.fresh row member (beq_iff_eq.mp isHash)
  rcases returns' with ⟨t', returns'⟩
  exact ⟨t', returns', agrees.saved same saved (saved_of_saveBlob returns')⟩

end Agrees

end Mintter.Hyper
