import Mintter.Hyper.DraftListings
import Mintter.Hyper.Outgoing

/-!
# Drafts stay tidy

The listing of drafts asks that every draft is the last of the changes it depends on
and that these are all of its document.  The daemon saves a draft on top of changes
of the document, which stay as they are: blobs that arrive add no dependency to a
blob that was indexed before, and a blob that another one depends on is not deleted.

`SettledDrafts.tidy` says that such drafts are tidy, and `settledDrafts_of_run` that
every call of the store keeps them so, as long as drafts are saved on changes that
are settled themselves.
-/

namespace Mintter.Hyper

open Relation
open Mintter.Foundation
open Mintter.Crdt2 (FieldOrder)

variable {Data : Type}

/-! ## Settled drafts -/

/-- All that the blob depends on are indexed changes of the document, none of them later. -/
def WithinDocument (s : Store Data) (eid : String) (time : Int) (hash : String) : Prop :=
  ∀ other, ReflTransGen (fun source target => (source, target) ∈ changeDeps s) hash other →
    ∃ row ∈ s.structuralBlobs, row.blob = other ∧ row.resource = some eid ∧
      sqlKey row.ts ≤ time

/-- A draft of an author for a document that has an owner. -/
structure SettledDraft (s : Store Data) (draft : DraftRow) : Prop where
  indexed : ∃ row ∈ s.structuralBlobs, row.blob = draft.blob ∧
    row.resource = some draft.resource ∧ row.author.isSome = true ∧
      ∃ t, row.ts = some t ∧ t < maxInt64 ∧ WithinDocument s draft.resource t draft.blob
  owned : (s.owner draft.resource).isSome = true

/-- All drafts are settled, and a resource has one at most. -/
structure SettledDrafts (s : Store Data) : Prop where
  blobs : (s.structuralBlobs.map (·.blob)).Nodup
  resources : (s.drafts.map (·.resource)).Nodup
  settled : ∀ draft ∈ s.drafts, SettledDraft s draft

theorem SettledDrafts.empty : SettledDrafts (.empty : Store Data) :=
  ⟨List.nodup_nil, List.nodup_nil, nofun⟩

section Tidy

variable {s : Store Data} {numbers : ResourceNumbers s}

/-- A resource with an owner is among the numbered ones. -/
theorem exists_numbered_of_owner {iri : String} (numbers : ResourceNumbers s)
    (owned : (s.owner iri).isSome = true) :
    ∃ numbered ∈ numbers.rows, numbered.2.iri = iri ∧ numbered.2.owner.isSome = true := by
  rcases Option.isSome_iff_exists.mp owned with ⟨key, isOwner⟩
  rcases Option.bind_eq_some_iff.mp isOwner with ⟨row, isRow, ownerOf⟩
  have isResource : row ∈ numbers.rows.map Prod.snd := by
    rw [numbers.rows_eq]
    exact List.mem_of_find?_eq_some isRow
  rcases List.mem_map.mp isResource with ⟨numbered, member, rfl⟩
  refine ⟨numbered, member, ?_, ?_⟩
  · simpa using List.find?_some isRow
  · rw [ownerOf]
    rfl

/-- What a draft depends on can be reached from its blob. -/
theorem path_of_mem_draftChanges {draft : DraftRow × StructuralBlobRow}
    {change : StructuralBlobRow} (member : change ∈ draftChanges s [draft]) :
    ReflTransGen (fun source target => (source, target) ∈ changeDeps s) draft.2.blob
      change.blob := by
  rcases List.mem_filter.mp member with ⟨-, isReached⟩
  rcases mem_closure_iff.mp (List.contains_iff_mem.mp isReached) with ⟨_, isStart, path⟩
  rw [List.map_cons, List.map_nil, List.mem_singleton] at isStart
  subst isStart
  exact ReflTransGen.mono (fun _ _ isEdge => (List.mem_filter.mp isEdge).1) _ _ path

/-- Settled drafts are tidy, whatever the numbers of the resources are. -/
theorem SettledDrafts.tidy (settled : SettledDrafts s) (numbers : ResourceNumbers s) :
    TidyDrafts numbers where
  blobs := settled.blobs
  resources := settled.resources
  indexed := fun draft isDraft => by
    rcases (settled.settled draft isDraft).indexed with ⟨row, isRow, isBlob, -⟩
    exact ⟨row, isRow, isBlob⟩
  tidy := fun draft member => by
    rcases mem_draftBlobs.mp member with ⟨isDraft, isRow, isBlob⟩
    have settledDraft := settled.settled draft.1 isDraft
    rcases settledDraft.indexed with
      ⟨row, isRow', isBlob', isResource, isAuthor, t, isTime, less, within⟩
    have same : row = draft.2 :=
      List.inj_on_of_nodup_map settled.blobs isRow' isRow (isBlob'.trans isBlob.symm)
    subst same
    -- The rows that the blob depends on are the indexed ones, as blobs are unique.
    have reached : ∀ change ∈ draftChanges s [draft],
        change.resource = some draft.1.resource ∧ sqlKey change.ts ≤ t := by
      intro change isChange
      have path := path_of_mem_draftChanges isChange
      rw [isBlob] at path
      rcases within change.blob path with ⟨other, isOther, sameBlob, rest⟩
      have isSame : other = change := List.inj_on_of_nodup_map settled.blobs isOther
        (List.mem_filter.mp isChange).1 sameBlob
      exact isSame ▸ rest
    exact {
      resource := isResource
      owned := exists_numbered_of_owner numbers settledDraft.owned
      authored := isAuthor
      dated := ⟨t, isTime, less, fun change isChange => (reached change isChange).2⟩
      within := fun change isChange => (reached change isChange).1.trans isResource.symm }

end Tidy

/-! ## What keeps drafts settled -/

section Steps

variable {F : Formats Data} {order : FieldOrder} {s t : Store Data} {eid c hash : String}
variable {time : Int} {draft : DraftRow}

/-- The rows stay that a blob of the document depends on, and no indexed blob gets a dependency. -/
theorem WithinDocument.keep (within : WithinDocument s eid time hash)
    (edges : ∀ row ∈ s.structuralBlobs, ∀ target,
      (row.blob, target) ∈ changeDeps t → (row.blob, target) ∈ changeDeps s)
    (rows : ∀ row ∈ s.structuralBlobs, row.resource = some eid →
      (row.blob = hash ∨ ∃ source, (source, row.blob) ∈ changeDeps t) →
        row ∈ t.structuralBlobs) : WithinDocument t eid time hash := by
  intro other path
  have before : ReflTransGen (fun source target => (source, target) ∈ changeDeps s) hash
      other := by
    induction path with
    | refl => exact .refl
    | tail _ isEdge induction =>
        rcases within _ induction with ⟨row, isRow, rfl, -⟩
        exact induction.tail (edges row isRow _ isEdge)
  rcases within other before with ⟨row, isRow, isOther, isResource, notLater⟩
  subst isOther
  refine ⟨row, rows row isRow isResource ?_, rfl, isResource, notLater⟩
  cases path with
  | refl => exact .inl rfl
  | tail _ isEdge => exact .inr ⟨_, isEdge⟩

theorem SettledDraft.keep (settled : SettledDraft s draft)
    (edges : ∀ row ∈ s.structuralBlobs, ∀ target,
      (row.blob, target) ∈ changeDeps t → (row.blob, target) ∈ changeDeps s)
    (rows : ∀ row ∈ s.structuralBlobs, row.resource = some draft.resource →
      (row.blob = draft.blob ∨ ∃ source, (source, row.blob) ∈ changeDeps t) →
        row ∈ t.structuralBlobs)
    (owned : (t.owner draft.resource).isSome = true) : SettledDraft t draft := by
  rcases settled.indexed with
    ⟨row, isRow, isBlob, isResource, isAuthor, time, isTime, less, within⟩
  exact ⟨⟨row, rows row isRow isResource (.inl isBlob), isBlob, isResource, isAuthor, time,
    isTime, less, within.keep edges rows⟩, owned⟩

theorem owned_of_grows {iri : String} (grows : Grows s t)
    (owned : (s.owner iri).isSome = true) : (t.owner iri).isSome = true := by
  rcases Option.isSome_iff_exists.mp owned with ⟨key, isOwner⟩
  rw [grows.owner isOwner]
  rfl

/-- Some drafts are forgotten, and their documents keep their owners. -/
theorem SettledDrafts.of_same (settled : SettledDrafts s)
    (structuralBlobs : t.structuralBlobs = s.structuralBlobs)
    (blobLinks : t.blobLinks = s.blobLinks) (drafts : t.drafts.Sublist s.drafts)
    (owner : ∀ draft ∈ t.drafts, (s.owner draft.resource).isSome = true →
      (t.owner draft.resource).isSome = true) : SettledDrafts t where
  blobs := structuralBlobs ▸ settled.blobs
  resources := (drafts.map _).nodup settled.resources
  settled := fun draft isDraft => by
    have before := settled.settled draft (drafts.subset isDraft)
    apply before.keep
    · intro row _ target isEdge
      rwa [changeDeps, blobLinks] at isEdge
    · intro row isRow _ _
      rwa [structuralBlobs]
    · exact owner draft isDraft before.owned

/-- A blob that is indexed gets its own links only. -/
theorem changeDeps_of_saved {b : StructuralBlob} (saved : Saved F hash b s t)
    (row : StructuralBlobRow) (isRow : row ∈ s.structuralBlobs) (target : String)
    (isEdge : (row.blob, target) ∈ changeDeps t) : (row.blob, target) ∈ changeDeps s := by
  rcases (saved.blobLinks _).mp (mem_changeDeps.mp isEdge) with old | isNew
  · exact mem_changeDeps.mpr old
  · rcases List.mem_map.mp isNew with ⟨_, -, same⟩
    have isHash : hash = row.blob := congrArg BlobLinkRow.source same
    exact absurd isHash.symm (saved.fresh row isRow)

theorem SettledDrafts.saved {b : StructuralBlob} (settled : SettledDrafts s)
    (saved : Saved F hash b s t) : SettledDrafts t where
  blobs := by
    rw [saved.structuralBlobs, List.map_append, List.map_singleton]
    apply settled.blobs.append (List.nodup_singleton _)
    intro other isOld isNew
    rcases List.mem_map.mp isOld with ⟨row, isRow, rfl⟩
    exact saved.fresh row isRow (List.mem_singleton.mp isNew)
  resources := saved.grows.drafts ▸ settled.resources
  settled := fun draft isDraft => by
    rw [saved.grows.drafts] at isDraft
    have before := settled.settled draft isDraft
    apply before.keep (changeDeps_of_saved saved)
    · intro row isRow _ _
      rw [saved.structuralBlobs]
      exact List.mem_append_left _ isRow
    · exact owned_of_grows saved.grows before.owned

theorem SettledDrafts.ensured (settled : SettledDrafts s) (ensured : Ensured F s t) :
    SettledDrafts t :=
  settled.of_same ensured.structuralBlobs ensured.blobLinks
    (ensured.grows.drafts ▸ .refl _) fun _ _ => owned_of_grows ensured.grows

theorem SettledDrafts.received (settled : SettledDrafts s) (received : Received s t) :
    SettledDrafts t :=
  settled.of_same received.same.structuralBlobs received.same.blobLinks
    (received.drafts ▸ .refl _) fun draft _ => by rw [received.owner]; exact id

theorem SettledDrafts.indexed {blob : DecodedBlob} (settled : SettledDrafts s)
    (indexed : IndexedBlob F order s c t blob) : SettledDrafts t := by
  cases blob with
  | dagPB links => exact settled.saved indexed
  | keyDelegation kd =>
      apply SettledDrafts.saved _ indexed.saved
      rw [Store.keyDelegationsInsertOrIgnore]
      split
      · exact settled
      · exact settled.of_same rfl rfl (.refl _) fun _ _ => id
  | change v =>
      rcases indexed with ⟨author, sb, s₁, isChange⟩
      have ensured := (entityIndexed_of_returns entityLinks_true isChange.entity).1
      exact (settled.ensured ensured).saved isChange.saved
  | comment cm =>
      rcases indexed with ⟨author, sb, isComment⟩
      exact settled.saved isComment.saved

/-- What deleting blobs does: no link of a blob that stays leads to one that is deleted. -/
structure BlobsDeleted (chosen : String → Bool) (s t : Store Data) : Prop where
  blobs : t.blobs = s.blobs.filter fun row => !chosen row.multihash
  structuralBlobs : t.structuralBlobs = s.structuralBlobs.filter fun row => !chosen row.blob
  drafts : t.drafts = s.drafts.filter fun draft => !chosen draft.blob
  resources : t.resources = s.resources
  mem_blobLinks : ∀ link, link ∈ t.blobLinks ↔ link ∈ s.blobLinks ∧ chosen link.source = false
  stays : ∀ link ∈ t.blobLinks, chosen link.target = false

theorem blobsDeleted_of_returns {chosen : String → Bool}
    (returns : (s.deleteBlobs chosen).Returns t) : BlobsDeleted chosen s t := by
  rw [Store.deleteBlobs] at returns
  split at returns
  · exact absurd returns Attempt.not_returns_throw
  · next noReference =>
      rcases Attempt.returns_pure.mp returns with rfl
      refine ⟨rfl, rfl, rfl, rfl, fun link => by simp, fun link isLink => ?_⟩
      rcases List.mem_filter.mp isLink with ⟨isLink, source⟩
      by_contra isChosen
      apply noReference
      rw [Store.refersToBlobs, Bool.or_eq_true]
      left
      apply List.any_eq_true.mpr
      exists link
      constructor
      · exact isLink
      · rw [source, Bool.eq_true_of_not_eq_false isChosen]
        rfl

section Deleted

variable {chosen : String → Bool}

theorem BlobsDeleted.changeDeps (deleted : BlobsDeleted chosen s t) (source target : String)
    (isEdge : (source, target) ∈ changeDeps t) :
    (source, target) ∈ Hyper.changeDeps s ∧ chosen target = false := by
  have isLink := mem_changeDeps.mp isEdge
  exact ⟨mem_changeDeps.mpr ((deleted.mem_blobLinks _).mp isLink).1, deleted.stays _ isLink⟩

theorem BlobsDeleted.mem_structuralBlobs (deleted : BlobsDeleted chosen s t)
    (stays : chosen hash = false) (row : StructuralBlobRow) (isRow : row ∈ s.structuralBlobs)
    (reached : row.blob = hash ∨ ∃ source, (source, row.blob) ∈ Hyper.changeDeps t) :
    row ∈ t.structuralBlobs := by
  rw [deleted.structuralBlobs]
  apply List.mem_filter.mpr
  constructor
  · exact isRow
  · rcases reached with rfl | ⟨source, isEdge⟩
    · rw [stays]
      rfl
    · rw [(deleted.changeDeps source row.blob isEdge).2]
      rfl

theorem WithinDocument.deleted (within : WithinDocument s eid time hash)
    (deleted : BlobsDeleted chosen s t) (stays : chosen hash = false) :
    WithinDocument t eid time hash :=
  within.keep (fun row _ target isEdge => (deleted.changeDeps row.blob target isEdge).1)
    fun row isRow _ => deleted.mem_structuralBlobs stays row isRow

theorem SettledDrafts.deleted (settled : SettledDrafts s) (deleted : BlobsDeleted chosen s t) :
    SettledDrafts t where
  blobs := by
    rw [deleted.structuralBlobs]
    exact (List.filter_sublist.map _).nodup settled.blobs
  resources := by
    rw [deleted.drafts]
    exact (List.filter_sublist.map _).nodup settled.resources
  settled := fun draft isDraft => by
    rw [deleted.drafts] at isDraft
    rcases List.mem_filter.mp isDraft with ⟨wasDraft, stays⟩
    have before := settled.settled draft wasDraft
    apply before.keep
    · exact fun row _ target isEdge => (deleted.changeDeps row.blob target isEdge).1
    · exact fun row isRow _ => deleted.mem_structuralBlobs (by simpa using stays) row isRow
    · rw [Store.owner, Store.resourceRow, deleted.resources]
      exact before.owned

end Deleted

end Steps

/-! ## Saving drafts -/

/-- A new change of the document, on top of earlier changes of it. -/
structure DraftOn (F : Formats Data) (s : Store Data) (eid c : String) (v : Change) : Prop where
  entity : v.entity = eid
  named : eid ≠ ""
  absent : s.blobRow (F.cidHash c) = none
  unlinked : ∀ link ∈ s.blobLinks, link.source ≠ F.cidHash c
  dated : 0 < v.hlcTime ∧ v.hlcTime < maxInt64
  deps : ∀ dep ∈ v.deps, WithinDocument s eid v.hlcTime (F.cidHash dep)

section Saving

variable {F : Formats Data} {order : FieldOrder} {s s₁ t : Store Data} {eid c : String}
variable {v : Change} {author : Principal} {sb : StructuralBlob} {data : Data}
variable {blob : DecodedBlob}

/-- The blobs and the links from one of them are those of another store. -/
theorem DraftOn.of_same (on : DraftOn F s eid c v)
    (structuralBlobs : s₁.structuralBlobs = s.structuralBlobs)
    (blobLinks : s₁.blobLinks = s.blobLinks) :
    ∀ dep ∈ v.deps, WithinDocument s₁ eid v.hlcTime (F.cidHash dep) := by
  intro dep isDep
  apply (on.deps dep isDep).keep
  · intro row _ target isEdge
    rwa [changeDeps, blobLinks] at isEdge
  · intro row isRow _ _
    rwa [structuralBlobs]

/-- A change that is indexed on top of earlier changes of its document is a settled draft. -/
theorem settledDraft_of_indexedChange
    (indexed : IndexedChange F order s c v author sb s₁ t) (entity : v.entity = eid)
    (named : eid ≠ "") (dated : 0 < v.hlcTime ∧ v.hlcTime < maxInt64)
    (unlinked : ∀ link ∈ s.blobLinks, link.source ≠ F.cidHash c)
    (deps : ∀ dep ∈ v.deps, WithinDocument s eid v.hlcTime (F.cidHash dep)) :
    SettledDraft t ⟨eid, F.cidHash c⟩ := by
  rcases entityIndexed_of_returns changeLinks indexed.entity with ⟨ensured, extended, -⟩
  have saved := indexed.saved
  have isRow : Store.structuralRow (F.cidHash c) sb ∈ t.structuralBlobs := by
    rw [saved.structuralBlobs]
    exact List.mem_append_right _ (List.mem_singleton_self _)
  have isResource : sb.resource = eid := extended.resource.trans entity
  have isTime : sb.time = some v.hlcTime := by
    rw [show sb.time = nonzeroTime v.hlcTime from extended.time, nonzeroTime, if_neg]
    intro isZero
    rw [isZero] at dated
    exact absurd dated.1 (by decide)
  have stored : (Store.structuralRow (F.cidHash c) sb).resource = some eid := by
    rw [Store.structuralRow, if_neg (isResource ▸ named), isResource]
  have isAuthor : sb.author = some author := extended.author
  constructor
  · refine ⟨_, isRow, rfl, stored, ?_, v.hlcTime, isTime, dated.2, ?_⟩
    · exact Option.isSome_iff_exists.mpr ⟨author, isAuthor⟩
    · intro other path
      rcases path.cases_head with rfl | ⟨next, isEdge, rest⟩
      · refine ⟨_, isRow, rfl, stored, ?_⟩
        rw [show (Store.structuralRow (F.cidHash c) sb).ts = some v.hlcTime from isTime]
        exact le_rfl
      · -- The links of the new blob are those to its dependencies.
        have isDep : ∃ dep ∈ v.deps, F.cidHash dep = next := by
          rcases (saved.blobLinks _).mp (mem_changeDeps.mp isEdge) with old | isNew
          · rw [ensured.blobLinks] at old
            exact absurd rfl (unlinked _ old)
          · rcases List.mem_map.mp isNew with ⟨⟨type, dep⟩, isLink, same⟩
            have isType : type = "change/dep" := congrArg BlobLinkRow.type same
            subst isType
            exact ⟨dep, indexed.mem_blobLinks_dep.mp isLink, congrArg BlobLinkRow.target same⟩
        rcases isDep with ⟨dep, isDep, rfl⟩
        have within : WithinDocument t eid v.hlcTime (F.cidHash dep) := by
          apply (deps dep isDep).keep
          · intro row isRow target isEdge
            rw [← ensured.structuralBlobs] at isRow
            have before := changeDeps_of_saved saved row isRow target isEdge
            rwa [changeDeps, ensured.blobLinks] at before
          · intro row isRow _ _
            rw [saved.structuralBlobs, ensured.structuralBlobs]
            exact List.mem_append_left _ isRow
        exact within other rest
  · have isOwner : sb.resourceOwner = some author := extended.resourceOwner
    simp [saved.owner_eq, isOwner, isResource, named]

/-- Putting a block leaves all tables but that of the blobs. -/
theorem derived_putBlock {inID codec : Nat} {hash : String} {found : Bool}
    (returns : (s.putBlock F inID codec hash data).Returns (found, t)) :
    t.structuralBlobs = s.structuralBlobs ∧ t.blobLinks = s.blobLinks ∧
      t.drafts = s.drafts ∧ t.resources = s.resources := by
  rcases putBlock_cases returns with rfl | rfl | ⟨-, rfl | rfl⟩
  · exact ⟨rfl, rfl, rfl, rfl⟩
  · exact ⟨rfl, rfl, rfl, rfl⟩
  · exact ⟨rfl, rfl, rfl, rfl⟩
  · exact ⟨rfl, rfl, rfl, rfl⟩

theorem SettledDrafts.putBlock {inID codec : Nat} {hash : String} {found : Bool}
    (settled : SettledDrafts s)
    (returns : (s.putBlock F inID codec hash data).Returns (found, t)) : SettledDrafts t := by
  rcases derived_putBlock returns with ⟨structuralBlobs, blobLinks, drafts, resources⟩
  apply settled.of_same structuralBlobs blobLinks (drafts ▸ .refl _)
  intro draft _ owned
  rwa [Store.owner, Store.resourceRow, resources]

/-- A block without a row is new. -/
theorem not_found_of_absent {inID codec : Nat} {hash : String} {found : Bool}
    (absent : s.blobRow hash = none)
    (returns : (s.putBlock F inID codec hash data).Returns (found, t)) : found = false := by
  rw [Store.putBlock, absent] at returns
  dsimp only at returns
  split at returns
  · cases Attempt.returns_pure.mp returns
    rfl
  · cases Attempt.returns_pure.mp returns
    rfl

theorem SettledDrafts.insertDraft (settled : SettledDrafts s)
    (isSettled : SettledDraft s ⟨eid, F.cidHash c⟩)
    (returns : (insertDraft F s eid c).Returns t) : SettledDrafts t := by
  rw [Hyper.insertDraft] at returns
  split at returns
  · exact absurd returns Attempt.not_returns_abort
  · rw [Store.draftsInsert] at returns
    split at returns
    · exact absurd returns Attempt.not_returns_throw
    · next noDraft =>
        rcases Attempt.returns_pure.mp returns with rfl
        refine ⟨settled.blobs, ?_, fun draft isDraft => ?_⟩
        · rw [List.map_append, List.map_singleton]
          apply settled.resources.append (List.nodup_singleton _)
          intro resource isOld isNew
          rcases List.mem_map.mp isOld with ⟨draft, isDraft, rfl⟩
          apply noDraft
          apply List.any_eq_true.mpr
          exact ⟨draft, isDraft, beq_iff_eq.mpr (List.mem_singleton.mp isNew)⟩
        · rcases List.mem_append.mp isDraft with isOld | isNew
          · exact (settled.settled draft isOld).keep (fun _ _ _ isEdge => isEdge)
              (fun _ isRow _ _ => isRow) (settled.settled draft isOld).owned
          · rcases List.mem_singleton.mp isNew with rfl
            exact isSettled.keep (fun _ _ _ isEdge => isEdge) (fun _ isRow _ _ => isRow)
              isSettled.owned

/-- A draft that is put, indexed and inserted keeps all drafts settled. -/
theorem SettledDrafts.savedDraft {inID : Nat} {found : Bool} (settled : SettledDrafts s)
    (on : DraftOn F s eid c v)
    (stored : (s.putBlock F inID (F.cidCodec c) (F.cidHash c) data).Returns (found, s₁))
    {s₂ : Store Data} (indexed : (indexBlob F order s₁ c (.change v)).Returns s₂)
    (inserted : (Hyper.insertDraft F s₂ eid c).Returns t) : SettledDrafts t := by
  rcases derived_putBlock stored with ⟨structuralBlobs, blobLinks, -, -⟩
  have isIndexed := indexedBlob_of_returns indexed
  apply ((settled.putBlock stored).indexed isIndexed).insertDraft _ inserted
  rcases isIndexed with ⟨author, sb, s₃, isChange⟩
  apply settledDraft_of_indexedChange isChange on.entity on.named on.dated
  · rw [blobLinks]
    exact on.unlinked
  · exact on.of_same structuralBlobs blobLinks

theorem SettledDrafts.put (settled : SettledDrafts s)
    (returns : (Hyper.put F order s c data).Returns t) : SettledDrafts t := by
  rcases put_of_returns returns with ⟨found, s₁, isPut⟩
  have stored := settled.received isPut.block.received
  cases skips : found || !isIndexable (F.cidCodec c) with
  | true =>
      rw [isPut.skipped skips]
      exact stored
  | false =>
      rcases isPut.indexed skips with ⟨blob, -, indexed⟩
      exact stored.indexed (indexedBlob_of_returns indexed)

theorem SettledDrafts.saveDraftBlob (settled : SettledDrafts s) (on : DraftOn F s eid c v)
    (returns : (Hyper.saveDraftBlob F order s eid c data (.change v)).Returns t) :
    SettledDrafts t := by
  rcases Attempt.returns_bind.mp returns with ⟨s₂, saved, inserted⟩
  rcases Attempt.returns_bind.mp saved with ⟨⟨found, s₁⟩, stored, indexed⟩
  have isNew := not_found_of_absent on.absent stored
  subst isNew
  exact settled.savedDraft on stored indexed inserted

/-- A draft is replaced by one that does not depend on it. -/
theorem SettledDrafts.replaceDraftBlob {old : String} (settled : SettledDrafts s)
    (on : DraftOn F s eid c v) (apart : ∀ dep ∈ v.deps, F.cidHash dep ≠ F.cidHash old)
    (returns : (Hyper.replaceDraftBlob F order s eid old c data (.change v)).Returns t) :
    SettledDrafts t := by
  rcases Attempt.returns_bind.mp returns with ⟨⟨⟩, -, returns⟩
  rcases Attempt.returns_bind.mp returns with ⟨s₁, deletes, returns⟩
  rcases Attempt.returns_bind.mp returns with ⟨⟨found, s₂⟩, stored, returns⟩
  have deleted := blobsDeleted_of_returns deletes
  have onRest : DraftOn F s₁ eid c v := { on with
    absent := by
      rw [Store.blobRow, deleted.blobs]
      apply List.find?_eq_none.mpr
      intro row isRow
      exact List.find?_eq_none.mp on.absent row (List.mem_filter.mp isRow).1
    unlinked := fun link isLink => on.unlinked link ((deleted.mem_blobLinks link).mp isLink).1
    deps := fun dep isDep => (on.deps dep isDep).deleted deleted (by simp [apart dep isDep]) }
  have isNew := not_found_of_absent onRest.absent stored
  subst isNew
  rcases Attempt.returns_bind.mp returns with ⟨s₃, indexed, inserted⟩
  exact (settled.deleted deleted).savedDraft onRest stored indexed inserted

theorem SettledDrafts.draftsDelete (settled : SettledDrafts s) (hash : String) :
    SettledDrafts (s.draftsDelete hash) :=
  settled.of_same rfl rfl List.filter_sublist fun _ _ => id

theorem SettledDrafts.blobsTouch {hash : String} (settled : SettledDrafts s)
    (returns : (s.blobsTouch hash).Returns t) : SettledDrafts t := by
  rw [Store.blobsTouch] at returns
  split at returns
  · exact absurd returns Attempt.not_returns_throw
  · rcases Attempt.returns_pure.mp returns with rfl
    exact settled.of_same rfl rfl (.refl _) fun _ _ => id

theorem SettledDrafts.publishDraft (settled : SettledDrafts s)
    (returns : (Hyper.publishDraft s eid).Returns t) : SettledDrafts t := by
  rw [Hyper.publishDraft] at returns
  split at returns
  · exact absurd returns Attempt.not_returns_throw
  · rcases Attempt.returns_bind.mp returns with ⟨⟨⟩, -, touched⟩
    exact (settled.draftsDelete _).blobsTouch touched

theorem SettledDrafts.publishBlob (settled : SettledDrafts s)
    (returns : (Hyper.publishBlob F s c).Returns t) : SettledDrafts t := by
  rcases Attempt.returns_bind.mp returns with ⟨⟨⟩, -, returns⟩
  split at returns
  · exact settled.blobsTouch returns
  · rcases Attempt.returns_pure.mp returns with rfl
    exact settled.of_same rfl rfl (.refl _) fun _ _ => id

/-- A resource with a draft is not deleted. -/
theorem SettledDrafts.entitiesDelete (settled : SettledDrafts s)
    (returns : (s.entitiesDelete eid).Returns t) : SettledDrafts t := by
  rw [Store.entitiesDelete] at returns
  split at returns
  · exact absurd returns Attempt.not_returns_throw
  · next unused =>
      rcases Attempt.returns_pure.mp returns with rfl
      apply settled.of_same
      · exact rfl
      · exact rfl
      · exact .refl _
      · intro draft isDraft owned
        have differs : draft.resource ≠ eid := by
          rintro rfl
          apply unused
          rw [Bool.or_eq_true]
          right
          exact List.any_eq_true.mpr ⟨draft, isDraft, beq_self_eq_true _⟩
        have same : (s.resources.filter fun row => row.iri ≠ eid).find?
            (·.iri == draft.resource) = s.resources.find? (·.iri == draft.resource) := by
          rw [List.find?_filter]
          congr 1
          funext row
          by_cases isDocument : row.iri = draft.resource
          · simp [isDocument, differs]
          · simp [isDocument]
        rw [Store.owner, Store.resourceRow] at owned ⊢
        rwa [same]

theorem SettledDrafts.deleteDraft (settled : SettledDrafts s)
    (returns : (Hyper.deleteDraft s eid).Returns t) : SettledDrafts t := by
  rw [Hyper.deleteDraft] at returns
  split at returns
  · exact absurd returns Attempt.not_returns_throw
  · rcases Attempt.returns_bind.mp returns with ⟨s₁, deletes, returns⟩
    rcases Attempt.returns_pure.mp returns with rfl
    have without := (settled.draftsDelete _).deleted (blobsDeleted_of_returns deletes)
    cases removed : (s₁.entitiesDelete eid).returned with
    | none => exact without
    | some t => exact without.entitiesDelete (Attempt.returned_eq_some.mp removed)

end Saving

/-! ## Runs -/

/-- Deleting blobs, and emptying them, keeps drafts settled. -/
theorem settledDrafts_keptByDeletions :
    KeptByDeletions fun s : Store Data => SettledDrafts s where
  deleteBlobs := fun _ _ _ returns settled => settled.deleted (blobsDeleted_of_returns returns)
  emptyBlobs := fun _ _ settled => settled.of_same rfl rfl (.refl _) fun _ _ => id

/--
A draft is saved on earlier changes of its document and does not depend on the draft that it
replaces; the rows of a document that has a draft are not removed by force.
-/
def KeepsSettled (F : Formats Data) (s : Store Data) : StoreCall Data → Prop
  | .saveDraftBlob _ eid c _ blob => ∃ v, blob = .change v ∧ DraftOn F s eid c v
  | .replaceDraftBlob _ eid old c _ blob => ∃ v, blob = .change v ∧ DraftOn F s eid c v ∧
      ∀ dep ∈ v.deps, F.cidHash dep ≠ F.cidHash old
  | .blobsStructuralDelete eid => ∀ draft ∈ s.drafts, draft.resource ≠ eid
  | _ => True

section Runs

variable {F : Formats Data} {s t : Store Data} {eid : String}

theorem SettledDrafts.blobsStructuralDelete (settled : SettledDrafts s)
    (apart : ∀ draft ∈ s.drafts, draft.resource ≠ eid) :
    SettledDrafts (s.blobsStructuralDelete eid) where
  blobs := (List.filter_sublist.map _).nodup settled.blobs
  resources := settled.resources
  settled := fun draft isDraft => by
    have before := settled.settled draft isDraft
    apply before.keep
    · exact fun _ _ _ isEdge => isEdge
    · intro row isRow isResource _
      apply List.mem_filter.mpr
      constructor
      · exact isRow
      · rw [Bool.not_eq_true', ← Bool.not_eq_true]
        intro isRemoved
        rw [Store.isBlobOf, Bool.and_eq_true] at isRemoved
        rcases List.any_eq_true.mp isRemoved.2 with ⟨other, isOther, same⟩
        rw [Bool.and_eq_true, beq_iff_eq, beq_iff_eq] at same
        have isSame := List.inj_on_of_nodup_map settled.blobs isOther isRow same.1
        subst isSame
        exact apart draft isDraft (Option.some.inj (isResource.symm.trans same.2))
    · exact before.owned

theorem SettledDrafts.deleteEntityChanges (settled : SettledDrafts s)
    (returns : (Hyper.deleteEntityChanges s eid).Returns t) : SettledDrafts t := by
  rw [Hyper.deleteEntityChanges] at returns
  split at returns
  · exact absurd returns Attempt.not_returns_throw
  · rcases Attempt.returns_bind.mp returns with ⟨s₁, deletes, removed⟩
    exact (settled.deleted (blobsDeleted_of_returns deletes)).entitiesDelete removed

/-- Every such call keeps the drafts settled. -/
theorem SettledDrafts.call {storeCall : StoreCall Data} (settled : SettledDrafts s)
    (keeps : KeepsSettled F s storeCall) (called : Hyper.call F s storeCall = some t) :
    SettledDrafts t := by
  have returns := Attempt.returned_eq_some.mp called
  cases storeCall with
  | put arrival => exact settled.put returns
  | putMany arrivals =>
      exact returns.foldlM_invariant (fun _ _ _ _ before isPut => before.put isPut) settled
  | saveDraftBlob order eid c data blob =>
      rcases keeps with ⟨v, rfl, on⟩
      exact settled.saveDraftBlob on returns
  | replaceDraftBlob order eid old c data blob =>
      rcases keeps with ⟨v, rfl, on, apart⟩
      exact settled.replaceDraftBlob on apart returns
  | publishDraft => exact settled.publishDraft returns
  | publishBlob => exact settled.publishBlob returns
  | deleteDraft => exact settled.deleteDraft returns
  | deleteBlock => exact settled.deleted (blobsDeleted_of_returns returns)
  | deleteComments => exact settledDrafts_keptByDeletions.deleteComments returns settled
  | deleteEntityChanges => exact settled.deleteEntityChanges returns
  | blobsEmptyByEID =>
      exact Attempt.returns_pure.mp returns ▸ settledDrafts_keptByDeletions.emptyBlobs _ _ settled
  | blobsStructuralDelete =>
      exact Attempt.returns_pure.mp returns ▸ settled.blobsStructuralDelete keeps
  | entitiesInsertRemovedRecord eid =>
      change (s.entitiesInsertRemovedRecord eid).Returns t at returns
      rw [Store.entitiesInsertRemovedRecord] at returns
      split at returns
      · exact absurd returns Attempt.not_returns_throw
      · rcases Attempt.returns_pure.mp returns with rfl
        exact settled.of_same rfl rfl (.refl _) fun _ _ => id
  | entitiesDeleteRemovedRecord =>
      rcases Attempt.returns_pure.mp returns with rfl
      exact settled.of_same rfl rfl (.refl _) fun _ _ => id

/-- In every store that such calls reach the drafts are tidy. -/
theorem tidyDrafts_of_run (run : Reaches (Hyper.call F) (KeepsSettled F) .empty s)
    (numbers : ResourceNumbers s) : TidyDrafts numbers := by
  have settled : SettledDrafts s :=
    run.invariant (fun _ _ _ before keeps called => before.call keeps called) .empty
  exact settled.tidy numbers

/-- A draft on top of the creation of its document. -/
example (numbers : ResourceNumbers draftStore) : TidyDrafts numbers := by
  have created : Reaches (Hyper.call (sampleFormats sampleSha256))
      (KeepsSettled (sampleFormats sampleSha256)) .empty publicStore := by
    apply reaches_of_performAll _ publicCallsResult.property
    exact ⟨trivial, fun _ _ => ⟨trivial, fun _ _ => trivial⟩⟩
  have drafted : Reaches (Hyper.call (sampleFormats sampleSha256))
      (KeepsSettled (sampleFormats sampleSha256)) publicStore draftStore := by
    apply reaches_of_performAll _ draftCallsResult.property
    refine ⟨⟨draftChange, rfl, rfl, by decide, by decide +kernel, by decide +kernel,
      by decide, ?_⟩, fun _ _ => trivial⟩
    intro dep isDep other path
    rcases List.mem_singleton.mp isDep with rfl
    have noEdge : changeDeps publicStore = [] := by decide +kernel
    rcases path.cases_head with rfl | ⟨next, isEdge, -⟩
    · decide +kernel
    · rw [noEdge] at isEdge
      cases isEdge
  exact tidyDrafts_of_run (created.trans drafted) numbers

/-- In every store that such calls reach, following the page tokens from the empty one lists
every draft once and in order if and only if the drafts on each page are below the last one of
the page before, in time and number of the resource. -/
theorem drafts_listed_iff_of_run (run : Reaches (Hyper.call F) (KeepsSettled F) .empty s)
    (numbers : ResourceNumbers s) (T : TokenFormat DraftsCursor) {size : Nat}
    (positive : 0 < size) (address : Nat) :
    (∃ rows, Follows ((numbers.drafts (some T)).pages size address) "" "" rows ∧
        ListsDrafts numbers rows) ↔
      Descends size numbers.draftKey numbers.allDrafts :=
  (tidyDrafts_of_run run numbers).listed_iff positive

end Runs

end Mintter.Hyper
