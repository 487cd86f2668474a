import Mathlib.Order.Bounds.Basic
import Mintter.Hyper.Kept
import Mintter.Hyper.Loadable
import Mintter.Hyper.Rebuilt

/-!
# Blobs that are sent to others

A server lists its blobs, and a group or a publication is pushed with everything
that is related to it.  `QCollectBlobs` collects the related blobs: those of a
resource, those that a blob links to, and the resources that it links to without a
version.  Only the list leaves drafts and blobs without data out.
-/

namespace Mintter.Hyper

open Mintter.Foundation
open Mintter.Crdt2

variable {Data : Type}

/-! ## Related items -/

/-- What a recursive query selects. -/
inductive Item where
  | resource (iri : String)
  | blob (hash : String)
deriving DecidableEq

/-- The rules by which the items that are related to a resource are collected. -/
structure ClosedUnderLinks (s : Store Data) (group : String) (items : Set Item) :
    Prop where
  start : .resource group ∈ items
  structuralBlob : ∀ iri, .resource iri ∈ items → ∀ row ∈ s.structuralBlobs,
    row.resource = some iri → .blob row.blob ∈ items
  blobLink : ∀ link ∈ s.blobLinks, .blob link.source ∈ items → .blob link.target ∈ items
  resourceLink : ∀ link ∈ s.resourceLinks, link.isPinned = false →
    .blob link.source ∈ items → .resource link.target ∈ items

section Queries

variable (F : Formats Data) (s : Store Data)

/-- The steps of the recursive query. -/
def linkSteps : List (Item × Item) :=
  s.blobLinks.map (fun link => (.blob link.source, .blob link.target)) ++
    ((s.resourceLinks.filter (!·.isPinned)).map fun link =>
      (.blob link.source, .resource link.target)) ++
    s.structuralBlobs.filterMap fun row =>
      row.resource.map fun iri => (.resource iri, .blob row.blob)

/-- What is reached from a group. -/
def selected (group : String) : List Item := closure (linkSteps s) [.resource group]

/-- The blobs that are reached from a group, by their numbers. -/
def qCollectBlobs (group : String) : List (BlobRow Data) :=
  orderBy false (·.id)
    (s.blobs.filter fun row => (selected s group).contains (.blob row.multihash))

/-- The CIDs of the blobs that are related to a group. -/
def forEachRelatedBlob (group : String) : Attempt (List String) :=
  match s.resourceRow group with
  | none => throw s!"group {group} not found"
  | some _ => pure ((qCollectBlobs s group).map fun row =>
      F.newCidV1 row.codec row.multihash)

/--
The blobs that syncing a group asks its site to publish, where `onSite` are those
that the site has listed.
-/
def pushToSite (group : String) (mayPublish : Bool) (onSite : List String) :
    Attempt (List String) :=
  if mayPublish then do
    let cids ← forEachRelatedBlob F s group
    pure (cids.filter (· ∉ onSite))
  else pure []

/-- The blobs that `PushPublication` asks the gateway to publish. -/
def pushPublication (order : RowOrder) (wall : Nat → Int) (documentID url : String)
    (gwClient : Bool) : Attempt (List String) := do
  Attempt.check (documentID = "") "must specify publication ID"
  Attempt.check (url = "") "must specify an url"
  Attempt.check (gwClient = false) "there is no gwClient definition"
  match ← loadEntity F order s wall documentID with
  | none => throw s!"no published changes for entity {documentID}"
  | some entity =>
      match s.resourceRow entity.id with
      | none => throw s!"document {entity.id} not found"
      | some _ => pure ((qCollectBlobs s entity.id).map fun row =>
          F.newCidV1 row.codec row.multihash)

end Queries

section Related

variable {F : Formats Data} {s t : Store Data} {group : String} {items : Set Item}

theorem mem_linkSteps {a b : Item} :
    (a, b) ∈ linkSteps s ↔
      (∃ link ∈ s.blobLinks, a = .blob link.source ∧ b = .blob link.target) ∨
        (∃ link ∈ s.resourceLinks, link.isPinned = false ∧ a = .blob link.source ∧
          b = .resource link.target) ∨
        ∃ row ∈ s.structuralBlobs, ∃ iri, row.resource = some iri ∧
          a = .resource iri ∧ b = .blob row.blob := by
  simp only [linkSteps, List.mem_append, List.mem_map, List.mem_filter,
    List.mem_filterMap, Prod.mk.injEq, Option.map_eq_some_iff, Bool.not_eq_true',
    or_assoc]
  constructor
  · rintro (⟨link, isLink, rfl, rfl⟩ | ⟨link, ⟨isLink, unpinned⟩, rfl, rfl⟩ |
      ⟨row, isRow, iri, isResource, rfl, rfl⟩)
    · exact .inl ⟨link, isLink, rfl, rfl⟩
    · exact .inr (.inl ⟨link, isLink, unpinned, rfl, rfl⟩)
    · exact .inr (.inr ⟨row, isRow, iri, isResource, rfl, rfl⟩)
  · rintro (⟨link, isLink, rfl, rfl⟩ | ⟨link, isLink, unpinned, rfl, rfl⟩ |
      ⟨row, isRow, iri, isResource, rfl, rfl⟩)
    · exact .inl ⟨link, isLink, rfl, rfl⟩
    · exact .inr (.inl ⟨link, ⟨isLink, unpinned⟩, rfl, rfl⟩)
    · exact .inr (.inr ⟨row, isRow, iri, isResource, rfl, rfl⟩)

/-- A step from an item of a closed set stays in the set. -/
theorem ClosedUnderLinks.step (closed : ClosedUnderLinks s group items) {a b : Item}
    (isStep : (a, b) ∈ linkSteps s) (member : a ∈ items) : b ∈ items := by
  rcases mem_linkSteps.mp isStep with ⟨link, isLink, rfl, rfl⟩ |
    ⟨link, isLink, unpinned, rfl, rfl⟩ | ⟨row, isRow, iri, isResource, rfl, rfl⟩
  · exact closed.blobLink link isLink member
  · exact closed.resourceLink link isLink unpinned member
  · exact closed.structuralBlob iri member row isRow isResource

theorem closed_selected (s : Store Data) (group : String) :
    ClosedUnderLinks s group {item | item ∈ selected s group} where
  start := subset_closure (List.mem_singleton_self _)
  structuralBlob := fun iri member row isRow isResource =>
    closed_closure _ member _
      (mem_linkSteps.mpr (.inr (.inr ⟨row, isRow, iri, isResource, rfl, rfl⟩)))
  blobLink := fun link isLink member =>
    closed_closure _ member _ (mem_linkSteps.mpr (.inl ⟨link, isLink, rfl, rfl⟩))
  resourceLink := fun link isLink unpinned member =>
    closed_closure _ member _
      (mem_linkSteps.mpr (.inr (.inl ⟨link, isLink, unpinned, rfl, rfl⟩)))

/-- The recursive query selects the least set that its rules allow. -/
theorem isLeast_selected (s : Store Data) (group : String) :
    IsLeast {items | ClosedUnderLinks s group items}
      {item | item ∈ selected s group} := by
  constructor
  · exact closed_selected s group
  · intro items closed item member
    rcases mem_closure_iff.mp member with ⟨first, isFirst, path⟩
    rcases List.mem_singleton.mp isFirst with rfl
    induction path with
    | refl => exact closed.start
    | tail before isStep induction =>
        exact ClosedUnderLinks.step closed isStep (induction (mem_closure_iff.mpr ⟨_, isFirst, before⟩))

theorem mem_qCollectBlobs {row : BlobRow Data} :
    row ∈ qCollectBlobs s group ↔
      row ∈ s.blobs ∧ Item.blob row.multihash ∈ selected s group := by
  rw [qCollectBlobs, mem_orderBy, List.mem_filter, List.contains_iff_mem]

end Related

/-! ## What is kept back -/

/-- The blob is a draft or has no data. -/
def Withheld (s : Store Data) (hash : String) : Prop :=
  ∃ row ∈ s.blobs, row.multihash = hash ∧ isVisible s row = false

/-- No blob that is withheld is sent, and all others that are related are collected. -/
structure DraftsStay (F : Formats Data) (T : TokenFormat Int) (s : Store Data)
    (group : String) (related : Set Item) : Prop where
  listed : ∀ cursor blobs, listBlobs F T s cursor = .ok blobs →
    ∀ blob ∈ blobs, ¬ Withheld s (F.cidHash blob.cid)
  pushed : ∀ mayPublish onSite cids,
    (pushToSite F s group mayPublish onSite).Returns cids →
    ∀ c ∈ cids, ¬ Withheld s (F.cidHash c)
  published : ∀ order wall url gwClient cids,
    (pushPublication F s order wall group url gwClient).Returns cids →
    ∀ c ∈ cids, ¬ Withheld s (F.cidHash c)
  collected : ∀ row ∈ s.blobs, ¬ Withheld s row.multihash →
    (row ∈ qCollectBlobs s group ↔ .blob row.multihash ∈ related)

section Outgoing

variable {F : Formats Data} {T : TokenFormat Int} {s t : Store Data} {group : String}

/-- One row for each multihash. -/
def UniqueHashes (s : Store Data) : Prop :=
  s.blobs.Pairwise fun row row' => row.multihash ≠ row'.multihash

theorem UniqueHashes.eq (unique : UniqueHashes s) {row row' : BlobRow Data}
    (isRow : row ∈ s.blobs) (isRow' : row' ∈ s.blobs)
    (same : row.multihash = row'.multihash) : row = row' := by
  by_contra other
  have symmetric : Std.Symm fun row row' : BlobRow Data =>
      row.multihash ≠ row'.multihash := ⟨fun _ _ different => Ne.symm different⟩
  exact unique.forall isRow isRow' other same

theorem UniqueHashes.insert (unique : UniqueHashes s) {hash : String}
    (absent : s.blobRow hash = none) {row : BlobRow Data} (isHash : row.multihash = hash)
    (blobs : t.blobs = s.blobs ++ [row]) : UniqueHashes t := by
  rw [UniqueHashes, blobs, List.pairwise_append]
  refine ⟨unique, List.pairwise_singleton .., ?_⟩
  intro old isOld new isNew
  rw [List.mem_singleton.mp isNew, isHash]
  exact multihash_ne_of_absent absent old isOld

theorem UniqueHashes.renumber (unique : UniqueHashes s) {hash : String}
    {change : BlobRow Data → BlobRow Data}
    (keeps : ∀ row, (change row).multihash = row.multihash) :
    UniqueHashes (s.renumber hash change) := by
  rw [UniqueHashes, Store.renumber, List.pairwise_append]
  constructor
  · exact unique.sublist List.filter_sublist
  · constructor
    · rw [List.pairwise_map]
      apply (unique.sublist List.filter_sublist).imp
      intro row row' different
      rw [keeps, keeps]
      exact different
    · intro row isRow row' isRow'
      rcases List.mem_map.mp isRow' with ⟨old, isOld, rfl⟩
      have isHash := of_decide_eq_true (List.mem_filter.mp isOld).2
      rw [keeps, isHash]
      exact of_decide_eq_true (List.mem_filter.mp isRow).2

theorem UniqueHashes.saveBlobLink (unique : UniqueHashes s) (F : Formats Data)
    (hash : String) (link : String × String) :
    UniqueHashes (Store.saveBlobLink F hash s link) := by
  have ensured : UniqueHashes (s.ensureBlob F link.2) := by
    rw [Store.ensureBlob]
    split
    · exact unique
    · next absent => exact unique.insert absent rfl rfl
  rw [Store.saveBlobLink, Store.blobLinksInsertOrIgnore]
  split <;> exact ensured

theorem uniqueHashes_kept (F : Formats Data) :
    KeptByOperations F (fun _ => True) fun s : Store Data => UniqueHashes s where
  putBlock := by
    intro s t inID codec hash data found returns unique
    rcases putBlock_cases returns with rfl | rfl | ⟨absent, rfl | rfl⟩
    · exact unique
    · exact unique.renumber fun _ => rfl
    · exact unique.insert absent rfl rfl
    · exact unique.insert absent rfl rfl
  indexBlob := by
    intro s t order c blob returns unique
    apply kept_of_indexBlob UniqueHashes _ _ returns unique
    · intro s t blobs _ _ unique
      rwa [UniqueHashes, blobs]
    · exact fun _ hash link unique => unique.saveBlobLink F hash link
  deleteBlobs := by
    intro s t chosen returns unique
    rw [Store.deleteBlobs] at returns
    split at returns
    · exact absurd returns Attempt.not_returns_throw
    · rcases Attempt.returns_pure.mp returns with rfl
      exact unique.sublist List.filter_sublist
  emptyBlobs := by
    intro s chosen unique
    rw [UniqueHashes, Store.emptyBlobs, List.pairwise_map]
    apply unique.imp
    intro row row' different
    split <;> split <;> exact different
  touch := fun s hash unique => unique.renumber fun _ => rfl
  others := fun s t blobs _ _ _ unique => by rwa [UniqueHashes, blobs]
  insertRemoved := by
    intro s t eid returns unique
    rw [Store.entitiesInsertRemovedRecord] at returns
    split at returns
    · exact absurd returns Attempt.not_returns_throw
    · exact Attempt.returns_pure.mp returns ▸ unique
  deleteRemoved := fun _ _ _ unique => unique

theorem uniqueHashes_of_reaches (run : Reaches (call F) (fun _ _ => True) .empty s) :
    UniqueHashes s := by
  apply run.invariant _ List.Pairwise.nil
  intro before storeCall after unique _ called
  apply (uniqueHashes_kept F).call _ called unique
  cases storeCall <;> exact trivial

theorem id_of_loadRow {wall : Nat → Int} {n : Nat} {e e' : Entity} {row : BlobRow Data}
    (returns : (loadRow F wall n e row).Returns e') : e'.id = e.id := by
  rw [loadRow] at returns
  split at returns
  · exact absurd returns Attempt.not_returns_throw
  · rcases Attempt.returns_bind.mp returns with ⟨ch, -, stored⟩
    rw [Attempt.Returns, Entity.applyStored, ExceptT.run_mk] at stored
    rcases bind_eq_ok.mp stored with ⟨⟨applied, result⟩, isApplied, isResult⟩
    cases result with
    | error err => cases isResult
    | ok =>
        cases isResult
        exact (Entity.applied_of_applyChange_eq_ok isApplied).id_eq

theorem id_of_loadRows {wall : Nat → Int} {n : Nat} {e e' : Entity}
    {rows : List (BlobRow Data)} (returns : (loadRows F wall n e rows).Returns e') :
    e'.id = e.id := by
  induction rows generalizing n e with
  | nil => exact congrArg Entity.id (Attempt.returns_pure.mp returns).symm
  | cons row rest induction =>
      rcases Attempt.returns_bind.mp returns with ⟨e₁, loaded, returns⟩
      exact (induction returns).trans (id_of_loadRow loaded)

theorem id_of_loadEntity {order : RowOrder} {wall : Nat → Int} {eid : String}
    {entity : Entity} (returns : (loadEntity F order s wall eid).Returns (some entity)) :
    entity.id = eid := by
  rw [loadEntity] at returns
  split at returns
  · exact absurd returns Attempt.not_returns_throw
  · rcases Attempt.returns_bind.mp returns with ⟨e, loaded, returns⟩
    split at returns
    · cases Attempt.returns_pure.mp returns
    · cases Attempt.returns_pure.mp returns
      exact id_of_loadRows loaded

theorem returns_forEachRelatedBlob {cids : List String} :
    (forEachRelatedBlob F s group).Returns cids ↔
      (s.resourceRow group).isSome ∧
        cids = (qCollectBlobs s group).map fun row => F.newCidV1 row.codec row.multihash := by
  rw [forEachRelatedBlob]
  cases s.resourceRow group with
  | none => simp
  | some row => simp [eq_comm]

/-- A blob that the list names is no draft and has data. -/
theorem not_withheld_of_listBlobs (unique : UniqueHashes s) {cursor : String}
    {blobs : List ListedBlob} (listed : listBlobs F T s cursor = .ok blobs)
    {blob : ListedBlob} (member : blob ∈ blobs) : ¬ Withheld s (F.cidHash blob.cid) := by
  rw [listBlobs] at listed
  rcases except_bind_eq_ok.mp listed with ⟨c, -, listed⟩
  split at listed
  · rcases Except.ok.inj listed with rfl
    cases member
  · rcases Except.ok.inj listed with rfl
    rcases List.mem_map.mp member with ⟨row, isRow, rfl⟩
    rcases mem_qListBlobs.mp isRow with ⟨inTable, visible, -⟩
    rintro ⟨row', isRow', isHash, hidden⟩
    rw [F.cidHash_newCidV1] at isHash
    rw [unique.eq isRow' inTable isHash, visible] at hidden
    cases hidden

theorem not_withheld_of_related {related : Set Item}
    (least : IsLeast {items | ClosedUnderLinks s group items} related)
    (isPublic : ∀ hash, .blob hash ∈ related → ¬ Withheld s hash) {c : String}
    (isCid : c ∈ (qCollectBlobs s group).map fun row => F.newCidV1 row.codec row.multihash) :
    ¬ Withheld s (F.cidHash c) := by
  rcases List.mem_map.mp isCid with ⟨row, isRow, rfl⟩
  rw [F.cidHash_newCidV1]
  apply isPublic
  rw [least.unique (isLeast_selected s group)]
  exact (mem_qCollectBlobs.mp isRow).2

/--
Drafts and blobs without data stay, and everything else that is related is collected,
if and only if no blob that is related to the resource is a draft or lacks data.
-/
theorem drafts_stay_iff (run : Reaches (call F) (fun _ _ => True) .empty s)
    {resource : ResourceRow} (isResource : resource ∈ s.resources) {related : Set Item}
    (least : IsLeast {items | ClosedUnderLinks s resource.iri items} related) :
    DraftsStay F T s resource.iri related ↔
      ∀ hash, .blob hash ∈ related → ¬ Withheld s hash := by
  have isSelected : related = {item | item ∈ selected s resource.iri} :=
    least.unique (isLeast_selected s resource.iri)
  constructor
  · -- A blob that is related and withheld would be pushed to a site that lists nothing.
    rintro stay hash isRelated ⟨row, isRow, rfl, hidden⟩
    have there : (s.resourceRow resource.iri).isSome :=
      List.find?_isSome.mpr ⟨resource, isResource, beq_self_eq_true _⟩
    have collected : row ∈ qCollectBlobs s resource.iri :=
      mem_qCollectBlobs.mpr ⟨isRow, by rwa [isSelected] at isRelated⟩
    have pushes : (pushToSite F s resource.iri true []).Returns
        ((qCollectBlobs s resource.iri).map fun row =>
          F.newCidV1 row.codec row.multihash) := by
      rw [pushToSite, if_pos rfl, Attempt.returns_bind]
      refine ⟨_, returns_forEachRelatedBlob.mpr ⟨there, rfl⟩, ?_⟩
      simp
    apply stay.pushed true [] _ pushes _ (List.mem_map_of_mem collected)
    rw [F.cidHash_newCidV1]
    exact ⟨row, isRow, rfl, hidden⟩
  · intro isPublic
    constructor
    · exact fun cursor blobs listed blob member =>
        not_withheld_of_listBlobs (uniqueHashes_of_reaches run) listed member
    · intro mayPublish onSite cids returns c member
      rw [pushToSite] at returns
      split at returns
      · rcases Attempt.returns_bind.mp returns with ⟨all, collects, returns⟩
        rcases Attempt.returns_pure.mp returns with rfl
        rcases (returns_forEachRelatedBlob.mp collects).2 with rfl
        exact not_withheld_of_related least isPublic (List.mem_filter.mp member).1
      · rcases Attempt.returns_pure.mp returns with rfl
        cases member
    · intro order wall url gwClient cids returns c member
      simp only [pushPublication, Attempt.returns_bind] at returns
      rcases returns with ⟨-, -, -, -, -, -, loaded, isLoaded, returns⟩
      cases loaded with
      | none => exact absurd returns Attempt.not_returns_throw
      | some entity =>
          dsimp only at returns
          rw [id_of_loadEntity isLoaded] at returns
          split at returns
          · exact absurd returns Attempt.not_returns_throw
          · rcases Attempt.returns_pure.mp returns with rfl
            exact not_withheld_of_related least isPublic member
    · intro row isRow _
      rw [mem_qCollectBlobs, isSelected]
      exact and_iff_right isRow

end Outgoing

/-! ## A published document with a draft -/

section Samples

/-- The id of a document. -/
def sampleDocument : String := "hm://d/ThnwfhnyChYhvWiv7CLe2B"

/-- A document is created. -/
def publicCalls : List (StoreCall DecodedBlob) :=
  [.put ⟨.listed, "cdelegation1", .keyDelegation (sampleDelegation 1 11)⟩,
    .put ⟨.listed, "ccreate", .change { sampleCreate with entity := sampleDocument }⟩]

def publicCallsResult : Evaluated (performAll (call (sampleFormats sampleSha256)) .empty
    publicCalls) :=
  .of (by decide +kernel)

theorem publicCalls_succeed : (performAll (call (sampleFormats sampleSha256)) .empty
    publicCalls).isSome = true :=
  publicCallsResult.isSome

/-- The document is published. -/
def publicStore : Store DecodedBlob :=
  (performAll (call (sampleFormats sampleSha256)) .empty publicCalls).get
    publicCalls_succeed

/-- A change of the document. -/
def draftChange : Change where
  deps := ["ccreate"]
  delegation := "cdelegation1"
  action := "Update"
  hlcTime := 1700000002000000
  entity := sampleDocument
  patch := [("title", .string "Draft")]
  signer := samplePrincipal 11
  sig := "signature"

/-- The change is saved as a draft. -/
def draftCalls : List (StoreCall DecodedBlob) :=
  [.saveDraftBlob .listed sampleDocument "cdraft" (.change draftChange)
    (.change draftChange)]

def draftCallsResult : Evaluated (performAll (call (sampleFormats sampleSha256)) publicStore
    draftCalls) :=
  .of (by decide +kernel)

theorem draftCalls_succeed : (performAll (call (sampleFormats sampleSha256)) publicStore
    draftCalls).isSome = true :=
  draftCallsResult.isSome

/-- The owner of the document starts to edit it. -/
def draftStore : Store DecodedBlob :=
  (performAll (call (sampleFormats sampleSha256)) publicStore draftCalls).get
    draftCalls_succeed

theorem draft_is_pushed : (pushPublication (sampleFormats sampleSha256) draftStore
    RowOrder.stable (fun _ => 1700000003000000) sampleDocument "https://site" true).Returns
      ["cdelegation1", "ccreate", "cdraft"] := by decide +kernel

theorem reaches_publicStore : Reaches (call (sampleFormats sampleSha256))
    (fun _ _ => True) .empty publicStore :=
  reaches_get publicCalls publicCalls_succeed

theorem reaches_draftStore : Reaches (call (sampleFormats sampleSha256))
    (fun _ _ => True) .empty draftStore :=
  reaches_publicStore.trans (reaches_get draftCalls draftCalls_succeed)

theorem publicStore_has_document :
    (publicStore.resources.any (·.iri == sampleDocument)) = true := by decide +kernel

theorem draftStore_has_document :
    (draftStore.resources.any (·.iri == sampleDocument)) = true := by decide +kernel

theorem draft_is_withheld : (draftStore.blobs.any fun row =>
    row.multihash == "draft" && !isVisible draftStore row) = true := by decide +kernel

theorem publicStore_is_visible :
    publicStore.blobs.all (isVisible publicStore) = true := by decide +kernel

/-- Without a draft everything that is related is sent, and nothing is withheld. -/
theorem drafts_stay_iff_publicStore :
    DraftsStay (sampleFormats sampleSha256) (TokenFormat.counted Int) publicStore
      sampleDocument {item | item ∈ selected publicStore sampleDocument} := by
  rcases List.any_eq_true.mp publicStore_has_document with ⟨resource, isResource, isIRI⟩
  rw [← beq_iff_eq.mp isIRI]
  apply (drafts_stay_iff reaches_publicStore isResource (isLeast_selected _ _)).mpr
  rintro hash - ⟨row, isRow, -, hidden⟩
  rw [List.all_eq_true.mp publicStore_is_visible row isRow] at hidden
  cases hidden

theorem drafts_leave :
    ¬ ∀ s : Store DecodedBlob,
      Reaches (call (sampleFormats sampleSha256)) (fun _ _ => True) .empty s →
      ∀ resource ∈ s.resources, ∀ related,
        IsLeast {items | ClosedUnderLinks s resource.iri items} related →
        DraftsStay (sampleFormats sampleSha256) (TokenFormat.counted Int) s
          resource.iri related := by
  intro claimed
  rcases List.any_eq_true.mp draftStore_has_document with ⟨resource, isResource, isIRI⟩
  rcases List.any_eq_true.mp draft_is_withheld with ⟨row, isRow, isDraft⟩
  rw [Bool.and_eq_true, Bool.not_eq_true', beq_iff_eq] at isDraft
  have stay := claimed draftStore reaches_draftStore resource isResource _
    (isLeast_selected _ _)
  rw [beq_iff_eq.mp isIRI] at stay
  apply stay.published _ _ _ _ _ draft_is_pushed "cdraft" (by decide)
  exact ⟨row, isRow, isDraft.1.trans (by decide +kernel), isDraft.2⟩

end Samples

end Mintter.Hyper
