import Mintter.Foundation.Feed
import Mintter.Foundation.Pages
import Mintter.Hyper.Accepted
import Mintter.Hyper.Lifecycle
import Mintter.Hyper.SampleFormats

/-!
# Cursors that a server hands out

`ListBlobs` shows the blobs that have data and are no drafts, each with its number
as a cursor.  A client that resumes from a cursor is shown the blobs with a greater
number, so a blob that becomes visible needs a number greater than those handed out
before.  Every call of the store has this property, also the one that gives the
number of an old draft to a new one: the new row stays hidden.
-/

namespace Mintter.Hyper

open Mintter.Foundation
open Mintter.Crdt2

variable {Data : Type}

/-! ## Listing blobs -/

section Listing

variable (F : Formats Data) (T : TokenFormat Int) (s : Store Data)

/-- A blob as it is listed, with its cursor. -/
structure ListedBlob where
  cid : String
  cursor : String
deriving DecidableEq

/-- The greatest number of a blob. -/
def getMaxBlobID : Nat := (s.blobs.map (·.id)).max?.getD 0

/-- The blob has data and is no draft. -/
def isVisible (row : BlobRow Data) : Bool :=
  0 ≤ row.size && !s.drafts.any (·.blob == row.multihash)

/-- The visible blobs behind a cursor, by their numbers. -/
def qListBlobs (cursor : Int) : List (BlobRow Data) :=
  orderBy false (·.id)
    (s.blobs.filter fun row => isVisible s row && decide (cursor < row.id))

/-- The number in a cursor; without one the listing starts at zero. -/
def decodeCursor (cursor : String) : Except String Int :=
  if cursor = "" then .ok 0
  else (T.decode cursor).mapError (s!"failed to decode cursor {cursor}: {·}")

/-- The blobs behind a cursor; a cursor that is ahead of the store starts anew. -/
def listBlobs (cursor : String) : Except String (List ListedBlob) := do
  let c ← decodeCursor T cursor
  if c = getMaxBlobID s then .ok []
  else .ok ((qListBlobs s (if getMaxBlobID s < c then 0 else c)).map fun row =>
    ⟨F.newCidV1 row.codec row.multihash, T.encode row.id⟩)

end Listing

/-! ## Calls of the store -/

/-- A transaction of the store. -/
inductive StoreCall (Data : Type) where
  | put (arrival : Arrival Data)
  | putMany (arrivals : List (Arrival Data))
  | saveDraftBlob (order : FieldOrder) (eid c : String) (data : Data)
      (blob : DecodedBlob)
  | replaceDraftBlob (order : FieldOrder) (eid old c : String) (data : Data)
      (blob : DecodedBlob)
  | publishDraft (eid : String)
  | publishBlob (c : String)
  | deleteDraft (eid : String)
  | deleteBlock (c : String)
  | deleteComments (eid : String)
  | deleteEntityChanges (eid : String)
  | blobsEmptyByEID (eid : String)
  | blobsStructuralDelete (eid : String)
  | entitiesInsertRemovedRecord (eid : String)
  | entitiesDeleteRemovedRecord (eid : String)

section Calls

variable (F : Formats Data)

/-- Perform a call on the store. -/
def performCall (s : Store Data) : StoreCall Data → Attempt (Store Data)
  | .put arrival => put F arrival.order s arrival.c arrival.data
  | .putMany arrivals => arrivals.foldlM
      (fun s arrival => put F arrival.order s arrival.c arrival.data) s
  | .saveDraftBlob order eid c data blob => saveDraftBlob F order s eid c data blob
  | .replaceDraftBlob order eid old c data blob =>
      replaceDraftBlob F order s eid old c data blob
  | .publishDraft eid => publishDraft s eid
  | .publishBlob c => publishBlob F s c
  | .deleteDraft eid => deleteDraft s eid
  | .deleteBlock c => s.blobsDelete (F.cidHash c)
  | .deleteComments eid => deleteComments F s eid
  | .deleteEntityChanges eid => deleteEntityChanges s eid
  | .blobsEmptyByEID eid => pure (s.blobsEmptyByEID eid)
  | .blobsStructuralDelete eid => pure (s.blobsStructuralDelete eid)
  | .entitiesInsertRemovedRecord eid => s.entitiesInsertRemovedRecord eid
  | .entitiesDeleteRemovedRecord eid => pure (s.entitiesDeleteRemovedRecord eid)

/-- The store after a call that succeeds. -/
def call (s : Store Data) (storeCall : StoreCall Data) : Option (Store Data) :=
  (performCall F s storeCall).returned

end Calls

/-! ## Every call advances -/

section Advances

variable {F : Formats Data} {s t : Store Data} {hash : String}

/-- The visible blobs under their numbers. -/
def blobFeed : Feed (Store Data) String where
  last s := s.seq
  Shows s hash number := ∃ row ∈ s.blobs,
    row.multihash = hash ∧ row.id = number ∧ isVisible s row = true

/-- No blob has a greater number than the last one. -/
def Numbered (s : Store Data) : Prop := ∀ row ∈ s.blobs, row.id ≤ s.seq

/-- The call keeps the numbers below the last one and shows blobs under new ones. -/
structure Progress (hidden : String → Prop) (s t : Store Data) : Prop where
  advances : blobFeed.AdvancesExcept hidden s t
  numbered : Numbered s → Numbered t

namespace Progress

variable {hidden : String → Prop} {u : Store Data}

theorem refl (s : Store Data) : Progress hidden s s := ⟨.refl s, id⟩

theorem trans (first : Progress hidden s t) (second : Progress hidden t u) :
    Progress hidden s u :=
  ⟨first.advances.trans second.advances, second.numbered ∘ first.numbered⟩

theorem except (progress : Progress (fun _ => False) s t) : Progress hidden s t :=
  ⟨Feed.Advances.except progress.advances hidden, progress.numbered⟩

/-- A draft hides its blob. -/
theorem of_draft (progress : Progress (· = hash) s t)
    (isDraft : t.drafts.any (·.blob == hash) = true) :
    Progress (fun _ => False) s t := by
  refine ⟨progress.advances.advances ?_, progress.numbered⟩
  rintro _ number rfl ⟨row, -, rfl, -, visible⟩
  rw [isVisible, isDraft] at visible
  simp at visible

/-- Rows that stay, and drafts that hide as many of them. -/
theorem of_subset (rows : ∀ row ∈ t.blobs, row ∈ s.blobs) (seq : t.seq = s.seq)
    (drafts : ∀ row ∈ t.blobs, ¬ hidden row.multihash →
      s.drafts.any (·.blob == row.multihash) = true →
      t.drafts.any (·.blob == row.multihash) = true) :
    Progress hidden s t := by
  constructor
  · constructor
    · exact seq.ge
    · rintro _ _ notHidden ⟨row, isRow, rfl, rfl, visible⟩
      refine .inl ⟨row, rows row isRow, rfl, rfl, ?_⟩
      rw [isVisible, Bool.and_eq_true] at visible ⊢
      refine ⟨visible.1, ?_⟩
      cases isDraft : s.drafts.any (·.blob == row.multihash) with
      | false => rfl
      | true =>
          rw [drafts row isRow notHidden isDraft] at visible
          exact absurd visible.2 Bool.false_ne_true
  · intro numbered row isRow
    rw [seq]
    exact numbered row (rows row isRow)

/-- Indexing adds blobs without data. -/
theorem of_grows (grows : Grows s t) : Progress hidden s t := by
  rcases grows.blobs with ⟨added, blobs_eq, isAdded⟩
  have old : ∀ row ∈ t.blobs, row ∈ s.blobs ∨ row ∈ added := by
    intro row isRow
    rw [blobs_eq] at isRow
    exact List.mem_append.mp isRow
  constructor
  · constructor
    · exact grows.seq
    · rintro _ _ - ⟨row, isRow, rfl, rfl, visible⟩
      rcases old row isRow with isRow | isNew
      · rw [isVisible, grows.drafts] at visible
        exact .inl ⟨row, isRow, rfl, rfl, visible⟩
      · exact .inr (isAdded row isNew).2.1
  · intro numbered row isRow
    rcases old row isRow with isRow | isNew
    · exact (numbered row isRow).trans grows.seq
    · exact (isAdded row isNew).2.2

/-- A blob that changes gets a new number. -/
theorem renumber {change : BlobRow Data → BlobRow Data} :
    Progress hidden s (s.renumber hash change) := by
  have cases : ∀ row ∈ (s.renumber hash change).blobs,
      row ∈ s.blobs ∨ row.id = s.seq + 1 := by
    intro row isRow
    rw [Store.renumber, List.mem_append] at isRow
    rcases isRow with isRow | isRow
    · exact .inl (List.mem_filter.mp isRow).1
    · rcases List.mem_map.mp isRow with ⟨_, -, rfl⟩
      exact .inr rfl
  constructor
  · constructor
    · exact Nat.le_succ s.seq
    · rintro _ _ - ⟨row, isRow, rfl, rfl, visible⟩
      rcases cases row isRow with old | isNew
      · exact .inl ⟨row, old, rfl, rfl, visible⟩
      · exact .inr (isNew ▸ Nat.lt_succ_self s.seq)
  · intro numbered row isRow
    rcases cases row isRow with old | isNew
    · exact (numbered row old).trans (Nat.le_succ s.seq)
    · exact isNew.le

/-- A new blob gets a new number, or is excepted. -/
theorem blobsInsert (codec : Nat) (data : Option Data) (size : Int) :
    Progress hidden s (s.blobsInsert hash codec data size) := by
  constructor
  · constructor
    · exact Nat.le_succ s.seq
    · rintro _ _ - ⟨row, isRow, rfl, rfl, visible⟩
      rcases List.mem_append.mp isRow with old | isNew
      · exact .inl ⟨row, old, rfl, rfl, visible⟩
      · rcases List.mem_singleton.mp isNew with rfl
        exact .inr (Nat.lt_succ_self s.seq)
  · intro numbered row isRow
    rcases List.mem_append.mp isRow with old | isNew
    · exact (numbered row old).trans (Nat.le_succ s.seq)
    · rcases List.mem_singleton.mp isNew with rfl
      exact le_rfl

theorem blobsInsertAs (id codec : Nat) (data : Option Data) (size : Int) :
    Progress (· = hash) s (s.blobsInsertAs id hash codec data size) := by
  constructor
  · constructor
    · exact le_max_left s.seq id
    · rintro _ _ other ⟨row, isRow, rfl, rfl, visible⟩
      rcases List.mem_append.mp isRow with old | isNew
      · exact .inl ⟨row, old, rfl, rfl, visible⟩
      · rcases List.mem_singleton.mp isNew with rfl
        exact absurd rfl other
  · intro numbered row isRow
    rcases List.mem_append.mp isRow with old | isNew
    · exact (numbered row old).trans (le_max_left s.seq id)
    · rcases List.mem_singleton.mp isNew with rfl
      exact le_max_right s.seq id

/-- Putting a block under a given number only excepts this block. -/
theorem putBlockAs {found : Bool} {inID codec : Nat} {data : Data}
    (returns : (s.putBlock F inID codec hash data).Returns (found, t)) :
    Progress (· = hash) s t := by
  rw [Store.putBlock] at returns
  split at returns
  · split at returns
    · cases Attempt.returns_pure.mp returns
      exact .refl s
    · split at returns
      · exact absurd returns Attempt.not_returns_throw
      · cases Attempt.returns_pure.mp returns
        exact .renumber
  · split at returns
    · cases Attempt.returns_pure.mp returns
      exact .blobsInsert ..
    · cases Attempt.returns_pure.mp returns
      exact .blobsInsertAs ..

/-- A block that was there changes nothing. -/
theorem eq_of_found {inID codec : Nat} {data : Data}
    (returns : (s.putBlock F inID codec hash data).Returns (true, t)) : t = s := by
  rw [Store.putBlock] at returns
  split at returns
  · split at returns
    · cases Attempt.returns_pure.mp returns
      rfl
    · split at returns
      · exact absurd returns Attempt.not_returns_throw
      · cases Attempt.returns_pure.mp returns
  · split at returns
    · cases Attempt.returns_pure.mp returns
    · cases Attempt.returns_pure.mp returns

theorem putBlock {found : Bool} {codec : Nat} {data : Data}
    (returns : (s.putBlock F 0 codec hash data).Returns (found, t)) :
    Progress hidden s t := by
  rw [Store.putBlock] at returns
  split at returns
  · split at returns
    · cases Attempt.returns_pure.mp returns
      exact .refl s
    · split at returns
      · exact absurd returns Attempt.not_returns_throw
      · cases Attempt.returns_pure.mp returns
        exact .renumber
  · rw [if_pos rfl] at returns
    cases Attempt.returns_pure.mp returns
    exact .blobsInsert ..

theorem indexBlob {order : FieldOrder} {c : String} {blob : DecodedBlob}
    (returns : (indexBlob F order s c blob).Returns t) : Progress hidden s t :=
  .of_grows (grows_of_indexedBlob (indexedBlob_of_returns returns))

theorem put {order : FieldOrder} {c : String} {data : Data}
    (returns : (put F order s c data).Returns t) : Progress hidden s t := by
  rcases put_of_returns returns with ⟨found, s₁, isPut⟩
  refine (Progress.putBlock isPut.stored).trans ?_
  cases skips : found || !isIndexable (F.cidCodec c) with
  | true =>
      rw [isPut.skipped skips]
      exact .refl s₁
  | false =>
      rcases isPut.indexed skips with ⟨blob, -, indexed⟩
      exact .indexBlob indexed

/-- Rows of other blobs stay, with the drafts that hide them. -/
theorem deleteBlobs {chosen : String → Bool}
    (returns : (s.deleteBlobs chosen).Returns t) : Progress hidden s t := by
  rw [Store.deleteBlobs] at returns
  split at returns
  · exact absurd returns Attempt.not_returns_throw
  · rcases Attempt.returns_pure.mp returns with rfl
    apply of_subset
    · exact fun row isRow => (List.mem_filter.mp isRow).1
    · rfl
    · intro row isRow _ isDraft
      rcases List.any_eq_true.mp isDraft with ⟨draft, member, same⟩
      refine List.any_eq_true.mpr ⟨draft, List.mem_filter.mpr ⟨member, ?_⟩, same⟩
      rw [beq_iff_eq.mp same]
      exact (List.mem_filter.mp isRow).2

theorem entitiesDelete {iri : String} (returns : (s.entitiesDelete iri).Returns t) :
    Progress hidden s t := by
  rw [Store.entitiesDelete] at returns
  split at returns
  · exact absurd returns Attempt.not_returns_throw
  · rcases Attempt.returns_pure.mp returns with rfl
    exact of_subset (fun _ isRow => isRow) rfl fun _ _ _ isDraft => isDraft

/-- Blobs that lose their data are no longer visible. -/
theorem emptyBlobs (chosen : String → Bool) : Progress hidden s (s.emptyBlobs chosen) := by
  constructor
  · constructor
    · exact le_rfl
    · rintro _ _ - ⟨row, isRow, rfl, rfl, visible⟩
      rcases List.mem_map.mp isRow with ⟨old, isOld, rfl⟩
      split at visible
      · rw [isVisible] at visible
        simp at visible
      · next kept =>
          rw [if_neg kept]
          exact .inl ⟨old, isOld, rfl, rfl, visible⟩
  · intro numbered row isRow
    rcases List.mem_map.mp isRow with ⟨old, isOld, rfl⟩
    have inTable := numbered old isOld
    split <;> exact inTable

/-- A new draft hides a blob and shows none. -/
theorem draftsInsert {resource blob : String}
    (returns : (s.draftsInsert resource blob).Returns t) : Progress hidden s t := by
  rw [Store.draftsInsert] at returns
  split at returns
  · exact absurd returns Attempt.not_returns_throw
  · rcases Attempt.returns_pure.mp returns with rfl
    refine of_subset (fun _ isRow => isRow) rfl ?_
    intro row _ _ isDraft
    rw [List.any_append, isDraft]
    rfl

theorem draft_of_insertDraft {eid c : String} (hidden : String → Prop)
    (returns : (insertDraft F s eid c).Returns t) :
    Progress hidden s t ∧ t.drafts.any (·.blob == F.cidHash c) = true := by
  rw [insertDraft] at returns
  split at returns
  · exact absurd returns Attempt.not_returns_abort
  · constructor
    · exact .draftsInsert returns
    · rw [Store.draftsInsert] at returns
      split at returns
      · exact absurd returns Attempt.not_returns_throw
      · rcases Attempt.returns_pure.mp returns with rfl
        rw [List.any_append]
        simp

end Progress

/-! ## The calls -/

theorem progress_saveDraftBlob {order : FieldOrder} {eid c : String} {data : Data}
    {blob : DecodedBlob}
    (returns : (saveDraftBlob F order s eid c data blob).Returns t) :
    Progress (fun _ => False) s t := by
  rcases Attempt.returns_bind.mp returns with ⟨s₁, saved, inserted⟩
  rcases Attempt.returns_bind.mp saved with ⟨⟨found, s₂⟩, stored, indexed⟩
  refine (Progress.putBlock stored).trans (.trans ?_ (Progress.draft_of_insertDraft _ inserted).1)
  cases found with
  | true =>
      rcases Attempt.returns_pure.mp indexed with rfl
      exact .refl _
  | false => exact .indexBlob indexed

/-- The new draft has the number of the old one, but it is hidden. -/
theorem progress_replaceDraftBlob {order : FieldOrder} {eid old c : String}
    {data : Data} {blob : DecodedBlob}
    (returns : (replaceDraftBlob F order s eid old c data blob).Returns t) :
    Progress (fun _ => False) s t := by
  rcases Attempt.returns_bind.mp returns with ⟨⟨⟩, -, returns⟩
  rcases Attempt.returns_bind.mp returns with ⟨s₁, deleted, returns⟩
  rcases Attempt.returns_bind.mp returns with ⟨⟨found, s₂⟩, stored, returns⟩
  have without : Progress (fun _ => False) s s₁ := .deleteBlobs deleted
  cases found with
  | true =>
      rcases Attempt.returns_pure.mp returns with rfl
      exact Progress.eq_of_found stored ▸ without
  | false =>
      rcases Attempt.returns_bind.mp returns with ⟨s₃, indexed, inserted⟩
      rcases Progress.draft_of_insertDraft (· = F.cidHash c) inserted with
        ⟨inserts, isDraft⟩
      exact (((without.except.trans (Progress.putBlockAs stored)).trans
        (.indexBlob indexed)).trans inserts).of_draft isDraft

theorem Progress.blobsTouch (returns : (s.blobsTouch hash).Returns t) :
    Progress (fun _ => False) s t := by
  rw [Store.blobsTouch] at returns
  split at returns
  · exact absurd returns Attempt.not_returns_throw
  · rcases Attempt.returns_pure.mp returns with rfl
    exact .renumber

/-- Without its draft a blob may become visible. -/
theorem Progress.draftsDelete (s : Store Data) (hash : String) :
    Progress (· = hash) s (s.draftsDelete hash) := by
  refine .of_subset (fun _ isRow => isRow) rfl ?_
  intro row _ other isDraft
  rcases List.any_eq_true.mp isDraft with ⟨draft, member, same⟩
  refine List.any_eq_true.mpr ⟨draft, List.mem_filter.mpr ⟨member, ?_⟩, same⟩
  rw [decide_eq_true_iff, beq_iff_eq.mp same]
  exact other

/-- A published draft gets a new number when it becomes visible. -/
theorem progress_publishDraft {eid : String}
    (returns : (publishDraft s eid).Returns t) : Progress (fun _ => False) s t := by
  rw [publishDraft] at returns
  split at returns
  · exact absurd returns Attempt.not_returns_throw
  · next hash isDraft =>
      rcases Attempt.returns_bind.mp returns with ⟨⟨⟩, -, touched⟩
      rw [Store.blobsTouch] at touched
      split at touched
      · exact absurd touched Attempt.not_returns_throw
      · rcases Attempt.returns_pure.mp touched with rfl
        have progress : Progress (· = hash) s ((s.draftsDelete hash).touch hash) :=
          (Progress.draftsDelete s hash).trans .renumber
        refine ⟨progress.advances.advances ?_, progress.numbered⟩
        rintro _ _ rfl ⟨row, isRow, isHash, rfl, -⟩
        rcases List.mem_append.mp isRow with isRow | isRow
        · have differs := (List.mem_filter.mp isRow).2
          exact absurd isHash (of_decide_eq_true differs)
        · rcases List.mem_map.mp isRow with ⟨_, -, rfl⟩
          exact Nat.lt_succ_self s.seq

/-- The blob of a deleted draft is deleted. -/
theorem progress_deleteDraft {eid : String}
    (returns : (deleteDraft s eid).Returns t) : Progress (fun _ => False) s t := by
  rw [deleteDraft] at returns
  split at returns
  · exact absurd returns Attempt.not_returns_throw
  · next hash isDraft =>
      rcases Attempt.returns_bind.mp returns with ⟨s₁, deleted, returns⟩
      rcases Attempt.returns_pure.mp returns with rfl
      have progress : Progress (· = hash) s s₁ :=
        (Progress.draftsDelete s hash).trans (.deleteBlobs deleted)
      have progress₁ : Progress (fun _ => False) s s₁ := by
        refine ⟨progress.advances.advances ?_, progress.numbered⟩
        rintro _ _ rfl ⟨row, isRow, isHash, -, -⟩
        rw [Store.blobsDelete, Store.deleteBlobs] at deleted
        split at deleted
        · exact absurd deleted Attempt.not_returns_throw
        · rcases Attempt.returns_pure.mp deleted with rfl
          have kept := (List.mem_filter.mp isRow).2
          rw [isHash] at kept
          simp at kept
      refine progress₁.trans ?_
      cases removed : (s₁.entitiesDelete eid).returned with
      | none => exact .refl s₁
      | some t => exact .entitiesDelete (Attempt.returned_eq_some.mp removed)

theorem progress_publishBlob {c : String}
    (returns : (publishBlob F s c).Returns t) : Progress (fun _ => False) s t := by
  rcases Attempt.returns_bind.mp returns with ⟨⟨⟩, -, returns⟩
  split at returns
  · exact .blobsTouch returns
  · rcases Attempt.returns_pure.mp returns with rfl
    constructor
    · exact ⟨Nat.le_succ s.seq, fun _ _ _ shows => .inl shows⟩
    · exact fun numbered row isRow => (numbered row isRow).trans (Nat.le_succ s.seq)

theorem progress_deleteOrEmpty (s : Store Data) (hash : String) :
    Progress (fun _ => False) s (deleteOrEmpty s hash) := by
  rw [deleteOrEmpty]
  cases deleted : (s.blobsDelete hash).returned with
  | none => exact Progress.emptyBlobs (· == hash)
  | some t => exact .deleteBlobs (Attempt.returned_eq_some.mp deleted)

theorem progress_deleteComment {eid : String} {link : ResourceLinkRow}
    (returns : (deleteComment F eid s link).Returns t) :
    Progress (fun _ => False) s t := by
  rw [deleteComment] at returns
  split at returns
  · exact Attempt.returns_pure.mp returns ▸ .refl s
  · split at returns
    · exact absurd returns Attempt.not_returns_throw
    · rcases Attempt.returns_bind.mp returns with ⟨cmt, -, returns⟩
      split at returns
      · split at returns
        · exact Attempt.returns_pure.mp returns ▸ progress_deleteOrEmpty ..
        · exact Attempt.returns_pure.mp returns ▸
            (progress_deleteOrEmpty s _).trans (progress_deleteOrEmpty _ _)
      · exact Attempt.returns_pure.mp returns ▸ .refl s

theorem progress_deleteComments {eid : String}
    (returns : (deleteComments F s eid).Returns t) : Progress (fun _ => False) s t := by
  rw [deleteComments] at returns
  split at returns
  · exact absurd returns Attempt.not_returns_throw
  · exact Attempt.Returns.foldlM_invariant
      (fun before link _ after progress deleted =>
        progress.trans (progress_deleteComment deleted)) returns (.refl s)

theorem progress_deleteEntityChanges {eid : String}
    (returns : (deleteEntityChanges s eid).Returns t) :
    Progress (fun _ => False) s t := by
  rw [deleteEntityChanges] at returns
  split at returns
  · exact absurd returns Attempt.not_returns_throw
  · rcases Attempt.returns_bind.mp returns with ⟨s₁, deleted, removed⟩
    exact (Progress.deleteBlobs deleted).trans (.entitiesDelete removed)

/-- Every call of the store shows blobs under new numbers only. -/
theorem progress_call {storeCall : StoreCall Data}
    (called : call F s storeCall = some t) : Progress (fun _ => False) s t := by
  have returns := Attempt.returned_eq_some.mp called
  cases storeCall with
  | put arrival => exact .put returns
  | putMany arrivals =>
      exact Attempt.Returns.foldlM_invariant
        (fun before arrival _ after progress isPut =>
          progress.trans (.put isPut)) returns (.refl s)
  | saveDraftBlob => exact progress_saveDraftBlob returns
  | replaceDraftBlob => exact progress_replaceDraftBlob returns
  | publishDraft => exact progress_publishDraft returns
  | publishBlob => exact progress_publishBlob returns
  | deleteDraft => exact progress_deleteDraft returns
  | deleteBlock => exact .deleteBlobs returns
  | deleteComments => exact progress_deleteComments returns
  | deleteEntityChanges => exact progress_deleteEntityChanges returns
  | blobsEmptyByEID => exact Attempt.returns_pure.mp returns ▸ .emptyBlobs _
  | blobsStructuralDelete eid =>
      rcases Attempt.returns_pure.mp returns with rfl
      exact .of_subset (fun _ isRow => isRow) rfl fun _ _ _ isDraft => isDraft
  | entitiesInsertRemovedRecord eid =>
      rw [performCall, Store.entitiesInsertRemovedRecord] at returns
      split at returns
      · exact absurd returns Attempt.not_returns_throw
      · rcases Attempt.returns_pure.mp returns with rfl
        exact .of_subset (fun _ isRow => isRow) rfl fun _ _ _ isDraft => isDraft
  | entitiesDeleteRemovedRecord eid =>
      rcases Attempt.returns_pure.mp returns with rfl
      exact .of_subset (fun _ isRow => isRow) rfl fun _ _ _ isDraft => isDraft

end Advances

/-! ## Resuming from a cursor -/

section Resume

variable {F : Formats Data} {T : TokenFormat Int} {s t : Store Data}
variable {token : String} {blobs : List ListedBlob}

theorem id_le_getMaxBlobID {row : BlobRow Data} (isRow : row ∈ s.blobs) :
    row.id ≤ getMaxBlobID s := by
  have member : row.id ∈ s.blobs.map (·.id) := List.mem_map_of_mem isRow
  rw [getMaxBlobID]
  cases isMax : (s.blobs.map (·.id)).max? with
  | none =>
      rw [List.max?_eq_none_iff.mp isMax] at member
      cases member
  | some greatest => exact (List.max?_eq_some_iff.mp isMax).2 row.id member

theorem mem_qListBlobs {row : BlobRow Data} {cursor : Int} :
    row ∈ qListBlobs s cursor ↔
      row ∈ s.blobs ∧ isVisible s row = true ∧ cursor < row.id := by
  rw [qListBlobs, mem_orderBy, List.mem_filter, Bool.and_eq_true, decide_eq_true_iff]

theorem mem_blobs_of_blobRow {hash : String} {row : BlobRow Data}
    (found : s.blobRow hash = some row) : row ∈ s.blobs :=
  List.mem_of_find?_eq_some found

/-- The visible blobs behind a cursor are listed. -/
theorem mem_listBlobs {row : BlobRow Data} {cursor : Nat} (isRow : row ∈ s.blobs)
    (visible : isVisible s row = true) (isBehind : cursor < row.id) :
    ∃ blobs, listBlobs F T s (T.encode cursor) = .ok blobs ∧
      ⟨F.newCidV1 row.codec row.multihash, T.encode row.id⟩ ∈ blobs := by
  have bounded := id_le_getMaxBlobID isRow
  have notLast : ¬ ((cursor : Int) = getMaxBlobID s) := by omega
  have notAhead : ¬ ((getMaxBlobID s : Int) < cursor) := by omega
  rw [listBlobs, decodeCursor, if_neg (T.encode_ne_empty _), T.decode_encode]
  simp only [Except.mapError, bind, Except.bind, notLast, notAhead, ↓reduceIte]
  refine ⟨_, rfl, List.mem_map.mpr ⟨row, ?_, rfl⟩⟩
  exact mem_qListBlobs.mpr ⟨isRow, visible, Int.ofNat_lt.mpr isBehind⟩

/-- A listed blob is visible, under the number in its cursor. -/
theorem shows_of_listBlobs (listed : listBlobs F T s token = .ok blobs)
    {blob : ListedBlob} (member : blob ∈ blobs) :
    ∃ hash number, blobFeed.Shows s hash number ∧ blob.cursor = T.encode number := by
  rw [listBlobs] at listed
  rcases except_bind_eq_ok.mp listed with ⟨cursor, -, listed⟩
  split at listed
  · rcases Except.ok.inj listed with rfl
    cases member
  · rcases Except.ok.inj listed with rfl
    rcases List.mem_map.mp member with ⟨row, isRow, rfl⟩
    rcases mem_qListBlobs.mp isRow with ⟨inTable, visible, -⟩
    exact ⟨row.multihash, row.id, ⟨row, inTable, rfl, rfl, visible⟩, rfl⟩

theorem numbered_of_reaches
    (run : Reaches (call F) (fun _ _ => True) .empty s) : Numbered s :=
  run.invariant (fun _ _ _ numbered _ called => (progress_call called).numbered numbered)
    fun _ isRow => absurd isRow List.not_mem_nil

/--
A blob that is visible and was not visible when a cursor was handed out has a
greater number than the cursor, and a client that resumes from the cursor is
shown the blob.
-/
theorem new_blobs_pass_cursors
    (before : Reaches (call F) (fun _ _ => True) .empty s)
    (listed : listBlobs F T s token = .ok blobs) {handed : ListedBlob}
    (isHanded : handed ∈ blobs)
    (since : Reaches (call F) (fun _ _ => True) s t)
    {row : BlobRow Data} (isRow : row ∈ t.blobs) (visible : isVisible t row = true)
    (isNew : ∀ old ∈ s.blobs, old.multihash = row.multihash → isVisible s old = false) :
    (∃ cursor : Nat, handed.cursor = T.encode cursor ∧ cursor < row.id) ∧
      ∃ blobs', listBlobs F T t handed.cursor = .ok blobs' ∧
        ⟨F.newCidV1 row.codec row.multihash, T.encode row.id⟩ ∈ blobs' := by
  rcases shows_of_listBlobs listed isHanded with ⟨hash, cursor, shows, isCursor⟩
  have bounded : cursor ≤ blobFeed.last s := by
    rcases shows with ⟨old, isOld, -, rfl, -⟩
    exact numbered_of_reaches before old isOld
  have advances : blobFeed.Advances s t := Feed.advances_of_reaches
    (fun _ _ _ called => (progress_call called).advances) since
  have isBehind : cursor < row.id := by
    apply advances.new_after bounded ⟨row, isRow, rfl, rfl, visible⟩
    rintro number ⟨old, isOld, same, -, wasVisible⟩
    rw [isNew old isOld same] at wasVisible
    cases wasVisible
  constructor
  · exact ⟨cursor, isCursor, isBehind⟩
  · rw [isCursor]
    exact mem_listBlobs isRow visible isBehind

end Resume

section Samples

/-- A document of the first account and its draft, and what comes later. -/
def sampleCalls : List (StoreCall DecodedBlob) :=
  [.put ⟨.listed, "cdelegation1", .keyDelegation (sampleDelegation 1 11)⟩]

/-- A draft is saved and published. -/
def laterCalls : List (StoreCall DecodedBlob) :=
  [.saveDraftBlob .listed sampleGroup "ccreate" (.change sampleCreate)
      (.change sampleCreate),
    .publishDraft sampleGroup]

def sampleCallsResult : Evaluated (performAll (call (sampleFormats sampleSha256)) .empty
    sampleCalls) :=
  .of (by decide +kernel)

theorem sampleCalls_succeed : (performAll (call (sampleFormats sampleSha256)) .empty
    sampleCalls).isSome = true :=
  sampleCallsResult.isSome

/-- The store that hands out a cursor. -/
def sampleServer : Store DecodedBlob :=
  (performAll (call (sampleFormats sampleSha256)) .empty sampleCalls).get
    sampleCalls_succeed

def laterCallsResult : Evaluated (performAll (call (sampleFormats sampleSha256))
    sampleServer laterCalls) :=
  .of (by decide +kernel)

theorem laterCalls_succeed : (performAll (call (sampleFormats sampleSha256))
    sampleServer laterCalls).isSome = true :=
  laterCallsResult.isSome

/-- The store when the client returns. -/
def laterServer : Store DecodedBlob :=
  (performAll (call (sampleFormats sampleSha256)) sampleServer laterCalls).get
    laterCalls_succeed

theorem reaches_sampleServer : Reaches (call (sampleFormats sampleSha256))
    (fun _ _ => True) .empty sampleServer :=
  reaches_get sampleCalls sampleCalls_succeed

theorem reaches_laterServer : Reaches (call (sampleFormats sampleSha256))
    (fun _ _ => True) sampleServer laterServer :=
  reaches_get laterCalls laterCalls_succeed

def createIsThereResult : Evaluated (laterServer.blobRow "create") :=
  .of (by decide +kernel)

theorem create_is_there : (laterServer.blobRow "create").isSome = true :=
  createIsThereResult.isSome

/-- The published draft, which has the third number. -/
def createRow : BlobRow DecodedBlob := (laterServer.blobRow "create").get create_is_there

theorem new_blobs_pass_cursors_createRow :
    (∃ cursor : Nat, "ccc" = (TokenFormat.counted Int).encode cursor ∧
        cursor < createRow.id) ∧
      ∃ blobs', listBlobs (sampleFormats sampleSha256) (TokenFormat.counted Int)
          laterServer "ccc" = .ok blobs' ∧
        ⟨sampleCidV1 createRow.codec createRow.multihash,
          (TokenFormat.counted Int).encode createRow.id⟩ ∈ blobs' := by
  have listed : listBlobs (sampleFormats sampleSha256) (TokenFormat.counted Int)
      sampleServer "" = .ok [⟨"cdelegation1", "ccc"⟩] := by decide +kernel
  have absent : (sampleServer.blobs.all
      fun old => old.multihash != createRow.multihash) = true := by decide +kernel
  have found : laterServer.blobRow "create" = some createRow :=
    (Option.some_get create_is_there).symm
  have isRow := mem_blobs_of_blobRow found
  have visible : isVisible laterServer createRow = true := by decide +kernel
  apply new_blobs_pass_cursors reaches_sampleServer listed
    (List.mem_singleton_self _) reaches_laterServer isRow visible
  · intro old isOld same
    have differs := List.all_eq_true.mp absent old isOld
    rw [same, bne_self_eq_false] at differs
    cases differs

end Samples

end Mintter.Hyper
