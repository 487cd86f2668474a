import Mintter.Hyper.Cursors

/-!
# What every call keeps

A call of the store is made of a few operations.  What each of them keeps is kept
by every call, and so by every run of calls.
-/

namespace Mintter.Hyper

open Mintter.Foundation
open Mintter.Crdt2

variable {Data : Type}

/-- A block was there, gets its data, or gets a row with a new or a given number. -/
theorem putBlock_cases {F : Formats Data} {s t : Store Data} {inID codec : Nat}
    {hash : String} {data : Data} {found : Bool}
    (returns : (s.putBlock F inID codec hash data).Returns (found, t)) :
    t = s ∨ t = s.blobsUpdateMissingData F hash data ∨
      s.blobRow hash = none ∧
        (t = s.blobsInsert hash codec (some data) (F.size data) ∨
          t = s.blobsInsertAs inID hash codec (some data) (F.size data)) := by
  rw [Store.putBlock] at returns
  split at returns
  · split at returns
    · cases Attempt.returns_pure.mp returns
      exact .inl rfl
    · split at returns
      · exact absurd returns Attempt.not_returns_throw
      · cases Attempt.returns_pure.mp returns
        exact .inr (.inl rfl)
  · next absent =>
      split at returns
      · cases Attempt.returns_pure.mp returns
        exact .inr (.inr ⟨absent, .inl rfl⟩)
      · cases Attempt.returns_pure.mp returns
        exact .inr (.inr ⟨absent, .inr rfl⟩)

/-- Deleting blobs and emptying them keep the property. -/
structure KeptByDeletions (kept : Store Data → Prop) : Prop where
  deleteBlobs : ∀ s t chosen, (s.deleteBlobs chosen).Returns t → kept s → kept t
  emptyBlobs : ∀ (s : Store Data) chosen, kept s → kept (s.emptyBlobs chosen)

/--
The operations that calls are made of keep the property, undeleting only for
entities that may be restored.
-/
structure KeptByOperations (F : Formats Data) (mayRestore : String → Prop)
    (kept : Store Data → Prop) : Prop extends KeptByDeletions kept where
  putBlock : ∀ s t inID codec hash data found,
    (s.putBlock F inID codec hash data).Returns (found, t) → kept s → kept t
  indexBlob : ∀ s t order c blob,
    (indexBlob F order s c blob).Returns t → kept s → kept t
  touch : ∀ (s : Store Data) hash, kept s → kept (s.touch hash)
  others : ∀ s t : Store Data, t.blobs = s.blobs → s.seq ≤ t.seq →
    t.blobLinks = s.blobLinks → t.deletedResources = s.deletedResources →
    kept s → kept t
  insertRemoved : ∀ s t eid, (s.entitiesInsertRemovedRecord eid).Returns t →
    kept s → kept t
  deleteRemoved : ∀ (s : Store Data) eid, mayRestore eid → kept s →
    kept (s.entitiesDeleteRemovedRecord eid)

namespace KeptByDeletions

variable {F : Formats Data} {kept : Store Data → Prop} {s t : Store Data}
variable {eid hash : String}

theorem deleteOrEmpty (rules : KeptByDeletions kept) (start : kept s) :
    kept (Hyper.deleteOrEmpty s hash) := by
  rw [Hyper.deleteOrEmpty]
  cases deleted : (s.blobsDelete hash).returned with
  | none => exact rules.emptyBlobs s (· == hash) start
  | some t => exact rules.deleteBlobs _ _ _ (Attempt.returned_eq_some.mp deleted) start

theorem deleteComment {link : ResourceLinkRow}
    (rules : KeptByDeletions kept)
    (returns : (Hyper.deleteComment F eid s link).Returns t) (start : kept s) :
    kept t := by
  rw [Hyper.deleteComment] at returns
  split at returns
  · exact Attempt.returns_pure.mp returns ▸ start
  · split at returns
    · exact absurd returns Attempt.not_returns_throw
    · rcases Attempt.returns_bind.mp returns with ⟨cmt, -, returns⟩
      split at returns
      · split at returns
        · exact Attempt.returns_pure.mp returns ▸ rules.deleteOrEmpty start
        · exact Attempt.returns_pure.mp returns ▸
            rules.deleteOrEmpty (rules.deleteOrEmpty start)
      · exact Attempt.returns_pure.mp returns ▸ start

theorem deleteComments (rules : KeptByDeletions kept)
    (returns : (Hyper.deleteComments F s eid).Returns t) (start : kept s) : kept t := by
  rw [Hyper.deleteComments] at returns
  split at returns
  · exact absurd returns Attempt.not_returns_throw
  · exact returns.foldlM_invariant
      (fun _ _ _ _ before deleted => rules.deleteComment deleted before) start

end KeptByDeletions

/-- The call does not undelete other entities. -/
def Restores (mayRestore : String → Prop) : StoreCall Data → Prop
  | .entitiesDeleteRemovedRecord eid => mayRestore eid
  | _ => True

namespace KeptByOperations

variable {F : Formats Data} {mayRestore : String → Prop} {kept : Store Data → Prop}
variable {order : FieldOrder} {s t : Store Data} {c eid hash : String} {data : Data}
variable {blob : DecodedBlob}

theorem put (rules : KeptByOperations F mayRestore kept)
    (returns : (Hyper.put F order s c data).Returns t) (start : kept s) : kept t := by
  rcases put_of_returns returns with ⟨found, s₁, isPut⟩
  have stored := rules.putBlock _ _ _ _ _ _ _ isPut.stored start
  cases skips : found || !isIndexable (F.cidCodec c) with
  | true =>
      rw [isPut.skipped skips]
      exact stored
  | false =>
      rcases isPut.indexed skips with ⟨blob, -, indexed⟩
      exact rules.indexBlob _ _ _ _ _ indexed stored

theorem entitiesDelete (rules : KeptByOperations F mayRestore kept)
    (returns : (s.entitiesDelete eid).Returns t) (start : kept s) : kept t := by
  rw [Store.entitiesDelete] at returns
  split at returns
  · exact absurd returns Attempt.not_returns_throw
  · rcases Attempt.returns_pure.mp returns with rfl
    exact rules.others s _ rfl le_rfl rfl rfl start

theorem insertDraft (rules : KeptByOperations F mayRestore kept)
    (returns : (Hyper.insertDraft F s eid c).Returns t) (start : kept s) : kept t := by
  rw [Hyper.insertDraft] at returns
  split at returns
  · exact absurd returns Attempt.not_returns_abort
  · rw [Store.draftsInsert] at returns
    split at returns
    · exact absurd returns Attempt.not_returns_throw
    · rcases Attempt.returns_pure.mp returns with rfl
      exact rules.others s _ rfl le_rfl rfl rfl start

theorem draftsDelete (rules : KeptByOperations F mayRestore kept) (start : kept s) :
    kept (s.draftsDelete hash) :=
  rules.others s _ rfl le_rfl rfl rfl start

theorem blobsTouch (rules : KeptByOperations F mayRestore kept)
    (returns : (s.blobsTouch hash).Returns t) (start : kept s) : kept t := by
  rw [Store.blobsTouch] at returns
  split at returns
  · exact absurd returns Attempt.not_returns_throw
  · rcases Attempt.returns_pure.mp returns with rfl
    exact rules.touch s hash start

theorem saveDraftBlob (rules : KeptByOperations F mayRestore kept)
    (returns : (Hyper.saveDraftBlob F order s eid c data blob).Returns t)
    (start : kept s) : kept t := by
  rcases Attempt.returns_bind.mp returns with ⟨s₁, saved, inserted⟩
  rcases Attempt.returns_bind.mp saved with ⟨⟨found, s₂⟩, stored, indexed⟩
  have isStored := rules.putBlock _ _ _ _ _ _ _ stored start
  apply rules.insertDraft inserted
  cases found with
  | true => exact Attempt.returns_pure.mp indexed ▸ isStored
  | false => exact rules.indexBlob _ _ _ _ _ indexed isStored

theorem replaceDraftBlob {old : String} (rules : KeptByOperations F mayRestore kept)
    (returns : (Hyper.replaceDraftBlob F order s eid old c data blob).Returns t)
    (start : kept s) : kept t := by
  rcases Attempt.returns_bind.mp returns with ⟨⟨⟩, -, returns⟩
  rcases Attempt.returns_bind.mp returns with ⟨s₁, deleted, returns⟩
  rcases Attempt.returns_bind.mp returns with ⟨⟨found, s₂⟩, stored, returns⟩
  have isStored :=
    rules.putBlock _ _ _ _ _ _ _ stored (rules.deleteBlobs _ _ _ deleted start)
  cases found with
  | true => exact Attempt.returns_pure.mp returns ▸ isStored
  | false =>
      rcases Attempt.returns_bind.mp returns with ⟨s₃, indexed, inserted⟩
      exact rules.insertDraft inserted (rules.indexBlob _ _ _ _ _ indexed isStored)

theorem publishDraft (rules : KeptByOperations F mayRestore kept)
    (returns : (Hyper.publishDraft s eid).Returns t) (start : kept s) : kept t := by
  rw [Hyper.publishDraft] at returns
  split at returns
  · exact absurd returns Attempt.not_returns_throw
  · rcases Attempt.returns_bind.mp returns with ⟨⟨⟩, -, touched⟩
    exact rules.blobsTouch touched (rules.draftsDelete start)

theorem publishBlob (rules : KeptByOperations F mayRestore kept)
    (returns : (Hyper.publishBlob F s c).Returns t) (start : kept s) : kept t := by
  rcases Attempt.returns_bind.mp returns with ⟨⟨⟩, -, returns⟩
  split at returns
  · exact rules.blobsTouch returns start
  · rcases Attempt.returns_pure.mp returns with rfl
    exact rules.others s _ rfl (Nat.le_succ s.seq) rfl rfl start

theorem deleteDraft (rules : KeptByOperations F mayRestore kept)
    (returns : (Hyper.deleteDraft s eid).Returns t) (start : kept s) : kept t := by
  rw [Hyper.deleteDraft] at returns
  split at returns
  · exact absurd returns Attempt.not_returns_throw
  · rcases Attempt.returns_bind.mp returns with ⟨s₁, deleted, returns⟩
    rcases Attempt.returns_pure.mp returns with rfl
    have without : kept s₁ := rules.deleteBlobs _ _ _ deleted (rules.draftsDelete start)
    cases removed : (s₁.entitiesDelete eid).returned with
    | none => exact without
    | some t => exact rules.entitiesDelete (Attempt.returned_eq_some.mp removed) without

theorem deleteEntityChanges (rules : KeptByOperations F mayRestore kept)
    (returns : (Hyper.deleteEntityChanges s eid).Returns t) (start : kept s) :
    kept t := by
  rw [Hyper.deleteEntityChanges] at returns
  split at returns
  · exact absurd returns Attempt.not_returns_throw
  · rcases Attempt.returns_bind.mp returns with ⟨s₁, deleted, removed⟩
    exact rules.entitiesDelete removed (rules.deleteBlobs _ _ _ deleted start)

/-- What the operations keep is kept by every call. -/
theorem call {storeCall : StoreCall Data} (rules : KeptByOperations F mayRestore kept)
    (restores : Restores mayRestore storeCall)
    (called : Hyper.call F s storeCall = some t) (start : kept s) : kept t := by
  have returns := Attempt.returned_eq_some.mp called
  cases storeCall with
  | put arrival => exact rules.put returns start
  | putMany arrivals =>
      exact returns.foldlM_invariant
        (fun _ _ _ _ before isPut => rules.put isPut before) start
  | saveDraftBlob => exact rules.saveDraftBlob returns start
  | replaceDraftBlob => exact rules.replaceDraftBlob returns start
  | publishDraft => exact rules.publishDraft returns start
  | publishBlob => exact rules.publishBlob returns start
  | deleteDraft => exact rules.deleteDraft returns start
  | deleteBlock => exact rules.deleteBlobs _ _ _ returns start
  | deleteComments => exact rules.deleteComments returns start
  | deleteEntityChanges => exact rules.deleteEntityChanges returns start
  | blobsEmptyByEID => exact Attempt.returns_pure.mp returns ▸ rules.emptyBlobs s _ start
  | blobsStructuralDelete =>
      rcases Attempt.returns_pure.mp returns with rfl
      exact rules.others s _ rfl le_rfl rfl rfl start
  | entitiesInsertRemovedRecord => exact rules.insertRemoved _ _ _ returns start
  | entitiesDeleteRemovedRecord =>
      exact Attempt.returns_pure.mp returns ▸ rules.deleteRemoved s _ restores start

end KeptByOperations

end Mintter.Hyper
