import Mintter.Hyper.VersionLoads

/-!
# Contents that are named by their hashes

A multihash stands for one content: the codec and the data of the blobs that have it.  Then
a store has every change in its tables whose data it has, and two stores that have the data
of one multihash have the same change.
-/

namespace Mintter.Hyper

open Mintter.Foundation

variable {Data : Type}

/-- The codec and the data that a multihash stands for. -/
abbrev HashContents (Data : Type) : Type := String → Nat × Data

/-- The blob is what its multihash stands for. -/
def Named (F : Formats Data) (contents : HashContents Data) (arrival : Arrival Data) : Prop :=
  contents (F.cidHash arrival.c) = (F.cidCodec arrival.c, arrival.data)

/-- The multihash stands for a change. -/
def StandsForChange (F : Formats Data) (contents : HashContents Data) (hash : String) (v : Change) :
    Prop :=
  F.decodeBlob (contents hash).1 (contents hash).2 = .ok (.change v)

/-- The data of the blob is there. -/
def HasData (s : Store Data) (hash : String) : Prop :=
  ∃ row, s.blobRow hash = some row ∧ 0 ≤ row.size

/-- The data is what the multihashes stand for, and the tables hold the changes. -/
structure Catalogued (F : Formats Data) (contents : HashContents Data) (s : Store Data) :
    Prop where
  data : ∀ hash row, s.blobRow hash = some row → 0 ≤ row.size →
    row.data = some (contents hash).2
  changes : ∀ hash v, HasData s hash → StandsForChange F contents hash v →
    HasChange F s (F.newCidV1 dagCbor hash, v)
  decoded : ∀ row ∈ s.structuralBlobs, row.type = "Change" →
    ∃ v, StandsForChange F contents row.blob v

section Accept

variable {F : Formats Data} {contents : HashContents Data} {s t : Store Data}
variable {arrival : Arrival Data} {hash : String} {codec : Nat} {data : Data}
variable {row : BlobRow Data} {v : Change}

/-- A block that arrives changes one row. -/
theorem newRow_of_putBlock (returns : (s.putBlock F 0 codec hash data).Returns (false, t)) :
    ∃ row, row.data = some data ∧ 0 ≤ row.size ∧
      ∀ hash', t.blobRow hash' = if hash = hash' then some row else s.blobRow hash' := by
  rw [Store.putBlock] at returns
  split at returns
  · next old found =>
      split at returns
      · exact absurd (Attempt.returns_pure.mp returns) (by simp)
      · split at returns
        · exact absurd returns Attempt.not_returns_throw
        · cases Attempt.returns_pure.mp returns
          refine ⟨{ old with id := s.seq + 1, data := some data, size := F.size data }, rfl,
            Int.natCast_nonneg _, fun hash' => ?_⟩
          rw [Store.blobRow_blobsUpdateMissingData]
          split
          · next same => rw [← same, found, Option.map_some]
          · exact rfl
  · next absent =>
      rw [if_pos rfl] at returns
      cases Attempt.returns_pure.mp returns
      refine ⟨⟨s.seq + 1, hash, codec, some data, F.size data⟩, rfl, Int.natCast_nonneg _,
        fun hash' => ?_⟩
      rw [Store.blobRow_blobsInsert]
      split
      · next same => rw [← same, absent, Option.none_or]
      · rw [Option.or_none]

/-- Only rows without data are new. -/
theorem blobRow_of_grows (grows : Grows s t) (found : t.blobRow hash = some row)
    (nonneg : 0 ≤ row.size) : s.blobRow hash = some row := by
  rcases grows.blobs with ⟨added, blobs_eq, isAdded⟩
  rw [Store.blobRow, blobs_eq, List.find?_append, Option.or_eq_some_iff] at found
  rcases found with old | ⟨-, isNew⟩
  · exact old
  · have negative := (isAdded row (List.mem_of_find?_eq_some isNew)).1
    exact absurd nonneg (not_le.mpr negative)

theorem HasData.of_grows (has : HasData t hash) (grows : Grows s t) : HasData s hash := by
  rcases has with ⟨row, found, nonneg⟩
  exact ⟨row, blobRow_of_grows grows found nonneg, nonneg⟩

/-- Accepting a blob keeps what is there, and then its data is there. -/
theorem hasData_of_accept (accepted : accept F s arrival = some t) :
    (∀ hash, HasData s hash → HasData t hash) ∧ HasData t (F.cidHash arrival.c) := by
  rcases put_of_returns (returns_of_accept accepted) with ⟨found, s₁, isPut⟩
  have received := isPut.block.received
  have grows : Grows s₁ t := by
    cases skips : found || !isIndexable (F.cidCodec arrival.c) with
    | true => exact isPut.skipped skips ▸ .refl s₁
    | false =>
        rcases isPut.indexed skips with ⟨blob, -, indexed⟩
        exact grows_of_indexedBlob (indexedBlob_of_returns indexed)
  have keeps : ∀ hash, HasData s hash → HasData t hash := by
    rintro hash ⟨row, isRow, nonneg⟩
    exact ⟨row, grows.blobRow (received.blobRow hash row isRow nonneg), nonneg⟩
  refine ⟨keeps, ?_⟩
  cases found with
  | true =>
      have stored := isPut.stored
      rw [Store.putBlock] at stored
      split at stored
      · next row isRow =>
          split at stored
          · next nonneg => exact keeps _ ⟨row, isRow, nonneg⟩
          · split at stored
            · exact absurd stored Attempt.not_returns_throw
            · exact absurd (Attempt.returns_pure.mp stored) (by simp)
      · rw [if_pos rfl] at stored
        exact absurd (Attempt.returns_pure.mp stored) (by simp)
  | false =>
      rcases newRow_of_putBlock isPut.stored with ⟨row, -, nonneg, rows⟩
      exact ⟨row, grows.blobRow (by rw [rows, if_pos rfl]), nonneg⟩

/-- The row of a change that has been indexed holds the change. -/
theorem hasChange_of_indexed (sound : ChangesSound F t) {b : StructuralBlob}
    (isRow : Store.structuralRow hash b ∈ t.structuralBlobs) (type : b.type = "Change")
    (found : t.blobRow hash = some row) (holds : Holds F row v) :
    HasChange F t (F.newCidV1 dagCbor hash, v) := by
  rcases sound.changes _ isRow type with ⟨ch, soundChange⟩
  have holds' := (soundChange.stored.rowCid found).2
  rw [holds'.unique holds] at soundChange
  exact ⟨_, rfl, soundChange.stored⟩

theorem holds_of_standsForChange (isData : row.data = some (contents hash).2)
    (isChange : StandsForChange F contents hash v) : Holds F row v := by
  refine ⟨_, isData, decodeChange_of_decodeBlob ?_⟩
  apply decodeBlob_dagCbor isChange
  intro links isNode
  cases isNode

theorem Catalogued.empty : Catalogued F contents (Store.empty : Store Data) where
  data := fun _ _ found => absurd found (Option.some_ne_none _).symm
  changes := by
    rintro hash v ⟨row, found, -⟩
    cases found
  decoded := fun _ member => absurd member List.not_mem_nil

theorem Named.standsForChange_iff (named : Named F contents arrival) :
    StandsForChange F contents (F.cidHash arrival.c) v ↔
      F.decodeBlob (F.cidCodec arrival.c) arrival.data = .ok (.change v) := by
  rw [StandsForChange, named]

/-- With the row that has arrived, the data is still what the multihashes stand for. -/
theorem Catalogued.data_of_newRow {s₁ : Store Data} (catalogued : Catalogued F contents s)
    (named : Named F contents arrival) (isData : row.data = some arrival.data)
    (rows : ∀ hash, s₁.blobRow hash =
      if F.cidHash arrival.c = hash then some row else s.blobRow hash) {row' : BlobRow Data}
    (found : s₁.blobRow hash = some row') (nonneg : 0 ≤ row'.size) :
    row'.data = some (contents hash).2 := by
  rw [rows] at found
  split at found
  · next same => rw [← same, named, ← Option.some.inj found, isData]
  · exact catalogued.data hash row' found nonneg

/-- The change of a row that was there before is still there. -/
theorem Catalogued.change_of_oldRow {s₁ : Store Data} (catalogued : Catalogued F contents s)
    (rows : ∀ hash, s₁.blobRow hash =
      if F.cidHash arrival.c = hash then some row else s.blobRow hash)
    (accepted : Hyper.accept F s arrival = some t) (other : hash ≠ F.cidHash arrival.c)
    (has : HasData s₁ hash) (isChange : StandsForChange F contents hash v) :
    HasChange F t (F.newCidV1 dagCbor hash, v) := by
  rcases has with ⟨row', found, nonneg⟩
  rw [rows, if_neg other.symm] at found
  exact (catalogued.changes hash v ⟨row', found, nonneg⟩ isChange).accept accepted

theorem Catalogued.accept (catalogued : Catalogued F contents s) (sound : ChangesSound F t)
    (named : Named F contents arrival) (accepted : Hyper.accept F s arrival = some t) :
    Catalogued F contents t := by
  rcases put_of_returns (returns_of_accept accepted) with ⟨found, s₁, isPut⟩
  cases found with
  | true =>
      rw [isPut.skipped rfl, isPut.block.old rfl]
      exact catalogued
  | false =>
      rcases newRow_of_putBlock isPut.stored with ⟨row, isData, nonneg, rows⟩
      have same := isPut.block.received.same.structuralBlobs
      cases skips : isIndexable (F.cidCodec arrival.c) with
      | false =>
          have unchanged := isPut.skipped (by rw [skips]; exact rfl)
          subst unchanged
          constructor
          · exact fun hash row' => catalogued.data_of_newRow named isData rows
          · intro hash v has isChange
            by_cases here : hash = F.cidHash arrival.c
            · subst here
              rw [isIndexable_of_decodeBlob (named.standsForChange_iff.mp isChange)] at skips
              cases skips
            · exact catalogued.change_of_oldRow rows accepted here has isChange
          · rw [same]
            exact catalogued.decoded
      | true =>
          rcases isPut.indexed (by rw [skips]; exact rfl) with ⟨blob, decoded, returns⟩
          have indexed := indexedBlob_of_returns returns
          have grows := grows_of_indexedBlob indexed
          rcases structuralBlobs_of_indexedBlob indexed with ⟨b, blobs, isType⟩
          rw [same] at blobs
          constructor
          · exact fun hash row' found nonneg' => catalogued.data_of_newRow named isData rows
              (blobRow_of_grows grows found nonneg') nonneg'
          · intro hash v has isChange
            by_cases here : hash = F.cidHash arrival.c
            · subst here
              have isBlob : blob = .change v :=
                Except.ok.inj (decoded.symm.trans (named.standsForChange_iff.mp isChange))
              have isRow : Store.structuralRow (F.cidHash arrival.c) b ∈ t.structuralBlobs := by
                rw [blobs]
                exact List.mem_append_right _ (List.mem_singleton_self _)
              have found : t.blobRow (F.cidHash arrival.c) = some row :=
                grows.blobRow (by rw [rows, if_pos rfl])
              apply hasChange_of_indexed sound isRow (isType.mpr ⟨v, isBlob⟩) found
              apply holds_of_standsForChange _ isChange
              rw [isData, named]
            · exact catalogued.change_of_oldRow rows accepted here (has.of_grows grows) isChange
          · rw [blobs]
            intro row' member type
            rcases List.mem_append.mp member with isOld | isNew
            · exact catalogued.decoded row' isOld type
            · rw [List.mem_singleton.mp isNew] at type ⊢
              rcases isType.mp type with ⟨v, rfl⟩
              exact ⟨v, named.standsForChange_iff.mpr decoded⟩

end Accept

end Mintter.Hyper
