import Mintter.Foundation.JoinedTexts
import Mintter.Hyper.Loadable
import Mintter.Hyper.Replicas
import Mintter.Hyper.Requests

/-!
# Loading a version

The version of an entity names its heads, and everything else of the entity lies below
them.  So the version names the entity: whoever holds its changes and loads the version
gets an entity that agrees with it.
-/

namespace Mintter.Hyper

open Mintter.Foundation
open Relation

variable {Data : Type} {F : Formats Data}

/-! ## The text of a version -/

section Text

variable {heads : List String}

end Text

section Heads

variable {id : String} {e : Entity}

end Heads

/-! ## What lies below the heads in a store -/

section Below

variable {s : Store Data} {eid : String} {e : Entity} {change : String × Change}

/-- The change is stored under its CID. -/
def HasChange (F : Formats Data) (s : Store Data) (change : String × Change) : Prop :=
  ∃ row, change.1 = F.newCidV1 dagCbor row.blob ∧ StoredChange F s row change.2

theorem HasChange.sound (has : HasChange F s change) (sound : ChangesSound F s) :
    ∃ row, change.1 = F.newCidV1 dagCbor row.blob ∧ SoundChange F s row change.2 := by
  rcases has with ⟨row, isCid, stored⟩
  rcases sound.changes row stored.isRow stored.type with ⟨ch, soundChange⟩
  rcases stored.block with ⟨blob, found, -, -, holds⟩
  rw [holds.unique (soundChange.stored.rowCid found).2]
  exact ⟨row, isCid, soundChange⟩

/-- Indexing a blob adds its row, which is that of a change if the blob is one. -/
theorem structuralBlobs_of_indexedBlob {t : Store Data} {order : Crdt2.FieldOrder} {c : String}
    {blob : DecodedBlob} (indexed : IndexedBlob F order s c t blob) :
    ∃ b, t.structuralBlobs = s.structuralBlobs ++ [Store.structuralRow (F.cidHash c) b] ∧
      (b.type = "Change" ↔ ∃ v, blob = .change v) := by
  cases blob with
  | dagPB links =>
      refine ⟨_, indexed.structuralBlobs, ?_⟩
      simp [(extended_dagPBBlob links).type, newSimpleStructuralBlob]
  | keyDelegation kd =>
      have inserted : (s.keyDelegationsInsertOrIgnore
          ⟨F.cidHash c, kd.issuer, kd.delegate⟩).structuralBlobs = s.structuralBlobs := by
        rw [Store.keyDelegationsInsertOrIgnore]
        split <;> exact rfl
      refine ⟨_, by rw [indexed.saved.structuralBlobs, inserted], ?_⟩
      simp [delegationBlob, newStructuralBlob, StructuralBlob.addResourceLink]
  | change v =>
      rcases indexed with ⟨author, sb, s₁, isChange⟩
      rcases entityIndexed_of_returns entityLinks_true isChange.entity with
        ⟨ensured, extended, -⟩
      refine ⟨sb, by rw [isChange.saved.structuralBlobs, ensured.structuralBlobs], ?_⟩
      simp [extended.type, linkedBlob, changeBlob, newStructuralBlob]
  | comment cm =>
      rcases indexed with ⟨author, sb, isComment⟩
      have extended := isComment.links (fun _ => True) (fun _ => True)
        fun _ => ⟨trivial, fun _ _ _ => trivial⟩
      refine ⟨sb, isComment.saved.structuralBlobs, ?_⟩
      simp [extended.type, newStructuralBlob]

theorem HasChange.mono {t : Store Data} (has : HasChange F s change)
    (rows : ∀ row ∈ s.structuralBlobs, row ∈ t.structuralBlobs)
    (blobRow : ∀ hash blob, s.blobRow hash = some blob → 0 ≤ blob.size →
      t.blobRow hash = some blob) : HasChange F t change := by
  rcases has with ⟨row, isCid, stored⟩
  rcases stored.block with ⟨blob, found, nonneg, rest⟩
  exact ⟨row, isCid, rows row stored.isRow, stored.type, stored.resource, stored.ts, blob,
    blobRow _ _ found nonneg, nonneg, rest⟩

/-- What arrives leaves the changes there. -/
theorem HasChange.accept {t : Store Data} {arrival : Arrival Data}
    (has : HasChange F s change) (accepted : Hyper.accept F s arrival = some t) :
    HasChange F t change := by
  rcases accept_cases accepted with received | ⟨s₁, blob, arrives, returns⟩
  · apply has.mono _ received.blobRow
    exact fun row isRow => received.same.structuralBlobs ▸ isRow
  · have received := arrives.received
    have indexed := indexedBlob_of_returns returns
    rcases structuralBlobs_of_indexedBlob indexed with ⟨b, rows, -⟩
    apply has.mono
    · intro row isRow
      rw [rows, received.same.structuralBlobs]
      exact List.mem_append_left _ isRow
    · intro hash row found nonneg
      exact (grows_of_indexedBlob indexed).blobRow (received.blobRow hash row found nonneg)

theorem HasChange.run {t : Store Data} {permitted : Store Data → Arrival Data → Prop}
    (has : HasChange F s change) (run : Reaches (Hyper.accept F) permitted s t) :
    HasChange F t change := by
  induction run with
  | refl => exact has
  | tail _ step induction =>
      rcases step with ⟨arrival, -, accepted⟩
      exact induction.accept accepted

variable {heads : List String}

end Below

/-! ## Loading at the version -/

section Load

variable {s t u : Store Data} {order order' : RowOrder} {wall wall' : Nat → Int}
variable {eid : String} {e : Entity} {heads : List String}
variable {selected : StructuralBlobRow → Bool}

end Load

/-! ## A sample -/

end Mintter.Hyper
