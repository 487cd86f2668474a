import Mintter.Foundation.FeedReaders
import Mintter.Hyper.Cursors
import Mintter.Hyper.NamedContents
import Mintter.Hyper.Rebuilt

/-!
# Pulling blobs from a site

A node asks a site for the blobs behind the cursor that it has saved, wants those that it
does not have, and gets and puts them one after the other; it saves the cursor of every
fiftieth one and of the last one.  The site and the node go on receiving other blobs, and
the sync may fail at any call.
-/

namespace Mintter.Hyper

open Mintter.Foundation

variable {Data : Type}

/-- The stores of the site and of the node, and the sync of the node. -/
structure SiteSync (Data : Type) where
  site : Store Data
  node : Store Data
  /-- The cursor that is saved for the site; the empty text stands for none. -/
  cursor : String
  want : List ListedBlob
  i : Nat

/-- A site and a node without blobs. -/
def SiteSync.new : SiteSync Data := ⟨.empty, .empty, "", [], 0⟩

/-- A blob arrives at the site or at the node, or the sync makes its next calls. -/
inductive SiteSyncInput (Data : Type) where
  | siteArrival (arrival : Arrival Data)
  | nodeArrival (arrival : Arrival Data)
  | list
  | pull (order : Crdt2.FieldOrder) (saves : Bool)
  | fail

section Step

variable (F : Formats Data) (T : TokenFormat Int)

/-- The blob that a sync gets from the site and puts. -/
def SiteSync.pulled (st : SiteSync Data) (order : Crdt2.FieldOrder) (blob : ListedBlob) :
    Option (Arrival Data) :=
  (st.site.getBlock (F.cidHash blob.cid)).returned.map fun data => ⟨order, blob.cid, data⟩

/-- The loop of `syncGroupSite` over the wanted blobs, one of which is put. -/
def SiteSync.afterPut (st : SiteSync Data) (node : Store Data) (blob : ListedBlob)
    (rest : List ListedBlob) (saves : Bool) : SiteSync Data :=
  if st.i % 50 = 0 ∨ rest = [] then
    if saves then { st with node := node, cursor := blob.cursor, want := rest, i := st.i + 1 }
    else { st with node := node, want := [] }
  else { st with node := node, want := rest, i := st.i + 1 }

/-- A blob arrives at one of them, or a sync takes a step. -/
def SiteSync.step (st : SiteSync Data) : SiteSyncInput Data → Option (SiteSync Data)
  | .siteArrival arrival => (accept F st.site arrival).map fun site => { st with site := site }
  | .nodeArrival arrival => (accept F st.node arrival).map fun node => { st with node := node }
  | .list =>
      match listBlobs F T st.site st.cursor with
      | .error _ => none
      | .ok blobs =>
          some { st with want := blobs.filter fun blob => !st.node.hasBlobData F blob.cid, i := 0 }
  | .pull order saves =>
      match st.want with
      | [] => none
      | blob :: rest => do
          let arrival ← st.pulled F order blob
          let node ← accept F st.node arrival
          some (st.afterPut node blob rest saves)
  | .fail => some { st with want := [] }

end Step

/-! ## The numbers of accepted blobs -/

section Numbers

variable {F : Formats Data} {s t : Store Data} {arrival : Arrival Data}

/-- The numbers begin with one. -/
def NumberedFromOne (s : Store Data) : Prop := ∀ row ∈ s.blobs, 0 < row.id

theorem NumberedBlobs.accept (numbered : NumberedBlobs s)
    (accepted : Hyper.accept F s arrival = some t) : NumberedBlobs t := by
  rcases put_of_returns (returns_of_accept accepted) with ⟨found, s₁, isPut⟩
  cases found with
  | true =>
      rw [isPut.skipped rfl, isPut.block.old rfl]
      exact numbered
  | false =>
      rcases numbered.putBlock isPut.stored with ⟨row, isNew⟩
      cases skips : isIndexable (F.cidCodec arrival.c) with
      | false =>
          rw [isPut.skipped (by rw [skips]; exact rfl)]
          exact isNew.numbered
      | true =>
          rcases isPut.indexed (by rw [skips]; exact rfl) with ⟨blob, -, indexed⟩
          exact kept_of_indexBlob NumberedBlobs
            (fun _ _ blobs seq _ numbered => numbered.of_same blobs seq)
            (fun _ _ link numbered => numbered.saveBlobLink link) indexed isNew.numbered

theorem NumberedFromOne.saveBlobLink (positive : NumberedFromOne s) (hash : String)
    (link : String × String) : NumberedFromOne (Store.saveBlobLink F hash s link) := by
  have ensured : NumberedFromOne (s.ensureBlob F link.2) := by
    rw [Store.ensureBlob]
    split
    · exact positive
    · intro row member
      rcases List.mem_append.mp member with old | isNew
      · exact positive row old
      · rw [List.mem_singleton.mp isNew]
        exact Nat.succ_pos _
  rw [Store.saveBlobLink, Store.blobLinksInsertOrIgnore]
  split <;> exact ensured

theorem NumberedFromOne.putBlock {found : Bool} {codec : Nat} {hash : String} {data : Data}
    (positive : NumberedFromOne s) (returns : (s.putBlock F 0 codec hash data).Returns (found, t)) :
    NumberedFromOne t := by
  rw [Store.putBlock] at returns
  split at returns
  · split at returns
    · cases Attempt.returns_pure.mp returns
      exact positive
    · split at returns
      · exact absurd returns Attempt.not_returns_throw
      · cases Attempt.returns_pure.mp returns
        intro row member
        rcases List.mem_append.mp member with old | isNew
        · exact positive row (List.mem_filter.mp old).1
        · rcases List.mem_map.mp isNew with ⟨_, -, rfl⟩
          exact Nat.succ_pos _
  · rw [if_pos rfl] at returns
    cases Attempt.returns_pure.mp returns
    intro row member
    rcases List.mem_append.mp member with old | isNew
    · exact positive row old
    · rw [List.mem_singleton.mp isNew]
      exact Nat.succ_pos _

theorem NumberedFromOne.accept (positive : NumberedFromOne s)
    (accepted : Hyper.accept F s arrival = some t) : NumberedFromOne t := by
  rcases put_of_returns (returns_of_accept accepted) with ⟨found, s₁, isPut⟩
  have stored := positive.putBlock isPut.stored
  cases skips : found || !isIndexable (F.cidCodec arrival.c) with
  | true => exact isPut.skipped skips ▸ stored
  | false =>
      rcases isPut.indexed skips with ⟨blob, -, indexed⟩
      apply kept_of_indexBlob NumberedFromOne _ _ indexed stored
      · intro s t blobs _ _ positive
        rw [NumberedFromOne, blobs]
        exact positive
      · exact fun s hash link positive => positive.saveBlobLink hash link

theorem advances_of_accept (accepted : Hyper.accept F s arrival = some t) :
    blobFeed.Advances s t :=
  (Progress.put (returns_of_accept accepted)).advances

end Numbers

/-! ## What the node has -/

section Invariant

variable {F : Formats Data} {T : TokenFormat Int} {st st' : SiteSync Data}
variable {row : BlobRow Data} {blobs : List ListedBlob} {n : Nat}

/-- The row as the site lists it. -/
def listedRow (F : Formats Data) (T : TokenFormat Int) (row : BlobRow Data) : ListedBlob :=
  ⟨F.newCidV1 row.codec row.multihash, T.encode row.id⟩

/-- The entries of the feed under which the rows are shown. -/
def feedEntries (rows : List (BlobRow Data)) : List (String × Nat) :=
  rows.map fun row => (row.multihash, row.id)

/-- The saved cursor covers what the node has, and it wants the rest in order. -/
structure KeepsUp (F : Formats Data) (T : TokenFormat Int) (st : SiteSync Data) : Prop where
  numbered : NumberedBlobs st.site
  positive : NumberedFromOne st.site
  saved : ∃ n : Nat, decodeCursor T st.cursor = .ok (n : Int) ∧
    blobFeed.Covers st.site (HasData st.node) n
  wanted : ∃ rows bound, st.want = rows.map (listedRow F T) ∧
    blobFeed.Wants st.site (HasData st.node) (feedEntries rows) bound

theorem decodeCursor_encode (n : Int) : decodeCursor T (T.encode n) = .ok n := by
  rw [decodeCursor, if_neg (T.encode_ne_empty n), T.decode_encode]
  exact rfl

theorem hasBlobData_iff (s : Store Data) (c : String) :
    s.hasBlobData F c = true ↔ HasData s (F.cidHash c) := by
  rw [Store.hasBlobData, Option.isSome_filter, Option.any_eq_true, HasData]
  simp only [decide_eq_true_eq]

/-- What the site lists behind a cursor that covers what the node has. -/
theorem listBlobs_eq (saved : decodeCursor T st.cursor = .ok (n : Int))
    (listed : listBlobs F T st.site st.cursor = .ok blobs) :
    (n = getMaxBlobID st.site ∧ blobs = []) ∨ ∃ c : Nat, c ≤ n ∧ (c = n ∨ c = 0) ∧
      blobs = (qListBlobs st.site c).map (listedRow F T) := by
  rw [listBlobs, saved] at listed
  simp only [bind, Except.bind] at listed
  split at listed
  · next isLast =>
      exact .inl ⟨Int.ofNat_inj.mp isLast, (Except.ok.inj listed).symm⟩
  · refine .inr ⟨if getMaxBlobID st.site < n then 0 else n, ?_, ?_, ?_⟩
    · split <;> omega
    · split <;> simp
    · rw [← Except.ok.inj listed]
      simp only [Int.ofNat_lt, Nat.cast_ite, Nat.cast_zero]
      exact rfl

/-- The rows behind a cursor come in the order of their numbers. -/
theorem sorted_qListBlobs (numbered : NumberedBlobs st.site) (c : Int) :
    (qListBlobs st.site c).Pairwise fun row later => row.id < later.id := by
  have apart : (st.site.blobs.filter fun row => isVisible st.site row &&
      decide (c < row.id)).Pairwise fun row later => row.id ≠ later.id :=
    (numbered.sorted.imp fun less => less.ne).filter _
  have ordered : (qListBlobs st.site c).Pairwise fun row later =>
      Behind false row.id later.id := orderBy_ordered apart
  exact ordered

/-- What a listing wants, the node does not have. -/
theorem KeepsUp.list (keepsUp : KeepsUp F T st) (stepped : st.step F T .list = some st') :
    KeepsUp F T st' := by
  rcases keepsUp.saved with ⟨n, saved, covers⟩
  rw [SiteSync.step] at stepped
  split at stepped
  · cases stepped
  · next blobs listed =>
      cases Option.some.inj stepped
      refine ⟨keepsUp.numbered, keepsUp.positive, ⟨n, saved, covers⟩, ?_⟩
      rcases listBlobs_eq saved listed with ⟨-, rfl⟩ | ⟨c, atMost, isStart, rfl⟩
      · exact ⟨[], n, rfl, covers.wants⟩
      · let keep : BlobRow Data → Bool := fun row =>
          !st.node.hasBlobData F (F.newCidV1 row.codec row.multihash)
        refine ⟨(qListBlobs st.site c).filter keep, st.site.seq, ?_, ?_⟩
        · exact List.filter_map
        · constructor
          · exact le_rfl
          · exact List.pairwise_map.mpr ((sorted_qListBlobs keepsUp.numbered c).filter keep)
          · intro entry member
            rcases List.mem_map.mp member with ⟨row, isRow, rfl⟩
            have inTable := (mem_qListBlobs.mp (List.mem_filter.mp isRow).1).1
            exact keepsUp.numbered.bounded row inTable
          · rintro hash number ⟨row, isRow, rfl, rfl, visible⟩ -
            by_cases has : HasData st.node row.multihash
            · exact .inl has
            · refine .inr (List.mem_map_of_mem (List.mem_filter.mpr ⟨?_, ?_⟩))
              · refine mem_qListBlobs.mpr ⟨isRow, visible, Int.ofNat_lt.mpr ?_⟩
                rcases isStart with rfl | rfl
                · by_contra behind
                  apply has
                  exact covers.has_shown _ _ ⟨row, isRow, rfl, rfl, visible⟩ (not_lt.mp behind)
                · exact keepsUp.positive row isRow
              · have absent : st.node.hasBlobData F
                    (F.newCidV1 row.codec row.multihash) = false := by
                  rw [← Bool.not_eq_true, hasBlobData_iff, F.cidHash_newCidV1]
                  exact has
                show (!st.node.hasBlobData F (F.newCidV1 row.codec row.multihash)) = true
                rw [absent]
                exact rfl

/-- Other blobs that arrive leave what the node has and what the site shows. -/
theorem KeepsUp.arrived (keepsUp : KeepsUp F T st) {site node : Store Data}
    (numbered : NumberedBlobs site) (positive : NumberedFromOne site)
    (advances : blobFeed.Advances st.site site)
    (keeps : ∀ hash, HasData st.node hash → HasData node hash) :
    KeepsUp F T { st with site := site, node := node } where
  numbered := numbered
  positive := positive
  saved := by
    rcases keepsUp.saved with ⟨n, saved, covers⟩
    exact ⟨n, saved, (covers.advances advances).mono keeps⟩
  wanted := by
    rcases keepsUp.wanted with ⟨rows, bound, want_eq, wants⟩
    exact ⟨rows, bound, want_eq, (wants.advances advances).mono keeps⟩

/-- A sync that ends wants nothing more. -/
theorem KeepsUp.ended (keepsUp : KeepsUp F T st) :
    KeepsUp F T { st with want := [] } := by
  rcases keepsUp.saved with ⟨n, saved, covers⟩
  exact { keepsUp with wanted := ⟨[], n, rfl, covers.wants⟩ }

/-- The cursor of a blob that has been put covers what the node has. -/
theorem KeepsUp.afterPut (keepsUp : KeepsUp F T st) {node : Store Data} {blob : ListedBlob}
    {rest : List ListedBlob} (want_eq : st.want = blob :: rest)
    (keeps : ∀ hash, HasData st.node hash → HasData node hash)
    (isThere : HasData node (F.cidHash blob.cid)) (saves : Bool) :
    KeepsUp F T (st.afterPut node blob rest saves) := by
  have kept := keepsUp.arrived keepsUp.numbered keepsUp.positive (.refl st.site) keeps
  rcases kept.wanted with ⟨rows, bound, wanted, wants⟩
  have isCons : rows.map (listedRow F T) = blob :: rest := wanted.symm.trans want_eq
  rcases List.map_eq_cons_iff.mp isCons with ⟨row, rows', rfl, rfl, rfl⟩
  have has : HasData node row.multihash := by
    have there := isThere
    rw [listedRow, F.cidHash_newCidV1] at there
    exact there
  have saved : ∃ n : Nat, decodeCursor T (listedRow F T row).cursor = .ok (n : Int) ∧
      blobFeed.Covers st.site (HasData node) n :=
    ⟨row.id, decodeCursor_encode _, wants.covers_head has⟩
  have tail : ∃ rows bound, rows'.map (listedRow F T) = rows.map (listedRow F T) ∧
      blobFeed.Wants st.site (HasData node) (feedEntries rows) bound :=
    ⟨rows', bound, rfl, wants.tail has⟩
  rw [SiteSync.afterPut]
  split
  · cases saves with
    | true => exact ⟨keepsUp.numbered, keepsUp.positive, saved, tail⟩
    | false => exact kept.ended
  · exact ⟨keepsUp.numbered, keepsUp.positive, kept.saved, tail⟩

theorem KeepsUp.step (keepsUp : KeepsUp F T st) {input : SiteSyncInput Data}
    (stepped : st.step F T input = some st') : KeepsUp F T st' := by
  cases input with
  | siteArrival arrival =>
      rcases Option.map_eq_some_iff.mp stepped with ⟨site, accepted, rfl⟩
      exact keepsUp.arrived (keepsUp.numbered.accept accepted)
        (keepsUp.positive.accept accepted) (advances_of_accept accepted) fun _ has => has
  | nodeArrival arrival =>
      rcases Option.map_eq_some_iff.mp stepped with ⟨node, accepted, rfl⟩
      exact keepsUp.arrived keepsUp.numbered keepsUp.positive (.refl st.site)
        (hasData_of_accept accepted).1
  | list => exact keepsUp.list stepped
  | pull order saves =>
      rw [SiteSync.step] at stepped
      split at stepped
      · cases stepped
      · next blob rest want_eq =>
          rcases Option.bind_eq_some_iff.mp stepped with ⟨arrival, pulled, put⟩
          rcases Option.bind_eq_some_iff.mp put with ⟨node, accepted, same⟩
          cases Option.some.inj same
          rcases Option.map_eq_some_iff.mp pulled with ⟨data, -, rfl⟩
          have has := hasData_of_accept accepted
          exact keepsUp.afterPut want_eq has.1 has.2 saves
  | fail =>
      cases Option.some.inj stepped
      exact keepsUp.ended

theorem KeepsUp.new : KeepsUp F T (SiteSync.new : SiteSync Data) where
  numbered := .empty
  positive := fun _ member => absurd member List.not_mem_nil
  saved := by
    refine ⟨0, if_pos rfl, Nat.zero_le _, ?_⟩
    rintro hash number ⟨row, isRow, -⟩
    exact absurd isRow List.not_mem_nil
  wanted := by
    refine ⟨[], 0, rfl, Nat.zero_le _, .nil, fun _ member => absurd member List.not_mem_nil, ?_⟩
    rintro hash number ⟨row, isRow, -⟩
    exact absurd isRow List.not_mem_nil

end Invariant

/-! ## What the node opens -/

section Versions

variable {F : Formats Data} {T : TokenFormat Int} {contents : HashContents Data}
variable {st st' : SiteSync Data} {s t : Store Data} {arrival : Arrival Data}
variable {order order' : RowOrder} {wall wall' : Nat → Int} {eid : String} {e : Entity}
variable {selected : StructuralBlobRow → Bool}

/-- The blob is what its multihash stands for, and it can be loaded if it is a change. -/
structure Admissible (F : Formats Data) (contents : HashContents Data) (s : Store Data)
    (arrival : Arrival Data) : Prop where
  loadable : RespectsLoading F s arrival
  named : Named F contents arrival

/-- The changes of the store are sound, and it has all that it has the data of. -/
structure HoldsContents (F : Formats Data) (contents : HashContents Data) (s : Store Data) :
    Prop where
  sound : ChangesSound F s
  catalogued : Catalogued F contents s

theorem HoldsContents.accept (holds : HoldsContents F contents s)
    (admissible : Admissible F contents s arrival)
    (accepted : Hyper.accept F s arrival = some t) : HoldsContents F contents t := by
  have sound := holds.sound.accept admissible.loadable accepted
  exact ⟨sound, holds.catalogued.accept sound admissible.named accepted⟩

end Versions

/-! ## A sample -/

end Mintter.Hyper
