import Mintter.Foundation.Reaches
import Mintter.Hyper.Indexed

/-!
# Accepted blobs

A store is reached by putting blobs, each of which is indexed when it arrives.
A blob that is not accepted leaves the store as it was.
-/

namespace Mintter.Hyper

open Mintter.Foundation
open Mintter.Crdt2

variable {Data : Type}

section Kinds

variable {F : Formats Data} {order : FieldOrder} {s t : Store Data} {c : String}
variable {toBlob : String → Prop} {toResource : ResourceLink → Prop}
variable {sb sb' : StructuralBlob}

/-! ## Comments -/

mutual

theorem Extended.indexCommentBlock
    (isLink : ∀ type, IsLinkType toBlob toResource ("comment/" ++ type))
    (block : CommentBlock) {sb sb' : StructuralBlob}
    (success : indexCommentBlock F sb block = .ok sb') :
    Extended toBlob toResource sb sb' := by
  rcases block with ⟨id, type, ref, annotations, children⟩
  rw [Hyper.indexCommentBlock] at success
  rcases except_bind_eq_ok.mp success with ⟨sb₁, first, success⟩
  rcases except_bind_eq_ok.mp success with ⟨sb₂, second, third⟩
  exact ((Extended.indexURL (isLink type) first).trans
    (Extended.indexAnnotations isLink second)).trans
    (Extended.indexCommentContent isLink children third)

theorem Extended.indexCommentContent
    (isLink : ∀ type, IsLinkType toBlob toResource ("comment/" ++ type))
    (blocks : List CommentBlock) {sb sb' : StructuralBlob}
    (success : indexCommentContent F sb blocks = .ok sb') :
    Extended toBlob toResource sb sb' := by
  rcases blocks with _ | ⟨block, rest⟩
  · rw [Hyper.indexCommentContent] at success
    exact Except.ok.inj success ▸ .refl sb
  · rw [Hyper.indexCommentContent] at success
    rcases except_bind_eq_ok.mp success with ⟨sb₁, first, others⟩
    exact (Extended.indexCommentBlock isLink block first).trans
      (Extended.indexCommentContent isLink rest others)

end

/-- What indexing a comment has checked and done. -/
structure IndexedComment (F : Formats Data) (s : Store Data) (c : String)
    (v : Comment) (author : Principal) (sb : StructuralBlob) (t : Store Data) :
    Prop where
  authored : (s.getAuthorFromDelegation F v.delegation).Returns author
  links : ∀ toBlob toResource,
    (∀ type, IsLinkType toBlob toResource ("comment/" ++ type)) →
    Extended toBlob toResource
      (newStructuralBlob "Comment" author v.hlcTime "" none none) sb
  saved : Saved F (F.cidHash c) sb s t

theorem indexedComment_of_returns {v : Comment}
    (returns : (indexComment F s c v).Returns t) :
    ∃ author sb, IndexedComment F s c v author sb t := by
  simp only [indexComment, Attempt.returns_bind,
    Attempt.returns_ofExcept] at returns
  rcases returns with ⟨-, -, -, -, -, -, ⟨⟩, -, author, authored, sb₁, target, sb,
    body, saved⟩
  refine ⟨author, sb, authored, fun toBlob toResource isLink => ?_,
    saved_of_saveBlob saved⟩
  have defined : ∀ sb : StructuralBlob, ∀ type target,
      Extended toBlob toResource sb
        (sb.addDefinedLink ("comment/" ++ type) target) := by
    intro sb type target
    rw [StructuralBlob.addDefinedLink]
    split
    · exact .addBlobLink sb (isLink type).1 target
    · exact .refl sb
  exact ((((Extended.indexURL (isLink "target") target).trans
    (defined _ "thread-root" _)).trans (defined _ "reply-to" _)).trans
      (.addBlobLink _ (isLink "auth").1 _)).trans
      (Extended.indexCommentContent isLink v.body body)

/-! ## Key delegations and nodes -/

/-- The structural blob of a key delegation. -/
def delegationBlob (F : Formats Data) (v : KeyDelegation) : StructuralBlob :=
  (newStructuralBlob "KeyDelegation" v.issuer (wrap64 (v.issueTime * 10 ^ 6))
    (F.accountIRI v.issuer) (some v.issuer) none).addResourceLink "kd/issuer"
      (F.accountIRI v.issuer) false .none

/-- What indexing a key delegation has done. -/
structure IndexedDelegation (F : Formats Data) (s : Store Data) (c : String)
    (v : KeyDelegation) (t : Store Data) : Prop where
  nonempty : v.issuer ≠ [] ∧ v.delegate ≠ []
  saved : Saved F (F.cidHash c) (delegationBlob F v)
    (s.keyDelegationsInsertOrIgnore ⟨F.cidHash c, v.issuer, v.delegate⟩) t

theorem indexedDelegation_of_returns {v : KeyDelegation}
    (returns : (indexKeyDelegation F s c v).Returns t) :
    IndexedDelegation F s c v t := by
  simp only [indexKeyDelegation, Attempt.returns_bind,
    Principal.returns_unsafeString] at returns
  rcases returns with ⟨-, -, -, -, -, -, -, issuer, -, delegate, saved⟩
  exact ⟨⟨issuer, delegate⟩, saved_of_saveBlob saved⟩

/-- The structural blob of a node. -/
def dagPBBlob (links : List PBLink) : StructuralBlob :=
  links.foldl (fun sb link => sb.addBlobLink (pbLinkType link) link.hash)
    (newSimpleStructuralBlob "DagPB")

theorem extended_dagPBBlob (links : List PBLink) :
    Extended (fun type => ∃ link, type = pbLinkType link) (fun _ => False)
      (newSimpleStructuralBlob "DagPB") (dagPBBlob links) :=
  .foldl (fun sb link => .addBlobLink sb ⟨link, rfl⟩ link.hash) links _

/-- What indexing a blob has checked and done. -/
def IndexedBlob (F : Formats Data) (order : FieldOrder) (s : Store Data)
    (c : String) (t : Store Data) : DecodedBlob → Prop
  | .dagPB links => Saved F (F.cidHash c) (dagPBBlob links) s t
  | .keyDelegation kd => IndexedDelegation F s c kd t
  | .change ch => ∃ author sb s₁, IndexedChange F order s c ch author sb s₁ t
  | .comment cm => ∃ author sb, IndexedComment F s c cm author sb t

theorem indexedBlob_of_returns {blob : DecodedBlob}
    (returns : (indexBlob F order s c blob).Returns t) :
    IndexedBlob F order s c t blob := by
  cases blob with
  | dagPB links => exact saved_of_saveBlob returns
  | keyDelegation kd => exact indexedDelegation_of_returns returns
  | change ch => exact indexedChange_of_returns returns
  | comment cm => exact indexedComment_of_returns returns

end Kinds

/-! ## Putting blobs -/

section Put

variable {F : Formats Data} {s t : Store Data} {hash : String} {codec : Nat}
variable {data : Data}

/-- Only blobs change, and the data that was there stays. -/
structure Received (s t : Store Data) : Prop where
  same : SameDerived s t
  resources : t.resources = s.resources
  drafts : t.drafts = s.drafts
  deleted : t.deletedResources = s.deletedResources
  blobRow : ∀ hash row, s.blobRow hash = some row → 0 ≤ row.size →
    t.blobRow hash = some row

theorem Received.refl (s : Store Data) : Received s s :=
  ⟨.refl s, rfl, rfl, rfl, fun _ _ found _ => found⟩

theorem Received.owner (received : Received s t) (iri : String) :
    t.owner iri = s.owner iri := by
  rw [Store.owner, Store.resourceRow, received.resources]
  rfl

theorem Store.blobRow_renumber {change : BlobRow Data → BlobRow Data}
    (keeps : ∀ row, (change row).multihash = row.multihash) (hash' : String) :
    (s.renumber hash change).blobRow hash' =
      if hash = hash' then
        (s.blobRow hash').map fun row => { change row with id := s.seq + 1 }
      else s.blobRow hash' := by
  rw [Store.renumber, Store.blobRow, List.find?_append, List.find?_filter,
    List.find?_map, List.find?_filter, Store.blobRow]
  simp only [Function.comp_def, keeps]
  by_cases same : hash = hash'
  · subst same
    have noOther : s.blobs.find? (fun row =>
        decide (decide (row.multihash ≠ hash) = true ∧
          (row.multihash == hash) = true)) = none := by
      apply List.find?_eq_none.mpr
      intro row _
      simp
    rw [noOther, if_pos rfl, Option.none_or]
    congr 1
    congr 1
    funext row
    by_cases same : row.multihash = hash <;> simp [same]
  · have noRow : s.blobs.find? (fun row =>
        decide (decide (row.multihash = hash) = true ∧
          (row.multihash == hash') = true)) = none := by
      apply List.find?_eq_none.mpr
      intro row _
      simp only [decide_eq_true_eq, beq_iff_eq, not_and]
      rintro rfl
      exact same
    rw [noRow, if_neg same, Option.map_none, Option.or_none]
    congr 1
    funext row
    by_cases same' : row.multihash = hash' <;>
      simp [same', Ne.symm same]

theorem Store.blobRow_blobsUpdateMissingData (hash' : String) :
    (s.blobsUpdateMissingData F hash data).blobRow hash' =
      if hash = hash' then
        (s.blobRow hash').map fun row => { row with
          id := s.seq + 1, data := some data, size := F.size data }
      else s.blobRow hash' :=
  blobRow_renumber (by exact fun _ => rfl) hash'

/-- What putting a block does: a block that was there is left as it is. -/
structure PutBlock (F : Formats Data) (s : Store Data) (codec : Nat)
    (hash : String) (data : Data) (found : Bool) (t : Store Data) : Prop where
  received : Received s t
  old : found = true → t = s
  new : found = false → ∃ row, t.blobRow hash = some row ∧
    row.data = some data ∧ row.size = F.size data ∧
    (row.codec = codec ∨
      ∃ old, s.blobRow hash = some old ∧ old.size < 0 ∧ row.codec = old.codec)

theorem putBlock_of_returns {found : Bool}
    (returns : (s.putBlock F 0 codec hash data).Returns (found, t)) :
    PutBlock F s codec hash data found t := by
  rw [Store.putBlock] at returns
  split at returns
  · next row isRow =>
      split at returns
      · cases Attempt.returns_pure.mp returns
        exact ⟨.refl s, fun _ => rfl, nofun⟩
      · next missing =>
          split at returns
          · exact absurd returns Attempt.not_returns_throw
          · cases Attempt.returns_pure.mp returns
            refine ⟨⟨⟨rfl, rfl, rfl, rfl, rfl⟩, rfl, rfl, rfl, ?_⟩, nofun,
              fun _ => ?_⟩
            · intro hash' row' found there
              rw [Store.blobRow_blobsUpdateMissingData]
              split
              · next same =>
                  rw [← same, isRow] at found
                  rw [Option.some.inj found] at missing
                  exact absurd there missing
              · exact found
            · rw [Store.blobRow_blobsUpdateMissingData, if_pos rfl, isRow]
              refine ⟨_, rfl, rfl, rfl, .inr ⟨row, rfl, not_le.mp missing, rfl⟩⟩
  · next absent =>
      rw [if_pos rfl] at returns
      cases Attempt.returns_pure.mp returns
      refine ⟨⟨⟨rfl, rfl, rfl, rfl, rfl⟩, rfl, rfl, rfl, ?_⟩, nofun, ?_⟩
      · intro hash' row isRow _
        rw [Store.blobRow_blobsInsert, isRow, Option.some_or]
      · refine fun _ => ⟨⟨s.seq + 1, hash, codec, some data, F.size data⟩, ?_,
          rfl, rfl, .inl rfl⟩
        rw [Store.blobRow_blobsInsert, absent, Option.none_or, if_pos rfl]

/-- What putting a blob has checked and done. -/
structure Put (F : Formats Data) (order : FieldOrder) (s : Store Data)
    (c : String) (data : Data) (found : Bool) (s₁ t : Store Data) : Prop where
  stored : (s.putBlock F 0 (F.cidCodec c) (F.cidHash c) data).Returns (found, s₁)
  indexed : (found || !isIndexable (F.cidCodec c)) = false →
    ∃ blob, F.decodeBlob (F.cidCodec c) data = .ok blob ∧
      (indexBlob F order s₁ c blob).Returns t
  skipped : (found || !isIndexable (F.cidCodec c)) = true → t = s₁

theorem Put.block {order : FieldOrder} {c : String} {found : Bool}
    {s₁ : Store Data} (isPut : Put F order s c data found s₁ t) :
    PutBlock F s (F.cidCodec c) (F.cidHash c) data found s₁ :=
  putBlock_of_returns isPut.stored

theorem put_of_returns {order : FieldOrder} {c : String}
    (returns : (put F order s c data).Returns t) :
    ∃ found s₁, Put F order s c data found s₁ t := by
  rw [put, Attempt.returns_bind] at returns
  rcases returns with ⟨⟨found, s₁⟩, block, returns⟩
  refine ⟨found, s₁, block, fun indexes => ?_, fun skips => ?_⟩
  · simp only [indexPut, indexes, Bool.false_eq_true, if_false,
      Attempt.returns_bind, Attempt.returns_ofExcept] at returns
    exact returns
  · simp only [indexPut, skips, if_true, Attempt.returns_pure] at returns
    exact returns.symm

end Put

/-! ## Runs -/

/-- A blob that arrives, and the order in which its maps are visited. -/
structure Arrival (Data : Type) where
  order : FieldOrder
  c : String
  data : Data

/-- The store after a blob that is accepted. -/
def accept (F : Formats Data) (s : Store Data) (arrival : Arrival Data) :
    Option (Store Data) :=
  match (put F arrival.order s arrival.c arrival.data).run with
  | .ok (.ok t) => some t
  | _ => none

theorem returns_of_accept {F : Formats Data} {s t : Store Data}
    {arrival : Arrival Data} (accepted : accept F s arrival = some t) :
    (put F arrival.order s arrival.c arrival.data).Returns t := by
  rw [accept] at accepted
  split at accepted
  · next t' isOk =>
      rw [Attempt.Returns, isOk, Option.some.inj accepted]
  · cases accepted

/-- A blob arrives that was not there: the store with it, and what it holds. -/
structure Arrives (F : Formats Data) (s : Store Data) (arrival : Arrival Data)
    (s₁ : Store Data) (blob : DecodedBlob) : Prop where
  stored : (s.putBlock F 0 (F.cidCodec arrival.c) (F.cidHash arrival.c)
    arrival.data).Returns (false, s₁)
  decoded : F.decodeBlob (F.cidCodec arrival.c) arrival.data = .ok blob

section Runs

variable {F : Formats Data} {s s₁ t : Store Data} {arrival : Arrival Data}
variable {blob : DecodedBlob}

theorem Arrives.received (arrives : Arrives F s arrival s₁ blob) : Received s s₁ :=
  (putBlock_of_returns arrives.stored).received

/-- A blob without a row arrives. -/
theorem arrives_of_absent
    (absent : (s.blobRow (F.cidHash arrival.c)).isNone = true)
    (decoded : F.decodeBlob (F.cidCodec arrival.c) arrival.data = .ok blob) :
    Arrives F s arrival (s.blobsInsert (F.cidHash arrival.c)
      (F.cidCodec arrival.c) (some arrival.data) (F.size arrival.data)) blob where
  stored := by
    rw [Store.putBlock, Option.isNone_iff_eq_none.mp absent]
    exact Attempt.returns_pure.mpr rfl
  decoded := decoded

/-- Only two codecs are decoded. -/
theorem isIndexable_of_decodeBlob {codec : Nat} {data : Data}
    (decoded : F.decodeBlob codec data = .ok blob) : isIndexable codec = true := by
  rw [Formats.decodeBlob] at decoded
  split at decoded
  · next isPb => rw [isPb]; decide
  · split at decoded
    · next isCbor => rw [isCbor]; decide
    · cases decoded

/-- What is no node is encoded in CBOR. -/
theorem decodeBlob_dagCbor {codec : Nat} {data : Data}
    (decoded : F.decodeBlob codec data = .ok blob)
    (notNode : ∀ links, blob ≠ .dagPB links) :
    F.decodeBlob dagCbor data = .ok blob := by
  by_cases isPb : codec = dagPb
  · rw [Formats.decodeBlob, if_pos isPb] at decoded
    cases nodes : F.decodePBNode data with
    | error err => simp [nodes, Except.map] at decoded
    | ok links =>
        rw [nodes] at decoded
        exact absurd (Except.ok.inj decoded).symm (notNode links)
  · by_cases isCbor : codec = dagCbor
    · exact isCbor ▸ decoded
    · rw [Formats.decodeBlob, if_neg isPb, if_neg isCbor] at decoded
      cases decoded

/-- Data that is there stays there. -/
theorem Received.getBlock (received : Received s t) {hash : String} {data : Data}
    (there : (s.getBlock hash).Returns data) : (t.getBlock hash).Returns data := by
  rw [Store.returns_getBlock] at there ⊢
  rcases there with ⟨row, found, nonneg, isData⟩
  exact ⟨row, received.blobRow hash row found nonneg, nonneg, isData⟩

theorem Grows.getBlock (grows : Grows s t) {hash : String} {data : Data}
    (there : (s.getBlock hash).Returns data) : (t.getBlock hash).Returns data := by
  rw [Store.returns_getBlock] at there ⊢
  rcases there with ⟨row, found, nonneg, isData⟩
  exact ⟨row, grows.blobRow found, nonneg, isData⟩

/-- The data of a blob that arrives is there. -/
theorem Arrives.getBlock (arrives : Arrives F s arrival s₁ blob) :
    (s₁.getBlock (F.cidHash arrival.c)).Returns arrival.data := by
  rcases (putBlock_of_returns arrives.stored).new rfl with
    ⟨row, found, isData, isSize, -⟩
  rw [Store.returns_getBlock]
  exact ⟨row, found, by rw [isSize]; exact Int.natCast_nonneg _, isData⟩

/-- An accepted blob only changes the blobs, or it arrives and is indexed. -/
theorem accept_cases (accepted : accept F s arrival = some t) :
    Received s t ∨ ∃ s₁ blob, Arrives F s arrival s₁ blob ∧
      (indexBlob F arrival.order s₁ arrival.c blob).Returns t := by
  rcases put_of_returns (returns_of_accept accepted) with ⟨found, s₁, isPut⟩
  cases skips : found || !isIndexable (F.cidCodec arrival.c) with
  | true =>
      rw [isPut.skipped skips]
      exact .inl isPut.block.received
  | false =>
      rcases isPut.indexed skips with ⟨blob, decoded, indexed⟩
      rcases (Bool.or_eq_false_iff.mp skips).1 with rfl
      exact .inr ⟨s₁, blob, ⟨isPut.stored, decoded⟩, indexed⟩

theorem Arrives.indexed (arrives : Arrives F s arrival s₁ blob)
    (accepted : accept F s arrival = some t) :
    (indexBlob F arrival.order s₁ arrival.c blob).Returns t := by
  rcases put_of_returns (returns_of_accept accepted) with ⟨found, s₂, isPut⟩
  cases isPut.stored.unique arrives.stored
  have indexes : (false || !isIndexable (F.cidCodec arrival.c)) = false := by
    rw [isIndexable_of_decodeBlob arrives.decoded]
    rfl
  rcases isPut.indexed indexes with ⟨blob', decoded, indexed⟩
  cases decoded.symm.trans arrives.decoded
  exact indexed

theorem grows_of_indexedBlob {order : FieldOrder} {c : String}
    (indexed : IndexedBlob F order s c t blob) : Grows s t := by
  cases blob with
  | dagPB links => exact indexed.grows
  | keyDelegation kd =>
      refine Grows.trans ?_ indexed.saved.grows
      rw [Store.keyDelegationsInsertOrIgnore]
      split
      · exact .refl s
      · exact .of_same rfl rfl rfl rfl rfl
  | change v =>
      rcases indexed with ⟨author, sb, s₁, isChange⟩
      exact (entityIndexed_of_returns entityLinks_true isChange.entity).1.grows.trans
        isChange.saved.grows
  | comment cm =>
      rcases indexed with ⟨author, sb, isComment⟩
      exact isComment.saved.grows

/-- The data of an accepted blob that arrives is there afterwards. -/
theorem Arrives.getBlock_of_accept (arrives : Arrives F s arrival s₁ blob)
    (accepted : accept F s arrival = some t) :
    (t.getBlock (F.cidHash arrival.c)).Returns arrival.data :=
  (grows_of_indexedBlob (indexedBlob_of_returns
    (arrives.indexed accepted))).getBlock arrives.getBlock

end Runs

end Mintter.Hyper
