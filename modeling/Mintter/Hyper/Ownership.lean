import Mintter.Hyper.Membership

/-!
# Owners of resources

The owner of a resource is the first account that is recorded for it.  For an
account it is the account itself, and for a document or a group the account whose
change proves the identifier, as long as no other change comes first.
-/

namespace Mintter.Hyper

open Mintter.Foundation
open Mintter.Crdt2

variable {Data : Type}

/-- The identifier of a document. -/
def IsDocument (iri : String) : Prop := hasPrefix iri "hm://d/" = true

instance (iri : String) : Decidable (IsDocument iri) :=
  inferInstanceAs (Decidable (hasPrefix iri "hm://d/" = true))

section Invariant

variable {F : Formats Data} {s s₁ t : Store Data} {iri hash : String}
variable {owner author : Principal}

/-- An accepted change of this owner proves the identifier of the entity. -/
def CreatedBy (F : Formats Data) (s : Store Data) (iri : String)
    (owner : Principal) : Prop :=
  ∃ row ∈ s.structuralBlobs, row.type = "Change" ∧ row.author = some owner ∧
    row.resource = some iri ∧ ∃ data v nonce createTime,
      (s.getBlock row.blob).Returns data ∧
      F.decodeBlob dagCbor data = .ok (.change v) ∧
      v.action = actionCreate ∧ v.entity = iri ∧
      Object.get v.patch "nonce" = some (.bytes nonce) ∧
      Object.get v.patch "createTime" = some (.int createTime) ∧
      iri = F.newUnforgeableID (String.ofList (takeBytes idPrefixLen iri.toList))
        owner nonce createTime

/-- Nobody owns what belongs to another account. -/
structure OwnersSound (F : Formats Data) (s : Store Data) : Prop where
  account : ∀ key, key ≠ [] → ∀ owner,
    s.owner (F.accountIRI key) = some owner → owner = key
  entity : ∀ iri, IsDocument iri ∨ IsGroup iri → ∀ owner,
    s.owner iri = some owner → CreatedBy F s iri owner

theorem OwnersSound.empty : OwnersSound F (Store.empty : Store Data) where
  account := fun _ _ _ isOwner => nomatch isOwner
  entity := fun _ _ _ isOwner => nomatch isOwner

theorem CreatedBy.mono (created : CreatedBy F s iri owner)
    (rows : ∀ row ∈ s.structuralBlobs, row ∈ t.structuralBlobs)
    (blocks : ∀ hash data, (s.getBlock hash).Returns data →
      (t.getBlock hash).Returns data) : CreatedBy F t iri owner := by
  rcases created with ⟨row, isRow, isChange, isAuthor, isResource, data, v, nonce,
    createTime, there, proof⟩
  exact ⟨row, rows row isRow, isChange, isAuthor, isResource, data, v, nonce,
    createTime, blocks _ data there, proof⟩

/-- No account is a document or a group. -/
theorem not_isEntity_accountIRI (key : Principal) :
    ¬ (IsDocument (F.accountIRI key) ∨ IsGroup (F.accountIRI key)) := by
  have isAccount : hasPrefix (F.accountIRI key) "hm://a/" = true := by
    rw [hasPrefix, List.isPrefixOf_iff_prefix, Formats.accountIRI,
      String.toList_append]
    exact List.prefix_append ..
  rintro (isDocument | isGroup)
  · exact absurd (eq_of_hasPrefix isAccount isDocument (by decide)) (by decide)
  · exact not_isGroup_accountIRI key isGroup

/-- An owner that is new is the account of the resource, or created the entity. -/
theorem OwnersSound.step (sound : OwnersSound F s)
    (rows : ∀ row ∈ s.structuralBlobs, row ∈ t.structuralBlobs)
    (blocks : ∀ hash data, (s.getBlock hash).Returns data →
      (t.getBlock hash).Returns data)
    (new : ∀ iri owner, t.owner iri = some owner → s.owner iri = some owner ∨
      owner ≠ [] ∧ iri = F.accountIRI owner ∨
      (∀ key, key ≠ [] → iri = F.accountIRI key → owner = key) ∧
        (IsDocument iri ∨ IsGroup iri → CreatedBy F t iri owner)) :
    OwnersSound F t where
  account := fun key nonempty owner isOwner => by
    rcases new _ owner isOwner with old | ⟨nonempty', isAccount⟩ | ⟨isKey, -⟩
    · exact sound.account key nonempty owner old
    · exact (accountIRI_inj nonempty nonempty' isAccount).symm
    · exact isKey key nonempty rfl
  entity := fun iri isEntity owner isOwner => by
    rcases new _ owner isOwner with old | ⟨-, rfl⟩ | ⟨-, created⟩
    · exact (sound.entity iri isEntity owner old).mono rows blocks
    · exact absurd isEntity (not_isEntity_accountIRI owner)
    · exact created isEntity

/-- The owners after a structural blob has been stored. -/
theorem Saved.owner_cases {b : StructuralBlob} (saved : Saved F hash b s t)
    (isOwner : t.owner iri = some owner) :
    s.owner iri = some owner ∨
      b.author = some owner ∧ iri = F.accountIRI owner ∨
      s.owner iri = none ∧ iri = b.resource ∧ b.resourceOwner = some owner := by
  rw [saved.owner_eq, Option.or_assoc, Option.or_eq_some_iff,
    Option.or_eq_some_iff] at isOwner
  rcases isOwner with old | ⟨missing, isAuthor | ⟨-, isResourceOwner⟩⟩
  · exact .inl old
  · split at isAuthor
    · next isAccount =>
        rw [isAuthor, Option.map_some, Option.some.injEq] at isAccount
        exact .inr (.inl ⟨isAuthor, isAccount.symm⟩)
    · cases isAuthor
  · split at isResourceOwner
    · next isResource => exact .inr (.inr ⟨missing, isResource.2.symm, isResourceOwner⟩)
    · cases isResourceOwner

/-- The tables that ownership depends on grow when a structural blob is stored. -/
theorem OwnersSound.saved {b : StructuralBlob} (sound : OwnersSound F s)
    (saved : Saved F hash b s t) (nonempty : ∀ key, b.author = some key → key ≠ [])
    (resource : ∀ owner, s.owner b.resource = none →
      b.resourceOwner = some owner →
      (∀ key, key ≠ [] → b.resource = F.accountIRI key → owner = key) ∧
        (IsDocument b.resource ∨ IsGroup b.resource →
          CreatedBy F t b.resource owner)) : OwnersSound F t := by
  apply sound.step
  · intro row isRow
    rw [saved.structuralBlobs]
    exact List.mem_append_left _ isRow
  · exact fun _ _ there => saved.grows.getBlock there
  · intro iri owner isOwner
    rcases saved.owner_cases isOwner with old | ⟨isAuthor, isAccount⟩ |
      ⟨missing, rfl, isResourceOwner⟩
    · exact .inl old
    · exact .inr (.inl ⟨nonempty owner isAuthor, isAccount⟩)
    · exact .inr (.inr (resource owner missing isResourceOwner))

theorem OwnersSound.received (sound : OwnersSound F s) (received : Received s t) :
    OwnersSound F t := by
  apply sound.step
  · rw [received.same.structuralBlobs]
    exact fun _ isRow => isRow
  · exact fun _ _ there => received.getBlock there
  · intro iri owner isOwner
    rw [received.owner] at isOwner
    exact .inl isOwner

theorem OwnersSound.ensured (sound : OwnersSound F s) (ensured : Ensured F s t) :
    OwnersSound F t := by
  apply sound.step
  · rw [ensured.structuralBlobs]
    exact fun _ isRow => isRow
  · exact fun _ _ there => ensured.grows.getBlock there
  · intro iri owner isOwner
    rcases ensured.owner iri owner isOwner with old | account
    · exact .inl old
    · exact .inr (.inl account)

end Invariant

section Changes

variable {F : Formats Data} {order : FieldOrder} {s s₁ t : Store Data}
variable {c : String} {v : Change} {author : Principal} {sb : StructuralBlob}

/-- A document or a group is a resource. -/
theorem hasPrefix_of_isEntity {iri : String} (isEntity : IsDocument iri ∨ IsGroup iri) :
    hasPrefix iri "hm://" = true := by
  rw [hasPrefix, List.isPrefixOf_iff_prefix]
  rcases isEntity with isDocument | isGroup
  · rw [IsDocument, hasPrefix, List.isPrefixOf_iff_prefix] at isDocument
    have longer : "hm://".toList <+: "hm://d/".toList := by decide
    exact longer.trans isDocument
  · rw [IsGroup, hasPrefix, List.isPrefixOf_iff_prefix] at isGroup
    have longer : "hm://".toList <+: "hm://g/".toList := by decide
    exact longer.trans isGroup

/-- A valid change that creates an entity proves its identifier. -/
theorem proof_of_validateChange (isHM : hasPrefix v.entity "hm://" = true)
    (create : v.action = actionCreate)
    (valid : (validateChange F c v author).Returns ()) :
    ∃ nonce createTime, Object.get v.patch "nonce" = some (.bytes nonce) ∧
      Object.get v.patch "createTime" = some (.int createTime) ∧
      v.entity = F.newUnforgeableID
        (String.ofList (takeBytes idPrefixLen v.entity.toList)) author nonce
        createTime := by
  have named : (actionCreate == "") = false := by decide
  rw [validateChange] at valid
  simp only [isHM, create, named, beq_self_eq_true, Bool.and_false, Bool.and_true,
    Bool.false_and, Bool.false_eq_true, if_false, if_true] at valid
  rw [validateCreate] at valid
  split at valid
  · next nonce isNonce =>
      split at valid
      · next createTime isTime =>
          split at valid
          · next ownerField isOwner =>
              simp only [Attempt.returns_bind, Attempt.returns_check,
                not_not] at valid
              rcases valid with ⟨-, rfl, verified⟩
              refine ⟨nonce, createTime, isNonce, isTime, ?_⟩
              rw [Formats.verifyUnforgeableID] at verified
              split at verified
              · exact absurd verified Attempt.not_returns_abort
              · rw [Attempt.returns_check, not_not] at verified
                exact verified.symm
          · exact absurd valid Attempt.not_returns_throw
      · exact absurd valid Attempt.not_returns_throw
  · exact absurd valid Attempt.not_returns_throw

/-- A change does not become the first one of what is not its author's. -/
structure ChangeOwns (F : Formats Data) (s : Store Data) (v : Change)
    (author : Principal) : Prop where
  account : ∀ key, key ≠ [] → v.entity = F.accountIRI key →
    (s.owner v.entity).isSome ∨ author = key
  entity : IsDocument v.entity ∨ IsGroup v.entity →
    (s.owner v.entity).isSome ∨ v.action = actionCreate

theorem OwnersSound.indexedChange {data : Data} (sound : OwnersSound F s)
    (indexed : IndexedChange F order s c v author sb s₁ t)
    (there : (s.getBlock (F.cidHash c)).Returns data)
    (decoded : F.decodeBlob dagCbor data = .ok (.change v))
    (owns : ChangeOwns F s v author) : OwnersSound F t := by
  rcases entityIndexed_of_returns entityLinks_true indexed.entity with
    ⟨ensured, extended, -⟩
  have isAuthor : sb.author = some author := extended.author
  have isResource : sb.resource = v.entity := extended.resource
  have isResourceOwner : sb.resourceOwner = some author := extended.resourceOwner
  have isChange : sb.type = "Change" := extended.type
  apply (sound.ensured ensured).saved indexed.saved
  · intro key isKey
    cases isAuthor.symm.trans isKey
    exact author_ne_nil indexed.authored
  · intro owner missing isOwner
    cases isResourceOwner.symm.trans isOwner
    rw [isResource] at missing ⊢
    have unowned : ¬ (s.owner v.entity).isSome = true := by
      intro recorded
      rcases Option.isSome_iff_exists.mp recorded with ⟨key, isKey⟩
      rw [ensured.grows.owner isKey] at missing
      cases missing
    refine ⟨fun key nonempty isAccount =>
      (owns.account key nonempty isAccount).resolve_left unowned, fun isEntity => ?_⟩
    have create := (owns.entity isEntity).resolve_left unowned
    have isHM := hasPrefix_of_isEntity isEntity
    rcases proof_of_validateChange isHM create indexed.valid with
      ⟨nonce, createTime, isNonce, isTime, isProof⟩
    have named : sb.resource ≠ "" := by
      intro isEmpty
      rw [← isResource, isEmpty] at isHM
      exact absurd isHM (by decide)
    refine ⟨Store.structuralRow (F.cidHash c) sb, ?_, isChange, isAuthor, ?_, data, v,
      nonce, createTime, ?_, decoded, create, rfl, isNonce, isTime, isProof⟩
    · rw [indexed.saved.structuralBlobs]
      exact List.mem_append_right _ (List.mem_singleton_self _)
    · rw [Store.structuralRow, if_neg named, isResource]
    · exact indexed.saved.grows.getBlock (ensured.grows.getBlock there)

end Changes

section Runs

variable {F : Formats Data} {s s₁ t : Store Data} {arrival : Arrival Data}

/-- A change that arrives does not take what is not its author's. -/
def RespectsOwners (F : Formats Data) (s : Store Data) (arrival : Arrival Data) :
    Prop :=
  ∀ s₁ v author, Arrives F s arrival s₁ (.change v) →
    (s₁.getAuthorFromDelegation F v.delegation).Returns author →
    ChangeOwns F s v author

/-- A key delegation records the issuer as the owner of its account. -/
theorem OwnersSound.indexedDelegation {c : String} {v : KeyDelegation}
    (sound : OwnersSound F s) (indexed : IndexedDelegation F s c v t) :
    OwnersSound F t := by
  have inserted : ∀ row, OwnersSound F (s.keyDelegationsInsertOrIgnore row) := by
    intro row
    rw [Store.keyDelegationsInsertOrIgnore]
    split
    · exact sound
    · exact ⟨sound.account, sound.entity⟩
  apply (inserted _).saved indexed.saved
  · rintro key isAuthor
    cases isAuthor
    exact indexed.nonempty.1
  · rintro owner - isOwner
    cases isOwner
    exact ⟨fun key nonempty isAccount =>
      accountIRI_inj indexed.nonempty.1 nonempty isAccount,
      fun isEntity => absurd isEntity (not_isEntity_accountIRI v.issuer)⟩

/-- A comment names no owner but its author. -/
theorem OwnersSound.indexedComment {c : String} {v : Comment}
    {author : Principal} {sb : StructuralBlob} (sound : OwnersSound F s)
    (indexed : IndexedComment F s c v author sb t) : OwnersSound F t := by
  have extended := indexed.links (fun _ => True) (fun _ => True)
    (fun _ => ⟨trivial, fun _ _ _ => trivial⟩)
  apply sound.saved indexed.saved
  · intro key isAuthor
    cases extended.author.symm.trans isAuthor
    exact author_ne_nil indexed.authored
  · intro owner _ isOwner
    cases extended.resourceOwner.symm.trans isOwner

/-- Whatever is accepted keeps the owners in order. -/
theorem OwnersSound.accept (sound : OwnersSound F s)
    (respects : RespectsOwners F s arrival)
    (accepted : Hyper.accept F s arrival = some t) : OwnersSound F t := by
  rcases accept_cases accepted with received | ⟨s₁, blob, arrives, indexed⟩
  · exact sound.received received
  · have sound₁ := sound.received arrives.received
    have isIndexed := indexedBlob_of_returns indexed
    cases blob with
    | dagPB links =>
        have extended := extended_dagPBBlob links
        apply sound₁.saved isIndexed
        · intro key isAuthor
          cases extended.author.symm.trans isAuthor
        · intro owner _ isOwner
          cases extended.resourceOwner.symm.trans isOwner
    | keyDelegation kd => exact sound₁.indexedDelegation isIndexed
    | change v =>
        rcases isIndexed with ⟨author, sb, s₂, isChange⟩
        have owns := respects s₁ v author arrives isChange.authored
        apply sound₁.indexedChange isChange arrives.getBlock
          (decodeBlob_dagCbor arrives.decoded nofun)
        have same := arrives.received.owner v.entity
        exact ⟨same ▸ owns.account, same ▸ owns.entity⟩
    | comment cm =>
        rcases isIndexed with ⟨author, sb, isComment⟩
        exact sound₁.indexedComment isComment

/-- In a run that respects the owners, ownership is not forged. -/
theorem owners_are_unforgeable
    (run : Reaches (accept F) (RespectsOwners F) .empty s) : OwnersSound F s :=
  run.invariant (fun _ _ _ sound respects accepted =>
    sound.accept respects accepted) .empty

/-- What is no change respects the owners. -/
theorem respectsOwners_of_not_change
    (other : ∀ v, F.decodeBlob (F.cidCodec arrival.c) arrival.data ≠
      .ok (.change v)) : RespectsOwners F s arrival :=
  fun _ v _ arrives => absurd arrives.decoded (other v)

end Runs

theorem owners_are_unforgeable_createArrival :
    ∃ s t, sampleRun deviceArrivals = some s ∧
      accept (sampleFormats sampleSha256) s createArrival = some t ∧
      OwnersSound (sampleFormats sampleSha256) t := by
  refine ⟨_, _, sampleRun_deviceArrivals, accept_createArrival,
    owners_are_unforgeable
      (reaches_groupStore (allPermitted_of_forall ?_) ?_)⟩
  · intro arrival isDevice state
    apply respectsOwners_of_not_change
    rcases List.mem_pair.mp isDevice with rfl | rfl <;> nofun
  · intro _ v author arrives _
    cases arrives.decoded
    refine ⟨fun key _ isAccount => ?_, fun _ => .inr rfl⟩
    have isGroup : IsGroup sampleCreate.entity := by decide
    exact absurd (isAccount ▸ isGroup) (not_isGroup_accountIRI key)

/-! ## The first change -/

/-- The second account updates a document that only the first one can create. -/
def squatArrival : Arrival DecodedBlob :=
  ⟨.listed, "csquat", .change
    { deps := ["cdelegation2"], delegation := "cdelegation2", action := "Update"
      hlcTime := 1700000002000000, entity := "hm://d/ThnwfhnyChYhvWiv7CLe2B"
      patch := [("title", .string "Title")], signer := samplePrincipal 12
      sig := "signature" }⟩

/-- None of the changes of a store creates an entity. -/
def noCreate (F : Formats Data) (s : Store Data) : Bool :=
  s.structuralBlobs.all fun row =>
    match (s.blobRow row.blob).bind (·.data) with
    | none => true
    | some data =>
        match F.decodeBlob dagCbor data with
        | .ok (.change v) => v.action != actionCreate
        | _ => true

theorem not_createdBy_of_noCreate {F : Formats Data} {s : Store Data}
    (none : noCreate F s = true) (iri : String) (owner : Principal) :
    ¬ CreatedBy F s iri owner := by
  rintro ⟨row, isRow, -, -, -, data, v, -, -, there, decoded, create, -⟩
  rcases Store.returns_getBlock.mp there with ⟨blobRow, found, -, isData⟩
  have noCreate := List.all_eq_true.mp none row isRow
  simp [found, isData, decoded, create] at noCreate

def squatArrivalResult : Evaluated (sampleRun (deviceArrivals ++ [squatArrival])) :=
  .of (by decide +kernel)

theorem squatArrival_accepted : (sampleRun (deviceArrivals ++ [squatArrival])).isSome = true :=
  squatArrivalResult.isSome

/-- An update with any dependency makes its author the owner of a new document. -/
theorem update_takes_document :
    ∃ s, Reaches (accept (sampleFormats sampleSha256)) (fun _ _ => True) .empty s ∧
      ¬ OwnersSound (sampleFormats sampleSha256) s := by
  refine ⟨_, reaches_get _ squatArrival_accepted, fun sound => ?_⟩
  have created := sound.entity "hm://d/ThnwfhnyChYhvWiv7CLe2B" (.inl (by decide))
    (samplePrincipal 2) (by decide +kernel)
  exact not_createdBy_of_noCreate (by decide +kernel) _ _ created

end Mintter.Hyper
