import Mintter.Hyper.Membership

/-!
# Authors and signatures

A change or a comment is attributed to the issuer of the key delegation that it
names.  Verifying the signatures and the key that signs is left to the sender:
`Authenticated` is what would have to be established for every attributed blob.
-/

namespace Mintter.Hyper

open Mintter.Foundation
open Mintter.Crdt2

variable {Data : Type}

/-- The bytes that are signed, and whether a key accepts their signature. -/
structure SignatureScheme where
  delegationBytes : KeyDelegation → Except String (List UInt8)
  changeBytes : Change → Except String (List UInt8)
  commentBytes : Comment → Except String (List UInt8)
  verify : List UInt8 → List UInt8 → String → Bool

/-! ## Verification -/

section Verify

variable (F : Formats Data) (S : SignatureScheme)

/-- Verify a signature under a key, which must be of the supported type. -/
def Principal.verify (p : Principal) (data : List UInt8) (sig : String) :
    Attempt Unit :=
  let (code, n) := uvarint p
  if n < 0 then
    .abort s!"runtime error: slice bounds out of range [{n}:]"
  else if code ≠ ed25519Pub then .abort "BUG: unsupported key type"
  else if F.keys.ed25519 (p.drop n.toNat) = false then
    throw "malformed Ed25519 key"
  else .check (S.verify (p.drop n.toNat) data sig = false) "bad signature"

/-- The issuer has signed the delegation without its signature. -/
def KeyDelegation.verify (kd : KeyDelegation) : Attempt Unit := do
  let data ← Attempt.ofExcept (S.delegationBytes { kd with signature := "" })
  Principal.verify F S kd.issuer data kd.signature

/-- The signer has signed the change without its signature. -/
def Change.verify (ch : Change) : Attempt Unit := do
  let data ← Attempt.ofExcept (S.changeBytes { ch with sig := "" })
  Principal.verify F S ch.signer data ch.sig

/-- The signer has signed the comment without its signature. -/
def Comment.verify (c : Comment) : Attempt Unit := do
  let data ← Attempt.ofExcept (S.commentBytes { c with sig := "" })
  Principal.verify F S c.signer data c.sig

end Verify

section Authenticated

variable {F : Formats Data} {S : SignatureScheme} {s s₁ t : Store Data}
variable {row : KeyDelegationRow} {delegation hash : String}
variable {author signer : Principal}

/-- The row of a key delegation comes from a blob that its issuer has signed. -/
def SignedDelegation (F : Formats Data) (S : SignatureScheme) (s : Store Data)
    (row : KeyDelegationRow) : Prop :=
  ∃ data kd, (s.getBlock row.blob).Returns data ∧
    F.decodeBlob dagCbor data = .ok (.keyDelegation kd) ∧
    kd.issuer = row.issuer ∧ kd.delegate = row.delegate ∧
    (kd.verify F S).Returns ()

/-- An accepted and signed delegation from the author to the key. -/
def Delegated (F : Formats Data) (S : SignatureScheme) (s : Store Data)
    (delegation : String) (author signer : Principal) : Prop :=
  ⟨F.cidHash delegation, author, signer⟩ ∈ s.keyDelegations ∧
    SignedDelegation F S s ⟨F.cidHash delegation, author, signer⟩

/-- A blob with this multihash is signed by a key that its author has delegated to. -/
def SignedFor (F : Formats Data) (S : SignatureScheme) (s : Store Data)
    (hash : String) (author : Principal) (type : String) : Prop :=
  ∃ data, (s.getBlock hash).Returns data ∧
    ((type = "Change" → ∃ ch, F.decodeBlob dagCbor data = .ok (.change ch) ∧
        (ch.verify F S).Returns () ∧
        Delegated F S s ch.delegation author ch.signer) ∧
      (type = "Comment" → ∃ cm, F.decodeBlob dagCbor data = .ok (.comment cm) ∧
        (cm.verify F S).Returns () ∧
        Delegated F S s cm.delegation author cm.signer))

/-- The chain from the signature to the account, for every attributed blob. -/
structure Authenticated (F : Formats Data) (S : SignatureScheme)
    (s : Store Data) : Prop where
  delegations : ∀ row ∈ s.keyDelegations, SignedDelegation F S s row
  blobs : ∀ row ∈ s.structuralBlobs,
    row.type = "Change" ∨ row.type = "Comment" → ∀ author,
    row.author = some author → SignedFor F S s row.blob author row.type

theorem Authenticated.empty : Authenticated F S (Store.empty : Store Data) where
  delegations := fun _ member => nomatch member
  blobs := fun _ member => nomatch member

/-- The blocks and the key delegations of a store are still there. -/
structure Keeps (s t : Store Data) : Prop where
  blocks : ∀ hash data, (s.getBlock hash).Returns data →
    (t.getBlock hash).Returns data
  delegations : ∀ row ∈ s.keyDelegations, row ∈ t.keyDelegations

theorem SignedDelegation.mono (signed : SignedDelegation F S s row)
    (keeps : Keeps s t) : SignedDelegation F S t row := by
  rcases signed with ⟨data, kd, there, rest⟩
  exact ⟨data, kd, keeps.blocks _ _ there, rest⟩

theorem Delegated.mono (delegated : Delegated F S s delegation author signer)
    (keeps : Keeps s t) : Delegated F S t delegation author signer :=
  ⟨keeps.delegations _ delegated.1, delegated.2.mono keeps⟩

theorem SignedFor.mono {type : String} (signed : SignedFor F S s hash author type)
    (keeps : Keeps s t) : SignedFor F S t hash author type := by
  rcases signed with ⟨data, there, change, comment⟩
  refine ⟨data, keeps.blocks _ _ there, fun isChange => ?_, fun isComment => ?_⟩
  · rcases change isChange with ⟨ch, decoded, verified, delegated⟩
    exact ⟨ch, decoded, verified, delegated.mono keeps⟩
  · rcases comment isComment with ⟨cm, decoded, verified, delegated⟩
    exact ⟨cm, decoded, verified, delegated.mono keeps⟩

/-- Tables that grow by authenticated rows stay authenticated. -/
theorem Authenticated.step (authentic : Authenticated F S s) (keeps : Keeps s t)
    (delegations : ∀ row ∈ t.keyDelegations,
      row ∈ s.keyDelegations ∨ SignedDelegation F S t row)
    (blobs : ∀ row ∈ t.structuralBlobs, row ∈ s.structuralBlobs ∨
      (row.type = "Change" ∨ row.type = "Comment" → ∀ author,
        row.author = some author → SignedFor F S t row.blob author row.type)) :
    Authenticated F S t where
  delegations := fun row isRow => by
    rcases delegations row isRow with old | new
    · exact (authentic.delegations row old).mono keeps
    · exact new
  blobs := fun row isRow isSigned author isAuthor => by
    rcases blobs row isRow with old | new
    · exact (authentic.blobs row old isSigned author isAuthor).mono keeps
    · exact new isSigned author isAuthor

theorem Keeps.received (received : Received s t) : Keeps s t where
  blocks := fun _ _ there => received.getBlock there
  delegations := fun row isRow => by rwa [received.same.keyDelegations]

theorem Keeps.ensured (ensured : Ensured F s t) : Keeps s t where
  blocks := fun _ _ there => ensured.grows.getBlock there
  delegations := fun row isRow => by rwa [ensured.keyDelegations]

theorem Keeps.saved {b : StructuralBlob} (saved : Saved F hash b s t) :
    Keeps s t where
  blocks := fun _ _ there => saved.grows.getBlock there
  delegations := fun row isRow => by rwa [saved.keyDelegations]

theorem Authenticated.received (authentic : Authenticated F S s)
    (received : Received s t) : Authenticated F S t := by
  apply authentic.step (.received received)
  · rw [received.same.keyDelegations]
    exact fun _ isRow => .inl isRow
  · rw [received.same.structuralBlobs]
    exact fun _ isRow => .inl isRow

theorem Authenticated.ensured (authentic : Authenticated F S s)
    (ensured : Ensured F s t) : Authenticated F S t := by
  apply authentic.step (.ensured ensured)
  · rw [ensured.keyDelegations]
    exact fun _ isRow => .inl isRow
  · rw [ensured.structuralBlobs]
    exact fun _ isRow => .inl isRow

/-- Storing a structural blob whose own signature is in order. -/
theorem Authenticated.saved {b : StructuralBlob} (authentic : Authenticated F S s)
    (saved : Saved F hash b s t)
    (signed : b.type = "Change" ∨ b.type = "Comment" → ∀ author,
      b.author = some author → SignedFor F S s hash author b.type) :
    Authenticated F S t := by
  apply authentic.step (.saved saved)
  · rw [saved.keyDelegations]
    exact fun _ isRow => .inl isRow
  · rw [saved.structuralBlobs]
    intro row isRow
    rcases List.mem_append.mp isRow with old | new
    · exact .inl old
    · cases List.mem_singleton.mp new
      exact .inr fun isSigned author isAuthor =>
        (signed isSigned author isAuthor).mono (.saved saved)

/-- The key delegation that is found for a CID is one to this key. -/
def DelegatesTo (F : Formats Data) (s : Store Data) (delegation : String)
    (signer : Principal) : Prop :=
  ∃ row, s.keyDelegations.find? (·.blob == F.cidHash delegation) = some row ∧
    row.delegate = signer

/-- The author of a blob has delegated to its signer. -/
theorem Authenticated.delegated (authentic : Authenticated F S s)
    (authored : (s.getAuthorFromDelegation F delegation).Returns author)
    (delegates : DelegatesTo F s delegation signer) :
    Delegated F S s delegation author signer := by
  rcases delegates with ⟨row, found, rfl⟩
  have isRow := List.mem_of_find?_eq_some found
  have isBlob : row.blob = F.cidHash delegation := by
    simpa using List.find?_some found
  simp only [Store.getAuthorFromDelegation, Store.delegationIssuer,
    Store.keyDelegationsGetIssuer, found, Option.map_some, Attempt.returns_bind,
    Attempt.returns_pure, Principal.returns_decodeBytes] at authored
  rcases authored with ⟨_, rfl, _, ⟨-, -, rfl⟩, -, -, rfl⟩
  have isRow' : row = ⟨F.cidHash delegation, row.issuer, row.delegate⟩ := by
    rw [← isBlob]
  rw [Delegated, ← isRow']
  exact ⟨isRow, authentic.delegations row isRow⟩

end Authenticated

section Runs

variable {F : Formats Data} {S : SignatureScheme} {s s₁ t : Store Data}
variable {arrival : Arrival Data} {c : String} {data : Data} {author : Principal}

theorem Authenticated.indexedChange {order : FieldOrder} {v : Change}
    {sb : StructuralBlob} (authentic : Authenticated F S s)
    (indexed : IndexedChange F order s c v author sb s₁ t)
    (there : (s.getBlock (F.cidHash c)).Returns data)
    (decoded : F.decodeBlob dagCbor data = .ok (.change v))
    (verified : (v.verify F S).Returns ())
    (delegates : DelegatesTo F s v.delegation v.signer) : Authenticated F S t := by
  rcases entityIndexed_of_returns entityLinks_true indexed.entity with
    ⟨ensured, extended, -⟩
  have isChange : sb.type = "Change" := extended.type
  have delegated := authentic.delegated indexed.authored delegates
  apply (authentic.ensured ensured).saved indexed.saved
  intro _ author' isAuthor
  cases extended.author.symm.trans isAuthor
  have keeps := Keeps.ensured ensured
  refine ⟨data, keeps.blocks _ _ there, fun _ =>
    ⟨v, decoded, verified, delegated.mono keeps⟩, fun isComment => ?_⟩
  rw [isChange] at isComment
  exact absurd isComment (by decide)

theorem Authenticated.indexedComment {v : Comment} {sb : StructuralBlob}
    (authentic : Authenticated F S s)
    (indexed : IndexedComment F s c v author sb t)
    (there : (s.getBlock (F.cidHash c)).Returns data)
    (decoded : F.decodeBlob dagCbor data = .ok (.comment v))
    (verified : (v.verify F S).Returns ())
    (delegates : DelegatesTo F s v.delegation v.signer) : Authenticated F S t := by
  have extended := indexed.links (fun _ => True) (fun _ => True)
    (fun _ => ⟨trivial, fun _ _ _ => trivial⟩)
  have isComment : sb.type = "Comment" := extended.type
  have delegated := authentic.delegated indexed.authored delegates
  apply authentic.saved indexed.saved
  intro _ author' isAuthor
  cases extended.author.symm.trans isAuthor
  refine ⟨data, there, fun isChange => ?_, fun _ => ⟨v, decoded, verified, delegated⟩⟩
  rw [isComment] at isChange
  exact absurd isChange (by decide)

theorem Authenticated.indexedDelegation {v : KeyDelegation}
    (authentic : Authenticated F S s) (indexed : IndexedDelegation F s c v t)
    (there : (s.getBlock (F.cidHash c)).Returns data)
    (decoded : F.decodeBlob dagCbor data = .ok (.keyDelegation v))
    (verified : (v.verify F S).Returns ()) : Authenticated F S t := by
  have isDelegation : (delegationBlob F v).type = "KeyDelegation" := rfl
  have inserted : Authenticated F S (s.keyDelegationsInsertOrIgnore
      ⟨F.cidHash c, v.issuer, v.delegate⟩) := by
    rw [Store.keyDelegationsInsertOrIgnore]
    split
    · exact authentic
    · apply authentic.step
      · exact ⟨fun _ _ there => there, fun _ isRow => List.mem_append_left _ isRow⟩
      · intro row isRow
        rcases List.mem_append.mp isRow with old | new
        · exact .inl old
        · cases List.mem_singleton.mp new
          exact .inr ⟨data, v, there, decoded, rfl, rfl, verified⟩
      · exact fun _ isRow => .inl isRow
  apply inserted.saved indexed.saved
  rintro (isChange | isComment)
  · exact absurd (isDelegation.symm.trans isChange) (by decide)
  · exact absurd (isDelegation.symm.trans isComment) (by decide)

/-- A blob that is signed, by a key to which its delegation has been indexed. -/
def IsSigned (F : Formats Data) (S : SignatureScheme) (s : Store Data) :
    DecodedBlob → Prop
  | .dagPB _ => True
  | .keyDelegation kd => (kd.verify F S).Returns ()
  | .change ch => (ch.verify F S).Returns () ∧
      DelegatesTo F s ch.delegation ch.signer
  | .comment cm => (cm.verify F S).Returns () ∧
      DelegatesTo F s cm.delegation cm.signer

/-- The blobs that arrive are signed. -/
def RespectsSignatures (F : Formats Data) (S : SignatureScheme) (s : Store Data)
    (arrival : Arrival Data) : Prop :=
  ∀ s₁ blob, Arrives F s arrival s₁ blob → IsSigned F S s blob

/-- Whatever is accepted and signed keeps the attributions authenticated. -/
theorem Authenticated.accept (authentic : Authenticated F S s)
    (respects : RespectsSignatures F S s arrival)
    (accepted : Hyper.accept F s arrival = some t) : Authenticated F S t := by
  rcases accept_cases accepted with received | ⟨s₁, blob, arrives, indexed⟩
  · exact authentic.received received
  · have authentic₁ := authentic.received arrives.received
    have there := arrives.getBlock
    have signed := respects s₁ blob arrives
    have delegates : ∀ {delegation signer}, DelegatesTo F s delegation signer →
        DelegatesTo F s₁ delegation signer := by
      intro delegation signer delegates
      rw [DelegatesTo, arrives.received.same.keyDelegations]
      exact delegates
    have isIndexed := indexedBlob_of_returns indexed
    cases blob with
    | dagPB links =>
        have extended := extended_dagPBBlob links
        apply authentic₁.saved isIndexed
        intro _ author isAuthor
        cases extended.author.symm.trans isAuthor
    | keyDelegation kd =>
        exact authentic₁.indexedDelegation isIndexed there
          (decodeBlob_dagCbor arrives.decoded nofun) signed
    | change ch =>
        rcases isIndexed with ⟨author, sb, s₂, isChange⟩
        exact authentic₁.indexedChange isChange there
          (decodeBlob_dagCbor arrives.decoded nofun) signed.1 (delegates signed.2)
    | comment cm =>
        rcases isIndexed with ⟨author, sb, isComment⟩
        exact authentic₁.indexedComment isComment there
          (decodeBlob_dagCbor arrives.decoded nofun) signed.1 (delegates signed.2)

/-- In a run of signed blobs every attribution is authenticated. -/
theorem attributions_are_authenticated
    (run : Reaches (accept F) (RespectsSignatures F S) .empty s) :
    Authenticated F S s :=
  run.invariant (fun _ _ _ authentic respects accepted =>
    authentic.accept respects accepted) .empty

end Runs

/-! ## A key without a delegation -/

/-- Signatures that are told from their text. -/
def sampleScheme : SignatureScheme where
  delegationBytes _ := .ok []
  changeBytes _ := .ok []
  commentBytes _ := .ok []
  verify _ _ sig := sig == "signature"

theorem attributions_are_authenticated_createArrival :
    ∃ s t, sampleRun deviceArrivals = some s ∧
      accept (sampleFormats sampleSha256) s createArrival = some t ∧
      Authenticated (sampleFormats sampleSha256) sampleScheme t := by
  refine ⟨_, _, sampleRun_deviceArrivals, accept_createArrival,
    attributions_are_authenticated
      (reaches_groupStore (allPermitted_of_forall ?_) ?_)⟩
  · intro arrival isDevice state s₁ blob arrives
    rcases List.mem_pair.mp isDevice with rfl | rfl
    · cases arrives.decoded
      exact (by decide +kernel : ((sampleDelegation 1 11).verify
        (sampleFormats sampleSha256) sampleScheme).Returns ())
    · cases arrives.decoded
      exact (by decide +kernel : ((sampleDelegation 2 12).verify
        (sampleFormats sampleSha256) sampleScheme).Returns ())
  · intro _ blob arrives
    cases arrives.decoded
    refine ⟨?_, ⟨"delegation1", samplePrincipal 1, samplePrincipal 11⟩, ?_, rfl⟩
    · exact (by decide +kernel : (sampleCreate.verify
        (sampleFormats sampleSha256) sampleScheme).Returns ())
    · decide +kernel

/-- The device of the second account signs for the first one. -/
def forgedChange : Change where
  deps := ["cdelegation1"]
  delegation := "cdelegation1"
  action := "Update"
  hlcTime := 1700000002000000
  entity := "hm://a/z6MkeXBLjYiSvqnhFb6D7sHm8yKm4jV45wwBFRaatf1cfZ76"
  patch := [("alias", .string "Alias")]
  signer := samplePrincipal 12
  sig := "signature"

/-- The forged change arrives. -/
def forgedArrival : Arrival DecodedBlob := ⟨.listed, "cforged", .change forgedChange⟩

def forgedArrivalResult : Evaluated (accept (sampleFormats sampleSha256)
      ((sampleRun deviceArrivals).get deviceArrivals_accepted)
      forgedArrival) :=
  .of (by decide +kernel)

theorem forgedArrival_accepted : (accept (sampleFormats sampleSha256)
      ((sampleRun deviceArrivals).get deviceArrivals_accepted)
      forgedArrival).isSome = true :=
  forgedArrivalResult.isSome

/-- The signer is not compared with the delegate. -/
theorem any_key_signs_for_account :
    ∃ s, Reaches (accept (sampleFormats sampleSha256)) (fun _ _ => True) .empty s ∧
      ¬ Authenticated (sampleFormats sampleSha256) sampleScheme s := by
  have isLast := (Option.some_get forgedArrival_accepted).symm
  refine ⟨_, .tail (reaches_get _ deviceArrivals_accepted)
    ⟨forgedArrival, trivial, isLast⟩, fun authentic => ?_⟩
  have arrives : Arrives _ ((sampleRun deviceArrivals).get deviceArrivals_accepted)
      forgedArrival _ (.change forgedChange) :=
    arrives_of_absent (F := sampleFormats sampleSha256) (by decide +kernel) rfl
  have isRow : (⟨"forged", "Change", some 1700000002000000,
      some (samplePrincipal 1), some forgedChange.entity, some "Alias"⟩ :
        StructuralBlobRow) ∈
      ((accept (sampleFormats sampleSha256)
        ((sampleRun deviceArrivals).get deviceArrivals_accepted)
        forgedArrival).get forgedArrival_accepted).structuralBlobs := by
    decide +kernel
  rcases authentic.blobs _ isRow (.inl rfl) _ rfl with ⟨data, there, change, -⟩
  cases there.unique (arrives.getBlock_of_accept isLast)
  rcases change rfl with ⟨ch, decoded, -, isDelegated, -⟩
  cases decoded
  exact absurd isDelegated (by decide +kernel)

end Mintter.Hyper
