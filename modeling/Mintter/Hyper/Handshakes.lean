import Mintter.Hyper.Authorship
import Mintter.Hyper.Lifecycle
import Mintter.Hyper.Panics

/-!
# Handshakes and the accounts of devices

A peer introduces itself with a key delegation, whose signature is verified before
it is stored; delegations also arrive as blobs, which are not verified.  The account
of a device is the issuer of the first delegation to its key.  Neither way compares
the delegate with the peer or looks for other delegations to the same key.
-/

namespace Mintter.Hyper

open Mintter.Foundation
open Mintter.Crdt2

variable {Data : Type}

/-- The libraries of a node: CIDs as bytes, encoded delegations, the keys of peers. -/
structure Node (F : Formats Data) where
  scheme : SignatureScheme
  castCid : List UInt8 → Except String String
  /-- The CID and the data of the blob. -/
  encodeBlob : KeyDelegation → Except String (String × Data)
  publicKey : String → Attempt Principal
  /-- What was decoded can be encoded. -/
  encodes : ∀ data kd, F.decodeKeyDelegation data = .ok kd →
    ∃ c data', encodeBlob kd = .ok (c, data')
  decodes : ∀ kd c data, encodeBlob kd = .ok (c, data) →
    F.decodeBlob dagCbor data = .ok (.keyDelegation kd)

/-- What a peer sends when it connects. -/
structure HandshakeInfo (Data : Type) where
  keyDelegationCid : List UInt8
  keyDelegationData : Data

/-- How the rows of a query without an order are returned. -/
structure QueryOrder where
  sort : List KeyDelegationRow → List KeyDelegationRow
  perm : ∀ rows, (sort rows).Perm rows

section Handshakes

variable (F : Formats Data) (N : Node F) (s : Store Data)

/-- The blob of a delegation. -/
def KeyDelegation.blob (kd : KeyDelegation) : Attempt (String × Data) :=
  match N.encodeBlob kd with
  | .error err => .abort err
  | .ok blob => pure blob

/-- The peer that sends the delegation is not looked at. -/
def verifyHandshake (order : FieldOrder) (_pid : String) (pb : HandshakeInfo Data) :
    Attempt (Store Data) := do
  let c ← Attempt.ofExcept (N.castCid pb.keyDelegationCid)
  let kd ← Attempt.ofExcept (F.decodeKeyDelegation pb.keyDelegationData)
  kd.verify F N.scheme
  Attempt.check (kd.purpose ≠ delegationPurposeRegistration)
    s!"invalid key delegation purpose: {kd.purpose}"
  Attempt.check (F.inferType pb.keyDelegationData ≠ .ok "KeyDelegation")
    "invalid blob type"
  let (c', data) ← kd.blob F N
  Attempt.check (c' ≠ c) "handshake key delegation CID doesn't match"
  saveBlob F order s c' data (.keyDelegation kd)

/-- The account of the first delegation to the key of the device. -/
def accountForDevice (order : QueryOrder) (pid : String) : Attempt Principal := do
  let delegate ← N.publicKey pid
  match order.sort (s.keyDelegations.filter fun row =>
      row.delegate == delegate && (s.blobRow row.blob).isSome) with
  | [] => throw s!"not found key delegation for peer: {pid}"
  | del :: _ => pure del.issuer

/-- A handshake of a peer, or a blob that is put. -/
inductive DeviceEvent (Data : Type) where
  | handshake (order : FieldOrder) (pid : String) (pb : HandshakeInfo Data)
  | put (arrival : Arrival Data)

/-- A call that fails leaves the store as it was. -/
def serve : DeviceEvent Data → Option (Store Data)
  | .handshake order pid pb => some ((verifyHandshake F N s order pid pb).returned.getD s)
  | .put arrival => some ((accept F s arrival).getD s)

end Handshakes

/-! ## Delegations that are in order -/

section Conditions

variable (F : Formats Data) (N : Node F) (s : Store Data)

/-- All other delegations to the same key come from the same account. -/
def OneIssuer (kd : KeyDelegation) : Prop :=
  ∀ row ∈ s.keyDelegations, row.delegate = kd.delegate → row.issuer = kd.issuer

/-- A block that is there under the hash has this data. -/
def SameContent (hash : String) (data : Data) : Prop :=
  ∀ row, s.blobRow hash = some row → 0 ≤ row.size → row.data = some data

/-- A key of the type that signatures can be verified for. -/
def IsEd25519 (p : Principal) : Prop := 0 ≤ (uvarint p).2 ∧ (uvarint p).1 = ed25519Pub

/--
The issuer of a delegation in a handshake has an Ed25519 key, and a delegation that
passes the checks is one to the key of the peer.  A delegation that is put and accepted
is signed.  None comes from another account than those that are there for its key.
-/
def IsHonest : DeviceEvent Data → Prop
  | .handshake _ pid pb => ∀ c kd, N.castCid pb.keyDelegationCid = .ok c →
      F.decodeKeyDelegation pb.keyDelegationData = .ok kd →
      IsEd25519 kd.issuer ∧ ((kd.verify F N.scheme).Returns () →
        kd.purpose = delegationPurposeRegistration →
        F.inferType pb.keyDelegationData = .ok "KeyDelegation" →
        ∀ data, N.encodeBlob kd = .ok (c, data) →
          (N.publicKey pid).Returns kd.delegate ∧ OneIssuer s kd ∧
            SameContent s (F.cidHash c) data)
  | .put arrival => ∀ s₁ kd, Arrives F s arrival s₁ (.keyDelegation kd) →
      (accept F s arrival).isSome →
      (kd.verify F N.scheme).Returns () ∧ OneIssuer s kd

end Conditions

/-! ## Runs of handshakes and puts -/

section Runs

variable {F : Formats Data} {N : Node F} {s t : Store Data} {order : FieldOrder}
variable {c pid hash : String} {data : Data} {kd : KeyDelegation} {blob : DecodedBlob}

/-- Every delegation is signed, and those to one key come from one account. -/
structure Settled (F : Formats Data) (N : Node F) (s : Store Data) : Prop where
  signed : ∀ row ∈ s.keyDelegations, SignedDelegation F N.scheme s row
  oneIssuer : ∀ row ∈ s.keyDelegations, ∀ row' ∈ s.keyDelegations,
    row.delegate = row'.delegate → row.issuer = row'.issuer

theorem Settled.empty : Settled F N .empty := ⟨nofun, nofun⟩

theorem Settled.received (settled : Settled F N s) (received : Received s t) :
    Settled F N t where
  signed := by
    rw [received.same.keyDelegations]
    exact fun row isRow => (settled.signed row isRow).mono (.received received)
  oneIssuer := by
    rw [received.same.keyDelegations]
    exact settled.oneIssuer

/-- Indexing a blob adds at most the delegation that the blob is. -/
theorem delegations_of_indexedBlob (indexed : IndexedBlob F order s c t blob) :
    (∀ row ∈ s.keyDelegations, row ∈ t.keyDelegations) ∧
      ∀ row ∈ t.keyDelegations, row ∈ s.keyDelegations ∨
        ∃ kd, blob = .keyDelegation kd ∧ row = ⟨F.cidHash c, kd.issuer, kd.delegate⟩ := by
  have unchanged : t.keyDelegations = s.keyDelegations →
      (∀ row ∈ s.keyDelegations, row ∈ t.keyDelegations) ∧
        ∀ row ∈ t.keyDelegations, row ∈ s.keyDelegations ∨
          ∃ kd, blob = .keyDelegation kd ∧
            row = ⟨F.cidHash c, kd.issuer, kd.delegate⟩ := by
    intro same
    rw [same]
    exact ⟨fun _ isRow => isRow, fun _ isRow => .inl isRow⟩
  cases blob with
  | dagPB links => exact unchanged indexed.keyDelegations
  | change v =>
      rcases indexed with ⟨author, sb, s₁, isChange⟩
      have ensured := (entityIndexed_of_returns entityLinks_true isChange.entity).1
      exact unchanged (isChange.saved.keyDelegations.trans ensured.keyDelegations)
  | comment cm =>
      rcases indexed with ⟨author, sb, isComment⟩
      exact unchanged isComment.saved.keyDelegations
  | keyDelegation kd =>
      rw [indexed.saved.keyDelegations, Store.keyDelegationsInsertOrIgnore]
      split
      · exact ⟨fun _ isRow => isRow, fun _ isRow => .inl isRow⟩
      · constructor
        · exact fun _ isRow => List.mem_append_left _ isRow
        · intro row isRow
          rcases List.mem_append.mp isRow with old | new
          · exact .inl old
          · exact .inr ⟨kd, rfl, List.mem_singleton.mp new⟩

theorem keeps_of_indexedBlob (indexed : IndexedBlob F order s c t blob) : Keeps s t where
  blocks := fun _ _ there => (grows_of_indexedBlob indexed).getBlock there
  delegations := (delegations_of_indexedBlob indexed).1

/-- A signed delegation of the only account for its key keeps the rest in order. -/
theorem Settled.indexedBlob (settled : Settled F N s)
    (indexed : IndexedBlob F order s c t blob)
    (there : (s.getBlock (F.cidHash c)).Returns data)
    (isSigned : ∀ kd, blob = .keyDelegation kd →
      F.decodeBlob dagCbor data = .ok (.keyDelegation kd) ∧
        (kd.verify F N.scheme).Returns () ∧ OneIssuer s kd) : Settled F N t := by
  have keeps := keeps_of_indexedBlob indexed
  have rows := (delegations_of_indexedBlob indexed).2
  constructor
  · intro row isRow
    rcases rows row isRow with old | ⟨kd, rfl, rfl⟩
    · exact (settled.signed row old).mono keeps
    · rcases isSigned kd rfl with ⟨decoded, verified, -⟩
      exact ⟨data, kd, keeps.blocks _ _ there, decoded, rfl, rfl, verified⟩
  · intro row isRow row' isRow' same
    rcases rows row isRow with old | ⟨kd, isBlob, rfl⟩
    · rcases rows row' isRow' with old' | ⟨kd', isBlob', rfl⟩
      · exact settled.oneIssuer row old row' old' same
      · exact (isSigned kd' isBlob').2.2 row old same
    · rcases rows row' isRow' with old' | ⟨kd', isBlob', rfl⟩
      · exact ((isSigned kd isBlob).2.2 row' old' same.symm).symm
      · rw [isBlob] at isBlob'
        cases isBlob'
        exact rfl

/-! ## The two ways in -/

/-- A block that was there had data. -/
theorem row_of_found {inID codec : Nat}
    (returns : (s.putBlock F inID codec hash data).Returns (true, t)) :
    t = s ∧ ∃ row, s.blobRow hash = some row ∧ 0 ≤ row.size := by
  rw [Store.putBlock] at returns
  split at returns
  · next row found =>
      split at returns
      · next there =>
          cases Attempt.returns_pure.mp returns
          exact ⟨rfl, row, found, there⟩
      · split at returns
        · exact absurd returns Attempt.not_returns_throw
        · cases Attempt.returns_pure.mp returns
  · split at returns
    · cases Attempt.returns_pure.mp returns
    · cases Attempt.returns_pure.mp returns

/-- A delegation that is saved is there afterwards, whether or not it was before. -/
theorem settled_of_saveBlob (settled : Settled F N s)
    (returns : (saveBlob F order s c data (.keyDelegation kd)).Returns t)
    (same : SameContent s (F.cidHash c) data)
    (decoded : F.decodeBlob dagCbor data = .ok (.keyDelegation kd))
    (verified : (kd.verify F N.scheme).Returns ()) (oneIssuer : OneIssuer s kd) :
    Settled F N t ∧ Keeps s t ∧ (t.getBlock (F.cidHash c)).Returns data := by
  rcases Attempt.returns_bind.mp returns with ⟨⟨found, s₁⟩, stored, returns⟩
  cases found with
  | true =>
      rcases Attempt.returns_pure.mp returns with rfl
      rcases row_of_found stored with ⟨rfl, row, isRow, there⟩
      have isThere : (s₁.getBlock (F.cidHash c)).Returns data :=
        Store.returns_getBlock.mpr ⟨row, isRow, there, same row isRow there⟩
      exact ⟨settled, ⟨fun _ _ kept => kept, fun _ kept => kept⟩, isThere⟩
  | false =>
      have block := putBlock_of_returns stored
      have indexed : IndexedBlob F order s₁ c t (.keyDelegation kd) :=
        indexedBlob_of_returns returns
      rcases block.new rfl with ⟨row, isRow, isData, isSize, -⟩
      have isThere : (s₁.getBlock (F.cidHash c)).Returns data :=
        Store.returns_getBlock.mpr
          ⟨row, isRow, by rw [isSize]; exact Int.natCast_nonneg _, isData⟩
      have keeps := keeps_of_indexedBlob indexed
      have keeps₁ : Keeps s s₁ := .received block.received
      refine ⟨(settled.received block.received).indexedBlob indexed isThere ?_,
        ⟨fun _ _ kept => keeps.blocks _ _ (keeps₁.blocks _ _ kept),
          fun _ kept => keeps.delegations _ (keeps₁.delegations _ kept)⟩,
        keeps.blocks _ _ isThere⟩
      intro kd' isBlob
      cases isBlob
      refine ⟨decoded, verified, ?_⟩
      rw [OneIssuer, block.received.same.keyDelegations]
      exact oneIssuer

/-- What a handshake that succeeds has checked. -/
structure Verified (F : Formats Data) (N : Node F) (s : Store Data) (order : FieldOrder)
    (pb : HandshakeInfo Data) (c : String) (kd : KeyDelegation) (data : Data)
    (t : Store Data) : Prop where
  cast : N.castCid pb.keyDelegationCid = .ok c
  decoded : F.decodeKeyDelegation pb.keyDelegationData = .ok kd
  verified : (kd.verify F N.scheme).Returns ()
  purpose : kd.purpose = delegationPurposeRegistration
  type : F.inferType pb.keyDelegationData = .ok "KeyDelegation"
  encoded : N.encodeBlob kd = .ok (c, data)
  saved : (saveBlob F order s c data (.keyDelegation kd)).Returns t

theorem returns_blob {encoded : String × Data} :
    (kd.blob F N).Returns encoded ↔ N.encodeBlob kd = .ok encoded := by
  rw [KeyDelegation.blob]
  cases N.encodeBlob kd <;> simp

theorem verified_of_returns {pb : HandshakeInfo Data}
    (returns : (verifyHandshake F N s order pid pb).Returns t) :
    ∃ c kd data, Verified F N s order pb c kd data t := by
  simp only [verifyHandshake, Attempt.returns_bind, Attempt.returns_ofExcept,
    Attempt.returns_check, returns_blob] at returns
  rcases returns with ⟨c, cast, kd, decoded, ⟨⟩, verified, -, purpose, -, type,
    ⟨c', data⟩, encoded, -, same, saved⟩
  rcases not_not.mp same with rfl
  exact ⟨c', kd, data, cast, decoded, verified, not_not.mp purpose, not_not.mp type,
    encoded, saved⟩

/-- A signature of an Ed25519 key is verified without a panic. -/
theorem quiet_verify (isKey : IsEd25519 kd.issuer) : (kd.verify F N.scheme).Quiet := by
  simp only [KeyDelegation.verify, Attempt.quiet_bind, Attempt.quiet_ofExcept, true_and]
  intro bytes _
  simp only [Principal.verify]
  rw [if_neg (not_lt.mpr isKey.1), if_neg (not_not.mpr isKey.2)]
  split
  · exact Attempt.quiet_throw _
  · exact Attempt.quiet_check ..

theorem ne_nil_of_libp2pKey {p : Principal} {value : Unit}
    (isKey : (p.libp2pKey F.keys).Returns value) : p ≠ [] := by
  rintro rfl
  exact Attempt.not_returns_of_fails (by rfl) value isKey

theorem quiet_indexKeyDelegation :
    (indexKeyDelegation F s c kd).Quiet := by
  simp only [indexKeyDelegation, Attempt.quiet_bind, Attempt.quiet_check,
    Principal.quiet_libp2pKey, Principal.quiet_unsafeString, true_and]
  intro _ _ _ isIssuer _ isDelegate
  have issuer := ne_nil_of_libp2pKey isIssuer
  exact ⟨issuer, fun _ _ => ⟨ne_nil_of_libp2pKey isDelegate, fun _ _ =>
    quiet_saveBlob rfl rfl issuer⟩⟩

theorem quiet_putBlock {inID codec : Nat} : (s.putBlock F inID codec hash data).Quiet := by
  rw [Store.putBlock]
  split
  · split
    · exact Attempt.quiet_pure _
    · split
      · exact Attempt.quiet_throw _
      · exact Attempt.quiet_pure _
  · split <;> exact Attempt.quiet_pure _

theorem quiet_saveDelegation :
    (saveBlob F order s c data (.keyDelegation kd)).Quiet := by
  rw [saveBlob, Attempt.quiet_bind]
  constructor
  · exact quiet_putBlock
  · rintro ⟨found, s₁⟩ -
    cases found with
    | true => exact Attempt.quiet_pure s₁
    | false => exact quiet_indexKeyDelegation

/-- A handshake panics at most if its delegation decodes and its issuer has another key. -/
theorem quiet_verifyHandshake {pb : HandshakeInfo Data}
    (isKey : ∀ c kd, N.castCid pb.keyDelegationCid = .ok c →
      F.decodeKeyDelegation pb.keyDelegationData = .ok kd → IsEd25519 kd.issuer) :
    (verifyHandshake F N s order pid pb).Quiet := by
  simp only [verifyHandshake, Attempt.quiet_bind, Attempt.quiet_ofExcept,
    Attempt.quiet_check, Attempt.returns_ofExcept, true_and]
  intro c cast kd decoded
  refine ⟨quiet_verify (isKey c kd cast decoded), fun _ _ _ _ _ _ => ?_⟩
  rcases N.encodes _ kd decoded with ⟨c', data, encoded⟩
  constructor
  · rw [KeyDelegation.blob, encoded]
    exact Attempt.quiet_pure _
  · exact fun _ _ _ _ => quiet_saveDelegation

theorem Keeps.refl (s : Store Data) : Keeps s s := ⟨fun _ _ kept => kept, fun _ kept => kept⟩

theorem Keeps.trans {u : Store Data} (first : Keeps s t) (second : Keeps t u) : Keeps s u :=
  ⟨fun hash data there => second.blocks hash data (first.blocks hash data there),
    fun row isRow => second.delegations row (first.delegations row isRow)⟩

theorem settled_of_accept {arrival : Arrival Data} (settled : Settled F N s)
    (honest : IsHonest F N s (.put arrival)) (accepted : accept F s arrival = some t) :
    Settled F N t ∧ Keeps s t := by
  rcases accept_cases accepted with received | ⟨s₁, blob, arrives, indexed⟩
  · exact ⟨settled.received received, .received received⟩
  · have isIndexed := indexedBlob_of_returns indexed
    have received := arrives.received
    constructor
    · apply (settled.received received).indexedBlob isIndexed arrives.getBlock
      rintro kd rfl
      have isAccepted : (accept F s arrival).isSome = true := by
        rw [accepted, Option.isSome_some]
      rcases honest s₁ kd arrives isAccepted with ⟨verified, oneIssuer⟩
      refine ⟨decodeBlob_dagCbor arrives.decoded nofun, verified, ?_⟩
      rw [OneIssuer, received.same.keyDelegations]
      exact oneIssuer
    · exact (Keeps.received received).trans (keeps_of_indexedBlob isIndexed)

theorem settled_of_verifyHandshake {pb : HandshakeInfo Data} (settled : Settled F N s)
    (honest : IsHonest F N s (.handshake order pid pb))
    (returns : (verifyHandshake F N s order pid pb).Returns t) :
    (Settled F N t ∧ Keeps s t) ∧ ∃ c, ∃ kd : KeyDelegation,
      N.castCid pb.keyDelegationCid = .ok c ∧
      (N.publicKey pid).Returns kd.delegate ∧
      SignedDelegation F N.scheme t ⟨F.cidHash c, kd.issuer, kd.delegate⟩ := by
  rcases verified_of_returns returns with ⟨c, kd, data, isVerified⟩
  have decoded := N.decodes kd c data isVerified.encoded
  rcases (honest c kd isVerified.cast isVerified.decoded).2 isVerified.verified
    isVerified.purpose isVerified.type data isVerified.encoded with ⟨isPeer, oneIssuer, same⟩
  rcases settled_of_saveBlob settled isVerified.saved same decoded isVerified.verified
    oneIssuer with ⟨settled₁, keeps, there⟩
  exact ⟨⟨settled₁, keeps⟩, c, kd, isVerified.cast, isPeer, data, kd, there, decoded, rfl,
    rfl, isVerified.verified⟩

theorem settled_of_serve {event : DeviceEvent Data} (settled : Settled F N s)
    (honest : IsHonest F N s event) (served : serve F N s event = some t) :
    Settled F N t ∧ Keeps s t := by
  cases event with
  | handshake order pid pb =>
      rcases Option.some.inj served with rfl
      cases returned : (verifyHandshake F N s order pid pb).returned with
      | none => exact ⟨settled, .refl s⟩
      | some u =>
          exact (settled_of_verifyHandshake settled honest
            (Attempt.returned_eq_some.mp returned)).1
  | put arrival =>
      rcases Option.some.inj served with rfl
      cases accepted : accept F s arrival with
      | none => exact ⟨settled, .refl s⟩
      | some u => exact settled_of_accept settled honest accepted

theorem settled_of_reaches (settled : Settled F N s)
    (run : Reaches (serve F N) (IsHonest F N) s t) : Settled F N t ∧ Keeps s t := by
  have kept := run.invariant
    (fun before _ _ (both : Settled F N before ∧ Keeps s before) honest served =>
      have next := settled_of_serve both.1 honest served
      ⟨next.1, both.2.trans next.2⟩) ⟨settled, .refl s⟩
  exact kept

/-! ## The account of a device -/

/-- The account of a device has a delegation to its key. -/
theorem returns_accountForDevice {queryOrder : QueryOrder} {account : Principal}
    (returns : (accountForDevice F N s queryOrder pid).Returns account) :
    ∃ row ∈ s.keyDelegations, (N.publicKey pid).Returns row.delegate ∧
      row.issuer = account := by
  rw [accountForDevice, Attempt.returns_bind] at returns
  rcases returns with ⟨delegate, isKey, returns⟩
  split at returns
  · exact absurd returns Attempt.not_returns_throw
  · next row rest isSorted =>
      have sorted : row ∈ queryOrder.sort _ := isSorted ▸ List.mem_cons_self ..
      rcases List.mem_filter.mp ((queryOrder.perm _).mem_iff.mp sorted) with
        ⟨isRow, isDelegate⟩
      rw [Bool.and_eq_true, beq_iff_eq] at isDelegate
      exact ⟨row, isRow, isDelegate.1 ▸ isKey, Attempt.returns_pure.mp returns⟩

/-- With one account for each key the account does not depend on the order. -/
theorem Settled.accountForDevice (settled : Settled F N s) (queryOrder : QueryOrder)
    {row : KeyDelegationRow} (isRow : row ∈ s.keyDelegations)
    (isKey : (N.publicKey pid).Returns row.delegate) :
    (Hyper.accountForDevice F N s queryOrder pid).Returns row.issuer := by
  have there : (s.blobRow row.blob).isSome = true := by
    rcases settled.signed row isRow with ⟨data, kd, isThere, -⟩
    rcases Store.returns_getBlock.mp isThere with ⟨blob, found, -⟩
    rw [found]
    exact Option.isSome_some
  rw [Hyper.accountForDevice, Attempt.returns_bind]
  refine ⟨row.delegate, isKey, ?_⟩
  have member : row ∈ queryOrder.sort (s.keyDelegations.filter fun other =>
      other.delegate == row.delegate && (s.blobRow other.blob).isSome) := by
    rw [(queryOrder.perm _).mem_iff, List.mem_filter, there]
    exact ⟨isRow, by simp⟩
  split
  · next isEmpty =>
      rw [isEmpty] at member
      cases member
  · next first rest isSorted =>
      have isFirst : first ∈ queryOrder.sort _ := isSorted ▸ List.mem_cons_self ..
      rcases List.mem_filter.mp ((queryOrder.perm _).mem_iff.mp isFirst) with
        ⟨inTable, isDelegate⟩
      rw [Bool.and_eq_true, beq_iff_eq] at isDelegate
      rw [Attempt.returns_pure]
      exact settled.oneIssuer first inTable row isRow isDelegate.1

/--
In a run of honest handshakes and puts no handshake panics, a handshake that succeeds
has stored a signed delegation to the key of the peer, the account of a device has
signed a delegation to its key, and a device that has an account keeps it.
-/
theorem devices_speak_for_accounts
    (before : Reaches (serve F N) (IsHonest F N) .empty s)
    (since : Reaches (serve F N) (IsHonest F N) s t) :
    (∀ order pid pb, IsHonest F N t (.handshake order pid pb) →
      (verifyHandshake F N t order pid pb).Quiet ∧
        ∀ u, (verifyHandshake F N t order pid pb).Returns u →
          ∃ c issuer key, N.castCid pb.keyDelegationCid = .ok c ∧
            (N.publicKey pid).Returns key ∧
            SignedDelegation F N.scheme u ⟨F.cidHash c, issuer, key⟩) ∧
      (∀ queryOrder pid account, (accountForDevice F N t queryOrder pid).Returns account →
        ∃ hash key, (N.publicKey pid).Returns key ∧
          SignedDelegation F N.scheme t ⟨hash, account, key⟩) ∧
      ∀ queryOrder queryOrder' pid account,
        (accountForDevice F N s queryOrder pid).Returns account →
        (accountForDevice F N t queryOrder' pid).Returns account := by
  have settled : Settled F N s := (settled_of_reaches .empty before).1
  rcases settled_of_reaches settled since with ⟨settled₁, keeps⟩
  refine ⟨fun order pid pb honest => ⟨?_, fun u returns => ?_⟩, ?_, ?_⟩
  · exact quiet_verifyHandshake fun c kd cast decoded => (honest c kd cast decoded).1
  · rcases (settled_of_verifyHandshake settled₁ honest returns).2 with
      ⟨c, kd, cast, isPeer, signed⟩
    exact ⟨c, kd.issuer, kd.delegate, cast, isPeer, signed⟩
  · intro queryOrder pid account returns
    rcases returns_accountForDevice returns with ⟨row, isRow, isKey, rfl⟩
    exact ⟨row.blob, row.delegate, isKey, settled₁.signed row isRow⟩
  · intro queryOrder queryOrder' pid account returns
    rcases returns_accountForDevice returns with ⟨row, isRow, isKey, rfl⟩
    exact settled₁.accountForDevice queryOrder' (keeps.delegations row isRow) isKey

end Runs

/-! ## A delegation of another peer -/

section Samples

/-- The text of ASCII bytes. -/
def asciiText (bytes : List UInt8) : String :=
  String.ofList (bytes.map fun b => Char.ofNat b.toNat)

/-- The bytes of an ASCII text. -/
def asciiBytes (s : String) : List UInt8 := s.toList.map fun c => UInt8.ofNat c.toNat

/-- The CID of a delegation is told from its keys. -/
def sampleNode : Node (sampleFormats sampleSha256) where
  scheme := sampleScheme
  castCid bytes := .ok (asciiText bytes)
  encodeBlob kd := .ok ("c" ++ base58Text (kd.issuer ++ kd.delegate), .keyDelegation kd)
  publicKey pid :=
    if pid = "device" then pure (samplePrincipal 11)
    else if pid = "other" then pure (samplePrincipal 13)
    else throw "no public key"
  encodes _ kd _ := ⟨_, _, rfl⟩
  decodes := by
    intro kd c data encoded
    cases encoded
    exact rfl

/-- The rows are returned as they are stored. -/
def listedRows : QueryOrder := ⟨id, fun _ => .rfl⟩

/-- The rows are returned in reverse order. -/
def reversedRows : QueryOrder := ⟨List.reverse, List.reverse_perm⟩

/-- The handshake with this delegation. -/
def sampleHandshake (kd : KeyDelegation) : HandshakeInfo DecodedBlob where
  keyDelegationCid := asciiBytes ("c" ++ base58Text (kd.issuer ++ kd.delegate))
  keyDelegationData := .keyDelegation kd

/-- The device introduces itself. -/
def handshakes : List (DeviceEvent DecodedBlob) :=
  [.handshake .listed "device" (sampleHandshake (sampleDelegation 1 11))]

def handshakesResult : Evaluated (performAll (serve (sampleFormats sampleSha256) sampleNode)
    .empty handshakes) :=
  .of (by decide +kernel)

theorem handshakes_served : (performAll (serve (sampleFormats sampleSha256) sampleNode)
    .empty handshakes).isSome = true :=
  handshakesResult.isSome

/-- The store of a node that was greeted by a device. -/
def greetedStore : Store DecodedBlob :=
  (performAll (serve (sampleFormats sampleSha256) sampleNode) .empty handshakes).get
    handshakes_served

theorem device_has_account : (accountForDevice (sampleFormats sampleSha256) sampleNode
    greetedStore listedRows "device").Returns (samplePrincipal 1) := by decide +kernel

/-- The delegation of another device is put. -/
def laterPuts : List (DeviceEvent DecodedBlob) :=
  [.put ⟨.listed, "cdelegation2", .keyDelegation (sampleDelegation 2 12)⟩]

def laterPutsResult : Evaluated (performAll (serve (sampleFormats sampleSha256) sampleNode)
    greetedStore laterPuts) :=
  .of (by decide +kernel)

theorem laterPuts_served : (performAll (serve (sampleFormats sampleSha256) sampleNode)
    greetedStore laterPuts).isSome = true :=
  laterPutsResult.isSome

/-- The store after the delegation of the other device has arrived. -/
def settledStore : Store DecodedBlob :=
  (performAll (serve (sampleFormats sampleSha256) sampleNode) greetedStore laterPuts).get
    laterPuts_served

theorem handshakes_honest : AllPermitted (serve (sampleFormats sampleSha256) sampleNode)
    (IsHonest (sampleFormats sampleSha256) sampleNode) .empty handshakes := by
  refine ⟨fun c kd cast decoded => ?_, fun _ _ => trivial⟩
  cases decoded
  constructor
  · exact ⟨by decide, by decide⟩
  · exact fun _ _ _ data _ => ⟨rfl, nofun, fun row found => nomatch found⟩

theorem laterPuts_honest : AllPermitted (serve (sampleFormats sampleSha256) sampleNode)
    (IsHonest (sampleFormats sampleSha256) sampleNode) greetedStore laterPuts := by
  have others : (greetedStore.keyDelegations.all fun row =>
      row.delegate != samplePrincipal 12) = true := by decide +kernel
  refine ⟨fun s₁ kd arrives _ => ?_, fun _ _ => trivial⟩
  cases arrives.decoded
  constructor
  · exact (by decide +kernel : ((sampleDelegation 2 12).verify
      (sampleFormats sampleSha256) sampleScheme).Returns ())
  · intro row isRow same
    have differs := List.all_eq_true.mp others row isRow
    rw [bne_iff_ne] at differs
    exact absurd same differs

theorem devices_speak_for_accounts_settledStore :
    (accountForDevice (sampleFormats sampleSha256) sampleNode settledStore reversedRows
      "device").Returns (samplePrincipal 1) :=
  (devices_speak_for_accounts
    (reaches_of_performAll handshakes_honest (Option.some_get handshakes_served).symm)
    (reaches_of_performAll laterPuts_honest (Option.some_get laterPuts_served).symm)).2.2
      listedRows reversedRows "device" (samplePrincipal 1) device_has_account

/-- The keys in the order in which delegations name them first. -/
def Store.delegationKeys (s : Store Data) : List Principal :=
  s.keyDelegations.flatMap fun row => [row.issuer, row.delegate]

/-- The rows by the number of the issuer, as the index by delegate and issuer has them. -/
def issuerOrder (keys : List Principal) : QueryOrder :=
  ⟨List.insertionSort fun row row' => keys.idxOf row.issuer ≤ keys.idxOf row'.issuer,
    List.perm_insertionSort _⟩

/-- The delegation of another account arrives before the device introduces itself. -/
def laterHandshakes : List (DeviceEvent DecodedBlob) := laterPuts ++ handshakes

def laterHandshakesResult : Evaluated (performAll
    (serve (sampleFormats sampleSha256) sampleNode) .empty laterHandshakes) :=
  .of (by decide +kernel)

/-- The store in which the account of another device was stored first. -/
def knownStore : Store DecodedBlob := laterHandshakesResult.val

theorem device_has_known_account : (accountForDevice (sampleFormats sampleSha256) sampleNode
    knownStore (issuerOrder knownStore.delegationKeys) "device").Returns
      (samplePrincipal 1) := by
  decide +kernel

/-- A delegation to the key of the device that nobody has signed. -/
def forgedDelegation : KeyDelegation := { sampleDelegation 2 11 with signature := "" }

/-- The forged delegation is put. -/
def forgedPuts : List (DeviceEvent DecodedBlob) :=
  [.put ⟨.listed, "cforged", .keyDelegation forgedDelegation⟩]

def forgedPutsResult : Evaluated (performAll (serve (sampleFormats sampleSha256) sampleNode)
    knownStore forgedPuts) :=
  .of (by decide +kernel)

/-- The store after the forged delegation has arrived. -/
def forgedStore : Store DecodedBlob := forgedPutsResult.val

theorem device_has_forged_account : (accountForDevice (sampleFormats sampleSha256)
    sampleNode forgedStore (issuerOrder forgedStore.delegationKeys) "device").Returns
      (samplePrincipal 2) := by
  decide +kernel

/-- The other peer sends the delegation of the device. -/
def copiedHandshakeResult : Evaluated (verifyHandshake (sampleFormats sampleSha256) sampleNode
    forgedStore .listed "other"
    (sampleHandshake (sampleDelegation 1 11))).returned :=
  .of (by decide +kernel)

theorem copied_handshake : (verifyHandshake (sampleFormats sampleSha256) sampleNode
    forgedStore .listed "other"
    (sampleHandshake (sampleDelegation 1 11))).returned.isSome = true :=
  copiedHandshakeResult.isSome

/-- A key of the other type that blobs may have. -/
def secp256k1Delegation : KeyDelegation :=
  { sampleDelegation 1 11 with issuer := 0xe7 :: 0x01 :: List.replicate 33 2 }

theorem secp256k1_handshake_panics : ¬ (verifyHandshake (sampleFormats sampleSha256)
    sampleNode forgedStore .listed "device"
    (sampleHandshake secp256k1Delegation)).Quiet := by
  apply Attempt.not_quiet_of_error
  exact rfl

/-- The row of a signed delegation to the key, from one of the issuers. -/
def isSignedRow (isIssuer : Principal → Bool) (delegate : Principal)
    (row : BlobRow DecodedBlob) : Bool :=
  match row.data with
  | some (.keyDelegation kd) => isIssuer kd.issuer && kd.delegate == delegate &&
      !(kd.verify (sampleFormats sampleSha256) sampleScheme).fails
  | _ => false

theorem signedRow_of_signed {s : Store DecodedBlob} {hash : String}
    {issuer delegate : Principal} (signed : SignedDelegation (sampleFormats sampleSha256)
      sampleScheme s ⟨hash, issuer, delegate⟩) (isIssuer : Principal → Bool)
    (isOne : isIssuer issuer = true) :
    s.blobs.any (isSignedRow isIssuer delegate) = true := by
  rcases signed with ⟨data, kd, there, decoded, rfl, rfl, verified⟩
  rcases Store.returns_getBlock.mp there with ⟨row, found, -, isData⟩
  apply List.any_eq_true.mpr ⟨row, List.mem_of_find?_eq_some found, ?_⟩
  cases data <;> cases decoded
  rw [isSignedRow, isData]
  simp [isOne, Attempt.fails, show _ = _ from verified]

/--
A copied handshake succeeds, another one panics, and a forged delegation gives a
device with an account another one.
-/
theorem devices_speak_for_others :
    ∃ s t, Reaches (serve (sampleFormats sampleSha256) sampleNode) (fun _ _ => True)
        .empty s ∧
      Reaches (serve (sampleFormats sampleSha256) sampleNode) (fun _ _ => True) s t ∧
      (∃ order pid pb,
        ¬ (verifyHandshake (sampleFormats sampleSha256) sampleNode t order pid pb).Quiet) ∧
      (∃ order pid pb u,
        (verifyHandshake (sampleFormats sampleSha256) sampleNode t order pid pb).Returns u ∧
          ¬ ∃ c issuer key, sampleNode.castCid pb.keyDelegationCid = .ok c ∧
            (sampleNode.publicKey pid).Returns key ∧
            SignedDelegation (sampleFormats sampleSha256) sampleScheme u
              ⟨(sampleFormats sampleSha256).cidHash c, issuer, key⟩) ∧
      ∃ queryOrder queryOrder' pid account account',
        (accountForDevice (sampleFormats sampleSha256) sampleNode s queryOrder pid).Returns
          account ∧
        (accountForDevice (sampleFormats sampleSha256) sampleNode t queryOrder' pid).Returns
          account' ∧ account ≠ account' ∧
        ¬ ∃ hash key, (sampleNode.publicKey pid).Returns key ∧
          SignedDelegation (sampleFormats sampleSha256) sampleScheme t
            ⟨hash, account', key⟩ := by
  refine ⟨knownStore, forgedStore,
    reaches_of_performAll (allPermitted_true _) laterHandshakesResult.property,
    reaches_of_performAll (allPermitted_true _) forgedPutsResult.property,
    ⟨.listed, "device", sampleHandshake secp256k1Delegation, secp256k1_handshake_panics⟩,
    ⟨.listed, "other", sampleHandshake (sampleDelegation 1 11), _,
      Attempt.returned_eq_some.mp (Option.some_get copied_handshake).symm, ?_⟩,
    issuerOrder knownStore.delegationKeys, issuerOrder forgedStore.delegationKeys, "device",
    samplePrincipal 1, samplePrincipal 2, device_has_known_account,
    device_has_forged_account, by decide, ?_⟩
  · rintro ⟨c, issuer, key, -, isKey, signed⟩
    have isOther : (sampleNode.publicKey "other").Returns (samplePrincipal 13) := rfl
    rcases isKey.unique isOther with rfl
    have isRow := signedRow_of_signed signed (fun _ => true) rfl
    exact absurd isRow (by decide +kernel)
  · rintro ⟨hash, key, isKey, signed⟩
    have isDevice : (sampleNode.publicKey "device").Returns (samplePrincipal 11) := rfl
    rcases isKey.unique isDevice with rfl
    have isRow := signedRow_of_signed signed (· == samplePrincipal 2) (by decide)
    exact absurd isRow (by decide +kernel)

end Samples

end Mintter.Hyper
