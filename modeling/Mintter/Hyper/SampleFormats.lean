import Mintter.Foundation.Base58
import Mintter.Hyper.Blobs

/-!
# Formats to compute with

Blobs that are their own encoding.  A CID is the multihash behind a letter; other
codecs than DAG-CBOR are counted in front of it.
-/

namespace Mintter.Hyper

open Mintter.Foundation
open Mintter.Crdt2

section Cids

/-- How many letters a codec has; the one of DAG-CBOR has none. -/
def codecLetters (codec : Nat) : Nat :=
  if codec = dagCbor then 0 else codec + 1

/-- The codec of a number of letters. -/
def lettersCodec : Nat → Nat
  | 0 => dagCbor
  | n + 1 => if n = dagCbor then 0 else n

/-- A CID: the letters of the codec, a `c` and the multihash. -/
def sampleCidV1 (codec : Nat) (hash : String) : String :=
  String.ofList (List.replicate (codecLetters codec) 'b' ++ 'c' :: hash.toList)

/-- The part of a CID behind its letters. -/
def behindLetters (c : String) : List Char := c.toList.dropWhile (· = 'b')

/-- The codec of a CID. -/
def sampleCidCodec (c : String) : Nat :=
  match behindLetters c with
  | 'c' :: _ => lettersCodec (c.toList.takeWhile (· = 'b')).length
  | _ => 0

/-- The multihash of a CID. -/
def sampleCidHash (c : String) : String := String.ofList (behindLetters c).tail

theorem behindLetters_sampleCidV1 (codec : Nat) (hash : String) :
    behindLetters (sampleCidV1 codec hash) = 'c' :: hash.toList := by
  rw [behindLetters, sampleCidV1, String.toList_ofList,
    List.dropWhile_append_of_pos (by simp)]
  rfl

theorem sampleCidCodec_sampleCidV1 (codec : Nat) (hash : String) :
    sampleCidCodec (sampleCidV1 codec hash) = codec := by
  rw [sampleCidCodec, behindLetters_sampleCidV1]
  simp only [sampleCidV1, String.toList_ofList]
  rw [List.takeWhile_append_of_pos (by simp),
    List.takeWhile_cons_of_neg (by decide), List.append_nil, List.length_replicate,
    codecLetters]
  split
  · next isCbor => rw [isCbor, lettersCodec]
  · next other => rw [lettersCodec, if_neg other]

theorem sampleCidHash_sampleCidV1 (codec : Nat) (hash : String) :
    sampleCidHash (sampleCidV1 codec hash) = hash := by
  rw [sampleCidHash, behindLetters_sampleCidV1, List.tail_cons,
    String.ofList_toList]

theorem sampleCidV1_of_dagCbor (c : String) (isCbor : sampleCidCodec c = dagCbor) :
    sampleCidV1 dagCbor (sampleCidHash c) = c := by
  rw [sampleCidCodec] at isCbor
  split at isCbor
  · next rest behind =>
      have noLetters : c.toList.takeWhile (· = 'b') = [] := by
        by_contra letters
        rcases List.ne_nil_iff_exists_cons.mp letters with ⟨_, others, isCons⟩
        rw [isCons, List.length_cons, lettersCodec] at isCbor
        split at isCbor
        · exact absurd isCbor (by decide)
        · next other => exact other isCbor
      have whole := List.takeWhile_append_dropWhile (p := (· = 'b')) (l := c.toList)
      rw [noLetters, List.nil_append] at whole
      rw [sampleCidV1, sampleCidHash, behind, String.toList_ofList, List.tail_cons,
        ← behind, behindLetters, whole]
      exact String.ofList_toList
  · exact absurd isCbor (by decide)

end Cids

/-- A public key of the right length. -/
def samplePrincipal (n : UInt8) : Principal := 0xed :: 0x01 :: List.replicate 32 n

/-- The bytes of a base58 text behind its letter. -/
def decodeBase58 (cs : List Char) : List UInt8 :=
  let digits := (cs.dropWhile (· = '1')).map base58Alphabet.idxOf
  List.replicate (cs.takeWhile (· = '1')).length 0 ++
    ((Nat.digits 256 (Nat.ofDigits 58 digits.reverse)).map UInt8.ofNat).reverse

/-- Decode a base58 text behind its letter. -/
def sampleMultibase (s : String) : Except String (Char × List UInt8) :=
  match s.toList with
  | 'z' :: cs =>
      if cs.all base58Alphabet.contains then .ok ('z', decodeBase58 cs)
      else .error "invalid base58 digit"
  | _ => .error "selected encoding not supported"

/-- Formats with these digests, for values that hold no URL and no block. -/
def sampleFormats (sha256 : List UInt8 → String) : Formats DecodedBlob where
  keys := ⟨(·.length == 32), fun _ => false⟩
  size _ := 1
  cidCodec := sampleCidCodec
  cidHash := sampleCidHash
  newCidV1 := sampleCidV1
  cidCodec_newCidV1 := sampleCidCodec_sampleCidV1
  cidHash_newCidV1 := sampleCidHash_sampleCidV1
  newCidV1_of_dagCbor := sampleCidV1_of_dagCbor
  parseCid c := .ok c
  decodePBNode
    | .dagPB links => .ok links
    | _ => .error "not a node"
  inferType
    | .keyDelegation _ => .ok "KeyDelegation"
    | .change _ => .ok "Change"
    | .comment _ => .ok "Comment"
    | .dagPB _ => .error "no type"
  decodeKeyDelegation
    | .keyDelegation kd => .ok kd
    | _ => .error "not a key delegation"
  decodeChange
    | .change ch => .ok ch
    | _ => .error "not a change"
  decodeComment
    | .comment cm => .ok cm
    | _ => .error "not a comment"
  reencode := .ok
  reencode_eq := fun _ _ isOk => (Except.ok.inj isOk).symm
  decodeBlock _ := .error "no block"
  base58 := base58Text
  base58_injective := base58Text_injective
  decodeMultibase := sampleMultibase
  sha256Base58 := sha256
  parseURL _ := .error "no URL"
  originURL scheme host := scheme ++ "://" ++ host

/-! ## URLs -/

/-- The characters before the separator and behind it. -/
def cutAt (separator : Char) (cs : List Char) : List Char × List Char :=
  (cs.takeWhile (· ≠ separator), (cs.dropWhile (· ≠ separator)).tail)

/-- The parts of a URL that has no escapes, no user and no port. -/
def sampleURL (rawURL : String) : URL :=
  let (whole, fragment) := cutAt '#' rawURL.toList
  let (address, query) := cutAt '?' whole
  let (scheme, rest) := cutAt ':' address
  let place := rest.drop 2
  { scheme := String.ofList scheme
    host := String.ofList (place.takeWhile (· ≠ '/'))
    hostname := String.ofList (place.takeWhile (· ≠ '/'))
    path := String.ofList (place.dropWhile (· ≠ '/'))
    fragment := String.ofList fragment
    query := ((query.splitOn '&').filter (· ≠ [])).map fun field =>
      (String.ofList (cutAt '=' field).1, String.ofList (cutAt '=' field).2) }

/-- Formats for values that hold such URLs. -/
def urlFormats (sha256 : List UInt8 → String) : Formats DecodedBlob :=
  { sampleFormats sha256 with parseURL := fun rawURL => .ok (sampleURL rawURL) }

/-! ## A group -/

/-- Sixteen bytes. -/
def sampleNonce : List UInt8 := (List.range 16).map UInt8.ofNat

/-- When the group is created, in seconds. -/
def sampleCreateTime : Int := 1700000001

/-- The digest of what the identifier of the group is made of. -/
def sampleSha256 (bytes : List UInt8) : String :=
  if bytes = samplePrincipal 1 ++ sampleNonce ++ bigEndian sampleCreateTime then
    "zCuxmaMTDtLUrmMhkaXDUKQThnwfhnyChYhvWiv7CLe2B"
  else ""

/-- The id of the group. -/
def sampleGroup : String := "hm://g/ThnwfhnyChYhvWiv7CLe2B"

/-- An account delegates to a device. -/
def sampleDelegation (issuer delegate : UInt8) : KeyDelegation where
  issuer := samplePrincipal issuer
  delegate := samplePrincipal delegate
  issueTime := 1700000000
  purpose := delegationPurposeRegistration
  signature := "signature"

/-- The first account creates the group. -/
def sampleCreate : Change where
  deps := []
  delegation := "cdelegation1"
  action := "Create"
  hlcTime := 1700000001000000
  entity := sampleGroup
  patch := [("title", .string "Group"), ("nonce", .bytes sampleNonce),
    ("createTime", .int sampleCreateTime), ("owner", .bytes (samplePrincipal 1))]
  signer := samplePrincipal 11
  sig := "signature"

/-- A change of the members of the group after its creation. -/
def sampleMemberChange (delegation : String) (signer : UInt8) (time : Int)
    (member : UInt8) (role : Int) : Change where
  deps := ["ccreate"]
  delegation := delegation
  action := "Update"
  hlcTime := time
  entity := sampleGroup
  patch := [("members", .map [(base58Text (samplePrincipal member), .int role)])]
  signer := samplePrincipal signer
  sig := "signature"

end Mintter.Hyper
