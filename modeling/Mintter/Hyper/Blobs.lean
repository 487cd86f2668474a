import Mintter.Hyper.Entity

/-!
# Blobs and their formats

The blobs that the daemon understands, and what it needs of the libraries that
encode them: CIDs, CBOR, URLs and base58 texts.  `Data` is the type of the bytes
of a blob; only the decoders look inside.  A CID is its text, and the empty text
is the undefined CID.
-/

namespace Mintter.Hyper

open Mintter.Foundation
open Mintter.Crdt2

/-- An account lets a device sign for it. -/
structure KeyDelegation where
  issuer : Principal
  delegate : Principal
  issueTime : Int
  purpose : String
  signature : String

/-- The only purpose there is. -/
def delegationPurposeRegistration : String := "DeviceRegistration"

/-- A range of text with a type and a reference. -/
structure Annotation where
  type : String
  ref : String
deriving DecidableEq

/-- What indexing reads of a block of a document. -/
structure DocumentBlock where
  type : String
  ref : String
  annotations : List Annotation
deriving DecidableEq

/-- What indexing reads of a block of a comment. -/
inductive CommentBlock where
  | mk (id type ref : String) (annotations : List Annotation)
      (children : List CommentBlock)

/-- A comment on an entity, which may reply to another comment. -/
structure Comment where
  delegation : String
  target : String
  threadRoot : String
  repliedComment : String
  hlcTime : Int
  body : List CommentBlock
  signer : Principal
  sig : String

/-- A link of a DAG-PB node. -/
structure PBLink where
  name : Option String
  hash : String
deriving DecidableEq

/-- A decoded blob. -/
inductive DecodedBlob where
  | dagPB (links : List PBLink)
  | keyDelegation (kd : KeyDelegation)
  | change (ch : Change)
  | comment (cm : Comment)

/-- The parts of a URL. -/
structure URL where
  scheme : String
  host : String
  hostname : String
  path : String
  fragment : String
  query : List (String × String)

namespace URL

/-- Whether the query has a parameter. -/
def has (u : URL) (key : String) : Bool := u.query.any (·.1 == key)

/-- The first value of a parameter, or nothing. -/
def get (u : URL) (key : String) : String :=
  ((u.query.find? (·.1 == key)).map (·.2)).getD ""

end URL

/-- The codecs of the blobs that are indexed. -/
def dagPb : Nat := 0x70

/-- The codec of structural blobs. -/
def dagCbor : Nat := 0x71

/-- Whether blobs of a codec are indexed. -/
def isIndexable (codec : Nat) : Bool := codec == dagCbor || codec == dagPb

/-- The libraries that encode and decode blobs, keys, CIDs and URLs. -/
structure Formats (Data : Type) where
  keys : Principal.KeyLibrary
  size : Data → Nat
  cidCodec : String → Nat
  cidHash : String → String
  newCidV1 : Nat → String → String
  cidCodec_newCidV1 : ∀ codec hash, cidCodec (newCidV1 codec hash) = codec
  cidHash_newCidV1 : ∀ codec hash, cidHash (newCidV1 codec hash) = hash
  newCidV1_of_dagCbor : ∀ c, cidCodec c = dagCbor →
    newCidV1 dagCbor (cidHash c) = c
  parseCid : String → Except String String
  decodePBNode : Data → Except String (List PBLink)
  inferType : Data → Except String String
  decodeKeyDelegation : Data → Except String KeyDelegation
  decodeChange : Data → Except String Change
  decodeComment : Data → Except String Comment
  /-- Encode a patch and decode it again. -/
  reencode : Object → Except String Object
  reencode_eq : ∀ patch patch', reencode patch = .ok patch' → patch' = patch
  /-- Convert a value to JSON and from there to a block. -/
  decodeBlock : Value → Except String DocumentBlock
  base58 : List UInt8 → String
  base58_injective : Function.Injective base58
  decodeMultibase : String → Except String (Char × List UInt8)
  /-- The base58 text of the SHA-256 digest. -/
  sha256Base58 : List UInt8 → String
  parseURL : String → Except String URL
  /-- The text of the URL with only this scheme and host. -/
  originURL : String → String → String

variable {Data : Type} (F : Formats Data)

/-! ## Principals and identifiers -/

/-- The text of a principal. -/
def Formats.principalString (p : Principal) : String :=
  if p = [] then "" else F.base58 p

/-- The principal with this text. -/
def Formats.decodePrincipal (s : String) : Attempt Principal :=
  if s = "" then throw "must specify principal to decode"
  else match F.decodeMultibase s with
    | .error err => throw err
    | .ok (enc, data) =>
        if enc ≠ 'z' then throw s!"unsupported principal multibase: {enc}"
        else Principal.decodeBytes data

/-- The resource of an account. -/
def Formats.accountIRI (p : Principal) : String :=
  "hm://a/" ++ F.principalString p

/-- Accounts with one identifier are one account. -/
theorem accountIRI_inj {F : Formats Data} {key key' : Principal} (nonempty : key ≠ [])
    (nonempty' : key' ≠ []) (same : F.accountIRI key = F.accountIRI key') :
    key = key' := by
  rw [Formats.accountIRI, Formats.accountIRI, Formats.principalString,
    Formats.principalString, if_neg nonempty, if_neg nonempty'] at same
  apply F.base58_injective
  have lists := congrArg String.toList same
  rw [String.toList_append, String.toList_append,
    List.append_cancel_left_eq] at lists
  exact String.toList_inj.mp lists

/-- The eight bytes of a 64-bit number, the most significant one first. -/
def bigEndian (n : Int) : List UInt8 :=
  (List.range 8).reverse.map fun i =>
    UInt8.ofNat ((n % 2 ^ 64).toNat / 256 ^ i % 256)

/-- The characters of a digest that make an identifier. -/
def hashSize : Nat := 22

/-- The identifier made of the author, the nonce and the time. -/
def Formats.newUnforgeableID (idPrefix : String) (author : Principal)
    (nonce : List UInt8) (ts : Int) : String :=
  let base := (F.sha256Base58 (author ++ nonce ++ bigEndian ts)).toList
  idPrefix ++ String.ofList (base.drop (base.length - hashSize))

/-- The common length of the prefixes of entities, in bytes. -/
def idPrefixLen : Nat := 7

/-- The whole characters among the first `n` bytes. -/
def takeBytes : Nat → List Char → List Char
  | _, [] => []
  | n, c :: cs =>
      if c.utf8Size ≤ n then c :: takeBytes (n - c.utf8Size) cs else []

/-- Whether an id is the digest of its owner, a nonce and a time. -/
def Formats.verifyUnforgeableID (id : String) (owner : Principal)
    (nonce : List UInt8) (ts : Int) : Attempt Unit :=
  if id.utf8ByteSize < idPrefixLen then
    .abort s!"runtime error: slice bounds out of range [:7] with length {id.utf8ByteSize}"
  else
    let idPrefix := String.ofList (takeBytes idPrefixLen id.toList)
    let id2 := F.newUnforgeableID idPrefix owner nonce ts
    .check (id2 ≠ id)
      s!"failed to verify unforgeable ID want={id} got={id2}"

/-- The text starts with the other one. -/
def hasPrefix (s start : String) : Bool := start.toList.isPrefixOf s.toList

/-- A text that does not start with another one is no extension of it. -/
theorem append_ne_of_hasPrefix {start rest text : String}
    (different : hasPrefix text start = false) : start ++ rest ≠ text := by
  rintro rfl
  have isPrefix : hasPrefix (start ++ rest) start = true := by
    rw [hasPrefix, List.isPrefixOf_iff_prefix, String.toList_append]
    exact List.prefix_append ..
  exact Bool.false_ne_true (different.symm.trans isPrefix)

/-! ## Decoding -/

/-- The blob that a block with this codec holds. -/
def Formats.decodeBlob (codec : Nat) (data : Data) : Except String DecodedBlob :=
  if codec = dagPb then (F.decodePBNode data).map .dagPB
  else if codec = dagCbor then do
    let type ← F.inferType data
    if type = "KeyDelegation" then
      (F.decodeKeyDelegation data).map .keyDelegation
    else if type = "Change" then (F.decodeChange data).map .change
    else if type = "Comment" then (F.decodeComment data).map .comment
    else .error s!"unknown hyper blob type: '{type}'"
  else .error "not a hyper blob"

/-- The CIDs of a version. -/
def Formats.parseVersion (v : String) : Except String (List String) :=
  if v = "" then .ok []
  else (v.splitOn ".").mapM fun part =>
    (F.parseCid part).mapError (s!"failed to parse version: {·}")

end Mintter.Hyper
