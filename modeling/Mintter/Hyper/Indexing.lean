import Mintter.Hyper.Store

/-!
# Indexing blobs

A blob is indexed when its data arrives: it is validated against the tables, and
then its structural row, its links and what it says about resources are stored.
The maps of a patch are visited in the order of `FieldOrder`, which stands for
the random order of the language.
-/

namespace Mintter.Hyper

open Mintter.Foundation
open Mintter.Crdt2

variable {Data : Type}

/-! ## Structural blobs -/

/-- What is indexed of a blob. -/
structure StructuralBlob where
  type : String
  author : Option Principal
  /-- Missing for the zero time. -/
  time : Option Int
  resource : String
  resourceOwner : Option Principal
  resourceCreateTime : Option Int
  blobLinks : List (String × String)
  resourceLinks : List (String × String × Bool × LinkMeta)
  title : String

/-- The microseconds of the zero time. -/
def zeroTime : Int := -62135596800000000

/-- A time that is stored, unless it is the zero time. -/
def nonzeroTime (t : Int) : Option Int := if t = zeroTime then none else some t

/-- A structural blob without links. -/
def newStructuralBlob (blobType : String) (author : Principal) (ts : Int)
    (resource : String) (resourceOwner : Option Principal)
    (resourceTimestamp : Option Int) : StructuralBlob where
  type := blobType
  author := some author
  time := nonzeroTime ts
  resource := resource
  resourceOwner := resourceOwner
  resourceCreateTime := resourceTimestamp
  blobLinks := []
  resourceLinks := []
  title := ""

/-- A structural blob that has only a type. -/
def newSimpleStructuralBlob (blobType : String) : StructuralBlob where
  type := blobType
  author := none
  time := none
  resource := ""
  resourceOwner := none
  resourceCreateTime := none
  blobLinks := []
  resourceLinks := []
  title := ""

namespace StructuralBlob

variable (sb : StructuralBlob)

/-- Add a link to a blob. -/
def addBlobLink (linkType target : String) : StructuralBlob :=
  { sb with blobLinks := sb.blobLinks ++ [(linkType, target)] }

/-- Add a link to a resource. -/
def addResourceLink (linkType target : String) (isPinned : Bool)
    (metadata : LinkMeta) : StructuralBlob :=
  { sb with
    resourceLinks := sb.resourceLinks ++ [(linkType, target, isPinned, metadata)] }

/-- Add a link to a CID if it is defined. -/
def addDefinedLink (linkType target : String) : StructuralBlob :=
  if target ≠ "" then sb.addBlobLink linkType target else sb

/-- The title is the text under a field of the patch. -/
def withTitle (title : Option Value) : StructuralBlob :=
  match title with
  | some (.string title) => { sb with title }
  | _ => sb

/-- Link to the avatar of an account. -/
def withAvatar (avatar : Option Value) : StructuralBlob :=
  match avatar with
  | some (.link avatar) => sb.addBlobLink "account/avatar" avatar
  | _ => sb

/-- Link to the root document of an account. -/
def withRootDocument (rootDocument : Option Value) : StructuralBlob :=
  match rootDocument with
  | some (.string doc) =>
      sb.addResourceLink "account/root-document" doc false .none
  | _ => sb

end StructuralBlob

namespace Store

variable (F : Formats Data) (s : Store Data)

/-- Make sure that an account is there and owns itself. -/
def ensureAccount (key : Principal) : Attempt (Store Data) := do
  key.unsafeString
  let accountResource := F.accountIRI key
  pure ((s.ensureResource accountResource).resourcesMaybeSetOwner
    accountResource key)

/-- Set the owner of a resource, if one is given and there is none. -/
def ensureOwner (iri : String) : Option Principal → Attempt (Store Data)
  | none => pure s
  | some key => do
      key.unsafeString
      pure (s.resourcesMaybeSetOwner iri key)

/-- Set the time of a resource, in seconds. -/
def ensureCreateTime (iri : String) : Option Int → Attempt (Store Data)
  | none => pure s
  | some t => do
      Attempt.check (t / 10 ^ 6 = 0) "must specify timestamp"
      pure (s.resourcesMaybeSetTimestamp iri (t / 10 ^ 6))

/-- Make sure that a resource is there, with its owner and its creation time. -/
def ensureResourceMetadata (iri : String) (owner : Option Principal)
    (createTime : Option Int) : Attempt (Store Data) := do
  let s ← (s.ensureResource iri).ensureOwner iri owner
  s.ensureCreateTime iri createTime

/-- Store the resource of a blob. -/
def saveResource (b : StructuralBlob) : Attempt (Store Data) :=
  if b.resource = "" then pure s
  else s.ensureResourceMetadata b.resource b.resourceOwner b.resourceCreateTime

/-- The row of a structural blob. -/
def structuralRow (hash : String) (b : StructuralBlob) : StructuralBlobRow where
  blob := hash
  type := b.type
  ts := b.time
  author := b.author
  resource := if b.resource = "" then none else some b.resource
  title := if b.title = "" then none else some b.title

/-- Store a link to a blob, which may not be there yet. -/
def saveBlobLink (hash : String) (s : Store Data) (link : String × String) :
    Store Data :=
  (s.ensureBlob F link.2).blobLinksInsertOrIgnore
    ⟨hash, link.1, F.cidHash link.2⟩

/-- Store a link to a resource, which may not be there yet. -/
def saveResourceLink (hash : String) (s : Store Data)
    (link : String × String × Bool × LinkMeta) : Store Data :=
  (s.ensureResource link.2.1).resourceLinksInsert
    ⟨hash, link.2.1, link.1, link.2.2.1, link.2.2.2⟩

/-- Store the account of the author of a blob. -/
def saveAuthor : Option Principal → Attempt (Store Data)
  | none => pure s
  | some key => s.ensureAccount F key

/-- Store a structural blob.  The source stores its resource twice. -/
def saveBlob (hash : String) (b : StructuralBlob) : Attempt (Store Data) := do
  let s ← s.saveAuthor F b.author
  let s ← s.saveResource b
  let s ← s.saveResource b
  Attempt.check (s.structuralBlobs.any (·.blob == hash) = true)
    "UNIQUE constraint failed: structural_blobs.id"
  let s := { s with
    structuralBlobs := s.structuralBlobs ++ [structuralRow hash b] }
  let s := b.blobLinks.foldl (saveBlobLink F hash) s
  pure (b.resourceLinks.foldl (saveResourceLink hash) s)

/-- The issuer of a key delegation; one that is not indexed is decoded. -/
def delegationIssuer (delegation : String) : Attempt Principal :=
  match s.keyDelegationsGetIssuer (F.cidHash delegation) with
  | some issuer => pure issuer
  | none => do
      let data ← s.getBlock (F.cidHash delegation)
      let del ← Attempt.ofExcept (F.decodeKeyDelegation data)
      del.issuer.unsafeString
      pure del.issuer

/-- The account on whose behalf a key of this delegation signs. -/
def getAuthorFromDelegation (delegation : String) : Attempt Principal := do
  let issuer ← s.delegationIssuer F delegation
  let author ← Principal.decodeBytes issuer
  s.assertBlobData F delegation
  pure author

end Store

/-! ## References -/

section References

variable (F : Formats Data)

/-- The text without the slash at its start. -/
def trimSlash (s : String) : String :=
  match s.toList with
  | '/' :: rest => String.ofList rest
  | _ => s

/-- Add the links that a URL stands for.  A malformed URL is only logged. -/
def indexURL (anchor linkType : String) (sb : StructuralBlob) (rawURL : String) :
    Except String StructuralBlob :=
  if rawURL = "" then .ok sb
  else match F.parseURL rawURL with
    | .error _ => .ok sb
    | .ok u =>
        if u.scheme = "hm" ∧ u.host ≠ "c" then do
          let targetVersion := u.get "v"
          let isLatest := u.has "l" || targetVersion == ""
          let sb := sb.addResourceLink linkType ("hm://" ++ u.host ++ u.path)
            (!isLatest) (.document anchor u.fragment targetVersion)
          let vblobs ← F.parseVersion targetVersion
          pure (vblobs.foldl (·.addBlobLink linkType ·) sb)
        else if u.scheme = "hm" ∧ u.host = "c" then
          match F.parseCid (trimSlash u.path) with
          | .error err => .error s!"failed to parse comment CID {rawURL}: {err}"
          | .ok c => .ok (sb.addBlobLink linkType c)
        else if u.scheme = "ipfs" then
          match F.parseCid u.hostname with
          | .error err => .error s!"failed to parse IPFS URL {rawURL}: {err}"
          | .ok c => .ok (sb.addBlobLink linkType c)
        else .ok sb

/-- Add the links of the annotations of a block. -/
def indexAnnotations (anchor kind : String) (sb : StructuralBlob)
    (annotations : List Annotation) : Except String StructuralBlob :=
  annotations.foldlM
    (fun sb ann => indexURL F anchor (kind ++ ann.type) sb ann.ref) sb

/-- Add the links of a block of a document, whose fields are under `#map`. -/
def indexBlock (sb : StructuralBlob) (block : String × Value) :
    Attempt StructuralBlob :=
  match block.2 with
  | .map fields =>
      match Object.get fields "#map" with
      | none => pure sb
      | some v => Attempt.ofExcept do
          let blk ← F.decodeBlock v
          let sb ← indexURL F block.1 ("doc/" ++ blk.type) sb blk.ref
          indexAnnotations F block.1 "doc/" sb blk.annotations
  | _ => .abort "interface conversion: interface {} is not map[string]interface {}"

mutual

/-- Add the links of a block of a comment and of the blocks below it. -/
def indexCommentBlock (sb : StructuralBlob) :
    CommentBlock → Except String StructuralBlob
  | .mk id type ref annotations children => do
      let sb ← indexURL F id ("comment/" ++ type) sb ref
      let sb ← indexAnnotations F id "comment/" sb annotations
      indexCommentContent sb children

/-- Index the blocks of a comment one after the other. -/
def indexCommentContent (sb : StructuralBlob) :
    List CommentBlock → Except String StructuralBlob
  | [] => .ok sb
  | block :: rest => do
      let sb ← indexCommentBlock sb block
      indexCommentContent sb rest

end

end References

/-! ## Kinds of blobs -/

section Kinds

variable (F : Formats Data) (order : FieldOrder) (s : Store Data)

/-- The link type of a link of a DAG-PB node. -/
def pbLinkType (link : PBLink) : String :=
  match link.name with
  | some name => if name = "" then "dagpb/chunk" else "dagpb/" ++ name
  | none => "dagpb/chunk"

/-- Index a DAG-PB node: the links to its parts. -/
def indexDagPB (c : String) (links : List PBLink) : Attempt (Store Data) :=
  s.saveBlob F (F.cidHash c)
    (links.foldl (fun sb link => sb.addBlobLink (pbLinkType link) link.hash)
      (newSimpleStructuralBlob "DagPB"))

/-- Index a key delegation, with the account that issues it. -/
def indexKeyDelegation (c : String) (v : KeyDelegation) : Attempt (Store Data) := do
  Attempt.check (v.purpose ≠ delegationPurposeRegistration)
    s!"unknown key delegation purpose {v.purpose}"
  Principal.libp2pKey F.keys v.issuer
  Principal.libp2pKey F.keys v.delegate
  let issuerProfile := F.accountIRI v.issuer
  let sb := (newStructuralBlob "KeyDelegation" v.issuer
    (wrap64 (v.issueTime * 10 ^ 6)) issuerProfile (some v.issuer) none)
    |>.addResourceLink "kd/issuer" issuerProfile false .none
  v.issuer.unsafeString
  v.delegate.unsafeString
  let s := s.keyDelegationsInsertOrIgnore ⟨F.cidHash c, v.issuer, v.delegate⟩
  s.saveBlob F (F.cidHash c) sb

/-- The action of a first change. -/
def actionCreate : String := "Create"

/-- The action of every other change. -/
def actionUpdate : String := "Update"

/-- A field of a patch that is present and not null. -/
def isSet (field : Option Value) : Bool :=
  match field with
  | none | some .null => false
  | _ => true

/-- A change that creates an entity proves its identifier. -/
def validateCreate (v : Change) (author : Principal) : Attempt Unit :=
  match Object.get v.patch "nonce" with
  | some (.bytes nonce) =>
      match Object.get v.patch "createTime" with
      | some (.int ct) =>
          match Object.get v.patch "owner" with
          | some (.bytes ownerField) => do
              Attempt.check (ownerField ≠ author)
                "owner field in the create change must correspond with the author of the change"
              F.verifyUnforgeableID v.entity ownerField nonce ct
          | _ => throw
              "change that creates an entity must have an owner field in its patch"
      | _ => throw
          "change that creates an entity must have a createTime field in its patch"
  | _ => throw
      "change that creates an entity must have a nonce to verify the ID"

/-- What every change but the first must satisfy. -/
def validateUpdate (v : Change) : Attempt Unit := do
  Attempt.check (v.deps = []) "change with Update action must have at least one dep"
  Attempt.check (isSet (Object.get v.patch "nonce") = true)
    "update change must not have nonce set"
  Attempt.check (isSet (Object.get v.patch "owner") = true)
    "update change must not have owner field"
  Attempt.check (isSet (Object.get v.patch "createTime") = true)
    "update change must not have createTime field"

/-- Validate what a change creates or updates; other actions are not looked at. -/
def validateChange (c : String) (v : Change) (author : Principal) : Attempt Unit :=
  let isHMEntity := hasPrefix v.entity "hm://"
  let isAccountChange := hasPrefix v.entity "hm://a/"
  if isHMEntity && v.action == "" && !isAccountChange then
    throw s!"non-account change {c} must have an action specified"
  else if isHMEntity && v.action == actionCreate then validateCreate F v author
  else if isHMEntity && v.action == actionUpdate then validateUpdate v
  else pure ()

/-- The structural blob of a change, before its patch is looked at. -/
def changeBlob (v : Change) (author : Principal) : StructuralBlob :=
  newStructuralBlob "Change" author v.hlcTime v.entity (some author)
    (if v.action = actionCreate then nonzeroTime v.hlcTime else none)

/-- Every dependency must be there. -/
def addDeps (c : String) (v : Change) (sb : StructuralBlob) :
    Attempt StructuralBlob :=
  v.deps.foldlM (fun sb dep => do
    Attempt.check (s.hasBlobData F dep = false)
      s!"missing causal dependency {dep} of change {c}"
    pure (sb.addBlobLink "change/dep" dep)) sb

/-- Index a change of an account. -/
def indexAccount (v : Change) (patch : Object) (sb : StructuralBlob) :
    Attempt StructuralBlob := do
  Attempt.check (s.isDeleted v.entity = true)
    s!"Change belongs to a deleted account [{v.entity}]"
  pure (((sb.withAvatar (Object.get patch "avatar")).withTitle
    (Object.get patch "alias")).withRootDocument
      (Object.get patch "rootDocument"))

/-- Index the blocks that a change writes, in the order of the map. -/
def indexBlocks (patch : Object) (sb : StructuralBlob) :
    Attempt StructuralBlob :=
  match Object.get patch "blocks" with
  | some (.map blocks) => (order.fields 0 blocks).foldlM (indexBlock F) sb
  | _ => pure sb

/-- Index a change of a document. -/
def indexDocument (v : Change) (patch : Object) (sb : StructuralBlob) :
    Attempt StructuralBlob := do
  Attempt.check (s.isDeleted v.entity = true)
    s!"Change belongs to a deleted document [{v.entity}]"
  indexBlocks F order patch (sb.withTitle (Object.get patch "title"))

/-- Conversion to a 32-bit integer. -/
def toRole (n : Int) : Int := n.bmod (2 ^ 32)

/-- The role of the author of a change of a group. -/
def currentRole (v : Change) (author : Principal) : Attempt Int := do
  author.unsafeString
  let owner ← s.resourceGetOwner v.entity
  if owner = author then pure roleOwner
  else do
    let role ← s.getGroupRole v.entity (F.accountIRI author)
    pure (toRole role)

/-- The creator of a group becomes a member; others must be members. -/
def indexAuthorRole (v : Change) (author : Principal) (sb : StructuralBlob) :
    Attempt (Store Data × StructuralBlob × Int) :=
  if v.action = actionCreate then
    pure (s, sb.addResourceLink "group/member" (F.accountIRI author) false
      (.group roleOwner), roleOwner)
  else do
    let s := s.ensureResource v.entity
    let role ← currentRole F s v author
    pure (s, sb, role)

/-- Only members change groups, and only owners some of the fields. -/
def checkRole (v : Change) (patch : Object) (role : Int) : Attempt Unit := do
  Attempt.check (role ≠ roleOwner ∧ role ≠ roleEditor)
    s!"only members can change groups: account is not a member of the group {v.entity}"
  Attempt.check (role ≠ roleOwner ∧ isSet (Object.get patch "siteURL") = true)
    "only group owner can set siteURL"
  Attempt.check (role ≠ roleOwner ∧ isSet (Object.get patch "members") = true)
    "only group owner can change members"

/-- The site of a group has a URL with only a scheme and a host. -/
def checkSiteURL (siteURL : String) : Attempt Unit :=
  match F.parseURL siteURL with
  | .error err => throw s!"failed to parse site URL {siteURL}: {err}"
  | .ok u => do
      Attempt.check (u.scheme ≠ "http" ∧ u.scheme ≠ "https")
        s!"site URL must have http or https scheme, got {siteURL}"
      Attempt.check (siteURL ≠ F.originURL u.scheme u.host)
        s!"site URL must have only scheme and host, got {siteURL}"

/-- Record the site that a change gives to a group. -/
def indexSite (c : String) (v : Change) (patch : Object) :
    Attempt (Store Data) :=
  match Object.get patch "siteURL" with
  | some (.string siteURL) => do
      checkSiteURL F siteURL
      pure (s.sitesInsertOrIgnore
        ⟨v.entity, siteURL, v.hlcTime, originFromCID c⟩)
  | _ => pure s

/-- Content that is not a text is only logged. -/
def indexContentEntry (sb : StructuralBlob) (entry : String × Value) :
    Attempt StructuralBlob :=
  match entry.2 with
  | .string rawURL =>
      Attempt.ofExcept (indexURL F entry.1 "group/content" sb rawURL)
  | _ => pure sb

/-- Index the contents of a group, in the order of the map. -/
def indexContent (patch : Object) (sb : StructuralBlob) :
    Attempt StructuralBlob :=
  match Object.get patch "content" with
  | some (.map content) =>
      (order.fields 1 content).foldlM (indexContentEntry F) sb
  | _ => pure sb

/-- Add a member with a role, which may not be the role of the owner. -/
def indexMember (state : Store Data × StructuralBlob) (entry : String × Value) :
    Attempt (Store Data × StructuralBlob) := do
  let acc ← F.decodePrincipal entry.1
  match entry.2 with
  | .int role => do
      Attempt.check (role = roleUnspecified) "member role must be specified"
      Attempt.check (role = roleOwner) "owner role can't be used in updates"
      let s ← state.1.ensureAccount F acc
      pure (s, state.2.addResourceLink "group/member" (F.accountIRI acc) false
        (.group (toRole role)))
  | _ => throw "member must have valid role"

/-- Index the members of a group, in the order of the map. -/
def indexMembers (patch : Object) (sb : StructuralBlob) :
    Attempt (Store Data × StructuralBlob) :=
  match Object.get patch "members" with
  | some (.map members) =>
      (order.fields 2 members).foldlM (indexMember F) (s, sb)
  | _ => pure (s, sb)

/-- Index a change of a group, if its author may make it. -/
def indexGroup (c : String) (v : Change) (patch : Object) (author : Principal)
    (sb : StructuralBlob) : Attempt (Store Data × StructuralBlob) := do
  Attempt.check (s.isDeleted v.entity = true)
    s!"Change belongs to a deleted group [{v.entity}]"
  let (s, sb, role) ← indexAuthorRole F s v author
    (sb.withTitle (Object.get patch "title"))
  checkRole v patch role
  let s ← indexSite F s c v patch
  let sb ← indexContent F order patch sb
  indexMembers F order s patch sb

/-- Index what is specific to the kind of the entity. -/
def indexEntity (c : String) (v : Change) (patch : Object) (author : Principal)
    (sb : StructuralBlob) : Attempt (Store Data × StructuralBlob) :=
  if hasPrefix v.entity "hm://a/" then do
    let sb ← indexAccount s v patch sb
    pure (s, sb)
  else if hasPrefix v.entity "hm://d/" then do
    let sb ← indexDocument F order s v patch sb
    pure (s, sb)
  else if hasPrefix v.entity "hm://g/" then
    indexGroup F order s c v patch author sb
  else pure (s, sb)

/-- Index a change by the type of its entity. -/
def indexChange (c : String) (v : Change) : Attempt (Store Data) := do
  let author ← s.getAuthorFromDelegation F v.delegation
  validateChange F c v author
  let sb ← addDeps F s c v (changeBlob v author)
  let sb := sb.addBlobLink "change/auth" v.delegation
  let patch ← Attempt.ofExcept (F.reencode v.patch)
  let (s, sb) ← indexEntity F order s c v patch author sb
  s.saveBlob F (F.cidHash c) sb

/-- The characters before the first occurrence of the separator. -/
def charsBefore (separator : List Char) : List Char → List Char
  | [] => []
  | c :: cs =>
      if separator.isPrefixOf (c :: cs) then [] else c :: charsBefore separator cs

/-- The text before the first occurrence of the separator. -/
def cutBefore (separator s : String) : String :=
  String.ofList (charsBefore separator.toList s.toList)

/-- A reply must be about the target and in the thread of what it replies to. -/
def checkReply (v : Comment) : Attempt Unit := do
  Attempt.check (v.repliedComment = "" ∨ v.threadRoot = "")
    "replies must have both repliedComment and threadRoot set"
  let data ← s.getBlock (F.cidHash v.repliedComment)
  match F.decodeBlob (F.cidCodec v.repliedComment) data with
  | .error err =>
      throw s!"failed to decode replied comment {v.repliedComment}: {err}"
  | .ok (.comment rc) => do
      Attempt.check (v.hlcTime < rc.hlcTime)
        "reply must have a higher timestamp than the replied comment"
      Attempt.check (cutBefore "?" v.target ≠ cutBefore "?" rc.target)
        "reply target doesn't match replied comment's target"
      if rc.threadRoot ≠ "" then
        Attempt.check (v.threadRoot ≠ rc.threadRoot)
          "reply to reply thread roots don't match"
      else
        Attempt.check (v.threadRoot ≠ v.repliedComment)
          "reply to a top-level comment must have the same thread root as the replied comment"
  | .ok _ => throw "replied comment is not a comment"

/-- A reply must name its thread. -/
def checkThread (v : Comment) : Attempt Unit :=
  if v.repliedComment ≠ "" ∨ v.threadRoot ≠ "" then checkReply F s v
  else pure ()

/-- Index a comment with its links. -/
def indexComment (c : String) (v : Comment) : Attempt (Store Data) := do
  Attempt.check (v.target = "") "comment must have a target"
  Attempt.check (hasPrefix v.target "hm://" = false)
    s!"comment target must be a hypermedia resource, got {v.target}"
  let iri := cutBefore "?v=" v.target
  Attempt.check (s.isDeleted iri = true)
    s!"Comment references to a deleted entity [{iri}]"
  checkThread F s v
  let author ← s.getAuthorFromDelegation F v.delegation
  let sb ← Attempt.ofExcept (indexURL F "" "comment/target"
    (newStructuralBlob "Comment" author v.hlcTime "" none none) v.target)
  let sb ← Attempt.ofExcept (indexCommentContent F
    (((sb.addDefinedLink "comment/thread-root" v.threadRoot).addDefinedLink
      "comment/reply-to" v.repliedComment).addBlobLink
        "comment/auth" v.delegation) v.body)
  s.saveBlob F (F.cidHash c) sb

/-- Index a blob by its type. -/
def indexBlob (c : String) : DecodedBlob → Attempt (Store Data)
  | .dagPB links => indexDagPB F s c links
  | .keyDelegation kd => indexKeyDelegation F s c kd
  | .change ch => indexChange F order s c ch
  | .comment cm => indexComment F s c cm

/-- Index a block that was put, unless it was there before. -/
def indexPut (c : String) (data : Data) (found : Bool) : Attempt (Store Data) :=
  if found || !isIndexable (F.cidCodec c) then pure s
  else do
    let blob ← Attempt.ofExcept (F.decodeBlob (F.cidCodec c) data)
    indexBlob F order s c blob

/-- Put a block into the store and index it if it is new, in one transaction. -/
def put (c : String) (data : Data) : Attempt (Store Data) := do
  let (found, s) ← s.putBlock F 0 (F.cidCodec c) (F.cidHash c) data
  indexPut F order s c data found

end Kinds

end Mintter.Hyper
