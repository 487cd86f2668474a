import Mintter.Hyper.Blobs

/-!
# The tables of the store

Each table is the list of its rows.  Rows of other tables refer to a blob by its
multihash, to a resource by its IRI and to a public key by its bytes, where the
database uses numbers: these numbers follow the row when it is renumbered.  Only
the number of a blob is kept, because it is handed out as a cursor.  The
compression of blobs is left out.
-/

namespace Mintter.Hyper

open Mintter.Foundation

section Tables

/-- A blob that is known, with its data if that is there. -/
structure BlobRow (Data : Type) where
  id : Nat
  multihash : String
  codec : Nat
  data : Option Data
  /-- The size of the data; -1 for a blob that is known but not there. -/
  size : Int

/-- What is indexed of a blob. -/
structure StructuralBlobRow where
  blob : String
  type : String
  ts : Option Int
  author : Option Principal
  resource : Option String
  /-- The title of a document or a group, or the alias of an account. -/
  title : Option String
deriving DecidableEq

/-- A link from a blob to a blob. -/
structure BlobLinkRow where
  source : String
  type : String
  target : String
deriving DecidableEq

/-- The metadata of a link to a resource. -/
inductive LinkMeta where
  | none
  | group (role : Int)
  | document (anchor targetFragment targetVersion : String)
deriving DecidableEq

/-- The role in the metadata of a link; other metadata has no role. -/
def LinkMeta.role : LinkMeta → Int
  | .group role => role
  | _ => 0

/-- The roles of members of groups. -/
def roleUnspecified : Int := 0

/-- The role of the owner of a group. -/
def roleOwner : Int := 1

/-- The role of an editor of a group. -/
def roleEditor : Int := 2

/-- A link from a blob to a resource. -/
structure ResourceLinkRow where
  source : String
  target : String
  type : String
  isPinned : Bool
  metadata : LinkMeta
deriving DecidableEq

/-- An account lets a device sign for it. -/
structure KeyDelegationRow where
  blob : String
  issuer : Principal
  delegate : Principal
deriving DecidableEq

/-- A resource, with its owner and its creation time when they are known. -/
structure ResourceRow where
  iri : String
  owner : Option Principal
  createTime : Option Int
deriving DecidableEq

/-- The site of a group, and which change has set it. -/
structure GroupSiteRow where
  group : String
  url : String
  hlcTime : Int
  hlcOrigin : String
deriving DecidableEq

/-- A draft of a resource. -/
structure DraftRow where
  resource : String
  blob : String
deriving DecidableEq

/-- The tables of the database. -/
structure Store (Data : Type) where
  blobs : List (BlobRow Data)
  /-- The greatest number that a blob ever had. -/
  seq : Nat
  structuralBlobs : List StructuralBlobRow
  blobLinks : List BlobLinkRow
  resourceLinks : List ResourceLinkRow
  keyDelegations : List KeyDelegationRow
  resources : List ResourceRow
  groupSites : List GroupSiteRow
  deletedResources : List String
  drafts : List DraftRow

end Tables

variable {Data : Type}

/-- A database without rows. -/
def Store.empty : Store Data where
  blobs := []
  seq := 0
  structuralBlobs := []
  blobLinks := []
  resourceLinks := []
  keyDelegations := []
  resources := []
  groupSites := []
  deletedResources := []
  drafts := []

namespace Store

variable (F : Formats Data) (s : Store Data)

/-! ## Blobs -/

/-- The row of a multihash, which is unique. -/
def blobRow (hash : String) : Option (BlobRow Data) :=
  s.blobs.find? (·.multihash == hash)

/-- `blobsInsert` with a new number. -/
def blobsInsert (hash : String) (codec : Nat) (data : Option Data) (size : Int) :
    Store Data :=
  { s with
    blobs := s.blobs ++ [⟨s.seq + 1, hash, codec, data, size⟩]
    seq := s.seq + 1 }

/-- `blobsInsert` with the given number. -/
def blobsInsertAs (id : Nat) (hash : String) (codec : Nat) (data : Option Data)
    (size : Int) : Store Data :=
  { s with
    blobs := s.blobs ++ [⟨id, hash, codec, data, size⟩]
    seq := max s.seq id }

/-- Change the row of a blob and give it a new number, the greatest one. -/
def renumber (hash : String) (change : BlobRow Data → BlobRow Data) :
    Store Data :=
  { s with
    blobs := s.blobs.filter (·.multihash ≠ hash) ++
      (s.blobs.filter (·.multihash = hash)).map fun row =>
        { change row with id := s.seq + 1 }
    seq := s.seq + 1 }

/-- The blob gets a new number. -/
def touch (hash : String) : Store Data := s.renumber hash id

/-- The blob gets its data and a new number; the codec stays. -/
def blobsUpdateMissingData (hash : String) (data : Data) : Store Data :=
  s.renumber hash fun row => { row with data := some data, size := F.size data }

/--
Store a block: whether it existed, and the store.  With a number other than 0 a
new row gets this number.  No draft refers to the number of a blob without data:
otherwise renumbering it is refused.
-/
def putBlock (inID : Nat) (codec : Nat) (hash : String) (data : Data) :
    Attempt (Bool × Store Data) :=
  match s.blobRow hash with
  | some row =>
      if 0 ≤ row.size then pure (true, s)
      else if s.drafts.any (·.blob == hash) then
        throw "FOREIGN KEY constraint failed"
      else pure (false, s.blobsUpdateMissingData F hash data)
  | none =>
      if inID = 0 then
        pure (false, s.blobsInsert hash codec (some data) (F.size data))
      else
        pure (false, s.blobsInsertAs inID hash codec (some data) (F.size data))

/-- The data of a blob, if it is there. -/
def getBlock (hash : String) : Attempt Data :=
  match (s.blobRow hash).filter (0 ≤ ·.size) with
  | none => throw "not found"
  | some row =>
      match row.data with
      | none => throw "failed to decompress blob"
      | some data => pure data

/-- The blob must be there with its data. -/
def assertBlobData (c : String) : Attempt Unit :=
  match s.blobRow (F.cidHash c) with
  | none => throw s!"blob {c} not found"
  | some row => .check (row.size < 0) s!"blob {c} is known, but has no data"

/-- The blob is there with its data. -/
def hasBlobData (c : String) : Bool :=
  ((s.blobRow (F.cidHash c)).filter (0 ≤ ·.size)).isSome

/-- A row for the blob, without data if it is new. -/
def ensureBlob (c : String) : Store Data :=
  match s.blobRow (F.cidHash c) with
  | some _ => s
  | none => s.blobsInsert (F.cidHash c) (F.cidCodec c) none (-1)

/-! ## Resources -/

/-- The row of a resource. -/
def resourceRow (iri : String) : Option ResourceRow :=
  s.resources.find? (·.iri == iri)

/-- Add a row for the resource unless it has one. -/
def ensureResource (iri : String) : Store Data :=
  match s.resourceRow iri with
  | some _ => s
  | none => { s with resources := s.resources ++ [⟨iri, none, none⟩] }

/-- The owner of a resource, which is set at most once. -/
def owner (iri : String) : Option Principal :=
  (s.resourceRow iri).bind (·.owner)

/-- Change the row of a resource. -/
def updateResource (iri : String) (change : ResourceRow → ResourceRow) :
    Store Data :=
  { s with
    resources := s.resources.map fun row =>
      if row.iri = iri then change row else row }

/-- Set the owner of a resource that has none. -/
def resourcesMaybeSetOwner (iri : String) (key : Principal) : Store Data :=
  s.updateResource iri fun row => { row with owner := row.owner.or (some key) }

/-- Set the creation time of a resource that has none. -/
def resourcesMaybeSetTimestamp (iri : String) (ts : Int) : Store Data :=
  s.updateResource iri fun row =>
    { row with createTime := row.createTime.or (some ts) }

/-- The owner of a resource, or an error. -/
def resourceGetOwner (iri : String) : Attempt Principal :=
  match s.owner iri with
  | none => throw "resource not found or has no owner"
  | some key => pure key

/-- Whether a resource has a tombstone. -/
def isDeleted (iri : String) : Bool := s.deletedResources.contains iri

/-! ## Links -/

/-- Add a link to a blob unless it is there. -/
def blobLinksInsertOrIgnore (link : BlobLinkRow) : Store Data :=
  if link ∈ s.blobLinks then s
  else { s with blobLinks := s.blobLinks ++ [link] }

/-- Add a link to a resource. -/
def resourceLinksInsert (link : ResourceLinkRow) : Store Data :=
  { s with resourceLinks := s.resourceLinks ++ [link] }

/-- Add a key delegation unless its blob has one. -/
def keyDelegationsInsertOrIgnore (row : KeyDelegationRow) : Store Data :=
  if s.keyDelegations.any (·.blob == row.blob) then s
  else { s with keyDelegations := s.keyDelegations ++ [row] }

/-- The issuer of the key delegation in a blob. -/
def keyDelegationsGetIssuer (hash : String) : Option Principal :=
  (s.keyDelegations.find? (·.blob == hash)).map (·.issuer)

/-- A site replaces an older one of the same group. -/
def sitesInsertOrIgnore (site : GroupSiteRow) : Store Data :=
  match s.groupSites.find? (·.group == site.group) with
  | none => { s with groupSites := s.groupSites ++ [site] }
  | some row =>
      if toLex (row.hlcTime, row.hlcOrigin) < toLex (site.hlcTime, site.hlcOrigin)
      then { s with
        groupSites := s.groupSites.map fun row =>
          if row.group = site.group then site else row }
      else s

/-! ## Group roles -/

/-- A membership of the group, with the time of the change it comes from. -/
def memberships (group member : String) : List (Option Int × LinkMeta) :=
  (s.structuralBlobs.filter fun row => row.resource == some group).flatMap
    fun row =>
      (s.resourceLinks.filter fun link =>
        link.source == row.blob && link.type == "group/member" &&
          link.target == member).map fun link => (row.ts, link.metadata)

/-- An earlier time; a missing time is the earliest. -/
def isEarlier : Option Int → Option Int → Bool
  | some ts, some ts' => ts < ts'
  | none, some _ => true
  | _, none => false

/-- The first of the memberships with the greatest time. -/
def latest : List (Option Int × LinkMeta) → Option (Option Int × LinkMeta)
  | [] => none
  | item :: rest =>
      match latest rest with
      | none => some item
      | some later => if isEarlier item.1 later.1 then some later else some item

/-- The role of a member in a group. -/
def getGroupRole (group member : String) : Attempt Int :=
  match s.resourceRow group, s.resourceRow member with
  | none, _ => throw s!"group {group} not found"
  | some _, none => throw s!"group member {member} not found"
  | some _, some _ =>
      match latest (s.memberships group member) with
      | none => throw s!"group {group} has no member {member}"
      | some item =>
          if item.2.role = 0 then
            throw s!"group {group} has invalid role for member {member}"
          else pure item.2.role

/-! ## What the queries find afterwards -/

section Lookup

variable {F s}

theorem blobRow_blobsInsert (hash : String) (codec : Nat) (data : Option Data)
    (size : Int) (hash' : String) :
    (s.blobsInsert hash codec data size).blobRow hash' =
      (s.blobRow hash').or
        (if hash = hash' then some ⟨s.seq + 1, hash, codec, data, size⟩
        else none) := by
  rw [blobsInsert, blobRow, List.find?_append, blobRow]
  congr 1
  rw [List.find?_singleton]
  simp only [beq_iff_eq]

@[simp]
theorem resourceRow_ensureResource (iri iri' : String) :
    (s.ensureResource iri).resourceRow iri' =
      (s.resourceRow iri').or
        (if iri = iri' then some ⟨iri, none, none⟩ else none) := by
  rw [ensureResource]
  split
  · next row isRow =>
      split
      · next same =>
          rw [← same, isRow]
          rfl
      · rw [Option.or_none]
  · rw [resourceRow, List.find?_append, resourceRow]
    congr 1
    rw [List.find?_singleton]
    simp only [beq_iff_eq]

theorem resourceRow_updateResource {change : ResourceRow → ResourceRow}
    (keeps : ∀ row, (change row).iri = row.iri) (iri iri' : String) :
    (s.updateResource iri change).resourceRow iri' =
      if iri = iri' then (s.resourceRow iri').map change
      else s.resourceRow iri' := by
  have iri_eq : ∀ row : ResourceRow,
      (if row.iri = iri then change row else row).iri = row.iri := by
    intro row
    split
    · exact keeps row
    · rfl
  rw [updateResource, resourceRow, List.find?_map, resourceRow]
  simp only [Function.comp_def, iri_eq]
  cases found : s.resources.find? (·.iri == iri') with
  | none => simp
  | some row =>
      have isRow : row.iri = iri' := by
        simpa using List.find?_some found
      simp only [Option.map_some, isRow, eq_comm (a := iri')]
      split <;> rfl

@[simp]
theorem owner_ensureResource (iri iri' : String) :
    (s.ensureResource iri).owner iri' = s.owner iri' := by
  rw [owner, resourceRow_ensureResource, owner]
  cases s.resourceRow iri' with
  | some row => rfl
  | none => split <;> rfl

theorem resourceRow_resourcesMaybeSetOwner (iri iri' : String)
    (key : Principal) :
    (s.resourcesMaybeSetOwner iri key).resourceRow iri' =
      if iri = iri' then
        (s.resourceRow iri').map fun row =>
          { row with owner := row.owner.or (some key) }
      else s.resourceRow iri' :=
  resourceRow_updateResource (by exact fun _ => rfl) iri iri'

theorem resourceRow_resourcesMaybeSetTimestamp (iri iri' : String) (ts : Int) :
    (s.resourcesMaybeSetTimestamp iri ts).resourceRow iri' =
      if iri = iri' then
        (s.resourceRow iri').map fun row =>
          { row with createTime := row.createTime.or (some ts) }
      else s.resourceRow iri' :=
  resourceRow_updateResource (by exact fun _ => rfl) iri iri'

theorem owner_resourcesMaybeSetOwner (iri iri' : String) (key : Principal) :
    (s.resourcesMaybeSetOwner iri key).owner iri' =
      (s.owner iri').or
        (if iri = iri' ∧ (s.resourceRow iri').isSome then some key else none) := by
  rw [owner, resourceRow_resourcesMaybeSetOwner, owner]
  cases found : s.resourceRow iri' with
  | none => simp
  | some row =>
      by_cases same : iri = iri' <;> simp [same]

@[simp]
theorem owner_resourcesMaybeSetTimestamp (iri iri' : String) (ts : Int) :
    (s.resourcesMaybeSetTimestamp iri ts).owner iri' = s.owner iri' := by
  rw [owner, resourceRow_resourcesMaybeSetTimestamp, owner]
  cases s.resourceRow iri' with
  | none => simp
  | some row => by_cases same : iri = iri' <;> simp [same]

@[simp]
theorem returns_assertBlobData {c : String} {value : Unit} :
    (s.assertBlobData F c).Returns value ↔ s.hasBlobData F c = true := by
  rw [assertBlobData, hasBlobData]
  cases s.blobRow (F.cidHash c) with
  | none => simp
  | some row => by_cases there : 0 ≤ row.size <;> simp [there]

@[simp]
theorem quiet_assertBlobData (c : String) : (s.assertBlobData F c).Quiet := by
  rw [assertBlobData]
  split
  · exact Attempt.quiet_throw _
  · exact Attempt.quiet_check ..

@[simp]
theorem quiet_getBlock (hash : String) : (s.getBlock hash).Quiet := by
  rw [getBlock]
  split
  · exact Attempt.quiet_throw _
  · split
    · exact Attempt.quiet_throw _
    · exact Attempt.quiet_pure _

@[simp]
theorem returns_getBlock {hash : String} {data : Data} :
    (s.getBlock hash).Returns data ↔
      ∃ row, s.blobRow hash = some row ∧ 0 ≤ row.size ∧ row.data = some data := by
  rw [getBlock]
  cases s.blobRow hash with
  | none => simp
  | some row =>
      by_cases there : 0 ≤ row.size
      · cases isData : row.data <;>
          simp [Option.filter_some, there, isData]
      · simp [Option.filter_some, there]

@[simp]
theorem returns_resourceGetOwner {iri : String} {key : Principal} :
    (s.resourceGetOwner iri).Returns key ↔ s.owner iri = some key := by
  rw [resourceGetOwner]
  cases s.owner iri <;> simp

@[simp]
theorem quiet_resourceGetOwner (iri : String) :
    (s.resourceGetOwner iri).Quiet := by
  rw [resourceGetOwner]
  split
  · exact Attempt.quiet_throw _
  · exact Attempt.quiet_pure _

@[simp]
theorem returns_getGroupRole {group member : String} {role : Int} :
    (s.getGroupRole group member).Returns role ↔
      (s.resourceRow group).isSome ∧ (s.resourceRow member).isSome ∧
        ∃ item, latest (s.memberships group member) = some item ∧
          item.2.role ≠ 0 ∧ item.2.role = role := by
  rw [getGroupRole]
  cases s.resourceRow group with
  | none => simp
  | some groupRow =>
      cases s.resourceRow member with
      | none => simp
      | some memberRow =>
          cases latest (s.memberships group member) with
          | none => simp
          | some item => by_cases zero : item.2.role = 0 <;> simp [zero]

@[simp]
theorem quiet_getGroupRole (group member : String) :
    (s.getGroupRole group member).Quiet := by
  rw [getGroupRole]
  split
  · exact Attempt.quiet_throw _
  · exact Attempt.quiet_throw _
  · split
    · exact Attempt.quiet_throw _
    · split
      · exact Attempt.quiet_throw _
      · exact Attempt.quiet_pure _

end Lookup

end Store

end Mintter.Hyper
