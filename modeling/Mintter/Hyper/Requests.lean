import Mintter.Docmodel.Contents
import Mintter.Docmodel.Edits
import Mintter.Docmodel.SampleKeys
import Mintter.Hyper.Handshakes
import Mintter.Hyper.Loadable

/-!
# Requests for entities and drafts

What loads an entity or a draft may return nothing without an error: no change is selected, or a
draft has dependencies that are no changes of its entity.  Some requests look at that and return
an error; others go on with the entity that is not there.

What is rendered for the user is a parameter: it is given an entity that is there.
-/

namespace Mintter.Hyper

open Mintter.Foundation
open Mintter.Crdt2

variable {Data : Type}

/-! ## Calls that may follow a nil pointer -/

/-- A call that has no result when it dereferences a nil pointer. -/
abbrev Handler (α : Type) := OptionT Attempt α

namespace Handler

variable {α β : Type}

/-- A call that follows no pointer that may be nil. -/
def call (attempt : Attempt α) : Handler α := OptionT.mk (attempt.map some)

/-- Follow a pointer. -/
def dereference (pointer : Option α) : Handler α := OptionT.mk (pure pointer)

/-- The handler dereferences a nil pointer. -/
def Crashes (handler : Handler α) : Prop := handler.run.Returns none

/-- The handler gets to this value. -/
def Yields (handler : Handler α) (value : α) : Prop := handler.run.Returns (some value)

@[simp]
theorem crashes_bind {handler : Handler α} {next : α → Handler β} :
    (handler >>= next).Crashes ↔
      handler.Crashes ∨ ∃ value, handler.Yields value ∧ (next value).Crashes := by
  rw [Crashes, OptionT.run_bind, Option.elimM, Attempt.returns_bind]
  constructor
  · rintro ⟨result, returns, crashes⟩
    cases result with
    | none => exact .inl returns
    | some value => exact .inr ⟨value, returns, crashes⟩
  · rintro (crashes | ⟨value, yields, crashes⟩)
    · exact ⟨none, crashes, Attempt.returns_pure.mpr rfl⟩
    · exact ⟨some value, yields, crashes⟩

@[simp]
theorem yields_bind {handler : Handler α} {next : α → Handler β} {result : β} :
    (handler >>= next).Yields result ↔
      ∃ value, handler.Yields value ∧ (next value).Yields result := by
  rw [Yields, OptionT.run_bind, Option.elimM, Attempt.returns_bind]
  constructor
  · rintro ⟨found, returns, yields⟩
    cases found with
    | none => exact absurd (Attempt.returns_pure.mp yields) nofun
    | some value => exact ⟨value, returns, yields⟩
  · rintro ⟨value, first, second⟩
    exact ⟨some value, first, second⟩

@[simp]
theorem not_crashes_call (attempt : Attempt α) : ¬ (call attempt).Crashes := by
  intro crashes
  rcases Attempt.returns_map.mp crashes with ⟨value, -, isNone⟩
  exact absurd isNone nofun

@[simp]
theorem yields_call {attempt : Attempt α} {value : α} :
    (call attempt).Yields value ↔ attempt.Returns value := by
  constructor
  · intro yields
    rcases Attempt.returns_map.mp yields with ⟨value', returns, same⟩
    exact Option.some.inj same ▸ returns
  · intro returns
    exact Attempt.returns_map.mpr ⟨value, returns, rfl⟩

@[simp]
theorem crashes_dereference {pointer : Option α} :
    (dereference pointer).Crashes ↔ pointer = none :=
  Attempt.returns_pure

@[simp]
theorem yields_dereference {pointer : Option α} {value : α} :
    (dereference pointer).Yields value ↔ pointer = some value :=
  Attempt.returns_pure

@[simp]
theorem not_crashes_pure (value : α) : ¬ (pure value : Handler α).Crashes :=
  fun crashes => absurd (Attempt.returns_pure.mp crashes) nofun

@[simp]
theorem yields_pure {value value' : α} :
    (pure value : Handler α).Yields value' ↔ value = value' := by
  rw [← Option.some_inj]
  exact Attempt.returns_pure

end Handler

/-! ## Servers -/

/-- The account and the key of the device that the server runs on. -/
structure Identity where
  account : Principal
  deviceKey : KeyPair

open Docmodel in
/-- What a server is made of besides the store. -/
structure Server (F : Formats Data) (K : Fracdex) (B : BlockFormat) (Document Group : Type) where
  me : Option Identity
  order : RowOrder
  fields : FieldOrder
  delegations : QueryOrder
  /-- The readings of the wall clock while an entity is loaded, and afterwards. -/
  wall : Nat → Int
  now : Int
  nonce : List UInt8
  /-- The CID of a change, and its data. -/
  encodeBlob : Change → Except String (String × Data)
  entityCid : String → Except String String
  provideCid : String → Attempt Unit
  initSiteServer : String → String → Attempt String
  hydrate : Store Data → Docmodel.Document → Attempt Document
  groupToProto : Store Data → Entity → Attempt Group
  fuel : Nat

/-- A draft with the entity that it is based on. -/
structure LoadedDraft where
  entity : Entity
  cid : String
  change : Change

/-- A call that returns no error. -/
def ofOutcome {α : Type} (outcome : Outcome α) : Attempt α := ExceptT.lift outcome

/-- The text of a version. -/
def newVersion (cids : List String) : String :=
  String.intercalate "." (cids.mergeSort (· ≤ ·))

section Loaders

variable (F : Formats Data) (s : Store Data)

/-- The CID of the draft of an entity. -/
def findDraft (eid : String) : Attempt String :=
  match s.draftsGet eid with
  | none => throw s!"no draft for entity {eid}"
  | some hash => pure (F.newCidV1 (((s.blobRow hash).map (·.codec)).getD 0) hash)

/-- Load a blob that is a change. -/
def loadChange (c : String) : Attempt Change := do
  Attempt.check (F.cidCodec c ≠ dagCbor) "TODO: can't load non-cbor blobs"
  let data ← s.getBlock (F.cidHash c)
  Attempt.ofExcept (F.decodeChange data)

/-- The change of the draft of an entity. -/
def getDraftChange (eid : String) : Attempt Change := do
  let c ← findDraft F s eid
  loadChange F s c

/-- The entity that a draft with these dependencies is based on. -/
def draftBase (order : RowOrder) (wall : Nat → Int) (eid : String) (deps : List String) :
    Attempt (Option Entity) :=
  if deps = [] then pure (some (newEntity eid))
  else loadEntityFromHeads F order s wall eid deps

/-- Load a draft with the entity below it. -/
def loadDraft (order : RowOrder) (wall : Nat → Int) (now : Int) (eid : String) :
    Attempt (Option LoadedDraft) := do
  let c ← findDraft F s eid
  let ch ← loadChange F s c
  match ← draftBase F s order wall eid ch.deps with
  | none => pure none
  | some entity => do
      let clock ← Attempt.ofExcept (entity.maxClock.track ch.hlcTime now)
      pure (some ⟨{ entity with maxClock := clock }, c, ch⟩)

/-- Load an entity with its draft. -/
def loadDraftEntity (order : RowOrder) (wall : Nat → Int) (eid : String) :
    Attempt (Option Entity) := do
  let c ← findDraft F s eid
  loadEntityFromHeads F order s wall eid [c]

/-- The entity at a version, or the latest one of its owner. -/
def loadVersion (order : RowOrder) (wall : Nat → Int) (eid version : String) :
    Attempt (Option Entity) :=
  if version = "" then loadEntity F order s wall eid
  else do
    let heads ← Attempt.ofExcept (F.parseVersion version)
    loadEntityFromHeads F order s wall eid heads

end Loaders

/-- A document of an entity. -/
def newDocument (K : Docmodel.Fracdex) (e : Entity) (me : Identity) (del : String) :
    Attempt Docmodel.Document := do
  let result ← ofOutcome (Docmodel.Document.new K e me.deviceKey del)
  Attempt.ofExcept result

/-- The heads of all versions. -/
def Formats.parseVersions (F : Formats Data) (versions : List String) :
    Attempt (List String) := do
  let heads ← versions.mapM fun version => Attempt.ofExcept
    ((F.parseVersion version).mapError (s!"unable to parse version {version}: {·}"))
  pure heads.flatten

/-! ## Documents -/

section Documents

variable {F : Formats Data} {K : Docmodel.Fracdex} {B : Docmodel.BlockFormat}
variable {Document Group : Type} (srv : Server F K B Document Group) (s : Store Data)

namespace Server

/-- The identity of the node, once there is one. -/
def getMe : Attempt Identity :=
  match srv.me with
  | none => throw "account is not initialized yet"
  | some me => pure me

/-- The key delegations of an account to a device. -/
def ownDelegations (me : Identity) : List KeyDelegationRow :=
  (srv.delegations.sort (s.keyDelegations.filter fun row =>
    row.issuer == me.account && (s.blobRow row.blob).isSome)).filter
      (·.delegate == me.deviceKey.principal)

/-- The first delegation of the account to its own device. -/
def getDelegation : Attempt String := do
  let me ← srv.getMe
  match srv.ownDelegations s me with
  | [] => throw "BUG: failed to find our own key delegation"
  | row :: _ => pure (F.newCidV1 (((s.blobRow row.blob).map (·.codec)).getD 0) row.blob)

/-- Only the CID of an encoded change. -/
def encodeCid (ch : Change) : Except String String := (srv.encodeBlob ch).map (·.1)

/-- The data of a change. -/
def blobData (ch : Change) : Attempt Data := do
  let (_, data) ← Attempt.ofExcept (srv.encodeBlob ch)
  pure data

/-- Create the next change of an entity. -/
def createChange (e : Entity) (me : Identity) (del : String) (patch : Object) (action : String) :
    Attempt (Entity × String × Change × Data) := do
  let (ts, e) ← ofOutcome (e.nextTimestamp srv.now)
  let (e, result) ← ofOutcome
    (e.createChange srv.encodeCid ts me.deviceKey del patch action srv.now)
  let (c, ch) ← Attempt.ofExcept result
  let data ← srv.blobData ch
  pure (e, c, ch, data)

/-- Show the document of an entity. -/
def renderEntity (e : Entity) (me : Identity) (del : String) : Attempt Document := do
  let dm ← newDocument K e me del
  srv.hydrate s dm

/-- Show the draft of a document. -/
def getDraft (documentId : String) : Attempt Document := do
  Attempt.check (documentId = "") "must specify document ID to get the draft"
  let me ← srv.getMe
  match ← loadDraftEntity F s srv.order srv.wall documentId with
  | none => throw s!"not found draft for entity {documentId}"
  | some entity => do
      let del ← srv.getDelegation s
      srv.renderEntity s entity me del

/-- A publication that is only looked for in the store. -/
def getPublication (documentId version : String) : Attempt Document := do
  Attempt.check (documentId = "") "must specify document ID to get the draft"
  match ← loadVersion F s srv.order srv.wall documentId version with
  | none => throw s!"no published changes for entity {documentId}"
  | some entity => do
      let me ← srv.getMe
      let del ← srv.getDelegation s
      srv.renderEntity s entity me del

/-- Store the change of a document as the draft, in place of an old one. -/
def commit (dm : Docmodel.Document) (oldDraft : String) : Attempt (Store Data × String) := do
  let (dm, result) ← ofOutcome (dm.change srv.encodeCid srv.fuel srv.now)
  let (c, ch) ← Attempt.ofExcept result
  let data ← srv.blobData ch
  let s ←
    if oldDraft = "" then saveDraftBlob F srv.fields s dm.e.id c data (.change ch)
    else replaceDraftBlob F srv.fields s dm.e.id oldDraft c data (.change ch)
  pure (s, c)

/-- A document that is new. -/
def createDocument (me : Identity) (del : String) : Attempt Docmodel.Document := do
  let (ts, e) ← ofOutcome ((newEntity "").nextTimestamp srv.now)
  let time := ts / 10 ^ 6
  let docid := F.newUnforgeableID "hm://d/" me.account srv.nonce time
  let dm ← newDocument K (newEntityWithClock docid e.maxClock) me del
  pure { dm with
    nextHLC := ts
    patch := ((dm.patch.set "nonce" (.bytes srv.nonce)).set "createTime" (.int time)).set "owner"
      (.bytes me.account) }

/-- `CreateDraft`: the entity that is loaded is not looked at. -/
def createDraft (existingDocumentId version : String) : Handler Document := do
  let me ← .call srv.getMe
  if existingDocumentId = "" then .call do
    let del ← srv.getDelegation s
    let dm ← srv.createDocument me del
    let (s, _) ← srv.commit s dm ""
    srv.getDraft s dm.e.id
  else do
    .call (.check ((findDraft F s existingDocumentId).returned.isSome = true)
      s!"draft for {existingDocumentId} already exists")
    let loaded ← .call (loadVersion F s srv.order srv.wall existingDocumentId version)
    let del ← .call (srv.getDelegation s)
    let entity ← .dereference loaded
    .call do
      let (_, c, ch, data) ← srv.createChange entity me del [("isDraft", .bool true)] actionUpdate
      let s ← saveDraftBlob F srv.fields s existingDocumentId c data (.change ch)
      srv.getDraft s existingDocumentId

/-- Make one edit; an error ends the request. -/
def applyEdit (dm : Docmodel.Document) (edit : Docmodel.Edit B) : Attempt Docmodel.Document := do
  let (dm, result) ← ofOutcome (dm.perform K B srv.fuel edit)
  Attempt.ofExcept result
  pure dm

/-- `UpdateDraft`, for changes that are given or not. -/
def updateDraft (documentId : String) (changes : Option (List (Docmodel.Edit B))) :
    Attempt (String × Document) := do
  Attempt.check (documentId = "") "must specify document ID"
  match changes with
  | none => throw "must send some changes to apply to the document"
  | some changes => do
      let me ← srv.getMe
      match ← loadDraft F s srv.order srv.wall srv.now documentId with
      | none => throw s!"no draft for entity {documentId}"
      | some draft => do
          let del ← srv.getDelegation s
          let dm ← newDocument K draft.entity me del
          let (dm, restored) ← ofOutcome (dm.restoreDraft K srv.fuel draft.change srv.now)
          Attempt.ofExcept (restored.mapError (s!"failed to restore draft: {·}"))
          let dm ← changes.foldlM srv.applyEdit dm
          let (s, c) ← srv.commit s dm draft.cid
          let updated ← (srv.getDraft s documentId).wrapError
            (s!"failed to get draft after applying update: {·}")
          pure (c, updated)

/-- `PublishDraft`: a draft without content is deleted instead. -/
def publishDraft (documentId : String) : Attempt Document := do
  Attempt.check (documentId = "") "must specify document ID to get the draft"
  let oid ← Attempt.ofExcept (srv.entityCid documentId)
  let ch ← getDraftChange F s documentId
  let isDraft := (Object.get ch.patch "isDraft").isSome
  Attempt.check (1 < ch.patch.length ∧ isDraft = true) "BUG: isDraft field wasn't removed"
  if ch.patch.length ≤ 1 ∧ isDraft = true then do
    let s ← (deleteDraft s documentId).wrapError
      (s!"failed to delete empty draft when publishing: {·}")
    srv.getPublication s documentId (newVersion ch.deps)
  else do
    let c ← findDraft F s documentId
    let s ← Hyper.publishDraft s documentId
    srv.provideCid oid
    srv.getPublication s documentId c

/-- `MergeChanges`. -/
def mergeChanges (id : String) (versions : List String) : Attempt Document := do
  let me ← srv.getMe
  Attempt.check (versions.length < 2) "At least two versions are necessary for merging"
  Attempt.check (id = "") "Document Id is a mandatory field"
  let heads ← F.parseVersions versions
  match ← loadEntityFromHeads F srv.order s srv.wall id heads with
  | none => throw "nothing to merge, aborting"
  | some entity => do
      let del ← srv.getDelegation s
      let (entity, c, ch, data) ← srv.createChange entity me del [] actionUpdate
      let s ← saveBlob F srv.fields s c data (.change ch)
      let s ← publishBlob F s c
      srv.provideCid c
      srv.getPublication s entity.id c

/--
`RebaseChanges`: the draft that is loaded is not looked at.  Reading its patch comes before
the call that takes the next timestamp, of which the language fixes no order.
-/
def rebaseChanges (baseDraftId : String) (versions : List String) : Handler Document := do
  let me ← .call srv.getMe
  let del ← .call (srv.getDelegation s)
  let loaded ← .call ((loadDraft F s srv.order srv.wall srv.now baseDraftId).wrapError
    (s!"Could not load draft with provided ID [{baseDraftId}]: {·}"))
  let heads ← .call (F.parseVersions versions)
  match ← .call (loadEntityFromHeads F srv.order s srv.wall baseDraftId heads) with
  | none => .call (throw "nothing to rebase, aborting")
  | some entity => do
      let draft ← .dereference loaded
      .call do
        let (entity, _) ← srv.createChange entity me del draft.change.patch ""
        srv.renderEntity s entity me del

end Server

end Documents

/-! ## Groups -/

/-- What is to be changed in a group. -/
structure UpdateGroupRequest where
  id : String
  title : String
  description : Option String
  updatedContent : List (String × String)
  updatedMembers : List (String × Int)
  siteSetupUrl : String

section Groups

/-- The text of a value; other values panic. -/
def textOf (v : Value) : Attempt String := ofOutcome (assertType Value.asString (some v))

/-- A field of the patch, unless the group has that text already. -/
def textPatch (old : Option Value) (text : String) (set : Attempt Object) (patch : Object) :
    Attempt Object :=
  match old with
  | none => set
  | some v => do
      let old ← textOf v
      if old ≠ text then set else pure patch

/-- Write the title if it is a new one. -/
def titlePatch (e : Option Entity) (title : String) (patch : Object) : Handler Object :=
  if title = "" then pure patch
  else do
    let e ← .dereference e
    match e.state.get ["title"] with
    | none => .call (throw "all groups must have title")
    | some v => .call (textPatch (some v) title (pure (patch.set "title" (.string title))) patch)

/-- Write the description if it is a new one. -/
def descriptionPatch (e : Option Entity) (description : Option String) (patch : Object) :
    Handler Object :=
  match description with
  | none => pure patch
  | some text => do
      let e ← .dereference e
      .call (textPatch (e.state.get ["description"]) text
        (pure (patch.set "description" (.string text))) patch)

/-- Write one content if it is a new one. -/
def contentPatch (e : Option Entity) (patch : Object) (entry : String × String) :
    Handler Object := do
  let e ← .dereference e
  .call (textPatch (e.state.get ["content", entry.1]) entry.2
    (ofOutcome (objectSet patch ["content", entry.1] (.string entry.2))) patch)

/-- Write the role of one member; members cannot be removed. -/
def memberPatch (patch : Object) (entry : String × Int) : Attempt Object := do
  Attempt.check (entry.2 = roleUnspecified) "removing members is not implemented yet"
  ofOutcome (objectSet patch ["members", entry.1] (.int entry.2))

variable {F : Formats Data} {K : Docmodel.Fracdex} {B : Docmodel.BlockFormat}
variable {Document Group : Type} (srv : Server F K B Document Group) (s : Store Data)

namespace Server

/-- Set up a site and write its URL. -/
def sitePatch (siteSetupUrl eid : String) (patch : Object) : Attempt Object :=
  if siteSetupUrl = "" then pure patch
  else do
    let siteURL ← srv.initSiteServer siteSetupUrl eid
    pure (patch.set "siteURL" (.string siteURL))

/-- `UpdateGroup`: the entity that is loaded is not looked at. -/
def updateGroup (req : UpdateGroupRequest) : Handler Group := do
  .call (.check (req.id = "") "id: argument is required")
  let me ← .call srv.getMe
  let e ← .call (loadEntityAll F srv.order s srv.wall req.id)
  let patch ← titlePatch e req.title []
  let patch ← descriptionPatch e req.description patch
  let patch ← req.updatedContent.foldlM (contentPatch e) patch
  let patch ← .call (req.updatedMembers.foldlM memberPatch patch)
  let del ← .call (srv.getDelegation s)
  let patch ← .call (srv.sitePatch req.siteSetupUrl req.id patch)
  let e ← .dereference e
  .call do
    let (e, c, ch, data) ← srv.createChange e me del patch actionUpdate
    let s ← saveBlob F srv.fields s c data (.change ch)
    srv.groupToProto s e

end Server

end Groups

/-! ## Requests -/

/-- A request that loads an entity or a draft. -/
inductive Request (B : Docmodel.BlockFormat) where
  | createDraft (existingDocumentId version : String)
  | updateDraft (documentId : String) (changes : Option (List (Docmodel.Edit B)))
  | publishDraft (documentId : String)
  | rebaseChanges (baseDraftId : String) (versions : List String)
  | mergeChanges (id : String) (versions : List String)
  | updateGroup (req : UpdateGroupRequest)

section Requests

variable {F : Formats Data} {K : Docmodel.Fracdex} {B : Docmodel.BlockFormat}
variable {Document Group : Type} (srv : Server F K B Document Group) (s : Store Data)

/-- What the server returns for a request. -/
def Server.handle : Request B → Handler (Document ⊕ Group)
  | .createDraft id version => .inl <$> srv.createDraft s id version
  | .updateDraft id changes => .call ((.inl ·.2) <$> srv.updateDraft s id changes)
  | .publishDraft id => .call (.inl <$> srv.publishDraft s id)
  | .rebaseChanges id versions => .inl <$> srv.rebaseChanges s id versions
  | .mergeChanges id versions => .call (.inl <$> srv.mergeChanges s id versions)
  | .updateGroup req => .inr <$> srv.updateGroup s req

/-! ## When nothing is loaded -/

/-- None of the structural blobs that are selected is stored. -/
def NothingSelected (selected : StructuralBlobRow → Bool) : Prop :=
  ∀ row ∈ s.structuralBlobs, selected row = true → s.blobRow row.blob = none

/-- The heads are there, and no change of the entity is among them and what they depend on. -/
def HeadsOfOthers (F : Formats Data) (eid : String) (heads : List String) : Prop :=
  heads ≠ [] ∧ heads.all (s.hasBlobData F) = true ∧
    NothingSelected s fun row =>
      (changesResolveHeads s (heads.map F.cidHash)).contains row.blob &&
        row.resource == some eid

/-- The resource is there, but its owner has made no change of it that is published. -/
def NoOwnChange (eid : String) : Prop :=
  ∃ resource, s.resourceRow eid = some resource ∧
    NothingSelected s fun row =>
      (changesResolveHeads s (ownerChanges s eid resource.owner)).contains row.blob

/-- The resource is there, but no change of it is published. -/
def NoChange (eid : String) : Prop :=
  (s.resourceRow eid).isSome = true ∧ NothingSelected s (isPublicChange s eid)

/-- At this version there is nothing of the entity. -/
def NothingAt (F : Formats Data) (eid version : String) : Prop :=
  if version = "" then NoOwnChange s eid
  else ∃ heads, F.parseVersion version = .ok heads ∧ HeadsOfOthers s F eid heads

/-- The draft of the entity is based on changes of other entities. -/
def BasedOnOthers (F : Formats Data) (eid : String) : Prop :=
  ∃ c ch, (findDraft F s eid).Returns c ∧ (loadChange F s c).Returns ch ∧
    HeadsOfOthers s F eid ch.deps

/-- The server knows its account, and the key delegation to its device is stored. -/
def Delegates : Prop :=
  ∃ me, srv.me = some me ∧ srv.ownDelegations s me ≠ []

/-- The group is updated with a text, or with what can be done without its entity. -/
def UpdatesEntity (req : UpdateGroupRequest) : Prop :=
  req.title ≠ "" ∨ req.description ≠ none ∨ req.updatedContent ≠ [] ∨
    (∀ entry ∈ req.updatedMembers, entry.2 ≠ roleUnspecified) ∧ Delegates srv s ∧
      (req.siteSetupUrl = "" ∨
        ∃ siteURL, (srv.initSiteServer req.siteSetupUrl req.id).Returns siteURL)

/-- The request uses an entity or a draft that is not there. -/
def UsesMissing : Request B → Prop
  | .createDraft id version => id ≠ "" ∧ s.draftsGet id = none ∧ NothingAt s F id version ∧
      Delegates srv s
  | .rebaseChanges id versions => Delegates srv s ∧ BasedOnOthers s F id ∧
      ∃ heads entity, (F.parseVersions versions).Returns heads ∧
        (loadEntityFromHeads F srv.order s srv.wall id heads).Returns (some entity)
  | .updateGroup req => req.id ≠ "" ∧ srv.me ≠ none ∧ NoChange s req.id ∧
      UpdatesEntity srv s req
  | _ => False

end Requests

section Missing

variable {F : Formats Data} {order : RowOrder} {s : Store Data} {wall : Nat → Int} {now : Int}
variable {eid version : String} {selected : StructuralBlobRow → Bool} {e e' : Entity} {n : Nat}

theorem length_loadRow {row : BlobRow Data} (returns : (loadRow F wall n e row).Returns e') :
    e'.changes.length = e.changes.length + 1 := by
  rw [loadRow] at returns
  split at returns
  · exact absurd returns Attempt.not_returns_throw
  · rcases Attempt.returns_bind.mp returns with ⟨ch, -, stored⟩
    rw [Attempt.Returns, Entity.applyStored, ExceptT.run_mk] at stored
    rcases bind_eq_ok.mp stored with ⟨⟨applied, result⟩, isApplied, isResult⟩
    cases result with
    | error err => cases isResult
    | ok =>
        cases isResult
        rw [(Entity.applied_of_applyChange_eq_ok isApplied).changes_eq, List.length_append,
          List.length_singleton]

theorem length_loadRows {rows : List (BlobRow Data)}
    (returns : (loadRows F wall n e rows).Returns e') :
    e'.changes.length = e.changes.length + rows.length := by
  induction rows generalizing n e with
  | nil =>
      rw [Attempt.returns_pure.mp returns]
      exact rfl
  | cons row rest induction =>
      rcases Attempt.returns_bind.mp returns with ⟨e₁, loaded, returns⟩
      rw [induction returns, length_loadRow loaded, List.length_cons]
      omega

theorem selectRows_eq_nil_iff (order : RowOrder) :
    selectRows order s selected = [] ↔ NothingSelected s selected := by
  rw [selectRows, List.filterMap_eq_nil_iff]
  constructor
  · intro nothing row isRow isSelected
    exact nothing row ((order.perm _).mem_iff.mpr (List.mem_filter.mpr ⟨isRow, isSelected⟩))
  · intro nothing row member
    have isRow := List.mem_filter.mp ((order.perm _).mem_iff.mp member)
    exact nothing row isRow.1 isRow.2

/-- Nothing is loaded exactly if nothing is selected. -/
theorem returns_none_loadSelected :
    (loadSelected F order s wall eid selected).Returns none ↔ NothingSelected s selected := by
  rw [← selectRows_eq_nil_iff order, loadSelected, Attempt.returns_bind]
  constructor
  · rintro ⟨entity, loaded, returns⟩
    have noChange : entity.changes = [] := by
      by_contra changed
      rw [if_neg changed] at returns
      cases Attempt.returns_pure.mp returns
    have count := length_loadRows loaded
    rw [noChange, List.length_nil] at count
    exact List.eq_nil_of_length_eq_zero (by omega)
  · intro nothing
    rw [nothing]
    exact ⟨newEntity eid, Attempt.returns_pure.mpr rfl, Attempt.returns_pure.mpr (if_pos rfl)⟩

theorem returns_none_loadEntityAll :
    (loadEntityAll F order s wall eid).Returns none ↔ NoChange s eid := by
  rw [loadEntityAll, NoChange]
  cases s.resourceRow eid with
  | none => simp
  | some resource => simp [returns_none_loadSelected]

theorem returns_none_loadEntity :
    (loadEntity F order s wall eid).Returns none ↔ NoOwnChange s eid := by
  rw [loadEntity, NoOwnChange]
  cases s.resourceRow eid with
  | none => simp
  | some resource => simp [returns_none_loadSelected]

theorem returns_none_loadEntityFromHeads {heads : List String} :
    (loadEntityFromHeads F order s wall eid heads).Returns none ↔
      HeadsOfOthers s F eid heads := by
  simp only [loadEntityFromHeads, HeadsOfOthers, Attempt.returns_bind, Attempt.returns_check,
    returns_none_loadSelected, Bool.not_eq_false]
  constructor
  · rintro ⟨_, nonempty, _, there, nothing⟩
    exact ⟨nonempty, there, nothing⟩
  · rintro ⟨nonempty, there, nothing⟩
    exact ⟨(), nonempty, (), there, nothing⟩

theorem returns_none_loadVersion :
    (loadVersion F s order wall eid version).Returns none ↔ NothingAt s F eid version := by
  rw [loadVersion, NothingAt]
  split
  · exact returns_none_loadEntity
  · simp only [Attempt.returns_bind, Attempt.returns_ofExcept, returns_none_loadEntityFromHeads]

theorem returns_none_loadDraft :
    (loadDraft F s order wall now eid).Returns none ↔ BasedOnOthers s F eid := by
  simp only [loadDraft, BasedOnOthers, Attempt.returns_bind]
  constructor
  · rintro ⟨c, isDraft, ch, isChange, base, loaded, returns⟩
    cases base with
    | some entity =>
        simp only [Attempt.returns_bind, Attempt.returns_pure] at returns
        rcases returns with ⟨clock, -, isNone⟩
        cases isNone
    | none =>
        rw [draftBase] at loaded
        split at loaded
        · cases Attempt.returns_pure.mp loaded
        · exact ⟨c, ch, isDraft, isChange, returns_none_loadEntityFromHeads.mp loaded⟩
  · rintro ⟨c, ch, isDraft, isChange, others⟩
    refine ⟨c, isDraft, ch, isChange, none, ?_, Attempt.returns_pure.mpr rfl⟩
    rw [draftBase, if_neg others.1]
    exact returns_none_loadEntityFromHeads.mpr others

end Missing

section Crashes

variable {F : Formats Data} {K : Docmodel.Fracdex} {B : Docmodel.BlockFormat}
variable {Document Group : Type} {srv : Server F K B Document Group} {s : Store Data}
variable {id version : String}

@[simp]
theorem returns_getMe {me : Identity} : srv.getMe.Returns me ↔ srv.me = some me := by
  rw [Server.getMe]
  cases srv.me <;> simp

theorem exists_returns_getDelegation :
    (∃ del, (srv.getDelegation s).Returns del) ↔ Delegates srv s := by
  simp only [Server.getDelegation, Attempt.returns_bind, returns_getMe, Delegates]
  constructor
  · rintro ⟨del, me, isMe, returns⟩
    refine ⟨me, isMe, fun none => ?_⟩
    rw [none] at returns
    exact absurd returns Attempt.not_returns_throw
  · rintro ⟨me, isMe, some⟩
    cases delegations : srv.ownDelegations s me with
    | nil => exact absurd delegations some
    | cons row rest => exact ⟨_, me, isMe, by rw [delegations]; exact Attempt.returns_pure.mpr rfl⟩

theorem not_isSome_findDraft :
    ¬ (findDraft F s id).returned.isSome = true ↔ s.draftsGet id = none := by
  rw [findDraft]
  cases s.draftsGet id with
  | none => simp [Attempt.returned, throw, throwThe, MonadExceptOf.throw, ExceptT.run, ExceptT.mk]
  | some hash =>
      have returns : (pure (F.newCidV1 (((s.blobRow hash).map (·.codec)).getD 0) hash) :
          Attempt String).returned = some _ := Attempt.returned_eq_some.mpr (Attempt.returns_pure.mpr rfl)
      simp [returns]

theorem crashes_createDraft :
    (srv.createDraft s id version).Crashes ↔ UsesMissing srv s (.createDraft id version) := by
  rw [Server.createDraft, UsesMissing]
  by_cases unnamed : id = ""
  · simp [unnamed]
  · simp only [if_neg unnamed, Handler.crashes_bind, Handler.not_crashes_call, false_or,
      Handler.yields_call, Handler.crashes_dereference, Handler.yields_dereference, and_false,
      exists_false, or_false, returns_getMe, Attempt.returns_check, not_isSome_findDraft]
    constructor
    · rintro ⟨me, isMe, -, noDraft, loaded, returns, del, delegation, rfl⟩
      exact ⟨unnamed, noDraft, returns_none_loadVersion.mp returns,
        exists_returns_getDelegation.mp ⟨del, delegation⟩⟩
    · rintro ⟨-, noDraft, nothing, delegates⟩
      rcases exists_returns_getDelegation.mpr delegates with ⟨del, delegation⟩
      rcases delegates with ⟨me, isMe, -⟩
      exact ⟨me, isMe, (), noDraft, none, returns_none_loadVersion.mpr nothing, del, delegation,
        rfl⟩

theorem crashes_rebaseChanges {versions : List String} :
    (srv.rebaseChanges s id versions).Crashes ↔
      UsesMissing srv s (.rebaseChanges id versions) := by
  simp only [Server.rebaseChanges, UsesMissing, Handler.crashes_bind, Handler.not_crashes_call,
    false_or, Handler.yields_call, returns_getMe, Attempt.returns_wrapError]
  constructor
  · rintro ⟨me, isMe, del, delegation, draft, loaded, heads, parsed, base, found, crashes⟩
    cases base with
    | none => exact absurd crashes (Handler.not_crashes_call _)
    | some entity =>
        simp only [Handler.crashes_bind, Handler.crashes_dereference, Handler.not_crashes_call,
          and_false, exists_false, or_false] at crashes
        rcases crashes with rfl
        exact ⟨exists_returns_getDelegation.mp ⟨del, delegation⟩,
          returns_none_loadDraft.mp loaded, heads, entity, parsed, found⟩
  · rintro ⟨delegates, others, heads, entity, parsed, found⟩
    rcases exists_returns_getDelegation.mpr delegates with ⟨del, delegation⟩
    rcases delegates with ⟨me, isMe, -⟩
    refine ⟨me, isMe, del, delegation, none, returns_none_loadDraft.mpr others, heads, parsed,
      some entity, found, ?_⟩
    exact Handler.crashes_bind.mpr (.inl (Handler.crashes_dereference.mpr rfl))

/-! ## Updates of groups -/

/-- With an entity no text is compared with one that is missing. -/
theorem not_crashes_titlePatch {e : Entity} {title : String} {patch : Object} :
    ¬ (titlePatch (some e) title patch).Crashes := by
  rw [titlePatch]
  split
  · exact Handler.not_crashes_pure patch
  · simp only [Handler.crashes_bind, Handler.crashes_dereference, Handler.yields_dereference,
      reduceCtorEq, false_or, not_exists, not_and]
    rintro _ -
    split <;> exact Handler.not_crashes_call _

theorem not_crashes_descriptionPatch {e : Entity} {description : Option String}
    {patch : Object} : ¬ (descriptionPatch (some e) description patch).Crashes := by
  cases description with
  | none => exact Handler.not_crashes_pure patch
  | some text => simp [descriptionPatch]

theorem not_crashes_contentPatch {e : Entity} {patch : Object} {entry : String × String} :
    ¬ (contentPatch (some e) patch entry).Crashes := by
  simp [contentPatch]

theorem not_crashes_contentPatches {e : Entity} {content : List (String × String)}
    {patch : Object} : ¬ (content.foldlM (contentPatch (some e)) patch).Crashes := by
  induction content generalizing patch with
  | nil => exact Handler.not_crashes_pure patch
  | cons entry rest induction =>
      rw [List.foldlM_cons, Handler.crashes_bind, not_or]
      exact ⟨not_crashes_contentPatch, fun ⟨_, _, crashes⟩ => induction crashes⟩

theorem titlePatch_none {title : String} {patch : Object} :
    titlePatch none title patch =
      if title = "" then pure patch else .dereference none := by
  rw [titlePatch]
  split
  · exact rfl
  · exact rfl

theorem descriptionPatch_none {description : Option String} {patch : Object} :
    descriptionPatch none description patch =
      if description = none then pure patch else .dereference none := by
  cases description with
  | none => exact rfl
  | some text => exact rfl

theorem contentPatches_none {content : List (String × String)} {patch : Object} :
    content.foldlM (contentPatch none) patch =
      if content = [] then pure patch else .dereference none := by
  cases content with
  | nil => exact rfl
  | cons entry rest => exact rfl

/-- The members of a patch are a map that is still to be filled. -/
theorem exists_returns_memberPatches {members : List (String × Int)} (patch : Object)
    (isMap : ∀ v, patch.get "members" = some v → ∃ entries, v = .map entries) :
    (∃ patch', (members.foldlM memberPatch patch).Returns patch') ↔
      ∀ entry ∈ members, entry.2 ≠ roleUnspecified := by
  induction members generalizing patch with
  | nil => simp
  | cons entry rest induction =>
      have added : ∃ entries, objectSet patch ["members", entry.1] (.int entry.2) =
          .ok (patch.set "members" (.map entries)) := by
        rw [objectSet]
        · cases found : patch.get "members" with
          | none => exact ⟨_, rfl⟩
          | some v =>
              rcases isMap v found with ⟨entries, rfl⟩
              exact ⟨_, rfl⟩
        · exact List.cons_ne_nil _ _
      rcases added with ⟨entries, added⟩
      have next : ∀ patch', (memberPatch patch entry).Returns patch' ↔
          entry.2 ≠ roleUnspecified ∧ patch.set "members" (.map entries) = patch' := by
        intro patch'
        rw [memberPatch, added, Attempt.returns_bind]
        simp only [Attempt.returns_check]
        constructor
        · rintro ⟨_, specified, same⟩
          exact ⟨specified, Attempt.returns_pure.mp same⟩
        · rintro ⟨specified, same⟩
          exact ⟨(), specified, Attempt.returns_pure.mpr same⟩
      simp only [List.foldlM_cons, Attempt.returns_bind, next, List.forall_mem_cons]
      rw [← @induction (patch.set "members" (.map entries))]
      · constructor
        · rintro ⟨last, _, ⟨specified, rfl⟩, returns⟩
          exact ⟨specified, last, returns⟩
        · rintro ⟨specified, last, returns⟩
          exact ⟨last, _, ⟨specified, rfl⟩, returns⟩
      · intro v found
        rw [Object.get_set_self] at found
        exact ⟨entries, (Option.some.inj found).symm⟩

theorem exists_returns_sitePatch {siteSetupUrl : String} (patch : Object) :
    (∃ patch', (srv.sitePatch siteSetupUrl id patch).Returns patch') ↔
      siteSetupUrl = "" ∨ ∃ siteURL, (srv.initSiteServer siteSetupUrl id).Returns siteURL := by
  rw [Server.sitePatch]
  by_cases noSite : siteSetupUrl = ""
  · simp [noSite]
  · simp [noSite]

theorem crashes_updateGroup {req : UpdateGroupRequest} :
    (srv.updateGroup s req).Crashes ↔ UsesMissing srv s (.updateGroup req) := by
  simp only [Server.updateGroup, UsesMissing, Handler.crashes_bind, Handler.not_crashes_call,
    false_or, Handler.yields_call, returns_getMe, Attempt.returns_check,
    Handler.crashes_dereference, and_false, exists_false, or_false]
  constructor
  · rintro ⟨-, named, me, isMe, e, loaded, crashes⟩
    cases e with
    | some e =>
        rcases crashes with crashes | ⟨patch₁, -, crashes | ⟨patch₂, -, crashes | ⟨patch₃, -,
          patch₄, -, del, -, patch₅, -, missing⟩⟩⟩
        · exact absurd crashes not_crashes_titlePatch
        · exact absurd crashes not_crashes_descriptionPatch
        · exact absurd crashes not_crashes_contentPatches
        · exact absurd missing nofun
    | none =>
        refine ⟨named, by simp [isMe], returns_none_loadEntityAll.mp loaded, ?_⟩
        rw [UpdatesEntity]
        by_cases titled : req.title ≠ ""
        · exact .inl titled
        by_cases described : req.description ≠ none
        · exact .inr (.inl described)
        by_cases filled : req.updatedContent ≠ []
        · exact .inr (.inr (.inl filled))
        rw [not_not] at titled described filled
        simp only [titled, described, filled, titlePatch_none, descriptionPatch_none,
          contentPatches_none, if_true, Handler.not_crashes_pure, Handler.yields_pure,
          false_or, exists_eq_left', and_true] at crashes
        rcases crashes with ⟨patch₄, members, del, delegation, patch₅, site⟩
        refine .inr (.inr (.inr ⟨?_, ?_, ?_⟩))
        · exact (exists_returns_memberPatches [] (by simp)).mp ⟨patch₄, members⟩
        · exact exists_returns_getDelegation.mp ⟨del, delegation⟩
        · exact (exists_returns_sitePatch _).mp ⟨patch₅, site⟩
  · rintro ⟨named, isMe, noChange, updates⟩
    rcases Option.ne_none_iff_exists'.mp isMe with ⟨me, isMe⟩
    refine ⟨(), named, me, isMe, none, returns_none_loadEntityAll.mpr noChange, ?_⟩
    simp only [titlePatch_none, descriptionPatch_none, contentPatches_none]
    by_cases titled : req.title = ""
    · by_cases described : req.description = none
      · by_cases filled : req.updatedContent = []
        · simp only [titled, described, filled, if_true, Handler.not_crashes_pure,
            Handler.yields_pure, false_or, exists_eq_left', and_true]
          rcases updates with other | other | other | ⟨specified, delegates, site⟩
          · exact absurd titled other
          · exact absurd described other
          · exact absurd filled other
          · rcases (exists_returns_memberPatches [] (by simp)).mpr specified with
              ⟨patch₄, members⟩
            rcases exists_returns_getDelegation.mpr delegates with ⟨del, delegation⟩
            rcases (exists_returns_sitePatch patch₄).mpr site with ⟨patch₅, isSite⟩
            exact ⟨patch₄, members, del, delegation, patch₅, isSite⟩
        · simp [titled, described, filled]
      · simp [titled, described]
    · simp [titled]

end Crashes

/-- A request uses what is missing exactly if the store and the request are of these kinds. -/
theorem crashes_handle_iff {F : Formats Data} {K : Docmodel.Fracdex} {B : Docmodel.BlockFormat}
    {Document Group : Type} (srv : Server F K B Document Group) (s : Store Data)
    (request : Request B) : ¬ (srv.handle s request).Crashes ↔ ¬ UsesMissing srv s request := by
  have crashes_map : ∀ {α β : Type} (view : α → β) (handler : Handler α),
      (view <$> handler).Crashes ↔ handler.Crashes := by
    intro α β view handler
    rw [map_eq_pure_bind, Handler.crashes_bind]
    simp
  apply not_congr
  cases request with
  | createDraft id version => exact (crashes_map _ _).trans crashes_createDraft
  | rebaseChanges id versions => exact (crashes_map _ _).trans crashes_rebaseChanges
  | updateGroup req => exact (crashes_map _ _).trans crashes_updateGroup
  | _ => exact iff_of_false (Handler.not_crashes_call _) id

/-- The server of a device of the first account. -/
def deviceServer : Server (sampleFormats sampleSha256) Docmodel.sampleFracdex
    Docmodel.sampleFormat Unit Unit where
  me := some ⟨samplePrincipal 1, ⟨samplePrincipal 11, fun _ => .ok "signature"⟩⟩
  order := .stable
  fields := .listed
  delegations := ⟨id, fun rows => .refl rows⟩
  wall _ := 1700000010000000
  now := 1700000010000000
  nonce := sampleNonce
  encodeBlob ch := .ok ("cnew", .change ch)
  entityCid _ := .ok "centity"
  provideCid _ := pure ()
  initSiteServer _ _ := throw "could not contact site"
  hydrate _ _ := pure ()
  groupToProto _ _ := pure ()
  fuel := 100

/-- A draft of an account that has no change yet crashes the server. -/
theorem draft_without_changes_crashes :
    ∃ s, Reaches (accept (sampleFormats sampleSha256)) (fun _ _ => True) .empty s ∧
      (deviceServer.handle s (.createDraft
        ((sampleFormats sampleSha256).accountIRI (samplePrincipal 1)) "")).Crashes := by
  refine ⟨deviceStore, ?_, ?_⟩
  · exact reaches_of_performAll (allPermitted_of_forall fun _ _ _ => trivial)
      sampleRun_deviceArrivals
  · have returns : ((deviceServer.handle deviceStore (.createDraft
        ((sampleFormats sampleSha256).accountIRI (samplePrincipal 1)) "")).run).Returns none := by
      decide +kernel
    exact returns

end Mintter.Hyper
