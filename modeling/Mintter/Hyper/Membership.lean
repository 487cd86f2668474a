import Mintter.Hyper.Accepted
import Mintter.Hyper.SampleFormats

/-!
# Members of groups

The role of the author of a change is looked up in the links that earlier
changes of the group have left.  `GroupsSound` is what holds of these links in
every store that is reached: each comes from a change of the owner, and the only
owner among the members is the owner.
-/

namespace Mintter.Hyper

open Mintter.Foundation
open Mintter.Crdt2

variable {Data : Type}

/-- The identifier of a group. -/
def IsGroup (iri : String) : Prop := hasPrefix iri "hm://g/" = true

instance (iri : String) : Decidable (IsGroup iri) :=
  inferInstanceAs (Decidable (hasPrefix iri "hm://g/" = true))

section Roles

variable {F : Formats Data} {s t : Store Data}

theorem Store.mem_of_latest {items : List (Option Int × LinkMeta)}
    {item : Option Int × LinkMeta} (isLatest : Store.latest items = some item) :
    item ∈ items := by
  induction items with
  | nil => cases isLatest
  | cons first rest induction =>
      rw [Store.latest] at isLatest
      split at isLatest
      · exact Option.some.inj isLatest ▸ List.mem_cons_self ..
      · next later isLater =>
          split at isLatest
          · exact List.mem_cons_of_mem _
              (induction (Option.some.inj isLatest ▸ isLater))
          · exact Option.some.inj isLatest ▸ List.mem_cons_self ..

/-- A membership is a link of a structural blob of the group. -/
theorem Store.mem_memberships {group member : String}
    {item : Option Int × LinkMeta} :
    item ∈ s.memberships group member ↔
      ∃ row ∈ s.structuralBlobs, row.resource = some group ∧
        ∃ link ∈ s.resourceLinks, link.source = row.blob ∧
          link.type = "group/member" ∧ link.target = member ∧
          item = (row.ts, link.metadata) := by
  simp only [Store.memberships, List.mem_flatMap, List.mem_filter, List.mem_map,
    beq_iff_eq, Bool.and_eq_true, and_assoc, eq_comm (a := item)]

/-- An account is no group. -/
theorem not_isGroup_accountIRI (key : Principal) : ¬ IsGroup (F.accountIRI key) := by
  intro isGroup
  have isAccount : hasPrefix (F.accountIRI key) "hm://a/" = true := by
    rw [hasPrefix, List.isPrefixOf_iff_prefix, Formats.accountIRI,
      String.toList_append]
    exact List.prefix_append ..
  exact absurd (eq_of_hasPrefix isAccount isGroup (by decide)) (by decide)

theorem toRole_toRole (n : Int) : toRole (toRole n) = toRole n :=
  Int.bmod_bmod

end Roles

section Invariant

variable {F : Formats Data} {s t : Store Data}

/-- A membership of a group with this owner, as it is stored. -/
structure MemberLink (F : Formats Data) (owner : Principal)
    (target : String) (metadata : LinkMeta) : Prop where
  /-- The role fits 32 bits. -/
  role : toRole metadata.role = metadata.role
  /-- Nobody else is a member with the role of an owner. -/
  owner : metadata.role = roleOwner → target = F.accountIRI owner

/-- The memberships of every group come from changes of its owner. -/
structure GroupsSound (F : Formats Data) (s : Store Data) : Prop where
  sources : ∀ link ∈ s.resourceLinks, ∃ row ∈ s.structuralBlobs,
    row.blob = link.source
  links : ∀ row ∈ s.structuralBlobs, ∀ group, row.resource = some group →
    IsGroup group → ∀ link ∈ s.resourceLinks, link.source = row.blob →
    link.type = "group/member" →
      row.type = "Change" ∧ ∃ owner, s.owner group = some owner ∧ owner ≠ [] ∧
        row.author = some owner ∧ MemberLink F owner link.target link.metadata

theorem GroupsSound.empty : GroupsSound F (Store.empty : Store Data) where
  sources := fun _ member => nomatch member
  links := fun _ member => nomatch member

/-- Only the derived tables matter, and owners that stay. -/
theorem GroupsSound.of_grows (sound : GroupsSound F s) (grows : Grows s t)
    (structuralBlobs : t.structuralBlobs = s.structuralBlobs)
    (resourceLinks : t.resourceLinks = s.resourceLinks) : GroupsSound F t where
  sources := by
    rw [structuralBlobs, resourceLinks]
    exact sound.sources
  links := by
    rw [structuralBlobs, resourceLinks]
    intro row isRow group isResource isGroup link isLink fromRow isMember
    rcases sound.links row isRow group isResource isGroup link isLink fromRow
      isMember with ⟨isChange, owner, isOwner, rest⟩
    exact ⟨isChange, owner, grows.owner isOwner, rest⟩

/-- Storing a structural blob whose own memberships are in order. -/
theorem GroupsSound.saved {hash : String} {b : StructuralBlob}
    (sound : GroupsSound F s) (saved : Saved F hash b s t)
    (members : ∀ link ∈ b.resourceLinks, link.1 = "group/member" →
      IsGroup b.resource → b.type = "Change" ∧ ∃ owner,
        t.owner b.resource = some owner ∧ owner ≠ [] ∧ b.author = some owner ∧
          MemberLink F owner link.2.1 link.2.2.2) : GroupsSound F t where
  sources := by
    rw [saved.structuralBlobs, saved.resourceLinks]
    intro link isLink
    rcases List.mem_append.mp isLink with old | new
    · rcases sound.sources link old with ⟨row, isRow, isSource⟩
      exact ⟨row, List.mem_append_left _ isRow, isSource⟩
    · rcases List.mem_map.mp new with ⟨_, -, rfl⟩
      exact ⟨_, List.mem_append_right _ (List.mem_singleton_self _), rfl⟩
  links := by
    rw [saved.structuralBlobs, saved.resourceLinks]
    intro row isRow group isResource isGroup link isLink fromRow isMember
    rcases List.mem_append.mp isRow with oldRow | newRow
    · rcases List.mem_append.mp isLink with oldLink | newLink
      · rcases sound.links row oldRow group isResource isGroup link oldLink fromRow
          isMember with ⟨isChange, owner, isOwner, rest⟩
        exact ⟨isChange, owner, saved.grows.owner isOwner, rest⟩
      · rcases List.mem_map.mp newLink with ⟨_, -, rfl⟩
        exact absurd fromRow.symm (saved.fresh row oldRow)
    · cases List.mem_singleton.mp newRow
      rcases List.mem_append.mp isLink with oldLink | newLink
      · -- A link whose source is new would have had a row before.
        rcases sound.sources link oldLink with ⟨row, isRow, isSource⟩
        exact absurd (isSource.trans fromRow) (saved.fresh row isRow)
      · rcases List.mem_map.mp newLink with ⟨link, isNew, rfl⟩
        have resource : b.resource = group := by
          simp only [Store.structuralRow] at isResource
          split at isResource
          · cases isResource
          · exact Option.some.inj isResource
        subst resource
        exact members link isNew isMember isGroup

end Invariant

section Changes

variable {F : Formats Data} {order : FieldOrder} {s s₁ t : Store Data}
variable {c : String} {v : Change} {author : Principal} {sb : StructuralBlob}

/-- An owner that has the role of an owner is the owner, if nobody else is one. -/
theorem GroupsSound.role (sound : GroupsSound F s) (nonempty : author ≠ [])
    (isGroup : IsGroup v.entity) (update : v.action ≠ actionCreate) {role : Int}
    (hasRole : HasRole F s v author role) :
    ∃ owner, s.owner v.entity = some owner ∧
      (author ≠ owner → role ≠ roleOwner ∧ ∃ item,
        Store.latest (s.memberships v.entity (F.accountIRI author)) = some item ∧
          item.2.role = role) := by
  rw [HasRole, if_neg update] at hasRole
  rcases hasRole with ⟨owner, isOwner, hasRole⟩
  refine ⟨owner, isOwner, fun other => ?_⟩
  rw [if_neg other.symm] at hasRole
  rcases hasRole with ⟨item, isLatest, -, isRole⟩
  rcases Store.mem_memberships.mp (Store.mem_of_latest isLatest) with
    ⟨row, isRow, isResource, link, isLink, fromRow, isMember, isTarget, rfl⟩
  rcases sound.links row isRow v.entity isResource isGroup link isLink fromRow
    isMember with ⟨-, owner', isOwner', nonempty', -, memberLink⟩
  cases isOwner.symm.trans isOwner'
  simp only [memberLink.role] at isRole
  refine ⟨fun isOwnerRole => other ?_, _, isLatest, isRole⟩
  apply accountIRI_inj nonempty nonempty'
  exact isTarget.symm.trans (memberLink.owner (isRole.trans isOwnerRole))

/-- The links of a change that are memberships. -/
def IsGroupLink (F : Formats Data) (s : Store Data) (v : Change)
    (author : Principal) (link : ResourceLink) : Prop :=
  link.1 = "group/member" → IsGroup v.entity ∧
    (v.action = actionCreate ∧
        link = ("group/member", F.accountIRI author, false, .group roleOwner) ∨
      HasRole F s v author roleOwner ∧ IsMemberLink F v.patch link)

theorem groupLinks (v : Change) (author : Principal) :
    EntityLinks F s v author (fun _ => True) (IsGroupLink F s v author) where
  doc := fun type => ⟨trivial, fun target isPinned metadata isMember =>
    absurd isMember (append_ne_of_hasPrefix (by decide))⟩
  content := ⟨trivial, fun _ _ _ isMember =>
    absurd (show "group/content" = "group/member" from isMember) (by decide)⟩
  avatar := trivial
  rootDocument := fun _ isMember =>
    absurd (show "account/root-document" = "group/member" from isMember) (by decide)
  creator := fun isGroup create _ => ⟨isGroup, .inl ⟨create, rfl⟩⟩
  member := fun isGroup _ hasRole isLink _ => ⟨isGroup, .inr ⟨hasRole, isLink⟩⟩

/-- What the indexing of a change requires of the memberships that it adds. -/
structure ChangeRespects (F : Formats Data) (s : Store Data) (v : Change)
    (author : Principal) : Prop where
  creator : IsGroup v.entity → v.action = actionCreate →
    ∀ owner, s.owner v.entity = some owner → author = owner
  roles : IsGroup v.entity → ∀ members key role,
    Object.get v.patch "members" = some (.map members) →
    (key, Value.int role) ∈ members → toRole role = roleOwner → role = roleOwner

theorem GroupsSound.indexedChange (sound : GroupsSound F s)
    (indexed : IndexedChange F order s c v author sb s₁ t)
    (respects : ChangeRespects F s v author) : GroupsSound F t := by
  rcases entityIndexed_of_returns (groupLinks v author) indexed.entity with
    ⟨ensured, extended, -⟩
  have nonempty := author_ne_nil indexed.authored
  have sound₁ := sound.of_grows ensured.grows ensured.structuralBlobs
    ensured.resourceLinks
  apply sound₁.saved indexed.saved
  intro link isLink isMember isResource
  rcases extended.resourceLinks with ⟨added, links_eq, areLinks⟩
  have isAdded : link ∈ added := by
    rw [links_eq] at isLink
    exact isLink
  have entity : sb.resource = v.entity := extended.resource
  rw [entity] at isResource ⊢
  rcases areLinks link isAdded isMember with ⟨isGroup, kind⟩
  -- The author of a membership is the owner that was recorded, or now is.
  have isOwner : s.owner v.entity = some author ∨
      s.owner v.entity = none ∧ v.action = actionCreate := by
    by_cases create : v.action = actionCreate
    · cases recorded : s.owner v.entity with
      | none => exact .inr ⟨rfl, create⟩
      | some owner =>
          rw [respects.creator isGroup create owner recorded]
          exact .inl rfl
    · rcases kind with ⟨isCreate, -⟩ | ⟨hasRole, -⟩
      · exact absurd isCreate create
      · rcases sound.role nonempty isGroup create hasRole with
          ⟨owner, recorded, isOwner⟩
        by_cases same : author = owner
        · exact .inl (same ▸ recorded)
        · exact absurd rfl (isOwner same).1
  have recorded : t.owner v.entity = some author := by
    rcases isOwner with recorded | ⟨missing, -⟩
    · exact indexed.saved.grows.owner (ensured.grows.owner recorded)
    · have missing₁ : s₁.owner v.entity = none := by
        by_contra some_owner
        rcases Option.ne_none_iff_exists'.mp some_owner with ⟨key, isKey⟩
        rcases ensured.owner v.entity key isKey with old | ⟨-, isAccount⟩
        · rw [missing] at old
          cases old
        · exact not_isGroup_accountIRI key (isAccount ▸ isGroup)
      have notAccount : ¬ F.accountIRI author = v.entity := fun same =>
        not_isGroup_accountIRI author (same ▸ isGroup)
      have named : v.entity ≠ "" := by
        intro isEmpty
        rw [isEmpty, IsGroup] at isGroup
        exact absurd isGroup (by decide)
      have isAuthor : sb.author = some author := extended.author
      have resourceOwner : sb.resourceOwner = some author := extended.resourceOwner
      rw [indexed.saved.owner_eq, missing₁, isAuthor, Option.map_some, entity,
        resourceOwner, if_neg (by simpa using notAccount), if_pos ⟨named, rfl⟩]
      rfl
  refine ⟨extended.type, author, recorded, nonempty, extended.author, ?_⟩
  rcases kind with ⟨-, rfl⟩ | ⟨-, members, key, role, acc, isMembers, isEntry, -,
    notOwner, rfl⟩
  · have isRole : toRole roleOwner = roleOwner := by decide
    exact ⟨isRole, fun _ => rfl⟩
  · refine ⟨toRole_toRole role, fun isOwnerRole => ?_⟩
    exact absurd (respects.roles isGroup members key role isMembers isEntry
      isOwnerRole) notOwner

end Changes

section Runs

variable {F : Formats Data} {s s₁ t : Store Data} {arrival : Arrival Data}

/-- A change of a group that arrives respects the memberships. -/
def RespectsGroups (F : Formats Data) (s : Store Data) (arrival : Arrival Data) :
    Prop :=
  ∀ s₁ v author, Arrives F s arrival s₁ (.change v) →
    (s₁.getAuthorFromDelegation F v.delegation).Returns author →
    ChangeRespects F s v author

theorem GroupsSound.received (sound : GroupsSound F s) (received : Received s t) :
    GroupsSound F t where
  sources := by
    rw [received.same.structuralBlobs, received.same.resourceLinks]
    exact sound.sources
  links := by
    rw [received.same.structuralBlobs, received.same.resourceLinks]
    intro row isRow group isResource isGroup link isLink fromRow isMember
    rw [received.owner]
    exact sound.links row isRow group isResource isGroup link isLink fromRow isMember

/-- A comment adds no membership. -/
theorem GroupsSound.indexedComment {c : String} {v : Comment}
    {author : Principal} {sb : StructuralBlob} (sound : GroupsSound F s)
    (indexed : IndexedComment F s c v author sb t) : GroupsSound F t := by
  have extended := indexed.links (fun _ => True) (fun link => link.1 ≠ "group/member")
    (fun type => ⟨trivial, fun _ _ _ =>
      append_ne_of_hasPrefix (by decide)⟩)
  apply sound.saved indexed.saved
  intro link isLink isMember _
  rcases extended.resourceLinks with ⟨added, links_eq, areLinks⟩
  rw [links_eq] at isLink
  exact absurd isMember (areLinks link isLink)

/-- A key delegation adds no membership. -/
theorem GroupsSound.indexedDelegation {c : String} {v : KeyDelegation}
    (sound : GroupsSound F s) (indexed : IndexedDelegation F s c v t) :
    GroupsSound F t := by
  have same : ∀ row, GroupsSound F (s.keyDelegationsInsertOrIgnore row) := by
    intro row
    rw [Store.keyDelegationsInsertOrIgnore]
    split
    · exact sound
    · exact ⟨sound.sources, sound.links⟩
  apply (same _).saved indexed.saved
  intro link isLink isMember _
  have isIssuer : link = ("kd/issuer", F.accountIRI v.issuer, false, .none) :=
    List.mem_singleton.mp isLink
  rw [isIssuer] at isMember
  exact absurd (show "kd/issuer" = "group/member" from isMember) (by decide)

/-- Whatever is accepted keeps the memberships in order. -/
theorem GroupsSound.accept (sound : GroupsSound F s)
    (respects : RespectsGroups F s arrival)
    (accepted : Hyper.accept F s arrival = some t) : GroupsSound F t := by
  rcases accept_cases accepted with received | ⟨s₁, blob, arrives, indexed⟩
  · exact sound.received received
  · have sound₁ := sound.received arrives.received
    have isIndexed := indexedBlob_of_returns indexed
    cases blob with
    | dagPB links =>
        apply sound₁.saved isIndexed
        intro link isLink
        rcases (extended_dagPBBlob links).resourceLinks with ⟨added, links_eq, noLink⟩
        rw [links_eq] at isLink
        exact absurd isLink (noLink link)
    | keyDelegation kd => exact sound₁.indexedDelegation isIndexed
    | change v =>
        rcases isIndexed with ⟨author, sb, s₂, isChange⟩
        have ownRespects := respects s₁ v author arrives isChange.authored
        exact sound₁.indexedChange isChange
          ⟨fun isGroup create owner isOwner => ownRespects.creator isGroup create
            owner (arrives.received.owner _ ▸ isOwner), ownRespects.roles⟩
    | comment cm =>
        rcases isIndexed with ⟨author, sb, isComment⟩
        exact sound₁.indexedComment isComment

theorem GroupsSound.editors {v : Change} {author : Principal}
    (sound : GroupsSound F s) (arrives : Arrives F s arrival s₁ (.change v))
    (accepted : Hyper.accept F s arrival = some t) (isGroup : IsGroup v.entity)
    (update : v.action ≠ actionCreate)
    (authored : (s₁.getAuthorFromDelegation F v.delegation).Returns author)
    (notOwner : s.owner v.entity ≠ some author) :
    (∃ item, Store.latest (s.memberships v.entity (F.accountIRI author)) =
        some item ∧ item.2.role = roleEditor) ∧
      isSet (Object.get v.patch "siteURL") = false ∧
      isSet (Object.get v.patch "members") = false := by
  have received := arrives.received
  have sound₁ := sound.received received
  rcases indexedChange_of_returns (arrives.indexed accepted) with
    ⟨author', sb, s₂, indexed⟩
  cases indexed.authored.unique authored
  rcases (entityIndexed_of_returns entityLinks_true indexed.entity).2.2 isGroup with
    ⟨-, -, role, hasRole, isMember, unset⟩
  rcases sound₁.role (author_ne_nil authored) isGroup update hasRole with
    ⟨owner, isOwner, other⟩
  rw [received.owner] at isOwner
  have different : author ≠ owner := by
    rintro rfl
    exact notOwner isOwner
  rcases other different with ⟨notOwnerRole, item, isLatest, isRole⟩
  rw [Store.memberships, received.same.structuralBlobs,
    received.same.resourceLinks] at isLatest
  refine ⟨⟨item, isLatest, ?_⟩, unset notOwnerRole⟩
  rw [isRole]
  exact isMember.resolve_left notOwnerRole

end Runs

/-- Two accounts have devices. -/
def deviceArrivals : List (Arrival DecodedBlob) :=
  [⟨.listed, "cdelegation1", .keyDelegation (sampleDelegation 1 11)⟩,
    ⟨.listed, "cdelegation2", .keyDelegation (sampleDelegation 2 12)⟩]

/-- The first account creates a group. -/
def createArrival : Arrival DecodedBlob :=
  ⟨.listed, "ccreate", .change sampleCreate⟩

/-- The store after these arrivals. -/
def sampleRun (arrivals : List (Arrival DecodedBlob)) :
    Option (Store DecodedBlob) :=
  performAll (accept (sampleFormats sampleSha256)) .empty arrivals

def deviceArrivalsResult : Evaluated (sampleRun deviceArrivals) :=
  .of (by decide +kernel)

theorem deviceArrivals_accepted : (sampleRun deviceArrivals).isSome = true :=
  deviceArrivalsResult.isSome

/-- The store that knows the devices. -/
def deviceStore : Store DecodedBlob :=
  (sampleRun deviceArrivals).get deviceArrivals_accepted

def createArrivalResult : Evaluated (accept (sampleFormats sampleSha256) deviceStore
    createArrival) :=
  .of (by decide +kernel)

theorem createArrival_accepted : (accept (sampleFormats sampleSha256) deviceStore
    createArrival).isSome = true :=
  createArrivalResult.isSome

/-- The store with the devices and the group. -/
def groupStore : Store DecodedBlob :=
  (accept (sampleFormats sampleSha256) deviceStore createArrival).get
    createArrival_accepted

theorem sampleRun_deviceArrivals : sampleRun deviceArrivals = some deviceStore :=
  (Option.some_get deviceArrivals_accepted).symm

theorem accept_createArrival :
    accept (sampleFormats sampleSha256) deviceStore createArrival = some groupStore :=
  (Option.some_get createArrival_accepted).symm

/-- The group is created in a run that permits its creation. -/
theorem reaches_groupStore
    {permitted : Store DecodedBlob → Arrival DecodedBlob → Prop}
    (devices : AllPermitted (accept (sampleFormats sampleSha256)) permitted .empty
      deviceArrivals)
    (create : permitted deviceStore createArrival) :
    Reaches (accept (sampleFormats sampleSha256)) permitted .empty groupStore :=
  .tail (reaches_of_performAll devices sampleRun_deviceArrivals)
    ⟨createArrival, create, accept_createArrival⟩

/-- The owner adds the second account as an editor. -/
def memberArrival : Arrival DecodedBlob :=
  ⟨.listed, "cmember", .change
    (sampleMemberChange "cdelegation1" 11 1700000002000000 2 roleEditor)⟩

def memberArrivalResult : Evaluated (accept (sampleFormats sampleSha256) groupStore
    memberArrival) :=
  .of (by decide +kernel)

/-- The store with a group of two members. -/
def memberStore : Store DecodedBlob := memberArrivalResult.val

/-- The second account gives the group another title. -/
def titleChange : Change where
  deps := ["cmember"]
  delegation := "cdelegation2"
  action := "Update"
  hlcTime := 1700000003000000
  entity := sampleGroup
  patch := [("title", .string "Readers")]
  signer := samplePrincipal 12
  sig := "signature"

/-- The change of the editor arrives. -/
def titleArrival : Arrival DecodedBlob :=
  ⟨.listed, "ctitle", .change titleChange⟩

def titleArrivalResult : Evaluated (accept (sampleFormats sampleSha256) memberStore
    titleArrival) :=
  .of (by decide +kernel)

/-- The store in which an editor has changed the group. -/
def titleStore : Store DecodedBlob := titleArrivalResult.val

/-- The group is changed by its owner and by its editor in a run that permits both changes. -/
theorem reaches_titleStore
    {permitted : Store DecodedBlob → Arrival DecodedBlob → Prop}
    (group : Reaches (accept (sampleFormats sampleSha256)) permitted .empty groupStore)
    (member : permitted groupStore memberArrival)
    (title : permitted memberStore titleArrival) :
    Reaches (accept (sampleFormats sampleSha256)) permitted .empty titleStore :=
  (group.extend member memberArrivalResult.property).extend title
    titleArrivalResult.property

end Mintter.Hyper
