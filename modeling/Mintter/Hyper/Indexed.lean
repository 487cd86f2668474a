import Mintter.Hyper.Growth

/-!
# What an indexed blob has passed

The links of a structural blob are collected before it is stored.  `Extended`
says which links a part of the indexing adds, and `IndexedChange` is everything
that indexing a change has checked and done.
-/

namespace Mintter.Hyper

open Mintter.Foundation
open Mintter.Crdt2

variable {Data : Type}

/-! ## Collecting links -/

/-- A link to a resource before it is stored. -/
abbrev ResourceLink := String × String × Bool × LinkMeta

/-- Links of these types to blobs and these links to resources are added. -/
structure Extended (toBlob : String → Prop) (toResource : ResourceLink → Prop)
    (sb sb' : StructuralBlob) : Prop where
  type : sb'.type = sb.type
  author : sb'.author = sb.author
  time : sb'.time = sb.time
  resource : sb'.resource = sb.resource
  resourceOwner : sb'.resourceOwner = sb.resourceOwner
  resourceCreateTime : sb'.resourceCreateTime = sb.resourceCreateTime
  blobLinks : ∃ added, sb'.blobLinks = sb.blobLinks ++ added ∧
    ∀ link ∈ added, toBlob link.1
  resourceLinks : ∃ added, sb'.resourceLinks = sb.resourceLinks ++ added ∧
    ∀ link ∈ added, toResource link

namespace Extended

variable {toBlob : String → Prop} {toResource : ResourceLink → Prop}
variable {sb sb' sb'' : StructuralBlob}

theorem refl (sb : StructuralBlob) : Extended toBlob toResource sb sb :=
  ⟨rfl, rfl, rfl, rfl, rfl, rfl, ⟨[], by simp⟩, ⟨[], by simp⟩⟩

theorem trans (first : Extended toBlob toResource sb sb')
    (second : Extended toBlob toResource sb' sb'') :
    Extended toBlob toResource sb sb'' where
  type := second.type.trans first.type
  author := second.author.trans first.author
  time := second.time.trans first.time
  resource := second.resource.trans first.resource
  resourceOwner := second.resourceOwner.trans first.resourceOwner
  resourceCreateTime := second.resourceCreateTime.trans first.resourceCreateTime
  blobLinks := by
    rcases first.blobLinks with ⟨added, links_eq, kinds⟩
    rcases second.blobLinks with ⟨added', links_eq', kinds'⟩
    refine ⟨added ++ added', by rw [links_eq', links_eq, List.append_assoc], ?_⟩
    exact List.forall_mem_append.mpr ⟨kinds, kinds'⟩
  resourceLinks := by
    rcases first.resourceLinks with ⟨added, links_eq, kinds⟩
    rcases second.resourceLinks with ⟨added', links_eq', kinds'⟩
    refine ⟨added ++ added', by rw [links_eq', links_eq, List.append_assoc], ?_⟩
    exact List.forall_mem_append.mpr ⟨kinds, kinds'⟩

theorem addBlobLink (sb : StructuralBlob) {linkType : String}
    (isLink : toBlob linkType) (target : String) :
    Extended toBlob toResource sb (sb.addBlobLink linkType target) :=
  ⟨rfl, rfl, rfl, rfl, rfl, rfl, ⟨[(linkType, target)], rfl, by simpa⟩,
    ⟨[], by simp [StructuralBlob.addBlobLink]⟩⟩

theorem addResourceLink (sb : StructuralBlob) {linkType target : String}
    {isPinned : Bool} {metadata : LinkMeta}
    (isLink : toResource (linkType, target, isPinned, metadata)) :
    Extended toBlob toResource sb
      (sb.addResourceLink linkType target isPinned metadata) :=
  ⟨rfl, rfl, rfl, rfl, rfl, rfl, ⟨[], by simp [StructuralBlob.addResourceLink]⟩,
    ⟨[(linkType, target, isPinned, metadata)], rfl, by simpa⟩⟩

theorem withTitle (sb : StructuralBlob) (title : Option Value) :
    Extended toBlob toResource sb (sb.withTitle title) := by
  have titled : ∀ text,
      Extended toBlob toResource sb { sb with title := text } := fun _ =>
    ⟨rfl, rfl, rfl, rfl, rfl, rfl, ⟨[], by simp⟩, ⟨[], by simp⟩⟩
  rcases title with _ | ⟨text⟩ | _
  case some.string => exact titled _
  all_goals exact refl sb

/-- Links that are added one after the other. -/
theorem foldl {β : Type} {step : StructuralBlob → β → StructuralBlob}
    (extends_ : ∀ sb item, Extended toBlob toResource sb (step sb item))
    (items : List β) (sb : StructuralBlob) :
    Extended toBlob toResource sb (items.foldl step sb) := by
  induction items generalizing sb with
  | nil => exact refl sb
  | cons item items induction =>
      exact (extends_ sb item).trans (induction (step sb item))

/-- A loop that may fail adds what its steps add. -/
theorem foldlM {β : Type} {step : StructuralBlob → β → Attempt StructuralBlob}
    {items : List β}
    (extends_ : ∀ sb item sb', item ∈ items → (step sb item).Returns sb' →
      Extended toBlob toResource sb sb')
    (returns : (items.foldlM step sb).Returns sb') :
    Extended toBlob toResource sb sb' :=
  returns.foldlM_invariant
    (fun sb item next member extended added =>
      extended.trans (extends_ sb item next member added)) (refl _)

end Extended

section References

variable {F : Formats Data} {sb sb' : StructuralBlob}
variable {toBlob : String → Prop} {toResource : ResourceLink → Prop}

theorem except_bind_eq_ok {α β : Type} {first : Except String α}
    {next : α → Except String β} {result : β} :
    first >>= next = .ok result ↔
      ∃ value, first = .ok value ∧ next value = .ok result := by
  cases first <;> simp [bind, Except.bind]

/-- The link type is one of those that may be added, to blobs and resources. -/
def IsLinkType (toBlob : String → Prop) (toResource : ResourceLink → Prop)
    (linkType : String) : Prop :=
  toBlob linkType ∧ ∀ target isPinned metadata,
    toResource (linkType, target, isPinned, metadata)

theorem Extended.indexURL {anchor linkType rawURL : String}
    (isLink : IsLinkType toBlob toResource linkType)
    (success : indexURL F anchor linkType sb rawURL = .ok sb') :
    Extended toBlob toResource sb sb' := by
  rw [Hyper.indexURL] at success
  split at success
  · exact Except.ok.inj success ▸ .refl sb
  · split at success
    · exact Except.ok.inj success ▸ .refl sb
    next u parsed =>
    split at success
    · -- A link to a resource, and to the blobs of the version in its query.
      rcases except_bind_eq_ok.mp success with ⟨vblobs, -, added⟩
      rw [← Except.ok.inj added]
      exact (addResourceLink sb (isLink.2 ..)).trans
        (foldl (fun sb item => addBlobLink sb isLink.1 item) vblobs _)
    · split at success
      · split at success
        · cases success
        · exact Except.ok.inj success ▸ .addBlobLink sb isLink.1 _
      · split at success
        · split at success
          · cases success
          · exact Except.ok.inj success ▸ .addBlobLink sb isLink.1 _
        · exact Except.ok.inj success ▸ .refl sb

theorem Extended.indexAnnotations {anchor kind : String}
    {annotations : List Annotation}
    (isLink : ∀ type, IsLinkType toBlob toResource (kind ++ type))
    (success : indexAnnotations F anchor kind sb annotations = .ok sb') :
    Extended toBlob toResource sb sb' := by
  rw [Hyper.indexAnnotations] at success
  induction annotations generalizing sb with
  | nil => exact Except.ok.inj success ▸ .refl sb
  | cons ann rest induction =>
      rcases except_bind_eq_ok.mp success with ⟨next, first, others⟩
      exact (Extended.indexURL (isLink ann.type) first).trans (induction others)

theorem Extended.indexBlock {block : String × Value}
    (isLink : ∀ type, IsLinkType toBlob toResource ("doc/" ++ type))
    (returns : (indexBlock F sb block).Returns sb') :
    Extended toBlob toResource sb sb' := by
  rw [Hyper.indexBlock] at returns
  split at returns
  · split at returns
    · rw [Attempt.returns_pure] at returns
      exact returns ▸ .refl sb
    · simp only [Attempt.returns_ofExcept, except_bind_eq_ok] at returns
      rcases returns with ⟨blk, -, next, ref, annotations⟩
      exact (Extended.indexURL (isLink blk.type) ref).trans
        (Extended.indexAnnotations isLink annotations)
  · exact absurd returns Attempt.not_returns_abort

end References

/-! ## What is specific to the kind of the entity -/

section Kinds

variable {F : Formats Data} {order : FieldOrder} {s t : Store Data} {c : String}
variable {v : Change} {patch : Object} {author : Principal}
variable {sb sb' : StructuralBlob}
variable {toBlob : String → Prop} {toResource : ResourceLink → Prop}

theorem Extended.indexAccount
    (isAvatar : toBlob "account/avatar")
    (isRoot : ∀ target, toResource ("account/root-document", target, false, .none))
    (returns : (indexAccount s v patch sb).Returns sb') :
    Extended toBlob toResource sb sb' := by
  simp only [Hyper.indexAccount, Attempt.returns_bind,
    Attempt.returns_pure] at returns
  rcases returns with ⟨-, -, rfl⟩
  have avatar : ∀ sb : StructuralBlob, ∀ avatar : Option Value,
      Extended toBlob toResource sb (sb.withAvatar avatar) := by
    intro sb avatar
    rcases avatar with _ | ⟨target⟩ | _
    case some.link => exact addBlobLink sb isAvatar _
    all_goals exact .refl sb
  have rootDocument : ∀ sb : StructuralBlob, ∀ rootDocument : Option Value,
      Extended toBlob toResource sb (sb.withRootDocument rootDocument) := by
    intro sb rootDocument
    rcases rootDocument with _ | ⟨target⟩ | _
    case some.string => exact addResourceLink sb (isRoot _)
    all_goals exact .refl sb
  exact ((avatar sb _).trans (withTitle _ _)).trans (rootDocument _ _)

theorem Extended.indexDocument
    (isLink : ∀ type, IsLinkType toBlob toResource ("doc/" ++ type))
    (returns : (indexDocument F order s v patch sb).Returns sb') :
    Extended toBlob toResource sb sb' := by
  simp only [Hyper.indexDocument, Attempt.returns_bind] at returns
  rcases returns with ⟨-, -, blocks⟩
  apply (withTitle sb _).trans
  rw [indexBlocks] at blocks
  split at blocks
  · exact foldlM (fun sb block sb' _ added => .indexBlock isLink added) blocks
  · rw [Attempt.returns_pure] at blocks
    exact blocks ▸ .refl _

theorem Extended.indexContent
    (isLink : IsLinkType toBlob toResource "group/content")
    (returns : (indexContent F order patch sb).Returns sb') :
    Extended toBlob toResource sb sb' := by
  rw [Hyper.indexContent] at returns
  split at returns
  · apply foldlM _ returns
    intro sb entry sb' _ added
    rw [indexContentEntry] at added
    split at added
    · exact .indexURL isLink (Attempt.returns_ofExcept.mp added)
    · rw [Attempt.returns_pure] at added
      exact added ▸ .refl sb
  · rw [Attempt.returns_pure] at returns
    exact returns ▸ .refl sb

/-! ## Groups -/

/--
Only resources are added, and the owner of a new one is nobody or the account
that the resource stands for.  The sites of groups may change.
-/
structure Ensured (F : Formats Data) (s t : Store Data) : Prop where
  grows : Grows s t
  blobs : t.blobs = s.blobs
  structuralBlobs : t.structuralBlobs = s.structuralBlobs
  blobLinks : t.blobLinks = s.blobLinks
  resourceLinks : t.resourceLinks = s.resourceLinks
  keyDelegations : t.keyDelegations = s.keyDelegations
  owner : ∀ iri key, t.owner iri = some key →
    s.owner iri = some key ∨ key ≠ [] ∧ iri = F.accountIRI key

namespace Ensured

theorem refl (s : Store Data) : Ensured F s s :=
  ⟨.refl s, rfl, rfl, rfl, rfl, rfl, fun _ _ isOwner => .inl isOwner⟩

theorem trans {u : Store Data} (first : Ensured F s t) (second : Ensured F t u) :
    Ensured F s u where
  grows := first.grows.trans second.grows
  blobs := second.blobs.trans first.blobs
  structuralBlobs := second.structuralBlobs.trans first.structuralBlobs
  blobLinks := second.blobLinks.trans first.blobLinks
  resourceLinks := second.resourceLinks.trans first.resourceLinks
  keyDelegations := second.keyDelegations.trans first.keyDelegations
  owner := fun iri key isOwner => by
    rcases second.owner iri key isOwner with old | isAccount
    · exact first.owner iri key old
    · exact .inr isAccount

theorem of_owned {owner : String → Option Principal} (owned : Owned s t owner)
    (isAccount : ∀ iri key, owner iri = some key →
      key ≠ [] ∧ iri = F.accountIRI key) :
    Ensured F s t where
  grows := owned.grows
  blobs := owned.blobs
  structuralBlobs := owned.same.structuralBlobs
  blobLinks := owned.same.blobLinks
  resourceLinks := owned.same.resourceLinks
  keyDelegations := owned.same.keyDelegations
  owner := fun iri key isOwner => by
    rw [owned.owner_eq, Option.or_eq_some_iff] at isOwner
    rcases isOwner with old | ⟨-, new⟩
    · exact .inl old
    · exact .inr (isAccount iri key new)

theorem ensureResource (s : Store Data) (iri : String) :
    Ensured F s (s.ensureResource iri) :=
  of_owned (owned_ensureResource s iri) (fun _ _ isOwner => by cases isOwner)

theorem ensureAccount {key : Principal}
    (returns : (s.ensureAccount F key).Returns t) : Ensured F s t := by
  apply of_owned (owned_ensureAccount returns)
  intro iri key' isOwner
  split at isOwner
  · next same =>
      rw [← same, ← Option.some.inj isOwner]
      exact ⟨quiet_ensureAccount.mp returns.quiet, rfl⟩
  · cases isOwner

theorem sitesInsertOrIgnore (s : Store Data) (site : GroupSiteRow) :
    Ensured F s (s.sitesInsertOrIgnore site) := by
  have sites : ∀ groupSites, Ensured F s { s with groupSites } := fun _ =>
    ⟨.of_same rfl rfl rfl rfl rfl, rfl, rfl, rfl, rfl, rfl,
      fun _ _ isOwner => .inl isOwner⟩
  rw [Store.sitesInsertOrIgnore]
  split
  · exact sites _
  · split
    · exact sites _
    · exact refl s

end Ensured

/-- The role that indexing a change of a group sees for its author. -/
def HasRole (F : Formats Data) (s : Store Data) (v : Change) (author : Principal)
    (role : Int) : Prop :=
  if v.action = actionCreate then role = roleOwner
  else ∃ owner, s.owner v.entity = some owner ∧
    if owner = author then role = roleOwner
    else ∃ item,
      Store.latest (s.memberships v.entity (F.accountIRI author)) = some item ∧
        item.2.role ≠ 0 ∧ toRole item.2.role = role

/-- A membership that a change of a group adds through the `members` field. -/
def IsMemberLink (F : Formats Data) (patch : Object) (link : ResourceLink) : Prop :=
  ∃ members key value acc, Object.get patch "members" = some (.map members) ∧
    (key, Value.int value) ∈ members ∧ value ≠ roleUnspecified ∧
    value ≠ roleOwner ∧
    link = ("group/member", F.accountIRI acc, false, .group (toRole value))

/-- What indexing a change of a group has checked and done. -/
structure GroupIndexed (F : Formats Data) (s : Store Data) (v : Change)
    (patch : Object) (author : Principal) (t : Store Data) : Prop where
  kept : s.isDeleted v.entity = false
  ensured : Ensured F s t
  role : ∃ role, HasRole F s v author role ∧
    (role = roleOwner ∨ role = roleEditor) ∧
    (role ≠ roleOwner → isSet (Object.get patch "siteURL") = false ∧
      isSet (Object.get patch "members") = false)

theorem hasRole_of_currentRole {role : Int} (update : v.action ≠ actionCreate)
    (returns : (currentRole F (s.ensureResource v.entity) v author).Returns role) :
    HasRole F s v author role := by
  have same := (owned_ensureResource s v.entity).same
  simp only [currentRole, Attempt.returns_bind, Store.returns_resourceGetOwner,
    Store.owner_ensureResource] at returns
  rcases returns with ⟨-, -, owner, isOwner, returns⟩
  rw [HasRole, if_neg update]
  refine ⟨owner, isOwner, ?_⟩
  split at returns
  · next isAuthor =>
      rw [if_pos isAuthor]
      exact (Attempt.returns_pure.mp returns).symm
  · next other =>
      rw [if_neg other]
      simp only [Attempt.returns_bind, Attempt.returns_pure,
        Store.returns_getGroupRole] at returns
      rcases returns with ⟨_, ⟨-, -, item, isLatest, valid, rfl⟩, isRole⟩
      refine ⟨item, ?_, valid, isRole⟩
      rwa [Store.memberships, same.structuralBlobs, same.resourceLinks] at isLatest

/-- A field that is present with a value other than null is set. -/
theorem get_of_not_isSet {field : String} {value : Value}
    (unset : isSet (Object.get patch field) = false) (notNull : value ≠ .null) :
    Object.get patch field ≠ some value := by
  intro isValue
  rw [isValue] at unset
  cases value <;> first | exact absurd unset Bool.noConfusion | exact notNull rfl

theorem indexedMember_of_returns {state next : Store Data × StructuralBlob}
    {members : Object} {entry : String × Value}
    (isMembers : Object.get patch "members" = some (.map members))
    (member : entry ∈ members)
    (isLink : ∀ link, IsMemberLink F patch link → toResource link)
    (returns : (indexMember F state entry).Returns next) :
    Ensured F state.1 next.1 ∧ Extended toBlob toResource state.2 next.2 := by
  rw [indexMember, Attempt.returns_bind] at returns
  rcases returns with ⟨acc, -, returns⟩
  split at returns
  · next role isRole =>
      simp only [Attempt.returns_bind, Attempt.returns_check,
        Attempt.returns_pure] at returns
      rcases returns with ⟨-, specified, -, notOwner, s', ensured, rfl⟩
      refine ⟨.ensureAccount ensured, .addResourceLink state.2 (isLink _ ?_)⟩
      exact ⟨members, entry.1, role, acc, isMembers, isRole ▸ member, specified,
        notOwner, rfl⟩
  · exact absurd returns Attempt.not_returns_throw

theorem indexedMembers_of_returns {t : Store Data}
    (isLink : ∀ link, IsMemberLink F patch link → toResource link)
    (returns : (indexMembers F order s patch sb).Returns (t, sb')) :
    Ensured F s t ∧ Extended toBlob toResource sb sb' := by
  rw [indexMembers] at returns
  split at returns
  · next members isMembers =>
      have keeps : ∀ (state : Store Data × StructuralBlob) entry next,
          entry ∈ order.fields 2 members →
          Ensured F s state.1 ∧ Extended toBlob toResource sb state.2 →
          (indexMember F state entry).Returns next →
          Ensured F s next.1 ∧ Extended toBlob toResource sb next.2 := by
        intro state entry next member kept added
        have isMember := ((order.perm 2 members).mem_iff).mp member
        have step : Ensured F state.1 next.1 ∧
            Extended toBlob toResource state.2 next.2 :=
          indexedMember_of_returns isMembers isMember isLink added
        exact ⟨kept.1.trans step.1, kept.2.trans step.2⟩
      have kept := returns.foldlM_invariant keeps ⟨.refl s, .refl sb⟩
      exact kept
  · cases Attempt.returns_pure.mp returns
    exact ⟨.refl s, .refl sb⟩

theorem ensured_indexSite (returns : (indexSite F s c v patch).Returns t) :
    Ensured F s t := by
  rw [indexSite] at returns
  split at returns
  · simp only [Attempt.returns_bind, Attempt.returns_pure] at returns
    rcases returns with ⟨-, -, rfl⟩
    exact .sitesInsertOrIgnore s _
  · rw [Attempt.returns_pure] at returns
    exact returns ▸ .refl s

/-- The role of the author, and the link of the creator of a group. -/
theorem indexedRole_of_returns {role : Int}
    (isCreator : v.action = actionCreate →
      toResource ("group/member", F.accountIRI author, false, .group roleOwner))
    (returns : (indexAuthorRole F s v author sb).Returns (t, sb', role)) :
    Ensured F s t ∧ Extended toBlob toResource sb sb' ∧
      HasRole F s v author role := by
  rw [indexAuthorRole] at returns
  split at returns
  · next create =>
      cases Attempt.returns_pure.mp returns
      refine ⟨.refl s, .addResourceLink sb (isCreator create), ?_⟩
      rw [HasRole, if_pos create]
  · next update =>
      simp only [Attempt.returns_bind, Attempt.returns_pure] at returns
      rcases returns with ⟨_, current, same⟩
      cases same
      exact ⟨.ensureResource s _, .refl sb, hasRole_of_currentRole update current⟩

theorem groupIndexed_of_returns
    (isContent : IsLinkType toBlob toResource "group/content")
    (isCreator : v.action = actionCreate →
      toResource ("group/member", F.accountIRI author, false, .group roleOwner))
    (isMember : ∀ link, HasRole F s v author roleOwner →
      IsMemberLink F patch link → toResource link)
    (returns : (indexGroup F order s c v patch author sb).Returns (t, sb')) :
    GroupIndexed F s v patch author t ∧ Extended toBlob toResource sb sb' := by
  simp only [indexGroup, checkRole, Attempt.returns_bind,
    Attempt.returns_check] at returns
  rcases returns with ⟨-, kept, ⟨s₁, sb₁, role⟩, authorRole, -,
    ⟨-, isMemberRole, -, siteRole, membersRole⟩, s₂, site, sb₂, content, members⟩
  have roleIndexed : Ensured F s s₁ ∧ Extended toBlob toResource _ sb₁ ∧
      HasRole F s v author role := indexedRole_of_returns isCreator authorRole
  rcases roleIndexed with ⟨ensured₁, extended₁, hasRole⟩
  have unset : role ≠ roleOwner → isSet (Object.get patch "siteURL") = false ∧
      isSet (Object.get patch "members") = false := fun notOwner =>
    ⟨Bool.eq_false_iff.mpr fun isSet => siteRole ⟨notOwner, isSet⟩,
      Bool.eq_false_iff.mpr fun isSet => membersRole ⟨notOwner, isSet⟩⟩
  have isOwner : ∀ link, IsMemberLink F patch link → role = roleOwner := by
    rintro link ⟨entries, -, -, -, isMembers, -⟩
    by_contra notOwner
    exact get_of_not_isSet (unset notOwner).2 (by simp) isMembers
  have added : Ensured F s₂ t ∧ Extended toBlob toResource sb₂ sb' :=
    indexedMembers_of_returns (fun link isLink =>
      isMember link (isOwner link isLink ▸ hasRole) isLink) members
  refine ⟨⟨Bool.eq_false_iff.mpr kept,
    (ensured₁.trans (ensured_indexSite site)).trans added.1,
    role, hasRole, ?_, unset⟩, ?_⟩
  · by_contra neither
    exact isMemberRole (not_or.mp neither)
  · exact (((Extended.withTitle sb _).trans extended₁).trans
      (.indexContent isContent content)).trans added.2

/-! ## Changes -/

/-- The links that indexing a change may add for its entity. -/
structure EntityLinks (F : Formats Data) (s : Store Data) (v : Change)
    (author : Principal) (toBlob : String → Prop)
    (toResource : ResourceLink → Prop) : Prop where
  doc : ∀ type, IsLinkType toBlob toResource ("doc/" ++ type)
  content : IsLinkType toBlob toResource "group/content"
  avatar : toBlob "account/avatar"
  rootDocument : ∀ target,
    toResource ("account/root-document", target, false, .none)
  creator : hasPrefix v.entity "hm://g/" = true → v.action = actionCreate →
    toResource ("group/member", F.accountIRI author, false, .group roleOwner)
  member : hasPrefix v.entity "hm://g/" = true →
    ∀ link, HasRole F s v author roleOwner → IsMemberLink F v.patch link →
      toResource link

/-- All links may be added. -/
theorem entityLinks_true :
    EntityLinks F s v author (fun _ => True) (fun _ => True) :=
  ⟨fun _ => ⟨trivial, fun _ _ _ => trivial⟩, ⟨trivial, fun _ _ _ => trivial⟩,
    trivial, fun _ => trivial, fun _ _ => trivial, fun _ _ _ _ => trivial⟩

/-- No text has two different prefixes of one length. -/
theorem eq_of_hasPrefix {text start start' : String}
    (isPrefix : hasPrefix text start = true)
    (isPrefix' : hasPrefix text start' = true)
    (sameLength : start.toList.length = start'.toList.length) : start = start' := by
  rw [hasPrefix, List.isPrefixOf_iff_prefix] at isPrefix isPrefix'
  have isPart := List.prefix_of_prefix_length_le isPrefix isPrefix' sameLength.le
  exact String.toList_inj.mp (isPart.eq_of_length sameLength)

theorem entityIndexed_of_returns
    (links : EntityLinks F s v author toBlob toResource)
    (returns : (indexEntity F order s c v v.patch author sb).Returns (t, sb')) :
    Ensured F s t ∧ Extended toBlob toResource sb sb' ∧
      (hasPrefix v.entity "hm://g/" = true →
        GroupIndexed F s v v.patch author t) := by
  rw [indexEntity] at returns
  split at returns
  · next isAccount =>
      simp only [Attempt.returns_bind, Attempt.returns_pure] at returns
      rcases returns with ⟨_, indexed, same⟩
      cases same
      refine ⟨.refl s, .indexAccount links.avatar links.rootDocument indexed,
        fun isGroup => ?_⟩
      exact absurd (eq_of_hasPrefix isAccount isGroup (by decide)) (by decide)
  · split at returns
    · next isDocument =>
        simp only [Attempt.returns_bind, Attempt.returns_pure] at returns
        rcases returns with ⟨_, indexed, same⟩
        cases same
        refine ⟨.refl s, .indexDocument links.doc indexed, fun isGroup => ?_⟩
        exact absurd (eq_of_hasPrefix isDocument isGroup (by decide)) (by decide)
    · split at returns
      · next isGroup =>
          have indexed : GroupIndexed F s v v.patch author t ∧
              Extended toBlob toResource sb sb' :=
            groupIndexed_of_returns links.content (links.creator isGroup)
              (fun link hasRole isLink =>
                links.member isGroup link hasRole isLink) returns
          exact ⟨indexed.1.ensured, indexed.2, fun _ => indexed.1⟩
      · next other =>
          cases Attempt.returns_pure.mp returns
          exact ⟨.refl s, .refl sb, fun isGroup => absurd isGroup other⟩

/-- The dependencies are linked in their order, and all of them are there. -/
theorem addDeps_returns (deps : List String) (sb : StructuralBlob) :
    (deps.foldlM (fun (sb : StructuralBlob) dep => do
      Attempt.check (s.hasBlobData F dep = false)
        s!"missing causal dependency {dep} of change {c}"
      pure (sb.addBlobLink "change/dep" dep)) sb).Returns sb' ↔
      (∀ dep ∈ deps, s.hasBlobData F dep = true) ∧
        sb' = { sb with
          blobLinks := sb.blobLinks ++ deps.map (("change/dep", ·)) } := by
  induction deps generalizing sb with
  | nil =>
      rw [List.foldlM_nil, Attempt.returns_pure, List.map_nil, List.append_nil]
      exact ⟨fun same => ⟨by simp, same.symm⟩, fun ⟨_, same⟩ => same.symm⟩
  | cons dep rest induction =>
      simp only [List.foldlM_cons, Attempt.returns_bind, Attempt.returns_check,
        Attempt.returns_pure, List.forall_mem_cons]
      constructor
      · rintro ⟨_, ⟨_, there, rfl⟩, others⟩
        rcases (induction _).mp others with ⟨all, rfl⟩
        refine ⟨⟨by simpa using there, all⟩, ?_⟩
        simp [StructuralBlob.addBlobLink]
      · rintro ⟨⟨there, all⟩, rfl⟩
        refine ⟨_, ⟨(), by simp [there], rfl⟩, (induction _).mpr ⟨all, ?_⟩⟩
        simp [StructuralBlob.addBlobLink]

/-- An author that was decoded is not empty. -/
theorem author_ne_nil {delegation : String}
    (authored : (s.getAuthorFromDelegation F delegation).Returns author) :
    author ≠ [] := by
  simp only [Store.getAuthorFromDelegation, Attempt.returns_bind,
    Attempt.returns_pure, Principal.returns_decodeBytes] at authored
  rcases authored with ⟨issuer, -, _, ⟨-, isKey, rfl⟩, -, -, rfl⟩
  exact Principal.ne_nil_of_uvarint isKey

/-- The structural blob of a change with its dependencies and its delegation. -/
def linkedBlob (v : Change) (author : Principal) : StructuralBlob :=
  { changeBlob v author with
    blobLinks := v.deps.map (("change/dep", ·)) ++ [("change/auth", v.delegation)] }

/-- Everything that indexing a change has checked and done. -/
structure IndexedChange (F : Formats Data) (order : FieldOrder) (s : Store Data)
    (c : String) (v : Change) (author : Principal) (sb : StructuralBlob)
    (s₁ t : Store Data) : Prop where
  authored : (s.getAuthorFromDelegation F v.delegation).Returns author
  valid : (validateChange F c v author).Returns ()
  deps : ∀ dep ∈ v.deps, s.hasBlobData F dep = true
  reencoded : F.reencode v.patch = .ok v.patch
  entity : (indexEntity F order s c v v.patch author
    (linkedBlob v author)).Returns (s₁, sb)
  saved : Saved F (F.cidHash c) sb s₁ t

theorem indexedChange_of_returns
    (returns : (indexChange F order s c v).Returns t) :
    ∃ author sb s₁, IndexedChange F order s c v author sb s₁ t := by
  simp only [indexChange, addDeps, Attempt.returns_bind, addDeps_returns,
    Attempt.returns_ofExcept] at returns
  rcases returns with ⟨author, authored, ⟨⟩, valid, -, ⟨deps, rfl⟩, patch,
    reencoded, ⟨s₁, sb⟩, entity, saved⟩
  have same := F.reencode_eq _ _ reencoded
  rw [same] at reencoded entity
  exact ⟨author, sb, s₁, authored, valid, deps, reencoded, entity,
    saved_of_saveBlob saved⟩

end Kinds

end Mintter.Hyper
