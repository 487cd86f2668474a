import Mintter.Foundation.Latest
import Mintter.Hyper.Membership

/-!
# Listed members of groups

The members of a group are listed from the links of the changes of its owner, one row after the
other.  The rows have no order, and the time of a change is not looked at: an account is listed
with the role of whichever row comes last.  The role that is looked up for an author is the one
with the greatest time, whoever it comes from.
-/

namespace Mintter.Hyper

open Mintter.Foundation
open Mintter.Crdt2

variable {Data : Type}

/-! ## The list -/

/-- The members that the changes of the owner have added, with the roles that they have given. -/
def Store.groupListMembers (s : Store Data) (group : String) (owner : Principal) :
    List (Principal × Int) :=
  (s.structuralBlobs.filter fun row =>
    row.resource == some group && row.author == some owner).flatMap fun row =>
      (s.resourceLinks.filter fun link =>
        link.source == row.blob && link.type == "group/member").filterMap fun link =>
          (s.owner link.target).map fun principal => (principal, link.metadata.role)

/-- How the rows of the members are returned, which no order is asked for. -/
structure MemberOrder where
  sort : List (Principal × Int) → List (Principal × Int)
  perm : ∀ rows, (sort rows).Perm rows

/-- A role that is there. -/
def specifiedRole (role : Int) : Option Int :=
  if toRole role = roleUnspecified then none else some (toRole role)

/-- The owner of a group and the roles of its members. -/
structure ListMembersResponse where
  ownerAccountId : String
  members : String → Option Int

section List

variable (F : Formats Data) (order : MemberOrder) (s : Store Data)

/-- A member with its role; without a role it is deleted. -/
def addMember (members : String → Option Int) (row : Principal × Int) : String → Option Int :=
  Function.update members (F.principalString row.1) (specifiedRole row.2)

/-- List the members of a group. -/
def listMembers (id version : String) : Attempt ListMembersResponse := do
  Attempt.check (id = "") "id: argument is required"
  Attempt.check (version ≠ "")
    "listing members for groups at a specific version is not implemented yet"
  Attempt.check ((s.resourceRow id).isNone = true) s!"group {id} not found"
  let owner ← s.resourceGetOwner id
  pure {
    ownerAccountId := F.principalString owner
    members := (order.sort (s.groupListMembers id owner)).foldl (addMember F) fun _ => none }

/-- The role that an account is listed with. -/
def listedRole (group : String) (account : Principal) : Option Int :=
  (listMembers F order s group "").returned.bind (·.members (F.principalString account))

/-- The role by which the changes of an account are judged. -/
def enforcedRole (group : String) (account : Principal) : Option Int :=
  (s.getGroupRole group (F.accountIRI account)).returned.map toRole

/-- The role of the membership with the greatest time. -/
def latestRole (group : String) (account : Principal) : Option Int :=
  (Store.latest (s.memberships group (F.accountIRI account))).bind (specifiedRole ·.2.role)

/-- The rows of an account among the members. -/
def memberRows (group : String) (account : Principal) : List (Principal × Int) :=
  match s.owner group with
  | none => []
  | some owner => (s.groupListMembers group owner).filter fun row =>
      F.principalString row.1 = F.principalString account

/-- No change of the owner has given an account another role than the latest one. -/
structure RoleSettled (group : String) (account : Principal) : Prop where
  same : ∀ row ∈ memberRows F s group account, specifiedRole row.2 = latestRole F s group account
  missing : memberRows F s group account = [] → latestRole F s group account = none

end List

section Roles

variable {F : Formats Data} {order : MemberOrder} {s t : Store Data} {group : String}
variable {account owner : Principal}

/-- The response for a group that has an owner. -/
def membersOf (F : Formats Data) (order : MemberOrder) (s : Store Data) (group : String)
    (owner : Principal) : ListMembersResponse where
  ownerAccountId := F.principalString owner
  members := (order.sort (s.groupListMembers group owner)).foldl (addMember F) fun _ => none

/-- Members are listed if the group has an owner. -/
theorem returns_listMembers {response : ListMembersResponse} (named : group ≠ "") :
    (listMembers F order s group "").Returns response ↔
      ∃ owner, s.owner group = some owner ∧ membersOf F order s group owner = response := by
  simp only [listMembers, Attempt.returns_bind, Attempt.returns_check, Attempt.returns_pure,
    Store.returns_resourceGetOwner]
  constructor
  · rintro ⟨-, -, -, -, -, -, owner, isOwner, same⟩
    exact ⟨owner, isOwner, same⟩
  · rintro ⟨owner, isOwner, same⟩
    have known : s.resourceRow group ≠ none := by
      intro unknown
      rw [Store.owner, unknown] at isOwner
      cases isOwner
    exact ⟨(), named, (), by simp, (), by simpa using known, owner, isOwner, same⟩

theorem returned_listMembers (named : group ≠ "") :
    (listMembers F order s group "").returned =
      (s.owner group).map (membersOf F order s group) := by
  apply Option.ext
  intro response
  rw [Attempt.returned_eq_some, returns_listMembers named, Option.map_eq_some_iff]

/-- An account is listed with the role of its last row. -/
theorem members_membersOf :
    (membersOf F order s group owner).members (F.principalString account) =
      (((order.sort (s.groupListMembers group owner)).filter fun row =>
        F.principalString row.1 = F.principalString account).getLast?.map
          (specifiedRole ·.2)).getD none :=
  foldl_update_apply (fun row : Principal × Int => F.principalString row.1)
    (specifiedRole ·.2) _ _ _

/-- Rows without an order may be returned in any order. -/
theorem forall_order_iff {rows : List (Principal × Int)} {p : List (Principal × Int) → Prop} :
    (∀ order : MemberOrder, p (order.sort rows)) ↔ ∀ rows', rows'.Perm rows → p rows' := by
  constructor
  · intro all rows' perm
    have order : ∃ order : MemberOrder, order.sort rows = rows' := by
      refine ⟨⟨fun given => if given = rows then rows' else given, ?_⟩, if_pos rfl⟩
      intro given
      by_cases same : given = rows
      · rw [if_pos same, same]
        exact perm
      · rw [if_neg same]
    rcases order with ⟨order, rfl⟩
    exact all order
  · intro all order
    exact all _ (order.perm rows)

/-- In every order an account is listed with this role, if all of its rows have it. -/
theorem forall_listedRole_iff (named : group ≠ "") {role : Option Int} :
    (∀ order, listedRole F order s group account = role) ↔
      (∀ row ∈ memberRows F s group account, specifiedRole row.2 = role) ∧
        (memberRows F s group account = [] → role = none) := by
  simp only [listedRole, returned_listMembers named, memberRows]
  cases s.owner group with
  | none =>
      constructor
      · intro same
        have isNone : none = role := same ⟨id, fun rows => .refl rows⟩
        exact ⟨nofun, fun _ => isNone.symm⟩
      · intro settled _
        rw [settled.2 rfl]
        exact rfl
  | some owner =>
      simp only [Option.map_some, Option.bind_some, members_membersOf]
      rw [forall_order_iff (p := fun rows => ((rows.filter fun row =>
        F.principalString row.1 = F.principalString account).getLast?.map
          (specifiedRole ·.2)).getD none = role), forall_perm_last_iff]
      simp only [List.mem_filter, decide_eq_true_eq, and_imp, List.filter_eq_nil_iff,
        eq_comm (a := none)]

end Roles

/-! ## Stores that are reached -/

section Invariant

variable {F : Formats Data} {s t : Store Data} {arrival : Arrival Data} {c : String}

/-- The rows refer to resources that are there, and the roles of members fit 32 bits. -/
structure MembersSound (s : Store Data) : Prop where
  owned : ∀ row ∈ s.structuralBlobs, ∀ iri, row.resource = some iri → (s.owner iri).isSome
  targets : ∀ link ∈ s.resourceLinks, (s.resourceRow link.target).isSome
  roles : ∀ link ∈ s.resourceLinks, link.type = "group/member" →
    toRole link.metadata.role = link.metadata.role

theorem MembersSound.empty : MembersSound (Store.empty : Store Data) :=
  ⟨nofun, nofun, nofun⟩

theorem isSome_owner (grows : Grows s t) {iri : String} (isOwned : (s.owner iri).isSome) :
    (t.owner iri).isSome := by
  rcases Option.isSome_iff_exists.mp isOwned with ⟨owner, isOwner⟩
  rw [grows.owner isOwner]
  exact rfl

/-- Only the derived tables matter, and resources that stay. -/
theorem MembersSound.of_grows (sound : MembersSound s) (grows : Grows s t)
    (structuralBlobs : t.structuralBlobs = s.structuralBlobs)
    (resourceLinks : t.resourceLinks = s.resourceLinks) : MembersSound t where
  owned := by
    rw [structuralBlobs]
    intro row isRow iri isResource
    exact isSome_owner grows (sound.owned row isRow iri isResource)
  targets := by
    rw [resourceLinks]
    exact fun link isLink => grows.hasResource (sound.targets link isLink)
  roles := by
    rw [resourceLinks]
    exact sound.roles

theorem MembersSound.received (sound : MembersSound s) (received : Received s t) :
    MembersSound t where
  owned := by
    rw [received.same.structuralBlobs]
    intro row isRow iri isResource
    rw [received.owner]
    exact sound.owned row isRow iri isResource
  targets := by
    rw [received.same.resourceLinks]
    intro link isLink
    rw [Store.resourceRow, received.resources]
    exact sound.targets link isLink
  roles := by
    rw [received.same.resourceLinks]
    exact sound.roles

/-- Storing a structural blob whose resource gets an owner and whose roles fit. -/
theorem MembersSound.saved {hash : String} {b : StructuralBlob} (sound : MembersSound s)
    (saved : Saved F hash b s t) (owner : b.resource ≠ "" → b.resourceOwner.isSome)
    (roles : ∀ link ∈ b.resourceLinks, link.1 = "group/member" →
      toRole link.2.2.2.role = link.2.2.2.role) : MembersSound t where
  owned := by
    rw [saved.structuralBlobs]
    intro row isRow iri isResource
    rcases List.mem_append.mp isRow with old | new
    · exact isSome_owner saved.grows (sound.owned row old iri isResource)
    · rw [List.mem_singleton.mp new] at isResource
      by_cases unnamed : b.resource = ""
      · rw [Store.structuralRow, if_pos unnamed] at isResource
        cases isResource
      · rw [Store.structuralRow, if_neg unnamed] at isResource
        have isNew : b.resource ≠ "" ∧ b.resource = iri := ⟨unnamed, Option.some.inj isResource⟩
        rw [saved.owner_eq, Option.isSome_or, if_pos isNew, owner unnamed, Bool.or_true]
  targets := by
    rw [saved.resourceLinks]
    intro link isLink
    rcases List.mem_append.mp isLink with old | new
    · exact saved.grows.hasResource (sound.targets link old)
    · rcases List.mem_map.mp new with ⟨link, isNew, rfl⟩
      exact saved.targets link isNew
  roles := by
    rw [saved.resourceLinks]
    intro link isLink isMember
    rcases List.mem_append.mp isLink with old | new
    · exact sound.roles link old isMember
    · rcases List.mem_map.mp new with ⟨link, isNew, rfl⟩
      exact roles link isNew isMember

theorem MembersSound.indexedChange {order : FieldOrder} {v : Change} {author : Principal}
    {sb : StructuralBlob} {s₁ : Store Data} (sound : MembersSound s)
    (indexed : IndexedChange F order s c v author sb s₁ t) : MembersSound t := by
  rcases entityIndexed_of_returns (groupLinks v author) indexed.entity with
    ⟨ensured, extended, -⟩
  have sound₁ := sound.of_grows ensured.grows ensured.structuralBlobs ensured.resourceLinks
  apply sound₁.saved indexed.saved
  · intro _
    rw [extended.resourceOwner]
    exact rfl
  · intro link isLink isMember
    rcases extended.resourceLinks with ⟨added, links_eq, areLinks⟩
    rw [links_eq] at isLink
    rcases (areLinks link isLink isMember).2 with ⟨-, rfl⟩ | ⟨-, members, key, role, account,
      -, -, -, -, rfl⟩
    · have isRole : toRole roleOwner = roleOwner := by decide
      exact isRole
    · exact toRole_toRole role

theorem MembersSound.indexedComment {v : Comment} {author : Principal} {sb : StructuralBlob}
    (sound : MembersSound s) (indexed : IndexedComment F s c v author sb t) :
    MembersSound t := by
  have extended := indexed.links (fun _ => True) (fun link => link.1 ≠ "group/member")
    (fun type => ⟨trivial, fun _ _ _ => append_ne_of_hasPrefix (by decide)⟩)
  apply sound.saved indexed.saved
  · intro named
    exact absurd extended.resource named
  · intro link isLink isMember
    rcases extended.resourceLinks with ⟨added, links_eq, areLinks⟩
    rw [links_eq] at isLink
    exact absurd isMember (areLinks link isLink)

theorem MembersSound.indexedDelegation {v : KeyDelegation} (sound : MembersSound s)
    (indexed : IndexedDelegation F s c v t) : MembersSound t := by
  have same : ∀ row, MembersSound (s.keyDelegationsInsertOrIgnore row) := by
    intro row
    rw [Store.keyDelegationsInsertOrIgnore]
    split
    · exact sound
    · exact ⟨sound.owned, sound.targets, sound.roles⟩
  apply (same _).saved indexed.saved
  · exact fun _ => rfl
  · intro link isLink isMember
    have isIssuer : link = ("kd/issuer", F.accountIRI v.issuer, false, .none) :=
      List.mem_singleton.mp isLink
    rw [isIssuer] at isMember
    exact absurd (show "kd/issuer" = "group/member" from isMember) (by decide)

theorem MembersSound.accept (sound : MembersSound s)
    (accepted : Hyper.accept F s arrival = some t) : MembersSound t := by
  rcases accept_cases accepted with received | ⟨s₁, blob, arrives, indexed⟩
  · exact sound.received received
  · have sound₁ := sound.received arrives.received
    have isIndexed := indexedBlob_of_returns indexed
    cases blob with
    | dagPB links =>
        have extended := extended_dagPBBlob links
        apply sound₁.saved isIndexed
        · intro named
          exact absurd extended.resource named
        · intro link isLink
          rcases extended.resourceLinks with ⟨added, links_eq, noLink⟩
          rw [links_eq] at isLink
          exact absurd isLink (noLink link)
    | keyDelegation kd => exact sound₁.indexedDelegation isIndexed
    | change v =>
        rcases isIndexed with ⟨author, sb, s₂, isChange⟩
        exact sound₁.indexedChange isChange
    | comment cm =>
        rcases isIndexed with ⟨author, sb, isComment⟩
        exact sound₁.indexedComment isComment

theorem MembersSound.of_reaches (run : Reaches (Hyper.accept F) (fun _ _ => True) .empty s) :
    MembersSound s :=
  run.invariant (fun _ _ _ sound _ accepted => sound.accept accepted) .empty

/-- The role by which an account is judged is that of its latest membership. -/
theorem MembersSound.enforcedRole_eq (sound : MembersSound s) (group : String)
    (account : Principal) : enforcedRole F s group account = latestRole F s group account := by
  apply Option.ext
  intro role
  simp only [enforcedRole, latestRole, Option.map_eq_some_iff, Attempt.returned_eq_some,
    Store.returns_getGroupRole, Option.bind_eq_some_iff, specifiedRole, Option.ite_none_left_eq_some,
    Option.some.injEq]
  constructor
  · rintro ⟨_, ⟨-, -, item, isLatest, specified, rfl⟩, isRole⟩
    rcases Store.mem_memberships.mp (Store.mem_of_latest isLatest) with
      ⟨row, isRow, isResource, link, isLink, fromRow, isMember, isTarget, rfl⟩
    refine ⟨_, isLatest, ?_, isRole⟩
    rw [sound.roles link isLink isMember]
    exact specified
  · rintro ⟨item, isLatest, specified, isRole⟩
    rcases Store.mem_memberships.mp (Store.mem_of_latest isLatest) with
      ⟨row, isRow, isResource, link, isLink, fromRow, isMember, isTarget, rfl⟩
    have known : (s.resourceRow group).isSome := by
      have isOwned := sound.owned row isRow group isResource
      by_contra unknown
      rw [Store.owner, Option.not_isSome_iff_eq_none.mp unknown] at isOwned
      exact absurd isOwned nofun
    refine ⟨_, ⟨known, isTarget ▸ sound.targets link isLink, _, isLatest, ?_, rfl⟩, isRole⟩
    intro unspecified
    apply specified
    rw [unspecified]
    decide

end Invariant

/--
The listed roles are the enforced ones, in whatever order the rows are returned, if and only if
every row has the role of the latest membership and no membership is without a row.
-/
theorem listedRole_eq_enforcedRole_iff {F : Formats Data} {s : Store Data} {group : String}
    (run : Reaches (accept F) (fun _ _ => True) .empty s) (isGroup : IsGroup group) :
    (∀ order account, listedRole F order s group account = enforcedRole F s group account) ↔
      ∀ account, RoleSettled F s group account := by
  have sound := MembersSound.of_reaches run
  have named : group ≠ "" := by
    rintro rfl
    exact absurd isGroup (by decide)
  rw [forall_comm]
  apply forall_congr'
  intro account
  simp only [sound.enforcedRole_eq group account, forall_listedRole_iff named]
  exact ⟨fun ⟨same, missing⟩ => ⟨same, missing⟩, fun settled => ⟨settled.same, settled.missing⟩⟩

/-- The role of the second account changes; the later change arrives first. -/
def roleArrivals : List (Arrival DecodedBlob) :=
  [⟨.listed, "clater", .change
      (sampleMemberChange "cdelegation1" 11 1700000003000000 2 roleEditor)⟩,
    ⟨.listed, "cearlier", .change
      (sampleMemberChange "cdelegation1" 11 1700000002000000 2 3)⟩]

def roleArrivalsResult :
    Evaluated (sampleRun (deviceArrivals ++ createArrival :: roleArrivals)) :=
  .of (by decide +kernel)

theorem listedRole_eq_enforcedRole_roleArrivals :
    ∃ s, sampleRun (deviceArrivals ++ createArrival :: roleArrivals) = some s ∧
      ((∀ order account, listedRole (sampleFormats sampleSha256) order s sampleGroup account =
          enforcedRole (sampleFormats sampleSha256) s sampleGroup account) ↔
        ∀ account, RoleSettled (sampleFormats sampleSha256) s sampleGroup account) := by
  refine ⟨_, roleArrivalsResult.property, listedRole_eq_enforcedRole_iff ?_ (by decide)⟩
  exact reaches_of_performAll (allPermitted_of_forall fun _ _ _ => trivial)
    roleArrivalsResult.property

/-- The rows are returned as they were added. -/
def MemberOrder.added : MemberOrder := ⟨id, fun rows => .refl rows⟩

/-- The role of the change that arrives last is listed, though it is not the latest. -/
theorem listed_role_is_not_enforced :
    ∃ s, Reaches (accept (sampleFormats sampleSha256)) (fun _ _ => True) .empty s ∧
      IsGroup sampleGroup ∧
      listedRole (sampleFormats sampleSha256) .added s sampleGroup (samplePrincipal 2) ≠
        enforcedRole (sampleFormats sampleSha256) s sampleGroup (samplePrincipal 2) := by
  refine ⟨roleArrivalsResult.val, ?_, by decide, ?_⟩
  · exact reaches_of_performAll (allPermitted_of_forall fun _ _ _ => trivial)
      roleArrivalsResult.property
  · have roles : listedRole (sampleFormats sampleSha256) .added roleArrivalsResult.val sampleGroup
        (samplePrincipal 2) = some 3 ∧
          enforcedRole (sampleFormats sampleSha256) roleArrivalsResult.val sampleGroup
            (samplePrincipal 2) = some roleEditor := by decide +kernel
    rw [roles.1, roles.2]
    decide

end Mintter.Hyper
