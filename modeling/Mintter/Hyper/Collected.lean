import Mintter.Hyper.Accepted

/-!
# Indexing in another order

The maps of a patch are visited in an order that can be another one each time.
A step that collects links adds the same ones wherever it stands, so that blobs
that are collected in two orders are the same but for the order of their links.
-/

namespace Mintter.Hyper

open Mintter.Foundation
open Mintter.Crdt2

variable {Data : Type}

/-! ## Structural blobs with the same links -/

/-- The links to a resource that make it a member. -/
def memberLinks (target : String) (links : List ResourceLink) : List ResourceLink :=
  links.filter fun link => link.1 == "group/member" && link.2.1 == target

/-- A structural blob without its links. -/
def StructuralBlob.bare (sb : StructuralBlob) : StructuralBlob :=
  { sb with blobLinks := [], resourceLinks := [] }

/-- The same blobs but for the order of links that do not name one member. -/
structure SameBlob (sb sb' : StructuralBlob) : Prop where
  bare : sb'.bare = sb.bare
  blobLinks : sb'.blobLinks.Perm sb.blobLinks
  resourceLinks : sb'.resourceLinks.Perm sb.resourceLinks
  members : ∀ target,
    memberLinks target sb'.resourceLinks = memberLinks target sb.resourceLinks

namespace SameBlob

variable {sb sb' sb'' : StructuralBlob}

theorem refl (sb : StructuralBlob) : SameBlob sb sb := ⟨rfl, .rfl, .rfl, fun _ => rfl⟩

theorem trans (first : SameBlob sb sb') (second : SameBlob sb' sb'') :
    SameBlob sb sb'' :=
  ⟨second.bare.trans first.bare, second.blobLinks.trans first.blobLinks,
    second.resourceLinks.trans first.resourceLinks,
    fun target => (second.members target).trans (first.members target)⟩

theorem author (same : SameBlob sb sb') : sb'.author = sb.author := by
  show sb'.bare.author = sb.bare.author
  rw [same.bare]

theorem resource (same : SameBlob sb sb') : sb'.resource = sb.resource := by
  show sb'.bare.resource = sb.bare.resource
  rw [same.bare]

theorem resourceOwner (same : SameBlob sb sb') :
    sb'.resourceOwner = sb.resourceOwner := by
  show sb'.bare.resourceOwner = sb.bare.resourceOwner
  rw [same.bare]

theorem resourceCreateTime (same : SameBlob sb sb') :
    sb'.resourceCreateTime = sb.resourceCreateTime := by
  show sb'.bare.resourceCreateTime = sb.bare.resourceCreateTime
  rw [same.bare]

theorem structuralRow (same : SameBlob sb sb') (hash : String) :
    Store.structuralRow hash sb' = Store.structuralRow hash sb := by
  show Store.structuralRow hash sb'.bare = Store.structuralRow hash sb.bare
  rw [same.bare]

end SameBlob

/-! ## Steps that collect links -/

/-- Links to blobs and to resources. -/
structure Links where
  toBlobs : List (String × String)
  toResources : List ResourceLink

/-- Links of these types make nobody a member. -/
def Links.NoMember (links : Links) : Prop :=
  ∀ link ∈ links.toResources, link.1 ≠ "group/member"

/-- Add links to blobs and to resources. -/
def StructuralBlob.addLinks (sb : StructuralBlob) (links : Links) :
    StructuralBlob :=
  { sb with
    blobLinks := sb.blobLinks ++ links.toBlobs
    resourceLinks := sb.resourceLinks ++ links.toResources }

theorem Links.NoMember.memberLinks_eq {links : Links} (noMember : links.NoMember)
    (target : String) : memberLinks target links.toResources = [] := by
  apply List.filter_eq_nil_iff.mpr
  intro link isLink
  simp [noMember link isLink]

section Collects

variable {yields yields' : StructuralBlob → StructuralBlob → Prop}

/-- A step that succeeds adds links that are the same ones wherever it starts. -/
def Collects (yields : StructuralBlob → StructuralBlob → Prop) : Prop :=
  ∀ sb sb', yields sb sb' → ∃ links : Links, links.NoMember ∧
    sb' = sb.addLinks links ∧ ∀ sb, yields sb (sb.addLinks links)

theorem addLinks_nil (sb : StructuralBlob) : sb.addLinks ⟨[], []⟩ = sb := by
  simp [StructuralBlob.addLinks]

theorem addLinks_addLinks (sb : StructuralBlob) (first second : Links) :
    (sb.addLinks first).addLinks second =
      sb.addLinks ⟨first.toBlobs ++ second.toBlobs,
        first.toResources ++ second.toResources⟩ := by
  simp [StructuralBlob.addLinks]

theorem collects_refl : Collects fun sb sb' => sb = sb' := by
  rintro sb sb' rfl
  exact ⟨⟨[], []⟩, nofun, (addLinks_nil sb).symm, fun sb => (addLinks_nil sb).symm⟩

theorem Collects.bind (first : Collects yields) (second : Collects yields') :
    Collects fun sb sb'' => ∃ sb', yields sb sb' ∧ yields' sb' sb'' := by
  rintro sb sb'' ⟨sb', isFirst, isSecond⟩
  rcases first sb sb' isFirst with ⟨links, noMember, rfl, anywhere⟩
  rcases second _ sb'' isSecond with ⟨links', noMember', rfl, anywhere'⟩
  refine ⟨⟨links.toBlobs ++ links'.toBlobs, links.toResources ++ links'.toResources⟩,
    List.forall_mem_append.mpr ⟨noMember, noMember'⟩,
    addLinks_addLinks sb links links', fun sb => ?_⟩
  exact ⟨_, anywhere sb, addLinks_addLinks sb links links' ▸ anywhere' _⟩

theorem Collects.congr (collects : Collects yields)
    (iff : ∀ sb sb', yields' sb sb' ↔ yields sb sb') : Collects yields' := by
  have same : yields' = yields := funext fun sb => funext fun sb' =>
    propext (iff sb sb')
  rw [same]
  exact collects

theorem SameBlob.addLinks {sb sb' : StructuralBlob} (same : SameBlob sb sb')
    (links : Links) : SameBlob (sb.addLinks links) (sb'.addLinks links) where
  bare := same.bare
  blobLinks := same.blobLinks.append_right _
  resourceLinks := same.resourceLinks.append_right _
  members := fun target => by
    show memberLinks target (sb'.resourceLinks ++ _) =
      memberLinks target (sb.resourceLinks ++ _)
    rw [memberLinks, memberLinks, List.filter_append, List.filter_append]
    exact congrArg (· ++ _) (same.members target)

theorem sameBlob_addLinks_comm (sb : StructuralBlob) {first second : Links}
    (noMember : first.NoMember) (noMember' : second.NoMember) :
    SameBlob ((sb.addLinks first).addLinks second)
      ((sb.addLinks second).addLinks first) := by
  rw [addLinks_addLinks, addLinks_addLinks]
  refine ⟨rfl, List.perm_append_comm.append_left _,
    List.perm_append_comm.append_left _, fun target => ?_⟩
  simp only [StructuralBlob.addLinks, memberLinks, List.filter_append]
  have noLink := noMember.memberLinks_eq target
  have noLink' := noMember'.memberLinks_eq target
  rw [memberLinks] at noLink noLink'
  rw [noLink, noLink']

/-- Entries that collect links can be visited in any order, from the same blobs. -/
theorem collected_in_any_order {β : Type}
    {step : StructuralBlob → β → Attempt StructuralBlob} {items items' : List β}
    (collects : ∀ item ∈ items, Collects fun sb sb' => (step sb item).Returns sb')
    (perm : items.Perm items') {sb t sb' : StructuralBlob} (same : SameBlob sb sb')
    (returns : (items.foldlM step sb).Returns t) :
    ∃ t', (items'.foldlM step sb').Returns t' ∧ SameBlob t t' := by
  have follows : ∀ item ∈ items, ∀ sb t sb', SameBlob sb sb' →
      (step sb item).Returns t → ∃ t', (step sb' item).Returns t' ∧ SameBlob t t' := by
    intro item member sb t sb' same returns
    rcases collects item member sb t returns with ⟨links, noMember, rfl, anywhere⟩
    exact ⟨_, anywhere sb', same.addLinks links⟩
  have swaps : ∀ first ∈ items, ∀ second ∈ items,
      Attempt.Swaps step SameBlob first second := by
    intro first member second member' sb next t isFirst isSecond
    rcases collects first member sb next isFirst with ⟨links, noMember, rfl, anywhere⟩
    rcases collects second member' _ t isSecond with
      ⟨links', noMember', rfl, anywhere'⟩
    exact ⟨_, _, anywhere' sb, anywhere _, sameBlob_addLinks_comm sb noMember noMember'⟩
  rcases returns.foldlM_follows follows same with ⟨t₁, returns₁, same₁⟩
  rcases returns₁.foldlM_perm perm .refl (fun _ _ _ => .trans) follows
    (List.pairwise_of_forall_mem_list fun first member second member' =>
      ⟨swaps first member second member', swaps second member' first member⟩) with
    ⟨t₂, returns₂, same₂⟩
  exact ⟨t₂, returns₂, same₁.trans same₂⟩

end Collects

section References

variable {F : Formats Data}

theorem foldl_addBlobLink (linkType : String) (targets : List String)
    (sb : StructuralBlob) :
    targets.foldl (·.addBlobLink linkType ·) sb =
      sb.addLinks ⟨targets.map ((linkType, ·)), []⟩ := by
  induction targets generalizing sb with
  | nil => exact (addLinks_nil sb).symm
  | cons target rest induction =>
      rw [List.foldl_cons, induction]
      simp [StructuralBlob.addLinks, StructuralBlob.addBlobLink]

theorem collects_indexURL (anchor rawURL : String) {linkType : String}
    (noMember : linkType ≠ "group/member") :
    Collects fun sb sb' => indexURL F anchor linkType sb rawURL = .ok sb' := by
  have unchanged : Collects fun sb sb' =>
      (.ok sb : Except String StructuralBlob) = .ok sb' :=
    collects_refl.congr fun sb sb' => by simp
  have toBlob : ∀ target, Collects fun sb sb' =>
      (.ok (sb.addBlobLink linkType target) : Except String StructuralBlob) =
        .ok sb' := by
    intro target sb sb' isOk
    refine ⟨⟨[(linkType, target)], []⟩, fun _ isLink => absurd isLink List.not_mem_nil, ?_,
      fun sb => ?_⟩
    · simp [← Except.ok.inj isOk, StructuralBlob.addLinks, StructuralBlob.addBlobLink]
    · simp [StructuralBlob.addLinks, StructuralBlob.addBlobLink]
  simp only [indexURL]
  split
  · exact unchanged
  · split
    · exact unchanged
    next u parsed =>
    split
    · -- A link to a resource, and to the blobs of the version in its query.
      intro sb sb' isOk
      rcases except_bind_eq_ok.mp isOk with ⟨vblobs, version, isAdded⟩
      let links : Links := ⟨vblobs.map ((linkType, ·)),
        [(linkType, "hm://" ++ u.host ++ u.path,
          !(u.has "l" || u.get "v" == ""),
          .document anchor u.fragment (u.get "v"))]⟩
      have noLink : links.NoMember := by
        intro link isLink
        rw [List.mem_singleton.mp isLink]
        exact noMember
      refine ⟨links, noLink, ?_, fun sb => except_bind_eq_ok.mpr ⟨vblobs, version, ?_⟩⟩
      · rw [← Except.ok.inj isAdded, foldl_addBlobLink]
        simp [StructuralBlob.addLinks, StructuralBlob.addResourceLink, links]
      · rw [foldl_addBlobLink]
        simp [StructuralBlob.addLinks, StructuralBlob.addResourceLink, links, pure,
          Except.pure]
    · split
      · split
        · intro _ _ impossible
          cases impossible
        · exact toBlob _
      · split
        · split
          · intro _ _ impossible
            cases impossible
          · exact toBlob _
        · exact unchanged

theorem collects_indexAnnotations (anchor : String) (annotations : List Annotation)
    {kind : String} (noMember : ∀ type, kind ++ type ≠ "group/member") :
    Collects fun sb sb' =>
      indexAnnotations F anchor kind sb annotations = .ok sb' := by
  induction annotations with
  | nil => exact collects_refl.congr fun sb sb' => by simp [indexAnnotations, pure, Except.pure]
  | cons ann rest induction =>
      have first := collects_indexURL (F := F) anchor ann.ref (noMember ann.type)
      refine (first.bind induction).congr fun sb sb' => ?_
      rw [indexAnnotations, List.foldlM_cons, except_bind_eq_ok]
      rfl

theorem collects_indexBlock (block : String × Value) :
    Collects fun sb sb' => (indexBlock F sb block).Returns sb' := by
  have noMember : ∀ type, "doc/" ++ type ≠ "group/member" := fun type =>
    append_ne_of_hasPrefix (by decide)
  simp only [indexBlock]
  split
  · split
    · exact collects_refl.congr fun sb sb' => by simp
    · next v isMap =>
        cases decoded : F.decodeBlock v with
        | error err => exact fun _ _ impossible => by simp [bind, Except.bind] at impossible
        | ok blk =>
            have ref := collects_indexURL (F := F) block.1 blk.ref (noMember blk.type)
            have annotations := collects_indexAnnotations (F := F) block.1
              blk.annotations noMember
            refine (ref.bind annotations).congr fun sb sb' => ?_
            rw [Attempt.returns_ofExcept, ← except_bind_eq_ok]
            rfl
  · exact fun _ _ impossible => absurd impossible Attempt.not_returns_abort

theorem collects_indexContentEntry (entry : String × Value) :
    Collects fun sb sb' => (indexContentEntry F sb entry).Returns sb' := by
  simp only [indexContentEntry]
  split
  · next rawURL isText =>
      have noMember : "group/content" ≠ "group/member" := by decide
      have collects := collects_indexURL (F := F) entry.1 rawURL noMember
      exact collects.congr fun sb sb' => Attempt.returns_ofExcept
  · exact collects_refl.congr fun sb sb' => by simp

end References

end Mintter.Hyper
