import Mintter.Hyper.Indexing

/-!
# What indexing changes

Indexing only adds to the tables: rows of blobs without data, resources, owners
and times where there were none, and the rows of the one structural blob that is
stored.  `Saved` is what storing a structural blob does.
-/

namespace Mintter.Hyper

open Mintter.Foundation
open Mintter.Crdt2

variable {Data : Type}

/-- The blobs, the resources and the drafts only grow, and no data arrives. -/
structure Grows (s t : Store Data) : Prop where
  blobs : ∃ added, t.blobs = s.blobs ++ added ∧
    ∀ row ∈ added, row.size < 0 ∧ s.seq < row.id ∧ row.id ≤ t.seq
  seq : s.seq ≤ t.seq
  resource : ∀ iri row, s.resourceRow iri = some row →
    ∃ row', t.resourceRow iri = some row' ∧
      (∀ key, row.owner = some key → row'.owner = some key) ∧
      ∀ ts, row.createTime = some ts → row'.createTime = some ts
  drafts : t.drafts = s.drafts
  deleted : t.deletedResources = s.deletedResources

namespace Grows

variable {s t u : Store Data}

/-- Only the blobs, the resources, the drafts and the deleted resources matter. -/
theorem of_same (blobs : t.blobs = s.blobs) (seq : t.seq = s.seq)
    (resources : t.resources = s.resources) (drafts : t.drafts = s.drafts)
    (deleted : t.deletedResources = s.deletedResources) : Grows s t where
  blobs := ⟨[], by simp [blobs], by simp⟩
  seq := seq.ge
  resource := fun iri row found =>
    ⟨row, by rw [Store.resourceRow, resources]; exact found,
      fun _ isOwner => isOwner, fun _ isTime => isTime⟩
  drafts := drafts
  deleted := deleted

theorem refl (s : Store Data) : Grows s s := of_same rfl rfl rfl rfl rfl

theorem trans (first : Grows s t) (second : Grows t u) : Grows s u where
  blobs := by
    rcases first.blobs with ⟨added, blobs_eq, small⟩
    rcases second.blobs with ⟨added', blobs_eq', small'⟩
    refine ⟨added ++ added', by rw [blobs_eq', blobs_eq, List.append_assoc], ?_⟩
    intro row member
    rcases List.mem_append.mp member with old | new
    · rcases small row old with ⟨missing, above, below⟩
      exact ⟨missing, above, below.trans second.seq⟩
    · rcases small' row new with ⟨missing, above, below⟩
      exact ⟨missing, first.seq.trans_lt above, below⟩
  seq := first.seq.trans second.seq
  resource := fun iri row found => by
    rcases first.resource iri row found with ⟨row', found', owner, time⟩
    rcases second.resource iri row' found' with ⟨row'', found'', owner', time'⟩
    exact ⟨row'', found'', fun key isOwner => owner' key (owner key isOwner),
      fun ts isTime => time' ts (time ts isTime)⟩
  drafts := second.drafts.trans first.drafts
  deleted := second.deleted.trans first.deleted

theorem blobRow (grows : Grows s t) {hash : String} {row : BlobRow Data}
    (found : s.blobRow hash = some row) : t.blobRow hash = some row := by
  rcases grows.blobs with ⟨added, blobs_eq, -⟩
  rw [Store.blobRow, blobs_eq, List.find?_append]
  exact Option.or_eq_some_iff.mpr (.inl found)

theorem owner (grows : Grows s t) {iri : String} {key : Principal}
    (isOwner : s.owner iri = some key) : t.owner iri = some key := by
  rcases Option.bind_eq_some_iff.mp isOwner with ⟨row, found, rowOwner⟩
  rcases grows.resource iri row found with ⟨row', found', owner, -⟩
  rw [Store.owner, found']
  exact owner key rowOwner

theorem hasResource (grows : Grows s t) {iri : String}
    (found : (s.resourceRow iri).isSome) : (t.resourceRow iri).isSome := by
  rcases Option.isSome_iff_exists.mp found with ⟨row, isRow⟩
  rcases grows.resource iri row isRow with ⟨row', found', -⟩
  exact Option.isSome_iff_exists.mpr ⟨row', found'⟩

theorem ensureBlob (F : Formats Data) (s : Store Data) (c : String) :
    Grows s (s.ensureBlob F c) := by
  rw [Store.ensureBlob]
  split
  · exact refl s
  · exact {
      blobs := ⟨_, rfl, fun row member => by
        rw [List.mem_singleton.mp member]
        exact ⟨Int.negSucc_lt_zero 0, Nat.lt_succ_self _, le_rfl⟩⟩
      seq := Nat.le_succ _
      resource := fun _ row found =>
        ⟨row, found, fun _ isOwner => isOwner, fun _ isTime => isTime⟩
      drafts := rfl
      deleted := rfl }

/-- A step that changes only resources, and these only where values are missing. -/
theorem of_resources {resources : List ResourceRow}
    (resource : ∀ iri row, s.resourceRow iri = some row →
      ∃ row', resources.find? (·.iri == iri) = some row' ∧
        (∀ key, row.owner = some key → row'.owner = some key) ∧
        ∀ ts, row.createTime = some ts → row'.createTime = some ts) :
    Grows s { s with resources } where
  blobs := ⟨[], by simp, by simp⟩
  seq := le_rfl
  resource := resource
  drafts := rfl
  deleted := rfl

theorem ensureResource (s : Store Data) (iri : String) :
    Grows s (s.ensureResource iri) := by
  rw [Store.ensureResource]
  split
  · exact refl s
  · apply of_resources
    intro iri' row found
    refine ⟨row, ?_, fun _ isOwner => isOwner, fun _ isTime => isTime⟩
    rw [List.find?_append]
    exact Option.or_eq_some_iff.mpr (.inl found)

/-- A change of a row that only adds to it. -/
theorem updateResource {change : ResourceRow → ResourceRow}
    (keeps : ∀ row, (change row).iri = row.iri)
    (owner : ∀ row key, row.owner = some key → (change row).owner = some key)
    (time : ∀ row ts, row.createTime = some ts →
      (change row).createTime = some ts)
    (s : Store Data) (iri : String) : Grows s (s.updateResource iri change) := by
  apply of_resources
  intro iri' row found
  have found' : (s.updateResource iri change).resourceRow iri' = _ :=
    Store.resourceRow_updateResource keeps iri iri'
  rw [found] at found'
  split at found'
  · exact ⟨change row, found', owner row, time row⟩
  · exact ⟨row, found', fun _ isOwner => isOwner, fun _ isTime => isTime⟩

theorem resourcesMaybeSetOwner (s : Store Data) (iri : String)
    (key : Principal) : Grows s (s.resourcesMaybeSetOwner iri key) := by
  apply updateResource
  · exact fun _ => rfl
  · exact fun row _ isOwner => by simp [isOwner]
  · exact fun _ _ isTime => isTime

theorem resourcesMaybeSetTimestamp (s : Store Data) (iri : String) (ts : Int) :
    Grows s (s.resourcesMaybeSetTimestamp iri ts) := by
  apply updateResource
  · exact fun _ => rfl
  · exact fun _ _ isOwner => isOwner
  · exact fun row _ isTime => by simp [isTime]

end Grows

/-- The tables that are derived from blobs are the same. -/
structure SameDerived (s t : Store Data) : Prop where
  structuralBlobs : t.structuralBlobs = s.structuralBlobs
  blobLinks : t.blobLinks = s.blobLinks
  resourceLinks : t.resourceLinks = s.resourceLinks
  keyDelegations : t.keyDelegations = s.keyDelegations
  groupSites : t.groupSites = s.groupSites

theorem SameDerived.refl (s : Store Data) : SameDerived s s :=
  ⟨rfl, rfl, rfl, rfl, rfl⟩

theorem SameDerived.trans {s t u : Store Data} (first : SameDerived s t)
    (second : SameDerived t u) : SameDerived s u :=
  ⟨second.structuralBlobs.trans first.structuralBlobs,
    second.blobLinks.trans first.blobLinks,
    second.resourceLinks.trans first.resourceLinks,
    second.keyDelegations.trans first.keyDelegations,
    second.groupSites.trans first.groupSites⟩

/-! ## Storing a structural blob -/

section SaveBlob

variable {F : Formats Data} {s t : Store Data} {hash : String}
variable {b : StructuralBlob}

/-- A step that adds to the resources; `owner` is what it says about owners. -/
structure Owned (s t : Store Data) (owner : String → Option Principal) : Prop where
  grows : Grows s t
  same : SameDerived s t
  blobs : t.blobs = s.blobs
  owner_eq : ∀ iri, t.owner iri = (s.owner iri).or (owner iri)

theorem Owned.trans {u : Store Data} {owner owner' : String → Option Principal}
    (first : Owned s t owner) (second : Owned t u owner') :
    Owned s u fun iri => (owner iri).or (owner' iri) where
  grows := first.grows.trans second.grows
  same := first.same.trans second.same
  blobs := second.blobs.trans first.blobs
  owner_eq := fun iri => by
    rw [second.owner_eq, first.owner_eq, Option.or_assoc]

theorem Owned.refl (s : Store Data) : Owned s s fun _ => none :=
  ⟨.refl s, .refl s, rfl, fun _ => Option.or_none.symm⟩

theorem owned_ensureResource (s : Store Data) (iri : String) :
    Owned s (s.ensureResource iri) fun _ => none where
  grows := .ensureResource s iri
  same := by
    rw [Store.ensureResource]
    split <;> exact ⟨rfl, rfl, rfl, rfl, rfl⟩
  blobs := by
    rw [Store.ensureResource]
    split <;> rfl
  owner_eq := fun _ => by rw [Store.owner_ensureResource, Option.or_none]

/-- Naming an owner of a resource that is ensured first. -/
theorem owned_resourcesMaybeSetOwner {iri : String}
    (there : (s.resourceRow iri).isSome) (key : Principal) :
    Owned s (s.resourcesMaybeSetOwner iri key)
      fun iri' => if iri = iri' then some key else none where
  grows := .resourcesMaybeSetOwner s iri key
  same := ⟨rfl, rfl, rfl, rfl, rfl⟩
  blobs := rfl
  owner_eq := fun iri' => by
    rw [Store.owner_resourcesMaybeSetOwner]
    by_cases same : iri = iri'
    · simp [← same, there]
    · simp [same]

theorem owned_resourcesMaybeSetTimestamp (s : Store Data) (iri : String)
    (ts : Int) :
    Owned s (s.resourcesMaybeSetTimestamp iri ts) fun _ => none where
  grows := .resourcesMaybeSetTimestamp s iri ts
  same := ⟨rfl, rfl, rfl, rfl, rfl⟩
  blobs := rfl
  owner_eq := fun _ => by
    rw [Store.owner_resourcesMaybeSetTimestamp, Option.or_none]

theorem hasResource_ensureResource (s : Store Data) (iri : String) :
    ((s.ensureResource iri).resourceRow iri).isSome := by
  rw [Store.resourceRow_ensureResource, if_pos rfl]
  cases s.resourceRow iri <;> rfl

theorem owned_ensureAccount {key : Principal}
    (returns : (s.ensureAccount F key).Returns t) :
    Owned s t fun iri => if F.accountIRI key = iri then some key else none := by
  simp only [Store.ensureAccount, Attempt.returns_bind,
    Attempt.returns_pure] at returns
  rcases returns with ⟨-, -, rfl⟩
  have owned := (owned_ensureResource s (F.accountIRI key)).trans
    (owned_resourcesMaybeSetOwner (hasResource_ensureResource s _) key)
  simpa only [Option.none_or] using owned

theorem quiet_ensureAccount {key : Principal} :
    (s.ensureAccount F key).Quiet ↔ key ≠ [] := by
  simp [Store.ensureAccount]

theorem owned_ensureOwner {iri : String} {owner : Option Principal}
    (there : (s.resourceRow iri).isSome)
    (returns : (s.ensureOwner iri owner).Returns t) :
    Owned s t fun iri' => if iri = iri' then owner else none := by
  cases owner with
  | none =>
      rw [Store.ensureOwner, Attempt.returns_pure] at returns
      rw [← returns]
      simpa only [ite_self] using Owned.refl s
  | some key =>
      simp only [Store.ensureOwner, Attempt.returns_bind,
        Attempt.returns_pure] at returns
      rcases returns with ⟨-, -, rfl⟩
      exact owned_resourcesMaybeSetOwner there key

theorem owned_ensureCreateTime {iri : String} {createTime : Option Int}
    (returns : (s.ensureCreateTime iri createTime).Returns t) :
    Owned s t fun _ => none := by
  cases createTime with
  | none =>
      rw [Store.ensureCreateTime, Attempt.returns_pure] at returns
      rw [← returns]
      exact .refl s
  | some ts =>
      simp only [Store.ensureCreateTime, Attempt.returns_bind,
        Attempt.returns_pure] at returns
      rcases returns with ⟨-, -, rfl⟩
      exact owned_resourcesMaybeSetTimestamp ..

theorem owned_ensureResourceMetadata {iri : String} {owner : Option Principal}
    {createTime : Option Int}
    (returns : (s.ensureResourceMetadata iri owner createTime).Returns t) :
    Owned s t fun iri' => if iri = iri' then owner else none := by
  rw [Store.ensureResourceMetadata, Attempt.returns_bind] at returns
  rcases returns with ⟨next, setOwner, setTime⟩
  have owned := ((owned_ensureResource s iri).trans
    (owned_ensureOwner (hasResource_ensureResource s iri) setOwner)).trans
    (owned_ensureCreateTime setTime)
  simpa only [Option.none_or, Option.or_none] using owned

theorem owned_saveResource (returns : (s.saveResource b).Returns t) :
    Owned s t fun iri =>
      if b.resource ≠ "" ∧ b.resource = iri then b.resourceOwner else none := by
  rw [Store.saveResource] at returns
  split at returns
  · next noResource =>
      rw [Attempt.returns_pure] at returns
      rw [← returns]
      simpa only [noResource, ne_eq, not_true_eq_false, false_and, if_false]
        using Owned.refl s
  · next isResource =>
      simpa only [ne_eq, isResource, not_false_eq_true, true_and] using
        owned_ensureResourceMetadata returns

/-- The links that storing a structural blob adds. -/
def savedBlobLinks (F : Formats Data) (hash : String) (b : StructuralBlob) :
    List BlobLinkRow :=
  b.blobLinks.map fun link => ⟨hash, link.1, F.cidHash link.2⟩

/-- The links to resources, as they are stored. -/
def savedResourceLinks (hash : String) (b : StructuralBlob) :
    List ResourceLinkRow :=
  b.resourceLinks.map fun link =>
    ⟨hash, link.2.1, link.1, link.2.2.1, link.2.2.2⟩

/-- Everything that storing a structural blob does. -/
structure Saved (F : Formats Data) (hash : String) (b : StructuralBlob)
    (s t : Store Data) : Prop where
  grows : Grows s t
  fresh : ∀ row ∈ s.structuralBlobs, row.blob ≠ hash
  structuralBlobs :
    t.structuralBlobs = s.structuralBlobs ++ [Store.structuralRow hash b]
  blobLinks : ∀ link, link ∈ t.blobLinks ↔
    link ∈ s.blobLinks ∨ link ∈ savedBlobLinks F hash b
  resourceLinks : t.resourceLinks = s.resourceLinks ++ savedResourceLinks hash b
  targets : ∀ link ∈ b.resourceLinks, (t.resourceRow link.2.1).isSome
  keyDelegations : t.keyDelegations = s.keyDelegations
  groupSites : t.groupSites = s.groupSites
  owner_eq : ∀ iri, t.owner iri = ((s.owner iri).or
    (if b.author.map F.accountIRI = some iri then b.author else none)).or
      (if b.resource ≠ "" ∧ b.resource = iri then b.resourceOwner else none)

theorem owned_saveAuthor {author : Option Principal}
    (returns : (s.saveAuthor F author).Returns t) :
    Owned s t fun iri =>
      if author.map F.accountIRI = some iri then author else none := by
  cases author with
  | none =>
      rw [Store.saveAuthor, Attempt.returns_pure] at returns
      rw [← returns]
      simpa only [ite_self] using Owned.refl s
  | some key =>
      simpa only [Option.map_some, Option.some.injEq] using
        owned_ensureAccount returns

/-- What storing links to blobs does. -/
structure BlobLinked (F : Formats Data) (hash : String)
    (links : List (String × String)) (s t : Store Data) : Prop where
  grows : Grows s t
  resources : t.resources = s.resources
  structuralBlobs : t.structuralBlobs = s.structuralBlobs
  resourceLinks : t.resourceLinks = s.resourceLinks
  keyDelegations : t.keyDelegations = s.keyDelegations
  groupSites : t.groupSites = s.groupSites
  mem_iff : ∀ link, link ∈ t.blobLinks ↔ link ∈ s.blobLinks ∨
    ∃ saved ∈ links, link = ⟨hash, saved.1, F.cidHash saved.2⟩

theorem ensureBlob_same (s : Store Data) (c : String) :
    (s.ensureBlob F c).resources = s.resources ∧
      SameDerived s (s.ensureBlob F c) := by
  rw [Store.ensureBlob]
  split <;> exact ⟨rfl, rfl, rfl, rfl, rfl, rfl⟩

theorem mem_blobLinksInsertOrIgnore (s : Store Data) (link link' : BlobLinkRow) :
    link' ∈ (s.blobLinksInsertOrIgnore link).blobLinks ↔
      link' ∈ s.blobLinks ∨ link' = link := by
  rw [Store.blobLinksInsertOrIgnore]
  split
  · next known =>
      constructor
      · exact .inl
      · rintro (member | rfl)
        · exact member
        · exact known
  · simp

theorem blobLinked_saveBlobLink (hash : String) (s : Store Data) (link : String × String) :
    BlobLinked F hash [link] s (Store.saveBlobLink F hash s link) := by
  rcases ensureBlob_same (F := F) s link.2 with ⟨resources, same⟩
  have grows : Grows (s.ensureBlob F link.2)
      (Store.saveBlobLink F hash s link) := by
    rw [Store.saveBlobLink, Store.blobLinksInsertOrIgnore]
    split
    · exact .refl _
    · exact .of_same rfl rfl rfl rfl rfl
  have tables : (Store.saveBlobLink F hash s link).resources = s.resources ∧
      (Store.saveBlobLink F hash s link).structuralBlobs = s.structuralBlobs ∧
      (Store.saveBlobLink F hash s link).resourceLinks = s.resourceLinks ∧
      (Store.saveBlobLink F hash s link).keyDelegations = s.keyDelegations ∧
      (Store.saveBlobLink F hash s link).groupSites = s.groupSites := by
    rw [Store.saveBlobLink, Store.blobLinksInsertOrIgnore]
    split <;> exact ⟨resources, same.structuralBlobs, same.resourceLinks,
      same.keyDelegations, same.groupSites⟩
  rcases tables with ⟨resources', structural, resourceLinks, delegations, sites⟩
  refine ⟨(Grows.ensureBlob F s link.2).trans grows, resources', structural,
    resourceLinks, delegations, sites, fun link' => ?_⟩
  rw [Store.saveBlobLink, mem_blobLinksInsertOrIgnore, same.blobLinks]
  simp

theorem blobLinked_foldl (hash : String) (links : List (String × String)) (s : Store Data) :
    BlobLinked F hash links s (links.foldl (Store.saveBlobLink F hash) s) := by
  induction links generalizing s with
  | nil => exact ⟨.refl s, rfl, rfl, rfl, rfl, rfl, by simp⟩
  | cons link links induction =>
      have first := blobLinked_saveBlobLink (F := F) hash s link
      have rest := induction (Store.saveBlobLink F hash s link)
      exact {
        grows := first.grows.trans rest.grows
        resources := rest.resources.trans first.resources
        structuralBlobs := rest.structuralBlobs.trans first.structuralBlobs
        resourceLinks := rest.resourceLinks.trans first.resourceLinks
        keyDelegations := rest.keyDelegations.trans first.keyDelegations
        groupSites := rest.groupSites.trans first.groupSites
        mem_iff := fun link' => by
          rw [List.foldl_cons, rest.mem_iff, first.mem_iff, or_assoc]
          simp only [List.mem_cons, List.not_mem_nil, or_false,
            exists_eq_left, or_and_right, exists_or] }

/-- What storing links to resources does. -/
structure ResourceLinked (hash : String)
    (links : List (String × String × Bool × LinkMeta)) (s t : Store Data) :
    Prop where
  grows : Grows s t
  blobs : t.blobs = s.blobs
  structuralBlobs : t.structuralBlobs = s.structuralBlobs
  blobLinks : t.blobLinks = s.blobLinks
  keyDelegations : t.keyDelegations = s.keyDelegations
  groupSites : t.groupSites = s.groupSites
  owner_eq : ∀ iri, t.owner iri = s.owner iri
  resourceLinks : t.resourceLinks = s.resourceLinks ++
    links.map fun link => ⟨hash, link.2.1, link.1, link.2.2.1, link.2.2.2⟩
  targets : ∀ link ∈ links, (t.resourceRow link.2.1).isSome

theorem resourceLinked_foldl (hash : String)
    (links : List (String × String × Bool × LinkMeta)) (s : Store Data) :
    ResourceLinked hash links s
      (links.foldl (Store.saveResourceLink hash) s) := by
  induction links generalizing s with
  | nil =>
      exact ⟨.refl s, rfl, rfl, rfl, rfl, rfl, fun _ => rfl, by simp, nofun⟩
  | cons link links induction =>
      have ensured := owned_ensureResource s link.2.1
      have rest := induction (Store.saveResourceLink hash s link)
      have there := hasResource_ensureResource s link.2.1
      have grows : Grows s (Store.saveResourceLink hash s link) :=
        ensured.grows.trans (.of_same rfl rfl rfl rfl rfl)
      exact {
        grows := grows.trans rest.grows
        blobs := rest.blobs.trans ensured.blobs
        structuralBlobs :=
          rest.structuralBlobs.trans ensured.same.structuralBlobs
        blobLinks := rest.blobLinks.trans ensured.same.blobLinks
        keyDelegations :=
          rest.keyDelegations.trans ensured.same.keyDelegations
        groupSites := rest.groupSites.trans ensured.same.groupSites
        owner_eq := fun iri =>
          (rest.owner_eq iri).trans (Store.owner_ensureResource _ iri)
        resourceLinks := by
          rw [List.foldl_cons, rest.resourceLinks]
          show (s.ensureResource link.2.1).resourceLinks ++ _ ++ _ = _
          rw [ensured.same.resourceLinks, List.append_assoc]
          rfl
        targets := List.forall_mem_cons.mpr
          ⟨rest.grows.hasResource there, rest.targets⟩ }

theorem saved_of_saveBlob (returns : (s.saveBlob F hash b).Returns t) :
    Saved F hash b s t := by
  simp only [Store.saveBlob, Attempt.returns_bind, Attempt.returns_check,
    Attempt.returns_pure] at returns
  rcases returns with ⟨s₁, savedAuthor, s₂, savedResource, s₃, savedAgain, -,
    fresh, rfl⟩
  have owned := ((owned_saveAuthor savedAuthor).trans
    (owned_saveResource savedResource)).trans (owned_saveResource savedAgain)
  let s₄ : Store Data := { s₃ with
    structuralBlobs := s₃.structuralBlobs ++ [Store.structuralRow hash b] }
  have blobLinked := blobLinked_foldl (F := F) hash b.blobLinks s₄
  have linked := resourceLinked_foldl hash b.resourceLinks
    (b.blobLinks.foldl (Store.saveBlobLink F hash) s₄)
  have grows : Grows s s₄ := owned.grows.trans (.of_same rfl rfl rfl rfl rfl)
  exact {
    grows := (grows.trans blobLinked.grows).trans linked.grows
    fresh := fun row member same => by
      apply fresh
      rw [owned.same.structuralBlobs, List.any_eq_true]
      exact ⟨row, member, beq_iff_eq.mpr same⟩
    structuralBlobs := by
      rw [linked.structuralBlobs, blobLinked.structuralBlobs]
      show s₃.structuralBlobs ++ _ = _
      rw [owned.same.structuralBlobs]
    blobLinks := fun link => by
      rw [linked.blobLinks, blobLinked.mem_iff]
      show link ∈ s₃.blobLinks ∨ _ ↔ _
      rw [owned.same.blobLinks, savedBlobLinks, List.mem_map]
      simp only [eq_comm]
    resourceLinks := by
      rw [linked.resourceLinks, blobLinked.resourceLinks]
      show s₃.resourceLinks ++ _ = _
      rw [owned.same.resourceLinks]
      rfl
    targets := linked.targets
    keyDelegations := by
      rw [linked.keyDelegations, blobLinked.keyDelegations]
      exact owned.same.keyDelegations
    groupSites := by
      rw [linked.groupSites, blobLinked.groupSites]
      exact owned.same.groupSites
    owner_eq := fun iri => by
      rw [linked.owner_eq, Store.owner, Store.resourceRow, blobLinked.resources]
      show s₃.owner iri = _
      rw [owned.owner_eq, Option.or_assoc, Option.or_assoc, Option.or_self] }

end SaveBlob

end Mintter.Hyper
