import Mintter.Hyper.Membership
import Mintter.Hyper.Reindex

/-!
# Reindexing rebuilds the derived tables

Indexing a blob again succeeds and leaves the same derived tables, whatever the
order of its maps, in a store that agrees with the one it arrived in.  The blobs
that are indexed again are those that were indexed, in the order of their arrival,
if each of them `KeepsIndexed`.
-/

namespace Mintter.Hyper

open Mintter.Foundation
open Mintter.Crdt2

variable {Data : Type}

section Kinds

variable {F : Formats Data} {order order' : FieldOrder} {s t s' : Store Data}
variable {c : String} {v : Change} {patch : Object} {author : Principal}
variable {sb sb' sb₁ : StructuralBlob}

theorem Agrees.getAuthor (agrees : Agrees s s') (persists : Persists s s')
    {delegation : String}
    (returns : (s.getAuthorFromDelegation F delegation).Returns author) :
    (s'.getAuthorFromDelegation F delegation).Returns author := by
  simp only [Store.getAuthorFromDelegation, Attempt.returns_bind,
    Store.returns_assertBlobData] at returns ⊢
  rcases returns with ⟨issuer, isIssuer, key, isKey, ⟨⟩, there, same⟩
  refine ⟨issuer, ?_, key, isKey, (), persists.hasBlobData there, same⟩
  rw [Store.delegationIssuer, Store.keyDelegationsGetIssuer] at isIssuer ⊢
  rw [agrees.keyDelegations]
  split at isIssuer
  · exact isIssuer
  · simp only [Attempt.returns_bind] at isIssuer ⊢
    rcases isIssuer with ⟨data, found, decoded⟩
    exact ⟨data, persists.getBlock found, decoded⟩

/-! ## Groups -/

theorem Agrees.currentRole (agrees : Agrees s s') (persists : Persists s s')
    {role : Int} (returns : (currentRole F s v author).Returns role) :
    (currentRole F s' v author).Returns role := by
  simp only [Hyper.currentRole, Attempt.returns_bind,
    Store.returns_resourceGetOwner] at returns ⊢
  rcases returns with ⟨⟨⟩, nonempty, owner, isOwner, returns⟩
  refine ⟨(), nonempty, owner, persists.owner _ _ isOwner, ?_⟩
  split at returns
  · next isAuthor => rwa [if_pos isAuthor]
  · next other =>
      rw [if_neg other]
      simp only [Attempt.returns_bind, Store.returns_getGroupRole] at returns ⊢
      rcases returns with ⟨found, ⟨isGroup, isMember, item, isLatest, rest⟩, same⟩
      refine ⟨found, ⟨persists.hasResource _ isGroup, persists.hasResource _ isMember,
        item, ?_, rest⟩, same⟩
      rwa [agrees.memberships]

theorem Agrees.indexAuthorRole (agrees : Agrees s s') (persists : Persists s s')
    {role : Int}
    (returns : (indexAuthorRole F s v author sb).Returns (t, sb₁, role)) :
    ∃ t', (indexAuthorRole F s' v author sb).Returns (t', sb₁, role) ∧
      Agrees t t' := by
  rw [Hyper.indexAuthorRole] at returns ⊢
  split at returns
  · next create =>
      rw [if_pos create]
      cases Attempt.returns_pure.mp returns
      exact ⟨s', Attempt.returns_pure.mpr rfl, agrees⟩
  · next update =>
      rw [if_neg update]
      simp only [Attempt.returns_bind, Attempt.returns_pure] at returns
      rcases returns with ⟨_, current, same⟩
      cases same
      have agrees' := agrees.of_same (owned_ensureResource s v.entity).same
        (owned_ensureResource s' v.entity).same
      refine ⟨s'.ensureResource v.entity, ?_, agrees'⟩
      simp only [Attempt.returns_bind, Attempt.returns_pure]
      exact ⟨role, agrees'.currentRole (persists.ensureResource v.entity) current, rfl⟩

theorem Agrees.indexSite (agrees : Agrees s s')
    (returns : (indexSite F s c v patch).Returns t) :
    ∃ t', (indexSite F s' c v patch).Returns t' ∧ Agrees t t' := by
  rw [Hyper.indexSite] at returns ⊢
  split at returns
  · simp only [Attempt.returns_bind, Attempt.returns_pure] at returns ⊢
    rcases returns with ⟨⟨⟩, valid, rfl⟩
    refine ⟨_, ⟨(), valid, rfl⟩, ?_⟩
    rw [Store.sitesInsertOrIgnore, Store.sitesInsertOrIgnore, agrees.groupSites]
    split
    · exact { agrees with groupSites := rfl }
    · split
      · exact { agrees with groupSites := rfl }
      · exact agrees
  · cases Attempt.returns_pure.mp returns
    exact ⟨s', Attempt.returns_pure.mpr rfl, agrees⟩

theorem SameBlob.indexContent (order' : FieldOrder) (same : SameBlob sb sb')
    (returns : (indexContent F order patch sb).Returns sb₁) :
    ∃ sb₁', (indexContent F order' patch sb').Returns sb₁' ∧ SameBlob sb₁ sb₁' := by
  rw [Hyper.indexContent] at returns ⊢
  split at returns
  · next content isContent =>
      exact collected_in_any_order (fun entry _ => collects_indexContentEntry entry)
        ((order.perm 1 content).trans (order'.perm 1 content).symm) same returns
  · cases Attempt.returns_pure.mp returns
    exact ⟨sb', Attempt.returns_pure.mpr rfl, same⟩

/-- A member is added wherever its entry stands. -/
theorem indexMember_returns_iff {state next : Store Data × StructuralBlob}
    {entry : String × Value} :
    (indexMember F state entry).Returns next ↔
      ∃ acc role, (F.decodePrincipal entry.1).Returns acc ∧ entry.2 = .int role ∧
        role ≠ roleUnspecified ∧ role ≠ roleOwner ∧ acc ≠ [] ∧
        next = ((state.1.ensureResource (F.accountIRI acc)).resourcesMaybeSetOwner
          (F.accountIRI acc) acc, state.2.addLinks ⟨[], [("group/member",
            F.accountIRI acc, false, .group (toRole role))]⟩) := by
  have added : ∀ link : ResourceLink, state.2.addLinks ⟨[], [link]⟩ =
      state.2.addResourceLink link.1 link.2.1 link.2.2.1 link.2.2.2 := fun link => by
    simp [StructuralBlob.addLinks, StructuralBlob.addResourceLink]
  rw [indexMember, Attempt.returns_bind]
  constructor
  · rintro ⟨acc, decoded, returns⟩
    split at returns
    · next role isRole =>
        simp only [Store.ensureAccount, Attempt.returns_bind, Attempt.returns_check,
          Attempt.returns_pure, Principal.returns_unsafeString] at returns
        rcases returns with ⟨-, specified, -, notOwner, _, ⟨-, nonempty, rfl⟩, rfl⟩
        exact ⟨acc, role, decoded, isRole, specified, notOwner, nonempty, by rw [added]⟩
    · exact absurd returns Attempt.not_returns_throw
  · rintro ⟨acc, role, decoded, isRole, specified, notOwner, nonempty, rfl⟩
    refine ⟨acc, decoded, ?_⟩
    simp only [isRole, Store.ensureAccount, Attempt.returns_bind,
      Attempt.returns_check, Attempt.returns_pure, Principal.returns_unsafeString]
    exact ⟨(), specified, (), notOwner, _, ⟨(), nonempty, rfl⟩, by rw [added]⟩

/-- The entries of a map of members that decode name different accounts. -/
def DistinctMembers (F : Formats Data) (patch : Object) : Prop :=
  ∀ members, Object.get patch "members" = some (.map members) →
    members.Pairwise fun entry entry' => ∀ acc,
      (F.decodePrincipal entry.1).Returns acc →
        ¬ (F.decodePrincipal entry'.1).Returns acc

/-- The same derived tables, and the same structural blob. -/
def SameState (state state' : Store Data × StructuralBlob) : Prop :=
  Agrees state.1 state'.1 ∧ SameBlob state.2 state'.2

theorem sameDerived_setAccount (s : Store Data) (iri : String) (key : Principal) :
    SameDerived s ((s.ensureResource iri).resourcesMaybeSetOwner iri key) :=
  (owned_ensureResource s iri).same.trans ⟨rfl, rfl, rfl, rfl, rfl⟩

theorem indexMember_follows {state next state' : Store Data × StructuralBlob}
    {entry : String × Value} (same : SameState state state')
    (returns : (indexMember F state entry).Returns next) :
    ∃ next', (indexMember F state' entry).Returns next' ∧ SameState next next' := by
  rcases indexMember_returns_iff.mp returns with
    ⟨acc, role, decoded, isRole, specified, notOwner, nonempty, rfl⟩
  refine ⟨_, indexMember_returns_iff.mpr
    ⟨acc, role, decoded, isRole, specified, notOwner, nonempty, rfl⟩,
    same.1.of_same (sameDerived_setAccount ..) (sameDerived_setAccount ..),
    same.2.addLinks _⟩

/-- Members with different accounts can be added in either order. -/
theorem indexMember_swaps {first second : String × Value}
    (distinct : ∀ acc, (F.decodePrincipal first.1).Returns acc →
      ¬ (F.decodePrincipal second.1).Returns acc) :
    Attempt.Swaps (indexMember F) SameState first second := by
  intro state next last isFirst isSecond
  rcases indexMember_returns_iff.mp isFirst with
    ⟨acc, role, decoded, isRole, specified, notOwner, nonempty, rfl⟩
  rcases indexMember_returns_iff.mp isSecond with
    ⟨acc', role', decoded', isRole', specified', notOwner', nonempty', rfl⟩
  refine ⟨_, _, indexMember_returns_iff.mpr
    ⟨acc', role', decoded', isRole', specified', notOwner', nonempty', rfl⟩,
    indexMember_returns_iff.mpr
      ⟨acc, role, decoded, isRole, specified, notOwner, nonempty, rfl⟩, ?_, ?_⟩
  · exact (Agrees.refl state.1).of_same
      ((sameDerived_setAccount ..).trans (sameDerived_setAccount ..))
      ((sameDerived_setAccount ..).trans (sameDerived_setAccount ..))
  · have other : F.accountIRI acc ≠ F.accountIRI acc' := fun same =>
      distinct acc decoded (accountIRI_inj nonempty nonempty' same ▸ decoded')
    rw [addLinks_addLinks, addLinks_addLinks]
    refine ⟨rfl, .rfl, (List.Perm.swap ..).append_left _, fun target => ?_⟩
    simp only [StructuralBlob.addLinks, memberLinks, List.filter_append,
      List.append_cancel_left_eq, List.cons_append, List.nil_append]
    by_cases isFirst : F.accountIRI acc = target
    · have notSecond : F.accountIRI acc' ≠ target := fun same =>
        other (isFirst.trans same.symm)
      simp [isFirst, notSecond]
    · simp [List.filter_cons, isFirst]

theorem SameState.indexMembers {state : Store Data × StructuralBlob}
    (order' : FieldOrder) (same : SameState (s, sb) (s', sb')) (distinct : DistinctMembers F patch)
    (returns : (indexMembers F order s patch sb).Returns state) :
    ∃ state', (indexMembers F order' s' patch sb').Returns state' ∧
      SameState state state' := by
  rw [Hyper.indexMembers] at returns ⊢
  split at returns
  · next members isMembers =>
      have perm := (order.perm 2 members).trans (order'.perm 2 members).symm
      have follows : ∀ entry ∈ order.fields 2 members,
          ∀ state next state' : Store Data × StructuralBlob, SameState state state' →
          (indexMember F state entry).Returns next →
          ∃ next', (indexMember F state' entry).Returns next' ∧
            SameState next next' :=
        fun _ _ _ _ _ same returns => indexMember_follows same returns
      rcases returns.foldlM_follows follows same with ⟨state₁, returns₁, same₁⟩
      have swaps : (order.fields 2 members).Pairwise fun first second =>
          Attempt.Swaps (indexMember F) SameState first second ∧
            Attempt.Swaps (indexMember F) SameState second first := by
        have different := ((order.perm 2 members).pairwise_iff
          (fun distinct acc decoded decoded' => distinct acc decoded' decoded)).mpr
          (distinct members isMembers)
        exact different.imp fun distinct => ⟨indexMember_swaps distinct,
          indexMember_swaps fun acc decoded decoded' => distinct acc decoded' decoded⟩
      rcases returns₁.foldlM_perm perm
        (fun state => ⟨.refl state.1, .refl state.2⟩)
        (fun _ _ _ first second => ⟨first.1.trans second.1, first.2.trans second.2⟩)
        follows swaps with ⟨state₂, returns₂, same₂⟩
      exact ⟨state₂, returns₂, same₁.1.trans same₂.1, same₁.2.trans same₂.2⟩
  · cases Attempt.returns_pure.mp returns
    exact ⟨_, Attempt.returns_pure.mpr rfl, same⟩

theorem Agrees.indexGroup {state : Store Data × StructuralBlob}
    (order' : FieldOrder) (agrees : Agrees s s') (persists : Persists s s')
    (distinct : DistinctMembers F patch)
    (returns : (indexGroup F order s c v patch author sb).Returns state) :
    ∃ state', (indexGroup F order' s' c v patch author sb).Returns state' ∧
      SameState state state' := by
  simp only [Hyper.indexGroup, Attempt.returns_bind, Attempt.returns_check]
    at returns ⊢
  rcases returns with ⟨⟨⟩, kept, ⟨s₁, sb₁, role⟩, authorRole, ⟨⟩, checked, s₂, site,
    sb₂, content, members⟩
  rcases agrees.indexAuthorRole persists authorRole with ⟨s₁', authorRole', agrees₁⟩
  rcases agrees₁.indexSite site with ⟨s₂', site', agrees₂⟩
  rcases (SameBlob.refl sb₁).indexContent order' content with
    ⟨sb₂', content', same⟩
  have together : SameState (s₂, sb₂) (s₂', sb₂') := ⟨agrees₂, same⟩
  rcases together.indexMembers order' distinct members with
    ⟨state', members', same'⟩
  refine ⟨state', ⟨(), ?_, (s₁', sb₁, role), authorRole', (), checked, s₂', site',
    sb₂', content', members'⟩, same'⟩
  rwa [persists.isDeleted]

/-! ## Changes -/

theorem SameBlob.indexDocument (order' : FieldOrder) (persists : Persists s s')
    (returns : (indexDocument F order s v patch sb).Returns sb₁) :
    ∃ sb₁', (indexDocument F order' s' v patch sb).Returns sb₁' ∧
      SameBlob sb₁ sb₁' := by
  simp only [Hyper.indexDocument, Attempt.returns_bind, Attempt.returns_check,
    persists.isDeleted] at returns ⊢
  rcases returns with ⟨⟨⟩, kept, blocks⟩
  rw [indexBlocks] at blocks ⊢
  split at blocks
  · next entries isBlocks =>
      rcases collected_in_any_order (fun block _ => collects_indexBlock block)
        ((order.perm 0 entries).trans (order'.perm 0 entries).symm) (.refl _) blocks
        with ⟨sb₁', blocks', same⟩
      exact ⟨sb₁', ⟨(), kept, blocks'⟩, same⟩
  · cases Attempt.returns_pure.mp blocks
    exact ⟨_, ⟨(), kept, Attempt.returns_pure.mpr rfl⟩, .refl _⟩

theorem Agrees.indexEntity {state : Store Data × StructuralBlob}
    (order' : FieldOrder) (agrees : Agrees s s') (persists : Persists s s')
    (distinct : IsGroup v.entity → DistinctMembers F patch)
    (returns : (indexEntity F order s c v patch author sb).Returns state) :
    ∃ state', (indexEntity F order' s' c v patch author sb).Returns state' ∧
      SameState state state' := by
  rw [Hyper.indexEntity] at returns ⊢
  split at returns
  · next isAccount =>
      rw [if_pos isAccount]
      simp only [indexAccount, Attempt.returns_bind, Attempt.returns_pure,
        Attempt.returns_check, persists.isDeleted] at returns ⊢
      rcases returns with ⟨sb₁, ⟨⟨⟩, kept, isBlob⟩, rfl⟩
      exact ⟨_, ⟨sb₁, ⟨(), kept, isBlob⟩, rfl⟩, agrees, .refl sb₁⟩
  next notAccount =>
  rw [if_neg notAccount]
  split at returns
  · next isDocument =>
      rw [if_pos isDocument]
      simp only [Attempt.returns_bind, Attempt.returns_pure] at returns ⊢
      rcases returns with ⟨sb₁, indexed, rfl⟩
      rcases SameBlob.indexDocument order' persists indexed with
        ⟨sb₁', indexed', same⟩
      exact ⟨_, ⟨sb₁', indexed', rfl⟩, agrees, same⟩
  next notDocument =>
  rw [if_neg notDocument]
  split at returns
  · next isGroup =>
      rw [if_pos isGroup]
      exact agrees.indexGroup order' persists (distinct isGroup) returns
  · next other =>
      rw [if_neg other]
      cases Attempt.returns_pure.mp returns
      exact ⟨_, Attempt.returns_pure.mpr rfl, agrees, .refl sb⟩

theorem Agrees.indexChange (order' : FieldOrder) (agrees : Agrees s s') (persists : Persists s s')
    (distinct : IsGroup v.entity → DistinctMembers F v.patch)
    (returns : (indexChange F order s c v).Returns t) :
    ∃ t', (indexChange F order' s' c v).Returns t' ∧ Agrees t t' := by
  simp only [Hyper.indexChange, addDeps, Attempt.returns_bind, addDeps_returns,
    Attempt.returns_ofExcept] at returns ⊢
  rcases returns with ⟨author, authored, ⟨⟩, valid, sb, ⟨deps, isBlob⟩, patch,
    reencoded, ⟨s₁, sb₁⟩, entity, saved⟩
  have samePatch := F.reencode_eq _ _ reencoded
  rw [samePatch] at reencoded entity
  rcases agrees.indexEntity order' persists distinct entity with
    ⟨⟨s₁', sb₁'⟩, entity', agrees₁, same⟩
  rcases agrees₁.saveBlob same saved with ⟨t', saved', agrees'⟩
  exact ⟨t', ⟨author, agrees.getAuthor persists authored, (), valid, sb,
    ⟨fun dep isDep => persists.hasBlobData (deps dep isDep), isBlob⟩, v.patch,
    reencoded, (s₁', sb₁'), entity', saved'⟩, agrees'⟩

/-! ## Other blobs -/

theorem Agrees.indexKeyDelegation {kd : KeyDelegation} (agrees : Agrees s s')
    (returns : (indexKeyDelegation F s c kd).Returns t) :
    ∃ t', (indexKeyDelegation F s' c kd).Returns t' ∧ Agrees t t' := by
  simp only [Hyper.indexKeyDelegation, Attempt.returns_bind] at returns ⊢
  rcases returns with ⟨⟨⟩, purpose, ⟨⟩, issuerKey, ⟨⟩, delegateKey, ⟨⟩, issuer, ⟨⟩,
    delegate, saved⟩
  have agrees₁ : Agrees
      (s.keyDelegationsInsertOrIgnore ⟨F.cidHash c, kd.issuer, kd.delegate⟩)
      (s'.keyDelegationsInsertOrIgnore ⟨F.cidHash c, kd.issuer, kd.delegate⟩) := by
    rw [Store.keyDelegationsInsertOrIgnore, Store.keyDelegationsInsertOrIgnore,
      agrees.keyDelegations]
    split
    · exact agrees
    · exact { agrees with keyDelegations := rfl }
  rcases agrees₁.saveBlob (.refl _) saved with ⟨t', saved', agrees'⟩
  exact ⟨t', ⟨(), purpose, (), issuerKey, (), delegateKey, (), issuer, (), delegate,
    saved'⟩, agrees'⟩

theorem Persists.checkThread {v : Comment} (persists : Persists s s')
    (returns : (checkThread F s v).Returns ()) : (checkThread F s' v).Returns () := by
  rw [Hyper.checkThread] at returns ⊢
  split at returns
  · next isReply =>
      rw [if_pos isReply]
      simp only [checkReply, Attempt.returns_bind] at returns ⊢
      rcases returns with ⟨⟨⟩, both, data, found, rest⟩
      exact ⟨(), both, data, persists.getBlock found, rest⟩
  · next isRoot =>
      rw [if_neg isRoot]
      exact returns

theorem Agrees.indexComment {v : Comment} (agrees : Agrees s s')
    (persists : Persists s s') (returns : (indexComment F s c v).Returns t) :
    ∃ t', (indexComment F s' c v).Returns t' ∧ Agrees t t' := by
  simp only [Hyper.indexComment, Attempt.returns_bind, Attempt.returns_ofExcept]
    at returns ⊢
  rcases returns with ⟨⟨⟩, hasTarget, ⟨⟩, isResource, ⟨⟩, kept, ⟨⟩, thread, author,
    authored, sb₁, target, sb, body, saved⟩
  rcases agrees.saveBlob (.refl sb) saved with ⟨t', saved', agrees'⟩
  refine ⟨t', ⟨(), hasTarget, (), isResource, (), ?_, (), persists.checkThread thread,
    author, agrees.getAuthor persists authored, sb₁, target, sb, body, saved'⟩, agrees'⟩
  rwa [persists.isDeleted]

/-- Indexing a blob again keeps the derived tables the same. -/
theorem Agrees.indexBlob {blob : DecodedBlob} (order' : FieldOrder)
    (agrees : Agrees s s')
    (persists : Persists s s')
    (distinct : ∀ v, blob = .change v → IsGroup v.entity → DistinctMembers F v.patch)
    (returns : (indexBlob F order s c blob).Returns t) :
    ∃ t', (indexBlob F order' s' c blob).Returns t' ∧ Agrees t t' := by
  cases blob with
  | dagPB links => exact agrees.saveBlob (.refl _) returns
  | keyDelegation kd => exact agrees.indexKeyDelegation returns
  | change ch => exact agrees.indexChange order' persists (distinct ch rfl) returns
  | comment cm => exact agrees.indexComment persists returns

end Kinds

/-! ## The rows of blobs -/

section Rows

variable {F : Formats Data} {order : FieldOrder} {s t : Store Data}
variable {c hash : String} {blob : DecodedBlob} {codec : Nat} {data : Data}

theorem kept_of_saveBlob (kept : Store Data → Prop) {b : StructuralBlob}
    (same : ∀ s t : Store Data, t.blobs = s.blobs → s.seq ≤ t.seq →
      t.blobLinks = s.blobLinks → kept s → kept t)
    (linked : ∀ s hash link, kept s → kept (Store.saveBlobLink F hash s link))
    (returns : (s.saveBlob F hash b).Returns t) (start : kept s) : kept t := by
  simp only [Store.saveBlob, Attempt.returns_bind, Attempt.returns_pure] at returns
  rcases returns with ⟨s₁, author, s₂, resource, s₃, again, -, -, rfl⟩
  have owned := ((owned_saveAuthor author).trans
    (owned_saveResource resource)).trans (owned_saveResource again)
  have kept₃ : kept { s₃ with
      structuralBlobs := s₃.structuralBlobs ++ [Store.structuralRow hash b] } :=
    same s _ owned.blobs owned.grows.seq owned.same.blobLinks start
  have keptLinks : ∀ (links : List (String × String)) s, kept s →
      kept (links.foldl (Store.saveBlobLink F hash) s) := by
    intro links
    induction links with
    | nil => exact fun _ isKept => isKept
    | cons link links induction =>
        exact fun s isKept => induction _ (linked s hash link isKept)
  have resources := resourceLinked_foldl hash b.resourceLinks
    (b.blobLinks.foldl (Store.saveBlobLink F hash) { s₃ with
      structuralBlobs := s₃.structuralBlobs ++ [Store.structuralRow hash b] })
  exact same _ _ resources.blobs resources.grows.seq resources.blobLinks
    (keptLinks b.blobLinks _ kept₃)

/--
What is known of the blobs and their links is kept by indexing a blob if it is
kept by linking one blob to another.
-/
theorem kept_of_indexBlob (kept : Store Data → Prop)
    (same : ∀ s t : Store Data, t.blobs = s.blobs → s.seq ≤ t.seq →
      t.blobLinks = s.blobLinks → kept s → kept t)
    (linked : ∀ s hash link, kept s → kept (Store.saveBlobLink F hash s link))
    (returns : (indexBlob F order s c blob).Returns t) (start : kept s) : kept t := by
  cases blob with
  | dagPB links => exact kept_of_saveBlob kept same linked returns start
  | keyDelegation kd =>
      simp only [indexBlob, indexKeyDelegation, Attempt.returns_bind] at returns
      rcases returns with ⟨-, -, -, -, -, -, -, -, -, -, saved⟩
      apply kept_of_saveBlob kept same linked saved
      rw [Store.keyDelegationsInsertOrIgnore]
      split
      · exact start
      · exact same s _ rfl le_rfl rfl start
  | change ch =>
      simp only [indexBlob, indexChange, Attempt.returns_bind,
        Attempt.returns_ofExcept] at returns
      rcases returns with ⟨author, -, -, -, sb, -, patch, reencoded, ⟨s₁, sb₁⟩, entity,
        saved⟩
      rw [F.reencode_eq _ _ reencoded] at entity
      have ensured := (entityIndexed_of_returns entityLinks_true entity).1
      exact kept_of_saveBlob kept same linked saved
        (same s s₁ ensured.blobs ensured.grows.seq ensured.blobLinks start)
  | comment cm =>
      simp only [indexBlob, indexComment, Attempt.returns_bind] at returns
      rcases returns with ⟨-, -, -, -, -, -, -, -, author, -, sb₁, -, sb, -, saved⟩
      exact kept_of_saveBlob kept same linked saved start

/-- One row for each multihash, in the order of the numbers. -/
structure NumberedBlobs (s : Store Data) : Prop where
  nodup : s.blobs.Pairwise fun row row' => row.multihash ≠ row'.multihash
  sorted : s.blobs.Pairwise fun row row' => row.id < row'.id
  bounded : ∀ row ∈ s.blobs, row.id ≤ s.seq

theorem NumberedBlobs.empty : NumberedBlobs (Store.empty : Store Data) :=
  ⟨.nil, .nil, nofun⟩

theorem NumberedBlobs.of_same (numbered : NumberedBlobs s) (blobs : t.blobs = s.blobs)
    (seq : s.seq ≤ t.seq) : NumberedBlobs t where
  nodup := blobs ▸ numbered.nodup
  sorted := blobs ▸ numbered.sorted
  bounded := fun row member => (numbered.bounded row (blobs ▸ member)).trans seq

/-- A row with the next number is added behind some of the rows. -/
theorem NumberedBlobs.append (numbered : NumberedBlobs s)
    {rows : List (BlobRow Data)} {row : BlobRow Data} (sublist : rows.Sublist s.blobs)
    (fresh : ∀ old ∈ rows, old.multihash ≠ row.multihash) (next : row.id = s.seq + 1)
    (blobs : t.blobs = rows ++ [row]) (seq : t.seq = s.seq + 1) : NumberedBlobs t where
  nodup := by
    rw [blobs, List.pairwise_append]
    refine ⟨numbered.nodup.sublist sublist, List.pairwise_singleton .., ?_⟩
    intro old isOld new isNew
    rw [List.mem_singleton.mp isNew]
    exact fresh old isOld
  sorted := by
    rw [blobs, List.pairwise_append]
    refine ⟨numbered.sorted.sublist sublist, List.pairwise_singleton .., ?_⟩
    intro old isOld new isNew
    rw [List.mem_singleton.mp isNew, next]
    exact Nat.lt_succ_of_le (numbered.bounded old (sublist.subset isOld))
  bounded := by
    rw [blobs, seq]
    intro old isOld
    rcases List.mem_append.mp isOld with member | new
    · exact (numbered.bounded old (sublist.subset member)).trans (Nat.le_succ _)
    · rw [List.mem_singleton.mp new, next]

theorem multihash_ne_of_absent (absent : s.blobRow hash = none) :
    ∀ row ∈ s.blobs, row.multihash ≠ hash := by
  intro row member same
  have other := List.find?_eq_none.mp absent row member
  exact other (beq_iff_eq.mpr same)

theorem NumberedBlobs.saveBlobLink (numbered : NumberedBlobs s)
    (link : String × String) : NumberedBlobs (Store.saveBlobLink F hash s link) := by
  have ensured : NumberedBlobs (s.ensureBlob F link.2) := by
    rw [Store.ensureBlob]
    split
    · exact numbered
    · next absent =>
        exact numbered.append (List.Sublist.refl _) (multihash_ne_of_absent absent)
          rfl rfl rfl
  rw [Store.saveBlobLink, Store.blobLinksInsertOrIgnore]
  split
  · exact ensured
  · exact ensured.of_same rfl le_rfl

/-- The rows of blobs that are there and not empty. -/
def Store.live (s : Store Data) : List (BlobRow Data) :=
  s.blobs.filter fun row => 0 < row.size

theorem live_saveBlobLink (s : Store Data) (link : String × String) :
    (Store.saveBlobLink F hash s link).live = s.live := by
  have ensured : (s.ensureBlob F link.2).live = s.live := by
    rw [Store.ensureBlob]
    split
    · rfl
    · rw [Store.live, Store.blobsInsert, List.filter_append]
      exact List.append_nil _
  rw [Store.saveBlobLink, Store.blobLinksInsertOrIgnore]
  split <;> exact ensured

theorem NumberedBlobs.filter_multihash (numbered : NumberedBlobs s)
    {old : BlobRow Data} (found : s.blobRow hash = some old) :
    s.blobs.filter (·.multihash = hash) = [old] := by
  have nodup := numbered.nodup
  rw [Store.blobRow] at found
  generalize s.blobs = rows at nodup found ⊢
  induction rows with
  | nil => cases found
  | cons row rows induction =>
      rcases List.pairwise_cons.mp nodup with ⟨different, others⟩
      by_cases same : row.multihash = hash
      · rw [List.find?_cons_of_pos (by simpa using same)] at found
        rw [List.filter_cons_of_pos (by simpa using same), Option.some.inj found,
          List.filter_eq_nil_iff.mpr]
        intro row' member isHash
        exact different row' member (same.trans (of_decide_eq_true isHash).symm)
      · rw [List.find?_cons_of_neg (by simpa using same)] at found
        rw [List.filter_cons_of_neg (by simpa using same)]
        exact induction others found

/-- A block arrives: its row comes last, with the codec of a row that was there. -/
structure NewRow (F : Formats Data) (s : Store Data) (codec : Nat) (hash : String)
    (data : Data) (t : Store Data) (row : BlobRow Data) : Prop where
  numbered : NumberedBlobs t
  live : t.live = s.live ++ [row].filter fun row => 0 < row.size
  multihash : row.multihash = hash
  data_eq : row.data = some data
  size : row.size = F.size data
  codec_eq : row.codec = codec ∨
    ∃ old, s.blobRow hash = some old ∧ row.codec = old.codec

theorem NumberedBlobs.putBlock (numbered : NumberedBlobs s)
    (returns : (s.putBlock F 0 codec hash data).Returns (false, t)) :
    ∃ row, NewRow F s codec hash data t row := by
  rw [Store.putBlock] at returns
  split at returns
  · next old found =>
      split at returns
      · exact absurd (Attempt.returns_pure.mp returns) (by simp)
      next missing =>
      split at returns
      · exact absurd returns Attempt.not_returns_throw
      cases Attempt.returns_pure.mp returns
      have isHash : old.multihash = hash := by simpa using List.find?_some found
      have blobs : (s.blobsUpdateMissingData F hash data).blobs =
          s.blobs.filter (·.multihash ≠ hash) ++
            [⟨s.seq + 1, hash, old.codec, some data, F.size data⟩] := by
        rw [Store.blobsUpdateMissingData, Store.renumber]
        simp only [numbered.filter_multihash found, List.map_cons, List.map_nil]
        rw [isHash]
      refine ⟨⟨s.seq + 1, hash, old.codec, some data, F.size data⟩,
        numbered.append List.filter_sublist ?_ rfl blobs rfl, ?_, rfl, rfl, rfl,
        .inr ⟨old, found, rfl⟩⟩
      · intro row member
        simpa using (List.mem_filter.mp member).2
      · -- The row without data was not live.
        rw [Store.live, blobs, List.filter_append, List.filter_filter, Store.live]
        congr 1
        apply List.filter_congr
        intro row member
        by_cases same : row.multihash = hash
        · have isOld : row ∈ s.blobs.filter (·.multihash = hash) :=
            List.mem_filter.mpr ⟨member, by simpa using same⟩
          rw [numbered.filter_multihash found, List.mem_singleton] at isOld
          have dead : ¬ 0 < row.size := fun positive =>
            missing (isOld ▸ positive.le)
          simp [dead]
        · simp [same]
  · next absent =>
      rw [if_pos rfl] at returns
      cases Attempt.returns_pure.mp returns
      refine ⟨⟨s.seq + 1, hash, codec, some data, F.size data⟩,
        numbered.append (List.Sublist.refl _) (multihash_ne_of_absent absent) rfl rfl
          rfl, ?_, rfl, rfl, rfl, .inl rfl⟩
      rw [Store.live, Store.blobsInsert, List.filter_append]
      rfl

end Rows

/-! ## Runs -/

/-- A block that arrives is indexed in the same way when it is indexed again. -/
structure KeepsIndexed (F : Formats Data) (s : Store Data) (c : String)
    (data : Data) : Prop where
  /-- A row that is there was made for the same codec, or is never indexed. -/
  placeholder : ∀ row, s.blobRow (F.cidHash c) = some row →
    row.codec = F.cidCodec c ∨
      isIndexable row.codec = false ∧ isIndexable (F.cidCodec c) = false
  nonempty : isIndexable (F.cidCodec c) = true → 0 < F.size data
  distinct : ∀ v, F.decodeBlob (F.cidCodec c) data = .ok (.change v) →
    IsGroup v.entity → DistinctMembers F v.patch

/-- Every block that arrives new can be indexed again. -/
def RespectsReindex (F : Formats Data) (s : Store Data) (arrival : Arrival Data) :
    Prop :=
  ∀ s₁, (s.putBlock F 0 (F.cidCodec arrival.c) (F.cidHash arrival.c)
      arrival.data).Returns (false, s₁) →
    KeepsIndexed F s arrival.c arrival.data

/-- The derived tables hold the same rows, and nothing else has been lost. -/
structure Rebuilt (s t : Store Data) : Prop where
  structuralBlobs : t.structuralBlobs = s.structuralBlobs
  blobLinks : t.blobLinks.Perm s.blobLinks
  resourceLinks : t.resourceLinks.Perm s.resourceLinks
  keyDelegations : t.keyDelegations = s.keyDelegations
  groupSites : t.groupSites = s.groupSites
  kept : Persists s t

section Runs

variable {F : Formats Data} {s s₁ t T : Store Data} {arrival : Arrival Data}
variable {order : String → FieldOrder} {row : BlobRow Data}

/-- What holds of a store that is reached: its live rows can be indexed again. -/
structure Reindexable (F : Formats Data) (s : Store Data) : Prop where
  numbered : NumberedBlobs s
  links : s.blobLinks.Nodup
  replays : ∀ T, Persists s T → ∀ order, ∃ t,
    (s.live.foldlM (reindexRow F order) T.clearDerived).Returns t ∧ Agrees s t ∧
      Persists T t ∧ t.blobLinks.Nodup

theorem nodup_saveBlobLink {hash : String} (link : String × String)
    (nodup : s.blobLinks.Nodup) :
    (Store.saveBlobLink F hash s link).blobLinks.Nodup := by
  have same := (ensureBlob_same (F := F) s link.2).2.blobLinks
  rw [Store.saveBlobLink, Store.blobLinksInsertOrIgnore, same]
  split
  · rwa [same]
  · next new => exact List.nodup_append_comm.mp (List.nodup_cons.mpr ⟨new, nodup⟩)

theorem nodup_of_indexBlob {order : FieldOrder} {c : String} {blob : DecodedBlob}
    (returns : (indexBlob F order s c blob).Returns t) (nodup : s.blobLinks.Nodup) :
    t.blobLinks.Nodup := by
  apply kept_of_indexBlob (fun s => s.blobLinks.Nodup) _ _ returns nodup
  · intro s t _ _ same nodup
    rwa [same]
  · exact fun _ _ link nodup => nodup_saveBlobLink link nodup

theorem reindexRow_eq_pure (dead : row.size ≤ 0) (s : Store Data) :
    reindexRow F order s row = pure s := by
  rw [reindexRow, if_pos dead]
  split <;> rfl

/-- The codec of a row that is indexed decides its CID, as far as it matters. -/
theorem indexBlob_newCidV1 {order : FieldOrder} {c : String} {data : Data}
    {blob : DecodedBlob} (decoded : F.decodeBlob (F.cidCodec c) data = .ok blob) :
    indexBlob F order s (F.newCidV1 (F.cidCodec c) (F.cidHash c)) blob =
      indexBlob F order s c blob := by
  by_cases isCbor : F.cidCodec c = dagCbor
  · rw [isCbor, F.newCidV1_of_dagCbor c isCbor]
  · rw [Formats.decodeBlob, if_neg isCbor] at decoded
    split at decoded
    · cases nodes : F.decodePBNode data with
      | error err => simp [nodes, Except.map] at decoded
      | ok links =>
          rw [nodes] at decoded
          rw [← Except.ok.inj decoded]
          show indexDagPB F s _ links = indexDagPB F s _ links
          rw [indexDagPB, indexDagPB, F.cidHash_newCidV1]
    · cases decoded

/-- A block that arrives and is not indexed is not indexed again either. -/
theorem Reindexable.skipped (reindexable : Reindexable F s)
    (received : Received s t) (isNew : NewRow F s (F.cidCodec arrival.c)
      (F.cidHash arrival.c) arrival.data t row)
    (keeps : KeepsIndexed F s arrival.c arrival.data)
    (skips : isIndexable (F.cidCodec arrival.c) = false) : Reindexable F t where
  numbered := isNew.numbered
  links := by
    rw [received.same.blobLinks]
    exact reindexable.links
  replays := fun T persists order => by
    rcases reindexable.replays T (received.persists.trans persists) order with
      ⟨t', returns, agrees, rest⟩
    refine ⟨t', ?_, agrees.of_same received.same (.refl t'), rest⟩
    have notIndexed : isIndexable row.codec = false := by
      rcases isNew.codec_eq with same | ⟨old, found, same⟩
      · rw [same, skips]
      · rcases keeps.placeholder old found with same' | ⟨never, -⟩
        · rw [same, same', skips]
        · rw [same, never]
    rw [isNew.live, List.foldlM_append, Attempt.returns_bind]
    refine ⟨t', returns, ?_⟩
    rw [Attempt.foldlM_filter]
    · rw [List.foldlM_cons, reindexRow, if_pos notIndexed, pure_bind, List.foldlM_nil]
      exact Attempt.returns_pure.mpr rfl
    · intro s item _ dead
      exact reindexRow_eq_pure (not_lt.mp (of_decide_eq_false dead)) s

/-- A block that arrives and is indexed is indexed again in the same way. -/
theorem Reindexable.indexed {blob : DecodedBlob} (reindexable : Reindexable F s)
    (arrives : Arrives F s arrival s₁ blob)
    (isNew : NewRow F s (F.cidCodec arrival.c) (F.cidHash arrival.c) arrival.data s₁
      row)
    (keeps : KeepsIndexed F s arrival.c arrival.data)
    (indexed : (indexBlob F arrival.order s₁ arrival.c blob).Returns t) :
    Reindexable F t := by
  have isIndexed := isIndexable_of_decodeBlob arrives.decoded
  have received := arrives.received
  have grows := grows_of_indexedBlob (indexedBlob_of_returns indexed)
  have live : t.live = s.live ++ [row] := by
    have same : t.live = s₁.live := by
      apply kept_of_indexBlob (fun t => t.live = s₁.live) _ _ indexed rfl
      · intro s t blobs _ _ same
        rw [Store.live, blobs]
        exact same
      · exact fun s _ link same => (live_saveBlobLink s link).trans same
    have positive : 0 < row.size := by
      rw [isNew.size]
      exact Int.natCast_pos.mpr (keeps.nonempty isIndexed)
    rw [same, isNew.live, List.filter_cons_of_pos (by simpa using positive)]
    rfl
  have codec : row.codec = F.cidCodec arrival.c := by
    rcases isNew.codec_eq with same | ⟨old, found, same⟩
    · exact same
    · rcases keeps.placeholder old found with same' | ⟨-, never⟩
      · exact same.trans same'
      · rw [isIndexed] at never
        cases never
  refine ⟨?_, ?_, fun T persists order => ?_⟩
  · exact kept_of_indexBlob NumberedBlobs
      (fun _ _ blobs seq _ numbered => numbered.of_same blobs seq)
      (fun _ _ link numbered => numbered.saveBlobLink link) indexed isNew.numbered
  · apply nodup_of_indexBlob indexed
    rw [received.same.blobLinks]
    exact reindexable.links
  · rcases reindexable.replays T (received.persists.trans
      (grows.persists.trans persists)) order with ⟨t', returns, agrees, kept, nodup⟩
    have agrees₁ : Agrees s₁ t' := agrees.of_same received.same (.refl t')
    have persists₁ : Persists s₁ t' := grows.persists.trans (persists.trans kept)
    rcases agrees₁.indexBlob (order row.multihash) persists₁
      (fun v isChange => keeps.distinct v (isChange ▸ arrives.decoded)) indexed with
      ⟨t'', indexed', agrees'⟩
    have grows' := grows_of_indexedBlob (indexedBlob_of_returns indexed')
    refine ⟨t'', ?_, agrees', kept.trans grows'.persists,
      nodup_of_indexBlob indexed' nodup⟩
    have dead : ¬ row.size ≤ 0 := by
      rw [isNew.size, not_le]
      exact Int.natCast_pos.mpr (keeps.nonempty isIndexed)
    have again : reindexRow F order t' row =
        indexBlob F (order row.multihash) t' arrival.c blob := by
      simp only [reindexRow, codec, isIndexed, Bool.true_eq_false, if_false, if_neg dead,
        isNew.data_eq, isNew.multihash, F.cidCodec_newCidV1, arrives.decoded]
      exact indexBlob_newCidV1 arrives.decoded
    rw [live, List.foldlM_append, Attempt.returns_bind]
    refine ⟨t', returns, ?_⟩
    rw [List.foldlM_cons, again, Attempt.returns_bind]
    exact ⟨t'', indexed', Attempt.returns_pure.mpr rfl⟩

theorem Reindexable.empty : Reindexable F (Store.empty : Store Data) where
  numbered := .empty
  links := List.nodup_nil
  replays := fun T _ _ => ⟨T.clearDerived, Attempt.returns_pure.mpr rfl,
    ⟨rfl, fun _ => .rfl, .rfl, fun _ _ => rfl, rfl, rfl⟩,
    ⟨fun _ _ found _ => found, fun _ found => found, fun _ _ isOwner => isOwner, rfl⟩,
    List.nodup_nil⟩

/-- Whatever is accepted can be indexed again. -/
theorem Reindexable.accept (reindexable : Reindexable F s)
    (respects : RespectsReindex F s arrival)
    (accepted : Hyper.accept F s arrival = some t) : Reindexable F t := by
  rcases put_of_returns (returns_of_accept accepted) with ⟨found, s₁, isPut⟩
  cases found with
  | true =>
      rw [isPut.skipped rfl, isPut.block.old rfl]
      exact reindexable
  | false =>
      rcases reindexable.numbered.putBlock isPut.stored with ⟨row, isNew⟩
      have keeps := respects s₁ isPut.stored
      cases skips : isIndexable (F.cidCodec arrival.c) with
      | false =>
          rw [isPut.skipped (by rw [skips]; rfl)]
          exact reindexable.skipped isPut.block.received isNew keeps skips
      | true =>
          rcases isPut.indexed (by rw [skips]; rfl) with ⟨blob, decoded, indexed⟩
          exact reindexable.indexed ⟨isPut.stored, decoded⟩ isNew keeps indexed

/-- The store that is reached can be indexed again. -/
theorem Reindexable.rebuilt (reindexable : Reindexable F s)
    (order : String → FieldOrder) :
    ∃ t, (reindex F order s).Returns t ∧ Rebuilt s t := by
  rcases reindexable.replays s (.refl s) order with ⟨t, returns, agrees, kept, nodup⟩
  refine ⟨t, ?_, agrees.structuralBlobs,
    (List.perm_ext_iff_of_nodup nodup reindexable.links).mpr agrees.blobLinks,
    agrees.resourceLinks, agrees.keyDelegations, agrees.groupSites, kept⟩
  have inOrder : s.blobs.Pairwise fun row row' => row.id ≤ row'.id :=
    reindexable.numbered.sorted.imp fun less => less.le
  rw [reindex, inOrder.insertionSort_eq]
  rw [Store.live, Attempt.foldlM_filter] at returns
  · exact returns
  · intro s row _ dead
    exact reindexRow_eq_pure (not_lt.mp (of_decide_eq_false dead)) s

/-- In a run of blocks that can be indexed again, reindexing rebuilds the tables. -/
theorem reindex_rebuilds (run : Reaches (accept F) (RespectsReindex F) .empty s)
    (order : String → FieldOrder) :
    ∃ t, (reindex F order s).Returns t ∧ Rebuilt s t := by
  have reindexable : Reindexable F s :=
    run.invariant (fun _ _ _ reindexable respects accepted =>
      reindexable.accept respects accepted) .empty
  exact reindexable.rebuilt order

end Runs

/-- A blob that has no row, or a row of its codec, can be indexed again. -/
theorem respectsReindex_of_codec {F : Formats Data} {s : Store Data}
    {arrival : Arrival Data} (same : (s.blobRow (F.cidHash arrival.c)).all
      (·.codec == F.cidCodec arrival.c) = true)
    (nonempty : 0 < F.size arrival.data)
    (distinct : ∀ v, F.decodeBlob (F.cidCodec arrival.c) arrival.data = .ok (.change v) →
      IsGroup v.entity → DistinctMembers F v.patch) : RespectsReindex F s arrival := by
  refine fun s₁ _ => ⟨fun row isRow => ?_, fun _ => nonempty, distinct⟩
  rw [isRow, Option.all_some, beq_iff_eq] at same
  exact .inl same

/-- A node links to the change of the members, which arrives later. -/
def linkingArrival : Arrival DecodedBlob :=
  ⟨.listed, sampleCidV1 dagPb "node", .dagPB [⟨none, "cmember"⟩]⟩

/-- A third account arrives before the change of the members. -/
def strangerArrival : Arrival DecodedBlob :=
  ⟨.listed, "cdelegation3", .keyDelegation (sampleDelegation 3 13)⟩

def linkingArrivalResult : Evaluated (accept (sampleFormats sampleSha256) groupStore
    linkingArrival) :=
  .of (by decide +kernel)

/-- The store with a placeholder for the change of the members. -/
def linkingStore : Store DecodedBlob := linkingArrivalResult.val

def strangerArrivalResult : Evaluated (accept (sampleFormats sampleSha256) linkingStore
    strangerArrival) :=
  .of (by decide +kernel)

/-- The store in which another blob is newer than the placeholder. -/
def strangerStore : Store DecodedBlob := strangerArrivalResult.val

def filledArrivalResult : Evaluated (accept (sampleFormats sampleSha256) strangerStore
    memberArrival) :=
  .of (by decide +kernel)

theorem reindex_rebuilds_memberArrival :
    ∃ s t u v w x, sampleRun deviceArrivals = some s ∧
      accept (sampleFormats sampleSha256) s createArrival = some t ∧
      accept (sampleFormats sampleSha256) t linkingArrival = some u ∧
      accept (sampleFormats sampleSha256) u strangerArrival = some v ∧
      accept (sampleFormats sampleSha256) v memberArrival = some w ∧
      (reindex (sampleFormats sampleSha256) (fun _ => .startAt 1) w).Returns x ∧
      Rebuilt w x := by
  have rebuilds := reindex_rebuilds (F := sampleFormats sampleSha256)
    (s := filledArrivalResult.val) ((((reaches_groupStore ?_ ?_).extend ?_
      linkingArrivalResult.property).extend ?_ strangerArrivalResult.property).extend ?_
        filledArrivalResult.property) fun _ => .startAt 1
  · rcases rebuilds with ⟨x, returns, rebuilt⟩
    exact ⟨_, _, _, _, _, x, sampleRun_deviceArrivals, accept_createArrival,
      linkingArrivalResult.property, strangerArrivalResult.property,
      filledArrivalResult.property, returns, rebuilt⟩
  · refine ⟨respectsReindex_of_codec rfl Nat.one_pos nofun, fun next stepped => ?_⟩
    have absent : (accept (sampleFormats sampleSha256) .empty
        ⟨.listed, "cdelegation1", .keyDelegation (sampleDelegation 1 11)⟩).all
        (fun next => (next.blobRow "delegation2").all (·.codec == dagCbor)) = true := by
      decide +kernel
    rw [stepped] at absent
    exact ⟨respectsReindex_of_codec absent Nat.one_pos nofun, fun _ _ => trivial⟩
  · apply respectsReindex_of_codec (by decide +kernel) Nat.one_pos
    intro v decoded _ members isMembers
    cases decoded
    exact absurd (show none = some (Value.map members) from isMembers) nofun
  · apply respectsReindex_of_codec (by decide +kernel) Nat.one_pos
    intro v decoded
    rw [Formats.decodeBlob, if_pos (by decide +kernel)] at decoded
    cases decoded
  · exact respectsReindex_of_codec (by decide +kernel) Nat.one_pos nofun
  · apply respectsReindex_of_codec (by decide +kernel) Nat.one_pos
    intro v decoded _ members isMembers
    cases decoded
    cases isMembers
    exact List.pairwise_singleton ..

/-! ## Placeholders with another codec -/

/-- A node that links to the bytes of a key delegation, which arrives later. -/
def rawLinkArrivals : List (Arrival DecodedBlob) :=
  [⟨.listed, sampleCidV1 dagPb "node", .dagPB [⟨none, sampleCidV1 0 "delegation1"⟩]⟩,
    ⟨.listed, "cdelegation1", .keyDelegation (sampleDelegation 1 11)⟩]

def rawLinkArrivalsResult : Evaluated (sampleRun rawLinkArrivals) :=
  .of (by decide +kernel)

theorem rawLinkArrivals_accepted : (sampleRun rawLinkArrivals).isSome = true :=
  rawLinkArrivalsResult.isSome

/-- The key delegation keeps the codec of the link and is not indexed again. -/
theorem reindex_loses_delegation :
    ∃ s, Reaches (accept (sampleFormats sampleSha256)) (fun _ _ => True) .empty s ∧
      ¬ ∃ t, (reindex (sampleFormats sampleSha256) (fun _ => .listed) s).Returns t ∧
        Rebuilt s t := by
  refine ⟨(sampleRun rawLinkArrivals).get rawLinkArrivals_accepted,
    reaches_get rawLinkArrivals rawLinkArrivals_accepted, ?_⟩
  rintro ⟨t, returns, rebuilt⟩
  have lost : ((reindex (sampleFormats sampleSha256) (fun _ => .listed)
      ((sampleRun rawLinkArrivals).get rawLinkArrivals_accepted)).run.toOption.bind
        (·.toOption)).all (·.keyDelegations.isEmpty) = true := by decide +kernel
  have indexed : ((sampleRun rawLinkArrivals).get
      rawLinkArrivals_accepted).keyDelegations.isEmpty = false := by decide +kernel
  rw [Attempt.Returns] at returns
  rw [returns] at lost
  rw [← rebuilt.keyDelegations] at indexed
  exact absurd (lost.symm.trans indexed) (by decide)

end Mintter.Hyper
