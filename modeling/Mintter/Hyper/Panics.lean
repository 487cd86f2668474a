import Mintter.Hyper.Accepted
import Mintter.Hyper.SampleFormats

/-!
# Where indexing a change panics

Most of the indexing of a change checks the shape of what it reads.  Four places
do not: the bytes of the issuer of a delegation, the length of an identifier, the
value of a block, and the bytes of a member of a group.
-/

namespace Mintter.Hyper

open Mintter.Foundation
open Mintter.Crdt2

variable {Data : Type}

section Panics

variable {F : Formats Data} {order : FieldOrder} {s t : Store Data} {c : String}
variable {v : Change} {patch : Object} {author : Principal}
variable {sb sb' : StructuralBlob}

/-! ## The author -/

theorem quiet_delegationIssuer {delegation : String} :
    (s.delegationIssuer F delegation).Quiet ↔
      (s.keyDelegationsGetIssuer (F.cidHash delegation) = none →
        ∀ data, (s.getBlock (F.cidHash delegation)).Returns data →
          ∀ del, F.decodeKeyDelegation data = .ok del → del.issuer ≠ []) := by
  rw [Store.delegationIssuer]
  split
  · next found => simp [found]
  · next missing =>
      simp only [missing, Attempt.quiet_bind, Store.quiet_getBlock,
        Attempt.quiet_ofExcept, Attempt.returns_ofExcept,
        Principal.quiet_unsafeString, Attempt.quiet_pure, implies_true, and_true,
        true_and, forall_const]

theorem quiet_getAuthorFromDelegation {delegation : String} :
    (s.getAuthorFromDelegation F delegation).Quiet ↔
      (s.delegationIssuer F delegation).Quiet ∧
        ∀ issuer, (s.delegationIssuer F delegation).Returns issuer →
          0 ≤ (uvarint issuer).2 := by
  simp [Store.getAuthorFromDelegation]

/-! ## Validation -/

/-- A change that proves the identifier of an entity that its author creates. -/
def Proves (v : Change) (author : Principal) : Prop :=
  ∃ nonce createTime, Object.get v.patch "nonce" = some (.bytes nonce) ∧
    Object.get v.patch "createTime" = some (.int createTime) ∧
    Object.get v.patch "owner" = some (.bytes author)

theorem quiet_verifyUnforgeableID {id : String} {owner : Principal}
    {nonce : List UInt8} {ts : Int} :
    (F.verifyUnforgeableID id owner nonce ts).Quiet ↔
      idPrefixLen ≤ id.utf8ByteSize := by
  rw [Formats.verifyUnforgeableID]
  split
  · next short => simp [short]
  · next long => simp [not_lt.mp long]

theorem quiet_validateCreate :
    (validateCreate F v author).Quiet ↔
      (Proves v author → idPrefixLen ≤ v.entity.utf8ByteSize) := by
  rw [validateCreate, Proves]
  split
  · next nonce isNonce =>
      split
      · next ct isTime =>
          split
          · next ownerField isOwner =>
              simp only [Attempt.quiet_bind, Attempt.quiet_check,
                Attempt.returns_check, quiet_verifyUnforgeableID, true_and,
                not_not, forall_const]
              constructor
              · rintro long ⟨_, _, _, _, isAuthor⟩
                rw [isOwner] at isAuthor
                exact long (by simpa using isAuthor)
              · rintro long rfl
                exact long ⟨nonce, ct, isNonce, isTime, isOwner⟩
          · next noOwner =>
              refine iff_of_true (Attempt.quiet_throw _) ?_
              rintro ⟨_, _, _, _, isOwner⟩
              exact absurd isOwner (noOwner _)
      · next noTime =>
          refine iff_of_true (Attempt.quiet_throw _) ?_
          rintro ⟨_, _, _, isTime, _⟩
          exact absurd isTime (noTime _)
  · next noNonce =>
      refine iff_of_true (Attempt.quiet_throw _) ?_
      rintro ⟨_, _, isNonce, _⟩
      exact absurd isNonce (noNonce _)

theorem quiet_validateUpdate (v : Change) : (validateUpdate v).Quiet := by
  simp [validateUpdate]

theorem quiet_validateChange :
    (validateChange F c v author).Quiet ↔
      (hasPrefix v.entity "hm://" = true → v.action = actionCreate →
        Proves v author → idPrefixLen ≤ v.entity.utf8ByteSize) := by
  rw [validateChange]
  by_cases isHM : hasPrefix v.entity "hm://" = true
  · by_cases create : v.action = actionCreate
    · have named : (actionCreate == "") = false := by decide
      simp only [isHM, create, named, beq_self_eq_true, Bool.and_false,
        Bool.and_true, Bool.false_and, Bool.false_eq_true, if_false, if_true,
        forall_const, quiet_validateCreate]
    · simp only [isHM, create, false_implies, implies_true, iff_true]
      have other : (v.action == actionCreate) = false := by simp [create]
      simp only [other, Bool.and_false, Bool.false_eq_true, if_false]
      split
      · exact Attempt.quiet_throw _
      · split
        · exact quiet_validateUpdate v
        · exact Attempt.quiet_pure _
  · simp [isHM]

/-! ## Blocks -/

/-- Every value is a map. -/
def AllMaps (object : Object) : Prop :=
  ∀ entry ∈ object, ∃ fields, entry.2 = .map fields

theorem quiet_indexBlock {block : String × Value} :
    (indexBlock F sb block).Quiet ↔ ∃ fields, block.2 = .map fields := by
  rw [indexBlock]
  split
  · next fields isMap =>
      refine iff_of_true ?_ ⟨fields, isMap⟩
      split
      · exact Attempt.quiet_pure sb
      · exact Attempt.quiet_ofExcept _
  · next other =>
      refine iff_of_false Attempt.not_quiet_abort ?_
      rintro ⟨fields, isMap⟩
      exact other fields isMap

/-- Whatever the order is, it is the values of the blocks that must be maps. -/
theorem quiet_indexBlocks (sb : StructuralBlob) :
    (∀ order, (indexBlocks F order patch sb).Quiet) ↔
      ∀ blocks, Object.get patch "blocks" = some (.map blocks) →
        AllMaps blocks := by
  constructor
  · intro quiet blocks isBlocks entry member
    rcases FieldOrder.exists_fields_eq_cons member 0 with ⟨order, rest, first⟩
    have quietOrder := quiet order
    rw [indexBlocks, isBlocks] at quietOrder
    simp only [first, List.foldlM_cons, Attempt.quiet_bind] at quietOrder
    exact quiet_indexBlock.mp quietOrder.1
  · intro allMaps order
    rw [indexBlocks]
    split
    · next blocks isBlocks =>
        apply Attempt.quiet_foldlM
        intro sb entry member
        exact quiet_indexBlock.mpr
          (allMaps blocks isBlocks entry ((order.perm 0 blocks).mem_iff.mp member))
    · exact Attempt.quiet_pure sb

theorem quiet_indexDocument :
    (∀ order, (indexDocument F order s v patch sb).Quiet) ↔
      (s.isDeleted v.entity = false →
        ∀ blocks, Object.get patch "blocks" = some (.map blocks) →
          AllMaps blocks) := by
  simp only [indexDocument, Attempt.quiet_bind, Attempt.quiet_check, true_and,
    Attempt.returns_check, Bool.not_eq_true]
  rw [← quiet_indexBlocks (F := F) (sb.withTitle (Object.get patch "title"))]
  constructor
  · exact fun quiet kept order => quiet order () kept
  · exact fun quiet order _ kept => quiet kept order

theorem quiet_indexAccount : (indexAccount s v patch sb).Quiet := by
  simp [indexAccount]

/-! ## Members -/

theorem quiet_decodePrincipal {key : String} :
    (F.decodePrincipal key).Quiet ↔
      (key ≠ "" → ∀ data, F.decodeMultibase key = .ok ('z', data) →
        0 ≤ (uvarint data).2) := by
  rw [Formats.decodePrincipal]
  split
  · next isEmpty => simp [isEmpty]
  · next named =>
      split
      · next err failed => simp [failed]
      · next enc data decoded =>
          by_cases base58 : enc = 'z'
          · simp [decoded, base58, named]
          · simp [decoded, base58]

theorem quiet_indexMember {state : Store Data × StructuralBlob}
    {entry : String × Value} :
    (indexMember F state entry).Quiet ↔ (F.decodePrincipal entry.1).Quiet := by
  rw [indexMember, Attempt.quiet_bind, and_iff_left]
  intro acc decoded
  split
  · have nonempty : acc ≠ [] := by
      rw [Formats.decodePrincipal] at decoded
      split at decoded
      · exact absurd decoded Attempt.not_returns_throw
      · split at decoded
        · exact absurd decoded Attempt.not_returns_throw
        · split at decoded
          · exact absurd decoded Attempt.not_returns_throw
          · rw [Principal.returns_decodeBytes] at decoded
            rcases decoded with ⟨-, isKey, rfl⟩
            exact Principal.ne_nil_of_uvarint isKey
    simp [quiet_ensureAccount, nonempty]
  · exact Attempt.quiet_throw _

/-- Every key decodes to the bytes of a principal without a panic. -/
def AllKeysDecode (F : Formats Data) (object : Object) : Prop :=
  ∀ entry ∈ object, entry.1 ≠ "" →
    ∀ data, F.decodeMultibase entry.1 = .ok ('z', data) → 0 ≤ (uvarint data).2

theorem quiet_indexMembers
    (allDecode : ∀ members, Object.get patch "members" = some (.map members) →
      AllKeysDecode F members) : (indexMembers F order s patch sb).Quiet := by
  rw [indexMembers]
  split
  · next members isMembers =>
      apply Attempt.quiet_foldlM
      intro state entry member
      exact quiet_indexMember.mpr (quiet_decodePrincipal.mpr
        (allDecode members isMembers entry
          ((order.perm 2 members).mem_iff.mp member)))
  · exact Attempt.quiet_pure (s, sb)

/-- The member that comes first decodes when its loop does not panic. -/
theorem decodes_of_quiet_indexMembers {members rest : Object}
    {entry : String × Value}
    (isMembers : Object.get patch "members" = some (.map members))
    (first : order.fields 2 members = entry :: rest)
    (quiet : (indexMembers F order s patch sb).Quiet) :
    (F.decodePrincipal entry.1).Quiet := by
  rw [indexMembers, isMembers] at quiet
  simp only [first, List.foldlM_cons, Attempt.quiet_bind] at quiet
  exact quiet_indexMember.mp quiet.1

theorem quiet_checkSiteURL (siteURL : String) :
    (checkSiteURL F siteURL).Quiet := by
  rw [checkSiteURL]
  split
  · exact Attempt.quiet_throw _
  · simp

theorem quiet_indexSite : (indexSite F s c v patch).Quiet := by
  rw [indexSite]
  split
  · simp [quiet_checkSiteURL]
  · exact Attempt.quiet_pure s

theorem quiet_indexContent : (indexContent F order patch sb).Quiet := by
  rw [indexContent]
  split
  · apply Attempt.quiet_foldlM
    intro sb entry _
    rw [indexContentEntry]
    split
    · exact Attempt.quiet_ofExcept _
    · exact Attempt.quiet_pure sb
  · exact Attempt.quiet_pure sb

theorem quiet_indexAuthorRole (nonempty : author ≠ []) :
    (indexAuthorRole F s v author sb).Quiet := by
  rw [indexAuthorRole]
  split
  · exact Attempt.quiet_pure _
  · simp only [currentRole, Attempt.quiet_bind, Principal.quiet_unsafeString,
      Attempt.quiet_pure, implies_true, and_true, nonempty, ne_eq,
      not_false_eq_true, true_and, Store.quiet_resourceGetOwner]
    intro _ _ owner _
    split
    · exact Attempt.quiet_pure _
    · simp

theorem quiet_checkRole (role : Int) : (checkRole v patch role).Quiet := by
  simp [checkRole]

/-- The references that can be indexed. -/
def Indexable (F : Formats Data) (rawURL : String) : Prop :=
  ∃ sb, indexURL F "" "" (newSimpleStructuralBlob "") rawURL = .ok sb

/-- Whether a reference can be indexed does not depend on where it stands. -/
theorem indexURL_isOk {anchor linkType anchor' linkType' rawURL : String}
    (isOk : ∃ sb₁, indexURL F anchor linkType sb rawURL = .ok sb₁) :
    ∃ sb₁, indexURL F anchor' linkType' sb' rawURL = .ok sb₁ := by
  rcases isOk with ⟨sb₁, isOk⟩
  rw [indexURL] at isOk ⊢
  split at isOk
  · exact ⟨sb', if_pos (by assumption)⟩
  next named =>
  rw [if_neg named]
  split at isOk
  · exact ⟨sb', rfl⟩
  next u parsed =>
  split at isOk
  · next isResource =>
      rw [if_pos isResource]
      rcases except_bind_eq_ok.mp isOk with ⟨vblobs, version, -⟩
      exact ⟨_, except_bind_eq_ok.mpr ⟨vblobs, version, rfl⟩⟩
  next notResource =>
  rw [if_neg notResource]
  split at isOk
  · next isComment =>
      rw [if_pos isComment]
      split at isOk
      · cases isOk
      · exact ⟨_, rfl⟩
  next notComment =>
  rw [if_neg notComment]
  split at isOk
  · next isBlob =>
      rw [if_pos isBlob]
      split at isOk
      · cases isOk
      · exact ⟨_, rfl⟩
  next other =>
  exact ⟨sb', if_neg other⟩

/-- The indexing of a change of a group gets as far as its members. -/
structure MembersReached (F : Formats Data) (s : Store Data) (v : Change)
    (author : Principal) : Prop where
  kept : s.isDeleted v.entity = false
  role : v.action ≠ actionCreate →
    (currentRole F (s.ensureResource v.entity) v author).Returns roleOwner
  site : ∀ siteURL, Object.get v.patch "siteURL" = some (.string siteURL) →
    (checkSiteURL F siteURL).Returns ()
  content : ∀ content, Object.get v.patch "content" = some (.map content) →
    ∀ path rawURL, (path, Value.string rawURL) ∈ content → Indexable F rawURL

theorem returns_checkRole_iff {role : Int} {value : Unit} :
    (checkRole v patch role).Returns value ↔
      role = roleOwner ∨ role = roleEditor ∧
        isSet (Object.get patch "siteURL") = false ∧
        isSet (Object.get patch "members") = false := by
  simp only [checkRole, Attempt.returns_bind, Attempt.returns_check,
    exists_const, not_and, not_not, Bool.not_eq_true]
  grind

theorem returns_indexContent_iff :
    (∃ sb', (indexContent F order patch sb).Returns sb') ↔
      ∀ content, Object.get patch "content" = some (.map content) →
        ∀ path rawURL, (path, Value.string rawURL) ∈ content →
          Indexable F rawURL := by
  rw [indexContent]
  split
  · next entries isContent =>
      constructor
      · rintro ⟨sb', returns⟩ content same path rawURL member
        rw [isContent] at same
        cases same
        rcases returns.step_of_foldlM ((order.perm 1 entries).mem_iff.mpr member)
          with ⟨before, after, step⟩
        exact indexURL_isOk ⟨after, Attempt.returns_ofExcept.mp step⟩
      · intro indexable
        apply Attempt.returns_foldlM
        rintro sb ⟨path, value⟩ member
        rw [indexContentEntry]
        split
        · next rawURL isText =>
            rcases indexURL_isOk (indexable entries isContent path rawURL
              (isText ▸ (order.perm 1 entries).mem_iff.mp member)) with ⟨sb₁, isOk⟩
            exact ⟨sb₁, Attempt.returns_ofExcept.mpr isOk⟩
        · exact ⟨sb, Attempt.returns_pure.mpr rfl⟩
  · next other =>
      refine iff_of_true ⟨sb, Attempt.returns_pure.mpr rfl⟩ ?_
      exact fun content isContent => absurd isContent (other content)

theorem returns_indexSite_iff :
    (∃ t, (indexSite F s c v patch).Returns t) ↔
      ∀ siteURL, Object.get patch "siteURL" = some (.string siteURL) →
        (checkSiteURL F siteURL).Returns () := by
  rw [indexSite]
  split
  · next siteURL isSite =>
      simp only [Attempt.returns_bind, Attempt.returns_pure, isSite,
        Option.some.injEq, Value.string.injEq, forall_eq']
      constructor
      · rintro ⟨_, ⟨⟩, valid, -⟩
        exact valid
      · exact fun valid => ⟨_, (), valid, rfl⟩
  · next other =>
      refine iff_of_true ⟨s, Attempt.returns_pure.mpr rfl⟩ ?_
      exact fun siteURL isSite => absurd isSite (other siteURL)

theorem returns_indexAuthorRole_iff {role : Int} :
    (∃ t sb', (indexAuthorRole F s v author sb).Returns (t, sb', role)) ↔
      if v.action = actionCreate then role = roleOwner
      else (currentRole F (s.ensureResource v.entity) v author).Returns role := by
  rw [indexAuthorRole]
  split
  · simp [eq_comm]
  · simp

/-- The members are only reached by an owner. -/
theorem membersReached_of_returns {members : Object} {s₁ s₂ : Store Data}
    {sb₁ sb₂ : StructuralBlob} {role : Int} {value : Unit}
    (kept : s.isDeleted v.entity = false)
    (authorRole : (indexAuthorRole F s v author sb).Returns (s₁, sb₁, role))
    (checked : (checkRole v v.patch role).Returns value)
    (site : (indexSite F s₁ c v v.patch).Returns s₂)
    (content : (indexContent F order v.patch sb₁).Returns sb₂)
    (isMembers : Object.get v.patch "members" = some (.map members)) :
    MembersReached F s v author where
  kept := kept
  role := fun update => by
    have current := returns_indexAuthorRole_iff.mp ⟨s₁, sb₁, authorRole⟩
    rw [if_neg update] at current
    rcases returns_checkRole_iff.mp checked with isOwner | ⟨-, -, unset⟩
    · exact isOwner ▸ current
    · exact absurd isMembers (get_of_not_isSet unset (by simp))
  site := returns_indexSite_iff.mp ⟨s₂, site⟩
  content := returns_indexContent_iff.mp ⟨sb₂, content⟩

theorem quiet_indexGroup (nonempty : author ≠ []) :
    (∀ order, (indexGroup F order s c v v.patch author sb).Quiet) ↔
      (MembersReached F s v author →
        ∀ members, Object.get v.patch "members" = some (.map members) →
          AllKeysDecode F members) := by
  constructor
  · intro quiet reached members isMembers entry member
    rcases FieldOrder.exists_fields_eq_cons member 2 with ⟨order, rest, first⟩
    have quietOrder := quiet order
    have ownerRole : ∃ t sb', (indexAuthorRole F s v author
        (sb.withTitle (Object.get v.patch "title"))).Returns (t, sb', roleOwner) := by
      rw [returns_indexAuthorRole_iff]
      split
      · rfl
      · next update => exact reached.role update
    rcases ownerRole with ⟨s₁, sb₁, authorRole⟩
    have checked : (checkRole v v.patch roleOwner).Returns () :=
      returns_checkRole_iff.mpr (.inl rfl)
    rcases returns_indexSite_iff.mpr reached.site with ⟨s₂, site⟩
    rcases returns_indexContent_iff.mpr reached.content with ⟨sb₂, content⟩
    simp only [indexGroup, Attempt.quiet_bind] at quietOrder
    have membersQuiet := (((((quietOrder.2 () (by simp [reached.kept])).2
      _ authorRole).2 () checked).2 s₂ site).2 sb₂ content)
    exact quiet_decodePrincipal.mp
      (decodes_of_quiet_indexMembers isMembers first membersQuiet)
  · intro allDecode order
    simp only [indexGroup, Attempt.quiet_bind, Attempt.quiet_check, true_and,
      Attempt.returns_check, Bool.not_eq_true]
    intro _ kept
    refine ⟨quiet_indexAuthorRole nonempty, ?_⟩
    rintro ⟨s₁, sb₁, role⟩ authorRole
    refine ⟨quiet_checkRole role, fun _ checked => ⟨quiet_indexSite,
      fun s₂ site => ⟨quiet_indexContent, fun sb₂ content => ?_⟩⟩⟩
    apply quiet_indexMembers
    intro members isMembers
    exact allDecode (membersReached_of_returns kept authorRole checked site content
      isMembers) members isMembers

/-! ## The whole change -/

/-- Everything that is checked before the entity of a change is looked at. -/
structure Validated (F : Formats Data) (s : Store Data) (c : String) (v : Change)
    (author : Principal) : Prop where
  authored : (s.getAuthorFromDelegation F v.delegation).Returns author
  valid : (validateChange F c v author).Returns ()
  deps : ∀ dep ∈ v.deps, s.hasBlobData F dep = true
  reencoded : ∃ patch, F.reencode v.patch = .ok patch

/-- Nothing in a change makes the indexer panic. -/
structure NeverPanics (F : Formats Data) (s : Store Data) (c : String)
    (v : Change) : Prop where
  /-- A delegation that is not indexed has an issuer. -/
  issuer_nonempty : s.keyDelegationsGetIssuer (F.cidHash v.delegation) = none →
    ∀ data, (s.getBlock (F.cidHash v.delegation)).Returns data →
      ∀ del, F.decodeKeyDelegation data = .ok del → del.issuer ≠ []
  /-- The issuer starts with a number of at most 64 bits. -/
  issuer_decodes : ∀ issuer,
    (s.delegationIssuer F v.delegation).Returns issuer → 0 ≤ (uvarint issuer).2
  /-- An identifier that is verified has a whole prefix. -/
  identifier : ∀ author,
    (s.getAuthorFromDelegation F v.delegation).Returns author →
    hasPrefix v.entity "hm://" = true → v.action = actionCreate →
    Proves v author → idPrefixLen ≤ v.entity.utf8ByteSize
  /-- The blocks of a document are maps. -/
  blocks : ∀ author, Validated F s c v author →
    hasPrefix v.entity "hm://d/" = true → s.isDeleted v.entity = false →
    ∀ blocks, Object.get v.patch "blocks" = some (.map blocks) → AllMaps blocks
  /-- The members of a group start with a number of at most 64 bits. -/
  members : ∀ author, Validated F s c v author →
    hasPrefix v.entity "hm://g/" = true → MembersReached F s v author →
    ∀ members, Object.get v.patch "members" = some (.map members) →
      AllKeysDecode F members

theorem quiet_saveBlob {hash : String} {b : StructuralBlob}
    (isAuthor : b.author = some author)
    (isOwner : b.resourceOwner = some author) (nonempty : author ≠ []) :
    (s.saveBlob F hash b).Quiet := by
  have quietTime : ∀ (s : Store Data) iri createTime,
      (s.ensureCreateTime iri createTime).Quiet := by
    intro s iri createTime
    cases createTime with
    | none => exact Attempt.quiet_pure s
    | some ts => simp [Store.ensureCreateTime]
  have quietResource : ∀ s : Store Data, (s.saveResource b).Quiet := by
    intro s
    rw [Store.saveResource]
    split
    · exact Attempt.quiet_pure s
    · simp [Store.ensureResourceMetadata, isOwner, Store.ensureOwner, nonempty,
        quietTime]
  simp [Store.saveBlob, isAuthor, Store.saveAuthor, quiet_ensureAccount, nonempty,
    quietResource]

theorem quiet_addDeps : (addDeps F s c v sb).Quiet := by
  rw [addDeps]
  apply Attempt.quiet_foldlM
  intro sb dep _
  simp

theorem quiet_indexEntity (nonempty : author ≠ []) :
    (∀ order, (indexEntity F order s c v v.patch author sb).Quiet) ↔
      (hasPrefix v.entity "hm://d/" = true → s.isDeleted v.entity = false →
        ∀ blocks, Object.get v.patch "blocks" = some (.map blocks) →
          AllMaps blocks) ∧
      (hasPrefix v.entity "hm://g/" = true → MembersReached F s v author →
        ∀ members, Object.get v.patch "members" = some (.map members) →
          AllKeysDecode F members) := by
  have exclusive : ∀ start start' : String,
      start.toList.length = start'.toList.length → start ≠ start' →
      hasPrefix v.entity start = true → ¬ hasPrefix v.entity start' = true :=
    fun _ _ sameLength other isStart isOther =>
      other (eq_of_hasPrefix isStart isOther sameLength)
  by_cases isAccount : hasPrefix v.entity "hm://a/" = true
  · have notDocument := exclusive "hm://a/" "hm://d/" (by decide) (by decide) isAccount
    have notGroup := exclusive "hm://a/" "hm://g/" (by decide) (by decide) isAccount
    simp [indexEntity, isAccount, notDocument, notGroup, quiet_indexAccount]
  · by_cases isDocument : hasPrefix v.entity "hm://d/" = true
    · have notGroup := exclusive "hm://d/" "hm://g/" (by decide) (by decide) isDocument
      simp only [indexEntity, isAccount, isDocument, if_true, if_false, notGroup,
        false_implies, and_true, forall_const, Attempt.quiet_bind,
        Attempt.quiet_pure, implies_true, Bool.false_eq_true]
      exact quiet_indexDocument
    · by_cases isGroup : hasPrefix v.entity "hm://g/" = true
      · simp only [indexEntity, isAccount, isDocument, isGroup, if_true, if_false,
          false_implies, true_and, forall_const, Bool.false_eq_true]
        exact quiet_indexGroup nonempty
      · simp [indexEntity, isAccount, isDocument, isGroup]

/-- The indexing of the entity decides whether a validated change panics. -/
theorem quiet_indexChange :
    (indexChange F order s c v).Quiet ↔
      (s.getAuthorFromDelegation F v.delegation).Quiet ∧
        ∀ author, (s.getAuthorFromDelegation F v.delegation).Returns author →
          (validateChange F c v author).Quiet ∧
            (Validated F s c v author →
              (indexEntity F order s c v v.patch author
                (linkedBlob v author)).Quiet) := by
  simp only [indexChange, Attempt.quiet_bind, quiet_addDeps, true_and,
    Attempt.quiet_ofExcept, Attempt.returns_ofExcept]
  apply and_congr_right
  intro _
  apply forall_congr'
  intro author
  apply forall_congr'
  intro authored
  apply and_congr_right
  intro _
  constructor
  · rintro quiet ⟨-, valid, deps, patch, reencoded⟩
    have same := F.reencode_eq _ _ reencoded
    rw [← same]
    exact (quiet () valid _ (addDeps_returns v.deps _ |>.mpr ⟨deps, rfl⟩)
      patch reencoded).1
  · intro quiet _ valid sb added patch reencoded
    rcases (addDeps_returns v.deps _).mp added with ⟨deps, rfl⟩
    have same := F.reencode_eq _ _ reencoded
    rw [same] at reencoded ⊢
    refine ⟨quiet ⟨authored, valid, deps, _, reencoded⟩, ?_⟩
    rintro ⟨s₁, sb₁⟩ entity
    have extended := (entityIndexed_of_returns entityLinks_true entity).2.1
    exact quiet_saveBlob extended.author extended.resourceOwner
      (author_ne_nil authored)

/-- A change is indexed without a panic exactly when nothing in it panics. -/
theorem indexChange_never_panics_iff (F : Formats Data) (s : Store Data)
    (c : String) (v : Change) :
    (∀ order, (indexChange F order s c v).Quiet) ↔ NeverPanics F s c v := by
  simp only [quiet_indexChange, quiet_getAuthorFromDelegation,
    quiet_delegationIssuer, quiet_validateChange]
  constructor
  · intro quiet
    have known := quiet .listed
    have entity : ∀ author, Validated F s c v author → ∀ order,
        (indexEntity F order s c v v.patch author (linkedBlob v author)).Quiet :=
      fun author validated order =>
        ((quiet order).2 author validated.authored).2 validated
    exact {
      issuer_nonempty := known.1.1
      issuer_decodes := known.1.2
      identifier := fun author authored => (known.2 author authored).1
      blocks := fun author validated =>
        ((quiet_indexEntity (author_ne_nil validated.authored)).mp
          (entity author validated)).1
      members := fun author validated =>
        ((quiet_indexEntity (author_ne_nil validated.authored)).mp
          (entity author validated)).2 }
  · intro never order
    refine ⟨⟨never.issuer_nonempty, never.issuer_decodes⟩, fun author authored =>
      ⟨never.identifier author authored, fun validated => ?_⟩⟩
    exact (quiet_indexEntity (author_ne_nil authored)).mpr
      ⟨never.blocks author validated, never.members author validated⟩ order

end Panics

/-- An update of a document with a block that is a number. -/
def numberBlockChange : Change where
  deps := ["cdelegation"]
  delegation := "cdelegation"
  action := actionUpdate
  hlcTime := 1700000001000000
  entity := "hm://d/document"
  patch := [("blocks", .map [("b1", .int 1)])]
  signer := samplePrincipal 2
  sig := "signature"

/-- The value of a block is used as a map without a check. -/
theorem number_block_panics :
    ∃ s, Reaches (accept (sampleFormats fun _ => "")) (fun _ _ => True) .empty s ∧
      ¬ (indexChange (sampleFormats fun _ => "") .listed s "cchange"
        numberBlockChange).Quiet := by
  refine ⟨_, reaches_get
    [⟨.listed, "cdelegation", .keyDelegation (sampleDelegation 1 2)⟩] rfl, ?_⟩
  apply Attempt.not_quiet_of_error
  rfl

end Mintter.Hyper
