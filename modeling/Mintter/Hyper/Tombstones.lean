import Mintter.Hyper.Kept
import Mintter.Hyper.Reindex

/-!
# Entities that were deleted

Indexing rejects the changes of a deleted entity and the comments about it.  The
kind of the entity decides where a change is checked, and for a comment the part of
its target before `?v=` is looked up, while the link to the target comes from the
parsed URL.  `deleted_entities_stay_deleted` is about the blobs for which both agree.
-/

namespace Mintter.Hyper

open Mintter.Foundation
open Mintter.Crdt2

variable {Data : Type}

/-! ## Calls that leave the deleted entities alone -/

/-- A transaction of the store, or the reindexing of all blobs when it is opened. -/
abbrev StoreAction (Data : Type) := StoreCall Data ⊕ (String → FieldOrder)

/-- Perform a call, or index all blobs again. -/
def act (F : Formats Data) (s : Store Data) : StoreAction Data → Option (Store Data)
  | .inl storeCall => call F s storeCall
  | .inr order => (reindex F order s).returned

/-- The action does not bring the entity back. -/
def KeepsTombstone (eid : String) (_ : Store Data) : StoreAction Data → Prop
  | .inl storeCall => Restores (· ≠ eid) storeCall
  | .inr _ => True

section Actions

variable {F : Formats Data} {order : FieldOrder} {s t : Store Data}
variable {c eid hash : String}

theorem deleted_deleteBlobs {chosen : String → Bool}
    (returns : (s.deleteBlobs chosen).Returns t) :
    t.deletedResources = s.deletedResources := by
  rw [Store.deleteBlobs] at returns
  split at returns
  · exact absurd returns Attempt.not_returns_throw
  · rw [← Attempt.returns_pure.mp returns]

theorem deleted_indexBlob {blob : DecodedBlob}
    (returns : (indexBlob F order s c blob).Returns t) :
    t.deletedResources = s.deletedResources :=
  (grows_of_indexedBlob (indexedBlob_of_returns returns)).deleted

theorem deleted_reindexRow {order : String → FieldOrder} {row : BlobRow Data}
    (returns : (reindexRow F order s row).Returns t) :
    t.deletedResources = s.deletedResources := by
  rw [reindexRow] at returns
  split at returns
  · rw [← Attempt.returns_pure.mp returns]
  · split at returns
    · rw [← Attempt.returns_pure.mp returns]
    · split at returns
      · exact absurd returns Attempt.not_returns_throw
      · dsimp only at returns
        split at returns
        · rw [← Attempt.returns_pure.mp returns]
        · exact deleted_indexBlob returns

theorem deleted_reindex {order : String → FieldOrder}
    (returns : (reindex F order s).Returns t) :
    t.deletedResources = s.deletedResources := by
  have each : ∀ before row after, row ∈ s.blobs.insertionSort (·.id ≤ ·.id) →
      before.deletedResources = s.deletedResources →
      (reindexRow F order before row).Returns after →
      after.deletedResources = s.deletedResources :=
    fun before row after _ same indexed => (deleted_reindexRow indexed).trans same
  have kept := returns.foldlM_invariant each rfl
  exact kept

theorem isDeleted_congr (same : t.deletedResources = s.deletedResources) (eid : String) :
    t.isDeleted eid = s.isDeleted eid := by
  rw [Store.isDeleted, Store.isDeleted, same]

theorem isDeleted_of_mem (member : eid ∈ s.deletedResources) : s.isDeleted eid = true :=
  List.contains_iff_mem.mpr member

theorem mem_of_isDeleted (isDeleted : s.isDeleted eid = true) : eid ∈ s.deletedResources :=
  List.contains_iff_mem.mp isDeleted

/-- No operation but undeleting the entity forgets that it was deleted. -/
theorem tombstone_kept (F : Formats Data) (eid : String) :
    KeptByOperations F (· ≠ eid) fun s : Store Data => s.isDeleted eid = true where
  putBlock := by
    intro s t inID codec hash data found returns isDeleted
    rcases putBlock_cases returns with rfl | rfl | ⟨-, rfl | rfl⟩ <;> exact isDeleted
  indexBlob := fun s t _ _ _ returns isDeleted =>
    (isDeleted_congr (deleted_indexBlob returns) eid).trans isDeleted
  deleteBlobs := fun s t chosen returns isDeleted =>
    (isDeleted_congr (deleted_deleteBlobs returns) eid).trans isDeleted
  emptyBlobs := fun _ _ isDeleted => isDeleted
  touch := fun _ _ isDeleted => isDeleted
  others := fun s t _ _ _ same isDeleted => (isDeleted_congr same eid).trans isDeleted
  insertRemoved := by
    intro s t eid' returns isDeleted
    rw [Store.entitiesInsertRemovedRecord] at returns
    split at returns
    · exact absurd returns Attempt.not_returns_throw
    · rcases Attempt.returns_pure.mp returns with rfl
      exact isDeleted_of_mem (List.mem_append_left _ (mem_of_isDeleted isDeleted))
  deleteRemoved := by
    intro s eid' other isDeleted
    apply isDeleted_of_mem
    rw [Store.entitiesDeleteRemovedRecord, List.mem_filter]
    exact ⟨mem_of_isDeleted isDeleted, decide_eq_true (Ne.symm other)⟩

/-- Only undeleting brings an entity back. -/
theorem isDeleted_act {action : StoreAction Data} (isDeleted : s.isDeleted eid = true)
    (keeps : KeepsTombstone eid s action) (acted : act F s action = some t) :
    t.isDeleted eid = true := by
  cases action with
  | inl storeCall => exact (tombstone_kept F eid).call keeps acted isDeleted
  | inr order =>
      have returns := Attempt.returned_eq_some.mp acted
      exact (isDeleted_congr (deleted_reindex returns) eid).trans isDeleted

theorem isDeleted_of_reaches (isDeleted : s.isDeleted eid = true)
    (run : Reaches (act F) (KeepsTombstone eid) s t) : t.isDeleted eid = true := by
  have kept := run.invariant
    (fun before _ _ (deletedBefore : before.isDeleted eid = true) => isDeleted_act
      deletedBefore) isDeleted
  exact kept

/-- An entity that was deleted is remembered. -/
theorem isDeleted_of_deleteEntity (returns : (deleteEntity F s eid).1.Returns ()) :
    (deleteEntity F s eid).2.isDeleted eid = true := by
  rw [deleteEntity] at returns ⊢
  split at returns
  · exact absurd returns Attempt.not_returns_throw
  · next nonempty =>
      rw [if_neg nonempty]
      dsimp only at returns ⊢
      split at returns
      · exact absurd returns Attempt.not_returns_throw
      · next there =>
          rw [if_neg there]
          split at returns
          · exact absurd returns Attempt.not_returns_throw
          · next t inserted =>
              have isInserted := Attempt.returned_eq_some.mp inserted
              rw [Store.entitiesInsertRemovedRecord] at isInserted
              split at isInserted
              · exact absurd isInserted Attempt.not_returns_throw
              · rw [← Attempt.returns_pure.mp isInserted, Store.isDeleted]
                simp

end Actions

/-! ## Blobs about an entity -/

/-- The resource that the target of a comment is resolved to when it is indexed. -/
def ResolvesTo (F : Formats Data) (target eid : String) : Prop :=
  ∃ u, F.parseURL target = .ok u ∧ u.scheme = "hm" ∧ u.host ≠ "c" ∧
    "hm://" ++ u.host ++ u.path = eid

/-- The blob is a change of the entity or a comment about it. -/
def About (F : Formats Data) (eid : String) : DecodedBlob → Prop
  | .change ch => ch.entity = eid
  | .comment cm => ResolvesTo F cm.target eid
  | _ => False

/-- An account, a document or a group. -/
def isKnownKind (eid : String) : Bool :=
  hasPrefix eid "hm://a/" || hasPrefix eid "hm://d/" || hasPrefix eid "hm://g/"

/--
Indexing looks up the entity that the blob is about: the kind of the entity of a
change is known, and the target of a comment continues behind its resource with
nothing or with `?v=`.
-/
def LooksUp (F : Formats Data) (eid : String) : DecodedBlob → Prop
  | .change ch => ch.entity = eid → isKnownKind eid = true
  | .comment cm => ResolvesTo F cm.target eid → cutBefore "?v=" cm.target = eid
  | _ => True

section Tombstones

variable {F : Formats Data} {order : FieldOrder} {s t : Store Data} {c eid : String}
variable {blob : DecodedBlob}

/-- The links that indexing a URL adds go to the resource that it resolves to. -/
theorem resolvesTo_of_indexURL {sb sb' : StructuralBlob} {anchor linkType target : String}
    (indexed : indexURL F anchor linkType sb target = .ok sb')
    (noLink : sb.resourceLinks = []) {link : ResourceLink}
    (isLink : link ∈ sb'.resourceLinks) : ResolvesTo F target link.2.1 := by
  have isNew : link ∉ sb.resourceLinks := by
    rw [noLink]
    exact List.not_mem_nil
  rw [indexURL] at indexed
  split at indexed
  · exact absurd (Except.ok.inj indexed ▸ isLink) isNew
  · split at indexed
    · exact absurd (Except.ok.inj indexed ▸ isLink) isNew
    next u parsed =>
    split at indexed
    · next isResource =>
        rcases except_bind_eq_ok.mp indexed with ⟨vblobs, -, added⟩
        rw [← Except.ok.inj added, foldl_addBlobLink] at isLink
        simp only [StructuralBlob.addLinks, StructuralBlob.addResourceLink, noLink,
          List.nil_append, List.append_nil, List.mem_singleton] at isLink
        exact ⟨u, parsed, isResource.1, isResource.2, by rw [isLink]⟩
    · split at indexed
      · split at indexed
        · cases indexed
        · rw [← Except.ok.inj indexed] at isLink
          exact absurd isLink isNew
      · split at indexed
        · split at indexed
          · cases indexed
          · rw [← Except.ok.inj indexed] at isLink
            exact absurd isLink isNew
        · exact absurd (Except.ok.inj indexed ▸ isLink) isNew

/-- Every change of a known kind is checked in the branch of its kind. -/
theorem not_deleted_of_indexChange {ch : Change}
    (indexed : (indexChange F order s c ch).Returns t)
    (known : isKnownKind ch.entity = true) : s.isDeleted ch.entity = false := by
  rcases indexedChange_of_returns indexed with ⟨author, sb, s₁, isIndexed⟩
  have entity := isIndexed.entity
  rw [indexEntity] at entity
  split at entity
  · simp only [indexAccount, Attempt.returns_bind, Attempt.returns_check] at entity
    rcases entity with ⟨-, ⟨-, notDeleted, -⟩, -⟩
    exact Bool.eq_false_iff.mpr notDeleted
  · next notAccount =>
      split at entity
      · simp only [indexDocument, Attempt.returns_bind, Attempt.returns_check] at entity
        rcases entity with ⟨-, ⟨-, notDeleted, -⟩, -⟩
        exact Bool.eq_false_iff.mpr notDeleted
      · next notDocument =>
          split at entity
          · simp only [indexGroup, Attempt.returns_bind, Attempt.returns_check] at entity
            exact Bool.eq_false_iff.mpr entity.choose_spec.1
          · next notGroup =>
              rw [isKnownKind, Bool.eq_false_iff.mpr notAccount,
                Bool.eq_false_iff.mpr notDocument, Bool.eq_false_iff.mpr notGroup] at known
              cases known

/-- Of a comment the part of the target before the version is looked up. -/
theorem not_deleted_of_indexComment {cm : Comment}
    (indexed : (indexComment F s c cm).Returns t) :
    s.isDeleted (cutBefore "?v=" cm.target) = false := by
  simp only [indexComment, Attempt.returns_bind, Attempt.returns_check] at indexed
  rcases indexed with ⟨-, -, -, -, -, notDeleted, -⟩
  exact Bool.eq_false_iff.mpr notDeleted

theorem not_about_of_isDeleted (isDeleted : s.isDeleted eid = true)
    (accepted : (indexBlob F order s c blob).Returns t) (looksUp : LooksUp F eid blob) :
    ¬ About F eid blob := by
  intro about
  cases blob with
  | dagPB links => exact about
  | keyDelegation kd => exact about
  | change ch =>
      have isEntity : ch.entity = eid := about
      have known : isKnownKind ch.entity = true := isEntity ▸ looksUp isEntity
      have kept := not_deleted_of_indexChange accepted known
      rw [isEntity, isDeleted] at kept
      cases kept
  | comment cm =>
      have kept := not_deleted_of_indexComment accepted
      rw [looksUp about, isDeleted] at kept
      cases kept

/--
After an entity was deleted, and as long as it is not undeleted, indexing accepts no
blob about it that it looks the entity up for: neither a change of it nor a comment
whose target resolves to it.  This holds in the course of an action, too, where only
the deleted entities are the same.
-/
theorem deleted_entities_stay_deleted
    (deleted : (deleteEntity F s eid).1.Returns ())
    (run : Reaches (act F) (KeepsTombstone eid) (deleteEntity F s eid).2 t)
    {u v : Store Data} (same : u.deletedResources = t.deletedResources)
    (accepted : (indexBlob F order u c blob).Returns v) (looksUp : LooksUp F eid blob) :
    ¬ About F eid blob ∧
      ∀ cm sb sb', blob = .comment cm → sb.resourceLinks = [] →
        indexURL F "" "comment/target" sb cm.target = .ok sb' →
        ∀ link ∈ sb'.resourceLinks, link.2.1 ≠ eid := by
  have isDeleted : u.isDeleted eid = true :=
    (isDeleted_congr same eid).trans
      (isDeleted_of_reaches (isDeleted_of_deleteEntity deleted) run)
  have notAbout := not_about_of_isDeleted isDeleted accepted looksUp
  constructor
  · exact notAbout
  · rintro cm sb sb' rfl noLink indexed link isLink rfl
    exact notAbout (resolvesTo_of_indexURL indexed noLink isLink)

end Tombstones

/-! ## A deleted document -/

section Samples

/-- A comment on a target. -/
def commentOn (target : String) (time : Int) : Comment where
  delegation := "cdelegation1"
  target := target
  threadRoot := ""
  repliedComment := ""
  hlcTime := time
  body := []
  signer := samplePrincipal 11
  sig := "signature"

/-- A comment about the document is stored before the document is deleted. -/
def commentedCalls : List (StoreAction DecodedBlob) :=
  [.inl (.put ⟨.listed, "cdelegation1", .keyDelegation (sampleDelegation 1 11)⟩),
    .inl (.put ⟨.listed, "ccomment", .comment (commentOn "hm://d/doc" 1)⟩)]

def commentedCallsResult : Evaluated (performAll (act (urlFormats sampleSha256)) .empty
    commentedCalls) :=
  .of (by decide +kernel)

theorem commentedCalls_succeed : (performAll (act (urlFormats sampleSha256)) .empty
    commentedCalls).isSome = true :=
  commentedCallsResult.isSome

/-- A store with a document and a comment on it. -/
def commentedStore : Store DecodedBlob :=
  (performAll (act (urlFormats sampleSha256)) .empty commentedCalls).get
    commentedCalls_succeed

theorem document_is_deleted :
    (deleteEntity (urlFormats sampleSha256) commentedStore "hm://d/doc").1.Returns () := by
  decide +kernel

/-- The store without the document. -/
def emptiedStore : Store DecodedBlob :=
  (deleteEntity (urlFormats sampleSha256) commentedStore "hm://d/doc").2

/-- A comment that asks for the latest version of the document. -/
def lateComment : DecodedBlob := .comment (commentOn "hm://d/doc?l" 2)

def lateCommentResult : Evaluated (indexBlob (urlFormats sampleSha256) .listed emptiedStore
    "clate" lateComment).returned :=
  .of (by decide +kernel)

theorem lateComment_accepted : (indexBlob (urlFormats sampleSha256) .listed emptiedStore
    "clate" lateComment).returned.isSome = true :=
  lateCommentResult.isSome

theorem lateComment_about : About (urlFormats sampleSha256) "hm://d/doc" lateComment :=
  ⟨sampleURL "hm://d/doc?l", rfl, by decide +kernel, by decide +kernel, by decide +kernel⟩

theorem not_deleted_entities_stay_deleted :
    ¬ ∀ (s t : Store DecodedBlob) (eid : String),
      Reaches (act (urlFormats sampleSha256)) (fun _ _ => True) .empty s →
      (deleteEntity (urlFormats sampleSha256) s eid).1.Returns () →
      Reaches (act (urlFormats sampleSha256)) (KeepsTombstone eid)
        (deleteEntity (urlFormats sampleSha256) s eid).2 t →
      ∀ c blob v, (indexBlob (urlFormats sampleSha256) .listed t c blob).Returns v →
        ¬ About (urlFormats sampleSha256) eid blob := by
  intro claimed
  apply claimed commentedStore emptiedStore "hm://d/doc"
    (reaches_get commentedCalls commentedCalls_succeed) document_is_deleted .refl
    "clate" lateComment _ _ lateComment_about
  · exact (indexBlob (urlFormats sampleSha256) .listed emptiedStore "clate"
      lateComment).returned.get lateComment_accepted
  · exact Attempt.returned_eq_some.mp (Option.some_get lateComment_accepted).symm

/-- A comment about another document, which is put and then indexed again. -/
def otherCalls : List (StoreAction DecodedBlob) :=
  [.inl (.put ⟨.listed, "cother", .comment (commentOn "hm://d/other?l" 2)⟩),
    .inr fun _ => .listed]

def otherCallsResult : Evaluated (performAll (act (urlFormats sampleSha256)) emptiedStore
    otherCalls) :=
  .of (by decide +kernel)

theorem otherCalls_succeed : (performAll (act (urlFormats sampleSha256)) emptiedStore
    otherCalls).isSome = true :=
  otherCallsResult.isSome

/-- The store after other calls. -/
def otherStore : Store DecodedBlob :=
  (performAll (act (urlFormats sampleSha256)) emptiedStore otherCalls).get
    otherCalls_succeed

/-- A comment on another document. -/
def otherComment : DecodedBlob := .comment (commentOn "hm://d/other" 3)

def otherCommentResult : Evaluated (indexBlob (urlFormats sampleSha256) .listed otherStore
    "clater" otherComment).returned :=
  .of (by decide +kernel)

theorem otherComment_accepted : (indexBlob (urlFormats sampleSha256) .listed otherStore
    "clater" otherComment).returned.isSome = true :=
  otherCommentResult.isSome

theorem deleted_entities_stay_deleted_otherStore :
    ¬ About (urlFormats sampleSha256) "hm://d/doc" otherComment := by
  have run : Reaches (act (urlFormats sampleSha256)) (KeepsTombstone "hm://d/doc")
      emptiedStore otherStore := by
    apply reaches_of_performAll _ (Option.some_get otherCalls_succeed).symm
    apply allPermitted_of_forall
    intro action member _
    fin_cases member
    · exact trivial
    · exact trivial
  have looksUp : LooksUp (urlFormats sampleSha256) "hm://d/doc" otherComment := by
    rintro ⟨u, parsed, -, -, same⟩
    cases parsed
    exact absurd same (by decide +kernel)
  have accepted := Attempt.returned_eq_some.mp (Option.some_get otherComment_accepted).symm
  exact (deleted_entities_stay_deleted document_is_deleted run rfl accepted looksUp).1

end Samples

end Mintter.Hyper
