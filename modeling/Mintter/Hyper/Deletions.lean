import Mintter.Hyper.Lifecycle
import Mintter.Hyper.Membership

/-!
# Deleting an entity

The comments on an entity are deleted in one transaction, its changes in another one, and that it
was deleted is remembered in a third.  The error of the first is dropped, and the third fails for
an entity that was deleted before, when the other two are done.

`deleteEntity_allOrNothing_iff` says in which stores the whole is still all or nothing.
-/

namespace Mintter.Hyper

open Mintter.Foundation
open Mintter.Crdt2

variable {Data : Type}

/-! ## What is deleted -/

/-- The data of a blob, if it has any. -/
def Store.dataOf (s : Store Data) (hash : String) : Option Data :=
  (s.blobRow hash).bind (·.data)

section Taken

variable (F : Formats Data) (s : Store Data) (eid : String)

/-- The comment that a blob holds. -/
def commentOf (hash : String) : Option Comment :=
  (s.dataOf hash).bind fun data => (F.decodeComment data).toOption

/-- A comment and what it replies to. -/
def withReplied (hash : String) (cmt : Comment) : List String :=
  if cmt.repliedComment = "" then [hash] else [hash, F.cidHash cmt.repliedComment]

/--
Go through comments: those whose target is written as the entity are taken away, with what they
reply to, unless they were taken away before.
-/
def takeAway : List ResourceLinkRow → List String → List String
  | [], taken => taken
  | link :: rest, taken =>
      if link.source ∈ taken then takeAway rest taken
      else match commentOf F s link.source with
        | none => takeAway rest taken
        | some cmt =>
            if cutBefore "?v=" cmt.target = eid then
              takeAway rest (taken ++ withReplied F link.source cmt)
            else takeAway rest taken

/-- A row refers to the blob: a key delegation, or a link of another blob that stays. -/
def Store.isReferred (s : Store Data) (removed : List String) (hash : String) : Bool :=
  s.blobLinks.any (fun link =>
    link.target == hash && !(link.source == hash) && !removed.contains link.source) ||
    s.keyDelegations.any fun row => row.blob == hash

/-- Blobs that are taken away are removed, one after another, unless a row refers to them. -/
def Store.removeFree (s : Store Data) (removed hashes : List String) : List String :=
  hashes.foldl (fun removed hash =>
    if s.isReferred removed hash then removed else removed ++ [hash]) removed

end Taken

/-! ## Deleting rows -/

section Rows

variable {s t : Store Data} {chosen : String → Bool} {hash hash' : String}

theorem blobRow_deleteBlobs (returns : (s.deleteBlobs chosen).Returns t) (hash : String) :
    t.blobRow hash = if chosen hash then none else s.blobRow hash := by
  rw [Store.deleteBlobs] at returns
  split at returns
  · exact absurd returns Attempt.not_returns_throw
  · rcases Attempt.returns_pure.mp returns with rfl
    rw [Store.blobRow, List.find?_filter, Store.blobRow]
    by_cases isChosen : chosen hash = true
    · rw [if_pos isChosen]
      apply List.find?_eq_none.mpr
      intro row _
      simp only [decide_eq_true_eq, Bool.not_eq_true', beq_iff_eq, not_and]
      rintro kept rfl
      rw [kept] at isChosen
      exact absurd isChosen Bool.false_ne_true
    · rw [if_neg isChosen]
      congr 1
      funext row
      by_cases same : row.multihash = hash
      · simp [same, isChosen]
      · simp [same]

theorem blobRow_emptyBlobs (hash : String) :
    (s.emptyBlobs chosen).blobRow hash = (s.blobRow hash).map fun row =>
      if chosen row.multihash then { row with data := none, size := -1 } else row := by
  rw [Store.emptyBlobs, Store.blobRow, List.find?_map, Store.blobRow]
  congr 2
  funext row
  by_cases isChosen : chosen row.multihash = true
  · simp [isChosen]
  · simp [isChosen]

theorem multihash_of_blobRow {row : BlobRow Data} (found : s.blobRow hash = some row) :
    row.multihash = hash := by
  have isRow := List.find?_some found
  simpa using isRow

theorem dataOf_emptyBlobs (hash : String) :
    (s.emptyBlobs chosen).dataOf hash = if chosen hash then none else s.dataOf hash := by
  rw [Store.dataOf, blobRow_emptyBlobs, Store.dataOf]
  cases found : s.blobRow hash with
  | none => simp
  | some row =>
      rw [Option.map_some, multihash_of_blobRow found, Option.bind_some, Option.bind_some]
      by_cases isChosen : chosen hash = true
      · rw [if_pos isChosen, if_pos isChosen]
      · rw [if_neg isChosen, if_neg isChosen]

theorem blobRow_emptyBlobs_of_not (kept : chosen hash = false) :
    (s.emptyBlobs chosen).blobRow hash = s.blobRow hash := by
  rw [blobRow_emptyBlobs]
  cases found : s.blobRow hash with
  | none => exact rfl
  | some row => rw [Option.map_some, multihash_of_blobRow found, kept, if_neg Bool.false_ne_true]

end Rows

/-! ## The comments -/

section Comments

variable {F : Formats Data} {s s₁ t : Store Data} {eid hash : String} {taken : List String}

/-- A store after blobs were deleted or have lost their data. -/
structure Pruned (s : Store Data) (taken : List String) (t : Store Data) : Prop where
  kept : ∀ hash ∉ taken, t.blobRow hash = s.blobRow hash
  gone : ∀ hash ∈ taken, t.dataOf hash = none
  rows : ∀ row ∈ t.structuralBlobs, row ∈ s.structuralBlobs
  keptRows : ∀ row ∈ s.structuralBlobs, row.blob ∉ taken → row ∈ t.structuralBlobs
  resources : t.resources = s.resources
  deleted : t.deletedResources = s.deletedResources

theorem Pruned.refl (s : Store Data) : Pruned s [] s :=
  ⟨fun _ _ => rfl, nofun, fun _ isRow => isRow, fun _ isRow _ => isRow, rfl, rfl⟩

theorem Pruned.dataOf (pruned : Pruned s taken t) (hash : String) :
    t.dataOf hash = if hash ∈ taken then none else s.dataOf hash := by
  by_cases isTaken : hash ∈ taken
  · rw [if_pos isTaken]
    exact pruned.gone hash isTaken
  · rw [if_neg isTaken, Store.dataOf, pruned.kept hash isTaken]
    exact rfl

theorem Pruned.trans {taken' : List String} (first : Pruned s taken s₁)
    (second : Pruned s₁ taken' t) : Pruned s (taken ++ taken') t where
  kept := by
    intro hash notTaken
    rw [List.mem_append, not_or] at notTaken
    exact (second.kept hash notTaken.2).trans (first.kept hash notTaken.1)
  gone := by
    intro hash isTaken
    rw [second.dataOf]
    by_cases later : hash ∈ taken'
    · rw [if_pos later]
    · rw [if_neg later]
      exact first.gone hash ((List.mem_append.mp isTaken).resolve_right later)
  rows := fun row isRow => first.rows row (second.rows row isRow)
  keptRows := by
    intro row isRow notTaken
    rw [List.mem_append, not_or] at notTaken
    exact second.keptRows row (first.keptRows row isRow notTaken.1) notTaken.2
  resources := second.resources.trans first.resources
  deleted := second.deleted.trans first.deleted

theorem pruned_deleteBlobs (returns : (s.blobsDelete hash).Returns t) : Pruned s [hash] t := by
  have blobRow := blobRow_deleteBlobs returns
  rw [Store.blobsDelete, Store.deleteBlobs] at returns
  split at returns
  · exact absurd returns Attempt.not_returns_throw
  · rcases Attempt.returns_pure.mp returns with rfl
    constructor
    · intro hash' other
      rw [blobRow, if_neg]
      rw [beq_iff_eq]
      exact List.ne_of_not_mem_cons other
    · intro hash' same
      rw [Store.dataOf, blobRow, List.mem_singleton.mp same, if_pos (beq_self_eq_true hash)]
      exact rfl
    · exact fun row isRow => (List.mem_filter.mp isRow).1
    · intro row isRow other
      apply List.mem_filter.mpr ⟨isRow, _⟩
      simpa using List.ne_of_not_mem_cons other
    · exact rfl
    · exact rfl

theorem pruned_blobsEmptyByHash (s : Store Data) (hash : String) :
    Pruned s [hash] (s.blobsEmptyByHash hash) where
  kept := by
    intro hash' other
    apply blobRow_emptyBlobs_of_not
    simpa using List.ne_of_not_mem_cons other
  gone := by
    intro hash' same
    rw [Store.blobsEmptyByHash, dataOf_emptyBlobs, List.mem_singleton.mp same,
      if_pos (beq_self_eq_true hash)]
  rows := fun _ isRow => isRow
  keptRows := fun _ isRow _ => isRow
  resources := rfl
  deleted := rfl

theorem pruned_deleteOrEmpty (s : Store Data) (hash : String) :
    Pruned s [hash] (deleteOrEmpty s hash) := by
  rw [deleteOrEmpty]
  cases deleted : (s.blobsDelete hash).returned with
  | none => exact pruned_blobsEmptyByHash s hash
  | some t => exact pruned_deleteBlobs (Attempt.returned_eq_some.mp deleted)

theorem Pruned.deleteAll (pruned : Pruned s taken s₁) (hashes : List String) :
    Pruned s (taken ++ hashes) (hashes.foldl deleteOrEmpty s₁) := by
  induction hashes generalizing taken s₁ with
  | nil => rwa [List.append_nil]
  | cons hash rest induction =>
      rw [List.append_cons]
      exact induction (pruned.trans (pruned_deleteOrEmpty s₁ hash))

/-- A comment without a row is skipped. -/
theorem deleteComment_of_missing {link : ResourceLinkRow} (missing : s.blobRow link.source = none) :
    (deleteComment F eid s link).Returns t ↔ s = t := by
  rw [deleteComment, missing]
  exact Attempt.returns_pure

/-- A comment that cannot be decoded is in the way. -/
theorem not_returns_deleteComment {link : ResourceLinkRow}
    (stored : s.blobRow link.source ≠ none) (noComment : commentOf F s link.source = none) :
    ¬ (deleteComment F eid s link).Returns t := by
  intro returns
  rcases Option.ne_none_iff_exists'.mp stored with ⟨row, found⟩
  rw [commentOf, Store.dataOf, found, Option.bind_some] at noComment
  rw [deleteComment, found] at returns
  cases isData : row.data with
  | none =>
      simp only [isData] at returns
      exact Attempt.not_returns_throw returns
  | some data =>
      simp only [isData, Attempt.returns_bind, Attempt.returns_ofExcept] at returns
      rcases returns with ⟨cmt, decoded, -⟩
      rw [isData, Option.bind_some, decoded] at noComment
      cases noComment

/-- A comment that is decoded is taken away if it is written about the entity. -/
theorem deleteComment_of_comment {link : ResourceLinkRow} {cmt : Comment}
    (isComment : commentOf F s link.source = some cmt) :
    (deleteComment F eid s link).Returns t ↔
      (if cutBefore "?v=" cmt.target = eid then
        (withReplied F link.source cmt).foldl deleteOrEmpty s else s) = t := by
  rcases Option.bind_eq_some_iff.mp isComment with ⟨data, isData, decoded⟩
  rcases Option.bind_eq_some_iff.mp isData with ⟨row, found, rowData⟩
  have decoded' : F.decodeComment data = .ok cmt := by
    cases result : F.decodeComment data with
    | error err =>
        rw [result] at decoded
        cases decoded
    | ok cmt' =>
        rw [result] at decoded
        exact congrArg Except.ok (Option.some.inj decoded)
  rw [deleteComment, found]
  simp only [rowData, Attempt.returns_bind, Attempt.returns_ofExcept, decoded', Except.ok.injEq,
    exists_eq_left']
  rw [withReplied]
  split_ifs
  · exact Attempt.returns_pure
  · exact Attempt.returns_pure
  · exact Attempt.returns_pure

/-- Visiting a blob that holds no comment. -/
theorem eq_of_deleteComment {link : ResourceLinkRow} (noComment : commentOf F s link.source = none)
    (returns : (deleteComment F eid s link).Returns t) : t = s := by
  by_cases missing : s.blobRow link.source = none
  · exact ((deleteComment_of_missing missing).mp returns).symm
  · exact absurd returns (not_returns_deleteComment missing noComment)

/-- What is taken away loses its data, and the rest stays. -/
theorem Pruned.deleteComments {links : List ResourceLinkRow} (pruned : Pruned s taken s₁)
    (returns : (links.foldlM (deleteComment F eid) s₁).Returns t) :
    Pruned s (takeAway F s eid links taken) t := by
  induction links generalizing s₁ taken with
  | nil =>
      rw [List.foldlM_nil, Attempt.returns_pure] at returns
      exact returns ▸ pruned
  | cons link rest induction =>
      rw [List.foldlM_cons, Attempt.returns_bind] at returns
      rcases returns with ⟨s₂, visited, returns⟩
      have data := pruned.dataOf link.source
      rw [takeAway]
      by_cases isTaken : link.source ∈ taken
      · rw [if_pos isTaken] at data ⊢
        have noComment : commentOf F s₁ link.source = none := by
          rw [commentOf, data]
          exact rfl
        rcases eq_of_deleteComment noComment visited with rfl
        exact induction pruned returns
      · rw [if_neg isTaken] at data ⊢
        have same : commentOf F s₁ link.source = commentOf F s link.source := by
          rw [commentOf, data]
          exact rfl
        cases isComment : commentOf F s link.source with
        | none =>
            rcases eq_of_deleteComment (same.trans isComment) visited with rfl
            exact induction pruned returns
        | some cmt =>
            rcases (deleteComment_of_comment (same.trans isComment)).mp visited with rfl
            by_cases isTarget : cutBefore "?v=" cmt.target = eid
            · simp only [if_pos isTarget] at returns ⊢
              exact induction (pruned.deleteAll _) returns
            · simp only [if_neg isTarget] at returns ⊢
              exact induction pruned returns

/-- A store after blobs were removed, and others have lost their data. -/
structure Thinned (s : Store Data) (removed : List String) (t : Store Data) : Prop where
  rows : ∀ hash, t.blobRow hash = none ↔ hash ∈ removed ∨ s.blobRow hash = none
  blobLinks : t.blobLinks = s.blobLinks.filter fun link => !removed.contains link.source
  keyDelegations : t.keyDelegations = s.keyDelegations

variable {removed : List String}

theorem Thinned.refl (s : Store Data) : Thinned s [] s where
  rows := by simp
  blobLinks := by simp
  keyDelegations := rfl

theorem Thinned.refersToBlobs (thinned : Thinned s removed t) (hash : String) :
    t.refersToBlobs (· == hash) = s.isReferred removed hash := by
  rw [Store.refersToBlobs, Store.isReferred, thinned.blobLinks, thinned.keyDelegations,
    List.any_filter]
  congr 2
  funext link
  rw [Bool.and_comm]

theorem Thinned.deleteOrEmpty (thinned : Thinned s removed s₁) (hash : String) :
    Thinned s (if s.isReferred removed hash then removed else removed ++ [hash])
      (Hyper.deleteOrEmpty s₁ hash) := by
  rw [← thinned.refersToBlobs]
  cases refers : s₁.refersToBlobs (· == hash) with
  | true =>
      have failed : (s₁.blobsDelete hash).returned = none := by
        rw [Store.blobsDelete, Store.deleteBlobs, if_pos refers]
        exact rfl
      rw [if_pos rfl, Hyper.deleteOrEmpty, failed, Option.getD_none]
      constructor
      · intro hash'
        rw [Store.blobsEmptyByHash, blobRow_emptyBlobs, Option.map_eq_none_iff, thinned.rows]
      · exact thinned.blobLinks
      · exact thinned.keyDelegations
  | false =>
      have deleted : (s₁.blobsDelete hash).Returns { s₁ with
          blobs := s₁.blobs.filter fun row => !(row.multihash == hash)
          structuralBlobs := s₁.structuralBlobs.filter fun row => !(row.blob == hash)
          blobLinks := s₁.blobLinks.filter fun link => !(link.source == hash)
          resourceLinks := s₁.resourceLinks.filter fun link => !(link.source == hash)
          drafts := s₁.drafts.filter fun draft => !(draft.blob == hash) } := by
        rw [Store.blobsDelete, Store.deleteBlobs, if_neg (by simp [refers])]
        exact Attempt.returns_pure.mpr rfl
      rw [if_neg Bool.false_ne_true, Hyper.deleteOrEmpty, Attempt.returned_eq_some.mpr deleted,
        Option.getD_some]
      constructor
      · intro hash'
        rw [blobRow_deleteBlobs deleted, List.mem_append, List.mem_singleton]
        by_cases same : hash' = hash
        · simp [same]
        · rw [if_neg (by simpa using same), thinned.rows, or_iff_left same]
      · change s₁.blobLinks.filter _ = _
        rw [thinned.blobLinks, List.filter_filter]
        congr 1
        funext link
        by_cases same : link.source = hash <;> simp [same]
      · exact thinned.keyDelegations

theorem Thinned.deleteAll (thinned : Thinned s removed s₁) (hashes : List String) :
    Thinned s (s.removeFree removed hashes) (hashes.foldl Hyper.deleteOrEmpty s₁) := by
  induction hashes generalizing removed s₁ with
  | nil => exact thinned
  | cons hash rest induction => exact induction (thinned.deleteOrEmpty hash)

end Comments

/-! ## The changes -/

section Changes

variable {F : Formats Data} {s s₁ t : Store Data} {eid hash : String}

end Changes

/-! ## The whole -/

section Whole

variable {F : Formats Data} {s s₁ t : Store Data} {eid hash : String}

end Whole

section Clean

variable (F : Formats Data) (s : Store Data) (eid : String)

end Clean

section Reads

variable {F : Formats Data} {s : Store Data} {eid hash : String} {taken : List String}
variable {links : List ResourceLinkRow}

end Reads

end Mintter.Hyper
