import Mintter.Hyper.Accepted
import Mintter.Hyper.SampleFormats

/-!
# Threads of comments

A reply is checked against the comment that it replies to when it arrives, and
against no other.  `threads_well_formed` is about the whole thread: following the
replied comments from a stored reply ends at a comment that replies to nothing,
which is the root of the thread; all replies on the way have this root, all
comments are about one resource, and their times do not increase.

The run takes every kind of blob in any order.  Comments arrive under a CID with
the codec of comments, so that they are indexed, and no comment contains its own
hash.
-/

namespace Mintter.Hyper

open Mintter.Foundation

variable {Data : Type}

/-- The comment is stored under this CID. -/
def StoresComment (F : Formats Data) (s : Store Data) (c : String) (cm : Comment) :
    Prop :=
  ∃ data, (s.getBlock (F.cidHash c)).Returns data ∧
    F.decodeBlob (F.cidCodec c) data = .ok (.comment cm)

/-- A comment that belongs to the thread of another one. -/
def Comment.isReply (cm : Comment) : Prop :=
  cm.repliedComment ≠ "" ∨ cm.threadRoot ≠ ""

/-- The resource that a comment is about: its target without the query. -/
def Comment.resource (cm : Comment) : String := cutBefore "?" cm.target

/-- Following the replied comments passes these comments, the last of which replies to none. -/
inductive LeadsUp (F : Formats Data) (s : Store Data) :
    Comment → List (String × Comment) → Prop where
  | top {cm : Comment} (isTop : cm.repliedComment = "") : LeadsUp F s cm []
  | reply {cm rc : Comment} {rest : List (String × Comment)}
      (replies : cm.repliedComment ≠ "")
      (stored : StoresComment F s cm.repliedComment rc) (above : LeadsUp F s rc rest) :
      LeadsUp F s cm ((cm.repliedComment, rc) :: rest)

/-- A reply in the thread of its root, behind these other replies. -/
structure InThread (F : Formats Data) (s : Store Data) (cm : Comment)
    (replies : List (String × Comment)) (root : Comment) : Prop where
  leadsUp : LeadsUp F s cm (replies ++ [(cm.threadRoot, root)])
  topLevel : root.repliedComment = "" ∧ root.threadRoot = ""
  sameRoot : ∀ reply ∈ replies, reply.2.threadRoot = cm.threadRoot
  sameResource : ∀ reply ∈ replies ++ [(cm.threadRoot, root)],
    reply.2.resource = cm.resource
  notIncreasing : (cm.hlcTime ::
    (replies ++ [(cm.threadRoot, root)]).map (·.2.hlcTime)).Pairwise (· ≥ ·)

/-- Every stored reply is in a thread. -/
def WellThreaded (F : Formats Data) (s : Store Data) : Prop :=
  ∀ c cm, StoresComment F s c cm → cm.isReply →
    ∃ replies root, InThread F s cm replies root

/-- A comment arrives under a CID of comments and does not reply to itself. -/
def CommentsIndexed (F : Formats Data) (_ : Store Data) (arrival : Arrival Data) :
    Prop :=
  ∀ cm, F.decodeBlob dagCbor arrival.data = .ok (.comment cm) →
    F.cidCodec arrival.c = dagCbor ∧
    (cm.repliedComment ≠ "" → F.cidHash cm.repliedComment ≠ F.cidHash arrival.c)

section Threads

variable {F : Formats Data} {s s₁ t : Store Data} {c : String} {cm v rc root : Comment}
variable {replies rest : List (String × Comment)} {arrival : Arrival Data}

theorem LeadsUp.mono (stays : ∀ c cm, StoresComment F s c cm → StoresComment F t c cm)
    (leadsUp : LeadsUp F s cm rest) : LeadsUp F t cm rest := by
  induction leadsUp with
  | top isTop => exact .top isTop
  | reply replies stored _ induction =>
      exact .reply replies (stays _ _ stored) induction

/-- Stored comments stay in their thread. -/
theorem InThread.mono (stays : ∀ c cm, StoresComment F s c cm → StoresComment F t c cm)
    (inThread : InThread F s cm replies root) : InThread F t cm replies root where
  leadsUp := inThread.leadsUp.mono stays
  topLevel := inThread.topLevel
  sameRoot := inThread.sameRoot
  sameResource := inThread.sameResource
  notIncreasing := inThread.notIncreasing

/-- The comments on the way up have a CID. -/
theorem LeadsUp.ne_empty (leadsUp : LeadsUp F s cm rest) :
    ∀ reply ∈ rest, reply.1 ≠ "" := by
  induction leadsUp with
  | top => exact fun _ member => absurd member List.not_mem_nil
  | reply replies _ _ induction =>
      intro reply member
      rcases List.mem_cons.mp member with rfl | above
      · exact replies
      · exact induction reply above

theorem InThread.threadRoot_ne (inThread : InThread F s cm replies root) :
    cm.threadRoot ≠ "" :=
  inThread.leadsUp.ne_empty (cm.threadRoot, root)
    (List.mem_append_right _ (List.mem_singleton_self _))

/-- What is checked of a reply and the comment that it replies to. -/
structure RepliesTo (v rc : Comment) : Prop where
  replies : v.repliedComment ≠ ""
  notEarlier : rc.hlcTime ≤ v.hlcTime
  sameResource : v.resource = rc.resource
  root : v.threadRoot =
    if rc.threadRoot ≠ "" then rc.threadRoot else v.repliedComment

theorem repliesTo_of_returns (returns : (checkThread F s v).Returns ())
    (isReply : v.isReply) :
    ∃ rc, StoresComment F s v.repliedComment rc ∧ RepliesTo v rc := by
  have isReply' : v.repliedComment ≠ "" ∨ v.threadRoot ≠ "" := isReply
  rw [checkThread, if_pos isReply', checkReply, Attempt.returns_bind] at returns
  rcases returns with ⟨⟨⟩, isBoth, returns⟩
  rw [Attempt.returns_check, not_or] at isBoth
  rcases Attempt.returns_bind.mp returns with ⟨data, there, returns⟩
  split at returns
  · exact absurd returns Attempt.not_returns_throw
  · next rc decoded =>
      simp only [Attempt.returns_bind, Attempt.returns_check] at returns
      rcases returns with ⟨⟨⟩, notEarlier, ⟨⟩, sameTarget, roots⟩
      refine ⟨rc, ⟨data, there, decoded⟩, isBoth.1, not_lt.mp notEarlier,
        not_not.mp sameTarget, ?_⟩
      split at roots
      · next isReply =>
          rw [if_pos isReply]
          exact not_not.mp (Attempt.returns_check.mp roots)
      · next isTop =>
          rw [if_neg isTop]
          exact not_not.mp (Attempt.returns_check.mp roots)
  · exact absurd returns Attempt.not_returns_throw

/-- A reply to a comment at the top is in its thread. -/
theorem RepliesTo.inThread_of_top (repliesTo : RepliesTo v rc)
    (stored : StoresComment F s v.repliedComment rc) (isTop : ¬ rc.isReply) :
    InThread F s v [] rc := by
  rw [Comment.isReply, not_or, not_not, not_not] at isTop
  have isRoot := repliesTo.root
  rw [if_neg (not_not.mpr isTop.2)] at isRoot
  constructor
  · rw [isRoot]
    exact .reply repliesTo.replies stored (.top isTop.1)
  · exact isTop
  · exact fun _ member => absurd member List.not_mem_nil
  · intro reply member
    rcases List.mem_singleton.mp member with rfl
    exact repliesTo.sameResource.symm
  · simpa using repliesTo.notEarlier

/-- A reply to a reply is in the same thread. -/
theorem RepliesTo.inThread_of_reply (repliesTo : RepliesTo v rc)
    (stored : StoresComment F s v.repliedComment rc)
    (above : InThread F s rc replies root) :
    InThread F s v ((v.repliedComment, rc) :: replies) root := by
  have sameRoot := repliesTo.root
  rw [if_pos above.threadRoot_ne] at sameRoot
  constructor
  · rw [sameRoot]
    exact .reply repliesTo.replies stored above.leadsUp
  · exact above.topLevel
  · intro reply member
    rw [sameRoot]
    rcases List.mem_cons.mp member with rfl | member
    · rfl
    · exact above.sameRoot reply member
  · intro reply member
    rw [repliesTo.sameResource]
    rcases List.mem_cons.mp member with rfl | member
    · rfl
    · rw [sameRoot] at member
      exact above.sameResource reply member
  · rw [sameRoot]
    apply List.pairwise_cons.mpr
    constructor
    · intro time member
      rcases List.mem_cons.mp member with rfl | member
      · exact repliesTo.notEarlier
      · exact ((List.pairwise_cons.mp above.notIncreasing).1 time member).trans
          repliesTo.notEarlier
    · exact above.notIncreasing

/-! ## Runs -/

/-- Putting a block leaves the rows of other blobs. -/
theorem blobRow_of_putBlock {found : Bool} {codec : Nat} {hash hash' : String}
    {data : Data} (returns : (s.putBlock F 0 codec hash data).Returns (found, t))
    (other : hash' ≠ hash) : t.blobRow hash' = s.blobRow hash' := by
  rw [Store.putBlock] at returns
  split at returns
  · split at returns
    · cases Attempt.returns_pure.mp returns
      rfl
    · split at returns
      · exact absurd returns Attempt.not_returns_throw
      · cases Attempt.returns_pure.mp returns
        rw [Store.blobRow_blobsUpdateMissingData, if_neg other.symm]
  · rw [if_pos rfl] at returns
    cases Attempt.returns_pure.mp returns
    rw [Store.blobRow_blobsInsert, if_neg other.symm, Option.or_none]

/-- Data in the store after a block was put: it was there, or it is that of the block. -/
theorem getBlock_of_putBlock {found : Bool} {codec : Nat} {hash hash' : String}
    {data data' : Data}
    (returns : (s.putBlock F 0 codec hash data).Returns (found, t))
    (there : (t.getBlock hash').Returns data') :
    (s.getBlock hash').Returns data' ∨ hash' = hash ∧ data' = data ∧ found = false := by
  have isPut := putBlock_of_returns returns
  cases found with
  | true =>
      rw [isPut.old rfl] at there
      exact .inl there
  | false =>
      by_cases same : hash' = hash
      · right
        rcases isPut.new rfl with ⟨row, isRow, isData, -, -⟩
        rcases Store.returns_getBlock.mp there with ⟨row', isRow', -, isData'⟩
        rw [same, isRow] at isRow'
        rw [← Option.some.inj isRow', isData] at isData'
        exact ⟨same, (Option.some.inj isData').symm, rfl⟩
      · left
        rw [Store.returns_getBlock] at there ⊢
        rwa [blobRow_of_putBlock returns same] at there

/-- Indexing adds no data. -/
theorem Grows.getBlock_iff (grows : Grows s t) {hash : String} {data : Data} :
    (t.getBlock hash).Returns data ↔ (s.getBlock hash).Returns data := by
  constructor
  · intro there
    rcases Store.returns_getBlock.mp there with ⟨row, isRow, nonneg, isData⟩
    rcases grows.blobs with ⟨added, blobs_eq, isAdded⟩
    rw [Store.blobRow, blobs_eq, List.find?_append, Option.or_eq_some_iff] at isRow
    rcases isRow with old | ⟨-, new⟩
    · exact Store.returns_getBlock.mpr ⟨row, old, nonneg, isData⟩
    · have negative := (isAdded row (List.mem_of_find?_eq_some new)).1
      exact absurd nonneg (not_le.mpr negative)
  · exact grows.getBlock

/-- Stored comments stay stored. -/
theorem storesComment_of_accept (accepted : accept F s arrival = some t)
    (stored : StoresComment F s c cm) : StoresComment F t c cm := by
  rcases stored with ⟨data, there, decoded⟩
  refine ⟨data, ?_, decoded⟩
  rcases accept_cases accepted with received | ⟨s₁, blob, arrives, indexed⟩
  · exact received.getBlock there
  · exact (grows_of_indexedBlob (indexedBlob_of_returns indexed)).getBlock
      (arrives.received.getBlock there)

/-- A comment in the store after an arrival was there, or it arrived and was checked. -/
theorem storesComment_cases (indexes : CommentsIndexed F s arrival)
    (accepted : accept F s arrival = some t) (stored : StoresComment F t c cm) :
    StoresComment F s c cm ∨
      ∃ s₁, Arrives F s arrival s₁ (.comment cm) ∧
        (checkThread F s₁ cm).Returns () := by
  rcases stored with ⟨data, there, decoded⟩
  rcases put_of_returns (returns_of_accept accepted) with ⟨found, s₁, isPut⟩
  have decoded' := decodeBlob_dagCbor decoded nofun
  cases skips : found || !isIndexable (F.cidCodec arrival.c) with
  | true =>
      rw [isPut.skipped skips] at there
      rcases getBlock_of_putBlock isPut.stored there with old | ⟨-, rfl, rfl⟩
      · exact .inl ⟨data, old, decoded⟩
      · rw [(indexes cm decoded').1] at skips
        exact absurd skips (by decide)
  | false =>
      rcases isPut.indexed skips with ⟨blob, isBlob, indexed⟩
      have grows := grows_of_indexedBlob (indexedBlob_of_returns indexed)
      rcases getBlock_of_putBlock isPut.stored (grows.getBlock_iff.mp there) with
        old | ⟨-, rfl, rfl⟩
      · exact .inl ⟨data, old, decoded⟩
      · right
        have isComment := (indexes cm decoded').1 ▸ isBlob
        rcases Except.ok.inj (isComment.symm.trans decoded') with rfl
        refine ⟨s₁, ⟨isPut.stored, isBlob⟩, ?_⟩
        simp only [indexBlob, indexComment, Attempt.returns_bind] at indexed
        rcases indexed with ⟨-, -, -, -, -, -, ⟨⟩, checked, -⟩
        exact checked

/-- An accepted blob keeps every reply in its thread. -/
theorem WellThreaded.accept (threaded : WellThreaded F s)
    (indexes : CommentsIndexed F s arrival)
    (accepted : accept F s arrival = some t) : WellThreaded F t := by
  have stays : ∀ c cm, StoresComment F s c cm → StoresComment F t c cm :=
    fun _ _ => storesComment_of_accept accepted
  intro c cm stored isReply
  rcases storesComment_cases indexes accepted stored with old | ⟨s₁, arrives, checked⟩
  · rcases threaded c cm old isReply with ⟨replies, root, inThread⟩
    exact ⟨replies, root, inThread.mono stays⟩
  · rcases repliesTo_of_returns checked isReply with ⟨rc, stored₁, repliesTo⟩
    have decoded' := decodeBlob_dagCbor arrives.decoded nofun
    have notItself := (indexes cm decoded').2 repliesTo.replies
    rcases stored₁ with ⟨data, there, decoded⟩
    rcases getBlock_of_putBlock arrives.stored there with old | ⟨same, -, -⟩
    · have stored' : StoresComment F s cm.repliedComment rc := ⟨data, old, decoded⟩
      by_cases rcIsReply : rc.isReply
      · rcases threaded _ rc stored' rcIsReply with ⟨replies, root, above⟩
        exact ⟨_, root, (repliesTo.inThread_of_reply stored' above).mono stays⟩
      · exact ⟨[], rc, (repliesTo.inThread_of_top stored' rcIsReply).mono stays⟩
    · exact absurd same notItself

/--
In every store that is reached by indexing blobs in any order, every reply is in
a thread: the comments above it lead to its thread root, which is at the top.
-/
theorem threads_well_formed
    (run : Reaches (accept F) (CommentsIndexed F) .empty s) : WellThreaded F s := by
  apply run.invariant (fun before arrival after threaded indexes accepted =>
    threaded.accept indexes accepted)
  rintro c cm ⟨data, there, -⟩ -
  rcases Store.returns_getBlock.mp there with ⟨row, isRow, -⟩
  cases isRow

end Threads

/-! ## A thread of three comments -/

section Samples

/-- A comment that replies to another one. -/
def sampleComment (repliedComment threadRoot : String) (time : Int) : Comment where
  delegation := "cdelegation1"
  target := "hm://d/doc?l"
  threadRoot := threadRoot
  repliedComment := repliedComment
  hlcTime := time
  body := []
  signer := samplePrincipal 11
  sig := "signature"

/-- A comment, a reply to it and a reply to the reply. -/
def threadArrivals : List (Arrival DecodedBlob) :=
  [⟨.listed, "cdelegation1", .keyDelegation (sampleDelegation 1 11)⟩,
    ⟨.listed, "ccomment", .comment (sampleComment "" "" 1)⟩,
    ⟨.listed, "creply", .comment (sampleComment "ccomment" "ccomment" 2)⟩,
    ⟨.listed, "canswer", .comment (sampleComment "creply" "ccomment" 2)⟩]

def threadArrivalsResult : Evaluated (performAll (accept (urlFormats sampleSha256))
    .empty threadArrivals) :=
  .of (by decide +kernel)

theorem threadArrivals_accepted : (performAll (accept (urlFormats sampleSha256))
    .empty threadArrivals).isSome = true :=
  threadArrivalsResult.isSome

theorem threads_well_formed_threadArrivals :
    WellThreaded (urlFormats sampleSha256) ((performAll
      (accept (urlFormats sampleSha256)) .empty threadArrivals).get
        threadArrivals_accepted) := by
  apply threads_well_formed
  apply reaches_of_performAll _ (Option.some_get threadArrivals_accepted).symm
  apply allPermitted_of_forall
  intro arrival member _ cm isComment
  fin_cases member
  · cases isComment
  · cases isComment
    exact ⟨by decide +kernel, nofun⟩
  · cases isComment
    exact ⟨by decide +kernel, fun _ => by decide +kernel⟩
  · cases isComment
    exact ⟨by decide +kernel, fun _ => by decide +kernel⟩

end Samples

end Mintter.Hyper
