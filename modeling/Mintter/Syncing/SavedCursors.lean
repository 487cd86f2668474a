import Mathlib.Data.List.Sort
import Mathlib.Tactic.Common
import Mintter.Foundation.Interleaving

/-!
# Cursors that are saved for a peer

A sync asks a peer for its list of blobs, fetches those that are missing and saves the cursor of
the last one, and that of every fiftieth one on the way.  Syncs of the periodic workers and of the
sites of groups share one cursor, and each of their calls may fail.

A periodic sync goes on behind a blob that it could not fetch or store, and still saves a cursor
behind that blob.  A saved cursor is safe as long as no such blob is missing when it is saved
(`saved_cursors_safe_iff`).
-/

namespace Mintter.Syncing

open Mintter.Foundation

variable {Cid : Type}

/-- A blob that a peer lists; the cursor holds the number of the blob there. -/
structure Blob (Cid : Type) where
  cid : Cid
  cursor : Nat
deriving DecidableEq

/-- What the peer has, and what is stored here: blobs and the row of the peer's cursor. -/
structure Stored (Cid : Type) where
  listed : List (Blob Cid)
  maxid : Nat
  blobs : List Cid
  cursor : Option Nat

/-- The blobs that the peer streams behind a cursor; the empty cursor is `none`. -/
def listBlobs (stored : Stored Cid) (cursor : Option Nat) : List (Blob Cid) :=
  let c := cursor.getD 0
  if c = stored.maxid then []
  else stored.listed.filter fun blob => (if stored.maxid < c then 0 else c) < blob.cursor

/-! ## Syncs -/

/-- A sync of a periodic worker (`syncPeer`) or of the site of a group (`syncGroupSite`). -/
inductive SyncKind where
  | peer
  | site
deriving DecidableEq

/--
Where a sync is.  At each stage it makes one call: `GetCursor` or `ListBlobs`, `Recv` and `Has`,
`GetBlock`, `Put`, or `SaveCursor`.  In the loop over the wanted blobs those before and behind the
current one are kept, and the cursor that was saved last.
-/
inductive Stage (Cid : Type) where
  | beginning (kind : SyncKind)
  | asking (cursor : Option Nat)
  | receiving (kind : SyncKind) (incoming want : List (Blob Cid))
  | fetching (kind : SyncKind) (before : List (Blob Cid)) (blob : Blob Cid)
      (rest : List (Blob Cid)) (lastSavedCursor : Option Nat)
  | putting (kind : SyncKind) (before : List (Blob Cid)) (blob : Blob Cid)
      (rest : List (Blob Cid)) (lastSavedCursor : Option Nat)
  | saving (kind : SyncKind) (before : List (Blob Cid)) (blob : Blob Cid)
      (rest : List (Blob Cid))
  | finishing (kind : SyncKind) (want : List (Blob Cid)) (lastCursor : Nat)
  | ended
deriving DecidableEq

/-- The next iteration of the loop, or what follows it. -/
def nextBlob (kind : SyncKind) (before rest : List (Blob Cid)) (lastSavedCursor : Option Nat) :
    Stage Cid :=
  match rest with
  | blob :: rest => .fetching kind before blob rest lastSavedCursor
  | [] =>
      match before.getLast? with
      | none => .ended
      | some last =>
          if lastSavedCursor ≠ some last.cursor then .finishing kind before last.cursor
          else .ended

/-- A periodic sync continues with the next blob; the sync of a site returns the error. -/
def skipBlob (kind : SyncKind) (before : List (Blob Cid)) (blob : Blob Cid)
    (rest : List (Blob Cid)) (lastSavedCursor : Option Nat) : Stage Cid :=
  match kind with
  | .peer => nextBlob .peer (before ++ [blob]) rest lastSavedCursor
  | .site => .ended

/-- The call of a stage succeeds or fails. -/
def perform [DecidableEq Cid] (succeeds : Bool) (stored : Stored Cid) :
    Stage Cid → Stored Cid × Stage Cid
  | .beginning .peer =>
      (stored, if succeeds then .receiving .peer (listBlobs stored none) [] else .ended)
  | .beginning .site => (stored, if succeeds then .asking stored.cursor else .ended)
  | .asking cursor =>
      (stored, if succeeds then .receiving .site (listBlobs stored cursor) [] else .ended)
  | .receiving kind [] want => (stored, if succeeds then nextBlob kind [] want none else .ended)
  | .receiving kind (blob :: incoming) want =>
      (stored, if succeeds then
          .receiving kind incoming (if blob.cid ∈ stored.blobs then want else want ++ [blob])
        else .ended)
  | .fetching kind before blob rest lastSavedCursor =>
      (stored, if succeeds then .putting kind before blob rest lastSavedCursor
        else skipBlob kind before blob rest lastSavedCursor)
  | .putting kind before blob rest lastSavedCursor =>
      if succeeds then
        ({ stored with blobs := blob.cid :: stored.blobs },
          if before.length % 50 = 0 then .saving kind before blob rest
          else nextBlob kind (before ++ [blob]) rest lastSavedCursor)
      else (stored, skipBlob kind before blob rest lastSavedCursor)
  | .saving kind before blob rest =>
      if succeeds then
        ({ stored with cursor := some blob.cursor },
          nextBlob kind (before ++ [blob]) rest (some blob.cursor))
      else (stored, .ended)
  | .finishing _ _ lastCursor =>
      if succeeds then ({ stored with cursor := some lastCursor }, .ended) else (stored, .ended)
  | .ended => (stored, .ended)

/-- What happens besides: the peer gets a blob that it lists or hides, or a blob is stored here. -/
inductive Event (Cid : Type) where
  | listed (blob : Blob Cid)
  | hidden (id : Nat)
  | stored (cid : Cid)

/-- The numbers of a peer's blobs increase. -/
def disturb (stored : Stored Cid) : Event Cid → Option (Stored Cid)
  | .listed blob =>
      if stored.maxid < blob.cursor then
        some { stored with listed := stored.listed ++ [blob], maxid := blob.cursor }
      else none
  | .hidden id => if stored.maxid < id then some { stored with maxid := id } else none
  | .stored cid => some { stored with blobs := cid :: stored.blobs }

/-- Any number of syncs with one peer. -/
def syncing (Cid : Type) [DecidableEq Cid] :
    Program (Stored Cid) (Stage Cid) SyncKind Bool (Event Cid) where
  enter := .beginning
  perform := perform
  disturb event stored := disturb stored event

/-- Nothing is listed, stored or saved, and no sync has begun. -/
def newSystem (Cid : Type) : System (Stored Cid) (Stage Cid) := ⟨⟨[], 0, [], none⟩, []⟩

/-! ## Safe cursors -/

/-- What the saved cursor passes is stored here, and so is what a sync from there is not shown. -/
structure CursorSafe (stored : Stored Cid) : Prop where
  present : ∀ c, stored.cursor = some c →
    ∀ blob ∈ stored.listed, blob.cursor ≤ c → blob.cid ∈ stored.blobs
  shown : ∀ blob ∈ stored.listed, blob ∉ listBlobs stored stored.cursor →
    blob.cid ∈ stored.blobs

/-- The blobs that a periodic sync may have skipped before the cursor that it saves next. -/
def passed : Stage Cid → List (Blob Cid)
  | .saving .peer before _ _ => before
  | .finishing .peer want _ => want
  | _ => []

/-- When a periodic sync saves a cursor, none of the blobs that it has skipped is missing. -/
def NoneSkipped (s : System (Stored Cid) (Stage Cid)) : Turn SyncKind Bool (Event Cid) → Prop
  | .advance index true => ∀ stage ∈ s.calls[index]?,
      ∀ blob ∈ passed stage, blob.cid ∈ s.shared.blobs
  | _ => True

instance [DecidableEq Cid] (s : System (Stored Cid) (Stage Cid)) :
    (turn : Turn SyncKind Bool (Event Cid)) → Decidable (NoneSkipped s turn)
  | .start _ | .advance _ false | .environment _ => inferInstanceAs (Decidable True)
  | .advance index true => inferInstanceAs (Decidable (∀ stage ∈ s.calls[index]?,
      ∀ blob ∈ passed stage, blob.cid ∈ s.shared.blobs))

/-- The peer lists its blobs in the order of their numbers. -/
structure Ordered (stored : Stored Cid) : Prop where
  increasing : stored.listed.Pairwise (·.cursor < ·.cursor)
  numbered : ∀ blob ∈ stored.listed, 0 < blob.cursor ∧ blob.cursor ≤ stored.maxid

/-- A cursor that may be saved. -/
def Passes (stored : Stored Cid) (cursor : Option Nat) : Prop :=
  ∀ c, cursor = some c → c ≤ stored.maxid ∧
    ∀ blob ∈ stored.listed, blob.cursor ≤ c → blob.cid ∈ stored.blobs

/-- The blobs that are still to be received or fetched, and no other ones are missing before. -/
structure Pending (stored : Stored Cid) (todo : List (Blob Cid)) : Prop where
  listed : ∀ blob ∈ todo, blob ∈ stored.listed
  increasing : todo.Pairwise (·.cursor < ·.cursor)
  covers : ∀ blob ∈ stored.listed, ∀ last ∈ todo, blob.cursor ≤ last.cursor →
    blob ∈ todo ∨ blob.cid ∈ stored.blobs

/-- The sync of a site has stored the blobs that it has passed. -/
def Fetched (stored : Stored Cid) (kind : SyncKind) (before : List (Blob Cid)) : Prop :=
  kind = .site → ∀ blob ∈ before, blob.cid ∈ stored.blobs

/-- What a sync knows at its stages. -/
def StageSound (stored : Stored Cid) : Stage Cid → Prop
  | .asking cursor => Passes stored cursor
  | .receiving _ incoming want => Pending stored (want ++ incoming)
  | .fetching kind before blob rest _ | .putting kind before blob rest _ =>
      Pending stored (before ++ blob :: rest) ∧ Fetched stored kind before
  | .saving kind before blob rest =>
      Pending stored (before ++ blob :: rest) ∧ Fetched stored kind before ∧
        blob.cid ∈ stored.blobs
  | .finishing kind want lastCursor =>
      Pending stored want ∧ Fetched stored kind want ∧
        ∃ last, want.getLast? = some last ∧ last.cursor = lastCursor
  | .beginning _ | .ended => True

/-- The blobs are listed in order, and every saved or remembered cursor is behind what is there. -/
structure Sound (s : System (Stored Cid) (Stage Cid)) : Prop where
  ordered : Ordered s.shared
  saved : Passes s.shared s.shared.cursor
  stages : ∀ (index : Nat) (stage : Stage Cid), s.calls[index]? = some stage →
    StageSound s.shared stage

section Later

variable {stored stored' : Stored Cid}

/-- Blobs are added on both sides, and new numbers are greater. -/
structure Later (stored stored' : Stored Cid) : Prop where
  blobs : ∀ cid ∈ stored.blobs, cid ∈ stored'.blobs
  maxid : stored.maxid ≤ stored'.maxid
  kept : ∀ blob ∈ stored.listed, blob ∈ stored'.listed
  new : ∀ blob ∈ stored'.listed, blob ∈ stored.listed ∨ stored.maxid < blob.cursor

/-- What a cursor passes, it passes later on. -/
theorem Passes.later {cursor : Option Nat} (passes : Passes stored cursor)
    (since : Later stored stored') : Passes stored' cursor := by
  intro c isCursor
  rcases passes c isCursor with ⟨le, present⟩
  constructor
  · exact le.trans since.maxid
  · intro blob isListed isPassed
    rcases since.new blob isListed with old | new
    · exact since.blobs _ (present blob old isPassed)
    · omega

theorem Pending.later {todo : List (Blob Cid)} (pending : Pending stored todo)
    (ordered : Ordered stored) (since : Later stored stored') : Pending stored' todo := by
  constructor
  · exact fun blob member => since.kept blob (pending.listed blob member)
  · exact pending.increasing
  · intro blob isListed last isLast le
    rcases since.new blob isListed with old | new
    · exact (pending.covers blob old last isLast le).imp_right (since.blobs _)
    · have := (ordered.numbered last (pending.listed last isLast)).2
      omega

theorem Fetched.later {kind : SyncKind} {before : List (Blob Cid)}
    (fetched : Fetched stored kind before) (since : Later stored stored') :
    Fetched stored' kind before :=
  fun isSite blob member => since.blobs _ (fetched isSite blob member)

/-- A stage of a sync stays right when blobs arrive. -/
theorem StageSound.later {stage : Stage Cid} (sound : StageSound stored stage)
    (ordered : Ordered stored) (since : Later stored stored') : StageSound stored' stage := by
  cases stage with
  | beginning kind => exact trivial
  | asking cursor => exact Passes.later sound since
  | receiving kind incoming want => exact Pending.later sound ordered since
  | fetching kind before blob rest lastSavedCursor =>
      exact ⟨sound.1.later ordered since, sound.2.later since⟩
  | putting kind before blob rest lastSavedCursor =>
      exact ⟨sound.1.later ordered since, sound.2.later since⟩
  | saving kind before blob rest =>
      exact ⟨sound.1.later ordered since, sound.2.1.later since, since.blobs _ sound.2.2⟩
  | finishing kind want lastCursor =>
      exact ⟨sound.1.later ordered since, sound.2.1.later since, sound.2.2⟩
  | ended => exact trivial

end Later

/-! ## Steps -/

section Steps

variable {stored : Stored Cid}

theorem Later.refl (stored : Stored Cid) : Later stored stored :=
  ⟨fun _ there => there, le_rfl, fun _ there => there, fun _ there => .inl there⟩

/-- Storing a blob or a cursor. -/
theorem later_of_listed {stored' : Stored Cid} (blobs : ∀ cid ∈ stored.blobs, cid ∈ stored'.blobs)
    (maxid : stored'.maxid = stored.maxid) (listed : stored'.listed = stored.listed) :
    Later stored stored' := by
  constructor
  · exact blobs
  · exact maxid.ge
  · exact fun blob there => listed ▸ there
  · exact fun blob there => .inl (listed ▸ there)

theorem Ordered.of_listed {stored' : Stored Cid} (ordered : Ordered stored)
    (maxid : stored'.maxid = stored.maxid) (listed : stored'.listed = stored.listed) :
    Ordered stored' := by
  constructor
  · rw [listed]
    exact ordered.increasing
  · rw [listed, maxid]
    exact ordered.numbered

theorem Passes.start {cursor : Option Nat} (passes : Passes stored cursor)
    (ordered : Ordered stored) :
    cursor.getD 0 ≤ stored.maxid ∧ ∀ blob ∈ stored.listed,
      blob.cursor ≤ cursor.getD 0 → blob.cid ∈ stored.blobs := by
  cases cursor with
  | none =>
      refine ⟨Nat.zero_le _, fun blob isListed le => ?_⟩
      have := (ordered.numbered blob isListed).1
      rw [Option.getD_none] at le
      omega
  | some c => exact passes c rfl

/-- A cursor that is saved is none that is ahead of the peer. -/
theorem Passes.listBlobs_eq {cursor : Option Nat} (passes : Passes stored cursor)
    (ordered : Ordered stored) :
    listBlobs stored cursor = stored.listed.filter fun blob => cursor.getD 0 < blob.cursor := by
  rw [listBlobs]
  split
  · next isMax =>
      apply Eq.symm
      apply List.filter_eq_nil_iff.mpr
      intro blob isListed
      rw [decide_eq_true_eq, isMax]
      exact (ordered.numbered blob isListed).2.not_gt
  · rw [if_neg (passes.start ordered).1.not_gt]

/-- What the peer does not stream is here. -/
theorem Passes.shown {cursor : Option Nat} (passes : Passes stored cursor)
    (ordered : Ordered stored) {blob : Blob Cid} (isListed : blob ∈ stored.listed) :
    blob ∈ listBlobs stored cursor ∨ blob.cid ∈ stored.blobs := by
  by_cases isPassed : blob.cursor ≤ cursor.getD 0
  · exact .inr ((passes.start ordered).2 blob isListed isPassed)
  · rw [passes.listBlobs_eq ordered, List.mem_filter]
    exact .inl ⟨isListed, decide_eq_true (Nat.lt_of_not_le isPassed)⟩

/-- Behind a cursor that passes only what is there, the rest is listed. -/
theorem Passes.pending {cursor : Option Nat} (passes : Passes stored cursor)
    (ordered : Ordered stored) : Pending stored (listBlobs stored cursor) := by
  constructor
  · rw [passes.listBlobs_eq ordered]
    exact fun blob member => (List.mem_filter.mp member).1
  · rw [passes.listBlobs_eq ordered]
    exact ordered.increasing.filter _
  · exact fun blob isListed _ _ _ => passes.shown ordered isListed

/-- A blob that is here already need not be fetched. -/
theorem Pending.drop {want incoming : List (Blob Cid)} {blob : Blob Cid}
    (pending : Pending stored (want ++ blob :: incoming)) (there : blob.cid ∈ stored.blobs) :
    Pending stored (want ++ incoming) := by
  have fewer : (want ++ incoming).Sublist (want ++ blob :: incoming) :=
    (List.sublist_cons_self blob incoming).append_left want
  constructor
  · exact fun other member => pending.listed other (fewer.subset member)
  · exact pending.increasing.sublist fewer
  · intro other isListed last isLast le
    rcases pending.covers other isListed last (fewer.subset isLast) le with member | present
    · simp only [List.mem_append, List.mem_cons] at member
      rcases member with inWant | rfl | isIncoming
      · exact .inl (List.mem_append_left _ inWant)
      · exact .inr there
      · exact .inl (List.mem_append_right _ isIncoming)
    · exact .inr present

/-- The cursor of a blob may be saved when the pending blobs up to it are stored. -/
theorem Pending.passes {before rest : List (Blob Cid)} {blob : Blob Cid}
    (pending : Pending stored (before ++ blob :: rest)) (ordered : Ordered stored)
    (fetched : ∀ other ∈ before, other.cid ∈ stored.blobs) (there : blob.cid ∈ stored.blobs) :
    Passes stored (some blob.cursor) := by
  have member : blob ∈ before ++ blob :: rest := by simp
  rintro _ ⟨⟩
  constructor
  · exact (ordered.numbered blob (pending.listed blob member)).2
  · intro other isListed le
    rcases pending.covers other isListed blob member le with isPending | present
    · have increasing := (List.pairwise_append.mp pending.increasing).2.1
      simp only [List.mem_append, List.mem_cons] at isPending
      rcases isPending with inBefore | rfl | inRest
      · exact fetched other inBefore
      · exact there
      · have := List.rel_of_pairwise_cons increasing inRest
        omega
    · exact present

/-- The next blob is fetched, or the sync is over. -/
theorem stageSound_nextBlob {kind : SyncKind} {before rest : List (Blob Cid)}
    {lastSavedCursor : Option Nat} (pending : Pending stored (before ++ rest))
    (fetched : Fetched stored kind before) :
    StageSound stored (nextBlob kind before rest lastSavedCursor) := by
  cases rest with
  | cons blob rest => exact ⟨pending, fetched⟩
  | nil =>
      rw [List.append_nil] at pending
      rw [nextBlob]
      cases isLast : before.getLast? with
      | none => exact trivial
      | some last =>
          simp only
          split
          · exact ⟨pending, fetched, last, isLast, rfl⟩
          · exact trivial

theorem Pending.shift {before rest : List (Blob Cid)} {blob : Blob Cid}
    (pending : Pending stored (before ++ blob :: rest)) :
    Pending stored (before ++ [blob] ++ rest) := by
  rwa [List.append_assoc, List.singleton_append]

/-- With the next blob there, all that was visited is there. -/
theorem Fetched.concat {kind : SyncKind} {before : List (Blob Cid)} {blob : Blob Cid}
    (fetched : Fetched stored kind before) (there : blob.cid ∈ stored.blobs) :
    Fetched stored kind (before ++ [blob]) := by
  intro isSite other member
  rcases List.mem_append.mp member with inBefore | isBlob
  · exact fetched isSite other inBefore
  · exact List.mem_singleton.mp isBlob ▸ there

theorem stageSound_skipBlob {kind : SyncKind} {before rest : List (Blob Cid)} {blob : Blob Cid}
    {lastSavedCursor : Option Nat} (pending : Pending stored (before ++ blob :: rest)) :
    StageSound stored (skipBlob kind before blob rest lastSavedCursor) := by
  cases kind with
  | peer =>
      apply stageSound_nextBlob pending.shift
      intro isSite
      cases isSite
  | site => exact trivial

/-- What happens to the store between the steps loses no blob. -/
theorem later_disturb {stored stored' : Stored Cid} {event : Event Cid}
    (disturbed : disturb stored event = some stored') (ordered : Ordered stored) :
    Later stored stored' ∧ Ordered stored' ∧ stored'.cursor = stored.cursor := by
  cases event with
  | listed blob =>
      rw [disturb] at disturbed
      split at disturbed
      · next greater =>
          rcases Option.some.inj disturbed with rfl
          refine ⟨⟨fun _ => id, greater.le, fun _ => List.mem_append_left _, ?_⟩, ⟨?_, ?_⟩, rfl⟩
          · intro other isListed
            rcases List.mem_append.mp isListed with old | new
            · exact .inl old
            · exact .inr (List.mem_singleton.mp new ▸ greater)
          · apply List.pairwise_append.mpr
            refine ⟨ordered.increasing, List.pairwise_singleton .., ?_⟩
            intro old isOld new isNew
            rw [List.mem_singleton.mp isNew]
            exact (ordered.numbered old isOld).2.trans_lt greater
          · intro other isListed
            rcases List.mem_append.mp isListed with old | new
            · have := ordered.numbered other old
              exact ⟨this.1, this.2.trans greater.le⟩
            · rw [List.mem_singleton.mp new]
              exact ⟨(Nat.zero_le _).trans_lt greater, le_rfl⟩
      · cases disturbed
  | hidden id =>
      rw [disturb] at disturbed
      split at disturbed
      · next greater =>
          rcases Option.some.inj disturbed with rfl
          refine ⟨⟨fun _ there => there, greater.le, fun _ there => there, fun _ => .inl⟩,
            ⟨ordered.increasing, ?_⟩, rfl⟩
          intro other isListed
          have := ordered.numbered other isListed
          exact ⟨this.1, this.2.trans greater.le⟩
      · cases disturbed
  | stored cid =>
      rcases Option.some.inj disturbed with rfl
      refine ⟨later_of_listed (fun _ => List.mem_cons_of_mem _) rfl rfl, ?_, rfl⟩
      exact ordered.of_listed rfl rfl

variable [DecidableEq Cid]

/-- A step of a sync does not change what the other side lists. -/
theorem perform_listed (succeeds : Bool) (stored : Stored Cid) (stage : Stage Cid) :
    (perform succeeds stored stage).1.listed = stored.listed ∧
      (perform succeeds stored stage).1.maxid = stored.maxid ∧
        ∀ cid ∈ stored.blobs, cid ∈ (perform succeeds stored stage).1.blobs := by
  have same : stored.listed = stored.listed ∧ stored.maxid = stored.maxid ∧
      ∀ cid ∈ stored.blobs, cid ∈ stored.blobs := ⟨rfl, rfl, fun _ => id⟩
  cases stage with
  | beginning kind => cases kind <;> exact same
  | asking cursor => exact same
  | receiving kind incoming want => cases incoming <;> exact same
  | fetching kind before blob rest lastSavedCursor => exact same
  | putting kind before blob rest lastSavedCursor =>
      cases succeeds with
      | false => exact same
      | true => exact ⟨rfl, rfl, fun _ => List.mem_cons_of_mem _⟩
  | saving kind before blob rest => cases succeeds <;> exact same
  | finishing kind want lastCursor => cases succeeds <;> exact same
  | ended => exact same

/-- A step of a sync loses no blob. -/
theorem later_perform (succeeds : Bool) (stored : Stored Cid) (stage : Stage Cid) :
    Later stored (perform succeeds stored stage).1 := by
  rcases perform_listed succeeds stored stage with ⟨listed, maxid, blobs⟩
  exact later_of_listed blobs maxid listed

/-- One call keeps what a sync knows, and saves no cursor that passes a missing blob. -/
theorem perform_spec {succeeds : Bool} {stage : Stage Cid} (ordered : Ordered stored)
    (saved : Passes stored stored.cursor) (sound : StageSound stored stage)
    (noneSkipped : succeeds = true → ∀ blob ∈ passed stage, blob.cid ∈ stored.blobs) :
    Passes (perform succeeds stored stage).1 (perform succeeds stored stage).1.cursor ∧
      StageSound (perform succeeds stored stage).1 (perform succeeds stored stage).2 := by
  have empty : Passes stored none := by
    rintro _ ⟨⟩
  cases succeeds with
  | false =>
      cases stage with
      | beginning kind => cases kind <;> exact ⟨saved, trivial⟩
      | receiving kind incoming want => cases incoming <;> exact ⟨saved, trivial⟩
      | fetching kind before blob rest lastSavedCursor =>
          exact ⟨saved, stageSound_skipBlob sound.1⟩
      | putting kind before blob rest lastSavedCursor =>
          exact ⟨saved, stageSound_skipBlob sound.1⟩
      | asking _ | saving _ _ _ _ | finishing _ _ _ | ended => exact ⟨saved, trivial⟩
  | true =>
      cases stage with
      | beginning kind =>
          cases kind with
          | peer => exact ⟨saved, empty.pending ordered⟩
          | site => exact ⟨saved, saved⟩
      | asking cursor => exact ⟨saved, Passes.pending sound ordered⟩
      | receiving kind incoming want =>
          cases incoming with
          | nil =>
              have pending : Pending stored want := by
                have pending : Pending stored (want ++ []) := sound
                rwa [List.append_nil] at pending
              refine ⟨saved, stageSound_nextBlob pending ?_⟩
              exact fun _ _ member => absurd member List.not_mem_nil
          | cons blob incoming =>
              refine ⟨saved, ?_⟩
              show Pending stored
                ((if blob.cid ∈ stored.blobs then want else want ++ [blob]) ++ incoming)
              split
              · next there => exact Pending.drop sound there
              · exact Pending.shift sound
      | fetching kind before blob rest lastSavedCursor => exact ⟨saved, sound⟩
      | putting kind before blob rest lastSavedCursor =>
          have since := later_perform true stored (.putting kind before blob rest lastSavedCursor)
          have pending := sound.1.later ordered since
          have fetched := sound.2.later since
          refine ⟨saved.later since, ?_⟩
          show StageSound _ (if before.length % 50 = 0 then .saving kind before blob rest
            else nextBlob kind (before ++ [blob]) rest lastSavedCursor)
          split
          · exact ⟨pending, fetched, List.mem_cons_self⟩
          · exact stageSound_nextBlob pending.shift (fetched.concat List.mem_cons_self)
      | saving kind before blob rest =>
          rcases sound with ⟨pending, fetched, there⟩
          have since := later_perform true stored (.saving kind before blob rest)
          have before_there : ∀ other ∈ before, other.cid ∈ stored.blobs := by
            cases kind with
            | peer => exact noneSkipped rfl
            | site => exact fetched rfl
          constructor
          · exact (pending.passes ordered before_there there).later since
          · exact stageSound_nextBlob (pending.later ordered since).shift
              ((fetched.concat there).later since)
      | finishing kind want lastCursor =>
          rcases sound with ⟨pending, fetched, last, isLast, rfl⟩
          have since := later_perform true stored (.finishing kind want last.cursor)
          have want_there : ∀ other ∈ want, other.cid ∈ stored.blobs := by
            cases kind with
            | peer => exact noneSkipped rfl
            | site => exact fetched rfl
          rcases List.getLast?_eq_some_iff.mp isLast with ⟨front, rfl⟩
          have front_there : ∀ other ∈ front, other.cid ∈ stored.blobs :=
            fun other member => want_there other (List.mem_append_left _ member)
          have last_there : last.cid ∈ stored.blobs :=
            want_there last (List.mem_append_right _ List.mem_cons_self)
          exact ⟨(pending.passes ordered front_there last_there).later since, trivial⟩
      | ended => exact ⟨saved, trivial⟩

end Steps

/-! ## Runs -/

section Runs

variable {s t : System (Stored Cid) (Stage Cid)}

theorem NoneSkipped.advance {index : Nat} {succeeds : Bool} {stage : Stage Cid}
    (noneSkipped : NoneSkipped s (.advance index succeeds)) (found : s.calls[index]? = some stage)
    (isTrue : succeeds = true) : ∀ blob ∈ passed stage, blob.cid ∈ s.shared.blobs := by
  rw [isTrue] at noneSkipped
  exact noneSkipped stage found

/-- Before the first sync nothing is passed. -/
theorem newSystem_sound : Sound (newSystem Cid) := by
  constructor
  · constructor
    · exact List.Pairwise.nil
    · exact fun _ isListed => absurd isListed List.not_mem_nil
  · rintro _ ⟨⟩
  · intro index stage found
    cases found

/-- The saved cursor passes only blobs that are there. -/
theorem Sound.cursorSafe (sound : Sound s) : CursorSafe s.shared := by
  constructor
  · exact fun c isCursor => (sound.saved c isCursor).2
  · intro blob isListed notShown
    exact (sound.saved.shown sound.ordered isListed).resolve_left notShown

variable [DecidableEq Cid]

/-- Every step at which no skipped blob is missing keeps the syncs sound. -/
theorem Sound.step (sound : Sound s) {turn : Turn SyncKind Bool (Event Cid)}
    (noneSkipped : NoneSkipped s turn) (stepped : (syncing Cid).step s turn = some t) :
    Sound t := by
  have since : Later s.shared t.shared ∧ Ordered t.shared ∧
      Passes t.shared t.shared.cursor := by
    rcases Program.shared_of_step stepped with same | ⟨index, succeeds, stage, rfl, found, same⟩ |
      ⟨event, -, disturbed⟩
    · rw [same]
      exact ⟨.refl _, sound.ordered, sound.saved⟩
    · have listed := perform_listed succeeds s.shared stage
      have kept := perform_spec sound.ordered sound.saved (sound.stages index stage found)
        (noneSkipped.advance found)
      have isLater := later_perform succeeds s.shared stage
      rw [same]
      exact ⟨isLater, sound.ordered.of_listed listed.2.1 listed.1, kept.1⟩
    · rcases later_disturb disturbed sound.ordered with ⟨isLater, ordered, cursor⟩
      rw [cursor]
      exact ⟨isLater, ordered, sound.saved.later isLater⟩
  refine ⟨since.2.1, since.2.2, fun index stage found => ?_⟩
  rcases Program.calls_of_step stepped found with old | ⟨request, rfl, rfl, rfl⟩ |
    ⟨succeeds, before, rfl, isBefore, rfl⟩
  · exact (sound.stages index stage old).later sound.ordered since.1
  · exact trivial
  · have shared := (Program.calls_advance isBefore stepped).1
    rw [shared]
    exact (perform_spec sound.ordered sound.saved (sound.stages index before isBefore)
      (noneSkipped.advance isBefore)).2

/-- A cursor that passes a skipped blob is not safe. -/
theorem Sound.noneSkipped (sound : Sound s) {turn : Turn SyncKind Bool (Event Cid)}
    (stepped : (syncing Cid).step s turn = some t) (safe : CursorSafe t.shared) :
    NoneSkipped s turn := by
  cases turn with
  | start request => exact trivial
  | environment event => exact trivial
  | advance index succeeds =>
      cases succeeds with
      | false => exact trivial
      | true =>
          intro stage found blob isPassed
          have shared := (Program.calls_advance found stepped).1
          have isSound := sound.stages index stage found
          cases stage with
          | saving kind before last rest =>
              cases kind with
              | site => exact absurd isPassed List.not_mem_nil
              | peer =>
                  have pending := isSound.1
                  have member : blob ∈ before ++ last :: rest := List.mem_append_left _ isPassed
                  have less : blob.cursor < last.cursor :=
                    (List.pairwise_append.mp pending.increasing).2.2 blob isPassed last
                      List.mem_cons_self
                  rw [shared] at safe
                  exact safe.present last.cursor rfl blob (pending.listed blob member) less.le
          | finishing kind want lastCursor =>
              cases kind with
              | site => exact absurd isPassed List.not_mem_nil
              | peer =>
                  rcases isSound with ⟨pending, -, last, isLast, rfl⟩
                  have le : blob.cursor ≤ last.cursor := by
                    rcases List.getLast?_eq_some_iff.mp isLast with ⟨front, rfl⟩
                    rcases List.mem_append.mp isPassed with inFront | isLast
                    · exact ((List.pairwise_append.mp pending.increasing).2.2 blob inFront last
                        List.mem_cons_self).le
                    · exact (congrArg Blob.cursor (List.mem_singleton.mp isLast)).le
                  rw [shared] at safe
                  exact safe.present last.cursor rfl blob (pending.listed blob isPassed) le
          | beginning _ | asking _ | receiving _ _ _ | fetching _ _ _ _ _ | putting _ _ _ _ _
          | ended => exact absurd isPassed List.not_mem_nil

/-- The states of the runs in which no periodic sync saves a cursor past a missing blob. -/
theorem sound_of_reaches
    (run : Reaches (syncing Cid).step NoneSkipped (newSystem Cid) s) : Sound s :=
  run.invariant (fun _ _ _ sound noneSkipped stepped => sound.step noneSkipped stepped)
    newSystem_sound

/--
In every run whose periodic syncs save no cursor while a blob that they have skipped is missing,
the saved cursor is safe in every state; and the first step of another kind makes it unsafe.
-/
theorem saved_cursors_safe_iff
    (run : Reaches (syncing Cid).step NoneSkipped (newSystem Cid) s) :
    CursorSafe s.shared ∧ ∀ turn t, (syncing Cid).step s turn = some t →
      (CursorSafe t.shared ↔ NoneSkipped s turn) := by
  have sound := sound_of_reaches run
  refine ⟨sound.cursorSafe, fun turn t stepped => ⟨sound.noneSkipped stepped, ?_⟩⟩
  intro noneSkipped
  exact (sound.step noneSkipped stepped).cursorSafe

end Runs

/-- A peer lists a blob, and a periodic sync asks for it. -/
def firstTurns : List (Turn SyncKind Bool (Event Nat)) :=
  [.environment (.listed ⟨7, 1⟩), .start .peer, .advance 0 true, .advance 0 true, .advance 0 true]

/-- The blob is fetched and stored, and its cursor is saved. -/
theorem saved_cursors_safe_iff_fetched : ∃ s, s.shared.cursor = some 1 ∧
    CursorSafe s.shared ∧ ∀ turn t, (syncing Nat).step s turn = some t →
      (CursorSafe t.shared ↔ NoneSkipped s turn) := by
  have performed : performChecked (syncing Nat).step NoneSkipped (newSystem Nat)
      (firstTurns ++ List.replicate 3 (.advance 0 true)) = some _ := rfl
  exact ⟨_, rfl, saved_cursors_safe_iff (reaches_of_performChecked performed)⟩

/-- The blob is not fetched, and its cursor is saved nevertheless. -/
theorem skipped_blob_is_passed :
    ∃ s, (syncing Nat).Runs (newSystem Nat) s ∧ ¬ CursorSafe s.shared := by
  have performed : performAll (syncing Nat).step (newSystem Nat)
      (firstTurns ++ [.advance 0 false, .advance 0 true]) = some _ := rfl
  refine ⟨_, reaches_of_performAll (allPermitted_true _) performed, fun safe => ?_⟩
  have there := safe.present 1 rfl ⟨7, 1⟩ List.mem_cons_self le_rfl
  exact absurd there List.not_mem_nil

end Mintter.Syncing
