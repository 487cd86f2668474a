import Mintter.Foundation.Feed

/-!
# Readers of feeds

A reader asks for the entries behind a number that it has saved, fetches those that it
wants in the order of their numbers, and saves the number of an entry that it has fetched.
The system goes on showing entries meanwhile.
-/

namespace Mintter.Foundation

namespace Feed

variable {σ κ : Type*} {feed : Feed σ κ} {s t : σ} {has has' : κ → Prop}
variable {key : κ} {bound number : Nat} {want rest : List (κ × Nat)}

/-- The reader has what is shown up to a number. -/
structure Covers (feed : Feed σ κ) (s : σ) (has : κ → Prop) (bound : Nat) : Prop where
  bounded : bound ≤ feed.last s
  has_shown : ∀ key number, feed.Shows s key number → number ≤ bound → has key

/-- What is shown up to a number is what the reader has or wants, in order. -/
structure Wants (feed : Feed σ κ) (s : σ) (has : κ → Prop) (want : List (κ × Nat))
    (bound : Nat) : Prop where
  bounded : bound ≤ feed.last s
  sorted : want.Pairwise fun entry later => entry.2 < later.2
  below : ∀ entry ∈ want, entry.2 ≤ bound
  shown : ∀ key number, feed.Shows s key number → number ≤ bound →
    has key ∨ (key, number) ∈ want

/-- What has an old number was shown before. -/
theorem shows_of_advances (advances : feed.Advances s t) (bounded : bound ≤ feed.last s)
    (shows : feed.Shows t key number) (isOld : number ≤ bound) :
    feed.Shows s key number := by
  rcases advances.shown key number id shows with old | isNew
  · exact old
  · exact absurd isNew (Nat.not_lt.mpr (Nat.le_trans isOld bounded))

/-- What is new in a feed is behind the bound, so the reader still has everything up to it. -/
theorem Covers.advances (covers : feed.Covers s has bound) (advances : feed.Advances s t) :
    feed.Covers t has bound where
  bounded := Nat.le_trans covers.bounded advances.last_le
  has_shown := fun key number shows isOld => covers.has_shown key number
    (shows_of_advances advances covers.bounded shows isOld) isOld

/-- A reader that gets more still has everything up to the bound. -/
theorem Covers.mono (covers : feed.Covers s has bound) (more : ∀ key, has key → has' key) :
    feed.Covers s has' bound :=
  ⟨covers.bounded, fun key number shows isOld =>
    more key (covers.has_shown key number shows isOld)⟩

/-- A list of wanted entries stays right when the feed advances. -/
theorem Wants.advances (wants : feed.Wants s has want bound) (advances : feed.Advances s t) :
    feed.Wants t has want bound where
  bounded := Nat.le_trans wants.bounded advances.last_le
  sorted := wants.sorted
  below := wants.below
  shown := fun key number shows isOld => wants.shown key number
    (shows_of_advances advances wants.bounded shows isOld) isOld

theorem Wants.mono (wants : feed.Wants s has want bound) (more : ∀ key, has key → has' key) :
    feed.Wants s has' want bound :=
  { wants with
    shown := fun key number shows isOld =>
      (wants.shown key number shows isOld).imp_left (more key) }

/-- Before anything is saved, nothing is wanted. -/
theorem Covers.wants (covers : feed.Covers s has bound) : feed.Wants s has [] bound :=
  ⟨covers.bounded, .nil, fun _ member => absurd member List.not_mem_nil,
    fun key number shows isOld => .inl (covers.has_shown key number shows isOld)⟩

/-- When the first entry has been fetched, its number can be saved. -/
theorem Wants.covers_head (wants : feed.Wants s has ((key, number) :: rest) bound)
    (isThere : has key) : feed.Covers s has number := by
  have atMost := wants.below _ (List.mem_cons_self ..)
  constructor
  · exact Nat.le_trans atMost wants.bounded
  · intro key' number' shows isOld
    rcases wants.shown key' number' shows (Nat.le_trans isOld atMost) with old | wanted
    · exact old
    · rcases List.mem_cons.mp wanted with isHead | later
      · cases isHead
        exact isThere
      · have less := (List.pairwise_cons.mp wants.sorted).1 _ later
        exact absurd less (Nat.not_lt.mpr isOld)

/-- When the first wanted entry is there, the others are still wanted. -/
theorem Wants.tail (wants : feed.Wants s has ((key, number) :: rest) bound)
    (isThere : has key) : feed.Wants s has rest bound where
  bounded := wants.bounded
  sorted := (List.pairwise_cons.mp wants.sorted).2
  below := fun entry member => wants.below entry (List.mem_cons_of_mem _ member)
  shown := fun key' number' shows isOld => by
    rcases wants.shown key' number' shows isOld with old | wanted
    · exact .inl old
    · rcases List.mem_cons.mp wanted with isHead | later
      · cases isHead
        exact .inl isThere
      · exact .inr later

end Feed

end Mintter.Foundation
