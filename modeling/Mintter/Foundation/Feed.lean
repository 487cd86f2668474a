import Mintter.Foundation.Reaches

/-!
# Feeds of numbered entries

A system shows some of its entries under numbers, and readers resume from a number
that they were given.  `Advances` is what a step has to do so that no reader misses
an entry: an entry that the step begins to show has a number greater than all
numbers before the step.
-/

namespace Mintter.Foundation

/-- What a system shows, and the greatest number that it ever gave to an entry. -/
structure Feed (σ κ : Type*) where
  last : σ → Nat
  Shows : σ → κ → Nat → Prop

namespace Feed

variable {σ κ : Type*} {feed : Feed σ κ} {s t u : σ} {excepted : κ → Prop}

/--
Apart from these entries, those that the second state shows are shown by the first
one under the same number, or they have a new number.
-/
structure AdvancesExcept (feed : Feed σ κ) (excepted : κ → Prop) (s t : σ) :
    Prop where
  last_le : feed.last s ≤ feed.last t
  shown : ∀ key number, ¬ excepted key → feed.Shows t key number →
    feed.Shows s key number ∨ feed.last s < number

/-- What the second state shows anew has a new number. -/
abbrev Advances (feed : Feed σ κ) (s t : σ) : Prop :=
  feed.AdvancesExcept (fun _ => False) s t

theorem AdvancesExcept.refl (s : σ) : feed.AdvancesExcept excepted s s :=
  ⟨Nat.le_refl _, fun _ _ _ shows => .inl shows⟩

/-- Two advances make one. -/
theorem AdvancesExcept.trans (first : feed.AdvancesExcept excepted s t)
    (second : feed.AdvancesExcept excepted t u) :
    feed.AdvancesExcept excepted s u := by
  constructor
  · exact Nat.le_trans first.last_le second.last_le
  · intro key number notExcepted shows
    rcases second.shown key number notExcepted shows with shows | isNew
    · exact first.shown key number notExcepted shows
    · exact .inr (Nat.lt_of_le_of_lt first.last_le isNew)

/-- What advances for all keys advances for all but the excepted ones. -/
theorem Advances.except (advances : feed.Advances s t) (excepted : κ → Prop) :
    feed.AdvancesExcept excepted s t :=
  ⟨advances.last_le, fun key number _ => advances.shown key number id⟩

/-- Entries that are not shown, or under new numbers, need no exception. -/
theorem AdvancesExcept.advances (advances : feed.AdvancesExcept excepted s t)
    (isNew : ∀ key number, excepted key → feed.Shows t key number →
      feed.last s < number) : feed.Advances s t := by
  constructor
  · exact advances.last_le
  · intro key number _ shows
    by_cases isExcepted : excepted key
    · exact .inr (isNew key number isExcepted shows)
    · exact advances.shown key number isExcepted shows

/-- An entry that is shown since a number was handed out has a greater number. -/
theorem AdvancesExcept.new_after (advances : feed.Advances s t) {key : κ}
    {cursor number : Nat} (handed : cursor ≤ feed.last s)
    (shows : feed.Shows t key number)
    (isNew : ∀ number, ¬ feed.Shows s key number) : cursor < number := by
  rcases advances.shown key number id shows with shows | after
  · exact absurd shows (isNew number)
  · exact Nat.lt_of_le_of_lt handed after

/-- A run of steps that advance advances. -/
theorem advances_of_reaches {ι : Type*} {step : σ → ι → Option σ}
    {permitted : σ → ι → Prop}
    (steps : ∀ before input after, step before input = some after →
      feed.Advances before after)
    (run : Reaches step permitted s t) : feed.Advances s t :=
  run.invariant (fun before input after advances _ stepped =>
    advances.trans (steps before input after stepped)) (.refl s)

end Feed

end Mintter.Foundation
