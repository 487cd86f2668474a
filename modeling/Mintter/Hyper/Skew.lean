import Mintter.Hyper.Clock

/-!
# Timestamps that are too far ahead

`Track` accepts a timestamp that is less than a minute ahead of the wall clock.  The
distance is turned into nanoseconds in 64-bit arithmetic.  A distance of more than 292
years wraps around, so it can come out on the other side of the threshold.
-/

namespace Mintter.Hyper

/-- The distance in microseconds is taken for one on the other side of a minute. -/
def Misjudged (distance : Int) : Prop :=
  (∃ k : Int, 0 < k ∧ 2 ^ 64 * k - 2 ^ 63 ≤ distance * 1000 ∧
      distance * 1000 < 2 ^ 64 * k + 60 * 10 ^ 9) ∨
    ∃ k : Int, k < 0 ∧ 2 ^ 64 * k + 60 * 10 ^ 9 ≤ distance * 1000 ∧
      distance * 1000 < 2 ^ 64 * k + 2 ^ 63

/-- A call of `Track`: the timestamp and the reading of the wall clock. -/
structure Tracking where
  t : Int
  wall : Int

namespace Clock

/-- The clock after a call of `Track`, also one that fails. -/
def afterTrack (hc : Clock) (call : Tracking) : Clock :=
  (hc.track call.t call.wall).toOption.getD hc

/-- Track timestamps one after the other. -/
def trackAll (hc : Clock) (calls : List Tracking) : Clock := calls.foldl afterTrack hc

/-- The calls accept the timestamps that are less than a minute ahead, and no others. -/
structure TracksExactly (calls : List Tracking) : Prop where
  accepts : ∀ call ∈ calls, ∀ hc : Clock,
    (∃ next, hc.track call.t call.wall = .ok next) ↔ call.t - call.wall < 60 * 10 ^ 6
  unchanged : ∀ call ∈ calls, ∀ (hc : Clock) err,
    hc.track call.t call.wall = .error err → hc.afterTrack call = hc
  notAhead : ∀ (hc : Clock) wall, (∀ call ∈ calls, call.wall ≤ wall) →
    (hc.trackAll calls).maxTime = hc.maxTime ∨
      (hc.trackAll calls).maxTime < wall + 60 * 10 ^ 6

section Track

variable {hc : Clock} {t wall : Int} {calls : List Tracking}

/-- A timestamp is accepted when the wrapped distance is less than a minute. -/
theorem track_accepts_iff :
    (∃ next, hc.track t wall = .ok next) ↔
      wrap64 ((t - wall) * 1000) < 60 * 10 ^ 9 := by
  rw [track, validateSkew, wrap64_mul, ← skewThreshold, ← not_le]
  by_cases ahead : skewThreshold ≤ wrap64 ((t - wall) * 1000)
  · rw [if_pos ahead]
    exact iff_of_false (by rintro ⟨next, accepted⟩; cases accepted) (not_not_intro ahead)
  · rw [if_neg ahead]
    exact iff_of_true ⟨_, rfl⟩ ahead

/-- Wrapping takes off the nearest multiple of `2 ^ 64`. -/
theorem exists_wraps (n : Int) :
    ∃ k, n = 2 ^ 64 * k + wrap64 n ∧ -2 ^ 63 ≤ wrap64 n ∧ wrap64 n < 2 ^ 63 := by
  have low : -2 ^ 63 ≤ wrap64 n := by
    have := @Int.le_bmod n (2 ^ 64) (by norm_num)
    simp only [wrap64]
    omega
  exact ⟨n.bdiv (2 ^ 64), (Int.bdiv_add_bmod n (2 ^ 64)).symm, low, wrap64_lt n⟩

/-- The wrapped distance is on the right side of a minute unless it is misjudged. -/
theorem accepts_iff_not_misjudged (distance : Int) :
    (wrap64 (distance * 1000) < 60 * 10 ^ 9 ↔ distance < 60 * 10 ^ 6) ↔
      ¬ Misjudged distance := by
  rcases exists_wraps (distance * 1000) with ⟨k, split, low, high⟩
  generalize wrap64 (distance * 1000) = rest at split low high ⊢
  constructor
  · rintro right (⟨k', positive, above, below⟩ | ⟨k', negative, above, below⟩)
    · have same : k' = k := by omega
      omega
    · have same : k' = k := by omega
      omega
  · intro notMisjudged
    rcases lt_trichotomy k 0 with negative | none | positive
    · have less : ¬ 60 * 10 ^ 9 ≤ rest := fun notLess =>
        notMisjudged (.inr ⟨k, negative, by omega, by omega⟩)
      constructor <;> omega
    · rw [none] at split
      constructor <;> omega
    · have notLess : ¬ rest < 60 * 10 ^ 9 := fun less =>
        notMisjudged (.inl ⟨k, positive, by omega, by omega⟩)
      constructor <;> omega

/-- What was tracked last was there before or is not ahead of the wall clock. -/
theorem trackAll_notAhead
    (accepts : ∀ call ∈ calls, ∀ hc : Clock,
      (∃ next, hc.track call.t call.wall = .ok next) →
        call.t - call.wall < 60 * 10 ^ 6)
    (readings : ∀ call ∈ calls, call.wall ≤ wall) (hc : Clock) :
    (hc.trackAll calls).maxTime = hc.maxTime ∨
      (hc.trackAll calls).maxTime < wall + 60 * 10 ^ 6 := by
  induction calls generalizing hc with
  | nil => exact .inl rfl
  | cons call calls induction =>
      have reading := readings call (List.mem_cons_self ..)
      have acceptsFirst := accepts call (List.mem_cons_self ..)
      replace readings := fun other member => readings other (List.mem_cons_of_mem _ member)
      replace accepts := fun other member => accepts other (List.mem_cons_of_mem _ member)
      rw [trackAll, List.foldl_cons, ← trackAll]
      cases tracked : hc.track call.t call.wall with
      | error err =>
          rw [afterTrack, tracked, Except.toOption, Option.getD_none]
          exact induction accepts readings hc
      | ok next =>
          have notAhead := acceptsFirst hc ⟨next, tracked⟩
          have max_eq := track_maxTime tracked
          rw [afterTrack, tracked, Except.toOption, Option.getD_some]
          rcases induction accepts readings next with same | less
          · rcases max_choice hc.maxTime call.t with old | new
            · exact .inl (by rw [same, max_eq, old])
            · right
              rw [same, max_eq, new]
              omega
          · exact .inr less

/--
`Track` accepts exactly the timestamps that are not too far ahead, unless the distance of
one is misjudged.
-/
theorem tracksExactly_iff : TracksExactly calls ↔
    ∀ call ∈ calls, ¬ Misjudged (call.t - call.wall) := by
  constructor
  · intro exactly call member
    have accepts := exactly.accepts call member newClock
    rw [track_accepts_iff] at accepts
    exact (accepts_iff_not_misjudged _).mp accepts
  · intro judged
    have accepts : ∀ call ∈ calls, ∀ hc : Clock,
        (∃ next, hc.track call.t call.wall = .ok next) ↔
          call.t - call.wall < 60 * 10 ^ 6 := by
      intro call member hc
      rw [track_accepts_iff]
      exact (accepts_iff_not_misjudged _).mpr (judged call member)
    constructor
    · exact accepts
    · intro call _ hc err failed
      rw [afterTrack, failed, Except.toOption, Option.getD_none]
    · intro hc wall readings
      apply trackAll_notAhead _ readings hc
      intro call member hc
      exact (accepts call member hc).mp

/-- A timestamp that is more than 73000 years ahead is accepted. -/
theorem distant_future_is_tracked :
    Fits64 (1700000000000000 + 2 ^ 61) ∧ Fits64 1700000000000000 ∧
      newClock.track (1700000000000000 + 2 ^ 61) 1700000000000000 =
        .ok ⟨1700000000000000 + 2 ^ 61⟩ ∧
      ¬ TracksExactly [⟨1700000000000000 + 2 ^ 61, 1700000000000000⟩] := by
  have tracked : newClock.track (1700000000000000 + 2 ^ 61) 1700000000000000 =
      .ok ⟨1700000000000000 + 2 ^ 61⟩ := by
    decide
  refine ⟨⟨by decide, by decide⟩, ⟨by decide, by decide⟩, tracked, fun exactly => ?_⟩
  have less := (exactly.accepts _ (List.mem_singleton_self _) newClock).mp ⟨_, tracked⟩
  revert less
  decide

end Track

end Clock

end Mintter.Hyper
