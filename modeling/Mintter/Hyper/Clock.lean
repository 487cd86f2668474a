import Mathlib.Tactic

/-!
# The hybrid logical clock

A timestamp is a 64-bit count of microseconds.  The wall clock is read from
outside; every reading is an argument.  Differences are turned into
nanoseconds in 64-bit arithmetic, so they wrap around for timestamps that are
centuries apart.
-/

namespace Mintter.Hyper

/-- The result of an operation on 64-bit integers. -/
def wrap64 (n : Int) : Int := n.bmod (2 ^ 64)

theorem wrap64_lt (n : Int) : wrap64 n < 2 ^ 63 := by
  have := @Int.bmod_lt n (2 ^ 64) (by norm_num)
  simp only [wrap64]
  omega

theorem wrap64_eq_self {n : Int} (low : -2 ^ 63 ≤ n) (high : n < 2 ^ 63) :
    wrap64 n = n := by
  rw [wrap64, Int.bmod_eq_of_le] <;> omega

/-- A hybrid clock knows the greatest timestamp so far. -/
structure Clock where
  maxTime : Int
deriving DecidableEq, Repr

/-- A clock that has seen no timestamp. -/
def newClock : Clock := ⟨0⟩

/-- One minute, in nanoseconds. -/
def skewThreshold : Int := 60 * 10 ^ 9

/-- The distance in nanoseconds, unless `base` is far ahead of `t`. -/
def validateSkew (base t : Int) : Except String Int :=
  let diff := wrap64 (wrap64 (base - t) * 1000)
  if skewThreshold ≤ diff then
    .error s!"base time {base} is way ahead of the tracked time {t}: {diff}ns"
  else .ok diff

namespace Clock

/-- The unexported `track`: remember the greatest timestamp. -/
def keepMax (hc : Clock) (t : Int) : Clock :=
  if hc.maxTime < t then ⟨t⟩ else hc

/-- A new timestamp for the reading `now` of the wall clock. -/
def now (hc : Clock) (now : Int) : Except String (Int × Clock) :=
  match validateSkew hc.maxTime now with
  | .error err => .error err
  | .ok diff =>
      let now := if 0 ≤ diff then wrap64 (now + (diff / 1000 + 1)) else now
      .ok (now, hc.keepMax now)

/-- Track a timestamp of another clock while the wall clock reads `wall`. -/
def track (hc : Clock) (t wall : Int) : Except String Clock :=
  match validateSkew t wall with
  | .error err =>
      .error s!"tracked timestamp is way ahead of the local time: {err}"
  | .ok _ => .ok (hc.keepMax t)

end Clock

/-! ## Timestamps that are in step with the wall clock -/

/--
The timestamp is less than a minute ahead of the wall clock, and both are
small enough for the difference in nanoseconds to fit 64 bits.
-/
structure InStep (t wall : Int) : Prop where
  nonneg : 0 ≤ t
  wall_nonneg : 0 ≤ wall
  wall_le : wall ≤ 9 * 10 ^ 15
  ahead : t < wall + 60 * 10 ^ 6

instance (t wall : Int) : Decidable (InStep t wall) :=
  decidable_of_iff
    (0 ≤ t ∧ 0 ≤ wall ∧ wall ≤ 9 * 10 ^ 15 ∧ t < wall + 60 * 10 ^ 6)
    ⟨fun ⟨h₁, h₂, h₃, h₄⟩ => ⟨h₁, h₂, h₃, h₄⟩,
      fun h => ⟨h.nonneg, h.wall_nonneg, h.wall_le, h.ahead⟩⟩

section InStep

variable {hc : Clock} {t wall : Int}

theorem InStep.validateSkew_eq (inStep : InStep t wall) :
    validateSkew t wall = .ok ((t - wall) * 1000) := by
  obtain ⟨nonneg, wallNonneg, wallLe, ahead⟩ := inStep
  have inner : wrap64 (t - wall) = t - wall :=
    wrap64_eq_self (by omega) (by omega)
  have outer : wrap64 ((t - wall) * 1000) = (t - wall) * 1000 :=
    wrap64_eq_self (by omega) (by omega)
  rw [validateSkew, inner, outer, if_neg]
  simp only [skewThreshold]
  omega

/-- A clock that is in step with the wall clock returns a greater timestamp. -/
theorem InStep.now_spec (inStep : InStep hc.maxTime wall) :
    ∃ t, hc.now wall = .ok (t, ⟨t⟩) ∧ hc.maxTime < t ∧ 0 < t ∧
      wall ≤ t ∧ t ≤ wall + 60 * 10 ^ 6 := by
  obtain ⟨nonneg, wallNonneg, wallLe, ahead⟩ := id inStep
  rw [Clock.now, inStep.validateSkew_eq]
  by_cases behind : 0 ≤ (hc.maxTime - wall) * 1000
  · have next : wrap64 (wall + ((hc.maxTime - wall) * 1000 / 1000 + 1)) =
        hc.maxTime + 1 := by
      rw [Int.mul_ediv_cancel _ (by norm_num), wrap64_eq_self] <;> omega
    simp only [behind, if_true, next]
    exact ⟨hc.maxTime + 1, by simp [Clock.keepMax], by omega, by omega,
      by omega, by omega⟩
  · have less : hc.maxTime < wall := by omega
    simp only [behind, if_false]
    exact ⟨wall, by simp [Clock.keepMax, less], less, by omega, le_rfl,
      by omega⟩

end InStep

theorem Clock.keepMax_maxTime (hc : Clock) (t : Int) :
    (hc.keepMax t).maxTime = max hc.maxTime t := by
  rw [keepMax]
  split_ifs with less
  · exact (max_eq_right less.le).symm
  · exact (max_eq_left (not_lt.mp less)).symm

theorem Clock.track_maxTime {hc hc' : Clock} {t wall : Int}
    (tracked : hc.track t wall = .ok hc') :
    hc'.maxTime = max hc.maxTime t := by
  rw [track] at tracked
  split at tracked
  · cases tracked
  · rw [← Except.ok.inj tracked, keepMax_maxTime]

/-! ## Runs of one clock -/

/-- A call of a clock: a reading of its wall clock or a tracked timestamp. -/
inductive ClockCall where
  | now (reading : Int)
  | track (t wall : Int)

/-- A value of a 64-bit integer. -/
structure Fits64 (n : Int) : Prop where
  low : -2 ^ 63 ≤ n
  high : n < 2 ^ 63

/-- The argument of the call. -/
def ClockCall.argument : ClockCall → Int
  | .now reading => reading
  | .track t _ => t

namespace Clock

/-- Make one call: the timestamp, marked by true when the clock returned it. -/
def perform (hc : Clock) : ClockCall → Except String ((Bool × Int) × Clock)
  | .now reading => (hc.now reading).map fun next => ((true, next.1), next.2)
  | .track t wall => (hc.track t wall).map fun next => ((false, t), next)

/--
The timestamps that successful calls return or track, in order.  A failing call
leaves the clock as it is.
-/
def timestamps (hc : Clock) : List ClockCall → List (Bool × Int)
  | [] => []
  | call :: calls =>
      match hc.perform call with
      | .error _ => hc.timestamps calls
      | .ok (stamp, next) => stamp :: next.timestamps calls

/--
The reading is not so far behind that the distance in nanoseconds is more than
a 64-bit integer holds, and neither is the next timestamp.
-/
structure InReach (hc : Clock) (reading : Int) : Prop where
  behind : (hc.maxTime - reading) * 1000 < 2 ^ 63
  next : ∀ diff, validateSkew hc.maxTime reading = .ok diff → 0 ≤ diff →
    reading + (diff / 1000 + 1) < 2 ^ 63

/-- Every successful reading of a run is in reach. -/
def Paced (hc : Clock) : List ClockCall → Prop
  | [] => True
  | call :: calls =>
      match hc.perform call with
      | .error _ => hc.Paced calls
      | .ok (_, next) =>
          (∀ reading, call = .now reading → hc.InReach reading) ∧
            next.Paced calls

/-- A later timestamp is greater when it was returned. -/
def Increases (earlier later : Bool × Int) : Prop :=
  later.1 = true → earlier.2 < later.2

section Runs

variable {hc hc' : Clock} {t reading : Int}

/-- Only the greatest of the earlier timestamps matters. -/
theorem increases_cons_iff {known : Int} {returned : Bool}
    {rest : List (Bool × Int)} :
    ((false, known) :: (returned, t) :: rest).Pairwise Increases ↔
      (returned = true → known < t) ∧
        ((false, max known t) :: rest).Pairwise Increases := by
  simp only [List.pairwise_cons, List.forall_mem_cons, Increases]
  constructor
  · rintro ⟨⟨first, known_lt⟩, t_lt, rest⟩
    exact ⟨first, fun later member flagged =>
      max_lt (known_lt later member flagged) (t_lt later member flagged), rest⟩
  · rintro ⟨first, max_lt, rest⟩
    exact ⟨⟨first, fun later member flagged =>
        (le_max_left known t).trans_lt (max_lt later member flagged)⟩,
      fun later member flagged =>
        (le_max_right known t).trans_lt (max_lt later member flagged), rest⟩

theorem validateSkew_eq_ok {base diff : Int}
    (valid : validateSkew base t = .ok diff) :
    diff = wrap64 (wrap64 (base - t) * 1000) ∧ diff < skewThreshold := by
  rw [validateSkew] at valid
  split_ifs at valid with ahead
  exact ⟨(Except.ok.inj valid).symm, Except.ok.inj valid ▸ not_le.mp ahead⟩

/-- The two wrapping operations together wrap once. -/
theorem wrap64_mul (n : Int) :
    wrap64 (wrap64 n * 1000) = wrap64 (n * 1000) := by
  simp only [wrap64]
  exact Int.bmod_mul_bmod

theorem now_eq_ok (returned : hc.now reading = .ok (t, hc')) :
    ∃ diff, validateSkew hc.maxTime reading = .ok diff ∧
      t = (if 0 ≤ diff then wrap64 (reading + (diff / 1000 + 1)) else reading) ∧
      hc'.maxTime = max hc.maxTime t := by
  rw [now] at returned
  split at returned
  · cases returned
  next diff valid =>
    obtain ⟨isNow, isClock⟩ := Prod.mk.inj (Except.ok.inj returned)
    exact ⟨diff, valid, isNow.symm, by rw [← isClock, keepMax_maxTime, isNow]⟩

/--
A returned timestamp is greater than the greatest known one exactly when the
reading was in reach.
-/
theorem now_increases_iff (nonneg : 0 ≤ hc.maxTime) (high : hc.maxTime < 2 ^ 63)
    (fits : Fits64 reading) (returned : hc.now reading = .ok (t, hc')) :
    hc.maxTime < t ↔ hc.InReach reading := by
  obtain ⟨low, top⟩ := fits
  obtain ⟨diff, valid, t_eq, -⟩ := now_eq_ok returned
  obtain ⟨diff_eq, short⟩ := validateSkew_eq_ok valid
  have reach_iff : hc.InReach reading ↔
      (hc.maxTime - reading) * 1000 < 2 ^ 63 ∧
        (0 ≤ diff → reading + (diff / 1000 + 1) < 2 ^ 63) := by
    constructor
    · exact fun ⟨behind, next⟩ => ⟨behind, next diff valid⟩
    · rintro ⟨behind, next⟩
      refine ⟨behind, fun other valid' => ?_⟩
      rwa [← Except.ok.inj (valid.symm.trans valid')]
  rw [reach_iff, t_eq]
  rw [wrap64_mul] at diff_eq
  simp only [skewThreshold] at short
  by_cases behind : (hc.maxTime - reading) * 1000 < 2 ^ 63
  · by_cases negative : diff < 0
    · -- The clock returns the reading, which is ahead of all it knows.
      have ahead : hc.maxTime < reading := by
        by_contra notAhead
        rw [wrap64_eq_self (by omega) behind] at diff_eq
        omega
      rw [if_neg negative.not_ge]
      exact iff_of_true ahead ⟨behind, fun notNegative => by omega⟩
    · have notNegative := not_lt.mp negative
      simp only [notNegative, if_true, behind, true_and, true_implies]
      constructor
      · intro increases
        by_contra overflows
        -- The sum wraps around to a negative timestamp.
        have wrapped : wrap64 (reading + (diff / 1000 + 1)) < 0 := by
          have shifted : wrap64 (reading + (diff / 1000 + 1)) =
              wrap64 (reading + (diff / 1000 + 1) - 2 ^ 64) := by
            simp only [wrap64]
            exact (Int.sub_bmod_right _ _).symm
          rw [shifted, wrap64_eq_self] <;> omega
        omega
      · intro next
        rw [wrap64_eq_self (by omega) next]
        by_cases ahead : hc.maxTime < reading
        · omega
        · rw [wrap64_eq_self (by omega) behind] at diff_eq
          omega
  · -- The clock returns the reading or a little more, far behind what it knows.
    simp only [behind, false_and, iff_false, not_lt]
    split_ifs with notNegative
    · rw [wrap64_eq_self] <;> omega
    · omega

/-- One successful call. -/
theorem perform_spec {call : ClockCall} {returned : Bool}
    (nonneg : 0 ≤ hc.maxTime) (high : hc.maxTime < 2 ^ 63)
    (fits : Fits64 call.argument)
    (performed : hc.perform call = .ok ((returned, t), hc')) :
    hc'.maxTime = max hc.maxTime t ∧ t < 2 ^ 63 ∧
      ((returned = true → hc.maxTime < t) ↔
        ∀ reading, call = .now reading → hc.InReach reading) := by
  cases call with
  | now reading =>
      rw [perform] at performed
      cases result : hc.now reading with
      | error err => simp [result, Except.map] at performed
      | ok next =>
          simp only [result, Except.map, Except.ok.injEq, Prod.mk.injEq]
            at performed
          obtain ⟨⟨rfl, rfl⟩, rfl⟩ := performed
          obtain ⟨diff, -, t_eq, max_eq⟩ := now_eq_ok result
          refine ⟨max_eq, ?_, ?_⟩
          · rw [t_eq]
            split_ifs
            · exact wrap64_lt _
            · exact fits.high
          · have increases : hc.maxTime < next.1 ↔ hc.InReach reading :=
              now_increases_iff nonneg high fits result
            simp [increases]
  | track t' wall =>
      rw [perform] at performed
      cases result : hc.track t' wall with
      | error err => simp [result, Except.map] at performed
      | ok next =>
          simp only [result, Except.map, Except.ok.injEq, Prod.mk.injEq]
            at performed
          obtain ⟨⟨rfl, rfl⟩, rfl⟩ := performed
          exact ⟨track_maxTime result, fits.high, by simp⟩

/--
For a clock whose greatest known timestamp is put first: every returned
timestamp is greater than all known before it exactly when every successful
reading is in reach.
-/
theorem timestamps_increase_iff {calls : List ClockCall}
    (nonneg : 0 ≤ hc.maxTime) (high : hc.maxTime < 2 ^ 63)
    (fits : ∀ call ∈ calls, Fits64 call.argument) :
    ((false, hc.maxTime) :: hc.timestamps calls).Pairwise Increases ↔
      hc.Paced calls := by
  induction calls generalizing hc with
  | nil => simp [timestamps, Paced]
  | cons call calls induction =>
      have callFits := fits call (List.mem_cons_self ..)
      replace fits := fun call member => fits call (List.mem_cons_of_mem _ member)
      cases performed : hc.perform call with
      | error err =>
          simp only [timestamps, Paced, performed]
          exact induction nonneg high fits
      | ok next =>
          obtain ⟨⟨returned, t⟩, hc'⟩ := next
          obtain ⟨max_eq, below, increases_iff⟩ :=
            perform_spec nonneg high callFits performed
          simp only [timestamps, Paced, performed]
          rw [increases_cons_iff, ← max_eq, induction (by omega) (by omega)
            fits, increases_iff]

theorem timestamps_increase_iff_newClock :
    ((false, 0) :: newClock.timestamps
        [.now 1700000000000000, .track 1700000000000009 1700000000000003,
          .now 1700000000000005]).Pairwise Increases ↔
      newClock.Paced
        [.now 1700000000000000, .track 1700000000000009 1700000000000003,
          .now 1700000000000005] :=
  timestamps_increase_iff le_rfl (by decide)
    (List.forall_mem_cons.mpr ⟨⟨by decide, by decide⟩,
      List.forall_mem_cons.mpr ⟨⟨by decide, by decide⟩,
        List.forall_mem_cons.mpr ⟨⟨by decide, by decide⟩, by simp⟩⟩⟩)

/--
A timestamp that is 2^61 microseconds ahead is tracked, as the distance in
nanoseconds wraps around to zero; the next timestamp is behind it.
-/
theorem tracked_future_is_not_increased :
    newClock.timestamps
        [.track (1700000000000000 + 2 ^ 61) 1700000000000000,
          .now 1700000000000000] =
      [(false, 1700000000000000 + 2 ^ 61), (true, 1700000000000001)] ∧
    ¬ (newClock.timestamps
        [.track (1700000000000000 + 2 ^ 61) 1700000000000000,
          .now 1700000000000000]).Pairwise Increases := by
  have stamps : newClock.timestamps
      [.track (1700000000000000 + 2 ^ 61) 1700000000000000,
        .now 1700000000000000] =
      [(false, 1700000000000000 + 2 ^ 61), (true, 1700000000000001)] := by
    decide
  refine ⟨stamps, fun increases => ?_⟩
  rw [stamps] at increases
  simp [Increases] at increases

end Runs

end Clock

end Mintter.Hyper
