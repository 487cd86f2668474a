import Mathlib.Data.List.Basic
import Mathlib.Tactic.Common
import Mathlib.Tactic.IntervalCases
import Mathlib.Tactic.Linarith

/-!
# Workers that sync with a peer

On each tick a worker runs a state machine, from `checkConnection` to `sleeping`.  What the
machine finds out on the way (the state of the peer, whether it connects, what time it is) comes
from outside, one answer a transition.

A peer without addresses is tried again later and later.  The delay is shifted by the number of
attempts, and the shift may drop the highest bits; then the deadline is not ahead.
-/

namespace Mintter.Syncing

/-- The states of the worker. -/
inductive WorkerState where
  | checkConnection
  | connecting
  | syncing
  | backoff
  | sleeping
deriving DecidableEq

/-- What is known of the connection to a peer. -/
inductive PeerState where
  | noAddr
  | online
  | offline
deriving DecidableEq

/-- What is known about the peer. -/
structure Peer where
  connected : Bool
  addrs : Nat

/-- A peer is online if it is connected, and offline if it has addresses. -/
def getPeerState (peer : Peer) : PeerState :=
  if peer.connected then .online
  else if 0 < peer.addrs then .offline
  else .noAddr

/--
What one transition of the machine finds out: the peer, whether the context is done before there
is a place at the semaphore, whether the host connects, the peer after that, and the time.
-/
structure Answer where
  peer : Peer
  done : Bool
  connects : Bool
  peerAfter : Peer
  now : Nat

/-- Try to connect, and look again if it fails. -/
def connect (answer : Answer) : PeerState :=
  if answer.connects then .online else getPeerState answer.peerAfter

/-- Connect to a peer that is not online, unless no address was found before. -/
def maybeConnect (answer : Answer) (attempts : Int) : PeerState :=
  match getPeerState answer.peer with
  | .online => .online
  | .offline => connect answer
  | .noAddr => if attempts ≠ -1 ∧ answer.done then .noAddr else connect answer

/-- When a deadline was set, and for when. -/
structure Deadline where
  setAt : Nat
  time : Int
deriving DecidableEq

/-- How far the deadline was ahead when it was set. -/
def Deadline.distance (deadline : Deadline) : Int := deadline.time - deadline.setAt

/-- The variables of the worker, and the deadlines that were set since the last sync, the latest
one first.  The zero time is 0. -/
structure Worker where
  attempts : Int
  deadline : Int
  backoffs : List Deadline
deriving DecidableEq

/-- A worker that has never backed off. -/
def Worker.new : Worker := ⟨-1, 0, []⟩

/-- The value of an `int64`. -/
def int64 (n : Int) : Int := n.bmod (2 ^ 64)

/-- At least 1, since the first attempt is -1. -/
def nextAttempts (attempts : Int) : Int := max 1 (int64 (attempts + 1))

/-- A duration is shifted as an `int64`. -/
def delay (interval : Int) (attempts : Int) : Int := int64 (interval * 2 ^ attempts.toNat)

/-- Count an attempt more and set the deadline. -/
def Worker.backOff (w : Worker) (interval : Int) (now : Nat) : Worker :=
  let attempts := nextAttempts w.attempts
  let deadline := now + delay interval attempts
  ⟨attempts, deadline, ⟨now, deadline⟩ :: w.backoffs⟩

/-- One step of the worker. -/
def step (interval : Int) (answer : Answer) : WorkerState × Worker → WorkerState × Worker
  | (.checkConnection, w) =>
      (if getPeerState answer.peer = .online then .syncing else .backoff, w)
  | (.connecting, w) =>
      match maybeConnect answer w.attempts with
      | .online => (.syncing, w)
      | .offline => (.sleeping, w)
      | .noAddr => (.backoff, w.backOff interval answer.now)
  | (.syncing, _) => (.sleeping, ⟨0, 0, []⟩)
  | (.backoff, w) => (if answer.now < w.deadline then .sleeping else .connecting, w)
  | (.sleeping, w) => (.sleeping, w)

/-- A tick, with its answers, after some transitions. -/
def tickAfter (interval : Int) (w : Worker) (answers : Nat → Answer) :
    Nat → WorkerState × Worker
  | 0 => (.checkConnection, w)
  | n + 1 => step interval (answers n) (tickAfter interval w answers n)

/-- The tick leaves the variables as they are in the second worker. -/
def Ticks (interval : Int) (w : Worker) (answers : Nat → Answer) (w' : Worker) : Prop :=
  ∃ n, tickAfter interval w answers n = (.sleeping, w')

/-! ## What is expected of a worker -/

/-- All deadlines are ahead, and their distances do not decrease. -/
structure Worker.Apart (w : Worker) : Prop where
  ahead : ∀ deadline ∈ w.backoffs, (deadline.setAt : Int) < deadline.time
  slower : w.backoffs.Pairwise fun later earlier => earlier.distance ≤ later.distance

/-- A tick comes to an end, and connects once at most. -/
structure TickBacksOff (interval : Int) (w : Worker) (answers : Nat → Answer) : Prop where
  sleeps : ∃ n, (tickAfter interval w answers n).1 = .sleeping
  connectsOnce : ∀ m n, (tickAfter interval w answers m).1 = .connecting →
    (tickAfter interval w answers n).1 = .connecting → m = n
  apart : ∀ n, (tickAfter interval w answers n).2.Apart

/-- Every tick of the run backs off. -/
def BacksOff (interval : Int) (w : Worker) : List (Nat → Answer) → Prop
  | [] => True
  | answers :: rest => TickBacksOff interval w answers ∧
      ∀ w', Ticks interval w answers w' → BacksOff interval w' rest

/-! ## When a worker does so -/

/-- The tick tries to connect, and there are no addresses. -/
structure FindsNoAddr (w : Worker) (answers : Nat → Answer) : Prop where
  notOnline : getPeerState (answers 0).peer ≠ .online
  deadline : ¬ (answers 1).now < w.deadline
  noAddr : maybeConnect (answers 2) w.attempts = .noAddr

/-- Shifting the interval drops no bit, and the time has not yet passed the deadline when it is
read again. -/
def InTime (interval : Int) (w : Worker) (answers : Nat → Answer) : Prop :=
  FindsNoAddr w answers →
    interval * 2 ^ (nextAttempts w.attempts).toNat < 2 ^ 63 ∧
      ((answers 3).now : Int) <
        (answers 2).now + interval * 2 ^ (nextAttempts w.attempts).toNat

/-- Every tick of the list is in time for the worker that it finds. -/
def AllInTime (interval : Int) (w : Worker) : List (Nat → Answer) → Prop
  | [] => True
  | answers :: rest => InTime interval w answers ∧
      ∀ w', Ticks interval w answers w' → AllInTime interval w' rest

/-! ## Shifted durations -/

/-- A number that fits stays as it is. -/
theorem int64_eq {n : Int} (notNegative : 0 ≤ n) (bound : n < 2 ^ 63) : int64 n = n :=
  Int.bmod_eq_of_le (by omega) (by omega)

/-- A duration that has lost a bit is not positive. -/
theorem int64_not_positive {n : Int} (lost : 2 ^ 63 ≤ n) (bound : n < 2 ^ 64) :
    int64 n ≤ 0 := by
  rw [int64, Int.bmod]
  split_ifs
  · omega
  · omega

variable {interval : Int} {w w' : Worker} {answers : Nat → Answer}

/-- The attempts since the last sync have lost no bit, and none of them is ahead of the last
one. -/
structure Steady (interval : Int) (w : Worker) : Prop where
  apart : w.Apart
  lower : -1 ≤ w.attempts
  exact : 1 ≤ w.attempts → interval * 2 ^ w.attempts.toNat < 2 ^ 63
  within : ∀ deadline ∈ w.backoffs, deadline.distance ≤ interval * 2 ^ w.attempts.toNat

/-- A worker that has not backed off is steady. -/
theorem steady_of_no_backoffs {attempts deadline : Int} (lower : -1 ≤ attempts)
    (upper : attempts < 1) : Steady interval ⟨attempts, deadline, []⟩ where
  apart := by
    constructor
    · intro _ member
      cases member
    · exact List.Pairwise.nil
  lower := lower
  exact bound := by
    change 1 ≤ attempts at bound
    omega
  within _ member := by cases member

/-- A steady worker counts one attempt more, from one on. -/
theorem Steady.nextAttempts_eq (steady : Steady interval w) (positive : 0 < interval) :
    nextAttempts w.attempts = max 1 (w.attempts + 1) := by
  have lower := steady.lower
  have upper : w.attempts < 63 := by
    by_contra many
    have exact := steady.exact (by omega)
    have power : (2 : Int) ^ 63 ≤ 2 ^ w.attempts.toNat :=
      pow_le_pow_right₀ (by norm_num) (by omega)
    nlinarith
  rw [nextAttempts, int64, Int.bmod_eq_of_le (by omega) (by omega)]

/-- One attempt more doubles the distance at most. -/
theorem Steady.shift_lt (steady : Steady interval w) (positive : 0 < interval)
    (isInt64 : interval < 2 ^ 63) :
    interval * 2 ^ (nextAttempts w.attempts).toNat < 2 ^ 64 := by
  rw [steady.nextAttempts_eq positive]
  by_cases first : w.attempts < 1
  · have one : max 1 (w.attempts + 1) = 1 := by omega
    rw [one]
    norm_num
    omega
  · have exact := steady.exact (by omega)
    have more : (max 1 (w.attempts + 1)).toNat = w.attempts.toNat + 1 := by omega
    rw [more, pow_succ, ← mul_assoc]
    omega

theorem Steady.le_shift (steady : Steady interval w) (positive : 0 < interval) :
    interval * 2 ^ w.attempts.toNat ≤ interval * 2 ^ (nextAttempts w.attempts).toNat := by
  rw [steady.nextAttempts_eq positive]
  apply mul_le_mul_of_nonneg_left _ positive.le
  apply pow_le_pow_right₀ (by norm_num)
  omega

/-- While it fits, the delay is the interval doubled for each attempt. -/
theorem Steady.delay_eq (positive : 0 < interval)
    (bound : interval * 2 ^ (nextAttempts w.attempts).toNat < 2 ^ 63) :
    delay interval (nextAttempts w.attempts) =
      interval * 2 ^ (nextAttempts w.attempts).toNat := by
  apply int64_eq _ bound
  positivity

theorem distance_eq (now : Nat) (ahead : Int) :
    Deadline.distance ⟨now, now + ahead⟩ = ahead :=
  add_sub_cancel_left (now : Int) ahead

/-- A steady worker is steady after it backed off. -/
theorem Steady.backOff (steady : Steady interval w) (positive : 0 < interval)
    (bound : interval * 2 ^ (nextAttempts w.attempts).toNat < 2 ^ 63) (now : Nat) :
    Steady interval (w.backOff interval now) where
  apart := by
    have distance : 0 < interval * 2 ^ (nextAttempts w.attempts).toNat := by positivity
    constructor
    · intro deadline member
      rcases List.mem_cons.mp member with rfl | before
      · rw [Steady.delay_eq positive bound]
        exact lt_add_of_pos_right _ distance
      · exact steady.apart.ahead deadline before
    · apply List.Pairwise.cons
      · intro deadline before
        rw [Steady.delay_eq positive bound, distance_eq]
        exact (steady.within deadline before).trans (steady.le_shift positive)
      · exact steady.apart.slower
  lower := by
    change -1 ≤ nextAttempts w.attempts
    rw [nextAttempts]
    omega
  exact _ := bound
  within deadline member := by
    rcases List.mem_cons.mp member with rfl | before
    · rw [Deadline.distance, Steady.delay_eq positive bound, add_sub_cancel_left]
      exact le_rfl
    · exact (steady.within deadline before).trans (steady.le_shift positive)

/-! ## One tick -/

/-- A worker that sleeps does nothing more in the tick. -/
theorem sleeping_stays {N : Nat} (sleeps : tickAfter interval w answers N = (.sleeping, w'))
    {n : Nat} (later : N ≤ n) : tickAfter interval w answers n = (.sleeping, w') := by
  induction n, later using Nat.le_induction with
  | base => exact sleeps
  | succ n _ induction => rw [tickAfter, induction, step]

/-- A tick is over where the machine sleeps. -/
theorem ticks_unique {w'' : Worker} (first : Ticks interval w answers w')
    (second : Ticks interval w answers w'') : w' = w'' := by
  rcases first with ⟨m, sleepsFirst⟩
  rcases second with ⟨n, sleepsSecond⟩
  have last := sleeping_stays sleepsFirst (Nat.le_max_left m n)
  rw [sleeping_stays sleepsSecond (Nat.le_max_right m n), Prod.mk.injEq] at last
  exact last.2.symm

/-- A tick is described by its transitions up to where the machine sleeps. -/
theorem tickBacksOff_of_trace {N c : Nat}
    (sleeps : tickAfter interval w answers N = (.sleeping, w')) (good : w.Apart)
    (good' : w'.Apart)
    (before : ∀ n, n < N → ((tickAfter interval w answers n).1 = .connecting → n = c) ∧
      ((tickAfter interval w answers n).2 = w ∨ (tickAfter interval w answers n).2 = w')) :
    TickBacksOff interval w answers := by
  have once : ∀ n, (tickAfter interval w answers n).1 = .connecting → n = c := by
    intro n connecting
    by_cases early : n < N
    · exact (before n early).1 connecting
    · rw [sleeping_stays sleeps (Nat.le_of_not_lt early)] at connecting
      cases connecting
  constructor
  · exact ⟨N, congrArg Prod.fst sleeps⟩
  · intro m n first second
    rw [once m first, once n second]
  · intro n
    by_cases early : n < N
    · rcases (before n early).2 with same | same
      · rw [same]
        exact good
      · rw [same]
        exact good'
    · rw [sleeping_stays sleeps (Nat.le_of_not_lt early)]
      exact good'

/-- A tick in time backs off as it should and leaves a steady worker. -/
theorem tick_steady (steady : Steady interval w) (positive : 0 < interval)
    (inTime : InTime interval w answers) :
    TickBacksOff interval w answers ∧
      ∃ w', Ticks interval w answers w' ∧ Steady interval w' := by
  have zero : tickAfter interval w answers 0 = (.checkConnection, w) := rfl
  have synced : Steady interval ⟨0, 0, []⟩ := steady_of_no_backoffs (by decide) (by decide)
  by_cases online : getPeerState (answers 0).peer = .online
  · have one : tickAfter interval w answers 1 = (.syncing, w) := by
      rw [tickAfter, zero, step, if_pos online]
    have two : tickAfter interval w answers 2 = (.sleeping, ⟨0, 0, []⟩) := by
      rw [tickAfter, one, step]
    constructor
    · apply tickBacksOff_of_trace (c := 2) two steady.apart synced.apart
      intro n early
      interval_cases n
      · simp [zero]
      · simp [one]
    · exact ⟨_, ⟨2, two⟩, synced⟩
  have one : tickAfter interval w answers 1 = (.backoff, w) := by
    rw [tickAfter, zero, step, if_neg online]
  by_cases waits : (answers 1).now < w.deadline
  · have two : tickAfter interval w answers 2 = (.sleeping, w) := by
      rw [tickAfter, one, step, if_pos waits]
    constructor
    · apply tickBacksOff_of_trace (c := 2) two steady.apart steady.apart
      intro n early
      interval_cases n
      · simp [zero]
      · simp [one]
    · exact ⟨_, ⟨2, two⟩, steady⟩
  have two : tickAfter interval w answers 2 = (.connecting, w) := by
    rw [tickAfter, one, step, if_neg waits]
  cases result : maybeConnect (answers 2) w.attempts with
  | online =>
      have three : tickAfter interval w answers 3 = (.syncing, w) := by
        rw [tickAfter, two, step, result]
      have four : tickAfter interval w answers 4 = (.sleeping, ⟨0, 0, []⟩) := by
        rw [tickAfter, three, step]
      constructor
      · apply tickBacksOff_of_trace (c := 2) four steady.apart synced.apart
        intro n early
        interval_cases n
        · simp [zero]
        · simp [one]
        · simp [two]
        · simp [three]
      · exact ⟨_, ⟨4, four⟩, synced⟩
  | offline =>
      have three : tickAfter interval w answers 3 = (.sleeping, w) := by
        rw [tickAfter, two, step, result]
      constructor
      · apply tickBacksOff_of_trace (c := 2) three steady.apart steady.apart
        intro n early
        interval_cases n
        · simp [zero]
        · simp [one]
        · simp [two]
      · exact ⟨_, ⟨3, three⟩, steady⟩
  | noAddr =>
      rcases inTime ⟨online, waits, result⟩ with ⟨bound, early⟩
      have next := steady.backOff positive bound (answers 2).now
      have three : tickAfter interval w answers 3 =
          (.backoff, w.backOff interval (answers 2).now) := by
        rw [tickAfter, two, step, result]
      have sleeps : ((answers 3).now : Int) < (w.backOff interval (answers 2).now).deadline := by
        change _ < _ + delay interval (nextAttempts w.attempts)
        rwa [Steady.delay_eq positive bound]
      have four : tickAfter interval w answers 4 =
          (.sleeping, w.backOff interval (answers 2).now) := by
        rw [tickAfter, three, step, if_pos sleeps]
      constructor
      · apply tickBacksOff_of_trace (c := 2) four steady.apart next.apart
        intro n early
        interval_cases n
        · simp [zero]
        · simp [one]
        · simp [two]
        · simp [three]
      · exact ⟨_, ⟨4, four⟩, next⟩

/-- A deadline that is not ahead, or that is passed at once, is found out by a second attempt. -/
theorem inTime_of_backsOff (steady : Steady interval w) (positive : 0 < interval)
    (isInt64 : interval < 2 ^ 63) (backsOff : TickBacksOff interval w answers) :
    InTime interval w answers := by
  intro finds
  have one : tickAfter interval w answers 1 = (.backoff, w) := by
    rw [tickAfter, tickAfter, step, if_neg finds.notOnline]
  have two : tickAfter interval w answers 2 = (.connecting, w) := by
    rw [tickAfter, one, step, if_neg finds.deadline]
  have three : tickAfter interval w answers 3 =
      (.backoff, w.backOff interval (answers 2).now) := by
    rw [tickAfter, two, step, finds.noAddr]
  have bound : interval * 2 ^ (nextAttempts w.attempts).toNat < 2 ^ 63 := by
    by_contra lost
    have notPositive := int64_not_positive (not_lt.mp lost) (steady.shift_lt positive isInt64)
    have apart := backsOff.apart 3
    rw [three] at apart
    have ahead := apart.ahead _ (List.mem_cons_self)
    change ((answers 2).now : Int) < _ + int64 _ at ahead
    omega
  constructor
  · exact bound
  · by_contra passed
    have again : tickAfter interval w answers 4 =
        (.connecting, w.backOff interval (answers 2).now) := by
      rw [tickAfter, three, step, if_neg]
      change ¬ _ < _ + delay interval (nextAttempts w.attempts)
      rwa [Steady.delay_eq positive bound]
    have same := backsOff.connectsOnce 2 4 (congrArg Prod.fst two) (congrArg Prod.fst again)
    omega

/-! ## Runs -/

/-- The ticks back off as they should if all of them are in time. -/
theorem backsOff_iff (positive : 0 < interval) (isInt64 : interval < 2 ^ 63)
    (ticks : List (Nat → Answer)) (steady : Steady interval w) :
    BacksOff interval w ticks ↔ AllInTime interval w ticks := by
  induction ticks generalizing w with
  | nil => exact Iff.rfl
  | cons answers rest induction =>
      rw [BacksOff, AllInTime]
      constructor
      · rintro ⟨first, others⟩
        have inTime := inTime_of_backsOff steady positive isInt64 first
        rcases (tick_steady steady positive inTime).2 with ⟨w', ticked, next⟩
        constructor
        · exact inTime
        · intro w'' other
          rw [← ticks_unique ticked other]
          exact (induction next).mp (others w' ticked)
      · rintro ⟨inTime, others⟩
        rcases tick_steady steady positive inTime with ⟨first, w', ticked, next⟩
        constructor
        · exact first
        · intro w'' other
          rw [← ticks_unique ticked other]
          exact (induction next).mpr (others w' ticked)

theorem new_steady : Steady interval Worker.new :=
  steady_of_no_backoffs (by decide) (by decide)

/--
A worker backs off in each tick of a run if and only if, whenever it has found no addresses,
shifting the interval loses no bit and the time is read again before the deadline.
-/
theorem worker_backs_off_iff (interval : Int) (positive : 0 < interval)
    (isInt64 : interval < 2 ^ 63) (ticks : List (Nat → Answer)) :
    BacksOff interval Worker.new ticks ↔ AllInTime interval Worker.new ticks :=
  backsOff_iff positive isInt64 ticks new_steady

/-! ## A peer without addresses -/

/-- The peer has no addresses, and does not connect; the time is the same all the while. -/
def unreachable (now : Nat) (_ : Nat) : Answer := ⟨⟨false, 0⟩, false, false, ⟨false, 0⟩, now⟩

theorem unreachable_findsNoAddr (now : Nat) : FindsNoAddr Worker.new (unreachable now) where
  notOnline := by
    change PeerState.noAddr ≠ .online
    decide
  deadline := Int.not_lt.mpr (Int.natCast_nonneg now)
  noAddr := rfl

/-- With an interval of a minute, the first attempt fails and the next tick waits. -/
theorem worker_backs_off_minute :
    BacksOff 60000000000 Worker.new [unreachable 0, unreachable 60000000000] := by
  apply (worker_backs_off_iff 60000000000 (by norm_num) (by norm_num) _).mpr
  constructor
  · intro _
    constructor
    · norm_num [nextAttempts, Worker.new, int64]
    · norm_num [nextAttempts, Worker.new, int64, unreachable]
  · intro w' ticked
    have first : Ticks 60000000000 Worker.new (unreachable 0)
        ⟨1, 120000000000, [⟨0, 120000000000⟩]⟩ := ⟨4, by decide +kernel⟩
    rw [ticks_unique ticked first]
    constructor
    · intro finds
      exact absurd (by decide) finds.deadline
    · exact fun _ _ => trivial

/-- Twice the interval is negative as an `int64`. -/
theorem worker_does_not_back_off : ¬ BacksOff (2 ^ 62) Worker.new [unreachable 0] := by
  intro backsOff
  have inTime := inTime_of_backsOff new_steady (by norm_num) (by norm_num) backsOff.1
  have bound := (inTime (unreachable_findsNoAddr 0)).1
  norm_num [nextAttempts, Worker.new, int64] at bound

end Mintter.Syncing
