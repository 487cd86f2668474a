import Mintter.Hyper.Entity

/-!
# Changes that are rejected

`ApplyChange` writes the time of a change to the vector clock of its signer before the
last checks.  A change that fails one of them leaves its time there.  It is noticed
when the time is ahead of the clock of the entity: a later change of the same signer
is then rejected as well.
-/

namespace Mintter.Hyper

open Mintter.Foundation
open Mintter.Crdt2

/-- A change that is offered to an entity while the wall clock reads `wall`. -/
structure Offer where
  c : String
  ch : Change
  wall : Int

namespace Entity

/-- The entity after the offers, and which of them were applied. -/
def offerAll (e : Entity) : List Offer → Outcome (Entity × List Bool)
  | [] => pure (e, [])
  | offer :: offers => do
      let (e, result) ← e.applyChange offer.c offer.ch offer.wall
      let (e, results) ← e.offerAll offers
      pure (e, result.isOk :: results)

/-- The entity with another vector clock. -/
def withVector (e : Entity) (vectorClock : Principal → Int) : Entity :=
  { e with vectorClock }

/-- What is seen of an entity: everything but its vector clock. -/
def outward (seen : Entity × List Bool) : Entity × List Bool :=
  (seen.1.withVector fun _ => 0, seen.2)

/-- Whatever is offered, the same changes are applied and the same is seen. -/
def BehavesAs (e e' : Entity) : Prop :=
  ∀ offers, (e.offerAll offers).map outward = (e'.offerAll offers).map outward

/--
A rejected change leaves no time behind that is ahead of the clocks: it is one of
another entity, was applied before, or is not later than what is known.
-/
def LeavesNoTime (e : Entity) (c : String) (ch : Change) : Prop :=
  ch.entity ≠ e.id ∨ (e.applied c).isSome ∨
    ch.hlcTime ≤ max (e.vectorClock ch.signer) e.maxClock.maxTime

section Alike

variable {e e' : Entity} {c : String} {ch : Change} {wall : Int} {err : String}
variable {vector vector' : Principal → Int}

/-- The vector clocks differ only below the greatest known time. -/
def Alike (maxTime : Int) (vector vector' : Principal → Int) : Prop :=
  ∀ actor, max (vector actor) maxTime = max (vector' actor) maxTime

@[simp]
theorem withVector_withVector :
    (e.withVector vector).withVector vector' = e.withVector vector' := rfl

@[simp]
theorem withVector_self : e.withVector e.vectorClock = e := rfl

/-- Both calls abort, or both return the same but for alike vector clocks. -/
inductive AlikeOutcomes : Outcome (Entity × Except String Unit) →
    Outcome (Entity × Except String Unit) → Prop where
  | abort (abort : Abort) : AlikeOutcomes (.error abort) (.error abort)
  | returns {e : Entity} {vector vector' : Principal → Int}
      {result result' : Except String Unit}
      (alike : Alike e.maxClock.maxTime vector vector')
      (same : result.isOk = result'.isOk) :
      AlikeOutcomes (.ok (e.withVector vector, result)) (.ok (e.withVector vector', result'))

theorem Alike.symm {maxTime : Int} (alike : Alike maxTime vector vector') :
    Alike maxTime vector' vector := fun actor => (alike actor).symm

/-- Writing a time that is below the greatest known one is not noticed. -/
theorem Alike.note_early {maxTime time : Int} {actor : Principal}
    (alike : Alike maxTime vector vector') (early : time < maxTime)
    (notBefore : ¬ time < vector actor) :
    Alike maxTime (Function.update vector actor time) vector' := by
  intro other
  have := alike other
  rw [Function.update_apply]
  split_ifs with same
  · rw [same] at this ⊢
    omega
  · exact this

theorem Alike.note_both {maxTime : Int} (alike : Alike maxTime vector vector')
    (actor : Principal) (time : Int) :
    Alike maxTime (Function.update vector actor time)
      (Function.update vector' actor time) := by
  intro other
  rw [Function.update_apply, Function.update_apply]
  split_ifs
  · exact rfl
  · exact alike other

/-- The greatest known time decides about the times below it. -/
theorem Alike.lt_iff {maxTime time : Int} (alike : Alike maxTime vector vector')
    (late : ¬ time < maxTime) (actor : Principal) :
    time < vector actor ↔ time < vector' actor := by
  have := alike actor
  omega

theorem foldl_link_withVector (curIdx : Nat) (deps : List (String × Nat)) (e : Entity) :
    deps.foldl (link curIdx) (e.withVector vector) =
      (deps.foldl (link curIdx) e).withVector vector := by
  induction deps generalizing e with
  | nil => rfl
  | cons dep deps induction => exact induction (link curIdx e dep)

theorem append_withVector (e : Entity) (vector : Principal → Int) (c : String)
    (ch : Change) (deps : List Nat) :
    (e.withVector vector).append c ch deps = (e.append c ch deps).withVector vector := by
  apply foldl_link_withVector e.changes.length (ch.deps.zip deps)
    { e with
      changes := e.changes ++ [(c, ch)]
      deps := e.deps ++ [[]]
      rdeps := e.rdeps ++ [[]]
      heads := KeyedList.set (fun head => head) c e.heads
      applied := Function.update e.applied c (some e.changes.length) }

/-! ### The exits of `ApplyChange` -/

/-- The entity in which the time of the change was written to the vector clock. -/
def noteTime (e : Entity) (ch : Change) : Entity :=
  e.withVector (Function.update e.vectorClock ch.signer ch.hlcTime)

/-- The last checks and the application of a change that is not too early. -/
def applyInOrder (e : Entity) (c : String) (ch : Change) (wall : Int) :
    Outcome (Entity × Except String Unit) :=
  match findDeps e.applied c ch.deps with
  | .error err => pure (e, .error err)
  | .ok deps =>
      match e.maxClock.track ch.hlcTime wall with
      | .error err => pure (e, .error err)
      | .ok clock => do
          let state ← e.state.applyPatch ch.hlcTime (originFromCID c) ch.patch
          let e := { e with maxClock := clock, state := state }
          pure (e.append c ch deps, .ok ())

/-- Changes of other entities and applied ones are rejected at once. -/
theorem applyChange_of_foreign (e : Entity) (wall : Int)
    (foreign : ch.entity ≠ e.id ∨ (e.applied c).isSome) :
    ∃ err, e.applyChange c ch wall = .ok (e, .error err) := by
  rw [applyChange]
  by_cases other : ch.entity = e.id
  · rw [if_neg (not_not_intro other), if_pos (foreign.resolve_left (not_not_intro other))]
    exact ⟨_, rfl⟩
  · rw [if_pos other]
    exact ⟨_, rfl⟩

theorem applyChange_of_unsigned (own : ch.entity = e.id) (fresh : e.applied c = none)
    (unsigned : ch.signer = []) :
    e.applyChange c ch wall = panicWith emptySlice := by
  rw [applyChange, if_neg (not_not_intro own), fresh, if_neg (by simp), if_pos unsigned]

theorem applyChange_of_signed (own : ch.entity = e.id) (fresh : e.applied c = none)
    (signed : ch.signer ≠ []) :
    e.applyChange c ch wall =
      if ch.hlcTime < e.vectorClock ch.signer then
        pure (e, .error s!"applying change '{c}' violates causal order")
      else if ch.hlcTime < e.maxClock.maxTime then
        pure (e.noteTime ch, .error s!"applying change {c} out of causal order")
      else (e.noteTime ch).applyInOrder c ch wall := by
  rw [applyChange, if_neg (not_not_intro own), fresh, if_neg (by simp), if_neg signed]
  exact rfl

theorem Alike.applyInOrder (alike : Alike e.maxClock.maxTime vector vector') (c : String)
    (ch : Change) (wall : Int) :
    AlikeOutcomes ((e.withVector vector).applyInOrder c ch wall)
      ((e.withVector vector').applyInOrder c ch wall) := by
  rw [Entity.applyInOrder, Entity.applyInOrder]
  simp only [withVector]
  cases findDeps e.applied c ch.deps with
  | error err => exact .returns alike rfl
  | ok deps =>
      cases tracked : e.maxClock.track ch.hlcTime wall with
      | error err => exact .returns alike rfl
      | ok clock =>
          cases e.state.applyPatch ch.hlcTime (originFromCID c) ch.patch with
          | error abort => exact .abort abort
          | ok state =>
              let tracking : Entity := { e with maxClock := clock, state := state }
              have clock_eq := (append_frame tracking c ch deps).2.2.2.2.1
              change AlikeOutcomes
                (.ok ((tracking.withVector vector).append c ch deps, .ok ()))
                (.ok ((tracking.withVector vector').append c ch deps, .ok ()))
              rw [append_withVector, append_withVector]
              apply AlikeOutcomes.returns _ rfl
              intro actor
              have := alike actor
              rw [clock_eq, Clock.track_maxTime tracked]
              omega

/-- Entities with alike vector clocks treat every change alike. -/
theorem Alike.applyChange (alike : Alike e.maxClock.maxTime vector vector') (c : String)
    (ch : Change) (wall : Int) :
    AlikeOutcomes ((e.withVector vector).applyChange c ch wall)
      ((e.withVector vector').applyChange c ch wall) := by
  by_cases foreign : ch.entity ≠ e.id ∨ (e.applied c).isSome
  · rcases applyChange_of_foreign (e.withVector vector) wall foreign with ⟨err, rejected⟩
    rcases applyChange_of_foreign (e.withVector vector') wall foreign with ⟨err', rejected'⟩
    rw [rejected, rejected']
    exact .returns alike rfl
  · rw [not_or, not_not, Option.not_isSome_iff_eq_none] at foreign
    rcases foreign with ⟨own, fresh⟩
    by_cases signed : ch.signer = []
    · rw [applyChange_of_unsigned (e := e.withVector vector) own fresh signed,
        applyChange_of_unsigned (e := e.withVector vector') own fresh signed]
      exact .abort _
    · rw [applyChange_of_signed (e := e.withVector vector) own fresh signed,
        applyChange_of_signed (e := e.withVector vector') own fresh signed]
      simp only [withVector, noteTime]
      by_cases early : ch.hlcTime < e.maxClock.maxTime
      · -- Rejected either way; a time that is noted is below the clock.
        simp only [early, if_true]
        split_ifs with first second second
        · exact .returns alike rfl
        · exact .returns (alike.symm.note_early early second).symm rfl
        · exact .returns (alike.note_early early first) rfl
        · exact .returns (alike.note_both ch.signer ch.hlcTime) rfl
      · simp only [early, if_false, alike.lt_iff early]
        split_ifs with first
        · exact .returns alike rfl
        · exact (alike.note_both ch.signer ch.hlcTime).applyInOrder c ch wall

/-- The same holds for all later changes. -/
theorem Alike.offerAll (alike : Alike e.maxClock.maxTime vector vector')
    (offers : List Offer) :
    ((e.withVector vector).offerAll offers).map outward =
      ((e.withVector vector').offerAll offers).map outward := by
  induction offers generalizing e vector vector' with
  | nil => exact rfl
  | cons offer offers induction =>
      rw [Entity.offerAll, Entity.offerAll]
      have first := alike.applyChange offer.c offer.ch offer.wall
      generalize (e.withVector vector).applyChange offer.c offer.ch offer.wall = outcome
        at first
      generalize (e.withVector vector').applyChange offer.c offer.ch offer.wall = outcome'
        at first
      cases first with
      | abort abort => exact rfl
      | @returns e vector vector' result result' alike same =>
          have rest := induction alike
          simp only [ok_bind, same]
          generalize (e.withVector vector).offerAll offers = done at rest
          generalize (e.withVector vector').offerAll offers = done' at rest
          cases done <;> cases done' <;>
            simp_all [Except.map, outward]

/-! ### What a rejected change leaves behind -/

/-- A rejected change leaves the entity as it was, or it leaves its time. -/
theorem rejected_cases (rejected : e.applyChange c ch wall = .ok (e', .error err)) :
    e' = e ∧ (ch.entity ≠ e.id ∨ (e.applied c).isSome ∨
        ch.hlcTime < e.vectorClock ch.signer) ∨
      ch.entity = e.id ∧ e.applied c = none ∧ ch.signer ≠ [] ∧
        e.vectorClock ch.signer ≤ ch.hlcTime ∧ e' = e.noteTime ch := by
  by_cases foreign : ch.entity ≠ e.id ∨ (e.applied c).isSome
  · rcases applyChange_of_foreign e wall foreign with ⟨err', rejected'⟩
    rw [rejected] at rejected'
    cases rejected'
    exact .inl ⟨rfl, foreign.imp_right .inl⟩
  · rw [not_or, not_not, Option.not_isSome_iff_eq_none] at foreign
    rcases foreign with ⟨own, fresh⟩
    by_cases signed : ch.signer = []
    · rw [applyChange_of_unsigned own fresh signed] at rejected
      cases rejected
    · rw [applyChange_of_signed own fresh signed] at rejected
      split_ifs at rejected with before early
      · cases rejected
        exact .inl ⟨rfl, .inr (.inr before)⟩
      · cases rejected
        exact .inr ⟨own, fresh, signed, not_lt.mp before, rfl⟩
      · refine .inr ⟨own, fresh, signed, not_lt.mp before, ?_⟩
        rw [applyInOrder] at rejected
        split at rejected
        · cases rejected
          exact rfl
        · split at rejected
          · cases rejected
            exact rfl
          · rcases bind_eq_ok.mp rejected with ⟨state, -, returned⟩
            cases returned

theorem applyPatch_nil (m : Map) (time : Int) (origin : String) :
    m.applyPatch time origin [] = .ok m := rfl

theorem track_now (hc : Clock) (time : Int) : hc.track time time = .ok (hc.keepMax time) := by
  rw [Clock.track, validateSkew, sub_self]
  exact rfl

/-- A change without dependencies that is as late as everything known is applied. -/
theorem next_applied (own : ch.entity = e.id) (fresh : e.applied c = none)
    (signed : ch.signer ≠ []) (noDeps : ch.deps = []) (noPatch : ch.patch = [])
    (actor : e.vectorClock ch.signer ≤ ch.hlcTime)
    (clock : e.maxClock.maxTime ≤ ch.hlcTime) :
    ∃ e', e.applyChange c ch ch.hlcTime = .ok (e', .ok ()) := by
  apply applyChange_of_admits ⟨own, fresh, signed, actor, clock, by simp [noDeps]⟩
  · exact track_now ..
  · rw [noPatch]
    exact applyPatch_nil ..

/--
An entity behaves after a rejected change as if the change had never been offered,
exactly when the change leaves no time behind.
-/
theorem rejected_unnoticed_iff
    (rejected : e.applyChange c ch wall = .ok (e', .error err)) :
    BehavesAs e' e ↔ LeavesNoTime e c ch := by
  constructor
  · intro unnoticed
    by_contra leaves
    simp only [LeavesNoTime, not_or, not_not, not_le, Option.not_isSome_iff_eq_none] at leaves
    rcases leaves with ⟨own, fresh, later⟩
    rcases rejected_cases rejected with ⟨-, foreign⟩ | ⟨-, -, signed, -, rfl⟩
    · rcases foreign with other | known | before
      · exact other own
      · rw [fresh] at known
        cases known
      · omega
    · -- A change of the same signer, as late as all that was known before.
      let next : Change :=
        { ch with
          deps := []
          patch := []
          hlcTime := max (e.vectorClock ch.signer) e.maxClock.maxTime }
      have ownNext : next.entity = e.id := own
      have signedNext : next.signer ≠ [] := signed
      rcases next_applied ownNext fresh signedNext rfl rfl (le_max_left ..)
        (le_max_right ..) with ⟨applied, isApplied⟩
      have ownNoted : next.entity = (e.noteTime ch).id := own
      have freshNoted : (e.noteTime ch).applied c = none := fresh
      have isRejected : ∃ err, (e.noteTime ch).applyChange c next next.hlcTime =
          .ok (e.noteTime ch, .error err) := by
        rw [applyChange_of_signed ownNoted freshNoted signedNext, if_pos]
        · exact ⟨_, rfl⟩
        · simp only [noteTime, withVector, next, Function.update_self]
          exact later
      rcases isRejected with ⟨err', isRejected⟩
      have same := unnoticed [⟨c, next, next.hlcTime⟩]
      simp only [offerAll, isApplied, isRejected, ok_bind, pure_eq_ok, Except.map, outward,
        Except.ok.injEq, Prod.mk.injEq, List.cons.injEq] at same
      cases same.2.1
  · intro leaves
    rcases rejected_cases rejected with ⟨rfl, -⟩ | ⟨own, fresh, -, notBefore, rfl⟩
    · exact fun _ => rfl
    · have notLater : ch.hlcTime ≤ max (e.vectorClock ch.signer) e.maxClock.maxTime := by
        rcases leaves with other | known | notLater
        · exact absurd own other
        · rw [fresh] at known
          cases known
        · exact notLater
      have alike : Alike e.maxClock.maxTime
          (Function.update e.vectorClock ch.signer ch.hlcTime) e.vectorClock := by
        intro actor
        rw [Function.update_apply]
        split_ifs with same
        · rw [same]
          omega
        · exact rfl
      exact fun offers => alike.offerAll offers

end Alike

/-! ## A sample -/

/-- A change that depends on one that is missing, of time 100. -/
def missingDep : Change :=
  ⟨["bafymissing"], "bafydelegation", "Update", 100, "hm://d/doc", [], [1], ""⟩

/-- A change of time 50. -/
def laterOffer : Offer :=
  ⟨"bafylater", ⟨[], "bafydelegation", "Create", 50, "hm://d/doc", [], [1], ""⟩, 100⟩

/-- After the rejected change another one is rejected that would have been applied. -/
theorem rejected_change_is_noticed :
    ∃ e err, (newEntity "hm://d/doc").applyChange "bafychange" missingDep 100 =
        .ok (e, .error err) ∧
      (e.offerAll [laterOffer]).map Prod.snd = .ok [false] ∧
      ((newEntity "hm://d/doc").offerAll [laterOffer]).map Prod.snd = .ok [true] ∧
      ¬ BehavesAs e (newEntity "hm://d/doc") := by
  refine ⟨(newEntity "hm://d/doc").noteTime missingDep, _, rfl, rfl, rfl, fun same => ?_⟩
  have seen := congrArg (Except.map Prod.snd) (same [laterOffer])
  cases (show (.ok [false] : Outcome (List Bool)) = .ok [true] from seen)

theorem rejected_unnoticed_iff_missingDep :
    BehavesAs ((newEntity "hm://d/doc").noteTime missingDep) (newEntity "hm://d/doc") ↔
      LeavesNoTime (newEntity "hm://d/doc") "bafychange" missingDep := by
  have rejected : (newEntity "hm://d/doc").applyChange "bafychange" missingDep 100 =
      .ok ((newEntity "hm://d/doc").noteTime missingDep, .error _) := rfl
  exact rejected_unnoticed_iff rejected

end Entity

end Mintter.Hyper
