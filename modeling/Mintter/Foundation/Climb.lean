import Mintter.Foundation.Outcome

/-!
# Climbing a parent pointer structure

Nodes carry one pointer `next`.  A climb follows it until it meets a stop node.
`Grounded` nodes reach a stop node after finitely many steps, and `Climbs` says
that a given node is met on the way.  The main fact is that redirecting one
pointer keeps every node grounded exactly because the redirected node is
neither the new target nor above it.
-/

namespace Mintter.Foundation

variable {β : Type}

/-- Following `next` from a node reaches a stop node. -/
inductive Grounded (next : β → β) (stop : β → Prop) : β → Prop where
  | halt {node : β} (stops : stop node) : Grounded next stop node
  | up {node : β} (above : Grounded next stop (next node)) :
      Grounded next stop node

/-- The climb that starts at the last argument meets `target` before it stops. -/
inductive Climbs (next : β → β) (stop : β → Prop) (target : β) : β → Prop where
  | here (open_ : ¬ stop target) : Climbs next stop target target
  | up {node : β} (open_ : ¬ stop node)
      (above : Climbs next stop target (next node)) :
      Climbs next stop target node

section Redirect

variable {next : β → β} {stop : β → Prop} {target node : β}

/-- A climb starts at an open node. -/
theorem Climbs.start_open (climb : Climbs next stop target node) :
    ¬ stop node := by
  cases climb with
  | here open_ => exact open_
  | up open_ _ => exact open_

/-- A set closed under climbing that misses the target is never left. -/
theorem not_climbs_of_closed (region : β → Prop)
    (closed : ∀ node, region node → ¬ stop node → region (next node))
    (outside : ¬ region target) (inside : region node) :
    ¬ Climbs next stop target node := by
  intro climb
  induction climb with
  | here _ => exact outside inside
  | up open_ _ induction => exact induction (closed _ inside open_)

/-- A pointer from an open node to itself never reaches a stop node. -/
theorem not_grounded_of_fixed (open_ : ¬ stop node)
    (fixed : next node = node) : ¬ Grounded next stop node := by
  intro grounded
  induction grounded with
  | halt stops => exact open_ stops
  | up _ induction => exact induction (fixed.symm ▸ open_) (by rw [fixed, fixed])

variable [DecidableEq β]

/-- A climb which misses the redirected node is not affected. -/
theorem Grounded.redirect_of_not_climbs {child parent : β}
    (grounded : Grounded next stop node)
    (missed : ¬ Climbs next stop child node) :
    Grounded (Function.update next child parent) stop node := by
  induction grounded with
  | halt stops => exact .halt stops
  | @up node _ induction =>
      by_cases stops : stop node
      · exact .halt stops
      · have differs : node ≠ child := by
          rintro rfl
          exact missed (.here stops)
        have missedAbove : ¬ Climbs next stop child (next node) :=
          fun climb => missed (.up stops climb)
        refine .up ?_
        rw [Function.update_of_ne differs]
        exact induction missedAbove

/--
Redirecting `child` to a parent that is neither `child` nor below it keeps all
nodes grounded.  A stop node may point to itself.
-/
theorem Grounded.redirect {child parent : β}
    (grounded : ∀ node, Grounded next stop node)
    (differs : child = parent → stop child)
    (missed : ¬ Climbs next stop child (next parent)) (node : β) :
    Grounded (Function.update next child parent) stop node := by
  have parentGrounded :
      Grounded (Function.update next child parent) stop parent := by
    by_cases same : child = parent
    · exact .halt (same ▸ differs same)
    · refine .up ?_
      rw [Function.update_of_ne (Ne.symm same)]
      exact (grounded (next parent)).redirect_of_not_climbs missed
  induction grounded node with
  | halt stops => exact .halt stops
  | @up node _ induction =>
      refine .up ?_
      by_cases same : node = child
      · subst same
        rw [Function.update_self]
        exact parentGrounded
      · rw [Function.update_of_ne same]
        exact induction

end Redirect

/-! ## The climb as a loop -/

section Loop

variable [DecidableEq β] {next : β → β} {stop : β → Prop} [DecidablePred stop]

/-- Climb from the last argument and report whether `target` is met. -/
def climbLoop (next : β → β) (stop : β → Prop) [DecidablePred stop]
    (target : β) : Nat → β → Outcome Bool
  | 0, _ => .error .outOfFuel
  | fuel + 1, node =>
      if stop node then pure false
      else if node = target then pure true
      else climbLoop next stop target fuel (next node)

/-- The loop never ends at an open node that points to itself. -/
theorem climbLoop_of_fixed {target node : β} (open_ : ¬ stop node)
    (differs : node ≠ target) (fixed : next node = node) (fuel : Nat) :
    climbLoop next stop target fuel node = .error .outOfFuel := by
  induction fuel with
  | zero => rfl
  | succ fuel induction =>
      rw [climbLoop, if_neg open_, if_neg differs, fixed, induction]

/-- The answer does not depend on the fuel. -/
theorem climbLoop_unique {target node : β} {fuel fuel' : Nat}
    {answer answer' : Bool}
    (returned : climbLoop next stop target fuel node = .ok answer)
    (returned' : climbLoop next stop target fuel' node = .ok answer') :
    answer = answer' := by
  induction fuel generalizing fuel' node with
  | zero => simp [climbLoop] at returned
  | succ fuel induction =>
      cases fuel' with
      | zero => simp [climbLoop] at returned'
      | succ fuel' =>
          rw [climbLoop] at returned returned'
          split_ifs at returned returned' with stops met
          · exact Except.ok.inj (returned.symm.trans returned')
          · exact Except.ok.inj (returned.symm.trans returned')
          · exact induction returned returned'

/-- On a grounded node the loop decides whether the target is met. -/
theorem climbLoop_converges {target node : β}
    (grounded : Grounded next stop node) [Decidable (Climbs next stop target node)] :
    Converges (climbLoop next stop target · node)
      (.ok (decide (Climbs next stop target node))) := by
  suffices reached : ∃ enough, ∀ fuel, enough ≤ fuel →
      ∃ answer, climbLoop next stop target fuel node = .ok answer ∧
        (answer = true ↔ Climbs next stop target node) by
    obtain ⟨enough, reached⟩ := reached
    refine ⟨enough, fun fuel large => ?_⟩
    obtain ⟨answer, returned, meets⟩ := reached fuel large
    simp only [returned, Except.ok.injEq, ← meets]
    simp
  induction grounded with
  | @halt node stops =>
      refine ⟨1, fun fuel large => ⟨false, ?_, ?_⟩⟩
      · obtain ⟨fuel, rfl⟩ := Nat.exists_eq_add_of_le' large
        simp [climbLoop, stops]
      · simp only [Bool.false_eq_true, false_iff]
        exact fun climb => climb.start_open stops
  | @up node _ induction =>
      obtain ⟨enough, reached⟩ := induction
      refine ⟨enough + 1, fun fuel large => ?_⟩
      obtain ⟨fuel, rfl⟩ := Nat.exists_eq_add_of_le' (Nat.le_of_add_left_le large)
      by_cases stops : stop node
      · refine ⟨false, by simp [climbLoop, stops], ?_⟩
        simp only [Bool.false_eq_true, false_iff]
        exact fun climb => climb.start_open stops
      by_cases met : node = target
      · subst met
        exact ⟨true, by simp [climbLoop, stops], by simpa using Climbs.here stops⟩
      · obtain ⟨answer, returned, meets⟩ := reached fuel (by omega)
        refine ⟨answer, by simp [climbLoop, stops, met, returned], meets.trans ?_⟩
        constructor
        · exact fun above => .up stops above
        · intro climb
          cases climb with
          | here _ => exact absurd rfl met
          | up _ above => exact above

end Loop

end Mintter.Foundation
