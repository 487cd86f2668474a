import Mintter.Docmodel.Placement
import Mintter.Docmodel.SampleKeys

/-!
# Runs of integrations and moves

`Received` are the states reached by successful integrations, `edit` starts a
mutation of a state and runs calls of `move` on it.  When no operation and no
call puts a block under itself the parents never form a cycle and all loops
end.  The checks do not rule out that case: the climb of `isAncestor` starts at
the parent of the new parent, so a block can be moved under itself.
-/

namespace Mintter.Docmodel

open Mintter.Foundation
open TreeMutation

/-- The arguments of `move`. -/
structure Call where
  block : String
  parent : String
  left : String
deriving DecidableEq, Repr

/-- Run the calls one after another; failing calls are skipped. -/
def runMoves (K : Fracdex) (fuel : Nat) (vt : TreeMutation)
    (calls : List Call) : Outcome TreeMutation :=
  calls.foldlM (fun vt call => do
    let (vt, _) ← vt.move K fuel call.block call.parent call.left
    pure vt) vt

/-- Start a mutation and run the calls on it. -/
def edit (K : Fracdex) (fuel : Nat) (state : TreeCRDT) (calls : List Call) :
    Outcome TreeMutation := do
  runMoves K fuel (← state.mutate fuel) calls

/-- The states reached by integrating allowed operations. -/
inductive Received (K : Fracdex) (allowed : MoveOp → Prop) : TreeCRDT → Prop where
  | new : Received K allowed newTreeCRDT
  | integrate {state state' : TreeCRDT} (op : MoveOp)
      (received : Received K allowed state) (isAllowed : allowed op)
      (success : state.integrateOp K op = .ok (.ok state')) :
      Received K allowed state'

section Received

variable {K : Fracdex} {allowed : MoveOp → Prop} {state : TreeCRDT}

/-- Integration keeps states valid, and all moves come from operations. -/
theorem Received.valid (received : Received K allowed state) :
    state.Valid K ∧ ∀ x ∈ state.log, allowed x.op := by
  induction received with
  | new => exact ⟨newTreeCRDT_valid K, by simp [newTreeCRDT]⟩
  | integrate _ _ isAllowed success induction =>
      obtain ⟨valid, fromAllowed⟩ := induction
      obtain ⟨x, integrated⟩ := integrated_of_integrate_eq_ok valid success
      have accepts := accepts_of_integrate_eq_ok valid success
      refine ⟨integrated.valid, fun y member => ?_⟩
      rcases (integrated.mem_log accepts).mp member with rfl | old
      · exact integrated.op_eq ▸ isAllowed
      · exact fromAllowed y old

end Received

/-! ## Runs keep mutations sound -/

section Runs

variable {K : Fracdex} {state : TreeCRDT} {vt vt' : TreeMutation}
    {calls : List Call}

/-- What a run of calls returns satisfies what every call keeps. -/
theorem runMoves_invariant {Inv : TreeMutation → Prop}
    (acyclic : ∀ vt, Inv vt → vt.Acyclic)
    (step : ∀ vt vt' call result, call ∈ calls → Inv vt →
      Converges (fun fuel => vt.move K fuel call.block call.parent call.left)
        (.ok (vt', result)) → Inv vt')
    (start : Inv vt) :
    ∃ outcome, outcome ≠ .error .outOfFuel ∧
      Converges (fun fuel => runMoves K fuel vt calls) outcome ∧
      ∀ vt', outcome = .ok vt' → Inv vt' := by
  induction calls generalizing vt with
  | nil =>
      refine ⟨.ok vt, by simp, .const _, ?_⟩
      rintro vt' ⟨rfl⟩
      exact start
  | cons call calls induction =>
      obtain ⟨outcome, running, moved⟩ :=
        move_terminates K (acyclic vt start) call.block call.parent call.left
      cases outcome with
      | error abort =>
          exact ⟨.error abort, by simpa using running,
            moved.bind_abort.bind_abort, by simp⟩
      | ok returned =>
          obtain ⟨next, result⟩ := returned
          have inv := step vt next call result List.mem_cons_self start moved
          obtain ⟨outcome, running', reached, holds⟩ := induction
            (fun vt vt' call' result member =>
              step vt vt' call' result (List.mem_cons_of_mem _ member)) inv
          exact ⟨outcome, running', (moved.bind (.const _)).bind reached, holds⟩

/-- The calls are answered if the replay and the moves are. -/
theorem edit_converges {outcome : Outcome TreeMutation}
    (mutated : Converges (fun fuel => state.mutate fuel) (.ok vt))
    (reached : Converges (fun fuel => runMoves K fuel vt calls) outcome) :
    Converges (fun fuel => edit K fuel state calls) outcome :=
  mutated.bind reached

/-- A sound mutation in which no block is named like the root. -/
structure Walkable (K : Fracdex) (vt : TreeMutation) : Prop where
  sound : Sound K vt
  named : vt.BlocksNamed

/-- A call of `move` keeps a mutation walkable. -/
theorem Walkable.move {block parent left : String} (walkable : Walkable K vt)
    (differs : ¬ SelfMove block parent) {result : Except String MoveEffect}
    (done : Converges (fun fuel => vt.move K fuel block parent left)
      (.ok (vt', result))) : Walkable K vt' := by
  refine ⟨walkable.sound.move differs done, ?_⟩
  rcases move_cases walkable.sound.acyclic done with
    ⟨rfl, -⟩ | ⟨pos, placeable, placed⟩
  · exact walkable.named
  · obtain ⟨-, added⟩ :=
      walkable.sound.placeMove_frame placeable differs placed
    intro x member
    rcases added x member with old | rfl
    · exact walkable.named x old
    · exact placeable.block_ne_empty

/--
When no received operation and no call moves a block under itself, starting the
mutation and every call end, and in every mutation reached the climb from any
block to the root or the trash is finite, so ancestor checks and further calls
end.  When moreover no received operation moves the block with the empty name,
the depth-first walk visits a finite list of moves.
-/
theorem acyclic_of_no_self_move
    (received : Received K (fun op => ¬ SelfMove op.block op.parent) state)
    (noSelf : ∀ call ∈ calls, ¬ SelfMove call.block call.parent) :
    Terminates (fun fuel => state.mutate fuel) ∧
    Terminates (fun fuel => edit K fuel state calls) ∧
    ∀ vt, Converges (fun fuel => edit K fuel state calls) (.ok vt) →
      (∀ block, Grounded vt.parentOf TreeMutation.IsTop block) ∧
      (∀ a b, Terminates fun fuel => vt.isAncestor fuel a b) ∧
      (∀ block parent left,
        Terminates fun fuel => vt.move K fuel block parent left) ∧
      ((∀ x ∈ state.log, x.block ≠ "") →
        ∃ moves : List Move, ∀ {σ : Type}
          (fn : σ → Move → Outcome (σ × Bool)) (start : σ),
          Converges (fun fuel => vt.walkDFT fuel fn start)
            (visit fn moves start)) := by
  obtain ⟨valid, noSelfMove⟩ := received.valid
  have mutated := mutate_converges valid noSelfMove
  have sound := settle_sound valid noSelfMove
  obtain ⟨outcome, running, reached, holds⟩ := runMoves_invariant
    (fun vt (inv : Sound K vt) => inv.acyclic)
    (fun vt vt' call result member inv done =>
      inv.move (noSelf call member) done) sound
  have edited := edit_converges mutated reached
  refine ⟨⟨_, by simp, mutated⟩, ⟨outcome, running, edited⟩, ?_⟩
  intro vt converges
  have soundHere : Sound K vt := holds vt (edited.unique converges)
  refine ⟨soundHere.acyclic, ?_,
    fun block parent left => move_terminates K soundHere.acyclic block parent left,
    ?_⟩
  · exact fun a b =>
      ⟨_, by simp, isAncestor_converges soundHere.acyclic a b⟩
  · intro blocksNamed
    have tree_eq : state.resolve.settle.tree = state.tree := state.resolve_tree
    have walkable : Walkable K state.resolve.settle := by
      refine ⟨sound, fun x member => blocksNamed x (valid.mem_tree.mp ?_)⟩
      rwa [tree_eq] at member
    obtain ⟨outcome', -, reached', holds'⟩ := runMoves_invariant
      (fun vt (inv : Walkable K vt) => inv.sound.acyclic)
      (fun vt vt' call result member inv done =>
        inv.move (noSelf call member) done) walkable
    have walkableHere : Walkable K vt :=
      holds' vt ((edit_converges mutated reached').unique converges)
    exact ⟨vt.walk walkableHere.sound.index walkableHere.sound.oneVisible
      walkableHere.named, fun fn start => walkDFT_converges _ _ _ fn start⟩

end Runs

/-! ## Sample runs -/

/-- The operation that makes the first block. -/
def firstBlock : MoveOp := ⟨⟨"alice", 1, 0⟩, "b1", "", "", ""⟩

/-- A tree with one block. -/
def oneBlock : TreeCRDT :=
  newTreeCRDT.withMove ⟨⟨"alice", 1, 0⟩, "b1", "", "", "", "a0"⟩

/-- Two blocks written by Alice. -/
def twoBlocks : TreeCRDT :=
  (newTreeCRDT.withMove ⟨⟨"alice", 1, 0⟩, "b1", "", "", "", "a0"⟩).withMove
    ⟨⟨"alice", 1, 1⟩, "b2", "", "b1", "alice", "a1"⟩

theorem twoBlocks_received : Received sampleFracdex (fun _ => True) twoBlocks :=
  .integrate ⟨⟨"alice", 1, 1⟩, "b2", "", "b1", "alice"⟩
    (.integrate firstBlock .new trivial rfl) trivial rfl

theorem acyclic_of_no_self_move_oneBlock :
    Terminates (fun fuel =>
      edit sampleFracdex fuel oneBlock [⟨"b2", "b1", ""⟩, ⟨"b1", "b2", ""⟩]) :=
  (acyclic_of_no_self_move (K := sampleFracdex)
    (.integrate firstBlock .new (by decide) rfl) (by decide)).2.1

/-- A block moved under itself. -/
def selfMove : MoveOp := ⟨⟨"alice", 1, 0⟩, "b", "b", "", ""⟩

/-- A tree with a block below itself. -/
def selfMoved : TreeCRDT :=
  newTreeCRDT.withMove ⟨⟨"alice", 1, 0⟩, "b", "b", "", "", "a0"⟩

/--
A received operation that moves a block under itself is integrated, and from
then on the climb to the ancestors of the block never ends.
-/
theorem selfMove_cycles :
    newTreeCRDT.integrateOp sampleFracdex selfMove = .ok (.ok selfMoved) ∧
      ∃ vt, Converges (fun fuel => selfMoved.mutate fuel) (.ok vt) ∧
        ¬ Grounded vt.parentOf TreeMutation.IsTop "b" ∧
        ∀ fuel, vt.isAncestor fuel "x" "b" = .error .outOfFuel := by
  have returned : ∃ vt, (∀ fuel, selfMoved.mutate (fuel + 1) = .ok vt) ∧
      vt.parentOf "b" = "b" := ⟨_, fun _ => rfl, by decide⟩
  obtain ⟨vt, mutated, fixed⟩ := returned
  have isOpen : ¬ TreeMutation.IsTop "b" := by decide
  refine ⟨rfl, vt, .of_add 1 mutated, not_grounded_of_fixed isOpen fixed,
    fun fuel => ?_⟩
  rw [isAncestor, fixed]
  exact climbLoop_of_fixed isOpen (by decide) fixed fuel

end Mintter.Docmodel
