import Mathlib.Data.Finset.Insert
import Mintter.Docmodel.Integrate

/-!
# Replaying the log

`mutate` replays the log in the order of the operations.  A move is hidden when
its block is above the new parent at that moment; otherwise it becomes the
winner of its block.  `resolve` is this decision without the loop that makes
it, and `mutate_converges` says that `mutate` computes it for every log in
which no block is moved under itself.
-/

namespace Mintter.Docmodel

open Mintter.Foundation

namespace TreeMutation

/-- The block `b` lies below `a`. -/
def Above (vt : TreeMutation) (a b : String) : Prop :=
  Climbs vt.parentOf IsTop a (vt.parentOf b)

/-- Every block has finitely many ancestors. -/
def Acyclic (vt : TreeMutation) : Prop :=
  ∀ block, Grounded vt.parentOf IsTop block

open Classical in
/-- The climb to the ancestors decides whether one block is above another. -/
theorem isAncestor_converges {vt : TreeMutation} (acyclic : vt.Acyclic)
    (a b : String) :
    Converges (fun fuel => vt.isAncestor fuel a b)
      (.ok (decide (vt.Above a b))) :=
  climbLoop_converges (acyclic (vt.parentOf b))

theorem parentOf_update (vt : TreeMutation) (block parent : String) :
    (fun b => (Function.update vt.parents block (some parent) b).getD "") =
      Function.update vt.parentOf block parent := by
  funext b
  by_cases same : b = block
  · subst same
    simp
  · simp [same, parentOf]

/-- The block would become its own parent. -/
def SelfMove (block parent : String) : Prop :=
  block = parent ∧ ¬ IsTop block

instance (block parent : String) : Decidable (SelfMove block parent) :=
  inferInstanceAs (Decidable (_ ∧ _))

/-- Moving a block keeps the tree acyclic, unless it goes under itself. -/
theorem Acyclic.update {vt vt' : TreeMutation} {block parent : String}
    (acyclic : vt.Acyclic)
    (moved : vt'.parents = Function.update vt.parents block (some parent))
    (differs : ¬ SelfMove block parent) (notAbove : ¬ vt.Above block parent) :
    vt'.Acyclic := by
  have shape : vt'.parentOf = Function.update vt.parentOf block parent := by
    rw [← parentOf_update, ← moved]
    rfl
  intro node
  rw [shape]
  exact Grounded.redirect acyclic
    (fun same => not_not.mp fun notTop => differs ⟨same, notTop⟩) notAbove node

/-! ## One move -/

/-- The move loses against the winner of its block. -/
def hide (vt : TreeMutation) (x : Move) : TreeMutation :=
  { vt with originalInvisibleMoves := insert x vt.originalInvisibleMoves }

/-- The move becomes the winner of its block. -/
def crown (vt : TreeMutation) (x : Move) : TreeMutation :=
  { vt with
    originalInvisibleMoves :=
      match vt.originalWinners x.block with
      | some last => insert last vt.originalInvisibleMoves
      | none => vt.originalInvisibleMoves
    originalWinners := Function.update vt.originalWinners x.block (some x)
    parents := Function.update vt.parents x.block (some x.parent) }

open Classical in
/-- The later move of a block wins unless it makes a cycle. -/
noncomputable def resolveStep (vt : TreeMutation) (x : Move) : TreeMutation :=
  if vt.Above x.block x.parent then vt.hide x else vt.crown x

/-- What replaying the moves `seen` leaves behind. -/
structure Replayed (seen : List Move) (vt : TreeMutation) : Prop where
  winner_mem : ∀ {block x}, vt.originalWinners block = some x →
    x ∈ seen ∧ x.block = block
  parents_eq : ∀ block,
    vt.parents block = (vt.originalWinners block).map Move.parent
  invisible_iff : ∀ {x}, x ∈ vt.originalInvisibleMoves ↔
    x ∈ seen ∧ vt.originalWinners x.block ≠ some x
  acyclic : vt.Acyclic

/-- The winners, the parents and the hidden moves agree with the moves `seen`. -/
structure Ranked (seen : List Move) (vt : TreeMutation) : Prop where
  winner_mem : ∀ {block x}, vt.originalWinners block = some x →
    x ∈ seen ∧ x.block = block
  parents_eq : ∀ block,
    vt.parents block = (vt.originalWinners block).map Move.parent
  invisible_iff : ∀ {x}, x ∈ vt.originalInvisibleMoves ↔
    x ∈ seen ∧ vt.originalWinners x.block ≠ some x

section Step

variable {seen : List Move} {vt : TreeMutation} {x : Move}

/-- What was replayed is ranked. -/
theorem Replayed.ranked (replayed : Replayed seen vt) : Ranked seen vt where
  winner_mem := replayed.winner_mem
  parents_eq := replayed.parents_eq
  invisible_iff := replayed.invisible_iff

/-- What is ranked and has no cycle was replayed. -/
theorem Ranked.replayed (ranked : Ranked seen vt) (acyclic : vt.Acyclic) :
    Replayed seen vt where
  winner_mem := ranked.winner_mem
  parents_eq := ranked.parents_eq
  invisible_iff := ranked.invisible_iff
  acyclic := acyclic

/-- Hiding the next move keeps the others ranked. -/
theorem Ranked.hide (ranked : Ranked seen vt) (fresh : x ∉ seen) :
    Ranked (seen ++ [x]) (vt.hide x) := by
  have loses : vt.originalWinners x.block ≠ some x :=
    fun wins => fresh (ranked.winner_mem wins).1
  constructor
  · intro block y wins
    obtain ⟨member, named⟩ := ranked.winner_mem wins
    exact ⟨List.mem_append_left _ member, named⟩
  · exact ranked.parents_eq
  · intro y
    change y ∈ insert x vt.originalInvisibleMoves ↔
      y ∈ seen ++ [x] ∧ vt.originalWinners y.block ≠ some y
    rw [Finset.mem_insert, ranked.invisible_iff, List.mem_append,
      List.mem_singleton]
    constructor
    · rintro (rfl | ⟨member, hidden⟩)
      · exact ⟨Or.inr rfl, loses⟩
      · exact ⟨Or.inl member, hidden⟩
    · rintro ⟨member | rfl, hidden⟩
      · exact Or.inr ⟨member, hidden⟩
      · exact Or.inl rfl

/-- Crowning the next move keeps the moves ranked. -/
theorem Ranked.crown (ranked : Ranked seen vt) (fresh : x ∉ seen) :
    Ranked (seen ++ [x]) (vt.crown x) := by
  constructor
  · intro block y wins
    change Function.update vt.originalWinners x.block (some x) block =
      some y at wins
    by_cases same : block = x.block
    · subst same
      rw [Function.update_self] at wins
      obtain rfl := Option.some.inj wins
      simp
    · rw [Function.update_of_ne same] at wins
      obtain ⟨member, named⟩ := ranked.winner_mem wins
      exact ⟨List.mem_append_left _ member, named⟩
  · intro block
    change Function.update vt.parents x.block (some x.parent) block =
      (Function.update vt.originalWinners x.block (some x) block).map _
    by_cases same : block = x.block
    · subst same
      simp
    · rw [Function.update_of_ne same, Function.update_of_ne same,
        ranked.parents_eq]
  · intro y
    change y ∈ (match vt.originalWinners x.block with
        | some last => insert last vt.originalInvisibleMoves
        | none => vt.originalInvisibleMoves) ↔
      y ∈ seen ++ [x] ∧
        Function.update vt.originalWinners x.block (some x) y.block ≠ some y
    have before : ∀ {y}, y ∈ (match vt.originalWinners x.block with
        | some last => insert last vt.originalInvisibleMoves
        | none => vt.originalInvisibleMoves) ↔
        vt.originalWinners x.block = some y ∨
          y ∈ vt.originalInvisibleMoves := by
      intro y
      cases vt.originalWinners x.block with
      | none => simp
      | some last => simp [eq_comm]
    rw [before, ranked.invisible_iff, List.mem_append, List.mem_singleton]
    by_cases same : y.block = x.block
    · rw [same, Function.update_self]
      constructor
      · rintro (wins | ⟨member, _⟩)
        · have member := (ranked.winner_mem wins).1
          exact ⟨Or.inl member, fun equal =>
            fresh (Option.some.inj equal ▸ member)⟩
        · exact ⟨Or.inl member, fun equal =>
            fresh (Option.some.inj equal ▸ member)⟩
      · rintro ⟨member | rfl, differs⟩
        · by_cases wins : vt.originalWinners x.block = some y
          · exact Or.inl wins
          · exact Or.inr ⟨member, wins⟩
        · exact absurd rfl differs
    · rw [Function.update_of_ne same]
      constructor
      · rintro (wins | ⟨member, hidden⟩)
        · exact absurd (ranked.winner_mem wins).2 same
        · exact ⟨Or.inl member, hidden⟩
      · rintro ⟨member | rfl, hidden⟩
        · exact Or.inr ⟨member, hidden⟩
        · exact absurd rfl same

/-- One more move is replayed. -/
theorem Replayed.resolveStep (replayed : Replayed seen vt) (fresh : x ∉ seen)
    (differs : ¬ SelfMove x.block x.parent) :
    Replayed (seen ++ [x]) (vt.resolveStep x) := by
  rw [TreeMutation.resolveStep]
  split_ifs with above
  · exact (replayed.ranked.hide fresh).replayed replayed.acyclic
  · exact (replayed.ranked.crown fresh).replayed
      (replayed.acyclic.update rfl differs above)

/-- Replaying a move that follows all the moves seen. -/
theorem replay_converges (replayed : Replayed seen vt)
    (later : ∀ y ∈ seen, y.opID < x.opID) :
    Converges (fun fuel => vt.replay fuel x) (.ok (vt.resolveStep x)) := by
  classical
  have climb := isAncestor_converges replayed.acyclic x.block x.parent
  have decided : Converges (fun fuel =>
      vt.isAncestor fuel x.block x.parent >>= fun above =>
        if above then pure (vt.hide x) else pure (vt.crown x))
      (.ok (vt.resolveStep x)) := by
    refine climb.bind ?_
    by_cases above : vt.Above x.block x.parent
    · simpa [above, TreeMutation.resolveStep] using Converges.const _
    · simpa [above, TreeMutation.resolveStep] using Converges.const _
  refine decided.congr fun fuel => ?_
  rw [replay]
  cases wins : vt.originalWinners x.block with
  | none => simp [wins, hide, crown]
  | some last =>
      have less := later last (replayed.winner_mem wins).1
      simp [wins, OpID.less_eq_ok less.ne', less.le, hide, crown]

end Step

end TreeMutation

/-! ## The whole log -/

open TreeMutation

/-- The mutation before any move of the log was replayed. -/
def TreeCRDT.blank (state : TreeCRDT) : TreeMutation where
  tree := state.tree
  parents := fun _ => none
  originalWinners := fun _ => none
  dirtyWinners := fun _ => none
  originalInvisibleMoves := ∅
  dirtyInvisibleMoves := ∅

/-- Start the mutation from the replayed moves. -/
def TreeMutation.settle (vt : TreeMutation) : TreeMutation :=
  { vt with
    dirtyWinners := vt.originalWinners
    dirtyInvisibleMoves := vt.originalInvisibleMoves }

/-- The winners after the whole log. -/
noncomputable def TreeCRDT.resolve (state : TreeCRDT) : TreeMutation :=
  state.log.foldl resolveStep state.blank

theorem TreeCRDT.blank_replayed (state : TreeCRDT) :
    Replayed [] state.blank where
  winner_mem := by simp [blank]
  parents_eq := by simp [blank]
  invisible_iff := by simp [blank]
  acyclic := fun _ => .up (.halt (Or.inl rfl))

/-- No move of the log puts a block under itself. -/
def TreeCRDT.NoSelfMove (state : TreeCRDT) : Prop :=
  ∀ x ∈ state.log, ¬ SelfMove x.block x.parent

section Log

variable {K : Fracdex} {state : TreeCRDT}

theorem TreeCRDT.Valid.later (valid : state.Valid K) {seen rest : List Move}
    {x : Move} (split : state.log = seen ++ x :: rest) :
    ∀ y ∈ seen, y.opID < x.opID := by
  have sorted := valid.log_sorted
  rw [KeyedList.Sorted, split] at sorted
  exact fun y member =>
    (List.pairwise_append.mp sorted).2.2 y member x List.mem_cons_self

/-- Replaying the log converges to its resolution. -/
theorem replay_log_converges (valid : state.Valid K)
    (noSelf : state.NoSelfMove) :
    Converges (fun fuel => state.log.foldlM (replay fuel) state.blank)
        (.ok state.resolve) ∧ Replayed state.log state.resolve := by
  have run : ∃ vt, Converges
      (fun fuel => state.log.foldlM (replay fuel) state.blank) (.ok vt) ∧
        vt = state.log.foldl resolveStep state.blank ∧
          Replayed state.log vt := Converges.foldlM
    (fun seen vt => vt = seen.foldl resolveStep state.blank ∧ Replayed seen vt)
    (by
      rintro seen x rest vt split ⟨rfl, replayed⟩
      have later := valid.later split
      refine ⟨_, replay_converges replayed later, ?_, ?_⟩
      · rw [List.foldl_append]
        rfl
      · refine replayed.resolveStep ?_ (noSelf x (by simp [split]))
        exact fun member => (later x member).false)
    ⟨rfl, state.blank_replayed⟩
  obtain ⟨vt, reached, rfl, replayed⟩ := run
  exact ⟨reached, replayed⟩

/-- A valid log without self moves can be replayed. -/
theorem mutate_converges (valid : state.Valid K) (noSelf : state.NoSelfMove) :
    Converges (fun fuel => state.mutate fuel) (.ok state.resolve.settle) :=
  (replay_log_converges valid noSelf).1.bind (.const _)

/-- Resolving replays the whole log. -/
theorem resolve_replayed (valid : state.Valid K) (noSelf : state.NoSelfMove) :
    Replayed state.log state.resolve :=
  (replay_log_converges valid noSelf).2

theorem foldl_resolveStep_tree (moves : List Move) (vt : TreeMutation) :
    (moves.foldl resolveStep vt).tree = vt.tree := by
  induction moves generalizing vt with
  | nil => rfl
  | cons x moves induction =>
      rw [List.foldl_cons, induction, resolveStep]
      split_ifs <;> rfl

@[simp]
theorem TreeCRDT.resolve_tree (state : TreeCRDT) :
    state.resolve.tree = state.tree :=
  foldl_resolveStep_tree state.log state.blank

end Log

end Mintter.Docmodel
