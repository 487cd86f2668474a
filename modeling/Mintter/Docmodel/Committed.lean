import Mintter.Docmodel.Commit
import Mintter.Docmodel.Convergence

/-!
# The tree after a commit

`commit_keeps_walk_iff` compares the tree that a mutation shows with the tree
that a new mutation shows after the commit.  They agree exactly when no block
was lost: no own move lies below a block that is not shown while the block's
original place is shown.  The walk of the commit never meets such a move, no
operation is produced for it, and the block returns to its original place.
-/

namespace Mintter.Docmodel

open Mintter.Foundation
open TreeMutation

/--
No own move below a block that is not shown hides an original move under a
block that is shown.
-/
def TreeMutation.NoLostMove (vt : TreeMutation) : Prop :=
  ∀ x ∈ vt.tree, x.IsOwn → x.parent ≠ trashNodeID → ¬ vt.Shown x.parent →
    ∀ original, vt.originalWinners x.block = some original →
      ¬ vt.Shown original.parent

/-! ## Replaying the produced operations -/

section Replay

variable {K : Fracdex} {state : TreeCRDT} {vt : TreeMutation}
    {origin : String} {ts : Int} {m x : Move}

namespace Draft

/-- No operation moves the root or the trash. -/
theorem winners_top (draft : Draft K state vt) {block : String}
    (top : TreeMutation.IsTop block) : state.resolve.winners block = none := by
  have replayed := resolve_replayed draft.base.valid draft.base.noSelfMove
  rw [winners, Option.map_eq_none_iff]
  refine Option.eq_none_iff_forall_ne_some.mpr fun x wins => ?_
  obtain ⟨member, rfl⟩ := replayed.winner_mem wins
  rcases top with isRoot | isTrash
  · exact (draft.base.place x member).ne_root isRoot
  · exact (draft.base.place x member).ne_trash isTrash

/-- A visible move that is not our own is the original winner. -/
theorem winners_visible (draft : Draft K state vt)
    (visible : x ∈ vt.visibleUnder x.parent) (notOwn : ¬ x.IsOwn) :
    state.resolve.winners x.block = some x.op := by
  obtain ⟨member, -, shown⟩ := mem_visibleUnder.mp visible
  have wins := draft.winner_original ((draft.visible_iff member).mp shown) notOwn
  rw [draft.originals] at wins
  rw [winners, wins]
  rfl

/-- No move is handed out twice. -/
theorem produced_nodup (draft : Draft K state vt) : draft.produced.Nodup := by
  refine List.nodup_append.mpr ⟨(Forest.walk_nodup _).filter _,
    (draft.sound.index.sorted.filter _).nodup.filter _, ?_⟩
  rintro x walked y deleted rfl
  obtain ⟨-, -, isTrash⟩ := mem_deletes.mp deleted
  have shown := (draft.mem_walk_iff.mp (List.mem_filter.mp walked).1).2
  exact draft.not_shown_trash (isTrash ▸ shown)

/-- Own moves are determined by their blocks. -/
theorem own_eq_of_block (draft : Draft K state vt) {y : Move}
    (member : x ∈ vt.tree) (own : x.IsOwn)
    (winner : vt.dirtyWinners y.block = some y) (same : x.block = y.block) :
    x = y := by
  have wins := draft.own_wins member own
  rw [same, winner] at wins
  exact (Option.some.inj wins).symm

/-- What is produced before a visited own move. -/
theorem produced_before (draft : Draft K state vt) {front back before after :
    List Move} (walk : draft.walk = front ++ m :: back) (own : m.IsOwn)
    (split : draft.produced = before ++ m :: after) :
    before = front.filter fun x => x.IsOwn := by
  have nodup := draft.produced_nodup
  have shape : draft.produced = (front.filter fun x => x.IsOwn) ++
      m :: ((back.filter fun x => x.IsOwn) ++ deletes vt) := by
    rw [produced, walk, List.filter_append,
      List.filter_cons_of_pos (by simpa using own), List.append_assoc,
      List.cons_append]
  rw [split] at nodup shape
  obtain ⟨_, nodupAfter, apart⟩ := List.nodup_append.mp nodup
  exact ((List.append_cons_inj_of_notMem
    (fun member => apart m member m List.mem_cons_self rfl)
    (List.nodup_cons.mp nodupAfter).1).mp shape).1

end Draft

/-- The winners after the operations `ops` of the moves `seen` were replayed. -/
structure Crowned (base : Winners) (seen : List Move) (ops : List MoveOp)
    (winners : Winners) : Prop where
  kept : ∀ block, block ∉ seen.map Move.block → winners block = base block
  crowned : ∀ z ∈ seen, ∃ op ∈ ops, winners z.block = some op ∧
    op.block = z.block ∧ op.parent = z.parent

section Crowned

variable {seen : List Move} {ops : List MoveOp} {ws : Winners} {op : MoveOp}

/-- The next operation wins its block, and the other winners stay. -/
theorem Crowned.update (crowned : Crowned state.resolve.winners seen ops ws)
    (sameBlock : op.block = m.block) (sameParent : op.parent = m.parent)
    (fresh : m.block ∉ seen.map Move.block) :
    Crowned state.resolve.winners (seen ++ [m]) (ops ++ [op])
      (Function.update ws op.block (some op)) := by
  constructor
  · intro block other
    rw [List.map_append, List.mem_append, not_or] at other
    rw [Function.update_of_ne, crowned.kept block other.1]
    rw [sameBlock]
    simpa using other.2
  · intro z member
    rcases List.mem_append.mp member with old | isNew
    · obtain ⟨op', known, wins, named⟩ := crowned.crowned z old
      refine ⟨op', by simp [known], ?_, named⟩
      rw [Function.update_of_ne, wins]
      rw [sameBlock]
      exact fun same => fresh (same ▸ List.mem_map_of_mem old)
    · obtain rfl := List.mem_singleton.mp isNew
      exact ⟨op, by simp, sameBlock ▸ Function.update_self .., sameBlock,
        sameParent⟩

theorem Crowned.parentOf_top (draft : Draft K state vt)
    (crowned : Crowned state.resolve.winners seen ops ws)
    (seenTree : ∀ x ∈ seen, x ∈ vt.tree) {block : String}
    (top : TreeMutation.IsTop block) : ws.parentOf block = "" := by
  have notSeen : block ∉ seen.map Move.block := by
    intro member
    obtain ⟨x, isSeen, rfl⟩ := List.mem_map.mp member
    have place := draft.place x (seenTree x isSeen)
    exact top.elim place.ne_root place.ne_trash
  rw [Winners.parentOf, crowned.kept block notSeen, draft.winners_top top]
  rfl

/-- A visited move has its parent once its own moves so far are replayed. -/
theorem Crowned.parentOf_visited (draft : Draft K state vt) {y : Move}
    (crowned : Crowned state.resolve.winners seen ops ws)
    (seenOwn : ∀ x ∈ seen, x ∈ vt.tree ∧ x.IsOwn) (visited : y ∈ draft.walk)
    (done : y.IsOwn → y ∈ seen) : ws.parentOf y.block = y.parent := by
  by_cases own : y.IsOwn
  · obtain ⟨op, -, wins, -, sameParent⟩ := crowned.crowned y (done own)
    rw [Winners.parentOf, wins]
    exact sameParent
  · have visible := (draft.mem_walk_iff.mp visited).1
    have winner := (draft.visible_iff (draft.mem_tree_of_mem_walk visited)).mp
      (mem_visibleUnder.mp visible).2.2
    have notSeen : y.block ∉ seen.map Move.block := by
      intro member
      obtain ⟨x, isSeen, same⟩ := List.mem_map.mp member
      obtain ⟨inTree, xOwn⟩ := seenOwn x isSeen
      exact own (draft.own_eq_of_block inTree xOwn winner same ▸ xOwn)
    rw [Winners.parentOf, crowned.kept _ notSeen,
      draft.winners_visible visible own]
    rfl

/-- Replaying a produced operation makes no cycle. -/
theorem Crowned.not_climbs (draft : Draft K state vt) {after : List Move}
    (split : draft.produced = seen ++ m :: after)
    (crowned : Crowned state.resolve.winners seen ops ws) :
    ¬ Climbs ws.parentOf TreeMutation.IsTop m.block
      (ws.parentOf m.parent) := by
  have seenOwn : ∀ x ∈ seen, x ∈ vt.tree ∧ x.IsOwn := by
    intro x isSeen
    have isProduced : x ∈ draft.produced := by simp [split, isSeen]
    obtain ⟨inTree, own, -⟩ := draft.mem_produced.mp isProduced
    exact ⟨inTree, own⟩
  have seenTree : ∀ x ∈ seen, x ∈ vt.tree := fun x member => (seenOwn x member).1
  have isProduced : m ∈ draft.produced := by simp [split]
  obtain ⟨inTree, own, place⟩ := draft.mem_produced.mp isProduced
  rcases place with isTrash | shown
  · rw [isTrash, crowned.parentOf_top draft seenTree (Or.inr rfl)]
    exact fun climb => climb.start_open (Or.inl rfl)
  have visited : m ∈ draft.walk :=
    draft.mem_walk_iff.mpr ⟨draft.own_visible inTree own, shown⟩
  obtain ⟨front, back, walk⟩ := List.append_of_mem visited
  have before := draft.produced_before walk own split
  have inWalk : ∀ y ∈ front, y ∈ draft.walk := fun y member => by
    simp [walk, member]
  have parentOf : ∀ y ∈ front, ws.parentOf y.block = y.parent := by
    intro y member
    refine crowned.parentOf_visited draft seenOwn (inWalk y member) fun yOwn => ?_
    rw [before]
    exact List.mem_filter.mpr ⟨member, by simpa using yOwn⟩
  have above : ∀ y ∈ draft.walk, (∃ f b, draft.walk = f ++ y :: b ∧ f ⊆ front) →
      y.parent = "" ∨ ∃ z ∈ front, z.block = y.parent := by
    rintro y isVisited ⟨f, b, walk', sub⟩
    rcases Forest.mem_walk_cases isVisited with isRoot | ⟨z, zVisited, isKid⟩
    · exact Or.inl (mem_visibleUnder.mp isRoot).2.1
    · exact Or.inr ⟨z, sub (Forest.parent_mem_front walk' zVisited isKid),
        (mem_visibleUnder.mp isKid).2.1.symm⟩
  have frontAbove : ∀ y ∈ front,
      y.parent = "" ∨ ∃ z ∈ front, z.block = y.parent := by
    intro y member
    obtain ⟨f, b, shape⟩ := List.append_of_mem member
    refine above y (inWalk y member) ⟨f, b ++ m :: back, ?_, ?_⟩
    · rw [walk, shape, List.append_assoc, List.cons_append]
    · rw [shape]
      exact List.subset_append_left _ _
  have closed : ∀ block, (block = "" ∨ ∃ y ∈ front, y.block = block) →
      ws.parentOf block = "" ∨ ∃ y ∈ front, y.block = ws.parentOf block := by
    rintro block (rfl | ⟨y, member, rfl⟩)
    · exact Or.inl (crowned.parentOf_top draft seenTree (Or.inl rfl))
    · rw [parentOf y member]
      exact frontAbove y member
  have start := closed m.parent
    (by
      rcases above m visited ⟨front, back, walk, List.Subset.refl _⟩ with
        isRoot | isBelow
      · exact Or.inl isRoot
      · exact Or.inr isBelow)
  refine not_climbs_of_closed
    (fun block => block = "" ∨ ∃ y ∈ front, y.block = block)
    (fun block inside _ => closed block inside) ?_ start
  rintro (isRoot | ⟨y, member, same⟩)
  · exact (draft.place m inTree).ne_root isRoot
  · obtain rfl := draft.block_injective_walk (inWalk y member) visited same
    have nodup : draft.walk.Nodup := Forest.walk_nodup _
    rw [walk] at nodup
    exact (List.nodup_append.mp nodup).2.2 y member y List.mem_cons_self rfl

/-- Replaying all produced operations makes every one of them a winner. -/
theorem Crowned.replay (draft : Draft K state vt) {rest added : List Move}
    (split : draft.produced = seen ++ rest)
    (same : added.map (fun x => (x.block, x.parent)) =
      rest.map fun x => (x.block, x.parent))
    (crowned : Crowned state.resolve.winners seen ops ws) :
    Crowned state.resolve.winners draft.produced (ops ++ added.map Move.op)
      ((added.map Move.op).foldl Winners.step ws) := by
  induction rest generalizing seen added ops ws with
  | nil =>
      obtain rfl : added = [] := by simpa using same
      rw [split]
      simpa using crowned
  | cons m rest induction =>
      cases added with
      | nil => simp at same
      | cons x added =>
          obtain ⟨head, tail⟩ := List.cons.inj same
          obtain ⟨sameBlock, sameParent⟩ := Prod.mk.inj head
          have accepted : ws.step x.op =
              Function.update ws x.op.block (some x.op) := by
            rw [Winners.step, if_neg]
            rw [Move.op_block, Move.op_parent, sameBlock, sameParent]
            exact crowned.not_climbs draft split
          have fresh : m.block ∉ seen.map Move.block := by
            intro member
            obtain ⟨z, isSeen, same⟩ := List.mem_map.mp member
            have inTree : ∀ {y}, y ∈ draft.produced → y ∈ vt.tree ∧ y.IsOwn :=
              fun isIn => ⟨(draft.mem_produced.mp isIn).1,
                (draft.mem_produced.mp isIn).2.1⟩
            obtain ⟨zTree, zOwn⟩ := inTree (y := z) (by simp [split, isSeen])
            obtain ⟨mTree, mOwn⟩ := inTree (y := m) (by simp [split])
            obtain rfl := draft.own_eq_of_block zTree zOwn
              (draft.own_wins mTree mOwn) same
            have nodup := draft.produced_nodup
            rw [split] at nodup
            exact (List.nodup_append.mp nodup).2.2 z isSeen z
              List.mem_cons_self rfl
          have next : Crowned state.resolve.winners (seen ++ [m])
              (ops ++ [x.op]) (Function.update ws x.op.block (some x.op)) :=
            crowned.update sameBlock sameParent fresh
          rw [List.map_cons, List.foldl_cons, accepted]
          have done := induction (by simpa using split) tail next
          simpa using done

end Crowned

end Replay

/-! ## The new tree -/

section Result

variable {K : Fracdex} {state : TreeCRDT} {vt : TreeMutation}
    {origin : String} {ts count : Int} {added : List Move} {state' : TreeCRDT}
    {x y : Move}

/-- A finished commit of a draft. -/
structure Finished (K : Fracdex) (state : TreeCRDT) (vt : TreeMutation)
    (origin : String) (ts : Int) (added : List Move) (state' : TreeCRDT) :
    Prop where
  draft : Draft K state vt
  isNew : NewOrigin state origin ts
  progress : ∃ count, Progress K state vt origin ts draft.produced added
    (state', count)

namespace Finished

variable (finished : Finished K state vt origin ts added state')
include finished

/-- What was added comes from a move of the draft. -/
theorem added_produced (member : y ∈ added) :
    ∃ z ∈ finished.draft.produced, y.block = z.block ∧ y.parent = z.parent := by
  obtain ⟨count, progress⟩ := finished.progress
  have isIn : (y.block, y.parent) ∈ added.map fun x => (x.block, x.parent) :=
    List.mem_map_of_mem member
  rw [progress.added_eq] at isIn
  obtain ⟨z, isProduced, same⟩ := List.mem_map.mp isIn
  obtain ⟨sameBlock, sameParent⟩ := Prod.mk.inj same
  exact ⟨z, isProduced, sameBlock.symm, sameParent.symm⟩

/-- The log has grown by what was added. -/
theorem mem_log : x ∈ state'.log ↔ x ∈ state.log ∨ x ∈ added := by
  obtain ⟨count, progress⟩ := finished.progress
  exact progress.mem_log

theorem added_origin (member : y ∈ added) : y.opID.origin = origin := by
  obtain ⟨count, progress⟩ := finished.progress
  exact (progress.added_opID y member).1

/-- The state after the commit is proper. -/
theorem proper : ProperState K state' := by
  obtain ⟨count, progress⟩ := finished.progress
  refine ⟨progress.valid, fun x member => ?_, fun x member => ?_⟩
  · rcases finished.mem_log.mp member with old | isAdded
    · exact finished.draft.base.place x old
    · obtain ⟨z, isProduced, sameBlock, sameParent⟩ :=
        finished.added_produced isAdded
      rw [sameBlock, sameParent]
      exact finished.draft.place z (finished.draft.mem_produced.mp isProduced).1
  · rcases finished.mem_log.mp member with old | isAdded
    · exact finished.draft.base.notOwn x old
    · exact fun own => finished.isNew.named
        ((finished.added_origin isAdded).symm.trans own)

/-- After the commit the added operations win their blocks. -/
theorem crowned : Crowned state.resolve.winners finished.draft.produced
    (added.map Move.op) state'.resolve.winners := by
  obtain ⟨count, progress⟩ := finished.progress
  have start : Crowned state.resolve.winners [] [] state.resolve.winners :=
    ⟨fun _ _ => rfl, by simp⟩
  have replayed := start.replay finished.draft (List.nil_append _).symm
    progress.added_eq
  have log_eq : state'.log = state.log ++ added := progress.log_eq
  rw [winners_resolve finished.proper.valid finished.proper.noSelfMove, log_eq,
    List.map_append, List.foldl_append, ← winners_resolve
      finished.draft.base.valid finished.draft.base.noSelfMove]
  exact replayed

/-- No block is added twice. -/
theorem added_unique (member : x ∈ added) (member' : y ∈ added)
    (same : x.block = y.block) : x = y := by
  have valid := finished.proper.valid
  have found := valid.origins_eq.mpr ⟨finished.mem_log.mpr (Or.inr member), same,
    finished.added_origin member⟩
  have found' := valid.origins_eq.mpr
    ⟨finished.mem_log.mpr (Or.inr member'), rfl, finished.added_origin member'⟩
  exact Option.some.inj (found.symm.trans found')

/-- The new mutation shows the integrated moves that win. -/
theorem visible_iff {parent : String} :
    y ∈ state'.resolve.settle.visibleUnder parent ↔
      y ∈ siblings state'.tree parent ∧
        state'.resolve.winners y.block = some y.op := by
  have proper := finished.proper
  have tree_eq : state'.resolve.settle.tree = state'.tree := state'.resolve_tree
  rw [mem_visibleUnder, tree_eq, mem_siblings, and_assoc]
  refine and_congr_right fun member => and_congr_right fun _ => ?_
  have hidden := invisible_iff_winners proper.valid proper.noSelfMove
    (proper.valid.mem_tree.mp member)
  exact (not_congr hidden).trans not_not

/-- Every produced operation wins. -/
theorem added_wins (member : y ∈ added) :
    state'.resolve.winners y.block = some y.op := by
  obtain ⟨z, isProduced, sameBlock, -⟩ := finished.added_produced member
  obtain ⟨op, known, wins, named, -⟩ :=
    finished.crowned.crowned z isProduced
  obtain ⟨y', isAdded, rfl⟩ := List.mem_map.mp known
  obtain rfl := finished.added_unique member isAdded
    (sameBlock.trans named.symm)
  rw [sameBlock, wins]

/-- An old move wins when it won before and its block was not produced. -/
theorem old_wins_iff (member : y ∈ state.log) :
    state'.resolve.winners y.block = some y.op ↔
      y.block ∉ finished.draft.produced.map Move.block ∧
        vt.originalWinners y.block = some y := by
  have base := finished.draft.base
  by_cases isProduced : y.block ∈ finished.draft.produced.map Move.block
  · refine ⟨fun wins => ?_, fun both => absurd isProduced both.1⟩
    exfalso
    obtain ⟨z, isIn, same⟩ := List.mem_map.mp isProduced
    obtain ⟨op, known, wins', -⟩ := finished.crowned.crowned z isIn
    rw [same, wins] at wins'
    obtain ⟨y', isAdded, sameOp⟩ := List.mem_map.mp known
    have sameOrigin : y.opID.origin = y'.opID.origin :=
      congrArg (fun op => op.opID.origin)
        ((Option.some.inj wins').trans sameOp.symm)
    exact finished.isNew.fresh y member
      (sameOrigin.trans (finished.added_origin isAdded))
  · rw [finished.crowned.kept _ isProduced, finished.draft.originals]
    have hidden := invisible_iff_winners base.valid base.noSelfMove member
    have hidden' := (resolve_replayed base.valid base.noSelfMove).invisible_iff
      (x := y)
    rw [hidden] at hidden'
    have loses := hidden'.trans (and_iff_right member)
    exact ⟨fun wins => ⟨isProduced, not_not.mp fun lost =>
      loses.mpr lost wins⟩, fun both => not_not.mp fun lost =>
        loses.mp lost both.2⟩

theorem origin_ne (member : y ∈ state.log) : y.opID.origin ≠ origin :=
  finished.isNew.fresh y member

/-- A move that stands for a visible move wins. -/
theorem wins_of_stands (member : y ∈ state'.log) (stands : Stands vt origin y) :
    state'.resolve.winners y.block = some y.op := by
  rcases finished.mem_log.mp member with old | isAdded
  · have draft := finished.draft
    have wins := stands.resolve_left (finished.origin_ne old)
    have notOwn := draft.base.notOwn y old
    refine (finished.old_wins_iff old).mpr
      ⟨fun isProduced => ?_, draft.winner_original wins notOwn⟩
    obtain ⟨z, isIn, same⟩ := List.mem_map.mp isProduced
    obtain ⟨inTree, own, -⟩ := draft.mem_produced.mp isIn
    exact notOwn (draft.own_eq_of_block inTree own wins same ▸ own)
  · exact finished.added_wins isAdded

/-- A move that wins without standing for a visible move is that of a lost block. -/
theorem lost_of_wins (member : y ∈ state'.log)
    (wins : state'.resolve.winners y.block = some y.op)
    (notStands : ¬ Stands vt origin y) :
    vt.originalWinners y.block = some y ∧ ∃ x ∈ vt.tree, x.IsOwn ∧
      x.block = y.block ∧ x.parent ≠ trashNodeID ∧ ¬ vt.Shown x.parent := by
  have draft := finished.draft
  have old : y ∈ state.log := by
    refine (finished.mem_log.mp member).resolve_right fun isAdded => ?_
    exact notStands (Or.inl (finished.added_origin isAdded))
  obtain ⟨notProduced, wasWinner⟩ := (finished.old_wins_iff old).mp wins
  refine ⟨wasWinner, ?_⟩
  cases winner : vt.dirtyWinners y.block with
  | none =>
      rw [draft.original_won winner] at wasWinner
      cases wasWinner
  | some x =>
      obtain ⟨inTree, named⟩ := draft.winner_mem winner
      have own : x.IsOwn := by
        by_contra notOwn
        have same := draft.winner_original winner notOwn
        rw [wasWinner] at same
        obtain rfl := Option.some.inj same
        exact notStands (Or.inr winner)
      have notIn : x ∉ draft.produced := fun isIn =>
        notProduced (named ▸ List.mem_map_of_mem isIn)
      have place : ¬ (x.parent = trashNodeID ∨ vt.Shown x.parent) := fun place =>
        notIn (draft.mem_produced.mpr ⟨inTree, own, place⟩)
      exact ⟨x, inTree, own, named, fun isTrash => place (Or.inl isTrash),
        fun shown => place (Or.inr shown)⟩

/-- Without a lost move a shown block keeps its children and their order. -/
theorem children_eq (noLost : vt.NoLostMove) {parent : String}
    (shown : vt.Shown parent) :
    (state'.resolve.settle.visibleUnder parent).map Move.block =
      (vt.visibleUnder parent).map Move.block := by
  obtain ⟨count, progress⟩ := finished.progress
  have draft := finished.draft
  have notTrash : parent ≠ trashNodeID := fun isTrash =>
    draft.not_shown_trash (isTrash ▸ shown)
  have allDone : doneUnder vt finished.draft.produced parent =
      vt.visibleUnder parent := by
    refine List.filter_eq_self.mpr fun v member => ?_
    obtain ⟨inTree, under, -⟩ := mem_visibleUnder.mp member
    by_cases own : v.IsOwn
    · simpa using Or.inr (draft.mem_produced.mpr
        ⟨inTree, own, Or.inr (under ▸ shown)⟩)
    · simp [own]
  have visible : state'.resolve.settle.visibleUnder parent =
      (siblings state'.tree parent).filter fun y => Stands vt origin y := by
    have sorted := ((finished.proper.draft.sound.index.keyed parent).sorted.filter
      fun x => x ∉ state'.resolve.settle.dirtyInvisibleMoves)
    refine sorted.eq_of_mem_iff
      ((progress.valid.keyed parent).sorted.filter _) fun y => ?_
    refine finished.visible_iff.trans ?_
    rw [List.mem_filter, decide_eq_true_eq]
    refine and_congr_right fun member => ?_
    have inLog := progress.valid.mem_tree.mp (mem_siblings.mp member).1
    refine ⟨fun wins => ?_, finished.wins_of_stands inLog⟩
    by_contra notStands
    obtain ⟨wasWinner, x, inTree, own, named, outside, hidden⟩ :=
      finished.lost_of_wins inLog wins notStands
    refine noLost x inTree own outside hidden y (named ▸ wasWinner) ?_
    rw [(mem_siblings.mp member).2]
    exact shown
  rw [visible, ← allDone]
  exact progress.order parent notTrash

/-- Shown blocks are shown after the commit. -/
theorem shown {label : String} (shownBefore : vt.Shown label) :
    state'.resolve.settle.Shown label := by
  have draft := finished.draft
  induction shownBefore with
  | root => exact .root
  | @child x above isVisible induction =>
      obtain ⟨inTree, -, visible⟩ := mem_visibleUnder.mp isVisible
      by_cases own : x.IsOwn
      · obtain ⟨op, known, wins, sameBlock, sameParent⟩ :=
          finished.crowned.crowned x
            (draft.mem_produced.mpr ⟨inTree, own, Or.inr above⟩)
        obtain ⟨y, isAdded, rfl⟩ := List.mem_map.mp known
        have inLog := finished.mem_log.mpr (Or.inr isAdded)
        have isChild : y ∈ state'.resolve.settle.visibleUnder y.parent :=
          finished.visible_iff.mpr ⟨mem_siblings.mpr
            ⟨finished.proper.valid.mem_tree.mpr inLog, rfl⟩,
            finished.added_wins isAdded⟩
        rw [← show y.block = x.block from sameBlock]
        exact .child ((show y.parent = x.parent from sameParent) ▸ induction)
          isChild
      · have inLog : x ∈ state'.log := finished.mem_log.mpr
          (Or.inl (draft.mem_log.mpr ⟨inTree, own⟩))
        have stands : Stands vt origin x :=
          Or.inr ((draft.visible_iff inTree).mp visible)
        exact .child induction (finished.visible_iff.mpr ⟨mem_siblings.mpr
          ⟨finished.proper.valid.mem_tree.mpr inLog, rfl⟩,
          finished.wins_of_stands inLog stands⟩)

/-- Without a lost move the walks are the same. -/
theorem walked_eq (noLost : vt.NoLostMove) (fuel : Nat) :
    state'.resolve.settle.walked fuel = vt.walked fuel := by
  have children : ∀ parent, vt.Shown parent → List.Forall₂
      (fun y x : Move => vt.Shown x.block ∧ y.block = x.block ∧
        y.parent = x.parent)
      (state'.resolve.settle.visibleChildren parent)
      (vt.visibleChildren parent) := by
    intro parent isShown
    rw [visibleChildren_eq finished.proper.draft.sound.index,
      visibleChildren_eq finished.draft.sound.index]
    refine (forall₂_of_map_eq (finished.children_eq noLost isShown)).imp ?_
    rintro y x ⟨isChild, isChild', sameBlock⟩
    obtain ⟨-, under, -⟩ := mem_visibleUnder.mp isChild
    obtain ⟨-, under', -⟩ := mem_visibleUnder.mp isChild'
    exact ⟨.child (under' ▸ isShown) (under' ▸ isChild'), sameBlock,
      under.trans under'.symm⟩
  refine walkLoop_congr (fun y x : Move => vt.Shown x.block ∧
    y.block = x.block ∧ y.parent = x.parent) ?_ ?_ fuel
    (children "" .root) []
  · rintro y x ⟨isShown, sameBlock, -⟩
    rw [sameBlock]
    exact children x.block isShown
  · rintro pairs y x ⟨-, sameBlock, sameParent⟩
    rw [sameBlock, sameParent]

/-- A lost block is shown again where it was before the mutation. -/
theorem lost_shown {original : Move} (inTree : x ∈ vt.tree) (own : x.IsOwn)
    (outside : x.parent ≠ trashNodeID) (hidden : ¬ vt.Shown x.parent)
    (wasWinner : vt.originalWinners x.block = some original)
    (isShown : vt.Shown original.parent) :
    original ∈ finished.proper.draft.walk ∧
      (original.parent, original.block) ∉
        finished.draft.walk.map fun m => (m.parent, m.block) := by
  have draft := finished.draft
  obtain ⟨present, sameBlock, notOwn⟩ := draft.original_present wasWinner
  have old : original ∈ state.log := draft.mem_log.mpr ⟨present, notOwn⟩
  have inLog : original ∈ state'.log := finished.mem_log.mpr (Or.inl old)
  have notProduced :
      original.block ∉ finished.draft.produced.map Move.block := by
    intro isProduced
    obtain ⟨z, isIn, same⟩ := List.mem_map.mp isProduced
    obtain ⟨zTree, zOwn, place⟩ := draft.mem_produced.mp isIn
    obtain rfl := draft.own_eq_of_block zTree zOwn (draft.own_wins inTree own)
      (same.trans sameBlock)
    exact place.elim outside hidden
  have wins := (finished.old_wins_iff old).mpr
    ⟨notProduced, sameBlock ▸ wasWinner⟩
  constructor
  · refine finished.proper.draft.mem_walk_iff.mpr
      ⟨finished.visible_iff.mpr ⟨mem_siblings.mpr
        ⟨finished.proper.valid.mem_tree.mpr inLog, rfl⟩, wins⟩,
        finished.shown isShown⟩
  · intro member
    obtain ⟨z, visited, same⟩ := List.mem_map.mp member
    obtain ⟨visible, zShown⟩ := draft.mem_walk_iff.mp visited
    obtain ⟨zTree, -, notHidden⟩ := mem_visibleUnder.mp visible
    have zBlock : x.block = z.block :=
      sameBlock.symm.trans (Prod.mk.inj same).2.symm
    obtain rfl := draft.own_eq_of_block inTree own
      ((draft.visible_iff zTree).mp notHidden) zBlock
    exact hidden zShown

end Finished

end Result

/-! ## Reachable states -/

/-- The states reached by integrating proper operations and committing drafts. -/
inductive Reachable (K : Fracdex) : TreeCRDT → Prop where
  | new : Reachable K newTreeCRDT
  | integrate {state state' : TreeCRDT} (op : MoveOp)
      (reachable : Reachable K state)
      (place : ProperPlace op.block op.parent) (named : op.opID.origin ≠ "")
      (success : state.integrateOp K op = .ok (.ok state')) :
      Reachable K state'
  | commit {state state' : TreeCRDT} {vt : TreeMutation} {calls : List Call}
      {origin : String} {ts : Int} {err : Option String}
      (reachable : Reachable K state)
      (properCalls : ∀ call ∈ calls, ProperCall call)
      (edited : Converges (fun fuel => edit K fuel state calls) (.ok vt))
      (named : origin ≠ "")
      (committed : Converges (fun fuel => vt.commit K fuel origin ts state)
        (.ok (state', err))) :
      Reachable K state'

section Reachable

variable {K : Fracdex} {state state' : TreeCRDT} {vt : TreeMutation}
    {calls : List Call} {origin : String} {ts : Int}

/-- An empty tree has no improper move. -/
theorem ProperState.new : ProperState K newTreeCRDT :=
  ⟨newTreeCRDT_valid K, by simp [newTreeCRDT], by simp [newTreeCRDT]⟩

/-- Integrating a proper move keeps the state proper. -/
theorem ProperState.integrate (proper : ProperState K state) (op : MoveOp)
    (place : ProperPlace op.block op.parent) (named : op.opID.origin ≠ "")
    (success : state.integrateOp K op = .ok (.ok state')) :
    ProperState K state' := by
  obtain ⟨x, integrated⟩ := integrated_of_integrate_eq_ok proper.valid success
  have accepts := accepts_of_integrate_eq_ok proper.valid success
  obtain rfl := integrated.op_eq
  refine ⟨integrated.valid, fun y member => ?_, fun y member => ?_⟩
  · rcases (integrated.mem_log accepts).mp member with rfl | old
    · exact place
    · exact proper.place y old
  · rcases (integrated.mem_log accepts).mp member with rfl | old
    · exact named
    · exact proper.notOwn y old

/-- Every step of a commit keeps the state proper, also when it stops early. -/
theorem ProperState.commitMove {acc acc' : TreeCRDT × Int} {more : Bool}
    {block parent left leftOrigin : String} (proper : ProperState K acc.1)
    (place : ProperPlace block parent) (named : origin ≠ "")
    (returned : commitMove K origin ts acc block parent left leftOrigin =
      .ok (acc', more)) : ProperState K acc'.1 := by
  obtain ⟨result, integrated, returned⟩ := bind_eq_ok.mp returned
  cases result with
  | error err =>
      obtain ⟨rfl, -⟩ := Prod.mk.inj (Except.ok.inj returned)
      exact proper
  | ok next =>
      obtain ⟨rfl, -⟩ := Prod.mk.inj (Except.ok.inj returned)
      exact proper.integrate ⟨⟨origin, ts, acc.2⟩, block, parent, left,
        if left ≠ "" ∧ leftOrigin = "" then origin else leftOrigin⟩
        place named integrated

/-- A commit of proper moves keeps the state proper. -/
theorem Draft.commit_proper (draft : Draft K state vt) (named : origin ≠ "")
    {err : Option String}
    (committed : Converges (fun fuel => vt.commit K fuel origin ts state)
      (.ok (state', err))) : ProperState K state' := by
  obtain ⟨enough, reached⟩ := committed
  have walk := walkDFT_eq_visit draft.sound.index draft.sound.oneVisible
    draft.blocksNamed (vt.reportMove (TreeMutation.commitMove K origin ts))
    (le_max_right enough _) (state, 0)
  have returned := reached _ (le_max_left enough
    (vt.walk draft.sound.index draft.sound.oneVisible
      draft.blocksNamed).length)
  simp only [TreeMutation.commit, forEachMove, walk] at returned
  obtain ⟨⟨last, count⟩, reported, returned⟩ := bind_eq_ok.mp returned
  obtain ⟨rfl, -⟩ := Prod.mk.inj (Except.ok.inj returned)
  obtain ⟨acc, walked, deleted⟩ := bind_eq_ok.mp reported
  have afterWalk : ProperState K acc.1 := by
    refine visit_preserves (fun acc : TreeCRDT × Int => ProperState K acc.1) ?_
      draft.base walked
    intro acc m acc' more visited proper step
    have inTree := draft.mem_tree_of_mem_walk visited
    by_cases own : m.IsOwn
    · have shown := (draft.mem_walk_iff.mp visited).2
      rw [reportMove_of_own own fun isTrash =>
        draft.not_shown_trash (isTrash ▸ shown)] at step
      exact proper.commitMove (draft.place m inTree) named step
    · rw [reportMove_of_not_own own] at step
      obtain ⟨rfl, -⟩ := Prod.mk.inj (Except.ok.inj step)
      exact proper
  refine visit_preserves (fun acc : TreeCRDT × Int => ProperState K acc.1) ?_
    afterWalk deleted
  intro acc m acc' more isIn proper step
  have inTree : m ∈ vt.tree := (List.mem_filter.mp isIn).1
  by_cases isDelete : m.IsOwn ∧ m.parent = trashNodeID
  · rw [reportDelete_of_own isDelete.1 isDelete.2] at step
    exact proper.commitMove (draft.place m inTree) named step
  · rw [reportDelete_of_other isDelete] at step
    obtain ⟨rfl, -⟩ := Prod.mk.inj (Except.ok.inj step)
    exact proper

/-- Every reachable state is proper. -/
theorem Reachable.proper (reachable : Reachable K state) :
    ProperState K state := by
  induction reachable with
  | new => exact .new
  | integrate _ _ place named success induction =>
      exact induction.integrate _ place named success
  | commit _ properCalls edited named committed induction =>
      exact (induction.draft_of_edit properCalls edited).commit_proper named
        committed

/--
After a commit with a new origin and a new timestamp a mutation of the new
state shows the same parents and blocks in the same order exactly when the
mutation that was committed had no lost move.
-/
theorem commit_keeps_walk_iff (reachable : Reachable K state)
    (properCalls : ∀ call ∈ calls, ProperCall call)
    (edited : Converges (fun fuel => edit K fuel state calls) (.ok vt))
    (isNew : NewOrigin state origin ts) :
    ∃ state' vt' pairs pairs',
      Converges (fun fuel => vt.commit K fuel origin ts state)
        (.ok (state', none)) ∧
      Converges (fun fuel => vt.walked fuel) (.ok pairs) ∧
      Converges (fun fuel => state'.mutate fuel) (.ok vt') ∧
      Converges (fun fuel => vt'.walked fuel) (.ok pairs') ∧
      (pairs' = pairs ↔ vt.NoLostMove) := by
  have draft := reachable.proper.draft_of_edit properCalls edited
  obtain ⟨state', count, added, committed, progress⟩ :=
    draft.commit_converges isNew
  have finished : Finished K state vt origin ts added state' :=
    ⟨draft, isNew, count, progress⟩
  have proper := finished.proper
  have before := walked_converges draft.sound.index draft.sound.oneVisible
    draft.blocksNamed
  have after := walked_converges proper.draft.sound.index
    proper.draft.sound.oneVisible proper.draft.blocksNamed
  refine ⟨state', _, _, _, committed, before,
    mutate_converges proper.valid proper.noSelfMove, after, ?_, ?_⟩
  · intro same x inTree own outside hidden original wasWinner isShown
    obtain ⟨visited, notWalked⟩ := finished.lost_shown inTree own outside hidden
      wasWinner isShown
    refine notWalked ?_
    change _ ∈ (vt.walk _ _ _).map _
    rw [← same]
    exact List.mem_map_of_mem (f := fun m : Move => (m.parent, m.block)) visited
  · intro noLost
    exact Except.ok.inj
      (after.unique (before.congr fun fuel => (finished.walked_eq noLost fuel).symm))

end Reachable

/-! ## Sample commits -/

theorem twoBlocks_reachable : Reachable sampleFracdex twoBlocks :=
  .integrate ⟨⟨"alice", 1, 1⟩, "b2", "", "b1", "alice"⟩
    (.integrate ⟨⟨"alice", 1, 0⟩, "b1", "", "", ""⟩ .new
      (by decide) (by decide) rfl)
    (by decide) (by decide) rfl

theorem twoBlocks_newOrigin : NewOrigin twoBlocks "bob" 2 :=
  ⟨by decide, by decide, by decide⟩

theorem commit_keeps_walk_iff_twoBlocks :
    ∃ vt, Converges (fun fuel => edit sampleFracdex fuel twoBlocks
        [⟨"b2", "b1", ""⟩]) (.ok vt) ∧
      ∃ state' vt' pairs pairs',
        Converges (fun fuel => vt.commit sampleFracdex fuel "bob" 2 twoBlocks)
          (.ok (state', none)) ∧
        Converges (fun fuel => vt.walked fuel) (.ok pairs) ∧
        Converges (fun fuel => state'.mutate fuel) (.ok vt') ∧
        Converges (fun fuel => vt'.walked fuel) (.ok pairs') ∧
        (pairs' = pairs ↔ vt.NoLostMove) := by
  have edited : ∃ vt, ∀ fuel, edit sampleFracdex (fuel + 8) twoBlocks
      [⟨"b2", "b1", ""⟩] = .ok vt := ⟨_, fun _ => rfl⟩
  obtain ⟨vt, edited⟩ := edited
  have converges : Converges (fun fuel => edit sampleFracdex fuel twoBlocks
      [⟨"b2", "b1", ""⟩]) (.ok vt) := .of_add 8 edited
  exact ⟨vt, converges, commit_keeps_walk_iff twoBlocks_reachable (by decide)
    converges twoBlocks_newOrigin⟩

/--
Move the second block under the first and delete the first: the mutation shows
nothing, but after the commit the second block is shown at the root again.
-/
theorem commit_loses_move :
    Reachable sampleFracdex twoBlocks ∧ NewOrigin twoBlocks "bob" 2 ∧
      ∃ vt state' vt',
        Converges (fun fuel => edit sampleFracdex fuel twoBlocks
          [⟨"b2", "b1", ""⟩, ⟨"b1", trashNodeID, ""⟩]) (.ok vt) ∧
        Converges (fun fuel => vt.walked fuel) (.ok []) ∧
        Converges (fun fuel => vt.commit sampleFracdex fuel "bob" 2 twoBlocks)
          (.ok (state', none)) ∧
        Converges (fun fuel => state'.mutate fuel) (.ok vt') ∧
        Converges (fun fuel => vt'.walked fuel) (.ok [("", "b2")]) :=
  ⟨twoBlocks_reachable, twoBlocks_newOrigin, _, _, _,
    .of_add 8 fun _ => rfl, .of_add 8 fun _ => rfl, .of_add 8 fun _ => rfl,
    .of_add 8 fun _ => rfl, .of_add 8 fun _ => rfl⟩

end Mintter.Docmodel
